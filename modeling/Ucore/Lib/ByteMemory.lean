import Mathlib

/-! Memory as bytes at 64-bit addresses, read and written in little-endian words. A word
is known by its bits, and an update of some of its bits changes only the bytes that hold
them. -/

namespace Ucore.Lib

abbrev Addr := BitVec 64

abbrev Bytes := Addr → BitVec 8

namespace Bytes

def load32 (m : Bytes) (a : Addr) : BitVec 32 := m (a + 3) ++ m (a + 2) ++ m (a + 1) ++ m a

def load64 (m : Bytes) (a : Addr) : BitVec 64 := m.load32 (a + 4) ++ m.load32 a

def store64 (m : Bytes) (a : Addr) (v : BitVec 64) : Bytes :=
  fun b => if (b - a).toNat < 8 then v.extractLsb' (8 * (b - a).toNat) 8 else m b

variable {m : Bytes} {i : Nat}

theorem getLsbD_load32 (m : Bytes) (a : Addr) (small : i < 32) :
    (m.load32 a).getLsbD i = (m (a + BitVec.ofNat 64 (i / 8))).getLsbD (i % 8) := by
  simp only [load32, BitVec.getLsbD_append]
  split
  next low =>
    rw [Nat.div_eq_of_lt low, Nat.mod_eq_of_lt low]
    simp
  next =>
    split
    next low =>
      obtain ⟨place, rest⟩ : i / 8 = 1 ∧ i % 8 = i - 8 := by omega
      rw [place, rest]
      rfl
    next =>
      split
      next low =>
        obtain ⟨place, rest⟩ : i / 8 = 2 ∧ i % 8 = i - 8 - 8 := by omega
        rw [place, rest]
        rfl
      next =>
        obtain ⟨place, rest⟩ : i / 8 = 3 ∧ i % 8 = i - 8 - 8 - 8 := by omega
        rw [place, rest]
        rfl

theorem getLsbD_load64 (m : Bytes) (a : Addr) (small : i < 64) :
    (m.load64 a).getLsbD i = (m (a + BitVec.ofNat 64 (i / 8))).getLsbD (i % 8) := by
  rw [load64, BitVec.getLsbD_append]
  split
  next low => exact getLsbD_load32 m a low
  next high =>
    rw [getLsbD_load32 m _ (by omega)]
    have place : i / 8 = 4 + (i - 32) / 8 := by omega
    have rest : (i - 32) % 8 = i % 8 := by omega
    rw [place, rest, BitVec.ofNat_add, ← BitVec.add_assoc]
    rfl

theorem byte_store64 (m : Bytes) (a : Addr) (v : BitVec 64) {k : Nat} (inside : k < 8) :
    m.store64 a v (a + BitVec.ofNat 64 k) = v.extractLsb' (8 * k) 8 := by
  have offset : (a + BitVec.ofNat 64 k - a).toNat = k := by
    rw [BitVec.add_comm, BitVec.add_sub_cancel, BitVec.toNat_ofNat]
    omega
  rw [store64, offset, if_pos inside]

theorem load64_store64 (m : Bytes) (a : Addr) (v : BitVec 64) : (m.store64 a v).load64 a = v := by
  apply BitVec.eq_of_getLsbD_eq
  intro i small
  rw [getLsbD_load64 _ a small, byte_store64 m a v (by omega), BitVec.getLsbD_extractLsb', decide_eq_true (by omega)]
  rw [Bool.true_and, Nat.div_add_mod]

theorem store64_keeps (m : Bytes) (a b : Addr) (v : BitVec 64) (same : ∀ i, 8 * (b - a).toNat ≤ i →
    i < 8 * (b - a).toNat + 8 → i < 64 → v.getLsbD i = (m.load64 a).getLsbD i) :
    m.store64 a v b = m b := by
  rw [store64]
  split
  next inside =>
    have back : a + BitVec.ofNat 64 (b - a).toNat = b := by
      rw [BitVec.ofNat_toNat, BitVec.setWidth_eq, BitVec.add_comm, BitVec.sub_add_cancel]
    apply BitVec.eq_of_getLsbD_eq
    intro i small
    rw [BitVec.getLsbD_extractLsb', decide_eq_true small, Bool.true_and, same _ (by omega) (by omega) (by omega)]
    rw [getLsbD_load64 m a (by omega)]
    have place : (8 * (b - a).toNat + i) / 8 = (b - a).toNat := by omega
    have rest : (8 * (b - a).toNat + i) % 8 = i := by omega
    rw [place, rest, back]
  next => rfl

theorem load32_congr {m' : Bytes} {a : Addr} (same : ∀ b, (b - a).toNat < 4 → m' b = m b) : m'.load32 a = m.load32 a := by
  apply BitVec.eq_of_getLsbD_eq
  intro i small
  rw [getLsbD_load32 m' a small, getLsbD_load32 m a small, same]
  rw [BitVec.add_comm, BitVec.add_sub_cancel, BitVec.toNat_ofNat]
  omega

end Bytes

end Ucore.Lib
