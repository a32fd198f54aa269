import Ucore.Reloc

/-! An instruction pair that is patched by `R_RISCV_HI20` and `R_RISCV_LO12` computes its
symbol if nothing that sets the carried low part stands between the two entries. -/

namespace Ucore.Reloc
open Lib BitVec List

variable {cnt offset : Nat} {i : Nat} {b : Addr}

theorem getLsbD_mask (count : cnt < 64) (i : Nat) : ((1#64 <<< cnt) - 1).getLsbD i = decide (i < cnt) := by
  have value : ((1#64 <<< cnt) - 1).toNat = 2 ^ cnt - 1 := by
    have power : 2 ^ cnt < 2 ^ 64 := Nat.pow_lt_pow_right (by decide) count
    have positive := Nat.two_pow_pos cnt
    have shifted : (1#64 <<< cnt).toNat = 2 ^ cnt := by
      rw [toNat_shiftLeft, Nat.shiftLeft_eq, toNat_ofNat, Nat.one_mul]
      exact Nat.mod_eq_of_lt power
    rw [toNat_sub, show (1 : BitVec 64).toNat = 1 from rfl]
    omega
  rw [← testBit_toNat, value, Nat.testBit_two_pow_sub_one]

theorem getLsbD_pickBits (v : BitVec 64) (count : cnt < 64) (i : Nat) :
    (pickBits v offset cnt).getLsbD i = (v.getLsbD (offset + i) && decide (i < cnt)) := by
  rw [pickBits, getLsbD_and, getLsbD_ushiftRight, getLsbD_mask count i]

theorem getLsbD_setBits (v val : BitVec 64) (count : cnt < 64) (small : i < 64) :
    (setBits v offset cnt val).getLsbD i = if offset ≤ i ∧ i < offset + cnt then val.getLsbD
    (i - offset) else v.getLsbD i := by
  rw [setBits, getLsbD_or, getLsbD_and, getLsbD_not, getLsbD_shiftLeft, getLsbD_shiftLeft,
    getLsbD_and, getLsbD_mask count, decide_eq_true small]
  by_cases inside : offset ≤ i
  · by_cases within : i < offset + cnt
    · simp [inside, within, show i - offset < cnt by omega, show ¬ i < offset by omega]
    · simp [inside, within, show ¬ i - offset < cnt by omega, show ¬ i < offset by omega]
  · simp [inside, show i < offset by omega]

section
variable {m : Bytes} {a : Addr} {val : BitVec 64}

theorem load32_setField (fits : offset + cnt ≤ 32) (small : i < 32) :
    ((setField m a offset cnt val).load32 a).getLsbD i = if offset ≤ i ∧
    i < offset + cnt then val.getLsbD (i - offset) else (m.load32 a).getLsbD i := by
  have low : ∀ m : Bytes, (m.load32 a).getLsbD i = (m.load64 a).getLsbD i := by
    intro m
    rw [Bytes.getLsbD_load32 m a small, Bytes.getLsbD_load64 m a (by omega)]
  rw [low, low, setField, Bytes.load64_store64, getLsbD_setBits _ _ (by omega) (by omega)]

theorem extract_setField (fits : offset + cnt ≤ 32 := by decide) :
    ((setField m a offset cnt val).load32 a).extractLsb' offset cnt = val.extractLsb' 0 cnt := by
  apply eq_of_getLsbD_eq
  intro i small
  rw [getLsbD_extractLsb', getLsbD_extractLsb', load32_setField fits (by omega), if_pos (by omega),
    Nat.add_sub_cancel_left, zero_add]

theorem extract_setField_other {start len : Nat} (fits : offset + cnt ≤ 32 := by decide)
    (inside : start + len ≤ 32 := by decide) (apart : start + len ≤ offset ∨
    offset + cnt ≤ start := by decide) :
    ((setField m a offset cnt val).load32 a).extractLsb' start len = (m.load32 a).extractLsb' start len := by
  apply eq_of_getLsbD_eq
  intro i small
  rw [getLsbD_extractLsb', getLsbD_extractLsb', load32_setField fits (by omega), if_neg (by omega)]

theorem setField_keeps {width : Nat} (behind : width ≤ (b - a).toNat) (count : cnt < 64 := by decide)
    (fits : offset + cnt ≤ 8 * width := by decide) : setField m a offset cnt val b = m b := by
  apply Bytes.store64_keeps
  intro i above _ small
  rw [getLsbD_setBits _ _ count small, if_neg (by omega)]

end

theorem extract_pickBits {v : BitVec 64} {len : Nat} (count : cnt < 64 := by decide)
    (fits : len ≤ cnt := by decide) : (pickBits v offset cnt).extractLsb' 0 len = v.extractLsb'
    offset len := by
  apply eq_of_getLsbD_eq
  intro i small
  rw [getLsbD_extractLsb', getLsbD_extractLsb', zero_add, getLsbD_pickBits v count,
    decide_eq_true (show i < cnt by omega), Bool.and_true]

theorem extract_halves (v : BitVec 64) : v.extractLsb' 5 7 ++ v.extractLsb' 0 5 = v.extractLsb' 0 12 := by
  apply eq_of_getLsbD_eq
  intro i small
  rw [getLsbD_append, getLsbD_extractLsb', getLsbD_extractLsb']
  split
  next low => simp [low, small]
  next high => simp [show i - 5 < 7 by omega, show 5 + (i - 5) = i by omega, small]

/-- The bytes that an entry of this type patches, counted from its location. -/
def RelocType.width : RelocType → Nat
  | .abs64 | .call => 8
  | .hi20 | .lo12I | .lo12S | .branch | .jal => 4
  | .rvcBranch | .rvcJump => 2
  | .align | .relax => 0

theorem patch_keeps (type : RelocType) (location val lo : BitVec 64) (m : Bytes)
    (outside : type.width ≤ (b - location).toNat) : (patch type location val m lo).1 b = m b := by
  cases type with
  | abs64 => exact if_neg (not_lt.mpr outside)
  | lo12I => exact setField_keeps outside
  | lo12S =>
    simp only [patch]
    rw [setField_keeps outside, setField_keeps outside]
  | hi20 =>
    simp only [patch]
    rw [setField_keeps outside, setField_keeps outside]
  | relax | align => rfl
  | call =>
    have wide : 8 ≤ (b - location).toNat := outside
    have behind : 4 ≤ (b - (location + 4)).toNat := by bv_omega
    simp only [patch]
    rw [setField_keeps behind, setField_keeps outside]
  | rvcJump => exact setField_keeps outside
  | rvcBranch =>
    simp only [patch]
    repeat rw [setField_keeps outside]
  | branch =>
    simp only [patch]
    rw [setField_keeps outside, setField_keeps outside]
  | jal => exact setField_keeps outside

def auipc (pc : Addr) (insn : BitVec 32) : BitVec 64 := pc + (insn.extractLsb' 12 20 ++ 0#12).signExtend 64

def immI (insn : BitVec 32) : BitVec 12 := insn.extractLsb' 20 12
def immS (insn : BitVec 32) : BitVec 12 := insn.extractLsb' 25 7 ++ insn.extractLsb' 7 5

/-- The rounded high part and the signed low part add up to a distance of less than about 2 GiB. -/
theorem high_add_low {distance : BitVec 64} (least : -(2 ^ 31) - 2 ^ 11 ≤ distance.toInt)
    (most : distance.toInt < 2 ^ 31 - 2 ^ 11) :
    ((distance + 0x800).extractLsb' 12 20 ++ 0#12).signExtend 64 +
      (distance.extractLsb' 0 12).signExtend 64 = distance := by
  have high : ((distance + 0x800).extractLsb' 12 20 ++ 0#12).toNat = (distance.toNat + 2048) %
    2 ^ 64 / 4096 % 2 ^ 20 * 4096 := by
    rw [toNat_append, extractLsb'_toNat, Nat.shiftRight_eq_div_pow, Nat.shiftLeft_eq]
    simp
  have low : (distance.extractLsb' 0 12).toNat = distance.toNat % 4096 := by rw [extractLsb'_toNat, Nat.shiftRight_zero]
  have bound := distance.isLt
  apply eq_of_toNat_eq
  rw [toInt_eq_toNat_cond] at least most
  rw [toNat_add, toNat_signExtend, toNat_signExtend, msb_eq_decide, msb_eq_decide, toNat_setWidth,
    toNat_setWidth, high, low]
  generalize distance.toNat = t at *
  simp only [decide_eq_true_eq]
  split at least <;> split <;> split <;> omega

section
variable (target : Target) {rel : RelocA}

def turn (state : Bytes × BitVec 64) (rel : RelocA) : Bytes × BitVec 64 :=
  match rel.type with
  | none => state
  | some type => patch type (target.location rel) (target.val rel) state.1 state.2

theorem applyRelocateAdd_eq (m : Bytes) (lo : BitVec 64) (rels : List RelocA)
    (returned : (applyRelocateAdd target m lo rels).1 = 0) : (applyRelocateAdd target m lo rels).2 =
    (rels.foldl (turn target) (m, lo)).1 := by
  induction rels generalizing m lo with
  | nil => rfl
  | cons rel rest ih =>
    rw [applyRelocateAdd] at returned ⊢
    cases known : rel.type with
    | none => simp [known] at returned
    | some =>
      rw [known] at returned
      simp only [foldl_cons, turn, known]
      exact ih _ _ returned

def Covers (rel : RelocA) (b : Addr) : Prop := ∃ type, rel.type = some type ∧ (b - target.location rel).toNat < type.width

def Apart (first second : RelocA) : Prop := ∀ b, Covers target first b → ¬ Covers target second b

theorem foldl_keeps {rels : List RelocA} (state : Bytes × BitVec 64) (outside : ∀ rel ∈ rels,
    ¬ Covers target rel b) : (rels.foldl (turn target) state).1 b = state.1 b := by
  induction rels generalizing state with
  | nil => rfl
  | cons rel rest ih =>
    rw [foldl_cons, ih _ fun other member => outside other (mem_cons_of_mem _ member), turn]
    split
    · rfl
    next type known =>
      apply patch_keeps
      exact not_lt.mp fun inside => outside rel (mem_cons_self ..) ⟨type, known, inside⟩

def SetsLow (rel : RelocA) : Prop := rel.type = some .hi20 ∨ rel.type = some .call
deriving Decidable

/-- The distance that the instructions at an entry have to bridge. -/
def distance (rel : RelocA) : BitVec 64 := target.val rel - target.location rel

theorem turn_low (state : Bytes × BitVec 64) (sets : SetsLow rel) :
    (turn target state rel).2 = pickBits (distance target rel) 0 12 := by
  obtain known | known := sets
  all_goals simp [turn, known, patch, distance]

variable {target} {rels : List RelocA}

theorem turn_keeps_low (state : Bytes × BitVec 64) (other : ¬ SetsLow rel) : (turn target state rel).2 = state.2 := by
  rw [turn]
  split
  · rfl
  next type known =>
    cases type with
    | hi20 => exact absurd (.inl known) other
    | call => exact absurd (.inr known) other
    | _ => rfl

/-- The low part that the last `R_RISCV_HI20` or `R_RISCV_CALL` entry of a list leaves in `lo`. -/
def carried (target : Target) (lo : BitVec 64) (rels : List RelocA) : BitVec 12 :=
  rels.foldl (fun low rel => if SetsLow rel then (distance target rel).extractLsb' 0 12 else low) (lo.extractLsb' 0 12)

theorem carried_eq (state : Bytes × BitVec 64) (rels : List RelocA) :
    ((rels.foldl (turn target) state).2).extractLsb' 0 12 = carried target state.2 rels := by
  induction rels generalizing state with
  | nil => rfl
  | cons rel rest ih =>
    rw [foldl_cons, ih, carried, carried, foldl_cons]
    congr 1
    split
    · next sets => rw [turn_low target state sets, extract_pickBits]
    · next other => rw [turn_keeps_low state other]

theorem load32_final {before after : List RelocA} {type : RelocType} (state : Bytes × BitVec 64)
    (later : ∀ other ∈ after, Apart target rel other) (known : rel.type = some type) (wide : 4 ≤ type.width := by decide) :
    (((before ++ rel :: after).foldl (turn target) state).1).load32 (target.location rel) =
      ((turn target (before.foldl (turn target) state) rel).1).load32 (target.location rel) := by
  rw [foldl_append, foldl_cons]
  apply Bytes.load32_congr
  intro b inside
  apply foldl_keeps
  intro other member
  exact later other member b ⟨type, known, inside.trans_le wide⟩

theorem high_field {before after : List RelocA} (state : Bytes × BitVec 64)
    (later : ∀ other ∈ after, Apart target rel other) (known : rel.type = some .hi20) :
    ((((before ++ rel :: after).foldl (turn target) state).1).load32 (target.location rel)).extractLsb' 12 20 =
        (distance target rel + 0x800).extractLsb' 12 20 ∧
      ((((before ++ rel :: after).foldl (turn target) state).1).load32 (target.location rel)).extractLsb' 0 7 = 0x17#7 := by
  rw [load32_final state later known]
  simp only [turn, known, patch]
  constructor
  · rw [extract_setField_other, extract_setField, extract_pickBits]
    rfl
  · rw [extract_setField]
    rfl

def Low (rel : RelocA) : Prop := rel.type = some .lo12I ∨ rel.type = some .lo12S
deriving Decidable

/-- The immediate of the instruction that an entry for a low part patches. -/
def immediate (rel : RelocA) (insn : BitVec 32) : BitVec 12 := if rel.type = some .lo12S then immS insn else immI insn

theorem low_field {before after : List RelocA} (state : Bytes × BitVec 64)
    (later : ∀ other ∈ after, Apart target rel other) (isLow : Low rel) :
    immediate rel ((((before ++ rel :: after).foldl (turn target) state).1).load32 (target.location rel)) =
      carried target state.2 before := by
  rw [← carried_eq]
  obtain known | known := isLow
  · rw [load32_final state later known, immediate, if_neg (by simp [known])]
    simp only [turn, known, patch, immI]
    rw [extract_setField, extract_pickBits]
  · rw [load32_final state later known, immediate, if_pos known]
    simp only [turn, known, patch, immS]
    rw [extract_setField, extract_setField_other, extract_setField, extract_pickBits, extract_pickBits,
      extract_halves]

/-- The instruction at the `R_RISCV_HI20` entry is an `auipc`, and together with the one at
the low entry it computes S + A. -/
def Computes (target : Target) (m : Bytes) (high low : RelocA) : Prop :=
  (m.load32 (target.location high)).extractLsb' 0 7 = 0x17#7 ∧
    auipc (target.location high) (m.load32 (target.location high)) +
      (immediate low (m.load32 (target.location low))).signExtend 64 = target.val low

/-- Every low entry has an `R_RISCV_HI20` entry for the same symbol and addend. -/
def Refers (rels : List RelocA) (partner : RelocA → RelocA) : Prop :=
  ∀ low ∈ rels, Low low → partner low ∈ rels ∧ (partner low).type = some .hi20 ∧ (partner low).sym = low.sym ∧
    (partner low).addend = low.addend

/-- The distance can be bridged by `auipc` and a signed low part. -/
def InReach (distance : BitVec 64) : Prop := -(2 ^ 31) - 2 ^ 11 ≤ distance.toInt ∧ distance.toInt < 2 ^ 31 - 2 ^ 11
deriving Decidable

/-- The entry is for a low part, or the partner of one. -/
def InPair (rels : List RelocA) (partner : RelocA → RelocA) (rel : RelocA) : Prop :=
  Low rel ∨ ∃ low ∈ rels, Low low ∧ partner low = rel

theorem signExtend_injective {a b : BitVec 12} (same : a.signExtend 64 = b.signExtend 64) : a = b := by
  have equal := congrArg BitVec.toInt same
  rw [toInt_signExtend_of_le (by decide), toInt_signExtend_of_le (by decide)] at equal
  exact eq_of_toInt_eq equal

end

theorem apart_of_le (target : Target) {first second : RelocA} {type other : RelocType} (known : first.type = some type)
    (recognised : second.type = some other) (ordered : first.offset.toNat + type.width ≤
      second.offset.toNat := by
        decide) (bounded : second.offset.toNat + other.width ≤ 2 ^ 64 := by decide) :
          Apart target first second := by
  intro b ⟨kind, same, inside⟩ ⟨kind', same', inside'⟩
  obtain rfl := Option.some.inj (known.symm.trans same)
  obtain rfl := Option.some.inj (recognised.symm.trans same')
  rw [Target.location] at inside inside'
  bv_omega

def high (offset sym : BitVec 64) : RelocA := ⟨offset, (sym <<< 8) ||| 26, 0⟩
def low (offset sym : BitVec 64) : RelocA := ⟨offset, (sym <<< 8) ||| 27, 0⟩

def twoSymbols : Target := ⟨0x1000, fun sym => if sym = 1 then 0x2004 else 0x3010⟩

/-- A pair, and behind it two `R_RISCV_64` entries for another symbol that patch common bytes. -/
def pairThenWords : List RelocA := [high 0 1, low 4 1, ⟨100, 0x202, 0⟩, ⟨104, 0x202, 0⟩]

/-- Two pairs whose entries are interleaved. -/
def interleaved : List RelocA := [high 0 1, high 4 2, low 8 1, low 12 2]

def ownHigh (rel : RelocA) : RelocA := if rel.sym = 1 then high 0 1 else high 4 2

end Ucore.Reloc
