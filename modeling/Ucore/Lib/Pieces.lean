import Mathlib

/-! Loops that cut a range of addresses at the multiples of a unit and work on one
piece at a time. What such a loop does to each granule of the range is read off from
what it does to each granule of a piece. -/

namespace Ucore.Lib
open List

universe u v

/-- Part of a range: from `off` to `stop`, counted from the multiple `la` of the unit. -/
structure Piece where
  la : Nat
  off : Nat
  stop : Nat
deriving Repr, DecidableEq

/-- The pieces of `[start, stop)`, where `la` is the multiple of `unit` at or below `start`. -/
def pieces (unit : Nat) : Nat → Nat → Nat → Nat → List Piece
  | 0, _, _, _ => []
  | fuel + 1, la, start, stop =>
    let off := start - la
    let size := min (unit - off) (stop - start)
    ⟨la, off, off + size⟩ :: if start + size < stop then pieces unit fuel (la + unit) (start + size) stop else []

/-- The granules of a range, by number. -/
def granules (granule start stop : Nat) : List Nat := range' (start / granule) ((stop - start) / granule)

variable {granule unit : Nat}

theorem granules_append {start middle stop : Nat} (positive : 0 < granule) (first : granule ∣ start)
    (second : granule ∣ middle)
    (last : granule ∣ stop) (lower : start ≤ middle) (upper : middle ≤ stop) :
      granules granule start middle ++ granules granule middle stop = granules granule start
      stop := by
  obtain ⟨a, rfl⟩ := first
  obtain ⟨b, rfl⟩ := second
  obtain ⟨c, rfl⟩ := last
  have order := Nat.le_of_mul_le_mul_left lower positive
  have order' := Nat.le_of_mul_le_mul_left upper positive
  simp only [granules, ← Nat.mul_sub, Nat.mul_div_cancel_left _ positive]
  have joined := range'_append_1 (s := a) (m := b - a) (n := c - b)
  rwa [Nat.add_sub_cancel' order, show b - a + (c - b) = c - a by omega] at joined

theorem mem_granules {start stop k : Nat} (positive : 0 < granule) (first : granule ∣ start)
    (last : granule ∣ stop) : k ∈ granules granule start stop ↔ start ≤ k * granule ∧
    k * granule < stop := by
  obtain ⟨a, rfl⟩ := first
  obtain ⟨c, rfl⟩ := last
  simp only [granules, ← Nat.mul_sub, Nat.mul_div_cancel_left _ positive, mem_range'_1, mul_comm k]
  rw [Nat.mul_le_mul_left_iff positive, Nat.mul_lt_mul_left positive]
  omega

variable {m : Type u → Type v} [Monad m] [LawfulMonad m] {σ : Type u}

/-- A loop over the pieces of a range, which lies above `base`, is a loop over its granules. -/
theorem foldlM_pieces {body : σ → Piece → m σ} {act : σ → Nat → m σ} (positive : 0 < granule)
    (whole : granule ∣ unit) (base : Nat) (above : granule ∣ base) (fuel la start stop : Nat)
    (aligned : unit ∣ la) (low : la ≤ start)
    (near : start < la + unit) (first : granule ∣ start) (last : granule ∣ stop)
      (full : start < stop) (enough : stop ≤ start + fuel)
    (each : ∀ s (piece : Piece), unit ∣ piece.la → granule ∣ piece.off → granule ∣ piece.stop → piece.off < piece.stop →
      piece.stop ≤ unit → body s piece = (granules granule (base + (piece.la + piece.off))
        (base + (piece.la + piece.stop))).foldlM act s) (s : σ) :
    (pieces unit fuel la start stop).foldlM body s = (granules granule (base + start) (base + stop)).foldlM act s := by
  induction fuel generalizing la start s with
  | zero => omega
  | succ fuel ih =>
    have offset := Nat.dvd_sub first (Nat.dvd_trans whole aligned)
    generalize sizeIs : min (unit - (start - la)) (stop - start) = size
    have divides : granule ∣ size := by
      rw [← sizeIs]
      rcases le_total (unit - (start - la)) (stop - start) with less | less
      · rw [Nat.min_eq_left less]
        exact Nat.dvd_sub whole offset
      · rw [Nat.min_eq_right less]
        exact Nat.dvd_sub last first
    have some : 0 < size := by omega
    have piece : body s ⟨la, start - la, start - la + size⟩ =
      (granules granule (base + start) (base + (start + size))).foldlM act s := by
      have done := each s ⟨la, start - la, start - la + size⟩ aligned offset
        (dvd_add offset divides) (Nat.lt_add_of_pos_right some) (by dsimp only; omega)
      rwa [show la + (start - la) = start by omega, show la + (start - la + size) = start + size by omega] at done
    simp only [pieces, sizeIs, foldlM_cons, piece]
    by_cases more : start + size < stop
    · have cut := granules_append positive (dvd_add above first)
        (dvd_add above (dvd_add first divides)) (dvd_add above last)
        (Nat.add_le_add_left (Nat.le_add_right start size) base) (Nat.add_le_add_left more.le base)
      rw [if_pos more, ← cut, foldlM_append]
      congr 1
      funext after
      exact ih (la + unit) (start + size) (dvd_add aligned (dvd_refl unit)) (by omega) (by omega)
        (dvd_add first divides) more (by omega) after
    · rw [show start + size = stop by omega]
      simp

theorem foldlM_guard {φ α : Type u} {flag : σ → Prop} [DecidablePred flag] {act : σ → α → Except φ σ}
    (same : ∀ s a after, act s a = .ok after → (flag after ↔ flag s)) (list : List α) (s : σ) :
    list.foldlM (fun s a => if flag s then act s a else pure s) s = if flag s then list.foldlM act s else pure s := by
  induction list generalizing s with
  | nil => simp
  | cons a rest ih =>
    rw [foldlM_cons, foldlM_cons]
    by_cases set : flag s
    · rw [if_pos set, if_pos set]
      cases ran : act s a with
      | error => rfl
      | ok after =>
        have kept := (same s a after ran).mpr set
        exact (ih after).trans (if_pos kept)
    · rw [if_neg set, if_neg set]
      exact (ih s).trans (if_neg set)

end Ucore.Lib
