import Ucore.Lib.Spans

/-! Blocks of a power of two in size that start at a multiple of their size. Two
such blocks are nested or apart, and every block has one buddy, with which it
makes the next larger block. -/

namespace Ucore.Lib.BuddyBlocks

def block (start order : Nat) : Span := ⟨start, start + 2 ^ order⟩

def Aligned (start order : Nat) : Prop := start % 2 ^ order = 0

def buddy (start order : Nat) : Nat := start ^^^ 2 ^ order

def parent (start order : Nat) : Nat := start &&& buddy start order

variable {order start : Nat} {i : Nat}

theorem covers_block : (block start order).Covers i ↔ start ≤ i ∧ i < start + 2 ^ order := Iff.rfl

theorem covers_start (start order : Nat) : (block start order).Covers start :=
  ⟨Nat.le_refl _, Nat.lt_add_of_pos_right (Nat.two_pow_pos order)⟩

theorem halves (aligned : Aligned start order) :
    (Aligned start (order + 1) ∧ buddy start order = start + 2 ^ order ∧
    parent start order = start) ∨
      (Aligned (buddy start order) (order + 1) ∧ start = buddy start order + 2 ^ order ∧
        parent start order = buddy start order) := by
  obtain ⟨q, rfl⟩ := Nat.dvd_of_mod_eq_zero aligned
  have scale : ∀ n, n <<< order = 2 ^ order * n := fun n => by rw [Nat.shiftLeft_eq, mul_comm]
  have flipped : buddy (2 ^ order * q) order = 2 ^ order * (q ^^^ 1) := by
    have distributed := @Nat.shiftLeft_xor_distrib order q 1
    rw [scale, scale, scale, mul_one] at distributed
    exact distributed.symm
  have joined : parent (2 ^ order * q) order = 2 ^ order * (q ^^^ (q % 2)) := by
    have inner : q &&& (q ^^^ 1) = q ^^^ (q % 2) := by rw [Nat.and_xor_distrib_left, Nat.and_self, Nat.and_one_is_mod]
    have distributed := @Nat.shiftLeft_and_distrib order q (q ^^^ 1)
    rw [scale, scale, scale, inner] at distributed
    rw [parent, flipped]
    exact distributed.symm
  have double : ∀ m, Aligned (2 ^ order * (2 * m)) (order + 1) := by
    intro m
    rw [← mul_assoc, ← pow_succ]
    exact Nat.mul_mod_right _ _
  rw [flipped, joined]
  rcases Nat.even_or_odd q with even | odd
  · left
    have bit := Nat.even_iff.mp even
    obtain ⟨m, rfl⟩ := Nat.dvd_of_mod_eq_zero bit
    rw [Nat.xor_one_of_even even, bit, Nat.xor_zero, mul_add, mul_one]
    exact ⟨double m, rfl, rfl⟩
  · right
    obtain ⟨m, rfl⟩ := odd
    have bit : (2 * m + 1) % 2 = 1 := by omega
    rw [bit, Nat.xor_one_of_odd ⟨m, rfl⟩, mul_add, mul_one]
    exact ⟨double m, rfl, rfl⟩

theorem Aligned.mono {lower : Nat} (aligned : Aligned start order) (less : lower ≤ order) :
    Aligned start lower := Nat.mod_eq_zero_of_dvd
    ((Nat.pow_dvd_pow 2 less).trans (Nat.dvd_of_mod_eq_zero aligned))

theorem Aligned.next (aligned : Aligned start order) : Aligned (start + 2 ^ order) order := by
  rwa [Aligned, Nat.add_mod_right]

theorem buddy_buddy (start order : Nat) : buddy (buddy start order) order = start :=
  Nat.xor_xor_cancel_right start (2 ^ order)

theorem buddy_ne (start order : Nat) : buddy start order ≠ start := by
  intro same
  have zero : 2 ^ order = 0 := by
    rw [← Nat.xor_xor_cancel_left start (2 ^ order)]
    exact Nat.xor_eq_zero_iff.mpr same.symm
  exact Nat.ne_of_gt (Nat.two_pow_pos order) zero

theorem buddy_of_lower (aligned : Aligned start (order + 1)) : buddy start order = start + 2 ^ order := by
  rcases halves (aligned.mono (Nat.le_succ order)) with ⟨_, same, _⟩ | ⟨lower, same, _⟩
  · exact same
  obtain ⟨m, first⟩ := Nat.dvd_of_mod_eq_zero lower
  obtain ⟨n, second⟩ := Nat.dvd_of_mod_eq_zero aligned
  rw [first, second] at same
  have positive := Nat.two_pow_pos order
  have bad : 2 * n = 2 * m + 1 := by
    apply Nat.eq_of_mul_eq_mul_left positive
    rwa [mul_add, mul_one, ← mul_assoc, ← mul_assoc]
  omega

variable (aligned : Aligned start order)
include aligned

theorem covers_parent : (block (parent start order) (order + 1)).Covers i ↔
    (block start order).Covers i ∨ (block (buddy start order) order).Covers i := by
  simp only [covers_block]
  rcases halves aligned with ⟨_, upper, whole⟩ | ⟨_, upper, whole⟩
  all_goals omega

theorem aligned_parent : Aligned (parent start order) (order + 1) := by
  rcases halves aligned with ⟨lower, _, whole⟩ | ⟨lower, _, whole⟩
  all_goals
    rwa [whole]

theorem covers_iff_div : (block start order).Covers i ↔ i / 2 ^ order = start / 2 ^ order := by
  obtain ⟨q, rfl⟩ := Nat.dvd_of_mod_eq_zero aligned
  have positive := Nat.two_pow_pos order
  rw [covers_block, Nat.mul_div_cancel_left _ positive, Nat.div_eq_iff positive]
  have step := mul_comm q (2 ^ order)
  omega

theorem covers_of_div {lower j : Nat} (less : lower ≤ order) (covers : (block start order).Covers i)
    (same : j / 2 ^ lower = i / 2 ^ lower) : (block start order).Covers j := by
  obtain ⟨more, rfl⟩ := Nat.exists_eq_add_of_le less
  rw [covers_iff_div aligned] at covers ⊢
  rw [← covers, Nat.pow_add, ← Nat.div_div_eq_div_mul, ← Nat.div_div_eq_div_mul, same]

theorem start_unique {other : Nat} (again : Aligned other order)
    (covers : (block start order).Covers i) (here : (block other order).Covers i) :
    start = other := by
  rw [covers_iff_div aligned] at covers
  rw [covers_iff_div again, covers] at here
  exact Nat.div_left_inj (Nat.dvd_of_mod_eq_zero aligned) (Nat.dvd_of_mod_eq_zero again) |>.mp here

end Ucore.Lib.BuddyBlocks
