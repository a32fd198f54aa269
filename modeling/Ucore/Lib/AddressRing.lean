import Mathlib

/-! Circular lists in address order. The members are a finite set of numbers, and the link
of each one leads to the next larger one, or from the largest to the smallest. -/

namespace Ucore.Lib
open Function Finset

/-- Going up from `a` to `b`, around the end if need be, `x` is passed. -/
def Between (a x b : Nat) : Prop := (a < x ∧ x < b) ∨ (b ≤ a ∧ (a < x ∨ x < b))
deriving Decidable

/-- Every link leads to a member, and passes none. -/
structure AddressRing (members : Finset Nat) (next : Nat → Nat) : Prop where
  closed : ∀ a ∈ members, next a ∈ members
  passes : ∀ a ∈ members, ∀ c ∈ members, ¬ Between a c (next a)

namespace AddressRing

variable {members : Finset Nat} {next : Nat → Nat} {a b : Nat}

section
variable (ring : AddressRing members next)
include ring

theorem congr {other : Nat → Nat} (same : ∀ a ∈ members, other a = next a) : AddressRing members other := by
  constructor
  · intro a member
    rw [same a member]
    exact ring.closed a member
  · intro a member
    rw [same a member]
    exact ring.passes a member

theorem next_injective (first : a ∈ members) (second : b ∈ members) (same : next a = next b) : a = b := by
  have forth := ring.passes a first b second
  have back := ring.passes b second a first
  unfold Between at forth back
  omega

theorem insert {p x : Nat} (member : p ∈ members) (gap : Between p x (next p)) :
    AddressRing (Insert.insert x members) (update (update next x (next p)) p x) := by
  have mine := ring.passes p member
  constructor
  · intro a inside
    simp only [update_apply]
    split
    · exact mem_insert_self ..
    next =>
      split
      · exact mem_insert_of_mem (ring.closed p member)
      next other => exact mem_insert_of_mem (ring.closed a (mem_of_mem_insert_of_ne inside other))
  intro a inside c passed
  simp only [update_apply]
  unfold Between at gap mine ⊢
  have known := mem_insert.mp passed
  split
  next here =>
    obtain rfl | old := known
    · omega
    · have := mine c old
      omega
  next away =>
    split
    next here =>
      obtain rfl | old := known
      · omega
      · have := mine c old
        omega
    next other =>
      have old := mem_of_mem_insert_of_ne inside other
      obtain rfl | present := known
      -- The new member would lie behind `a` as well as behind `p`.
      · have one := ring.passes a old p member
        have two := mine a old
        have three := ring.passes a old (next p) (ring.closed p member)
        unfold Between at one three
        omega
      · exact ring.passes a old c present

theorem remove {p : Nat} (member : p ∈ members) (several : next p ≠ p) :
    AddressRing (members.erase (next p)) (update next p (next (next p))) := by
  constructor
  · intro a inside
    obtain ⟨other, old⟩ := mem_erase.mp inside
    rw [update_apply]
    split
    next here =>
      refine mem_erase.mpr ⟨?_, ring.closed _ (ring.closed p member)⟩
      intro alone
      exact several (ring.next_injective (ring.closed p member) member alone)
    next away =>
      refine mem_erase.mpr ⟨?_, ring.closed a old⟩
      intro same
      exact away (ring.next_injective old member same)
  · intro a inside c passed
    obtain ⟨other, old⟩ := mem_erase.mp inside
    obtain ⟨different, present⟩ := mem_erase.mp passed
    rw [update_apply]
    split
    next here =>
      subst here
      have first := ring.passes a old c present
      have second := ring.passes (next a) (ring.closed a old) c present
      unfold Between at *
      omega
    next => exact ring.passes a old c present

end

/-- The members that are met on the way from `a` to `b`. -/
def ahead (members : Finset Nat) (a b : Nat) : Finset Nat :=
  members.filter fun c => if a < b then a < c ∧ c ≤ b else a < c ∨ c ≤ b

section
variable (ring : AddressRing members next)
include ring

theorem ahead_next (first : a ∈ members) (second : b ∈ members) (apart : next a ≠ b) :
    (ahead members (next a) b).card < (ahead members a b).card := by
  have target := ring.passes a first b second
  unfold Between at target
  apply card_lt_card
  refine ssubset_iff_of_subset ?_ |>.mpr ⟨next a, ?_, ?_⟩
  · intro c member
    obtain ⟨known, between⟩ := mem_filter.mp member
    refine mem_filter.mpr ⟨known, ?_⟩
    split at between <;> split <;> omega
  · refine mem_filter.mpr ⟨ring.closed a first, ?_⟩
    split <;> omega
  · intro again
    have := (mem_filter.mp again).2
    split at this <;> omega

theorem walk (holds : Nat → Nat → Prop) {target : Nat} (member : target ∈ members) (here : ∀ fuel,
    holds (fuel + 1) target) (onward : ∀ a ∈ members, a ≠ target → ∀ fuel, holds fuel (next a) →
    holds (fuel + 1) a)
    {a : Nat} (start : a ∈ members) {fuel : Nat} (enough : members.card < fuel) : holds fuel a := by
  have bounded : (ahead members a target).card ≤ members.card := card_filter_le ..
  have sufficient : (ahead members a target).card < fuel := by omega
  clear enough bounded
  induction fuel generalizing a with
  | zero => omega
  | succ fuel ih =>
    by_cases arrived : a = target
    · exact arrived ▸ here fuel
    apply onward a start arrived
    by_cases almost : next a = target
    · have step : next a ∈ ahead members a target := by
        refine mem_filter.mpr ⟨ring.closed a start, ?_⟩
        split <;> omega
      have positive := card_pos.mpr ⟨_, step⟩
      obtain ⟨less, rfl⟩ : ∃ less, fuel = less + 1 := ⟨fuel - 1, by omega⟩
      exact almost ▸ here less
    · have closer := ring.ahead_next start member almost
      exact ih (ring.closed a start) (by omega)

theorem exists_place {x a : Nat} (member : a ∈ members) (fresh : x ∉ members) : ∃ p ∈ members, Between p x (next p) := by
  have differs : ∀ c ∈ members, c ≠ x := fun c present same => fresh (same ▸ present)
  by_cases below : (members.filter (· < x)).Nonempty
  · have largest := max'_mem _ below
    obtain ⟨present, less⟩ := mem_filter.mp largest
    refine ⟨_, present, ?_⟩
    have follows := ring.closed _ present
    have other := differs _ follows
    by_cases turns : next ((members.filter (· < x)).max' below) ≤ (members.filter (· < x)).max' below
    · exact .inr ⟨turns, .inl less⟩
    refine .inl ⟨less, ?_⟩
    by_contra still
    have smaller : next ((members.filter (· < x)).max' below) ∈ members.filter (· < x) := mem_filter.mpr ⟨follows, by omega⟩
    exact turns (le_max' _ _ smaller)
  · have largest := max'_mem members ⟨a, member⟩
    have follows := ring.closed _ largest
    have other := differs _ follows
    refine ⟨_, largest, .inr ⟨le_max' _ _ follows, .inr ?_⟩⟩
    by_contra still
    exact below ⟨_, mem_filter.mpr ⟨follows, by omega⟩⟩

end

end AddressRing

end Ucore.Lib
