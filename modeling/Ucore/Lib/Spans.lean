import Mathlib

/-! Half-open address ranges kept in ascending order without overlap. The ranges
belong to the elements of a list, so that a range can change under its owner. -/

namespace Ucore.Lib
open List

structure Span where
  start : Nat
  stop : Nat
deriving Repr, DecidableEq

namespace Span

def Covers (span : Span) (addr : Nat) : Prop := span.start ≤ addr ∧ addr < span.stop
deriving Decidable

def Apart (a b : Span) : Prop := a.stop ≤ b.start ∨ b.stop ≤ a.start

def Within (inner outer : Span) : Prop :=
  outer.start ≤ inner.start ∧ inner.start < inner.stop ∧ inner.stop ≤ outer.stop

variable {a b : Span}

theorem Apart.symm (apart : a.Apart b) : b.Apart a := Or.symm apart

theorem Apart.within {a b inner : Span} (apart : a.Apart b) (within : inner.Within b) : a.Apart inner := by
  obtain ⟨first, _, last⟩ := within
  rcases apart with before | after
  · exact .inl (before.trans first)
  · exact .inr (last.trans after)

theorem Apart.not_covers {addr : Nat} (apart : a.Apart b) (covered : a.Covers addr) : ¬ b.Covers addr := by
  intro both
  simp only [Apart, Covers] at apart covered both
  omega

theorem apart_of_no_common (first : a.start < a.stop) (second : b.start < b.stop) (free : ∀ addr,
    a.Covers addr → ¬ b.Covers addr) : a.Apart b := by
  by_contra together
  simp only [Apart, not_or, not_le] at together
  rcases le_total a.start b.start with order | order
  · exact free b.start ⟨order, together.1⟩ ⟨le_rfl, second⟩
  · exact free a.start ⟨le_rfl, first⟩ ⟨order, together.2⟩

variable {α : Type}

/-- The ranges of a list are not empty, ascend, and do not overlap. -/
structure Ordered (span : α → Span) (owners : List α) : Prop where
  full : ∀ p ∈ owners, (span p).start < (span p).stop
  ascending : owners.Pairwise fun p q => (span p).stop ≤ (span q).start

variable {span : α → Span} {owners : List α} {other : α → Span}

theorem Ordered.nil : Ordered span [] := ⟨by simp, .nil⟩

section
variable (ordered : Ordered span owners) {p q : α}
include ordered

theorem Ordered.starts : owners.Pairwise fun p q => (span p).start < (span q).start :=
  ordered.ascending.imp_of_mem fun member _ before => Nat.lt_of_lt_of_le (ordered.full _ member)
    before

theorem Ordered.nodup : owners.Nodup := by
  apply ordered.starts.imp
  intro p q less same
  subst same
  exact lt_irrefl _ less

theorem Ordered.apart (first : p ∈ owners) (second : q ∈ owners) (different : p ≠ q) : (span p).Apart (span q) := by
  have either : owners.Pairwise fun p q => (span p).Apart (span q) := ordered.ascending.imp .inl
  have symmetric : Std.Symm fun p q => (span p).Apart (span q) := ⟨fun _ _ => Apart.symm⟩
  exact either.forall first second different

theorem Ordered.unique {addr : Nat} (first : p ∈ owners) (second : q ∈ owners)
    (here : (span p).Covers addr) (there : (span q).Covers addr) : p = q := by
  by_contra different
  exact (ordered.apart first second different).not_covers here there

theorem Ordered.sublist {fewer : List α} (sub : fewer.Sublist owners) : Ordered span fewer :=
  ⟨fun p member => ordered.full p (sub.subset member), ordered.ascending.sublist sub⟩

theorem Ordered.congr (same : ∀ p ∈ owners, other p = span p) : Ordered other owners := by
  refine ⟨fun p member => same p member ▸ ordered.full p member, ?_⟩
  apply ordered.ascending.imp_of_mem
  intro p q first second before
  rwa [same p first, same q second]

theorem Ordered.shrink (within : ∀ p ∈ owners, (other p).Within (span p)) : Ordered other owners := by
  refine ⟨fun p member => (within p member).2.1, ?_⟩
  apply ordered.ascending.imp_of_mem
  intro p q first second before
  exact Nat.le_trans (within p first).2.2 (before.trans (within q second).1)

end

/-- A new range that overlaps no other goes between those that start before it
and those that start after it. -/
theorem Ordered.insert {before after : List α} {new : α} (ordered : Ordered span (before ++ after))
    (full : (span new).start < (span new).stop) (apart : ∀ p ∈ before ++ after,
      (span new).Apart (span p)) (lower : ∀ p ∈ before, (span p).start ≤ (span new).start)
    (upper : ∀ p ∈ after, (span new).start ≤ (span p).start) : Ordered span (before ++ new :: after) := by
  have below : ∀ p ∈ before, (span p).stop ≤ (span new).start := by
    intro p member
    have first := lower p member
    rcases apart p (mem_append_left _ member) with less | more
    · omega
    · exact more
  have beyond : ∀ p ∈ after, (span new).stop ≤ (span p).start := by
    intro p member
    have own := ordered.full p (mem_append_right _ member)
    have first := upper p member
    rcases apart p (mem_append_right _ member) with less | more
    · exact less
    · omega
  obtain ⟨left, right, across⟩ := pairwise_append.mp ordered.ascending
  refine ⟨?_, pairwise_append.mpr ⟨left, pairwise_cons.mpr ⟨beyond, right⟩, ?_⟩⟩
  · intro p member
    simp only [mem_append, mem_cons] at member
    rcases member with member | rfl | member
    · exact ordered.full p (mem_append_left _ member)
    · exact full
    · exact ordered.full p (mem_append_right _ member)
  · intro p first q second
    rcases mem_cons.mp second with rfl | second
    · exact below p first
    · exact across p first q second

theorem Ordered.grow {p : α} {stop : Nat} (ordered : Ordered span owners) (member : p ∈ owners)
    (own : other p = ⟨(span p).start, stop⟩) (same : ∀ q, q ≠ p → other q = span q)
    (longer : (span p).stop ≤ stop)
    (free : ∀ q ∈ owners, (span q).Apart ⟨(span p).stop, stop⟩) : Ordered other owners := by
  have full := ordered.full p member
  constructor
  · intro q inside
    by_cases here : q = p
    · rw [here, own]
      exact full.trans_le longer
    · rw [same q here]
      exact ordered.full q inside
  apply ordered.ascending.imp_of_mem
  intro a b first second before
  have fullB := ordered.full b second
  by_cases here : a = p
  · have there : b ≠ p := by
      intro clash
      rw [here, clash] at before
      omega
    rw [here] at before ⊢
    rw [own, same b there]
    rcases free b second with less | more
    · simp only at less
      omega
    · exact more
  · rw [same a here]
    by_cases there : b = p
    · rw [there] at before ⊢
      rwa [own]
    · rwa [same b there]

end Span
end Ucore.Lib
