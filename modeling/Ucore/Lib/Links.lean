import Mathlib

/-! Intrusive circular lists. Every entry has a successor and a predecessor, and the
operations only write these two; which entries form a list is a property of the links. -/

namespace Ucore.Lib
open Function List

variable {ε : Type}

structure Links (ε : Type) where
  next : ε → ε
  prev : ε → ε

namespace Links

section Operations
variable [DecidableEq ε]

def setNext (l : Links ε) (e target : ε) : Links ε := { l with next := update l.next e target }

def setPrev (l : Links ε) (e target : ε) : Links ε := { l with prev := update l.prev e target }

def init (l : Links ε) (e : ε) : Links ε := (l.setNext e e).setPrev e e

/-- `__list_add` -/
def insert (l : Links ε) (e prev next : ε) : Links ε :=
  (((l.setPrev next e).setNext prev e).setNext e next).setPrev e prev

/-- `list_add_after`, which is also `list_add` -/
def addAfter (l : Links ε) (place e : ε) : Links ε := l.insert e place (l.next place)

def addBefore (l : Links ε) (place e : ε) : Links ε := l.insert e (l.prev place) place

def del (l : Links ε) (e : ε) : Links ε := (l.setNext (l.prev e) (l.next e)).setPrev (l.next e) (l.prev e)

/-- The entries from the one after `e` on up to the head, at most as many as the bound. -/
def walk (l : Links ε) (head : ε) : Nat → ε → List ε
  | 0, _ => []
  | bound + 1, e => if l.next e = head then [] else l.next e :: walk l head bound (l.next e)

end Operations

/-- The links lead from `a` through the entries to `b`, and back. -/
def Path (l : Links ε) : ε → List ε → ε → Prop
  | a, [], b => l.next a = b ∧ l.prev b = a
  | a, e :: rest, b => l.next a = e ∧ l.prev e = a ∧ l.Path e rest b

/-- The entries of a list, in order from its head. -/
structure Circle (l : Links ε) (head : ε) (entries : List ε) : Prop where
  path : l.Path head entries head
  distinct : (head :: entries).Nodup

variable {l : Links ε} {entries : List ε} {head : ε} {before after : List ε} {m : Links ε}

theorem path_append {a e b : ε} : l.Path a (before ++ e :: after) b ↔ l.Path a before e ∧ l.Path e after b := by
  induction before generalizing a with
  | nil => simp [Path, and_assoc]
  | cons first rest ih => simp [Path, ih, and_assoc]

/-- A path depends on the successors of all but its last entry and the predecessors of all but its
first. -/
theorem Path.congr {a b : ε} (path : l.Path a entries b) (next : ∀ e ∈ a :: entries,
    m.next e = l.next e) (prev : ∀ e ∈ entries ++ [b], m.prev e = l.prev e) :
    m.Path a entries b := by
  induction entries generalizing a with
  | nil => exact ⟨(next a (by simp)).trans path.1, (prev b (by simp)).trans path.2⟩
  | cons first rest ih =>
    obtain ⟨leads, back, onward⟩ := path
    refine ⟨(next a (by simp)).trans leads, (prev first (by simp)).trans back, ih onward ?_ ?_⟩
    · exact fun e listed => next e (mem_cons_of_mem _ listed)
    · exact fun e listed => prev e (mem_cons_of_mem _ listed)

theorem Circle.congr (circle : l.Circle head entries) (next : ∀ e ∈ head :: entries,
    m.next e = l.next e) (prev : ∀ e ∈ head :: entries, m.prev e = l.prev e) :
    m.Circle head entries := by
  refine ⟨circle.path.congr next fun e listed => prev e ?_, circle.distinct⟩
  rw [mem_append, mem_singleton] at listed
  exact mem_cons.mpr listed.symm

theorem Circle.turn {e : ε} (circle : l.Circle head (before ++ e :: after)) : l.Circle e (after ++ head :: before) := by
  obtain ⟨first, second⟩ := path_append.mp circle.path
  refine ⟨path_append.mpr ⟨second, first⟩, ?_⟩
  have distinct := circle.distinct
  rwa [← cons_append, nodup_append_comm] at distinct

section
variable (circle : l.Circle head entries)
include circle

theorem Circle.root {e : ε} (listed : e ∈ head :: entries) : ∃ others, l.Circle e others ∧ ∀ d,
    d ∈ e :: others ↔ d ∈ head :: entries := by
  rcases mem_cons.mp listed with rfl | inside
  · exact ⟨entries, circle, fun _ => Iff.rfl⟩
  obtain ⟨before, after, rfl⟩ := append_of_mem inside
  refine ⟨_, circle.turn, fun d => ?_⟩
  simp only [mem_cons, mem_append]
  constructor
  · rintro (rfl | late | rfl | early) <;> simp_all
  · rintro (rfl | early | rfl | late) <;> simp_all

theorem Circle.neighbours : l.next head ∈ head :: entries ∧ l.prev head ∈ head :: entries := by
  constructor
  · cases entries with
    | nil | cons => simp [circle.path.1]
  rcases eq_nil_or_concat entries with rfl | ⟨start, last, rfl⟩
  · simp [circle.path.2]
  · rw [concat_eq_append] at circle ⊢
    have turned := circle.turn
    simp [turned.path.2.1]

theorem Circle.next_eq_head : l.next head = head ↔ entries = [] := by
  cases entries with
  | nil => simpa using circle.path.1
  | cons first =>
    have apart : head ≠ first := fun same => (nodup_cons.mp circle.distinct).1 (by simp [same])
    rw [circle.path.1]
    simp [Ne.symm apart]

end

section Operations
variable [DecidableEq ε] {l : Links ε} {entries : List ε} {e head : ε}

@[simp] theorem next_setNext (e target other : ε) : (l.setNext e target).next other = if other =
    e then target else l.next other := by simp [setNext, update_apply]

@[simp] theorem prev_setNext (e target other : ε) : (l.setNext e target).prev other = l.prev other := rfl

@[simp] theorem next_setPrev (e target other : ε) : (l.setPrev e target).next other = l.next other := rfl

@[simp] theorem prev_setPrev (e target other : ε) : (l.setPrev e target).prev other = if other =
    e then target else l.prev other := by simp [setPrev, update_apply]

theorem next_insert (e prev next other : ε) : (l.insert e prev next).next other = if other = e then
    next else if other = prev then e else l.next other := by simp [insert]

theorem prev_insert (e prev next other : ε) : (l.insert e prev next).prev other = if other = e then
    prev else if other = next then e else l.prev other := by simp [insert]

theorem next_del (e other : ε) : (l.del e).next other = if other = l.prev e then l.next e else l.next other := by simp [del]

theorem prev_del (e other : ε) : (l.del e).prev other = if other = l.next e then l.prev e else l.prev other := by simp [del]

section
variable (circle : l.Circle head entries)
include circle

theorem Circle.insert_other {prev next : ε} (apart : ∀ other ∈ head :: entries, other ≠ e ∧
    other ≠ prev ∧ other ≠ next) : (l.insert e prev next).Circle head entries := by
  refine circle.congr (fun other listed => ?_) fun other listed => ?_
  · rw [next_insert, if_neg (apart other listed).1, if_neg (apart other listed).2.1]
  · rw [prev_insert, if_neg (apart other listed).1, if_neg (apart other listed).2.2]

theorem Circle.del_other (apart : ∀ other ∈ head :: entries, other ≠ l.prev e ∧ other ≠ l.next e) :
    (l.del e).Circle head entries := by
  refine circle.congr (fun other listed => ?_) fun other listed => ?_
  · rw [next_del, if_neg (apart other listed).1]
  · rw [prev_del, if_neg (apart other listed).2]

theorem Circle.init_other (apart : e ∉ head :: entries) : (l.init e).Circle head entries := by
  have other : ∀ d ∈ head :: entries, d ≠ e := fun d listed same => apart (same ▸ listed)
  refine circle.congr (fun d listed => ?_) fun d listed => ?_
  all_goals simp [init, other d listed]

end

theorem circle_init (l : Links ε) (e : ε) : (l.init e).Circle e [] := by refine ⟨⟨?_, ?_⟩, nodup_singleton e⟩ <;> simp [init]

/-- A new entry goes between a place and what follows it, whatever the entry was linked to. -/
theorem Circle.addAfter (circle : l.Circle head entries) (new : e ∉ head :: entries) :
    (l.addAfter head e).Circle head (e :: entries) := by
  obtain ⟨path, distinct⟩ := circle
  have away := ne_of_not_mem_cons new
  refine ⟨?_, nodup_cons.mpr ⟨?_, nodup_cons.mpr ⟨fun listed => new (mem_cons_of_mem _ listed), distinct.tail⟩⟩⟩
  · cases entries with
    | nil =>
      rw [Links.addAfter, path.1]
      simp [Path, next_insert, prev_insert, away.symm]
    | cons first rest =>
      obtain ⟨leads, back, onward⟩ := path
      have apart : ∀ other ∈ first :: rest, other ≠ e ∧ other ≠ head := by
        intro other listed
        refine ⟨fun same => new (same ▸ mem_cons_of_mem _ listed), fun same => ?_⟩
        exact (nodup_cons.mp distinct).1 (same ▸ listed)
      rw [Links.addAfter, leads]
      refine ⟨?_, ?_, ?_, ?_, onward.congr ?_ ?_⟩
      · simp [next_insert, away.symm]
      · simp [prev_insert]
      · simp [next_insert]
      · simp [prev_insert, (apart first (by simp)).1]
      · intro other listed
        rw [next_insert, if_neg (apart other listed).1, if_neg (apart other listed).2]
      intro other listed
      have fresh : other ≠ e := by
        rintro rfl
        rcases mem_append.mp listed with inside | last
        · exact new (by simp [inside])
        · exact away (mem_singleton.mp last)
      have later : other ≠ first := by
        rintro rfl
        rcases mem_append.mp listed with inside | last
        · exact (nodup_cons.mp distinct.tail).1 inside
        · exact (apart other (by simp)).2 (mem_singleton.mp last)
      rw [prev_insert, if_neg fresh, if_neg later]
  · simp only [mem_cons, not_or]
    exact ⟨away.symm, (nodup_cons.mp distinct).1⟩

theorem Circle.del_first (circle : l.Circle head (e :: entries)) : (l.del e).Circle head entries := by
  obtain ⟨⟨leads, back, onward⟩, distinct⟩ := circle
  have apart := (nodup_cons.mp distinct).1
  have short := (nodup_cons.mp distinct).2
  refine ⟨?_, nodup_cons.mpr ⟨fun listed => apart (mem_cons_of_mem _ listed), short.tail⟩⟩
  cases entries with
  | nil => simp [Path, next_del, prev_del, back, onward.1]
  | cons =>
    obtain ⟨second, behind, further⟩ := onward
    refine ⟨?_, ?_, further.congr ?_ ?_⟩
    · simp [next_del, back, second]
    · simp [prev_del, back, second]
    · intro other listed
      rw [next_del, back, if_neg]
      rintro rfl
      exact apart (mem_cons_of_mem _ listed)
    · intro other listed
      rw [prev_del, second, if_neg]
      rintro rfl
      rcases mem_append.mp listed with inside | last
      · exact (nodup_cons.mp short.tail).1 inside
      · exact apart (by simp [mem_singleton.mp last])

section
variable (circle : l.Circle head entries)
include circle

theorem Circle.del (listed : e ∈ entries) : (l.del e).Circle head (entries.erase e) := by
  obtain ⟨before, after, rfl⟩ := append_of_mem listed
  have absent : e ∉ before := by
    have distinct := (nodup_cons.mp circle.distinct).2
    exact fun inside => (nodup_append.mp distinct).2.2 e inside e (by simp) rfl
  rw [erase_append_right _ absent, erase_cons_head]
  rcases eq_nil_or_concat before with rfl | ⟨start, last, rfl⟩
  · exact circle.del_first
  · rw [concat_eq_append, append_assoc] at circle ⊢
    have turned := circle.turn
    exact turned.del_first.turn

theorem Circle.addBefore (new : e ∉ head :: entries) : (l.addBefore head e).Circle head (entries ++ [e]) := by
  rcases eq_nil_or_concat entries with rfl | ⟨start, last, rfl⟩
  · have same : l.addBefore head e = l.addAfter head e := by
      rw [Links.addBefore, Links.addAfter, circle.path.1, circle.path.2]
    rw [same]
    exact circle.addAfter new
  rw [concat_eq_append] at circle new ⊢
  have turned := circle.turn
  have same : l.addBefore head e = l.addAfter last e := by
    rw [Links.addBefore, Links.addAfter, turned.path.1, turned.path.2.1]
  rw [same, append_assoc]
  have added := turned.addAfter fun listed => new (by simpa [or_comm, or_left_comm] using listed)
  exact Circle.turn added

theorem Circle.walk {bound : Nat} (enough : entries.length ≤ bound) : l.walk head bound head = entries := by
  have apart := (nodup_cons.mp circle.distinct).1
  have from_ : ∀ (bound : Nat) (rest : List ε) (e : ε), l.Path e rest head → rest.length ≤ bound →
    head ∉ rest → l.walk head bound e = rest := by
    intro bound
    induction bound with
    | zero => exact fun rest e _ short _ => (length_eq_zero_iff.mp (Nat.le_zero.mp short)).symm
    | succ bound ih =>
      intro rest e path short away
      cases rest with
      | nil => simp [Links.walk, path.1]
      | cons first others =>
        rw [Links.walk, path.1, if_neg (fun same => away (by simp [same]))]
        rw [ih others first path.2.2 (Nat.le_of_succ_le_succ short) fun listed => away (mem_cons_of_mem _ listed)]
  exact from_ bound entries head circle.path enough apart

end

/-- Several lists that have no entry in common. -/
structure Table {β : Type} (l : Links ε) (head : β → ε) (entries : β → List ε) : Prop where
  circle : ∀ b, l.Circle (head b) (entries b)
  apart : ∀ b c e, e ∈ head b :: entries b → e ∈ head c :: entries c → b = c

section Tables
variable {β : Type} [DecidableEq β] {head : β → ε} {entries : β → List ε}

theorem Table.addAfter (table : l.Table head entries) (b : β) {e : ε}
    (new : ∀ c, e ∉ head c :: entries c) : (l.addAfter (head b) e).Table head
    (update entries b (e :: entries b)) := by
  have mem : ∀ c d, d ∈ head c :: update entries b (e :: entries b) c → d = e ∧ c = b ∨ d ∈ head c :: entries c := by
    intro c d listed
    obtain rfl | same := eq_or_ne c b
    · rw [update_self, mem_cons, mem_cons] at listed
      rw [mem_cons]
      rcases listed with first | added | old
      · exact .inr (.inl first)
      · exact .inl ⟨added, rfl⟩
      · exact .inr (.inr old)
    · rw [update_of_ne same] at listed
      exact .inr listed
  refine ⟨fun c => ?_, fun c d f left right => ?_⟩
  · rw [update_apply]
    split
    · next same =>
      subst same
      exact (table.circle c).addAfter (new c)
    · next same =>
      refine (table.circle c).insert_other fun other listed => ⟨?_, ?_, ?_⟩
      · rintro rfl
        exact new c listed
      · rintro rfl
        exact same (table.apart c b _ listed mem_cons_self)
      · rintro rfl
        exact same (table.apart c b _ listed (table.circle b).neighbours.1)
  · rcases mem c f left with ⟨rfl, rfl⟩ | here
    · rcases mem d f right with ⟨_, rfl⟩ | there
      · rfl
      · exact absurd there (new d)
    · rcases mem d f right with ⟨rfl, _⟩ | there
      · exact absurd here (new c)
      · exact table.apart c d f here there

theorem Table.del (table : l.Table head entries) {b : β} {e : ε} (listed : e ∈ entries b) :
    (l.del e).Table head (update entries b ((entries b).erase e)) := by
  have mem : ∀ c d, d ∈ head c :: update entries b ((entries b).erase e) c → d ∈ head c :: entries c := by
    intro c d inside
    obtain rfl | same := eq_or_ne c b
    · rw [update_self, mem_cons] at inside
      exact mem_cons.mpr (inside.imp_right mem_of_mem_erase)
    · rwa [update_of_ne same] at inside
  refine ⟨fun c => ?_, fun c d f left right => table.apart c d f (mem c f left) (mem d f right)⟩
  rw [update_apply]
  split
  · next same =>
    subst same
    exact (table.circle c).del listed
  · next same =>
    obtain ⟨others, turned, members⟩ := (table.circle b).root (mem_cons_of_mem _ listed)
    refine (table.circle c).del_other fun other inside => ⟨?_, ?_⟩
    · rintro rfl
      exact same (table.apart c b _ inside ((members _).mp turned.neighbours.2))
    · rintro rfl
      exact same (table.apart c b _ inside ((members _).mp turned.neighbours.1))

end Tables

end Operations

end Links

end Ucore.Lib
