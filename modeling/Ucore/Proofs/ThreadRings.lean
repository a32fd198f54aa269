import Ucore.Forest

/-! The rings `thread_group`. A ring holds the threads of one group that have not exited, from
whichever of them it is read. -/

namespace Ucore.Forest
open Lib Pid List

variable {last : Nat} {s t : State} {p q : ProcId} {child : ProcId}

def Alive (s : State) (p : ProcId) : Prop := (s.tasks p).life = .alive

def SameGroup (s : State) (p q : ProcId) : Prop := Alive s q ∧ (s.tasks q).group = (s.tasks p).group

/-- The ring of a process holds exactly the threads of its group. -/
def Ring (s : State) (p : ProcId) : Prop := ∃ others, s.threadGroup.Circle p others ∧ ∀ q, q ∈ p :: others ↔ SameGroup s p q

def Rings (s : State) : Prop := ∀ p, Alive s p → Ring s p

theorem Ring.congr (ring : Ring s p) (links : ∀ others, s.threadGroup.Circle p others →
    (∀ q, q ∈ p :: others ↔ SameGroup s p q) → t.threadGroup.Circle p others) (members : ∀ q,
    SameGroup t p q ↔ SameGroup s p q) : Ring t p := by
  obtain ⟨others, circle, exact⟩ := ring
  exact ⟨others, links others circle exact, fun q => (exact q).trans (members q).symm⟩

theorem Ring.root {others : List ProcId} (circle : s.threadGroup.Circle p others)
    (exact : ∀ q, q ∈ p :: others ↔ SameGroup s p q) (same : SameGroup s p q) : Ring s q := by
  obtain ⟨rest, turned, members⟩ := circle.root ((exact q).mpr same)
  refine ⟨rest, turned, fun r => ?_⟩
  rw [members, exact, SameGroup, SameGroup, same.2]

variable (rings : Rings s)
include rings

theorem Rings.newGroup {pid group : Nat} (links : t.threadGroup = s.threadGroup.init child)
    (tasks : ∀ q, q ≠ child → t.tasks q = s.tasks q) (own : t.tasks child = ⟨.alive, pid, group⟩)
    (free : ¬ Alive s child)
    (new : ∀ q, Alive s q → (s.tasks q).group ≠ group) : Rings t := by
  intro p alive
  obtain rfl | same := eq_or_ne p child
  · refine ⟨[], links ▸ s.threadGroup.circle_init p, fun q => ?_⟩
    rw [mem_singleton, SameGroup, own]
    constructor
    · rintro rfl
      exact ⟨alive, by rw [own]⟩
    rintro ⟨also, equal⟩
    by_contra other
    rw [Alive, tasks q other] at also
    rw [tasks q other] at equal
    exact new q also equal
  · have before : Alive s p := by rwa [Alive, tasks p same] at alive
    refine (rings p before).congr (fun others circle members => links ▸ circle.init_other fun listed => ?_) fun q => ?_
    · exact free ((members child).mp listed).1
    obtain rfl | here := eq_or_ne q child
    · simp only [SameGroup, tasks p same, own, free, false_and, iff_false, not_and]
      exact fun _ equal => new p before equal.symm
    · simp only [SameGroup, Alive, tasks p same, tasks q here]

theorem Rings.newThread {pid : Nat} (links : t.threadGroup = (s.threadGroup.init child).addBefore p child)
    (tasks : ∀ q, q ≠ child → t.tasks q = s.tasks q)
      (own : t.tasks child = ⟨.alive, pid, (s.tasks p).group⟩) (free : ¬ Alive s child)
      (alive : Alive s p) : Rings t := by
  have apart : p ≠ child := fun same => free (same ▸ alive)
  obtain ⟨others, circle, members⟩ := rings p alive
  have absent : child ∉ p :: others := fun listed => free ((members child).mp listed).1
  have begun := circle.init_other absent
  have groups : ∀ q, SameGroup t p q ↔ q = child ∨ SameGroup s p q := by
    intro q
    obtain rfl | here := eq_or_ne q child
    · simp [SameGroup, Alive, own, tasks p apart]
    · simp [SameGroup, Alive, tasks p apart, tasks q here, here]
  have mine : t.threadGroup.Circle p (others ++ [child]) ∧ ∀ q, q ∈ p :: (others ++ [child]) ↔ SameGroup t p q := by
    refine ⟨links ▸ begun.addBefore absent, fun q => ?_⟩
    rw [groups, ← members, ← cons_append, mem_append, mem_singleton, or_comm]
  intro r aliveNow
  by_cases same : SameGroup t p r
  · exact Ring.root mine.1 mine.2 same
  have here : r ≠ child := fun equal => same ((groups r).mpr (.inl equal))
  have before : Alive s r := by rwa [Alive, tasks r here] at aliveNow
  have foreign : ∀ q, SameGroup s r q → ¬ SameGroup s p q := by
    intro q left right
    exact same ((groups r).mpr (.inr ⟨before, left.2.symm.trans right.2⟩))
  refine (rings r before).congr (fun rest circle' members' => ?_) fun q => ?_
  · rw [links]
    have away : ∀ q ∈ r :: rest, q ∉ p :: others :=
      fun q listed inside => foreign q ((members' q).mp listed) ((members q).mp inside)
    refine (circle'.init_other fun listed => free ((members' child).mp listed).1).insert_other fun q listed => ⟨?_, ?_, ?_⟩
    · rintro rfl
      exact free ((members' q).mp listed).1
    · rintro rfl
      exact away _ listed begun.neighbours.2
    · rintro rfl
      exact away q listed (by simp)
  · obtain rfl | new := eq_or_ne q child
    · simp only [SameGroup, own, tasks r here]
      constructor
      · rintro ⟨_, equal⟩
        exact absurd ((groups r).mpr (.inr ⟨before, equal.symm⟩)) same
      · rintro ⟨also, _⟩
        exact absurd also free
    · simp only [SameGroup, Alive, tasks r here, tasks q new]

theorem Rings.leave (alive : Alive s p) (links : t.threadGroup = (deThread s p).threadGroup)
    (others : ∀ q, q ≠ p → t.tasks q = s.tasks q) (dead : ¬ Alive t p) : Rings t := by
  obtain ⟨ring, circle, members⟩ := rings p alive
  intro r aliveNow
  have apart : r ≠ p := fun same => dead (same ▸ aliveNow)
  have before : Alive s r := by rwa [Alive, others r apart] at aliveNow
  have groups : ∀ q, SameGroup t r q ↔ q ≠ p ∧ SameGroup s r q := by
    intro q
    obtain rfl | here := eq_or_ne q p
    · simp [SameGroup, dead]
    · simp [SameGroup, Alive, others r apart, others q here, here]
  obtain ⟨rest, circle', members'⟩ := rings r before
  by_cases same : SameGroup s r p
  · have listed := mem_of_ne_of_mem (Ne.symm apart) ((members' p).mpr same)
    have company : s.threadGroup.next p ≠ p := by
      intro alone
      have none := circle.next_eq_head.mp alone
      have inside := (members r).mpr ⟨before, same.2.symm⟩
      rw [none, mem_singleton] at inside
      exact apart inside
    have distinct := circle'.distinct
    have gone : p ∉ r :: rest.erase p := by
      rw [mem_cons, not_or]
      exact ⟨Ne.symm apart, fun inside => (nodup_cons.mp distinct).2.not_mem_erase inside⟩
    refine ⟨rest.erase p, ?_, fun q => ?_⟩
    · rw [links, deThread, if_neg company]
      exact (circle'.del listed).init_other gone
    rw [groups, ← members', mem_cons, mem_cons, (nodup_cons.mp distinct).2.mem_erase_iff]
    constructor
    · rintro (rfl | ⟨away, inside⟩)
      · exact ⟨apart, .inl rfl⟩
      · exact ⟨away, .inr inside⟩
    · rintro ⟨away, rfl | inside⟩
      · exact .inl rfl
      · exact .inr ⟨away, inside⟩
  · have foreign : ∀ q ∈ r :: rest, q ∉ p :: ring := by
      intro q listed inside
      have left := (members' q).mp listed
      have right := (members q).mp inside
      exact same ⟨alive, right.2.symm.trans left.2⟩
    refine ⟨rest, ?_, fun q => ?_⟩
    · rw [links, deThread]
      split
      · exact circle'
      have nearby := circle.neighbours
      refine (circle'.del_other fun q listed => ⟨?_, ?_⟩).init_other fun listed => foreign p listed (by simp)
      · rintro rfl
        exact foreign _ listed nearby.2
      · rintro rfl
        exact foreign _ listed nearby.1
    · rw [groups, ← members']
      refine ⟨fun listed => ⟨?_, listed⟩, And.right⟩
      rintro rfl
      exact foreign q listed (by simp)

theorem Rings.bury (links : t.threadGroup = s.threadGroup) (others : ∀ q, q ≠ p →
    t.tasks q = s.tasks q) (before : ¬ Alive s p) (dead : ¬ Alive t p) : Rings t := by
  intro r aliveNow
  have apart : r ≠ p := fun same => dead (same ▸ aliveNow)
  refine (rings r (by rwa [Alive, others r apart] at aliveNow)).congr (fun _ circle _ => links ▸ circle) fun q => ?_
  obtain rfl | here := eq_or_ne q p
  · simp [SameGroup, dead, before]
  · simp only [SameGroup, Alive, others r apart, others q here]

end Ucore.Forest
