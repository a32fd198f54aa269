import Ucore.Reap

/-! Reaping is safe when exiting and waiting exclude each other. The facts behind it
are stated over a view of the state that keeps only which processes exist, which are
zombies, how they are linked, and what the CPUs do. -/

namespace Ucore.Reap
open Lib Function List

variable {n : Nat} {next : ProcId} {parent : ProcId} {ring : List ProcId}

structure View (n : Nat) where
  born : ProcId → Prop
  dead : ProcId → Prop
  parent : ProcId → ProcId
  children : ProcId → List ProcId
  gid : ProcId → ProcId
  hashed : ProcId → Bool
  unlinks : ProcId → Nat
  frees : ProcId → Nat
  ring : ProcId → List ProcId
  cpus : Fin n → Cpu

def State.view (s : State n) : View n where
  born p := (s.tasks p).state ≠ .uninit
  dead p := (s.tasks p).state = .zombie
  parent p := (s.tasks p).parent
  children p := (s.tasks p).children
  gid p := (s.tasks p).gid
  hashed p := (s.tasks p).hashed
  unlinks p := (s.tasks p).unlinks
  frees p := (s.tasks p).frees
  ring := s.ring
  cpus := s.cpus

def Phase.Ends : Phase → Prop
  | .zombie | .notified | .leaving => True
  | _ => False

/-- The current process is exiting and still has its children and its place in its group. -/
def Phase.Keeps : Phase → Prop
  | .zombie | .notified => True
  | _ => False

namespace View

def setPhase (v : View n) (c : Fin n) (phase : Phase) : View n :=
  { v with cpus := update v.cpus c { v.cpus c with phase } }

def Uses (v : View n) (c : Fin n) (p : ProcId) : Prop := (v.cpus c).current = p ∨ (v.cpus c).phase = .switching p

/-- The CPU is between becoming a zombie and having left it, or between the search of
`do_wait` and its end. -/
def Busy (v : View n) (c : Fin n) : Prop :=
  match (v.cpus c).phase with
  | .running | .asleep => False
  | .switching prev => v.dead prev
  | _ => True

def Exiting (v : View n) (p : ProcId) : Prop := ∃ c, (v.cpus c).current = p ∧ (v.cpus c).phase.Keeps

/-- No two CPUs use one process. -/
structure Placed (v : View n) : Prop where
  apart : ∀ c d p, v.Uses c p → v.Uses d p → c = d
  idle : ∀ c p, v.Uses c p → p < n → p = c
  started : ∀ c p, v.Uses c p → v.born p

/-- At most one CPU is busy, and zombies only run in `__do_exit`. -/
structure Sections (v : View n) : Prop where
  alone : ∀ c d, v.Busy c → v.Busy d → c = d
  ends : ∀ c, v.dead (v.cpus c).current ↔ (v.cpus c).phase.Ends

structure Reaping (v : View n) : Prop where
  found : ∀ c p, (v.cpus c).phase = .found p → v.dead p ∧ v.unlinks p = 0 ∧ ∀ d, ¬ v.Uses d p
  taken : ∀ c p, (v.cpus c).phase = .unlinked p → v.unlinks p = 1 ∧ v.frees p = 0
  gone : ∀ p, v.unlinks p ≠ 0 → v.dead p ∧ ∀ d, ¬ v.Uses d p
  pending : ∀ p, v.frees p = v.unlinks p ∨ ∃ c, (v.cpus c).phase = .unlinked p
  single : ∀ p, v.unlinks p ≤ 1

/-- Every process but the `orphans` is a child of its parent until it is unlinked. -/
structure Family (orphans : List ProcId) (v : View n) : Prop where
  aged : ∀ p, v.dead p → n < p ∧ v.born p
  booted : ∀ p ≤ n, v.born p
  unborn : ∀ p, ¬ v.born p → v.children p = [] ∧ v.unlinks p = 0
  child : ∀ p q, n < p → (p ∈ v.children q ↔ v.born p ∧ v.parent p = q ∧ v.unlinks p = 0 ∧ p ∉ orphans)
  grown : ∀ p q, p ∈ v.children q → n ≤ q → n < p
  siblings : ∀ q, (v.children q).Nodup
  owner : ∀ p q, p ∈ v.children q → v.dead q → v.Exiting q
  hashed : ∀ p, v.hashed p = true → v.unlinks p = 0

structure Groups (v : View n) : Prop where
  member : ∀ p g, p ∈ v.ring g → v.born p ∧ v.gid p = g ∧ (v.dead p → v.Exiting p)
  distinct : ∀ g, (v.ring g).Nodup

variable {v w : View n} {c d : Fin n} {p q : ProcId} {phase : Phase} {orphans : List ProcId} {rest : List ProcId}

theorem cpus_setPhase_same (v : View n) (c : Fin n) (phase : Phase) :
    (v.setPhase c phase).cpus c = { v.cpus c with phase } := update_self ..

theorem cpus_setPhase_other (phase : Phase) (different : d ≠ c) :
    (v.setPhase c phase).cpus d = v.cpus d := update_of_ne different ..

theorem Uses.of_setPhase (still : ∀ prev, phase ≠ .switching prev) (uses : (v.setPhase c phase).Uses d p) : v.Uses d p := by
  obtain rfl | here := eq_or_ne d c
  · rw [Uses, cpus_setPhase_same] at uses
    rcases uses with current | switching
    · exact .inl current
    · exact absurd switching (still p)
  · rwa [Uses, cpus_setPhase_other phase here] at uses

theorem Sections.others (sections : v.Sections) (busy : v.Busy c) (d : Fin n) (different : d ≠ c) :
    ¬ v.Busy d := fun other => different (sections.alone d c other busy)

theorem Sections.alive (sections : v.Sections) (at_ : (v.cpus c).phase = phase)
    (stays : ¬ phase.Ends) : ¬ v.dead (v.cpus c).current :=
    fun dead => stays (at_ ▸ (sections.ends c).mp dead)

theorem Placed.mono (placed : v.Placed) (uses : ∀ c p, w.Uses c p → v.Uses c p)
    (born : ∀ p, v.born p → w.born p) : w.Placed :=
    ⟨fun c d p first second => placed.apart c d p (uses c p first) (uses d p second),
    fun c p used => placed.idle c p (uses c p used), fun c p used => born p (placed.started c p (uses c p used))⟩

theorem Family.mono (family : Family orphans v) (exiting : ∀ p, v.children p ≠ [] → v.Exiting p →
    w.Exiting p) (same : w = { v with cpus := w.cpus }) : Family orphans w := by
  rw [same] at exiting ⊢
  refine { family with owner := ?_ }
  intro p q listed dead
  exact exiting q (ne_nil_of_mem listed) (family.owner p q listed dead)

theorem Groups.mono (groups : v.Groups) (exiting : ∀ p g, p ∈ v.ring g → w.dead p →
    (v.dead p → v.Exiting p) → w.Exiting p) (born : w.born = v.born) (gid : w.gid = v.gid)
    (ring : w.ring = v.ring) : w.Groups := by
  constructor
  · intro p g listed
    rw [ring] at listed
    obtain ⟨isBorn, grouped, kept⟩ := groups.member p g listed
    exact ⟨born ▸ isBorn, gid ▸ grouped, fun dead => exiting p g listed dead kept⟩
  · rw [ring]
    exact groups.distinct

structure Kept (orphans : List ProcId) (v : View n) : Prop where
  placed : v.Placed
  sections : v.Sections
  reaping : v.Reaping
  family : Family orphans v
  groups : v.Groups

section
variable (there : ∀ d, d ≠ c → w.cpus d = v.cpus d)
include there

theorem Exiting.move (exiting : v.Exiting p) (quiet : (v.cpus c).current = p →
    (v.cpus c).phase.Keeps → (w.cpus c).current = p ∧ (w.cpus c).phase.Keeps) : w.Exiting p := by
  obtain ⟨d, current, keeps⟩ := exiting
  by_cases here : d = c
  · exact ⟨c, quiet (here ▸ current) (here ▸ keeps)⟩
  · exact ⟨d, by rw [there d here]; exact ⟨current, keeps⟩⟩

theorem Busy.of_there (dead : w.dead = v.dead) (different : d ≠ c) (busy : w.Busy d) : v.Busy d := by
  rwa [Busy, there d different, dead] at busy

theorem Sections.move (sections : v.Sections) (stays : ∀ d, d ≠ c → w.Busy d → v.Busy d)
    (enters : w.Busy c → ∀ d, d ≠ c → ¬ v.Busy d)
    (dead : ∀ d, d ≠ c → (w.dead (v.cpus d).current ↔ v.dead (v.cpus d).current))
      (ends : w.dead (w.cpus c).current ↔ (w.cpus c).phase.Ends) : w.Sections := by
  constructor
  · intro a b first second
    by_contra apart
    by_cases left : a = c
    · exact enters (left ▸ first) b (left ▸ Ne.symm apart) (stays b (left ▸ Ne.symm apart) second)
    · by_cases right : b = c
      · exact enters (right ▸ second) a left (stays a left first)
      · exact apart (sections.alone a b (stays a left first) (stays b right second))
  · intro d
    by_cases here : d = c
    · exact here ▸ ends
    · rw [there d here, dead d here]
      exact sections.ends d

theorem Reaping.move (reaping : v.Reaping) (dead : ∀ p, v.dead p → w.dead p) (uses : ∀ d p, v.dead p →
    w.Uses d p → v.Uses d p)
    (unlinks : w.unlinks = v.unlinks) (frees : w.frees = v.frees)
      (found : ∀ p, (w.cpus c).phase = .found p → v.dead p ∧ v.unlinks p = 0 ∧ ∀ d, ¬ v.Uses d p)
    (taken : ∀ p, (w.cpus c).phase ≠ .unlinked p) (took : ∀ p, (v.cpus c).phase ≠ .unlinked p) : w.Reaping := by
  constructor
  case found =>
    intro d p at_
    have facts : v.dead p ∧ v.unlinks p = 0 ∧ ∀ d, ¬ v.Uses d p := by
      by_cases here : d = c
      · exact found p (here ▸ at_)
      · rw [there d here] at at_
        exact reaping.found d p at_
    exact ⟨dead p facts.1, unlinks ▸ facts.2.1, fun d used => facts.2.2 d (uses d p facts.1 used)⟩
  case taken =>
    intro d p at_
    have here : d ≠ c := fun same => taken p (same ▸ at_)
    rw [there d here] at at_
    rw [unlinks, frees]
    exact reaping.taken d p at_
  case gone =>
    rw [unlinks]
    intro p unlinked
    obtain ⟨gone, unused⟩ := reaping.gone p unlinked
    exact ⟨dead p gone, fun d used => unused d (uses d p gone used)⟩
  case pending =>
    intro p
    rw [unlinks, frees]
    refine (reaping.pending p).imp_right ?_
    intro ⟨d, at_⟩
    exact ⟨d, by rwa [there d fun same => took p (same ▸ at_)]⟩
  case single =>
    rw [unlinks]
    exact reaping.single

end

theorem Kept.setPhase (kept : Kept orphans v) (still : ∀ prev, phase ≠ .switching prev)
    (enters : (v.setPhase c phase).Busy c → ∀ d, d ≠ c → ¬ v.Busy d) (ends : (v.cpus c).phase.Ends ↔
    phase.Ends)
    (keeps : (v.cpus c).phase.Keeps → phase.Keeps ∨ v.children (v.cpus c).current = [] ∧ ∀ g,
      (v.cpus c).current ∉ v.ring g) (found : ∀ p, phase = .found p → v.dead p ∧ v.unlinks p = 0 ∧
      ∀ d, ¬ v.Uses d p)
    (taken : ∀ p, phase ≠ .unlinked p) (took : ∀ p, (v.cpus c).phase ≠ .unlinked p) :
      Kept orphans (v.setPhase c phase) := by
  have here := cpus_setPhase_same v c phase
  have there : ∀ d, d ≠ c → (v.setPhase c phase).cpus d = v.cpus d := fun d => cpus_setPhase_other phase
  have uses : ∀ d p, (v.setPhase c phase).Uses d p → v.Uses d p := fun d p => Uses.of_setPhase still
  have exiting : ∀ p, v.Exiting p → (v.children p = [] ∧ ∀ g, p ∉ v.ring g) ∨ (v.setPhase c phase).Exiting p := by
    intro p before
    by_cases own : (v.cpus c).current = p ∧ (v.cpus c).phase.Keeps
    · rcases keeps own.2 with after | left
      · exact .inr ⟨c, by rw [here]; exact ⟨own.1, after⟩⟩
      · exact .inl (own.1 ▸ left)
    · exact .inr (before.move there fun current keeps => absurd ⟨current, keeps⟩ own)
  constructor
  case placed => exact kept.placed.mono uses fun _ => id
  case sections =>
    refine kept.sections.move there (fun d => Busy.of_there there rfl) enters (fun _ _ => Iff.rfl) ?_
    rw [here]
    exact (kept.sections.ends c).trans ends
  case reaping =>
    exact kept.reaping.move there (fun _ => id) (fun d p _ => uses d p) rfl rfl (by rwa [here])
      (by rwa [here]) took
  case family => exact kept.family.mono (fun p some before => (exiting p before).resolve_left fun none => some none.1) rfl
  case groups =>
    exact kept.groups.mono (fun p g listed dead before => (exiting p (before dead)).resolve_left
      fun left => left.2 g listed) rfl rfl rfl

def die (v : View n) (c : Fin n) : View n :=
  { v.setPhase c .zombie with dead := fun p => p = (v.cpus c).current ∨ v.dead p }

theorem Kept.die (kept : Kept orphans v) (running : (v.cpus c).phase = .running)
    (young : n < (v.cpus c).current) (free : ∀ d, d ≠ c → ¬ v.Busy d) : Kept orphans (v.die c) := by
  have own : v.Uses c (v.cpus c).current := .inl rfl
  have uses : ∀ d p, (v.die c).Uses d p → v.Uses d p := fun d p used => Uses.of_setPhase (by simp) used
  have here : (v.die c).cpus c = { v.cpus c with phase := .zombie } := cpus_setPhase_same ..
  have there : ∀ d, d ≠ c → (v.die c).cpus d = v.cpus d := fun d => cpus_setPhase_other .zombie
  have other : ∀ d p, d ≠ c → v.Uses d p → (v.die c).dead p → v.dead p := by
    intro d p different used dead
    exact dead.resolve_left fun same => different (kept.placed.apart d c p used (same ▸ own))
  have exiting : ∀ p, (v.die c).dead p → (v.dead p → v.Exiting p) → (v.die c).Exiting p := by
    intro p dead before
    rcases dead with rfl | dead
    · exact ⟨c, by rw [here]; exact ⟨rfl, trivial⟩⟩
    · exact (before dead).move there fun _ keeps => by simp [running, Phase.Keeps] at keeps
  constructor
  case placed => exact kept.placed.mono uses fun _ => id
  case sections =>
    refine kept.sections.move there ?_ (fun _ => free) (fun d different => ⟨other d _ different (.inl rfl), .inr⟩) ?_
    · intro d different busy
      rw [Busy, there d different] at busy
      rw [Busy]
      cases at_ : (v.cpus d).phase with
      | switching prev =>
        simp only [at_] at busy ⊢
        exact other d prev different (.inr at_) busy
      | _ => simp_all
    · rw [here]
      exact ⟨fun _ => trivial, fun _ => .inl rfl⟩
  case reaping =>
    exact kept.reaping.move there (fun _ => .inr) (fun d p _ => uses d p) rfl rfl (by simp [here])
      (by simp [here]) (by simp [running])
  case family =>
    refine { kept.family with aged := ?_, owner := fun p q listed dead => exiting q dead (kept.family.owner p q listed) }
    intro p dead
    rcases dead with rfl | dead
    · exact ⟨young, kept.placed.started c _ own⟩
    · exact kept.family.aged p dead
  case groups => exact kept.groups.mono (fun p _ _ => exiting p) rfl rfl rfl

def switch (v : View n) (c : Fin n) (next : ProcId) : View n :=
  { v with cpus := update v.cpus c ⟨next, .switching (v.cpus c).current⟩ }

theorem Kept.switch (kept : Kept orphans v) (calm : (v.cpus c).phase = .leaving ∨
    (v.cpus c).phase = .asleep ∨ (v.cpus c).phase = .running)
    (unused : ∀ d, v.Uses d next → d = c) (choice : next < n → next = c) (born : v.born next)
      (alive : ¬ v.dead next) : Kept orphans (v.switch c next) := by
  have here : (v.switch c next).cpus c = ⟨next, .switching (v.cpus c).current⟩ := update_self ..
  have there : ∀ d, d ≠ c → (v.switch c next).cpus d = v.cpus d := fun d different => update_of_ne different ..
  have uses : ∀ d p, (v.switch c next).Uses d p → d = c ∧ p = next ∨ v.Uses d p := by
    intro d p used
    obtain rfl | same := eq_or_ne d c
    · rw [Uses, here] at used
      rcases used with rfl | switching
      · exact .inl ⟨rfl, rfl⟩
      · cases switching
        exact .inr (.inl rfl)
    · rw [Uses, there d same] at used
      exact .inr used
  have busy : (v.switch c next).Busy c → v.Busy c := by
    intro busy
    rw [Busy, here] at busy
    have ends := (kept.sections.ends c).mp busy
    rcases calm with at_ | at_ | at_ <;> simp_all [Busy, Phase.Ends]
  have exiting : ∀ p, v.Exiting p → (v.switch c next).Exiting p := by
    intro p before
    refine before.move there fun _ keeps => ?_
    rcases calm with at_ | at_ | at_ <;> simp [at_, Phase.Keeps] at keeps
  constructor
  case placed =>
    constructor
    · intro a b p first second
      rcases uses a p first with ⟨left, same⟩ | before
      · rcases uses b p second with ⟨right, _⟩ | before
        · rw [left, right]
        · rw [left, unused b (same ▸ before)]
      · rcases uses b p second with ⟨right, same⟩ | again
        · rw [right, unused a (same ▸ before)]
        · exact kept.placed.apart a b p before again
    · intro d p used
      rcases uses d p used with ⟨rfl, rfl⟩ | used
      · exact choice
      · exact kept.placed.idle d p used
    · intro d p used
      rcases uses d p used with ⟨_, rfl⟩ | used
      · exact born
      · exact kept.placed.started d p used
  case sections =>
    refine kept.sections.move there (fun d => Busy.of_there there rfl) ?_ (fun _ _ => Iff.rfl) ?_
    · exact fun entered => kept.sections.others (busy entered)
    · rw [here]
      exact ⟨alive.elim, False.elim⟩
  case reaping =>
    refine kept.reaping.move there (fun _ => id) ?_ rfl rfl (by simp [here]) (by simp [here]) ?_
    · intro d p dead used
      exact (uses d p used).resolve_left fun next => alive (next.2 ▸ dead)
    · rcases calm with at_ | at_ | at_ <;> simp [at_]
  case family => exact kept.family.mono (fun p _ => exiting p) rfl
  case groups => exact kept.groups.mono (fun p _ _ dead before => exiting p (before dead)) rfl rfl rfl

def unlink (v : View n) (c : Fin n) (p : ProcId) : View n :=
  { v.setPhase c (.unlinked p) with
    children := fun q => if q = v.parent p then (v.children q).erase p else v.children q
    hashed := fun q => if q = p then false else v.hashed q
    unlinks := fun q => if q = p then v.unlinks q + 1 else v.unlinks q }

theorem Family.unlink (family : Family orphans v) (dead : v.dead p) (linked : v.unlinks p = 0)
    (exiting : ∀ q, v.Exiting q → (v.unlink c p).Exiting q) : Family orphans (v.unlink c p) := by
  have fewer : ∀ q r, q ∈ (v.unlink c p).children r → q ∈ v.children r := by
    intro q r listed
    simp only [View.unlink] at listed
    split at listed
    · exact mem_of_mem_erase listed
    · exact listed
  refine ⟨family.aged, family.booted, ?_, ?_, fun q r listed => family.grown q r (fewer q r listed), ?_, ?_, ?_⟩
  · intro q unborn
    have different : q ≠ p := fun same => unborn (same ▸ (family.aged p dead).2)
    obtain ⟨none, never⟩ := family.unborn q unborn
    simp only [View.unlink, if_neg different, never, none, erase_nil, ite_self, and_self]
  · intro q r young
    have before := family.child q r young
    obtain rfl | same := eq_or_ne q p
    · simp only [View.unlink, if_true, linked]
      refine ⟨fun listed => ?_, fun facts => absurd facts.2.2.1 (by simp)⟩
      split at listed
      · exact absurd listed (family.siblings r).not_mem_erase
      · next other => exact absurd (before.mp listed).2.1.symm other
    · simp only [View.unlink, if_neg same]
      refine Iff.trans ?_ before
      split
      · exact mem_erase_of_ne same
      · rfl
  · intro r
    simp only [View.unlink]
    split
    · exact (family.siblings r).erase p
    · exact family.siblings r
  · exact fun q r listed gone => exiting r (family.owner q r (fewer q r listed) gone)
  · intro q hashed
    simp only [View.unlink] at hashed ⊢
    split at hashed
    · cases hashed
    · next different =>
      rw [if_neg different]
      exact family.hashed q hashed

theorem Kept.unlink (kept : Kept orphans v) (at_ : (v.cpus c).phase = .found p) : Kept orphans (v.unlink c p) := by
  obtain ⟨dead, linked, unused⟩ := kept.reaping.found c p at_
  have uses : ∀ d q, (v.unlink c p).Uses d q → v.Uses d q := fun d q used => Uses.of_setPhase (by simp) used
  have here : (v.unlink c p).cpus c = { v.cpus c with phase := .unlinked p } := cpus_setPhase_same ..
  have there : ∀ d, d ≠ c → (v.unlink c p).cpus d = v.cpus d := fun d => cpus_setPhase_other _
  have quiet := kept.sections.others (show v.Busy c by simp [Busy, at_])
  have exiting : ∀ q, v.Exiting q → (v.unlink c p).Exiting q :=
    fun q before => before.move there fun _ keeps => by simp [at_, Phase.Keeps] at keeps
  have alone : ∀ d q, (v.cpus d).phase = .unlinked q → False := by
    intro d q taken
    have same := by_contra fun different => quiet d different (by simp [Busy, taken])
    rw [same, at_] at taken
    cases taken
  constructor
  case placed => exact kept.placed.mono uses fun _ => id
  case sections =>
    refine kept.sections.move there (fun d => Busy.of_there there rfl) (fun _ => quiet) (fun _ _ => Iff.rfl) ?_
    rw [here]
    refine (kept.sections.ends c).trans ?_
    rw [at_]
    rfl
  case reaping =>
    have counts : ∀ q, (v.unlink c p).unlinks q = if q = p then 1 else v.unlinks q := by
      intro q
      simp only [View.unlink]
      split
      · next same => rw [same, linked]
      · rfl
    have settled : ∀ q, v.frees q = v.unlinks q := fun q => (kept.reaping.pending q).resolve_right
      fun ⟨d, taken⟩ => alone d q taken
    constructor
    case found =>
      intro d q found
      have different : d ≠ c := fun same => by rw [same, here] at found; cases found
      rw [there d different] at found
      exact absurd (by simp [Busy, found]) (quiet d different)
    case taken =>
      intro d q taken
      by_cases same : d = c
      · rw [same, here] at taken
        cases taken
        exact ⟨by rw [counts, if_pos rfl], (settled p).trans linked⟩
      · rw [there d same] at taken
        exact (alone d q taken).elim
    case gone =>
      intro q unlinked
      by_cases same : q = p
      · rw [same]
        exact ⟨dead, fun d used => unused d (uses d p used)⟩
      · rw [counts, if_neg same] at unlinked
        obtain ⟨dead, free⟩ := kept.reaping.gone q unlinked
        exact ⟨dead, fun d used => free d (uses d q used)⟩
    case pending =>
      intro q
      by_cases same : q = p
      · exact .inr ⟨c, by rw [here, same]⟩
      · exact .inl (by rw [counts, if_neg same]; exact settled q)
    case single =>
      intro q
      rw [counts]
      split
      · rfl
      · exact kept.reaping.single q
  case family => exact kept.family.unlink dead linked exiting
  case groups => exact kept.groups.mono (fun q _ _ dead before => exiting q (before dead)) rfl rfl rfl

def free (v : View n) (c : Fin n) (p : ProcId) : View n :=
  { v.setPhase c .running with frees := fun q => if q = p then v.frees q + 1 else v.frees q }

theorem Kept.free (kept : Kept orphans v) (at_ : (v.cpus c).phase = .unlinked p) : Kept orphans (v.free c p) := by
  obtain ⟨linked, unfreed⟩ := kept.reaping.taken c p at_
  have uses : ∀ d q, (v.free c p).Uses d q → v.Uses d q := fun d q used => Uses.of_setPhase (by simp) used
  have here : (v.free c p).cpus c = { v.cpus c with phase := .running } := cpus_setPhase_same ..
  have there : ∀ d, d ≠ c → (v.free c p).cpus d = v.cpus d := fun d => cpus_setPhase_other _
  have quiet : ∀ d, ¬ (v.free c p).Busy d := by
    intro d other
    by_cases same : d = c
    · simp [Busy, same, here] at other
    · exact same (kept.sections.alone d c (Busy.of_there there rfl same other) (by simp [Busy, at_]))
  have exiting : ∀ q, v.Exiting q → (v.free c p).Exiting q :=
    fun q before => before.move there fun _ keeps => by simp [at_, Phase.Keeps] at keeps
  constructor
  case placed => exact kept.placed.mono uses fun _ => id
  case sections =>
    refine kept.sections.move there (fun d => Busy.of_there there rfl) (fun entered =>
      absurd entered (quiet c)) (fun _ _ => Iff.rfl) ?_
    rw [here]
    refine (kept.sections.ends c).trans ?_
    rw [at_]
    rfl
  case reaping =>
    refine ⟨fun d q found => absurd (by simp [Busy, found]) (quiet d), fun d q taken =>
      absurd (by simp [Busy, taken]) (quiet d), ?_, ?_, kept.reaping.single⟩
    · intro q unlinked
      obtain ⟨dead, free⟩ := kept.reaping.gone q unlinked
      exact ⟨dead, fun d used => free d (uses d q used)⟩
    intro q
    left
    simp only [View.free]
    split
    · next same =>
      rw [same, unfreed]
      exact linked.symm
    · next different =>
      refine (kept.reaping.pending q).resolve_right ?_
      intro ⟨d, taken⟩
      have same := kept.sections.alone d c (by simp [Busy, taken]) (by simp [Busy, at_])
      rw [same, at_] at taken
      cases taken
      exact different rfl
  case family => exact { kept.family with owner := fun q r listed gone => exiting r (kept.family.owner q r listed gone) }
  case groups => exact kept.groups.mono (fun q _ _ dead before => exiting q (before dead)) rfl rfl rfl

def release (v : View n) (p : ProcId) : View n :=
  { v with
    ring := fun g => if g = v.gid p then (v.ring g).erase p else v.ring g
    children := fun q => if q = p then [] else v.children q }

theorem Kept.release (kept : Kept [] v) (young : n ≤ p) : Kept (v.children p) (v.release p) := by
  have family := kept.family
  have fewer : ∀ q r, q ∈ (v.release p).children r → r ≠ p ∧ q ∈ v.children r := by
    intro q r listed
    simp only [View.release] at listed
    split at listed
    · cases listed
    · next different => exact ⟨different, listed⟩
  have remaining : ∀ q g, q ∈ (v.release p).ring g → q ∈ v.ring g := by
    intro q g listed
    simp only [View.release] at listed
    split at listed
    · exact mem_of_mem_erase listed
    · exact listed
  refine ⟨{ kept.placed with }, ⟨kept.sections.alone, kept.sections.ends⟩, { kept.reaping with },
    ⟨family.aged, family.booted, ?_, ?_, fun q r listed => family.grown q r (fewer q r listed).2,
    ?_,
      fun q r listed => family.owner q r (fewer q r listed).2, family.hashed⟩,
        ⟨fun q g listed => kept.groups.member q g (remaining q g listed), ?_⟩⟩
  · intro q unborn
    obtain ⟨none, never⟩ := family.unborn q unborn
    simp only [View.release, none, ite_self]
    exact ⟨trivial, never⟩
  · intro q r older
    have before := family.child q r older
    have atParent := family.child q p older
    simp only [View.release]
    split
    · next same =>
      subst same
      refine ⟨not_mem_nil.elim, ?_⟩
      intro ⟨born, parent, linked, absent⟩
      exact absurd (before.mpr ⟨born, parent, linked, not_mem_nil⟩) absent
    · next different =>
      refine before.trans ⟨?_, fun ⟨born, parent, linked, _⟩ => ⟨born, parent, linked, not_mem_nil⟩⟩
      intro ⟨born, parent, linked, _⟩
      exact ⟨born, parent, linked, fun listed => different (parent.symm.trans (atParent.mp listed).2.1)⟩
  · intro r
    simp only [View.release]
    split
    · exact nodup_nil
    · exact family.siblings r
  · intro g
    simp only [View.release]
    split
    · exact (kept.groups.distinct g).erase p
    · exact kept.groups.distinct g

theorem Groups.notMem_release (groups : v.Groups) (g : ProcId) : p ∉ (v.release p).ring g := by
  simp only [View.release]
  split
  · exact (groups.distinct g).not_mem_erase
  · next different => exact fun listed => different (groups.member p g listed).2.1.symm

def adopt (v : View n) (parent p : ProcId) : View n :=
  { v with
    parent := fun q => if q = p then parent else v.parent q
    children := fun q => if q = parent then p :: v.children q else v.children q }

theorem Family.adopt (family : Family (p :: rest) v) (young : n < p) (born : v.born p)
    (linked : v.unlinks p = 0) (absent : p ∉ rest) (alive : ¬ v.dead parent)
    (exists_ : v.born parent) : Family rest (v.adopt parent p) := by
  have single : ∀ q, p ∉ v.children q := fun q listed => ((family.child p q young).mp listed).2.2.2 mem_cons_self
  refine ⟨family.aged, family.booted, ?_, ?_, ?_, ?_, ?_, family.hashed⟩
  · intro q unborn
    have different : q ≠ parent := fun same => unborn (same ▸ exists_)
    simp only [View.adopt, if_neg different]
    exact family.unborn q unborn
  · intro q r older
    have before := family.child q r older
    obtain rfl | same := eq_or_ne q p
    · simp only [View.adopt, if_true]
      split
      · next isParent => exact ⟨fun _ => ⟨born, isParent.symm, linked, absent⟩, fun _ => mem_cons_self⟩
      · next different => exact ⟨fun listed => absurd listed (single r), fun facts => absurd facts.2.1.symm different⟩
    · simp only [View.adopt, if_neg same]
      rw [mem_cons, not_or] at before
      refine Iff.trans ?_ (before.trans ⟨fun ⟨born, parent, linked, _, rest⟩ =>
        ⟨born, parent, linked, rest⟩, fun ⟨born, parent, linked, rest⟩ =>
          ⟨born, parent, linked, same, rest⟩⟩)
      split
      · exact ⟨fun listed => (mem_cons.mp listed).resolve_left same, mem_cons_of_mem p⟩
      · rfl
  · intro q r listed older
    simp only [View.adopt] at listed
    split at listed
    · rcases mem_cons.mp listed with rfl | listed
      · exact young
      · exact family.grown q r listed older
    · exact family.grown q r listed older
  · intro r
    simp only [View.adopt]
    split
    · exact nodup_cons.mpr ⟨single r, family.siblings r⟩
    · exact family.siblings r
  · intro q r listed dead
    have different : r ≠ parent := fun same => alive (same ▸ dead)
    simp only [View.adopt, if_neg different] at listed
    exact family.owner q r listed dead

theorem Kept.adopt (kept : Kept (p :: rest) v) (young : n < p) (born : v.born p)
    (linked : v.unlinks p = 0) (absent : p ∉ rest) (alive : ¬ v.dead parent)
    (exists_ : v.born parent) :
    Kept rest (v.adopt parent p) :=
      ⟨{ kept.placed with }, ⟨kept.sections.alone, kept.sections.ends⟩, { kept.reaping with },
      kept.family.adopt young born linked absent alive exists_,
      ⟨kept.groups.member, kept.groups.distinct⟩⟩

def fork (v : View n) (p child : ProcId) (gid : ProcId) (ring : List ProcId) : View n :=
  { v with
    born := fun q => q = child ∨ v.born q
    parent := fun q => if q = child then p else v.parent q
    children := fun q => if q = p then child :: v.children q else if q = child then [] else v.children q
    gid := fun q => if q = child then gid else v.gid q
    hashed := fun q => if q = child then true else v.hashed q
    unlinks := fun q => if q = child then 0 else v.unlinks q
    frees := fun q => if q = child then 0 else v.frees q
    ring := fun g => if g = gid then ring else v.ring g }

theorem Kept.fork {child gid : ProcId} (kept : Kept orphans v) (fresh : ¬ v.born child)
    (young : n < child) (born : v.born p) (alive : ¬ v.dead p) (stranger : child ∉ orphans)
    (distinct : ring.Nodup)
    (joined : ∀ q ∈ ring, q = child ∨ q ∈ v.ring gid) : Kept orphans (v.fork p child gid ring) := by
  have family := kept.family
  have living : ¬ v.dead child := fun dead => fresh (family.aged child dead).2
  have orphaned : ∀ q, child ∉ v.children q := fun q listed => fresh ((family.child child q young).mp listed).1
  obtain ⟨none, never⟩ := family.unborn child fresh
  refine ⟨⟨kept.placed.apart, kept.placed.idle, fun c q used =>
    .inr (kept.placed.started c q used)⟩, ⟨kept.sections.alone, kept.sections.ends⟩,
    ⟨?_, ?_, ?_, ?_, ?_⟩, ⟨?_, ?_, ?_, ?_, ?_, ?_, ?_, ?_⟩, ⟨?_, ?_⟩⟩
  · intro c q found
    obtain ⟨dead, linked, free⟩ := kept.reaping.found c q found
    have other : q ≠ child := fun same => living (same ▸ dead)
    exact ⟨dead, (if_neg other).trans linked, free⟩
  · intro c q taken
    obtain ⟨linked, kept'⟩ := kept.reaping.taken c q taken
    have other : q ≠ child := fun same => by rw [same, never] at linked; cases linked
    exact ⟨(if_neg other).trans linked, (if_neg other).trans kept'⟩
  · intro q unlinked
    have other : q ≠ child := fun same => unlinked (if_pos same)
    exact kept.reaping.gone q ((if_neg other).symm.trans_ne unlinked)
  · intro q
    by_cases same : q = child
    · exact .inl ((if_pos same).trans (if_pos same).symm)
    · rcases kept.reaping.pending q with done | taken
      · exact .inl ((if_neg same).trans (done.trans (if_neg same).symm))
      · exact .inr taken
  · intro q
    simp only [View.fork]
    split
    · exact Nat.zero_le 1
    · exact kept.reaping.single q
  · exact fun q dead => ⟨(family.aged q dead).1, .inr (family.aged q dead).2⟩
  · exact fun q old => .inr (family.booted q old)
  · intro q unborn
    simp only [View.fork, not_or] at unborn
    have other : q ≠ p := fun same => unborn.2 (same ▸ born)
    simp only [View.fork, if_neg unborn.1, if_neg other]
    exact family.unborn q unborn.2
  · intro q r older
    have before := family.child q r older
    obtain rfl | same := eq_or_ne q child
    · simp only [View.fork, true_or, if_true, true_and]
      split
      · next isParent => exact ⟨fun _ => ⟨isParent.symm, stranger⟩, fun _ => mem_cons_self⟩
      · next other =>
        refine ⟨fun listed => ?_, fun facts => absurd facts.1.symm other⟩
        split at listed
        · cases listed
        · exact absurd listed (orphaned r)
    · simp only [View.fork, same, false_or]
      refine Iff.trans ?_ before
      split
      · exact ⟨fun listed => (mem_cons.mp listed).resolve_left same, mem_cons_of_mem child⟩
      · split
        · next isChild => rw [isChild, none]
        · rfl
  · intro q r listed older
    simp only [View.fork] at listed
    split at listed
    · rcases mem_cons.mp listed with rfl | listed
      · exact young
      · exact family.grown q r listed older
    · split at listed
      · cases listed
      · exact family.grown q r listed older
  · intro r
    simp only [View.fork]
    split
    · exact nodup_cons.mpr ⟨orphaned r, family.siblings r⟩
    · split
      · exact nodup_nil
      · exact family.siblings r
  · intro q r listed dead
    have other : r ≠ p := fun same => alive (same ▸ dead)
    have older : r ≠ child := fun same => living (same ▸ dead)
    simp only [View.fork, if_neg other, if_neg older] at listed
    exact family.owner q r listed dead
  · intro q hashed
    simp only [View.fork] at hashed ⊢
    split
    · rfl
    · next other =>
      rw [if_neg other] at hashed
      exact family.hashed q hashed
  · intro q g listed
    have known : q = child ∧ g = gid ∨ q ≠ child ∧ q ∈ v.ring g := by
      have outside : ∀ g, q ∈ v.ring g → q ≠ child := fun g listed same => fresh (same ▸ (kept.groups.member q g listed).1)
      simp only [View.fork] at listed
      split at listed
      · next same =>
        rcases joined q listed with isChild | listed
        · exact .inl ⟨isChild, same⟩
        · exact .inr ⟨outside gid listed, same ▸ listed⟩
      · exact .inr ⟨outside g listed, listed⟩
    rcases known with ⟨rfl, rfl⟩ | ⟨other, listed⟩
    · exact ⟨.inl rfl, if_pos rfl, living.elim⟩
    · obtain ⟨born, grouped, keeps⟩ := kept.groups.member q g listed
      exact ⟨.inr born, (if_neg other).trans grouped, keeps⟩
  · intro g
    simp only [View.fork]
    split
    · exact distinct
    · exact kept.groups.distinct g

end View

variable {s : State n} {c : Fin n} {p : ProcId} {phase : Phase} {child q : ProcId} {after : State n} {proc : Proc}

/-- Only a sleeping process waits for something. -/
def Waits (s : State n) : Prop := ∀ p, (s.tasks p).waitState ≠ 0 → (s.tasks p).state = .sleeping

def Woken (s after : State n) : Prop :=
  ∀ p, (after.tasks p).toProc = (s.tasks p).toProc ∨ (s.tasks p).state = .sleeping ∧ (after.tasks p).toProc = ⟨.runnable, 0⟩

theorem Woken.refl (s : State n) : Woken s s := fun _ => .inl rfl

theorem Woken.trans {between : State n} (first : Woken s between) (second : Woken between after) : Woken s after := by
  intro p
  rcases second p with same | ⟨asleep, awake⟩
  · rw [same]
    exact first p
  · rcases first p with same | ⟨asleep, _⟩
    · exact .inr ⟨same ▸ asleep, awake⟩
    · exact .inr ⟨asleep, awake⟩

theorem Waits.woken (waits : Waits s) (woken : Woken s after) : Waits after := by
  intro p
  rcases woken p with same | ⟨_, awake⟩
  · rw [same]
    exact waits p
  · rw [awake]
    exact absurd rfl

theorem tasks_setTask_same (s : State n) (p : ProcId) (task : Task) : (s.setTask p task).tasks p = task := update_self ..

theorem tasks_setTask_other (task : Task) (different : q ≠ p) :
    (s.setTask p task).tasks q = s.tasks q := update_of_ne different ..

theorem field_setTask {α : Type} {task : Task} (field : Task → α)
    (same : field task = field (s.tasks p)) : (fun q => field ((s.setTask p task).tasks q)) =
    fun q => field (s.tasks q) := by
  funext q
  by_cases here : q = p
  · rw [here, tasks_setTask_same, same]
  · rw [tasks_setTask_other task here]

theorem view_setProc (dead : proc.state = .zombie ↔ (s.tasks p).state = .zombie)
    (unborn : proc.state = .uninit ↔ (s.tasks p).state = .uninit) :
    (s.setTask p { s.tasks p with toProc := proc }).view = s.view := by
  simp only [State.view, View.mk.injEq]
  exact ⟨field_setTask (fun task => task.state ≠ .uninit) (propext (not_congr unborn)),
    field_setTask (fun task => task.state = .zombie) (propext dead), field_setTask Task.parent rfl,
    field_setTask Task.children rfl, field_setTask Task.gid rfl, field_setTask Task.hashed rfl,
      field_setTask Task.unlinks rfl, field_setTask Task.frees rfl, rfl, rfl⟩

theorem wakeupProc_spec (asleep : (s.tasks p).state = .sleeping) : ∃ after,
    wakeupProc s p = .ok after ∧ after.view = s.view ∧ Woken s after := by
  have alive : (s.tasks p).state ≠ .zombie := by simp [asleep]
  refine ⟨s.setTask p { s.tasks p with toProc := ⟨.runnable, 0⟩ }, ?_,
    view_setProc (by simp [asleep]) (by simp [asleep]), ?_⟩
  · rw [wakeupProc, wakeupProc_ok alive, if_pos (by simp [asleep])]
    rfl
  intro q
  by_cases here : q = p
  · rw [here, tasks_setTask_same]
    exact .inr ⟨asleep, rfl⟩
  · rw [tasks_setTask_other _ here]
    exact .inl rfl

theorem wakeWaiter_spec (waits : Waits s) (p : ProcId) : ∃ after, wakeWaiter s p = .ok after ∧
    after.view = s.view ∧ Woken s after := by
  rw [wakeWaiter]
  split
  · next waiting =>
    have some : (s.tasks p).waitState ≠ 0 := by
      rw [waiting]
      decide
    exact wakeupProc_spec (waits p some)
  · exact ⟨s, rfl, rfl, .refl s⟩

theorem wakeWaiters_spec (sleepers : List ProcId) (waits : Waits s) : ∃ after,
    wakeWaiters s sleepers = .ok after ∧ after.view = s.view ∧ Woken s after := by
  induction sleepers generalizing s with
  | nil => exact ⟨s, rfl, rfl, .refl s⟩
  | cons p rest ih =>
    obtain ⟨between, woken, same, calmer⟩ := wakeWaiter_spec waits p
    obtain ⟨after, finished, again, calm⟩ := ih (waits.woken calmer)
    exact ⟨after, by rwa [wakeWaiters, woken], again.trans same, calmer.trans calm⟩

theorem view_setParent (s : State n) (parent p : ProcId) : (setParent s parent p).view = s.view.adopt parent p := by
  simp only [State.view, View.adopt, View.mk.injEq, setParent, State.setTask, update_apply]
  refine ⟨?_, ?_, ?_, ?_, ?_, ?_, ?_, ?_, trivial, trivial⟩
  all_goals
    funext q
    by_cases first : q = parent <;> by_cases second : q = p <;> by_cases third : parent = p <;> simp_all

theorem woken_setParent (s : State n) (parent p : ProcId) : Woken s (setParent s parent p) := by
  intro q
  left
  simp only [setParent, State.setTask, update_apply]
  by_cases first : q = parent <;> by_cases second : q = p <;> by_cases third : parent = p <;> simp_all

theorem reparentOne_spec (waits : Waits s) (parent p : ProcId) : ∃ after,
    reparentOne parent s p = .ok after ∧ after.view = s.view.adopt parent p ∧ Woken s after := by
  have moved := woken_setParent s parent p
  rw [reparentOne]
  split
  · obtain ⟨after, woken, same, calmer⟩ := wakeWaiter_spec (waits.woken moved) parent
    exact ⟨after, woken, same.trans (view_setParent s parent p), moved.trans calmer⟩
  · exact ⟨_, rfl, view_setParent s parent p, moved⟩

theorem reparent_spec (kids : List ProcId) (waits : Waits s) (kept : s.view.Kept kids) (distinct : kids.Nodup)
    (facts : ∀ p ∈ kids, n < p ∧ s.view.born p ∧ s.view.unlinks p = 0)
      (alive : ¬ s.view.dead parent) (exists_ : s.view.born parent) : ∃ after,
      reparent parent s kids = .ok after ∧ Woken s after ∧ after.view.Kept [] ∧
      after.view.cpus = s.view.cpus ∧ after.view.ring = s.view.ring ∧ ∀ q, q ≠ parent →
        after.view.children q = s.view.children q := by
  induction kids generalizing s with
  | nil => exact ⟨s, rfl, .refl s, kept, rfl, rfl, fun _ _ => rfl⟩
  | cons p rest ih =>
    obtain ⟨absent, distinct⟩ := nodup_cons.mp distinct
    obtain ⟨young, born, linked⟩ := facts p mem_cons_self
    obtain ⟨between, moved, same, calmer⟩ := reparentOne_spec waits parent p
    have kept := same ▸ kept.adopt young born linked absent alive exists_
    obtain ⟨after, finished, calm, kept, cpus, ring, children⟩ :=
      ih (waits.woken calmer) kept distinct (fun q listed =>
        same ▸ facts q (mem_cons_of_mem p listed)) (same ▸ alive) (same ▸ exists_)
    rw [same] at cpus ring children
    refine ⟨after, ?_, calmer.trans calm, kept, cpus, ring, ?_⟩
    · rwa [reparent, moved]
    · intro q different
      exact (children q different).trans (if_neg different)

theorem others_split (member : p ∈ ring) : ∃ earlier later, ring = earlier ++ p :: later ∧
    others ring p = later ++ earlier := by
  refine ⟨ring.takeWhile fun q => q != p, (ring.dropWhile fun q => q != p).tail, ?_, rfl⟩
  induction ring with
  | nil => cases member
  | cons head tail ih =>
    by_cases here : head = p
    · simp [here]
    · have parts := ih ((mem_cons.mp member).resolve_left (Ne.symm here))
      simp [here, ← parts]

theorem mem_others (distinct : ring.Nodup) (member : p ∈ ring) (listed : q ∈ others ring p) : q ∈ ring ∧ q ≠ p := by
  obtain ⟨earlier, later, rfl, same⟩ := others_split member
  have alone := (nodup_cons.mp (nodup_middle.mp distinct)).1
  rw [same, mem_append] at listed
  refine ⟨by simp only [mem_append, mem_cons]; tauto, ?_⟩
  rintro rfl
  exact alone (mem_append.mpr listed.symm)

theorem View.Kept.busy_of_exiting {v : View n} (kept : v.Kept []) (exiting : v.Exiting q)
    (busy : v.Busy c) : q = (v.cpus c).current := by
  obtain ⟨d, current, keeps⟩ := exiting
  have other : v.Busy d := by
    rw [View.Busy]
    cases at_ : (v.cpus d).phase <;> simp_all [Phase.Keeps]
  rw [← current, kept.sections.alone d c other busy]

theorem View.Kept.old (kept : s.view.Kept []) (at_ : (s.cpus c).phase = .notified) :
    n < s.current c := (kept.family.aged _
    ((kept.sections.ends c).mpr (show (s.cpus c).phase.Ends by rw [at_]; trivial))).1

/-- The children of an exiting process go to a thread of its group or to `initproc`,
and neither is a zombie. -/
theorem heir_spec (kept : s.view.Kept []) (at_ : (s.cpus c).phase = .notified) :
    ¬ s.view.dead (heir s (s.current c)) ∧ s.view.born (heir s (s.current c)) ∧
    heir s (s.current c) ≠ s.current c := by
  have young := kept.old at_
  have busy : s.view.Busy c := by simp [View.Busy, State.view, at_]
  have init : ¬ s.view.dead (initproc n) ∧ s.view.born (initproc n) ∧ initproc n ≠ s.current c :=
    ⟨fun dead => lt_irrefl _ (kept.family.aged _ dead).1, kept.family.booted _ le_rfl, young.ne⟩
  rw [heir, threads]
  split
  · next member =>
    cases rest : others (s.ring (s.tasks (s.current c)).gid) (s.current c) with
    | nil => exact init
    | cons q =>
      obtain ⟨listed, different⟩ := mem_others (kept.groups.distinct _) member (rest ▸ mem_cons_self (a := q))
      obtain ⟨born, _, keeps⟩ := kept.groups.member q _ listed
      exact ⟨fun dead => different (kept.busy_of_exiting (keeps dead) busy), born, different⟩
  · exact init

theorem ring_deThread (s : State n) (p g : ProcId) :
    (deThread s p).ring g = if g = (s.tasks p).gid then (s.ring g).erase p else s.ring g := by
  refine (update_apply ..).trans ?_
  split
  · next here => rw [here]
  · rfl

theorem view_release (s : State n) (p : ProcId) :
    ((deThread s p).setTask p { (deThread s p).tasks p with children := [] }).view = s.view.release
    p := by
  simp only [State.view, View.release, View.mk.injEq]
  refine ⟨?_, ?_, ?_, ?_, ?_, ?_, ?_, ?_, funext (ring_deThread s p), rfl⟩
  all_goals
    funext q
    by_cases here : q = p
    · simp [here, tasks_setTask_same, deThread]
    · simp [here, tasks_setTask_other _ here, deThread]

theorem giveChildren_spec (waits : Waits s) (kept : s.view.Kept [])
    (at_ : (s.cpus c).phase = .notified) : ∃ after, giveChildren s (s.current c) = .ok after ∧
    Woken s after ∧ after.view.Kept [] ∧ after.cpus = s.cpus ∧
      after.view.children (s.current c) = [] ∧ ∀ g, s.current c ∉ after.view.ring g := by
  obtain ⟨alive, exists_, different⟩ := heir_spec kept at_
  have young := kept.old at_
  have released := view_release s (s.current c)
  generalize bareIs : (deThread s (s.current c)).setTask (s.current c)
    { (deThread s (s.current c)).tasks (s.current c) with children := [] } = bare at released ⊢
  have unchanged : Woken s bare := by
    intro q
    left
    simp only [← bareIs, deThread, State.setTask, update_apply]
    split
    · next here => rw [here]
    · rfl
  have facts : ∀ q ∈ s.view.children (s.current c), n < q ∧ bare.view.born q ∧ bare.view.unlinks q = 0 := by
    intro q listed
    have older := kept.family.grown q _ listed young.le
    obtain ⟨born, _, linked, _⟩ := (kept.family.child q _ older).mp listed
    rw [released]
    exact ⟨older, born, linked⟩
  obtain ⟨after, finished, calmer, kept', cpus, ring, children⟩ :=
    reparent_spec (s.view.children (s.current c)) (waits.woken unchanged)
    (released ▸ kept.release young.le) (kept.family.siblings _) facts
    (show ¬ bare.view.dead (heir s (s.current c)) from released ▸ alive) (released ▸ exists_)
  refine ⟨after, ?_, unchanged.trans calmer, kept', ?_, ?_, ?_⟩
  · rwa [giveChildren, bareIs]
  · rw [show after.cpus = after.view.cpus from rfl, cpus, released]
    rfl
  · rw [children _ different.symm, released]
    exact if_pos rfl
  · intro g
    rw [ring, released]
    exact kept.groups.notMem_release g

theorem search_found {pid : ProcId} (kept : s.view.Kept [])
    (found : search s (s.current c) pid = .found p) : s.view.dead p ∧ s.view.unlinks p = 0 := by
  rw [search] at found
  split at found
  · rw [searchPid] at found
    split at found
    · next known =>
      split at found
      · next dead =>
        cases found
        exact ⟨dead, kept.family.hashed p known.1⟩
      · cases found
    · cases found
  · rw [searchAny] at found
    split at found
    · next kid chosen =>
      cases found
      have dead : (s.tasks p).state = .zombie := by simpa using find?_some chosen
      obtain ⟨thread, _, listed⟩ := mem_flatMap.mp (mem_of_find?_eq_some chosen)
      exact ⟨dead, ((kept.family.child p thread (kept.family.aged p dead).1).mp listed).2.2.1⟩
    · split at found <;> cases found

def State.joins (s : State n) (p child : ProcId) (thread : Bool) : ProcId := if thread then (s.tasks p).gid else child

def State.joined (s : State n) (p child : ProcId) (thread : Bool) : List ProcId :=
  if thread then (s.ring (s.tasks p).gid).insertIdx ((s.ring (s.tasks p).gid).idxOf p) child else [child]

theorem tasks_fork (thread : Bool) (different : p ≠ child) (q : ProcId) :
    (fork s p child thread).tasks q = if q = p then
    { s.tasks p with children := child :: (s.tasks p).children }
      else if q = child then ⟨⟨.runnable, 0⟩, p, [], s.joins p child thread, true, 0, 0⟩ else s.tasks q := by
  have same : (joinRing s p child thread).tasks = s.tasks := by
    rw [joinRing]
    split <;> rfl
  simp only [fork, State.setTask, update_apply, same, if_neg different]
  rfl

theorem ring_fork (s : State n) (p child : ProcId) (thread : Bool) (g : ProcId) :
    (fork s p child thread).ring g = if g = s.joins p child thread then s.joined p child thread else
    s.ring g := by
  cases thread <;> exact update_apply ..

theorem view_fork (thread : Bool) (different : p ≠ child) (fresh : (s.tasks child).state = .uninit) :
    (fork s p child thread).view = s.view.fork p child (s.joins p child thread)
    (s.joined p child thread) := by
  simp only [State.view, View.fork, View.mk.injEq]
  refine ⟨?_, ?_, ?_, ?_, ?_, ?_, ?_, ?_, funext (ring_fork s p child thread), by cases thread <;> rfl⟩
  all_goals
    funext q
    rw [tasks_fork thread different]
    by_cases first : q = p
    · simp [first, different]
    · by_cases second : q = child <;> simp [first, second, different.symm, fresh]

/-- Who sleeps: only a process that runs no more, or is about to stop, and never an
idle process. -/
structure Calm (s : State n) : Prop where
  waits : Waits s
  awake : ∀ c, (s.tasks (s.current c)).state = .sleeping → (s.cpus c).phase = .asleep
  idle : ∀ p < n, (s.tasks p).state = .runnable

theorem Calm.woken (calm : Calm s) (woken : Woken s after) (same : after.cpus = s.cpus) : Calm after := by
  refine ⟨calm.waits.woken woken, ?_, ?_⟩
  · intro c asleep
    simp only [State.current, same] at asleep ⊢
    rcases woken (s.cpus c).current with kept | ⟨before, _⟩
    · exact calm.awake c (kept ▸ asleep)
    · exact calm.awake c before
  · intro p below
    rcases woken p with kept | ⟨_, awake⟩
    · rw [kept]
      exact calm.idle p below
    · rw [awake]

structure Inv (s : State n) : Prop where
  calm : Calm s
  kept : s.view.Kept []

/-- A process becomes a zombie, and `do_wait` begins its search, only while no other
CPU is in `__do_exit` after that point or in `do_wait` after its search; and `schedule`
takes no process that another CPU runs or has not left yet. -/
def Exclusive (s : State n) : Op n → Prop
  | .exit c => ∀ d, d ≠ c → ¬ s.view.Busy d
  | .wait c _ => ∀ d, d ≠ c → ¬ s.view.Busy d
  | .switch c next => next ≠ c → ∀ d, ¬ Uses s d next
  | _ => True

@[simp] theorem tasks_setPhase (s : State n) (c : Fin n) (phase : Phase) : (s.setPhase c phase).tasks = s.tasks := rfl

@[simp] theorem current_setTask (s : State n) (p : ProcId) (task : Task) (c : Fin n) :
    (s.setTask p task).current c = s.current c := rfl

@[simp] theorem phase_setPhase_same (s : State n) (c : Fin n) (phase : Phase) :
    ((s.setPhase c phase).cpus c).phase = phase := by simp [State.setPhase, State.setCpu]

theorem phase_setPhase_other {d : Fin n} (phase : Phase) (different : d ≠ c) :
    ((s.setPhase c phase).cpus d).phase = (s.cpus d).phase := by
      simp [State.setPhase, State.setCpu, different]

@[simp] theorem current_setPhase (s : State n) (c d : Fin n) (phase : Phase) :
    (s.setPhase c phase).current d = s.current d := by
  obtain rfl | here := eq_or_ne d c
  · simp [State.current, State.setPhase, State.setCpu]
  · simp [State.current, State.setPhase, State.setCpu, here]

theorem Calm.setPhase (calm : Calm s) (awake : (s.tasks (s.current c)).state = .sleeping →
    phase = .asleep) : Calm (s.setPhase c phase) := by
  refine ⟨calm.waits, ?_, calm.idle⟩
  intro d asleep
  rw [current_setPhase] at asleep
  by_cases here : d = c
  · rw [here] at asleep ⊢
    rw [phase_setPhase_same]
    exact awake asleep
  · rw [phase_setPhase_other phase here]
    exact calm.awake d asleep

theorem Calm.not_asleep (calm : Calm s) (at_ : (s.cpus c).phase = phase) (other : phase ≠ .asleep) :
    (s.tasks (s.current c)).state ≠ .sleeping :=
    fun asleep => other (at_.symm.trans (calm.awake c asleep))

theorem Calm.move {before : Phase} (calm : Calm s) (at_ : (s.cpus c).phase = before)
    (other : before ≠ .asleep) : Calm (s.setPhase c phase) :=
    calm.setPhase fun asleep => absurd asleep (calm.not_asleep at_ other)

theorem Calm.setProc (calm : Calm s) (placed : s.view.Placed) (old : n ≤ s.current c)
    (own : proc.waitState ≠ 0 → proc.state = .sleeping) (awake : proc.state = .sleeping →
    (s.cpus c).phase = .asleep) :
    Calm (s.setTask (s.current c) { s.tasks (s.current c) with toProc := proc }) := by
  constructor
  · intro q
    by_cases here : q = s.current c
    · rwa [here, tasks_setTask_same]
    · rw [tasks_setTask_other _ here]
      exact calm.waits q
  · intro d asleep
    rw [current_setTask] at asleep
    by_cases here : s.current d = s.current c
    · have same := placed.apart d c _ (.inl rfl) (.inl here.symm)
      rw [here, tasks_setTask_same] at asleep
      rw [same]
      exact awake asleep
    · rw [tasks_setTask_other _ here] at asleep
      exact calm.awake d asleep
  · intro p below
    rw [tasks_setTask_other _ (Nat.ne_of_lt (below.trans_le old))]
    exact calm.idle p below

theorem Inv.fork {thread : Bool} (inv : Inv s) (running : (s.cpus c).phase = .running)
    (young : n < child) (fresh : (s.tasks child).state = .uninit) :
    Inv (fork s (s.current c) child thread) := by
  have kept := inv.kept
  have unborn : ¬ s.view.born child := not_not_intro fresh
  have born : s.view.born (s.current c) := kept.placed.started c _ (.inl rfl)
  have different : s.current c ≠ child := fun same => unborn (same ▸ born)
  have alive : ¬ s.view.dead (s.current c) := kept.sections.alive running id
  have outside : ∀ g, child ∉ s.ring g := fun g listed => unborn (kept.groups.member child g listed).1
  have place : ∀ g p, (s.ring g).idxOf p ≤ (s.ring g).length := fun g p => idxOf_le_length
  have cpus : (Reap.fork s (s.current c) child thread).cpus = s.cpus := by cases thread <;> rfl
  refine ⟨⟨?_, ?_, ?_⟩, ?_⟩
  · intro q
    rw [tasks_fork thread different]
    split
    · exact inv.calm.waits (s.current c)
    · split
      · exact absurd rfl
      · exact inv.calm.waits q
  · intro d asleep
    have older : s.current d ≠ child := fun same => unborn (same ▸ kept.placed.started d _ (.inl rfl))
    have same : (Reap.fork s (s.current c) child thread).current d = s.current d := by rw [State.current, cpus]; rfl
    rw [same, tasks_fork thread different, if_neg older] at asleep
    rw [cpus]
    apply inv.calm.awake d
    split at asleep
    · next here => exact here ▸ asleep
    · exact asleep
  · intro p below
    rw [tasks_fork thread different]
    split
    · next same => exact same ▸ inv.calm.idle p below
    · rw [if_neg (Nat.ne_of_lt (below.trans young))]
      exact inv.calm.idle p below
  · rw [view_fork thread different fresh]
    refine kept.fork unborn young born alive not_mem_nil ?_ ?_
    · rw [State.joined]
      split
      · exact (perm_insertIdx _ _ (place _ _)).nodup_iff.mpr (nodup_cons.mpr ⟨outside _, kept.groups.distinct _⟩)
      · simp
    intro q listed
    rw [State.joined] at listed
    rw [State.joins]
    split at listed
    · next isThread =>
      rw [if_pos isThread]
      exact (mem_insertIdx (place _ _)).mp listed
    · exact .inl (mem_singleton.mp listed)

theorem Inv.exit (inv : Inv s) (running : (s.cpus c).phase = .running) (young : n < s.current c)
    (free : ∀ d, d ≠ c → ¬ s.view.Busy d) :
    Inv ((s.setTask (s.current c) { s.tasks (s.current c) with state := .zombie }).setPhase c
    .zombie) := by
  have awake := inv.calm.not_asleep running (by simp)
  have busy := by_contra fun some => awake (inv.calm.waits _ some)
  have calm : Calm (s.setTask (s.current c) { s.tasks (s.current c) with state := .zombie }) :=
    inv.calm.setProc inv.kept.placed young.le (absurd busy) (fun asleep => by cases asleep)
  have view : ((s.setTask (s.current c) { s.tasks (s.current c) with state := .zombie }).setPhase c
    .zombie).view = s.view.die c := by
    have born : (s.tasks (s.current c)).state ≠ .uninit := inv.kept.placed.started c _ (.inl rfl)
    simp only [State.view, View.die, View.setPhase, View.mk.injEq, tasks_setPhase]
    refine ⟨field_setTask (fun task => task.state ≠ .uninit) ?_, ?_, field_setTask Task.parent rfl,
      field_setTask Task.children rfl, field_setTask Task.gid rfl, field_setTask Task.hashed rfl,
        field_setTask Task.unlinks rfl, field_setTask Task.frees rfl, rfl, rfl⟩
    · simp [born]
    funext q
    by_cases here : q = s.current c
    · rw [here, tasks_setTask_same]
      exact propext ⟨fun _ => .inl rfl, fun _ => rfl⟩
    · rw [tasks_setTask_other _ here]
      exact propext ⟨.inr, fun dead => dead.resolve_left here⟩
  refine ⟨calm.setPhase fun asleep => ?_, view ▸ inv.kept.die running young free⟩
  rw [current_setTask, tasks_setTask_same] at asleep
  cases asleep

theorem Inv.notify (inv : Inv s) (at_ : (s.cpus c).phase = .zombie) : ∃ after,
    wakeWaiters s (threads s (s.tasks (s.current c)).parent) = .ok after ∧
    Inv (after.setPhase c .notified) := by
  obtain ⟨after, finished, same, woken⟩ := wakeWaiters_spec (threads s (s.tasks (s.current c)).parent) inv.calm.waits
  have cpus := congrArg View.cpus same
  have calm := inv.calm.woken woken cpus
  have phase : (after.view.cpus c).phase = .zombie := by rwa [same]
  have kept := same ▸ inv.kept
  refine ⟨after, finished, calm.move phase (by simp), ?_⟩
  exact kept.setPhase (by simp) (fun _ => kept.sections.others (by simp [View.Busy, phase]))
    (by simp [phase, Phase.Ends]) (by simp [Phase.Keeps]) (by simp) (by simp) (by simp [phase])

theorem Inv.reparent (inv : Inv s) (at_ : (s.cpus c).phase = .notified) : ∃ after,
    giveChildren s (s.current c) = .ok after ∧ Inv (after.setPhase c .leaving) := by
  obtain ⟨after, finished, woken, kept, cpus, children, ring⟩ := giveChildren_spec inv.calm.waits inv.kept at_
  have calm := inv.calm.woken woken cpus
  have phase : (after.view.cpus c).phase = .notified := by rwa [show after.view.cpus = s.cpus from cpus]
  have current : (after.view.cpus c).current = s.current c := by
    rw [show after.view.cpus = s.cpus from cpus]
    rfl
  refine ⟨after, finished, calm.move phase (by simp), ?_⟩
  exact kept.setPhase (by simp) (fun _ => kept.sections.others (by simp [View.Busy, phase]))
    (by simp [phase, Phase.Ends]) (fun _ => .inr ⟨current ▸ children, fun g => current ▸ ring g⟩)
    (by simp) (by simp) (by simp [phase])

theorem View.Kept.not_uses {v : View n} (kept : v.Kept []) (quiet : ∀ d, ¬ v.Busy d) (dead : v.dead p)
    (d : Fin n) : ¬ v.Uses d p := by
  intro uses
  apply quiet d
  rcases uses with current | switching
  · have ends := (kept.sections.ends d).mp (current ▸ dead)
    rw [View.Busy]
    cases at_ : (v.cpus d).phase <;> simp_all [Phase.Ends]
  · simp [View.Busy, switching, dead]

theorem Inv.wait (inv : Inv s) (pid : ProcId) (running : (s.cpus c).phase = .running)
    (free : ∀ d, d ≠ c → ¬ s.view.Busy d) : ∃ after, waitSearch s c pid = .ok after ∧
    Inv after := by
  have phase : (s.view.cpus c).phase = .running := running
  have quiet : ∀ d, ¬ s.view.Busy d := by
    intro d busy
    by_cases here : d = c
    · simp [View.Busy, here, phase] at busy
    · exact free d here busy
  rw [waitSearch]
  cases result : search s (s.current c) pid with
  | badProc => exact ⟨s, rfl, inv⟩
  | unready =>
    refine ⟨_, rfl, inv.calm.move running (by simp), ?_⟩
    exact inv.kept.setPhase (by simp) (fun _ d _ => quiet d) (by simp [phase, Phase.Ends])
      (by simp [phase, Phase.Keeps]) (by simp) (by simp) (by simp [phase])
  | found p =>
    obtain ⟨dead, linked⟩ := search_found inv.kept result
    have young := (inv.kept.family.aged p dead).1
    have user : ¬ (p < n ∨ p = initproc n) := by
      rintro (idle | init)
      · exact Nat.lt_asymm idle young
      · exact Nat.ne_of_gt young init
    dsimp only
    rw [if_neg user]
    refine ⟨_, rfl, inv.calm.move running (by simp), ?_⟩
    refine inv.kept.setPhase (by simp) (fun _ d _ => quiet d) (by simp [phase, Phase.Ends])
      (by simp [phase, Phase.Keeps]) ?_ (by simp) (by simp [phase])
    intro q same
    cases same
    exact ⟨dead, linked, inv.kept.not_uses quiet dead⟩

theorem Calm.of_tasks (calm : Calm s) (procs : ∀ p, (after.tasks p).toProc = (s.tasks p).toProc)
    (cpus : after.cpus = s.cpus) : Calm after := calm.woken (fun p => .inl (procs p)) cpus

theorem tasks_removeLinks (s : State n) (p q : ProcId) : (removeLinks s p).tasks q = { s.tasks q with
        children := if q = (s.tasks p).parent then (s.tasks q).children.erase p else (s.tasks q).children
        hashed := if q = p then false else (s.tasks q).hashed
        unlinks := if q = p then (s.tasks q).unlinks + 1 else (s.tasks q).unlinks } := by
  simp only [removeLinks, State.setTask, update_apply]
  obtain rfl | first := eq_or_ne q p
  · by_cases own : (s.tasks q).parent = q
    · simp [own]
    · simp [Ne.symm own]
  · by_cases second : q = (s.tasks p).parent
    · simp [first, ← second]
    · simp [first, second]

section
variable (inv : Inv s)
include inv

theorem Inv.unlink (at_ : (s.cpus c).phase = .found p) : Inv ((removeLinks s p).setPhase c (.unlinked p)) := by
  have procs : ∀ q, ((removeLinks s p).tasks q).toProc = (s.tasks q).toProc := by
    intro q
    rw [tasks_removeLinks]
  have calm := inv.calm.of_tasks procs rfl
  have view : ((removeLinks s p).setPhase c (.unlinked p)).view = s.view.unlink c p := by
    simp only [State.view, View.unlink, View.setPhase, tasks_setPhase, tasks_removeLinks]
    rfl
  exact ⟨calm.move at_ (by simp), view ▸ inv.kept.unlink at_⟩

theorem Inv.free (at_ : (s.cpus c).phase = .unlinked p) : Inv ((freeProc s p).setPhase c .running) := by
  have procs : ∀ q, ((freeProc s p).tasks q).toProc = (s.tasks q).toProc := by
    intro q
    simp only [freeProc, State.setTask, update_apply]
    by_cases here : q = p <;> simp [here]
  have calm := inv.calm.of_tasks procs rfl
  have view : ((freeProc s p).setPhase c .running).view = s.view.free c p := by
    simp only [State.view, View.free, View.setPhase, View.mk.injEq, tasks_setPhase, freeProc, State.setTask, update_apply]
    refine ⟨?_, ?_, ?_, ?_, ?_, ?_, ?_, ?_, rfl, rfl⟩
    all_goals
      funext q
      by_cases here : q = p <;> simp [here]
  exact ⟨calm.move at_ (by simp), view ▸ inv.kept.free at_⟩

theorem Inv.sleep (at_ : (s.cpus c).phase = .unready) (old : n ≤ s.current c) :
    Inv ((s.setTask (s.current c) { s.tasks (s.current c) with
    state := .sleeping, waitState := wtChild }).setPhase c .asleep) := by
  have phase : (s.view.cpus c).phase = .unready := at_
  have alive := inv.kept.sections.alive phase id
  have born := inv.kept.placed.started c _ (.inl rfl)
  have view : (s.setTask (s.current c) { s.tasks (s.current c) with
    state := .sleeping, waitState := wtChild }).view = s.view :=
    view_setProc (iff_of_false (fun asleep => by cases asleep) alive) (iff_of_false (fun asleep => by cases asleep) born)
  have kept : (s.view.setPhase c .asleep).Kept [] :=
    inv.kept.setPhase (by simp) (fun busy => by simp [View.Busy, View.cpus_setPhase_same] at busy)
      (by simp [phase, Phase.Ends]) (by simp [phase, Phase.Keeps]) (by simp) (by simp) (by simp [phase])
  have calm : Calm (s.setPhase c .asleep) := inv.calm.setPhase fun _ => rfl
  constructor
  · have own := @Calm.setProc _ _ c ⟨.sleeping, wtChild⟩ calm kept.placed
      (by rwa [current_setPhase]) (fun _ => rfl) (fun _ => phase_setPhase_same s c .asleep)
    rwa [current_setPhase] at own
  · rwa [show ((s.setTask (s.current c) _).setPhase c .asleep).view =
      (s.setTask (s.current c) _).view.setPhase c .asleep from rfl, view]

theorem Inv.wake (asleep : (s.tasks p).state = .sleeping) : ∃ after, wakeupProc s p = .ok after ∧ Inv after := by
  obtain ⟨after, finished, same, woken⟩ := wakeupProc_spec asleep
  exact ⟨after, finished, inv.calm.woken woken (congrArg View.cpus same), same ▸ inv.kept⟩

theorem Inv.switch (choice : Choice s c next) (alone : next ≠ c → ∀ d, ¬ Uses s d next)
    (calm : (s.cpus c).phase = .leaving ∨ (s.cpus c).phase = .asleep ∨
    (s.cpus c).phase = .running) : Inv (s.setCpu c ⟨next, .switching (s.current c)⟩) := by
  have state : (s.tasks next).state = .runnable := by
    rcases choice with rfl | ⟨_, runnable⟩
    · exact inv.calm.idle c c.isLt
    · exact runnable
  refine ⟨⟨inv.calm.waits, ?_, inv.calm.idle⟩, ?_⟩
  · intro d asleep
    obtain rfl | here := eq_or_ne d c
    · simp [State.current, State.setCpu, state] at asleep
    · simp only [State.current, State.setCpu, update_of_ne here] at asleep ⊢
      exact inv.calm.awake d asleep
  refine inv.kept.switch calm ?_ ?_ ?_ ?_
  · intro d used
    by_cases idle : next = c
    · subst idle
      exact (Fin.ext (inv.kept.placed.idle d c used c.isLt)).symm
    · exact absurd used (alone idle d)
  · intro below
    rcases choice with same | ⟨old, _⟩
    · exact same
    · exact absurd below (Nat.not_lt_of_le old)
  · exact fun unborn => by simp [state] at unborn
  · exact fun dead => by simp [State.view, state] at dead

theorem Inv.resume (awake : (s.tasks (s.current c)).state ≠ .sleeping)
    (at_ : (s.cpus c).phase = .asleep ∨ ∃ prev, (s.cpus c).phase = .switching prev) :
    Inv (s.setPhase c .running) := by
  have phase : (s.view.cpus c).phase = .asleep ∨ ∃ prev, (s.view.cpus c).phase = .switching prev := at_
  have kept : (s.view.setPhase c .running).Kept [] := by
    apply inv.kept.setPhase
    case still => simp
    case enters => exact fun busy => by simp [View.Busy, View.cpus_setPhase_same] at busy
    case ends => rcases phase with at_ | ⟨prev, at_⟩ <;> simp [at_, Phase.Ends]
    case keeps => rcases phase with at_ | ⟨prev, at_⟩ <;> simp [at_, Phase.Keeps]
    case found => simp
    case taken => simp
    case took => rcases phase with at_ | ⟨prev, at_⟩ <;> simp [at_]
  exact ⟨inv.calm.setPhase awake.elim, kept⟩

end

theorem inv_step (op : Op n) (inv : Inv s) (allowed : Allowed s op) (exclusive : Exclusive s op) :
    ∃ after output, step s op = .ok (after, output) ∧ Inv after := by
  cases op with
  | fork => exact ⟨_, (), rfl, inv.fork allowed.1 allowed.2.1 allowed.2.2.1⟩
  | exit => exact ⟨_, (), rfl, inv.exit allowed.1 allowed.2 exclusive⟩
  | notify =>
    obtain ⟨after, finished, inv⟩ := inv.notify allowed
    exact ⟨_, (), by rw [step, finished]; rfl, inv⟩
  | reparent =>
    obtain ⟨after, finished, inv⟩ := inv.reparent allowed
    exact ⟨_, (), by rw [step, finished]; rfl, inv⟩
  | wait c pid =>
    obtain ⟨after, finished, inv⟩ := inv.wait pid allowed.1 exclusive
    exact ⟨_, (), by rw [step, finished]; rfl, inv⟩
  | unlink =>
    obtain ⟨p, at_⟩ := allowed
    refine ⟨_, (), rfl, ?_⟩
    rw [at_]
    exact inv.unlink at_
  | free =>
    obtain ⟨p, at_⟩ := allowed
    refine ⟨_, (), rfl, ?_⟩
    rw [at_]
    exact inv.free at_
  | sleep => exact ⟨_, (), rfl, inv.sleep allowed.1 allowed.2⟩
  | wake =>
    obtain ⟨after, finished, inv⟩ := inv.wake allowed
    exact ⟨_, (), by rw [step, finished]; rfl, inv⟩
  | switch => exact ⟨_, (), rfl, inv.switch allowed.2.1 exclusive allowed.2.2⟩
  | switched =>
    obtain ⟨prev, at_⟩ := allowed
    exact ⟨_, (), rfl, inv.resume (inv.calm.not_asleep at_ (by simp)) (.inr ⟨prev, at_⟩)⟩
  | resume => exact ⟨_, (), rfl, inv.resume (by simp [allowed.2]) (.inl allowed.1)⟩

theorem boot_uses {d : Fin n} (uses : (boot n).view.Uses d p) : p = d := by
  rcases uses with current | switching
  · exact current.symm
  · cases switching

theorem boot_runnable (old : p ≤ n) : ((boot n).tasks p).state = .runnable := by
  rcases Nat.lt_or_eq_of_le old with below | rfl
  · simp [boot, below]
  · simp [boot, initproc]

theorem boot_uninit (young : n < p) : ((boot n).tasks p).state = .uninit := by
  simp [boot, initproc, Nat.lt_asymm young, young.ne']

theorem boot_children (q : ProcId) : ((boot n).tasks q).children = if q = 0 ∧ 0 < n then [n] else [] := by
  simp only [boot, initproc]
  grind

theorem inv_boot (n : Nat) : Inv (boot n) := by
  have alive : ∀ p, ¬ (boot n).view.dead p := by
    intro p
    by_cases old : p ≤ n
    · simp [State.view, boot_runnable old]
    · simp [State.view, boot_uninit (Nat.lt_of_not_le old)]
  have born : ∀ p, (boot n).view.born p ↔ p ≤ n := by
    intro p
    by_cases old : p ≤ n
    · simp [State.view, boot_runnable old, old]
    · simp [State.view, boot_uninit (Nat.lt_of_not_le old), old]
  have counts : ∀ p, (boot n).view.unlinks p = 0 ∧ (boot n).view.frees p = 0 ∧ ((boot n).tasks p).waitState = 0 := by
    intro p
    simp only [State.view, boot]
    grind
  have phase : ∀ c, ((boot n).view.cpus c).phase = .running := fun c => rfl
  refine ⟨⟨?_, ?_, fun p below => boot_runnable below.le⟩, ⟨?_, ?_, ?_, ?_, ?_⟩⟩
  · exact fun p waiting => absurd (counts p).2.2 waiting
  · intro c asleep
    rw [show (boot n).current c = c from rfl, boot_runnable c.isLt.le] at asleep
    cases asleep
  · refine ⟨?_, fun c p used _ => boot_uses used, ?_⟩
    · exact fun c d p first second => Fin.ext ((boot_uses first).symm.trans (boot_uses second))
    · exact fun c p used => (born p).mpr (boot_uses used ▸ c.isLt.le)
  · refine ⟨fun c d busy => by simp [View.Busy, phase] at busy, fun c => iff_of_false (alive _) ?_⟩
    simp [phase, Phase.Ends]
  · refine ⟨by simp [phase], by simp [phase], ?_, ?_, ?_⟩
    · exact fun p some => absurd (counts p).1 some
    · exact fun p => .inl ((counts p).2.1.trans (counts p).1.symm)
    · exact fun p => (counts p).1 ▸ Nat.zero_le _
  · have children : ∀ q, (boot n).view.children q = if q = 0 ∧ 0 < n then [n] else [] := boot_children
    refine ⟨fun p dead => absurd dead (alive p), fun p => (born p).mpr, ?_, ?_, ?_, ?_, ?_, fun p _ => (counts p).1⟩
    · intro p unborn
      rw [born] at unborn
      exact ⟨by rw [children, if_neg fun both : p = 0 ∧ 0 < n => unborn (both.1 ▸ Nat.zero_le n)], (counts p).1⟩
    · intro p q young
      grind
    · intro p q listed old
      grind
    · intro q
      rw [children]
      split <;> simp
    · exact fun p q _ dead => absurd dead (alive q)
  · constructor
    · intro p g listed
      simp only [State.view, boot, initproc] at listed
      have old : g ≤ n ∧ p = g := by grind
      refine ⟨(born p).mpr (old.2 ▸ old.1), ?_, fun dead => absurd dead (alive p)⟩
      simp only [State.view, boot, initproc]
      grind
    · intro g
      simp only [State.view, boot]
      split <;> simp

/-- What reaping must keep: what is freed is in use on no CPU, a process is unlinked
and freed at most once and in this order, and a zombie that is not yet unlinked can be
found through a parent that still exists. -/
structure Reaped (s : State n) : Prop where
  unused : ∀ p, 0 < (s.tasks p).frees → ∀ c, ¬ Uses s c p
  once : ∀ p, (s.tasks p).frees ≤ (s.tasks p).unlinks ∧ (s.tasks p).unlinks ≤ 1
  complete : ∀ p, (s.tasks p).unlinks = 1 → (s.tasks p).frees = 1 ∨ ∃ c, (s.cpus c).phase = .unlinked p
  kept : ∀ p, (s.tasks p).state = .zombie → (s.tasks p).unlinks = 0 →
    p ∈ (s.tasks (s.tasks p).parent).children ∧ (s.tasks (s.tasks p).parent).frees = 0

theorem Inv.reaped (inv : Inv s) : Reaped s := by
  have kept := inv.kept
  have once : ∀ p, (s.tasks p).frees ≤ (s.tasks p).unlinks := by
    intro p
    rcases kept.reaping.pending p with done | ⟨c, at_⟩
    · exact Nat.le_of_eq done
    · exact le_of_eq_of_le (kept.reaping.taken c p at_).2 (Nat.zero_le _)
  have unlinked : ∀ p, 0 < (s.tasks p).frees → (s.tasks p).unlinks ≠ 0 :=
    fun p freed none => Nat.not_le_of_gt freed (none ▸ once p)
  refine ⟨fun p freed => (kept.reaping.gone p (unlinked p freed)).2, fun p => ⟨once p, kept.reaping.single p⟩, ?_, ?_⟩
  · intro p linked
    rcases kept.reaping.pending p with done | pending
    · exact .inl (done.trans linked)
    · exact .inr pending
  · intro p dead linked
    obtain ⟨young, born⟩ := kept.family.aged p dead
    have listed := (kept.family.child p _ young).mpr ⟨born, rfl, linked, not_mem_nil⟩
    refine ⟨listed, Nat.eq_zero_of_not_pos fun freed => ?_⟩
    obtain ⟨gone, unused⟩ := kept.reaping.gone _ (unlinked _ freed)
    obtain ⟨c, current, _⟩ := kept.family.owner p _ listed gone
    exact unused c (.inl current)

/-- When exiting and waiting exclude each other, no zombie is freed while a CPU still
uses it, each is unlinked and freed once, and no assertion fails. -/
theorem reaping_safe_when_exclusive (n : Nat) : ((machine n).restrict Exclusive).Safe Reaped :=
  Machine.safe_of_invariant (fun _ begins => begins ▸ inv_boot n) (fun _ op inv allowed =>
    inv_step op inv allowed.1 allowed.2) fun _ => Inv.reaped

/-- A parent on another CPU frees a process that is still in `__do_exit`, and two threads
of a parent both free the same zombie. -/
theorem reaped_while_running_and_twice : (∃ s, (machine 2).Reachable s ∧ (s.tasks 3).frees = 1 ∧
    s.current 1 = 3) ∧ ∃ s, (machine 2).Reachable s ∧ (s.tasks 5).frees = 2 := by
  constructor
  · exact Machine.exists_of_replay rfl [.switch 0 2, .switched 0, .fork 0 3 false, .switch 1 3,
      .switched 1, .exit 1, .wait 0 0, .unlink 0, .free 0] (by decide)
  · exact Machine.exists_of_replay rfl [.switch 0 2, .switched 0, .fork 0 3 false, .switch 1 3, .switched 1, .fork 1 4 true,
      .fork 1 5 false, .switch 0 5, .switched 0, .exit 0, .notify 0, .reparent 0, .switch 0 4, .switched 0, .wait 0 0,
      .wait 1 0, .unlink 0, .unlink 1, .free 0, .free 1] (by decide +kernel)

end Ucore.Reap
