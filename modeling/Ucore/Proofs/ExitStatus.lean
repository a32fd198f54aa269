import Ucore.ExitCode

/-! The exit code of a process follows the calls that apply to it through a few stages. It is
the code of the first call as long as no kill meets a process that is already leaving or being
killed, and a killed process leaves with the code it was killed with. -/

namespace Ucore.ExitCode
open Lib Function

/-- How far a process is with its own exit. -/
inductive Stage where
  | free
  /-- It will store this code. -/
  | leaving (code : Int)
  | stored
deriving DecidableEq

def Pc.stage : Pc → Stage
  | .running => .free
  | .killing _ code inExit => if inExit then .leaving code else .free
  | .flagged _ code inExit => if inExit then .leaving code else .free
  | .group _ code => .leaving code
  | .exiting code => .leaving code
  | .coded => .stored
  | .zombie => .stored
  | .gone => .stored

/-- The process that a `__do_kill` works on, its code, and whether it has set the flag. -/
def Pc.aim : Pc → Option (ProcId × Int × Bool)
  | .killing q code _ => some (q, code, false)
  | .flagged q code _ => some (q, code, true)
  | _ => none

/-- The process that the loop of `do_exit` is at, or that is being killed. -/
def Pc.place : Pc → Option ProcId
  | .killing q _ _ => some q
  | .flagged q _ _ => some q
  | .group le _ => some le
  | _ => none

namespace State

def stage (s : State) (q : ProcId) : Stage := (s.tasks q).pc.stage

def aim (s : State) (p : ProcId) : Option (ProcId × Int × Bool) := (s.tasks p).pc.aim

def place (s : State) (p : ProcId) : Option ProcId := (s.tasks p).pc.place

def exiting (s : State) (q : ProcId) : Bool := (s.tasks q).exiting

def code (s : State) (q : ProcId) : Int := (s.tasks q).exitCode

def Exists (s : State) (q : ProcId) : Prop := (s.tasks q).state ≠ .uninit

end State

/-- A kill of the process is between its test and its store. -/
def Targets (s : State) (p q : ProcId) : Prop := ∃ code flag, s.aim p = some (q, code, flag)

/-- What has been done to a process so far. -/
inductive Account (s : State) (q : ProcId) : Prop where
  | untouched (first : s.first q = none) (flag : s.exiting q = false) (stage : s.stage q = .free)
      (alone : ∀ p, ¬ Targets s p q)
  | aimed (p : ProcId) {code : Int} {flag : Bool} (first : s.first q = some code)
      (flagged : s.exiting q = flag) (stage : s.stage q = .free)
      (aim : s.aim p = some (q, code, flag)) (only : ∀ r, Targets s r q → r = p)
  | killed (first : s.first q = some (s.code q)) (flag : s.exiting q = true)
      (stage : s.stage q = .free) (alone : ∀ p, ¬ Targets s p q)
  | leaving {code : Int} (first : s.first q = some code) (stage : s.stage q = .leaving code) (alone : ∀ p, ¬ Targets s p q)
  | stored (first : s.first q = some (s.code q)) (stage : s.stage q = .stored) (alone : ∀ p, ¬ Targets s p q)

variable {s t : State} {p q : ProcId} {code : Int} {pc : Pc} {task : Task} {inExit : Bool} {r : ProcId}

theorem Account.congr (account : Account s q) (first : t.first q = s.first q)
    (flag : t.exiting q = s.exiting q) (same : t.code q = s.code q)
    (stage : t.stage q = s.stage q) (aims : ∀ p, t.aim p = s.aim p ∨ ¬ Targets s p q ∧ ¬ Targets t p q) : Account t q := by
  have targets : ∀ p, Targets t p q → Targets s p q := by
    rintro p ⟨code, flag, aim⟩
    rcases aims p with equal | ⟨_, neither⟩
    · exact ⟨code, flag, equal ▸ aim⟩
    · exact absurd ⟨code, flag, aim⟩ neither
  cases account with
  | untouched none clear free alone =>
    exact .untouched (first.trans none) (flag.trans clear) (stage.trans free) fun p target => alone p (targets p target)
  | aimed p some set free aim only =>
    refine .aimed p (first.trans some) (flag.trans set) (stage.trans free) ?_ fun r target => only r (targets r target)
    rcases aims p with equal | ⟨not, _⟩
    · exact equal.trans aim
    · exact absurd ⟨_, _, aim⟩ not
  | killed some set free alone =>
    refine .killed ?_ (flag.trans set) (stage.trans free) fun p target => alone p (targets p target)
    rw [first, some, same]
  | leaving some going alone =>
    exact .leaving (first.trans some) (stage.trans going) fun p target => alone p (targets p target)
  | stored some done alone =>
    refine .stored ?_ (stage.trans done) fun p target => alone p (targets p target)
    rw [first, some, same]

/-- Calls and groups are about processes that exist. -/
structure Shape (s : State) : Prop where
  unborn : ∀ q, ¬ s.Exists q → s.first q = none ∧ (s.tasks q).pc = .running
  known : ∀ q, (s.tasks q).hashed = true → s.Exists q
  closed : ∀ q, s.Exists q → s.Exists (s.threadGroup.next q) ∧ s.Exists (s.threadGroup.prev q)
  placed : ∀ p q, s.place p = some q → s.Exists q
  zombie : ∀ q, (s.tasks q).state = .zombie → s.stage q = .stored

structure Inv (s : State) : Prop where
  account : ∀ q, Account s q
  shape : Shape s

theorem Account.of_target (account : Account s q) {flag : Bool}
    (aim : s.aim p = some (q, code, flag)) : s.first q = some code ∧ s.exiting q = flag ∧
    s.stage q = .free ∧ ∀ r, Targets s r q → r = p := by
  have target : Targets s p q := ⟨code, flag, aim⟩
  cases account with
  | untouched _ _ _ alone | killed _ _ _ alone | leaving _ _ alone | stored _ _ alone => exact absurd target (alone p)
  | aimed r first flagged stage held only =>
    cases only p target
    cases held.symm.trans aim
    exact ⟨first, flagged, stage, only⟩

theorem field_setTask {α : Type} (field : Task → α) (same : field task = field (s.tasks q))
    (r : ProcId) : field ((s.setTask q task).tasks r) = field (s.tasks r) := by
  simp only [State.setTask, update_apply]
  split
  · next here => rw [here, same]
  · rfl

section Updates
variable (s : State) (p q r : ProcId) (task : Task) (pc : Pc) (code : Int)

@[simp] theorem tasks_setTask : (s.setTask p task).tasks r = if r = p then task else s.tasks r := by
  simp [State.setTask, update_apply]

@[simp] theorem stage_setTask : (s.setTask p task).stage r = if r = p then task.pc.stage else s.stage r := by
  rw [State.stage, tasks_setTask]
  split <;> rfl

@[simp] theorem aim_setTask : (s.setTask p task).aim r = if r = p then task.pc.aim else s.aim r := by
  rw [State.aim, tasks_setTask]
  split <;> rfl

@[simp] theorem place_setTask : (s.setTask p task).place r = if r = p then task.pc.place else s.place r := by
  rw [State.place, tasks_setTask]
  split <;> rfl

@[simp] theorem exiting_setTask : (s.setTask p task).exiting r = if r = p then task.exiting else s.exiting r := by
  rw [State.exiting, tasks_setTask]
  split <;> rfl

@[simp] theorem code_setTask : (s.setTask p task).code r = if r = p then task.exitCode else s.code r := by
  rw [State.code, tasks_setTask]
  split <;> rfl

theorem exists_setTask : (s.setTask p task).Exists r ↔ if r = p then task.state ≠ .uninit else s.Exists r := by
  rw [State.Exists, tasks_setTask]
  split <;> rfl

@[simp] theorem first_setTask : (s.setTask p task).first r = s.first r := rfl

@[simp] theorem stage_setPc : (s.setPc p pc).stage r = if r = p then pc.stage else s.stage r := by
  rw [State.setPc, stage_setTask]

@[simp] theorem aim_setPc : (s.setPc p pc).aim r = if r = p then pc.aim else s.aim r := by rw [State.setPc, aim_setTask]

@[simp] theorem exiting_setPc : (s.setPc p pc).exiting r = s.exiting r := field_setTask Task.exiting (by rfl) r

@[simp] theorem code_setPc : (s.setPc p pc).code r = s.code r := field_setTask Task.exitCode (by rfl) r

@[simp] theorem first_setPc : (s.setPc p pc).first r = s.first r := rfl

@[simp] theorem stage_note : (s.note q code).stage r = s.stage r := rfl

@[simp] theorem aim_note : (s.note q code).aim r = s.aim r := rfl

@[simp] theorem exiting_note : (s.note q code).exiting r = s.exiting r := rfl

@[simp] theorem code_note : (s.note q code).code r = s.code r := rfl

@[simp] theorem first_note : (s.note q code).first r = if r = q then some ((s.first q).getD code) else
    s.first r := by simp [State.note, update_apply]

end Updates

theorem Account.setPc (account : Account s r) (stage : r = p → pc.stage = s.stage p)
    (before : ¬ Targets s p r) (after : ∀ code flag, pc.aim ≠ some (r, code, flag)) :
    Account (s.setPc p pc) r := by
  refine account.congr rfl (exiting_setPc ..) (code_setPc ..) ?_ fun other => ?_
  · rw [stage_setPc]
    split
    · next same => rw [stage same, same]
    · rfl
  · obtain rfl | same := eq_or_ne other p
    · refine .inr ⟨before, fun ⟨code, flag, aim⟩ => after code flag ?_⟩
      simpa using aim
    · exact .inl (by simp [same])

theorem not_targets (idle : s.aim p = none) (r : ProcId) : ¬ Targets s p r := by
  rintro ⟨code, flag, aim⟩
  cases idle.symm.trans aim

theorem alone_setPc (alone : ∀ r, ¬ Targets s r q) (idle : pc.aim = none) (r : ProcId) : ¬ Targets (s.setPc p pc) r q := by
  rintro ⟨_, _, aim⟩
  rw [aim_setPc, idle] at aim
  split at aim
  · cases aim
  · exact alone r ⟨_, _, aim⟩

theorem Account.note (account : Account s r) (apart : r ≠ q) : Account (s.note q code) r :=
  account.congr (by simp [apart]) rfl rfl rfl fun _ => .inl rfl

section
variable (shape : Shape s)
include shape

theorem Shape.setTask (state : task.state = .uninit ↔ ¬ s.Exists p) (hashed : task.hashed = true →
    s.Exists p) (idle : ¬ s.Exists p → task.pc = .running) (place : ∀ q, task.pc.place = some q →
    s.Exists q)
    (zombie : task.state = .zombie → task.pc.stage = .stored) : Shape (s.setTask p task) := by
  have exists_ : ∀ q, (s.setTask p task).Exists q ↔ s.Exists q := by
    intro q
    rw [exists_setTask]
    split
    · next same => rw [ne_eq, state, not_not, same]
    · rfl
  refine ⟨fun q absent => ?_, fun q listed => ?_, fun q born => ?_, fun r q at_ => ?_, fun q dead => ?_⟩
  · rw [exists_] at absent
    refine ⟨(shape.unborn q absent).1, ?_⟩
    rw [tasks_setTask]
    split
    · next same => exact idle (same ▸ absent)
    · exact (shape.unborn q absent).2
  · rw [tasks_setTask] at listed
    rw [exists_]
    split at listed
    · next same => exact same ▸ hashed listed
    · exact shape.known q listed
  · rw [exists_] at born
    have both := shape.closed q born
    exact ⟨(exists_ _).mpr both.1, (exists_ _).mpr both.2⟩
  · rw [place_setTask] at at_
    rw [exists_]
    split at at_
    · exact place q at_
    · exact shape.placed r q at_
  · rw [tasks_setTask] at dead
    rw [stage_setTask]
    split at dead
    · next same => rw [if_pos same, zombie dead]
    · next other => rw [if_neg other, shape.zombie q dead]

theorem Shape.setPc (born : s.Exists p) (place : ∀ q, pc.place = some q → s.Exists q)
    (zombie : (s.tasks p).state = .zombie → pc.stage = .stored) : Shape (s.setPc p pc) :=
  shape.setTask (by simp [State.Exists]) (shape.known p) (fun absent => absurd born absent) place zombie

theorem Shape.note (born : s.Exists q) : Shape (s.note q code) := by
  refine { shape with unborn := fun r absent => ?_ }
  have apart : r ≠ q := fun same => absent (same ▸ born)
  rw [first_note, if_neg apart]
  exact shape.unborn r absent

theorem Shape.exists_of_pc (acts : (s.tasks p).pc ≠ .running) : s.Exists p := by
  intro absent
  exact acts (shape.unborn p (not_not.mpr absent)).2

theorem Shape.alive {stage : Stage} (at_ : s.stage q = stage) (early : stage ≠ .stored) :
    (s.tasks q).state ≠ .zombie := fun dead => early (at_.symm.trans (shape.zombie q dead))

end

theorem Inv.test (inv : Inv s) (flag : s.exiting q = false) (free : s.stage q = .free) (alone : ∀ r, ¬ Targets s r q)
    (born : s.Exists q) (stage : (Pc.killing q code inExit).stage = s.stage p)
      (idle : s.aim p = none) (actor : s.Exists p) (alive : (s.tasks p).state ≠ .zombie) :
      Inv (test s p q code inExit) := by
  refine ⟨fun r => ?_, (inv.shape.note born).setPc actor ?_ alive.elim⟩
  · obtain rfl | same := eq_or_ne r q
    · have first : s.first r = none := by
        cases inv.account r with
        | untouched none => exact none
        | aimed r _ _ _ aim => exact absurd ⟨_, _, aim⟩ (alone r)
        | killed _ set => exact absurd (set.symm.trans flag) Bool.noConfusion
        | leaving _ going => exact absurd (going.symm.trans free) Stage.noConfusion
        | stored _ done => exact absurd (done.symm.trans free) Stage.noConfusion
      refine .aimed p (show _ = some code from ?_) (show _ = false from ?_) ?_ ?_ fun other target => ?_
      · simp [ExitCode.test, first]
      · simp [ExitCode.test, flag]
      · simp only [ExitCode.test, stage_setPc, stage_note]
        split
        · next own => rw [stage, ← own, free]
        · exact free
      · simp [ExitCode.test, Pc.aim]
      · by_contra apart
        obtain ⟨_, _, aim⟩ := target
        simp only [ExitCode.test, aim_setPc, aim_note, if_neg apart] at aim
        exact alone other ⟨_, _, aim⟩
    · refine ((inv.account r).note same).setPc (fun _ => stage) (not_targets idle r) ?_
      rintro other flag ⟨⟩
      exact same rfl
  · rintro r ⟨⟩
    exact born

theorem stage_setTask_of_pc (pc : task.pc = (s.tasks q).pc) (r : ProcId) :
    (s.setTask q task).stage r = s.stage r :=
    field_setTask (fun task => task.pc.stage) (congrArg Pc.stage pc) r

theorem aim_setTask_of_pc (pc : task.pc = (s.tasks q).pc) (r : ProcId) :
    (s.setTask q task).aim r = s.aim r :=
    field_setTask (fun task => task.pc.aim) (congrArg Pc.aim pc) r

theorem Account.setTask (account : Account s r) (apart : r ≠ q) (pc : task.pc = (s.tasks q).pc) :
    Account (s.setTask q task) r :=
  account.congr rfl (by simp [apart]) (by simp [apart]) (stage_setTask_of_pc pc r) fun other =>
    .inl (aim_setTask_of_pc pc other)

theorem Shape.setField (shape : Shape s) (pc : task.pc = (s.tasks q).pc)
    (state : task.state = (s.tasks q).state) (hashed : task.hashed = true →
    (s.tasks q).hashed = true) : Shape (s.setTask q task) := by
  refine shape.setTask (by simp [State.Exists, state]) (fun listed => shape.known q (hashed listed)) ?_ ?_ ?_
  · rw [pc]
    exact fun absent => (shape.unborn q absent).2
  · rw [pc]
    exact shape.placed q
  · rw [pc, state]
    exact shape.zombie q

theorem Inv.flag (inv : Inv s) (at_ : (s.tasks p).pc = .killing q code inExit) :
    Inv ((s.setTask q { s.tasks q with exiting := true }).setPc p (.flagged q code inExit)) := by
  have aim : s.aim p = some (q, code, false) := congrArg Pc.aim at_
  have stage : s.stage p = (Pc.flagged q code inExit).stage := by rw [State.stage, at_, Pc.stage, Pc.stage]
  obtain ⟨first, _, free, only⟩ := (inv.account q).of_target aim
  generalize markedIs : s.setTask q { s.tasks q with exiting := true } = marked
  have shape : Shape marked := markedIs ▸ inv.shape.setField rfl rfl id
  have stages : ∀ r, marked.stage r = s.stage r := markedIs ▸ stage_setTask_of_pc rfl
  have aims : ∀ r, marked.aim r = s.aim r := markedIs ▸ aim_setTask_of_pc rfl
  have actor : s.Exists p := inv.shape.exists_of_pc (by simp [at_])
  have acts : marked.Exists p := by
    rw [← markedIs, exists_setTask]
    split
    · next own => exact own ▸ actor
    · exact actor
  refine ⟨fun r => ?_, shape.setPc acts ?_ fun dead => ?_⟩
  · obtain rfl | same := eq_or_ne r q
    · refine .aimed p (show _ = some code from ?_) (show _ = true from ?_) ?_ ?_ fun other target => ?_
      · simp [← markedIs, first]
      · simp [← markedIs]
      · rw [stage_setPc, stages]
        split
        · next own => rw [← stage, ← own, free]
        · exact free
      · simp [Pc.aim]
      · obtain ⟨_, _, held⟩ := target
        by_contra apart
        rw [aim_setPc, if_neg apart, aims] at held
        exact apart (only other ⟨_, _, held⟩)
    · have kept : Account marked r := markedIs ▸ (inv.account r).setTask same rfl
      refine kept.setPc (fun _ => by rw [stages, stage]) ?_ ?_
      · rintro ⟨_, _, held⟩
        rw [aims, aim] at held
        cases held
        exact same rfl
      · rintro _ _ ⟨⟩
        exact same rfl
  · rintro r ⟨⟩
    have place : s.place p = some q := congrArg Pc.place at_
    rw [← markedIs, exists_setTask]
    have born := inv.shape.placed p q place
    rwa [if_pos rfl]
  · rw [← stage, ← stages]
    exact shape.zombie p dead

theorem Inv.storeCode (inv : Inv s) (at_ : (s.tasks p).pc = .flagged q code inExit) :
    ∃ t, storeCode s q code = .ok t ∧ Inv (t.setPc p (if inExit then .group q code else .running)) ∧
      ∀ r, (s.tasks r).state = .zombie → t.code r = s.code r := by
  have aim : s.aim p = some (q, code, true) := congrArg Pc.aim at_
  have stage : s.stage p = (if inExit then Pc.group q code else .running).stage := by
    rw [State.stage, at_]
    cases inExit <;> rfl
  have unaimed : (if inExit then Pc.group q code else .running).aim = none := by cases inExit <;> rfl
  obtain ⟨first, flag, free, only⟩ := (inv.account q).of_target aim
  have alive : (s.tasks q).state ≠ .zombie := inv.shape.alive free Stage.noConfusion
  have born : s.Exists q := inv.shape.placed p q (congrArg Pc.place at_)
  -- Whether the process is woken or not, only its code and its sleep change.
  obtain ⟨proc, ran, awake⟩ : ∃ proc : Proc, ExitCode.storeCode s q code = .ok
    (s.setTask q { s.tasks q with toProc := proc, exitCode := code }) ∧ proc.state ≠ .uninit ∧
    proc.state ≠ .zombie := by
    unfold ExitCode.storeCode
    dsimp only
    split
    · rw [wakeupProc_ok alive]
      refine ⟨_, rfl, ?_⟩
      split
      · exact ⟨ProcState.noConfusion, ProcState.noConfusion⟩
      · exact ⟨born, alive⟩
    · exact ⟨(s.tasks q).toProc, rfl, born, alive⟩
  refine ⟨_, ran, ?_, fun r dead => ?_⟩
  · generalize storedIs : s.setTask q { s.tasks q with toProc := proc, exitCode := code } = stored
    have stages : ∀ r, stored.stage r = s.stage r := storedIs ▸ stage_setTask_of_pc rfl
    have aims : ∀ r, stored.aim r = s.aim r := storedIs ▸ aim_setTask_of_pc rfl
    have shape : Shape stored := by
      rw [← storedIs]
      refine inv.shape.setTask (by simp [awake.1, born]) (fun _ => born) (absurd born) (fun r place => ?_) fun dead =>
        absurd dead awake.2
      exact inv.shape.placed q r place
    have exists_ : ∀ r, s.Exists r → stored.Exists r := by
      intro r was
      rw [← storedIs, exists_setTask]
      split
      · exact awake.1
      · exact was
    refine ⟨fun r => ?_, shape.setPc (exists_ p (inv.shape.exists_of_pc (by simp [at_])))
      (fun r place => ?_) fun dead => ?_⟩
    · obtain rfl | same := eq_or_ne r q
      · refine .killed ?_ ?_ ?_ fun other target => ?_
        · simp [← storedIs, first]
        · rwa [exiting_setPc, ← storedIs, exiting_setTask, if_pos rfl]
        · rw [stage_setPc, stages]
          split
          · next own => rw [← stage, ← own, free]
          · exact free
        · obtain ⟨_, _, held⟩ := target
          rw [aim_setPc] at held
          split at held
          · cases unaimed.symm.trans held
          · next apart => exact apart (only other ⟨_, _, aims other ▸ held⟩)
      · have kept : Account stored r := storedIs ▸ (inv.account r).setTask same rfl
        refine kept.setPc (fun _ => by rw [stages, stage]) ?_ fun _ _ held => ?_
        · rintro ⟨_, _, held⟩
          rw [aims, aim] at held
          cases held
          exact same rfl
        · cases unaimed.symm.trans held
    · cases inExit with
      | true =>
        cases place
        exact exists_ q born
      | false => cases place
    · rw [← stage, ← stages]
      exact shape.zombie p dead
  · have apart : r ≠ q := fun same => alive (same ▸ dead)
    simp [apart]

theorem Inv.setPc (inv : Inv s) (born : s.Exists p) (stage : pc.stage = s.stage p)
    (before : s.aim p = none) (after : pc.aim = none) (place : ∀ q, pc.place = some q →
    s.Exists q) : Inv (s.setPc p pc) := by
  refine ⟨fun r => (inv.account r).setPc (fun _ => stage) (not_targets before r) fun _ _ aim => ?_,
    inv.shape.setPc born place fun dead => ?_⟩
  · cases after.symm.trans aim
  · exact stage.trans (inv.shape.zombie p dead)

def ExitsWith (s : State) (p : ProcId) (code : Int) : Prop :=
  (∀ r, ¬ Targets s r p) ∧ (s.exiting p = true → s.code p = code)

section
variable (inv : Inv s)
include inv

theorem Inv.leave (free : Free s p) (exits : ExitsWith s p code) (stage : pc.stage = .leaving code)
    (aim : pc.aim = none) (place : ∀ q, pc.place = some q → s.Exists q) :
    Inv ((s.note p code).setPc p pc) := by
  obtain ⟨runs, at_⟩ := free
  have idle : s.stage p = .free := congrArg Pc.stage at_
  have unaimed : s.aim p = none := congrArg Pc.aim at_
  have born : s.Exists p := by simp [State.Exists, runs]
  refine ⟨fun r => ?_, (inv.shape.note born).setPc born place fun dead => ?_⟩
  · obtain rfl | same := eq_or_ne r p
    · have first : some ((s.first r).getD code) = some code := by
        cases inv.account r with
        | untouched none => simp [none]
        | aimed p _ _ _ held => exact absurd ⟨_, _, held⟩ (exits.1 p)
        | killed some set => simp [some, exits.2 set]
        | leaving _ going => exact absurd (going.symm.trans idle) Stage.noConfusion
        | stored _ done => exact absurd (done.symm.trans idle) Stage.noConfusion
      exact .leaving (by simpa using first) (by simp [stage]) (alone_setPc exits.1 aim)
    · refine ((inv.account r).note same).setPc same.elim (not_targets unaimed r) fun _ _ held => ?_
      cases aim.symm.trans held
  · simp [State.note, runs] at dead

theorem Inv.takeCode (at_ : (s.tasks p).pc = .exiting code) :
    Inv ((s.setTask p { s.tasks p with exitCode := code }).setPc p .coded) := by
  have stage : s.stage p = .leaving code := congrArg Pc.stage at_
  have aims : ∀ r, (s.setTask p { s.tasks p with exitCode := code }).aim r = s.aim r := aim_setTask_of_pc rfl
  have shape : Shape (s.setTask p { s.tasks p with exitCode := code }) := inv.shape.setField rfl rfl id
  have acts : (s.setTask p { s.tasks p with exitCode := code }).Exists p := by
    rw [exists_setTask, if_pos rfl]
    exact inv.shape.exists_of_pc (by simp [at_])
  refine ⟨fun r => ?_, shape.setPc acts ?_ fun _ => rfl⟩
  · obtain rfl | same := eq_or_ne r p
    · cases inv.account r with
      | leaving first going alone =>
        cases going.symm.trans stage
        exact .stored (by simpa using first) (by simp [Pc.stage])
          (alone_setPc (fun other ⟨_, _, held⟩ => alone other ⟨_, _, aims other ▸ held⟩) rfl)
      | untouched _ _ free | aimed _ _ _ free | killed _ _ free => exact absurd (free.symm.trans stage) Stage.noConfusion
      | stored _ done => exact absurd (done.symm.trans stage) Stage.noConfusion
    · have idle : s.aim p = none := congrArg Pc.aim at_
      have kept : Account (s.setTask p { s.tasks p with exitCode := code }) r := (inv.account r).setTask same rfl
      refine kept.setPc same.elim ?_ ?_
      · rintro ⟨_, _, held⟩
        exact not_targets idle r ⟨_, _, aims p ▸ held⟩
      · rintro _ _ ⟨⟩
  · rintro r ⟨⟩

theorem Inv.die (free : Free s p) (flag : s.exiting p = true) (alone : ∀ r, ¬ Targets s r p) : Inv (s.setPc p .coded) := by
  have idle : s.stage p = .free := congrArg Pc.stage free.2
  have unaimed : s.aim p = none := congrArg Pc.aim free.2
  have born : s.Exists p := by simp [State.Exists, free.1]
  refine ⟨fun r => ?_, inv.shape.setPc born ?_ fun _ => rfl⟩
  · obtain rfl | same := eq_or_ne r p
    · cases inv.account r with
      | killed first =>
        exact .stored (by simpa using first) (by simp [Pc.stage]) (alone_setPc alone rfl)
      | untouched _ clear => exact absurd (clear.symm.trans flag) Bool.noConfusion
      | aimed p _ _ _ held => exact absurd ⟨_, _, held⟩ (alone p)
      | leaving _ going => exact absurd (going.symm.trans idle) Stage.noConfusion
      | stored _ done => exact absurd (done.symm.trans idle) Stage.noConfusion
    · refine (inv.account r).setPc same.elim (not_targets unaimed r) ?_
      rintro _ _ ⟨⟩
  · rintro r ⟨⟩

theorem Inv.setField (pc : task.pc = (s.tasks q).pc) (flag : task.exiting = (s.tasks q).exiting)
    (code : task.exitCode = (s.tasks q).exitCode) (shape : Shape (s.setTask q task)) :
    Inv (s.setTask q task) := by
  refine ⟨fun r => ?_, shape⟩
  exact (inv.account r).congr rfl (field_setTask Task.exiting flag r)
    (field_setTask Task.exitCode code r) (stage_setTask_of_pc pc r) fun other =>
      .inl (aim_setTask_of_pc pc other)

theorem Inv.becomeZombie (at_ : (s.tasks p).pc = .coded) (born : s.Exists p) :
    Inv ((s.setTask p { s.tasks p with state := .zombie }).setPc p .zombie) := by
  have stage : s.stage p = .stored := congrArg Pc.stage at_
  have unaimed : s.aim p = none := congrArg Pc.aim at_
  have dead : Inv (s.setTask p { s.tasks p with state := .zombie }) := by
    refine inv.setField rfl rfl rfl (inv.shape.setTask (by simp [born]) (fun _ => born)
      (absurd born) (fun q place => ?_) fun _ => stage)
    exact inv.shape.placed p q place
  have acts : (s.setTask p { s.tasks p with state := .zombie }).Exists p := by simp [exists_setTask]
  have after : (s.setTask p { s.tasks p with state := .zombie }).stage p = s.stage p := by simp [State.stage]
  have aim : (s.setTask p { s.tasks p with state := .zombie }).aim p = s.aim p := by simp [State.aim]
  refine dead.setPc acts ?_ (aim.trans unaimed) rfl fun q place => by cases place
  rw [after, stage]
  rfl

theorem Inv.setLinks {links : Links ProcId} (closed : ∀ q, s.Exists q → s.Exists (links.next q) ∧
    s.Exists (links.prev q)) : Inv { s with threadGroup := links } := by
  refine ⟨fun q => ?_, inv.shape.unborn, inv.shape.known, closed, inv.shape.placed, inv.shape.zombie⟩
  exact (inv.account q).congr rfl rfl rfl rfl fun _ => .inl rfl

theorem Inv.deThread (born : s.Exists p) : Inv (deThread s p) := by
  refine inv.setLinks fun q exists_ => ?_
  have own := inv.shape.closed p born
  have other := inv.shape.closed q exists_
  simp only [Links.init, Links.next_setPrev, Links.next_setNext, Links.prev_setNext,
    Links.prev_setPrev, Links.next_del, Links.prev_del]
  constructor
  · split
    · exact born
    · split
      · exact own.1
      · exact other.1
  · split
    · exact born
    · split
      · exact own.2
      · exact other.2

theorem Inv.fork {child : ProcId} (born : s.Exists p) (unborn : ¬ s.Exists child) (thread : Bool) :
    Inv (fork s p child thread code) := by
  obtain ⟨first, idle⟩ := inv.shape.unborn child unborn
  obtain ⟨made, madeIs⟩ := @exists_eq _ (s.setTask child ⟨⟨.runnable, 0⟩, false, code, true, .running⟩)
  have exists_ : ∀ q, made.Exists q ↔ q = child ∨ s.Exists q := by
    intro q
    rw [madeIs, exists_setTask]
    split
    · next same => simp [same]
    · next other => simp [other]
  have pcs : ∀ q, (made.tasks q).pc = (s.tasks q).pc := by
    intro q
    rw [madeIs, tasks_setTask]
    split
    · next same => rw [same, idle]
    · rfl
  have account : ∀ q, Account made q := by
    intro q
    have stage : made.stage q = s.stage q := by rw [State.stage, pcs, State.stage]
    have aims : ∀ r, made.aim r = s.aim r := fun r => by rw [State.aim, pcs, State.aim]
    obtain rfl | same := eq_or_ne q child
    · have alone : ∀ r, ¬ Targets s r q := by
        rintro r ⟨_, _, aim⟩
        have target := (inv.account q).of_target aim
        rw [first] at target
        cases target.1
      refine .untouched (madeIs ▸ first) (by simp [madeIs])
        (by rw [stage, State.stage, idle, Pc.stage]) fun r target => alone r ?_
      obtain ⟨_, _, aim⟩ := target
      exact ⟨_, _, aims r ▸ aim⟩
    · exact (inv.account q).congr (madeIs ▸ rfl) (by simp [madeIs, same]) (by simp [madeIs, same])
        stage fun r => .inl (aims r)
  have stale : made.threadGroup = s.threadGroup := madeIs ▸ rfl
  have closed : ∀ q, made.Exists q → made.Exists ((made.threadGroup.init child).next q) ∧
    made.Exists ((made.threadGroup.init child).prev q) := by
    intro q alive
    rw [exists_] at alive
    simp only [Links.init, Links.next_setPrev, Links.next_setNext, Links.prev_setNext, Links.prev_setPrev, stale, exists_]
    split
    · exact ⟨.inl rfl, .inl rfl⟩
    · next other =>
      have both := inv.shape.closed q (alive.resolve_left other)
      exact ⟨.inr both.1, .inr both.2⟩
  have begun : Inv { made with threadGroup := made.threadGroup.init child } := by
    refine ⟨fun q => (account q).congr rfl rfl rfl rfl fun _ => .inl rfl, fun q absent => ?_,
      fun q listed => ?_, closed, fun r q place => ?_, fun q dead => ?_⟩
    · have old : ¬ s.Exists q := fun was => absent ((exists_ q).mpr (.inr was))
      have before := inv.shape.unborn q old
      refine ⟨?_, (pcs q).trans before.2⟩
      rw [madeIs]
      exact before.1
    · refine (exists_ q).mpr ?_
      by_cases same : q = child
      · exact .inl same
      · have held : (s.tasks q).hashed = true := by simpa [madeIs, same] using listed
        exact .inr (inv.shape.known q held)
    · have before : s.place r = some q := by rwa [State.place, ← pcs]
      exact (exists_ q).mpr (.inr (inv.shape.placed r q before))
    · have apart : q ≠ child := by
        rintro rfl
        simp [madeIs] at dead
      have before : (s.tasks q).state = .zombie := by simpa [madeIs, apart] using dead
      refine Eq.trans ?_ (inv.shape.zombie q before)
      rw [State.stage, State.stage, ← pcs]
  unfold ExitCode.fork
  dsimp only
  rw [← madeIs]
  cases thread with
  | false => exact begun
  | true =>
    refine begun.setLinks fun q alive => ?_
    have actor : made.Exists p := (exists_ p).mpr (.inr born)
    have new : made.Exists child := (exists_ child).mpr (.inl rfl)
    have both := closed q alive
    change made.Exists _ ∧ made.Exists _
    rw [if_pos rfl, Links.addBefore, Links.next_insert, Links.prev_insert]
    constructor
    · split
      · exact actor
      · split
        · exact new
        · exact both.1
    · split
      · exact (closed p actor).2
      · split
        · exact new
        · exact both.2

end

/-- A kill works on a process that is not leaving and that no other kill is working on. -/
def Untouched (s : State) (q : ProcId) : Prop := s.exiting q = false → s.stage q = .free ∧ ∀ r, ¬ Targets s r q

/-- Kills only meet processes that are not leaving and not being killed, and a process that has
been killed leaves through `may_killed` or with the code it was killed with. -/
def Settled (s : State) : Op → Prop
  | .kill _ q _ => Untouched s q
  | .proceed p =>
    ∀ le code, (s.tasks p).pc = .group le code → s.threadGroup.next le ≠ p →
      Untouched s (s.threadGroup.next le)
  | .exit p code => ExitsWith s p code
  | .exitThread p code => ExitsWith s p code
  | .trapReturn p => s.exiting p = true → ExitsWith s p (-eKilled)
  | .mayKilled p => s.exiting p = true → ∀ r, ¬ Targets s r p
  | _ => True

def InitExit (fault : Fault) : Prop := fault = .panic "initproc exit.\n"

theorem Inv.firstCode (inv : Inv s) : FirstCode s := by
  intro q dead
  have stage := inv.shape.zombie q dead
  cases inv.account q with
  | stored first => exact first
  | untouched _ _ free | aimed _ _ _ free | killed _ _ free => exact absurd (free.symm.trans stage) Stage.noConfusion
  | leaving _ going => exact absurd (going.symm.trans stage) Stage.noConfusion

theorem nextThread_inv (inv : Inv s) {le : ProcId} (at_ : (s.tasks p).pc = .group le code)
    (settled : s.threadGroup.next le ≠ p → Untouched s (s.threadGroup.next le)) :
    Inv (nextThread s p le code) := by
  have actor : s.Exists p := inv.shape.exists_of_pc (by simp [at_])
  have place : s.place p = some le := congrArg Pc.place at_
  have following := (inv.shape.closed le (inv.shape.placed p le place)).1
  have stage : s.stage p = .leaving code := congrArg Pc.stage at_
  have unaimed : s.aim p = none := congrArg Pc.aim at_
  unfold nextThread
  dsimp only
  split
  · refine inv.setPc actor ?_ unaimed rfl ?_
    · rw [stage, Pc.stage]
    · rintro q ⟨⟩
  · next other =>
    split
    · refine inv.setPc actor ?_ unaimed rfl ?_
      · rw [stage, Pc.stage]
      · rintro q ⟨⟩
        exact following
    · next clear =>
      have flag : s.exiting (s.threadGroup.next le) = false := by simpa [State.exiting] using clear
      obtain ⟨free, alone⟩ := settled other flag
      exact inv.test flag free alone following stage.symm unaimed actor (inv.shape.alive stage Stage.noConfusion)

def Keeps (s t : State) : Prop := ∀ q, (s.tasks q).state = .zombie → t.code q = s.code q

theorem proceed_ends (inv : Inv s) (born : s.Exists p) (settled : Settled s (.proceed p)) :
    Ends InitExit (proceed s p) fun result => Inv result.1 ∧ Keeps s result.1 := by
  unfold proceed
  cases at_ : (s.tasks p).pc with
  | running | gone => exact ⟨inv, fun _ _ => rfl⟩
  | killing =>
    exact ⟨inv.flag at_, fun r _ => (code_setPc ..).trans (field_setTask Task.exitCode (by rfl) r)⟩
  | flagged q code inExit =>
    obtain ⟨t, ran, kept, codes⟩ := inv.storeCode at_
    refine .bind_ok ran ?_
    cases inExit with
    | true | false => exact ⟨kept, fun r dead => (code_setPc ..).trans (codes r dead)⟩
  | group le code =>
    refine ⟨nextThread_inv inv at_ (settled le code at_), fun r _ => ?_⟩
    unfold nextThread test
    dsimp only
    split
    · rw [code_setPc]
    · split
      · rw [code_setPc]
      · rw [code_setPc, code_note]
  | exiting code =>
    have stage : s.stage p = .leaving code := congrArg Pc.stage at_
    dsimp only
    unfold enterExit
    split
    · rfl
    · refine ⟨inv.takeCode at_, fun r dead => ?_⟩
      have apart : r ≠ p := fun same => inv.shape.alive stage Stage.noConfusion (same ▸ dead)
      rw [code_setPc, code_setTask, if_neg apart]
  | coded =>
    exact ⟨inv.becomeZombie at_ born, fun r _ => (code_setPc ..).trans (field_setTask Task.exitCode (by rfl) r)⟩
  | zombie =>
    have stage : s.stage p = .stored := congrArg Pc.stage at_
    have unaimed : s.aim p = none := congrArg Pc.aim at_
    refine ⟨(inv.deThread born).setPc born ?_ unaimed rfl ?_, fun r _ => code_setPc ..⟩
    · rw [show (deThread s p).stage p = s.stage p from rfl, stage, Pc.stage]
    · rintro q ⟨⟩

theorem step_ends (inv : Inv s) (op : Op) (allowed : Allowed s op) (settled : Settled s op) :
    Ends InitExit (step s op) fun result => Inv result.1 ∧ Keeps s result.1 := by
  cases op with
  | fork p child thread =>
    obtain ⟨⟨runs, _⟩, unborn⟩ := allowed
    refine ⟨inv.fork (by simp [State.Exists, runs]) (by simp [State.Exists, unborn]) thread, fun q dead => ?_⟩
    have apart : q ≠ child := by
      rintro rfl
      cases unborn.symm.trans dead
    exact (code_setTask ..).trans (if_neg apart)
  | sleep p =>
    obtain ⟨runs, at_⟩ := allowed
    have born : s.Exists p := by simp [State.Exists, runs]
    refine ⟨inv.setField rfl rfl rfl ?_, fun q _ => ?_⟩
    · refine inv.shape.setTask (by simp [born]) (fun _ => born) (absurd born) (fun q place => ?_) fun dead => by cases dead
      exact inv.shape.placed p q place
    · exact field_setTask Task.exitCode (by rfl) q
  | wake q =>
    have born : s.Exists q := by simp [State.Exists, show (s.tasks q).state = .sleeping from allowed]
    have woken : wakeupProc (s.tasks q).toProc = .ok ⟨.runnable, 0⟩ := by
      rw [wakeupProc_ok (by simp [show (s.tasks q).state = .sleeping from allowed])]
      simp [show (s.tasks q).state = .sleeping from allowed]
    refine .bind_ok woken ⟨inv.setField rfl rfl rfl ?_, fun r _ => ?_⟩
    · refine inv.shape.setTask (by simp [born]) (fun _ => born) (absurd born) (fun r place => ?_) fun dead => by cases dead
      exact inv.shape.placed q r place
    · exact field_setTask Task.exitCode (by rfl) r
  | kill p q code =>
    obtain ⟨runs, at_⟩ := allowed
    have actor : s.Exists p := by simp [State.Exists, runs]
    simp only [step]
    split
    · exact ⟨inv, fun _ _ => rfl⟩
    · next listed =>
      split
      · exact ⟨inv, fun _ _ => rfl⟩
      · next clear =>
        have flag : s.exiting q = false := by simpa [State.exiting] using clear
        obtain ⟨free, alone⟩ := settled flag
        have stage : (Pc.killing q code false).stage = s.stage p := by
          rw [State.stage, at_, Pc.stage, Pc.stage, if_neg Bool.false_ne_true]
        have unaimed : s.aim p = none := congrArg Pc.aim at_
        refine ⟨inv.test flag free alone (inv.shape.known q (by simpa using listed)) stage unaimed
          actor (by simp [runs]), fun r _ => ?_⟩
        rw [test, code_setPc, code_note]
  | exit =>
    refine ⟨inv.leave allowed settled rfl rfl ?_, fun r _ => (code_setPc ..).trans (code_note ..)⟩
    rintro q ⟨⟩
    simp [State.Exists, allowed.1]
  | exitThread =>
    refine ⟨inv.leave allowed settled rfl rfl ?_, fun r _ => (code_setPc ..).trans (code_note ..)⟩
    rintro q ⟨⟩
  | mayKilled =>
    simp only [step]
    split
    · next flag =>
      unfold enterExit
      split
      · rfl
      · exact ⟨inv.die allowed flag (settled flag), fun r _ => code_setPc ..⟩
    · exact ⟨inv, fun _ _ => rfl⟩
  | trapReturn =>
    simp only [step]
    split
    · next flag =>
      refine ⟨inv.leave allowed (settled flag) rfl rfl ?_, fun r _ => (code_setPc ..).trans (code_note ..)⟩
      rintro q ⟨⟩
      simp [State.Exists, allowed.1]
    · exact ⟨inv, fun _ _ => rfl⟩
  | proceed => exact proceed_ends inv allowed settled
  | wait =>
    refine ⟨inv.setField rfl rfl rfl (inv.shape.setField rfl rfl ?_), fun r _ => field_setTask Task.exitCode (by rfl) r⟩
    exact fun listed => by cases listed

theorem inv_boot : Inv boot := by
  have idle : ∀ q, (boot.tasks q).pc = .running := by
    intro q
    simp only [boot]
    split <;> rfl
  have flags : ∀ q, boot.exiting q = false := by
    intro q
    simp only [State.exiting, boot]
    split <;> rfl
  have unaimed : ∀ q, boot.aim q = none := by
    intro q
    rw [State.aim, idle]
    rfl
  refine ⟨fun q => .untouched rfl (flags q) (by rw [State.stage, idle, Pc.stage]) fun p => not_targets (unaimed p) q, ?_⟩
  refine ⟨fun q _ => ⟨rfl, idle q⟩, fun q listed => ?_, fun q born => ⟨born, born⟩, fun p q place => ?_, fun q dead => ?_⟩
  · by_cases first : q = initproc
    · simp [State.Exists, boot, first]
    · simp [boot, first] at listed
  · rw [State.place, idle] at place
    cases place
  · by_cases first : q = initproc
    all_goals simp [boot, first] at dead

/-- The code of a zombie is that of the first call that applied to the process, when kills keep
away from processes that are leaving or being killed and a killed process leaves with its code. -/
theorem exit_code_first_when_settled (s : (machine.restrict Settled).Reached) : FirstCode s ∧ ∀ op,
    (machine.restrict Settled).allowed s op → Ends InitExit (machine.step s op) fun result =>
      FirstCode result.1 ∧ KeepsCode s op result := by
  refine Machine.conformsExcept_of_invariant (show ∀ s, _ → Inv s from ?_) ?_ (fun s inv => inv.firstCode) s s.2
  · intro s begins
    rw [show s = boot from begins]
    exact inv_boot
  rintro s op inv ⟨allowed, settled⟩
  have ends := step_ends inv op allowed settled
  change Ends InitExit (step s op) _
  cases executed : step s op with
  | error => exact ends.fault executed
  | ok =>
    obtain ⟨kept, codes⟩ := ends.value executed
    refine ⟨kept, codes, ?_⟩
    rintro p q rfl
    cases executed
    exact ⟨_, rfl, inv.firstCode q allowed.2.1⟩

/-- A thread whose group exits with the code 7 leaves on its return from a trap and is found with
another code; a zombie takes the code of a later kill. -/
theorem exit_code_overwritten :
    (∃ s, machine.Reachable s ∧ (s.tasks 3).state = .zombie ∧ (s.tasks 3).hashed = true ∧ s.first 3 = some 7 ∧
      (s.tasks 3).exitCode = -eKilled) ∧
    ∃ s, machine.Reachable s ∧ (s.tasks 2).state = .zombie ∧ (s.tasks 2).hashed = true ∧ s.first 2 = some 0 ∧
      (s.tasks 2).exitCode = -eKilled := by
  constructor
  · exact Machine.exists_of_replay rfl [.fork 1 2 false 0, .fork 2 3 true 0, .exit 2 7, .proceed 2, .proceed 2,
      .proceed 2, .trapReturn 3, .proceed 3, .proceed 3, .proceed 3, .proceed 3, .proceed 3, .proceed 3] (by decide +kernel)
  · exact Machine.exists_of_replay rfl [.fork 1 2 false 0, .exit 2 0, .proceed 2, .proceed 2, .proceed 2, .proceed 2,
      .kill 1 2 (-eKilled), .proceed 1, .proceed 1] (by decide +kernel)

end Ucore.ExitCode
