import Ucore.Threads
import Ucore.Proofs.AccessCheck

/-! Faults of threads that share an address space. A fault that is served while the page
table still blocks the access is never unexpected. -/

namespace Ucore.Threads
open Lib Vmm Pmm RbTree Function Option

variable {w after : World} {s : State} {op : Op}

structure Sound (w : World) : Prop where
  consistent : Consistent .none w
  granted : Granted w

/-- A fault is raised for an access that the area allows and the page table does not. -/
def Allowed (s : State) : Op → Prop
  | .raise thread access => s.raised thread = none ∧ Blocked (s.world.dir.entry (vpn access.tf.badvaddr)) access.write ∧
      ∃ p, Covering s.world access.tf.badvaddr p ∧ Permits (s.world.mm.vmas p) access.write access.tf.badvaddr
  | .serve thread => s.raised thread ≠ none
  | .others world => Sound world ∧ SameAreas s.world world

def machine : Machine State Op Int Fault where
  start s := Sound s.world ∧ ∀ thread, s.raised thread = none
  allowed := Allowed
  step := step

/-- No other thread has got the page mapped since the fault was raised; a load is made where
stores are allowed; and the fault meets none of the defects in the swap space. -/
def Timely (s : State) (op : Op) : Prop := ∀ thread access, op = .serve thread → s.raised thread = some access →
  Blocked (s.world.dir.entry (vpn access.tf.badvaddr)) access.write ∧
  ∀ p, Covering s.world access.tf.badvaddr p → (s.world.mm.vmas p).vmFlags &&& vmWrite ≠ 0 ∧
    ¬ s.world.SlotSwapped (s.world.mm.vmas p) (roundDown access.tf.badvaddr) ∧
    ¬ s.world.Lost (s.world.mm.vmas p) (access.tf.status ||| 3) (roundDown access.tf.badvaddr)

/-- A fault that is served returns 0 and has the page mapped, unless there is too little memory. -/
def Serves (s : State) (op : Op) (result : State × Int) : Prop :=
  ∀ thread access, op = .serve thread → s.raised thread = some access →
  result.2 = 0 ∧ Grants (access.tf.status ||| 3)
    (result.1.world.dir.entry (vpn access.tf.badvaddr)) ∨ ¬ Ample 4 s.world.memory

structure Inv (s : State) : Prop where
  sound : Sound s.world
  permitted : ∀ thread access, s.raised thread = some access →
    ∃ p, Covering s.world access.tf.badvaddr p ∧ Permits (s.world.mm.vmas p) access.write access.tf.badvaddr

theorem serve_ends {access : Access} {p : Ptr} (sound : Sound w) (covering : Covering w access.tf.badvaddr p)
    (permits : Permits (w.mm.vmas p) access.write access.tf.badvaddr)
      (blocked : Blocked (w.dir.entry (vpn access.tf.badvaddr)) access.write)
    (flag : (w.mm.vmas p).vmFlags &&& vmWrite ≠ 0)
      (slot : ¬ w.SlotSwapped (w.mm.vmas p) (roundDown access.tf.badvaddr))
      (copyable : ¬ w.Lost (w.mm.vmas p) (access.tf.status ||| 3) (roundDown access.tf.badvaddr)) :
    ∃ after ret, pgfaultHandler w access.tf = .ok (after, ret) ∧ Sound after ∧ SameAreas w after ∧
      (ret = 0 ∧ Grants (access.tf.status ||| 3) (after.dir.entry (vpn access.tf.badvaddr)) ∨
      ¬ Ample 4 w.memory) := by
  have writable : Writable (w.mm.vmas p) access.tf.badvaddr := ⟨permits.device, flag, permits.above⟩
  have accepted := writable.accepted covering access.tf.status
  have usable : w.dir.entry (vpn (roundDown access.tf.badvaddr)) = 0 →
    (w.mm.vmas p).vmFlags &&& vmShare ≠ 0 → w.slot (w.mm.vmas p) (roundDown access.tf.badvaddr) =
    0 ∨ Present (w.slot (w.mm.vmas p) (roundDown access.tf.badvaddr)) := by
    intro empty shared
    by_contra neither
    exact slot ⟨empty, shared, fun zero => neither (.inl zero), fun present => neither (.inr present)⟩
  obtain ⟨after, ret, ran, kept, cache, outcome⟩ :=
    doPgfault_serves sound.consistent covering accepted
    (sound.granted.expected covering flag blocked) ⟨usable, copyable⟩
  refine ⟨after, ret, pgfaultHandler_covered sound.consistent covering ran, ?_⟩
  rcases outcome with failed | ⟨rfl, f, perm, served⟩
  · have same : SameAreas w after := .of_cache failed.mm
    exact ⟨⟨kept, sound.granted.of_same same failed.entry⟩, same, .inr failed.short⟩
  have same : SameAreas w after := .of_cache served.mm
  have grants := served.grants (permitted_of_accepted accepted)
  have entry := served.entry
  rw [vpn_roundDown] at grants entry
  have others : ∀ page, page ≠ vpn access.tf.badvaddr → after.dir.entry page = w.dir.entry page := by
    intro page other
    rw [show after.dir.entry = _ from entry, update_of_ne other]
  exact ⟨⟨kept, sound.granted.of_grants same others (trap_error _).2 grants⟩, same, .inl ⟨rfl, grants⟩⟩

theorem step_ends (inv : Inv s) (allowed : Allowed s op) (timely : Timely s op) : ∃ result,
    step s op = .ok result ∧ Inv result.1 ∧ Serves s op result := by
  cases op with
  | raise =>
    obtain ⟨_, _, permitted⟩ := allowed
    refine ⟨_, rfl, ⟨inv.sound, ?_⟩, fun _ _ never => by cases never⟩
    intro other raised is
    simp only [update_apply] at is
    split at is
    · cases is
      exact permitted
    · exact inv.permitted other raised is
  | serve thread =>
    obtain ⟨access, raised⟩ := ne_none_iff_exists'.mp allowed
    obtain ⟨p, covering, permits⟩ := inv.permitted thread access raised
    obtain ⟨blocked, rest⟩ := timely thread access rfl raised
    obtain ⟨flag, slot, copyable⟩ := rest p covering
    obtain ⟨after, ret, ran, sound, same, outcome⟩ := serve_ends inv.sound covering permits blocked flag slot copyable
    refine ⟨(⟨after, update s.raised thread none⟩, ret), ?_, ⟨sound, ?_⟩, ?_⟩
    · unfold step
      simp only [raised]
      rw [ran]
      rfl
    · intro other again is
      simp only [update_apply] at is
      split at is
      · cases is
      · obtain ⟨q, around, permits⟩ := inv.permitted other again is
        exact ⟨q, same.covering.mpr around, same.vmas ▸ permits⟩
    · rintro _ _ ⟨⟩ is
      cases raised.symm.trans is
      exact outcome
  | others =>
    obtain ⟨sound, same⟩ := allowed
    refine ⟨_, rfl, ⟨sound, ?_⟩, fun _ _ never => by cases never⟩
    intro other access is
    obtain ⟨q, around, permits⟩ := inv.permitted other access is
    exact ⟨q, same.covering.mpr around, same.vmas ▸ permits⟩

theorem inv_start (begins : machine.start s) : Inv s := by
  obtain ⟨sound, none⟩ := begins
  refine ⟨sound, ?_⟩
  intro thread access raised
  rw [none] at raised
  cases raised

/-- When every fault is served in time, `do_pgfault` never fails an assertion and returns 0, memory
permitting. -/
theorem faults_served_when_timely (s : (machine.restrict Timely).Reached) : Consistent .none s.1.world ∧ ∀ op,
    (machine.restrict Timely).allowed s op → Ends (fun _ => False) (machine.step s op) fun result =>
      Consistent .none result.1.world ∧ Serves s op result := by
  suffices conforms : (machine.restrict Timely).ConformsExcept (fun _ => False)
    (fun s => Consistent .none s.world) Serves from
    conforms s s.2
  refine Machine.conformsExcept_of_invariant (fun _ => inv_start) ?_ fun s inv => inv.sound.consistent
  · rintro s op inv ⟨allowed, timely⟩
    obtain ⟨result, executed, kept, serves⟩ := step_ends inv allowed timely
    exact .of_ok executed ⟨kept, serves⟩

/-- Two threads write to a page that is not mapped yet; the second fault finds the page mapped. -/
theorem second_fault_on_a_page_asserts : ∃ s op, machine.Reachable s ∧ machine.allowed s op ∧
    machine.step s op = .error (.assertion "0") := by
  have sound : Sound (untouched vmWrite) := by
    refine ⟨untouched_consistent vmWrite, ?_⟩
    intro addr p _ present
    rw [untouched_entry] at present
    exact absurd present not_present_zero
  have begins : machine.start ⟨untouched vmWrite, fun _ => none⟩ := ⟨sound, fun _ => rfl⟩
  have raise : Blocked ((untouched vmWrite).dir.entry (vpn 0x400000)) true ∧
      ∃ p, Covering (untouched vmWrite) 0x400000 p ∧ Permits ((untouched vmWrite).mm.vmas p) true 0x400000 := by
    refine ⟨fun both => not_present_zero (untouched_entry vmWrite _ ▸ both.1), 1, ⟨?_, ?_⟩, ⟨?_, ?_, ?_⟩⟩
    · exact List.mem_singleton.mpr rfl
    · exact show 0x400000 ≤ 0x400000 ∧ 0x400000 < 0x401000 by decide
    · exact show vmWrite &&& vmWrite ≠ 0 by decide
    · exact show vmWrite &&& vmIO = 0 by decide
    · exact fun stack => absurd (show vmWrite &&& vmStack = 0 by decide) stack
  have first := (Machine.Run.start begins).next (.raise 0 ⟨true, ⟨0, 0x400000⟩⟩) ⟨rfl, raise⟩ rfl
  have second := first.next (.raise 1 ⟨true, ⟨0, 0x400000⟩⟩) ⟨rfl, raise⟩ rfl
  have served := second.next (.serve 0) (some_ne_none _) rfl
  exact ⟨_, .serve 1, ⟨_, served⟩, some_ne_none _, rfl⟩

end Ucore.Threads
