import Ucore.Proofs.ForkViews

/-! Loads and stores of two processes after `dup_mmap`. Private pages are isolated, and
shared ones are seen by both. -/

namespace Ucore.ForkedSpaces
open Lib Vmm Pmm RbTree

variable {s after : State} {side : Side} {w : World} {addr : Nat} {f : Frame} {p : Ptr} {write : Bool} {tf : Trapframe}

/-- An area takes the fault of an access. -/
def Accepts (s : State) (side : Side) (tf : Trapframe) : Prop :=
  ∃ p, Covering (s.world side) tf.badvaddr p ∧ ¬ World.Rejects ((s.mm side).vmas p) (tf.status ||| 3) tf.badvaddr

structure Prepared (s : State) (side : Side) (write : Bool) (tf : Trapframe) (w : World) : Prop where
  inv : Inv (s.setWorld side w)
  keeps : Keeps s (s.setWorld side w)
  entries : ((s.setWorld side w).dir side.other).entry = (s.dir side.other).entry
  areas : SameAreas (s.world side) w
  opens : Ample 4 s.memory → Accepts s side tf → ¬ Blocked (w.dir.entry (vpn tf.badvaddr)) write
  closed : Blocked ((s.dir side).entry (vpn tf.badvaddr)) write → ¬ Accepts s side tf →
    Blocked (w.dir.entry (vpn tf.badvaddr)) write
  still : ¬ Blocked ((s.dir side).entry (vpn tf.badvaddr)) write → ¬ Blocked (w.dir.entry (vpn tf.badvaddr)) write

theorem setWorld_world (s : State) (side : Side) : s.setWorld side (s.world side) = s := by
  simp only [State.setWorld, State.world, Function.update_eq_self]

theorem Prepared.refl (inv : Inv s) (through : Accepts s side tf →
    ¬ Blocked ((s.dir side).entry (vpn tf.badvaddr)) write) : Prepared s side write tf
    (s.world side) := by
  refine ⟨?_, ?_, ?_, ⟨rfl, rfl⟩, fun _ => through, fun blocked _ => blocked, fun passes => passes⟩
  · rwa [setWorld_world]
  · rw [setWorld_world]
    exact fun _ _ _ shows => shows
  · rw [setWorld_world]

theorem Prepared.quiet (inv : Inv s) (kept : Consistent (restOf (s.dir side.other).entry) w)
    (same : SameAreas (s.world side) w)
    (entry : w.dir.entry = (s.dir side).entry) (slots : ∀ object, slotEntry (w.shmems object) =
      slotEntry (s.shmems object)) (lens : ∀ object, (w.shmems object).len = (s.shmems object).len)
      (later : Later s.memory w.memory)
    (short : Ample 4 s.memory → ¬ Accepts s side tf) : Prepared s side write tf w := by
  have areas : ∀ which, SameAreas (s.world which) ((s.setWorld side w).world which) := by
    refine Side.both side ?_ ?_
    · rwa [world_setWorld]
    · rw [world_setWorld_other]
      exact ⟨rfl, rfl⟩
  have entries : ∀ which, ((s.setWorld side w).dir which).entry = (s.dir which).entry := by
    refine Side.both side ?_ ?_
    · rwa [dir_setWorld]
    · rw [dir_setWorld_other]
  refine ⟨inv.of_same ?_ areas entries slots, inv.keeps_same areas entries slots later, entries _, same, ?_, ?_, ?_⟩
  · refine Side.both side ?_ ?_
    · rwa [world_setWorld, dir_setWorld_other]
    · rw [world_setWorld_other, Side.other_other, dir_setWorld]
      exact inv.other_consistent kept lens
  · exact fun ample accepts => absurd accepts (short ample)
  · rw [entry]
    exact fun blocked _ => blocked
  · rw [entry]
    exact fun passes => passes

theorem Prepared.of_mapped {perm : Perm} (mapped : Mapped s side tf.badvaddr p f perm w) (inv : Inv s)
    (accepts : Accepts s side tf) (passes : ¬ Blocked (w.dir.entry (vpn tf.badvaddr)) write) :
    Prepared s side write tf w :=
  ⟨mapped.sound inv, mapped.keeps inv, by rw [dir_setWorld_other], mapped.same, fun _ _ => passes,
    fun _ refused => absurd accepts refused, fun _ => passes⟩

end Ucore.ForkedSpaces

namespace Ucore.Pmm
open Lib Vmm RbTree

variable {rest : Rest} {w : World} {vma : Vma} {error : BitVec 64} {addr : Nat}

theorem doPgfault_refused (error : BitVec 64) (consistent : Consistent rest w) (refused : ∀ p,
    Covering w addr p → World.Rejects (w.mm.vmas p) error addr) :
    ∃ cache, w.doPgfault error addr = .ok ({ w with mm := { w.mm with mmapCache := cache } },
      -eInval) ∧ Consistent rest { w with mm := { w.mm with mmapCache := cache } } := by
  obtain ⟨cache, found, ran, valid, answers⟩ := findVma_spec consistent.areas addr
  refine ⟨cache, ?_, { consistent with areas := valid }⟩
  unfold World.doPgfault
  rw [ran]
  cases found with
  | none => rfl
  | some p => exact if_pos (refused p ⟨answers.1, answers.2⟩)

theorem Resident.slot (resident : Resident w) : w.slot vma addr = 0 ∨ Present (w.slot vma addr) := by
  by_cases present : Present (w.slot vma addr)
  · exact .inr present
  refine .inl ?_
  unfold World.slot at present ⊢
  cases points : vma.shmem with
  | none => rfl
  | some object =>
    rw [points] at present
    exact absent_of_swapOf (resident.slots object _) present

theorem Resident.servable (resident : Resident w) : Servable w vma error addr :=
  ⟨fun _ _ => resident.slot, fun lost =>
    lost.swapped.1 (absent_of_swapOf (resident.entries _) lost.swapped.2)⟩

theorem Grants.passes {write : Bool} {pte : Pte} (grants : Grants error pte)
    (writes : error &&& 2 ≠ 0) : ¬ Blocked pte write := by
  intro blocked
  cases write with
  | true => exact blocked ⟨grants.present, grants.write writes⟩
  | false => exact blocked ⟨grants.present, grants.read⟩

theorem Covering.userAccess {p : Ptr} (valid : Valid w.mm) (covering : Covering w addr p) :
    UserAccess addr (wrap (addr + 1)) := by
  obtain ⟨_, _, low, _, high⟩ := valid.fine p covering.member
  have inside := covering.covers
  simp only [MmStruct.span, Vma.span, Span.Covers, UserAccess, wrap, userTop] at *
  omega

theorem Shows.elsewhere {byte : BitVec 8} {f : Frame} {v : World} (resident : Resident w)
    (same : SameAreas w v) (dir : v.dir = w.dir) (shmems : v.shmems = w.shmems) (data : ∀ g, g ≠ f →
    v.memory.data g = w.memory.data g)
    (apart : (∀ page, frameOf (w.dir.entry page) ≠ some f) ∧ ∀ object slot,
      frameOf (slotEntry (w.shmems object) slot) ≠ some f) (shows : Shows w addr byte) :
      Shows v addr byte := by
  obtain ⟨p, covering, filled, rfl⟩ := shows
  have slot : ∀ vma addr, v.slot vma addr = w.slot vma addr := fun _ _ => slot_of_entries fun object => by rw [shmems]
  refine ⟨p, same.covering.mpr covering, ?_, congrFun ?_ _⟩
  · rwa [same.vmas, World.Unfilled, dir, slot]
  rw [same.vmas]
  by_cases present : Present (w.dir.entry (vpn (roundDown addr)))
  · rw [World.contents_present present, World.contents_present (by rwa [dir]), dir]
    exact data _ fun equal => apart.1 _ (equal ▸ frameOf_present present)
  have empty := absent_of_swapOf (resident.entries _) present
  rw [World.contents_empty empty, World.contents_empty (by rwa [dir]), slot]
  refine ite_congr rfl (fun shared => ?_) fun _ => rfl
  obtain ⟨object, place, holds⟩ := World.slot_held (frameOf_present shared.2)
  exact data _ fun equal => apart.2 object place (equal ▸ holds)

end Ucore.Pmm

namespace Ucore.ForkedSpaces
open Lib Vmm Pmm RbTree

variable {s after : State} {side : Side} {w : World} {addr : Nat} {f : Frame} {p : Ptr} {write : Bool} {tf : Trapframe}
  {byte value : BitVec 8} {first second : Vma}

theorem pgfaultHandler_prepares (inv : Inv s)
    (blocked : Blocked ((s.dir side).entry (vpn tf.badvaddr)) write) : ∃ w ret,
    pgfaultHandler (s.world side) tf = .ok (w, ret) ∧ Prepared s side write tf w := by
  have consistent := inv.consistent side
  unfold pgfaultHandler
  split
  · next outside =>
      exact ⟨_, _, rfl, .refl inv fun ⟨p, covering, _⟩ =>
        absurd (covering.userAccess consistent.areas) outside.2⟩
  by_cases accepts : Accepts s side tf
  · obtain ⟨p, covering, accepted⟩ := accepts
    have flag := write_of_permitted (permitted_of_accepted accepted) (trap_error tf.status).2
    obtain ⟨after, ret, ran, kept, cache, failed | ⟨_, f, perm, served⟩⟩ :=
      doPgfault_serves consistent covering accepted
      ((inv.granted side).expected covering flag blocked) (inv.resident side).servable
    · refine ⟨after, ret, ran, .quiet inv kept (.of_cache failed.mm) failed.entry failed.slots
        failed.fills.lens failed.took.later ?_⟩
      exact failed.short.elim
    have grants := served.grants (permitted_of_accepted accepted)
    rw [vpn_roundDown] at grants
    exact ⟨after, ret, ran, .of_mapped (inv.mapped covering accepted blocked kept served) inv ⟨p,
      covering, accepted⟩ (grants.passes (trap_error tf.status).2)⟩
  · obtain ⟨cache, ran, kept⟩ := doPgfault_refused (tf.status ||| 3) consistent fun p covering =>
      not_not.mp fun accepted => accepts ⟨p, covering, accepted⟩
    exact ⟨_, _, ran, .quiet inv kept ⟨rfl, rfl⟩ rfl (fun _ => rfl) (fun _ => rfl) (.refl _) fun _ => accepts⟩

/-- The fault that the trap code answers with a panic. -/
def KernelPanic (fault : Fault) : Prop := fault = .panic "handle pgfault failed in kernel mode. ret=%d\n"

theorem exceptionHandler_prepares (inv : Inv s) (blocked : Blocked ((s.dir side).entry (vpn tf.badvaddr)) write) :
    Ends (fun fault => tf.InKernel ∧ KernelPanic fault) (exceptionHandler (s.world side) tf)
      fun result => Prepared s side write tf result.1 := by
  obtain ⟨w, ret, ran, prepared⟩ := pgfaultHandler_prepares inv blocked
  refine .bind_ok ran ?_
  dsimp only
  split
  · split
    · next kernel => exact ⟨kernel, rfl⟩
    · exact prepared
  · exact prepared

theorem prepare_ends (inv : Inv s) (side : Side) (write : Bool) (tf : Trapframe) :
    Ends (fun fault => tf.InKernel ∧ KernelPanic fault) ((s.world side).prepare write tf)
    (Prepared s side write tf) := by
  unfold World.prepare
  split
  · next blocked => exact (exceptionHandler_prepares inv blocked).bind fun _ prepared => .of_ok rfl prepared
  · next passes => exact .of_ok rfl (.refl inv fun _ => passes)

theorem Inv.shows (inv : Inv s) (side : Side) (low : addr < userTop)
    (passes : ¬ Blocked ((s.dir side).entry (vpn addr)) write) : Shows (s.world side) addr
    (s.memory.data ((s.world side).frame addr) (addr % pgSize)) := by
  have present : Present ((s.dir side).entry (vpn addr)) := by
    by_contra absent
    exact passes fun both => absent both.1
  obtain ⟨p, covering⟩ := inv.covered side addr low present.ne_zero
  refine ⟨p, covering, fun unfilled => present.ne_zero (vpn_roundDown addr ▸ unfilled.1), ?_⟩
  rw [World.contents_present (by rwa [vpn_roundDown]), vpn_roundDown]
  rfl

theorem Inv.shows_shared (inv : Inv s) (covering : Covering (s.world side) addr p)
    (share : ((s.mm side).vmas p).vmFlags &&& vmShare ≠ 0) : Shows (s.world side) addr byte ↔
      ∃ g, frameOf ((s.world side).slot ((s.mm side).vmas p) (roundDown addr)) = some g ∧
        s.memory.data g (addr % pgSize) = byte := by
  have valid := (inv.consistent side).areas
  by_cases present : Present ((s.dir side).entry (vpn addr))
  · have slot := inv.shared side addr p _ covering share (frameOf_present present)
    have contents : (s.world side).contents ((s.mm side).vmas p) (roundDown addr) = s.memory.data
      (pte2page ((s.dir side).entry (vpn addr))) := by
      rw [World.contents_present (by rwa [vpn_roundDown]), vpn_roundDown]
      rfl
    constructor
    · rintro ⟨q, around, _, rfl⟩
      rw [around.unique valid covering]
      exact ⟨_, slot, congrFun contents.symm _⟩
    · rintro ⟨g, holds, rfl⟩
      rw [slot, Option.some_inj] at holds
      refine ⟨p, covering, fun unfilled => present.ne_zero (vpn_roundDown addr ▸ unfilled.1), ?_⟩
      exact (congrFun contents _).trans (by rw [holds])
  · have empty : (s.world side).dir.entry (vpn (roundDown addr)) = 0 := by
      rw [vpn_roundDown]
      exact absent_of_swapOf ((inv.resident side).entries _) present
    constructor
    · rintro ⟨q, around, filled, rfl⟩
      rw [around.unique valid covering] at filled ⊢
      have slot := not_not.mp fun missing => filled ⟨empty, share, missing⟩
      exact ⟨_, frameOf_present slot, by rw [World.contents_empty empty, if_pos ⟨share, slot⟩]; rfl⟩
    rintro ⟨g, holds, rfl⟩
    have slot : Present ((s.world side).slot ((s.mm side).vmas p) (roundDown addr)) := by
      by_contra missing
      rw [frameOf_absent missing] at holds
      cases holds
    rw [frameOf_present slot, Option.some_inj] at holds
    refine ⟨p, covering, fun unfilled => unfilled.2.2 slot, ?_⟩
    rw [World.contents_empty empty, if_pos ⟨share, slot⟩]
    exact congrFun (congrArg s.memory.data holds) _

theorem copied_flags (vma : Vma) : vma.copied.vmFlags = vma.vmFlags := by
  rw [Vma.copied]
  split <;> rfl

theorem flags_of_copied (same : second.copied = first.copied) : second.vmFlags = first.vmFlags := by
  rw [← copied_flags second, same, copied_flags]

theorem eq_of_copied (same : second.copied = first.copied) (share : first.vmFlags &&& vmShare ≠ 0) : second = first := by
  have also : second.Shared := by rwa [Vma.Shared, flags_of_copied same]
  rwa [Vma.copied, Vma.copied, if_pos also, if_pos (show first.Shared from share)] at same

theorem Inv.both (inv : Inv s) (covering : Covering (s.world side) addr p)
    (share : ((s.mm side).vmas p).vmFlags &&& vmShare ≠ 0)
    (shows : Shows (s.world side) addr byte) : Shows (s.world side.other) addr byte := by
  obtain ⟨q, around, copied⟩ := inv.areas side addr p covering
  have same := eq_of_copied copied share
  rw [inv.shows_shared covering share] at shows
  rwa [inv.shows_shared around (by rwa [same]), same]

/-- What the steps do. A load returns what its process sees, and changes nothing that either process
sees. A store to a private page changes nothing that the other process sees; one to a shared page
is seen by both. -/
def Isolated (s : State) (op : Op) (result : State × Option (BitVec 8)) : Prop :=
  match op with
  | .load side tf => Keeps s result.1 ∧ ∀ byte, result.2 = some byte →
      Shows (result.1.world side) tf.badvaddr byte ∧ ∀ shown, Shows (s.world side) tf.badvaddr shown → byte = shown
  | .store side tf value => result.2 = none ∧ Keeps s result.1 ∨
      result.2 = some value ∧ Shows (result.1.world side) tf.badvaddr value ∧ ∀ p, Covering (s.world side) tf.badvaddr p →
        (((s.mm side).vmas p).vmFlags &&& vmShare = 0 →
          ∀ addr byte, Shows (s.world side.other) addr byte → Shows (result.1.world side.other) addr byte) ∧
        (((s.mm side).vmas p).vmFlags &&& vmShare ≠ 0 → Shows (result.1.world side.other) tf.badvaddr value)

theorem load_ends (inv : Inv s) (side : Side) (tf : Trapframe) :
    Ends (fun fault => tf.InKernel ∧ KernelPanic fault) (step s (.load side tf)) fun result => ∃ w,
    Prepared s side false tf w ∧
      result = (s.setWorld side w, if Blocked (w.dir.entry (vpn tf.badvaddr)) false then none else
        some (w.memory.data (w.frame tf.badvaddr) (tf.badvaddr % pgSize))) := by
  refine .bind ((prepare_ends inv side false tf).bind fun w prepared => ?_) fun result done => .of_ok rfl done
  split
  · next blocked => exact ⟨w, prepared, by rw [if_pos blocked]; rfl⟩
  · next passes => exact ⟨w, prepared, by rw [if_neg passes]; rfl⟩

theorem load_isolated (inv : Inv s) (low : tf.badvaddr < userTop) :
    Ends (fun fault => tf.InKernel ∧ KernelPanic fault) (step s (.load side tf)) fun result =>
      Inv result.1 ∧ Isolated s (.load side tf) result := by
  refine (load_ends inv side tf).mono ?_
  rintro result ⟨w, prepared, rfl⟩
  refine ⟨prepared.inv, prepared.keeps, ?_⟩
  intro byte returned
  split at returned
  · cases returned
  · next passes =>
    cases returned
    have shows := prepared.inv.shows side low (by rwa [dir_setWorld])
    rw [world_setWorld] at shows ⊢
    refine ⟨shows, fun shown before => ?_⟩
    have again := prepared.keeps side _ _ before
    have valid := (prepared.inv.consistent side).areas
    rw [world_setWorld] at again valid
    exact shows.unique valid again

def State.put (s : State) (side : Side) (addr : Nat) (value : BitVec 8) : State :=
  let f := (s.world side).frame addr
  { s with memory := s.memory.setData f (Function.update (s.memory.data f) (addr % pgSize) value) }

theorem Inv.put (inv : Inv s) (side : Side) (addr : Nat) (value : BitVec 8) : Inv (s.put side addr value) := by
  refine inv.of_same (fun which => ?_) (fun _ => ⟨rfl, rfl⟩) (fun _ => rfl) fun _ => rfl
  obtain ⟨areas, backed, lens, shaped, slots, books⟩ := inv.consistent which
  exact ⟨areas, backed, lens, shaped, slots, { books with }⟩

theorem setWorld_putByte (s : State) (side : Side) (w : World) (addr : Nat) (value : BitVec 8) :
    s.setWorld side (w.putByte addr value) = (s.setWorld side w).put side addr value := by
  rw [State.put, world_setWorld]
  rfl

theorem put_data (s : State) (side : Side) (addr : Nat) (value : BitVec 8) :
    (s.put side addr value).memory.data ((s.world side).frame addr) (addr % pgSize) = value := by
  simp only [State.put, Memory.setData, Function.update_self]

theorem put_data_other {g : Frame} (other : g ≠ (s.world side).frame addr) :
    (s.put side addr value).memory.data g = s.memory.data g := Function.update_of_ne other ..

theorem Inv.put_shows (inv : Inv s) (low : addr < userTop)
    (passes : ¬ Blocked ((s.dir side).entry (vpn addr)) write) (value : BitVec 8) :
    Shows ((s.put side addr value).world side) addr value := by
  have shows := (inv.put side addr value).shows side low passes
  rwa [show (s.put side addr value).memory.data (((s.put side addr value).world side).frame addr)
    (addr % pgSize) = value from put_data ..] at shows

theorem Inv.put_private (inv : Inv s) (passes : ¬ Blocked ((s.dir side).entry (vpn addr)) write)
    (value : BitVec 8) (covering : Covering (s.world side) addr p)
    (own : ((s.mm side).vmas p).vmFlags &&& vmShare = 0) {other : Nat}
    (shows : Shows (s.world side.other) other byte) : Shows ((s.put side addr value).world side.other) other byte := by
  have present : Present ((s.dir side).entry (vpn addr)) := by
    by_contra absent
    exact passes fun both => absent both.1
  refine shows.elsewhere (inv.resident side.other) ⟨rfl, rfl⟩ rfl rfl (fun g different => put_data_other different) ?_
  exact inv.apart side addr p _ covering own (frameOf_present present)

theorem store_isolated (inv : Inv s) (low : tf.badvaddr < userTop) :
    Ends (fun fault => tf.InKernel ∧ KernelPanic fault) (step s (.store side tf value))
    fun result =>
      Inv result.1 ∧ Isolated s (.store side tf value) result := by
  refine .bind ((prepare_ends inv side true tf).bind fun w prepared => ?_) fun result done => .of_ok rfl done
  split
  · exact ⟨prepared.inv, .inl ⟨rfl, prepared.keeps⟩⟩
  · next passes =>
    have between := prepared.inv
    have vmas : ((s.setWorld side w).mm side).vmas = (s.mm side).vmas := by
      rw [mm_setWorld]
      exact prepared.areas.vmas
    rw [← dir_setWorld s side w] at passes
    show Inv (s.setWorld side (w.putByte tf.badvaddr value)) ∧
      Isolated s _ (s.setWorld side (w.putByte tf.badvaddr value), some value)
    rw [setWorld_putByte]
    have own := between.put_shows low passes value
    refine ⟨between.put side tf.badvaddr value, .inr ⟨rfl, own, fun p covering => ?_⟩⟩
    have around : Covering ((s.setWorld side w).world side) tf.badvaddr p := by
      rw [world_setWorld]
      exact prepared.areas.covering.mpr covering
    constructor
    · exact fun plain addr byte shows => between.put_private passes value around (by rwa [vmas])
        (prepared.keeps _ _ _ shows)
    · exact fun share => (between.put side tf.badvaddr value).both ⟨around.member, around.covers⟩
        (by rwa [State.put, vmas]) own

theorem machine_isolated (inv : Inv s) : (machine s).ConformsExcept KernelPanic (fun _ => True) Isolated := by
  refine Machine.conformsExcept_of_invariant (fun state (same : state = s) => same ▸ inv) ?_ fun _ _ => trivial
  intro state op kept low
  cases op with
  | load => exact (load_isolated kept low).excuse fun _ => And.right
  | store => exact (store_isolated kept low).excuse fun _ => And.right

end Ucore.ForkedSpaces
