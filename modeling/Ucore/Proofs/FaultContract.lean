import Ucore.Proofs.FaultOutcome

/-! What `do_pgfault` promises to its caller, and when it has to return 0. -/

namespace Ucore.Pmm
open Lib Vmm RbTree Function

variable {rest : Rest} {w after : World} {f : Frame} {vma : Vma} {error : BitVec 64} {addr : Nat}
    {perm : Perm} {result : World × Int} {flags : BitVec 32}

/-- The entry allows the access that the error code tells of. -/
structure Grants (error : BitVec 64) (pte : Pte) : Prop where
  present : Present pte
  read : URead pte
  write : error &&& 2 ≠ 0 → UWrite pte

theorem write_of_permitted (permitted : Permitted flags error) (write : error &&& 2 ≠ 0) : flags &&& vmWrite ≠ 0 := by
  rcases permitted with ⟨none, _⟩ | ⟨_, _, flag⟩
  · have low : error &&& 2 = (error &&& 3) &&& 2 := by rw [BitVec.and_assoc]; rfl
    rw [low, none] at write
    exact absurd rfl write
  · exact flag

theorem Served.grants (served : Served rest w vma error addr f perm after)
    (permitted : Permitted vma.vmFlags error) : Grants error (after.dir.entry (vpn addr)) := by
  obtain ⟨read, user, write⟩ := faultPerm_bits vma.vmFlags
  have bits : perm.getLsbD 1 = true ∧ perm.getLsbD 4 = true := by
    rcases served.granted with rfl | ⟨rfl, _⟩
    · exact ⟨read, user⟩
    · rw [(unsetWrite_bits _).1, (unsetWrite_bits _).2.1]
      exact ⟨read, user⟩
  rw [served.entry, update_self]
  refine ⟨present_mapping f perm, (uRead_iff _).mpr ⟨?_, ?_⟩, ?_⟩
  · rw [getLsbD_mapping_low, bits.2]
    rfl
  · rw [getLsbD_mapping_low, bits.1]
    rfl
  · intro writes
    have same := served.granted.resolve_right fun other => writes other.2
    rw [uWrite_mapping, same]
    exact ⟨user, write.mpr (write_of_permitted permitted writes)⟩

theorem permitted_of_accepted (accepted : ¬ World.Rejects vma error addr) : Permitted vma.vmFlags error := by
  by_contra refused
  exact accepted (.inr (.inr (.inr refused)))

/-- With enough memory, a fault that the area accepts and that is not unexpected is served. -/
theorem doPgfault_serves {p : Ptr} (consistent : Consistent rest w) (covering : Covering w addr p)
    (accepted : ¬ World.Rejects (w.mm.vmas p) error addr)
    (expected : Expected (w.mm.vmas p) error (w.dir.entry (vpn addr)))
    (servable : Servable w (w.mm.vmas p) error (roundDown addr)) : ∃ after ret,
      w.doPgfault error addr = .ok (after, ret) ∧ Consistent rest after ∧
      ∃ cache, Result rest 4 { w with mm := { w.mm with mmapCache := cache } } (w.mm.vmas p) error
        (roundDown addr) (after, ret) := by
  have ends := doPgfault_ends consistent fun q other _ => covering.unique consistent.areas other ▸ servable
  cases ran : w.doPgfault error addr with
  | error =>
    obtain ⟨q, other, _, unexpected⟩ := ends.fault ran
    exact absurd (covering.unique consistent.areas other ▸ expected) unexpected
  | ok result =>
    obtain ⟨kept, handled⟩ := ends.value ran
    cases handled with
    | rejected refused => exact absurd (refused p covering) accepted
    | @answered cache q _ other _ outcome =>
      rw [← covering.unique consistent.areas other] at outcome
      exact ⟨result.1, result.2, rfl, kept, cache, outcome⟩

/-- What `do_pgfault` promises: a page with the contents it had, or nothing changed. -/
structure Honours (w : World) (error : BitVec 64) (addr : Nat) (result : World × Int) : Prop where
  others : ∀ page, page ≠ vpn addr → result.1.dir.entry page = w.dir.entry page
  served : result.2 = 0 → ∃ p, Covering w addr p ∧ Grants error (result.1.dir.entry (vpn addr)) ∧
    result.1.memory.data (pte2page (result.1.dir.entry (vpn addr))) = w.contents (w.mm.vmas p) (roundDown addr) ∧
    ((w.mm.vmas p).vmFlags &&& vmShare = 0 → UWrite (result.1.dir.entry (vpn addr)) →
      result.1.memory.references (pte2page (result.1.dir.entry (vpn addr))) ≤ 1)
  failed : result.2 ≠ 0 → result.1.dir.entry (vpn addr) = w.dir.entry (vpn addr) ∧ result.1.memory.swap = w.memory.swap ∧
    (∀ f, w.memory.free f = false → result.1.memory.ref f = w.memory.ref f) ∧
    (w.dir.Tabled (vpn addr) → result.1.memory.ref = w.memory.ref)

theorem Handled.honours (handled : Handled rest w error addr result) (fresh : ∀ p, Covering w addr p →
    ¬ World.Rejects (w.mm.vmas p) error addr → ¬ w.Stale (w.mm.vmas p) (roundDown addr)) : Honours w error addr result := by
  cases handled with
  | rejected =>
    have nonzero : -eInval ≠ 0 := by decide
    exact ⟨fun _ _ => rfl, nonzero.elim, fun _ => ⟨rfl, rfl, fun _ _ => rfl, fun _ => rfl⟩⟩
  | @answered cache p result covering accepted outcome =>
    have permitted := permitted_of_accepted accepted
    rcases outcome with failed | ⟨zero, f, perm, served⟩
    · have refs := failed.refs
      rw [vpn_roundDown] at refs
      refine ⟨fun page _ => congrFun failed.entry page, failed.ret.elim, fun _ =>
        ⟨congrFun failed.entry _, failed.took.swap, ?_, refs⟩⟩
      exact fun f used => (failed.took.used used).2
    have grants := served.grants permitted
    have entry := served.entry
    have contents := served.contents fun stale => fresh p covering accepted ⟨stale.1, stale.2⟩
    have single := served.single
    rw [vpn_roundDown] at entry grants
    have here : result.1.dir.entry (vpn addr) = mapping f perm := by rw [entry, update_self]
    refine ⟨?_, fun _ => ⟨p, covering, grants, ?_, ?_⟩, absurd zero⟩
    · intro page other
      rw [entry, update_of_ne other]
    · rwa [here, pte2page_mapping]
    · rwa [here, pte2page_mapping]

def onePage (flags : BitVec 32) : MmStruct :=
  ⟨fun _ => ⟨0x400000, 0x401000, flags, some 7, 0⟩, fun _ => ⟨false, 0, 0, 0⟩, fun _ =>
    ⟨0x1000, 1, 0⟩, fun _ => 0, [1], none, none, 1, 0, 0⟩

theorem onePage_valid (flags : BitVec 32) : Valid (onePage flags) := by
  refine ⟨?_, ⟨?_, List.pairwise_singleton ..⟩, rfl, fun _ never => (by cases never), fun _ never => (by cases never), rfl⟩
  · exact fun _ _ => show Fine ⟨0x400000, 0x401000⟩ by decide
  · exact fun _ _ => show 0x400000 < 0x401000 by decide

theorem Books.of_unmapped {entries : Nat → Pte} {m : Memory} (absent : ∀ page,
    ¬ Present (entries page)) (counts : ∀ f, m.ref f = 0)
    (plain : m.swap.pages = []) (single : ∀ offset, (places (swapOf ∘ entries) offset).Finite ∧
      tally (swapOf ∘ entries) offset ≤ m.swap.memMap offset)
    (swapped : ∀ page offset, swapOf (entries page) = some offset → m.swap.enabled = true ∧
      m.HasOffset offset) : Books .none entries m := by
  have none : ∀ f, places (frameOf ∘ entries) f = ∅ := by
    intro f
    refine Set.eq_empty_of_forall_notMem fun page held => ?_
    rw [mem_places, comp_apply, frameOf_absent (absent page)] at held
    cases held
  have nothing : ∀ f, ¬ m.PageSwap f := by
    intro f
    rw [Memory.PageSwap, plain]
    exact List.not_mem_nil
  refine ⟨fun f => ?_, fun f => ?_, fun f _ => ⟨counts f, nothing f⟩, fun offset =>
    (single offset).1, fun offset => (single offset).2, swapped, fun f cached =>
      absurd cached (nothing f)⟩
  · rw [none]
    exact Set.finite_empty
  · rw [tally, none, Set.ncard_empty, counts]
    rfl

theorem shaped_create (len : Nat) : Shaped (shmemCreate len) :=
  ⟨.nil, fun _ never => (by cases never), fun _ never => (by cases never)⟩

theorem slotEntry_create (len slot : Nat) : slotEntry (shmemCreate len) slot = 0 := ite_self _

theorem consistent_onePage {dir : PageDir} {memory : Memory} (books : Books .none dir.entry memory) :
    Consistent .none ⟨onePage flags, dir, fun _ => shmemCreate 0x1000, memory⟩ := by
  refine ⟨onePage_valid flags, fun p _ _ => ⟨7, rfl, ?_⟩, fun _ => rfl, fun _ => shaped_create _, ?_, books⟩
  · exact show 0 + (0x401000 - 0x400000) ≤ 0x1000 by decide
  · intro object slot f holds
    rw [slotEntry_create] at holds
    cases holds

/-- Nothing is mapped, all frames are free, and they hold what their last users have left there. -/
def untouched (flags : BitVec 32) : World where
  mm := onePage flags
  dir := ⟨fun _ => 0, fun _ => 0, fun _ => 0⟩
  shmems := fun _ => shmemCreate 0x1000
  memory := ⟨fun _ => 0, fun _ => true, fun _ => false, fun _ _ => 7,
    ⟨false, 0, fun _ => 0, [], fun _ => 0, fun _ => false, fun _ _ => 0⟩,
    [some 1, some 2, some 3, some 4], [true], [true]⟩

theorem untouched_entry (flags : BitVec 32) (page : Nat) : (untouched flags).dir.entry page = 0 := ite_self _

theorem untouched_books (flags : BitVec 32) : Books .none (untouched flags).dir.entry (untouched flags).memory := by
  refine .of_unmapped ?_ (fun _ => rfl) rfl ?_ ?_
  · intro page
    rw [untouched_entry flags page]
    exact not_present_zero
  · intro offset
    have none : places (swapOf ∘ (untouched flags).dir.entry) offset = ∅ := by
      refine Set.eq_empty_of_forall_notMem fun page held => ?_
      rw [mem_places, comp_apply, untouched_entry flags page] at held
      cases held
    exact ⟨none ▸ Set.finite_empty, by rw [tally, none, Set.ncard_empty]; exact Nat.zero_le _⟩
  · intro page offset held
    rw [untouched_entry flags page] at held
    cases held

theorem untouched_consistent (flags : BitVec 32) : Consistent .none (untouched flags) :=
  consistent_onePage (untouched_books flags)

/-- The page is in the swap space, with two references, and the next call of `alloc_page` fails. -/
def swappedOut : World where
  mm := onePage vmWrite
  dir := ⟨fun _ => 1, fun _ => 1, fun page => if page = 0x400 then 0x100 else 0⟩
  shmems := fun _ => shmemCreate 0x1000
  memory := ⟨fun _ => 0, fun _ => true, fun _ => false, fun _ _ => 0,
    ⟨true, 2, fun _ => 2, [], fun _ => 0, fun _ => false, fun _ _ => 5⟩,
    [none, some 3], [], [true]⟩

theorem swappedOut_entry (page : Nat) : swappedOut.dir.entry page = if page = 0x400 then 0x100 else
    0 := if_pos ⟨show Present 1 by decide, show Present 1 by decide⟩

theorem swapOf_swappedOut {page offset : Nat} (held : swapOf (swappedOut.dir.entry page) =
    some offset) : page = 0x400 ∧ offset = 1 := by
  rw [swappedOut_entry] at held
  by_cases here : page = 0x400
  · rw [if_pos here] at held
    exact ⟨here, (Option.some_inj.mp held).symm⟩
  · rw [if_neg here] at held
    cases held

theorem swappedOut_books : Books .none swappedOut.dir.entry swappedOut.memory := by
  refine .of_unmapped ?_ (fun _ => rfl) rfl ?_ ?_
  · intro page
    rw [swappedOut_entry page]
    split <;> decide
  · intro offset
    have one : places (swapOf ∘ swappedOut.dir.entry) offset ⊆ {0x400} := fun page held => (swapOf_swappedOut held).1
    refine ⟨(Set.finite_singleton _).subset one, Nat.le_trans (Set.ncard_le_ncard one) ?_⟩
    rw [Set.ncard_singleton]
    exact show 1 ≤ 2 by decide
  · intro page offset held
    obtain ⟨_, rfl⟩ := swapOf_swappedOut held
    exact ⟨rfl, show 0 < 1 ∧ 1 < 2 by decide⟩

theorem swappedOut_consistent : Consistent .none swappedOut := consistent_onePage swappedOut_books

end Ucore.Pmm
