import Ucore.Proofs.SharedAreas

/-! The objects behind the shared areas of all address spaces: every shared area has
one, and each object counts the areas that point to it. -/

namespace Ucore.Spaces
open Lib Vmm RbTree Finset Function List

variable {s : System} {i j : Nat} {mm : MmStruct}

theorem space_store_same (s : System) (i : Nat) (mm : MmStruct) : (s.store i mm).space i = mm := update_self ..

theorem space_store_other (other : j ≠ i) : (s.store i mm).space j = s.space j := update_of_ne other ..

theorem load_store_same (s : System) (i : Nat) (mm : MmStruct) : (s.store i mm).load i = mm := by
  rw [System.load, space_store_same]
  rfl

theorem load_store_other (other : j ≠ i) : (s.store i mm).load j = { s.load j with shmems := mm.shmems } := by
  rw [System.load, space_store_other other]
  rfl

def System.refs (s : System) (object : Ptr) : Nat := ∑ i ∈ s.live, uses object (s.space i).areas

theorem refs_eq_add (member : i ∈ s.live) (object : Ptr) : s.refs object = uses object
    (s.space i).areas + ∑ j ∈ s.live.erase i, uses object (s.space j).areas :=
    (add_sum_erase _ _ member).symm

theorem refs_store (member : i ∈ s.live) (mm : MmStruct) (object : Ptr) :
    (s.store i mm).refs object + uses object (s.space i).areas = s.refs object + uses object
    mm.areas := by
  have others : ∑ j ∈ s.live.erase i, uses object ((s.store i mm).space j).areas = ∑ j ∈
    s.live.erase i, uses object (s.space j).areas := by
    refine sum_congr rfl fun j inside => ?_
    rw [space_store_other (ne_of_mem_erase inside)]
  have before := refs_eq_add member object
  have later := refs_eq_add (show i ∈ (s.store i mm).live from member) object
  rw [space_store_same] at later
  have same : (s.store i mm).live = s.live := rfl
  rw [same] at later
  omega

structure Inv (s : System) : Prop where
  valid : ∀ i ∈ s.live, Valid (s.load i)
  backed : ∀ i ∈ s.live, ∀ vma ∈ (s.space i).areas, vma.Backed s.shmems
  counted : ∀ object, (s.shmems object).shmemRef = s.refs object
  alive : ∀ object, 0 < s.refs object → (s.shmems object).destroys = 0
  whole : ∀ object, (s.shmems object).len % pgSize = 0

theorem Inv.referred (inv : Inv s) (member : i ∈ s.live) : Referred (s.load i) := by
  refine ⟨inv.valid i member, inv.backed i member, ?_⟩
  intro object
  have split := refs_eq_add member object
  have counted := inv.counted object
  show (uses object (s.space i).areas : Int) ≤ (s.shmems object).shmemRef
  omega

/-- What a step does to the mappings that there are. An object is destroyed when its
last area disappears. -/
structure Steady (s after : System) : Prop where
  shows : ∀ i ∈ s.live, i ∈ after.live → ∀ addr backing, (s.space i).shows addr = some backing →
    (after.space i).shows addr = some backing ∨ (after.space i).shows addr = none
  destroyed : ∀ object, (after.shmems object).destroys =
    (s.shmems object).destroys + if 0 < s.refs object ∧ after.refs object = 0 then 1 else 0

section
variable (inv : Inv s) (member : i ∈ s.live) (changed : Changed (s.load i) mm)
include inv member changed

theorem Inv.refs_changed (object : Ptr) : (mm.shmems object).shmemRef = (s.store i mm).refs object := by
  have sum := refs_store member mm object
  have counted : (mm.shmems object).shmemRef + uses object (s.space i).areas =
    (s.shmems object).shmemRef + uses object mm.areas := changed.counted object
  have before := inv.counted object
  omega

theorem Inv.steady : Steady s (s.store i mm) := by
  constructor
  · intro j live _ addr backing shown
    obtain rfl | here := eq_or_ne j i
    · rw [space_store_same]
      exact changed.shows addr backing shown
    · rw [space_store_other here]
      exact .inl shown
  · intro object
    have before := inv.counted object
    have later := inv.refs_changed member changed object
    have destroyed : (mm.shmems object).destroys = (s.shmems object).destroys + if 0 <
      (s.shmems object).shmemRef ∧ (mm.shmems object).shmemRef = 0 then 1 else 0 :=
      changed.destroyed object
    simp only [before, later, Int.natCast_pos, Int.natCast_eq_zero] at destroyed
    exact destroyed

theorem Inv.store : Inv (s.store i mm) := by
  have counted := inv.refs_changed member changed
  refine ⟨?_, ?_, counted, ?_, ?_⟩
  · intro j live
    by_cases here : j = i
    · rw [here, load_store_same]
      exact changed.valid
    · rw [load_store_other here]
      exact (inv.valid j live).objects _
  · intro j live vma inside shared
    by_cases here : j = i
    · rw [here, space_store_same] at inside
      exact changed.backed vma inside shared
    · rw [space_store_other here] at inside
      obtain ⟨object, points, bound⟩ := inv.backed j live vma inside shared
      exact ⟨object, points, bound.trans_eq (changed.lens object).symm⟩
  · intro object some
    have destroyed := (inv.steady member changed).destroyed object
    rw [if_neg (by omega)] at destroyed
    rw [destroyed]
    by_cases used : 0 < s.refs object
    · exact inv.alive object used
    -- A new area points to the object, so the object was there.
    have sum := refs_store member mm object
    have before := inv.counted object
    have grown : uses object (s.load i).areas < uses object mm.areas := by
      show uses object (s.space i).areas < uses object mm.areas
      omega
    rcases changed.alive object grown with alive | held
    · exact alive
    · have held : 0 < (s.shmems object).shmemRef := held
      omega
  · intro object
    exact (congrArg (· % pgSize) (changed.lens object)).trans (inv.whole object)

end

def System.added (s : System) (i : Nat) : System :=
  { s with live := insert i s.live, space := update s.space i (mmCreate (s.space i)) }

theorem space_added_same (s : System) (i : Nat) : (s.added i).space i = mmCreate (s.space i) := update_self ..

theorem space_added_other (other : j ≠ i) : (s.added i).space j = s.space j := update_of_ne other ..

theorem refs_added (fresh : i ∉ s.live) (object : Ptr) : (s.added i).refs object = s.refs object := by
  have others : ∑ j ∈ s.live, uses object ((s.added i).space j).areas = s.refs object := by
    refine sum_congr rfl fun j live => ?_
    have other : j ≠ i := fun same => fresh (same ▸ live)
    rw [space_added_other other]
  have sum : (s.added i).refs object = uses object ((s.added i).space i).areas + ∑ j ∈ s.live,
    uses object ((s.added i).space j).areas := sum_insert fresh
  rw [sum, others, space_added_same]
  exact zero_add _

theorem Inv.added (inv : Inv s) (fresh : i ∉ s.live) : Inv (s.added i) ∧ Steady s (s.added i) := by
  have refs := refs_added fresh
  have other : ∀ j ∈ s.live, j ≠ i := fun j live same => fresh (same ▸ live)
  refine ⟨⟨?_, ?_, ?_, ?_, inv.whole⟩, ?_, ?_⟩
  · intro j live
    rcases mem_insert.mp live with rfl | old
    · rw [System.load, space_added_same]
      exact (valid_start ⟨s.space j, rfl⟩).objects _
    · rw [System.load, space_added_other (other j old)]
      exact inv.valid j old
  · intro j live vma inside
    rcases mem_insert.mp live with rfl | old
    · rw [space_added_same] at inside
      cases inside
    · rw [space_added_other (other j old)] at inside
      exact inv.backed j old vma inside
  · intro object
    rw [refs]
    exact inv.counted object
  · intro object some
    rw [refs] at some
    exact inv.alive object some
  · intro j live _ addr backing shown
    rw [space_added_other (other j live)]
    exact .inl shown
  · intro object
    have never : ¬ (0 < s.refs object ∧ s.refs object = 0) := by omega
    rw [refs, if_neg never]
    rfl

def System.removed (s : System) (i : Nat) (mm : MmStruct) : System := { s.store i mm with live := s.live.erase i }

theorem refs_removed (member : i ∈ s.live) (mm : MmStruct) (object : Ptr) :
    s.refs object = uses object (s.space i).areas + (s.removed i mm).refs object := by
  rw [refs_eq_add member]
  refine congrArg _ (sum_congr rfl fun j inside => ?_)
  exact congrArg _ (congrArg _ (space_store_other (ne_of_mem_erase inside)).symm)

theorem Inv.removed (inv : Inv s) (member : i ∈ s.live) (lost : ∀ object,
    mm.shmems object = (s.shmems object).lose (uses object (s.space i).areas)) :
    Inv (s.removed i mm) ∧ Steady s (s.removed i mm) := by
  have space : ∀ j ∈ s.live.erase i, (s.removed i mm).space j = s.space j :=
    fun j inside => space_store_other (ne_of_mem_erase inside)
  have refs := refs_removed member mm
  have objects : (s.removed i mm).shmems = mm.shmems := rfl
  have destroyed : ∀ object, ((s.removed i mm).shmems object).destroys =
    (s.shmems object).destroys + if 0 < s.refs object ∧ (s.removed i mm).refs object = 0 then 1 else
    0 := by
    intro object
    have before := inv.counted object
    have split := refs object
    rw [objects, lost]
    simp only [Shmem.lose, before]
    congr 1
    exact if_congr (by omega) rfl rfl
  refine ⟨⟨?_, ?_, ?_, ?_, ?_⟩, ?_, destroyed⟩
  · intro j live
    rw [System.load, space j live]
    exact (inv.valid j (mem_of_mem_erase live)).objects _
  · intro j live vma inside shared
    rw [space j live] at inside
    obtain ⟨object, points, bound⟩ := inv.backed j (mem_of_mem_erase live) vma inside shared
    refine ⟨object, points, ?_⟩
    rwa [objects, lost]
  · intro object
    have before := inv.counted object
    have split := refs object
    rw [objects, lost]
    simp only [Shmem.lose]
    omega
  · intro object some
    have split := refs object
    rw [destroyed, if_neg (by omega)]
    exact inv.alive object (by omega)
  · intro object
    rw [objects, lost]
    exact inv.whole object
  · intro j _ live addr backing shown
    rw [space j live]
    exact .inl shown

/-- A hole is not made in a shared area. -/
def Undivided (s : System) : Op → Prop
  | .unmap i addr len _ => Whole (s.space i) (roundDown addr) (roundUp (wrap (addr + len)))
  | _ => True

/-- What is required of a step: a mapped address keeps its backing, a copied address space
has the backing of its source, and an object is destroyed exactly when its last area goes. -/
structure Kept (s : System) (op : Op) (after : System) (ret : Int) : Prop extends Steady s after where
  copied : ∀ i source allocs copies, op = .dup i source allocs copies → ret = 0 → ∀ addr backing,
    (s.space source).shows addr = some backing → (after.space i).shows addr = some backing

theorem holding_of_fresh {alloc : Alloc} (valid : Valid (s.load i))
    (fresh : Fresh (s.space i) [alloc]) : Holding alloc (alloc.nvma.toList ++ alloc.vma.toList)
    (s.load i) := by
  have fresh : (alloc.ptrs ++ (s.space i).inUse).Nodup := by simpa [Fresh] using fresh
  have holding := Holding.of_fresh valid (show (alloc.ptrs ++ ([] ++ (s.load i).inUse)).Nodup from fresh)
  rwa [append_nil] at holding

theorem Inv.kept {op : Op} {ret : Int} (inv : Inv s) (member : i ∈ s.live)
    (changed : Changed (s.load i) mm) (other : ∀ i source allocs copies,
    op ≠ .dup i source allocs copies) : Inv (s.store i mm) ∧ Kept s op (s.store i mm) ret :=
  ⟨inv.store member changed, inv.steady member changed, fun i source allocs copies same =>
    absurd same (other i source allocs copies)⟩

theorem step_ends {op : Op} (inv : Inv s) (allowed : Allowed s op) (undivided : Undivided s op) :
    Ends Overlap (step s op) fun result => Inv result.1 ∧ Kept s op result.1 result.2 := by
  cases op with
  | create =>
    obtain ⟨kept, steady⟩ := inv.added allowed
    exact ⟨kept, steady, fun _ _ _ _ same => by cases same⟩
  | map i addr len flags =>
    obtain ⟨member, fresh⟩ := allowed
    have holding := (holding_of_fresh (inv.valid i member) fresh).drop (sublist_append_right _ _)
    refine (mmMap_changes addr len flags holding (inv.referred member)).bind ?_
    intro result changed
    exact inv.kept member changed fun _ _ _ _ same => by cases same
  | mapShmem i addr flags =>
    obtain ⟨member, fresh, alive⟩ := allowed
    have holding := (holding_of_fresh (inv.valid i member) fresh).drop (sublist_append_right _ _)
    refine (mmMapShmem_changes addr flags holding (inv.referred member) (fun object _ => inv.whole object) alive).bind ?_
    intro result changed
    exact inv.kept member changed fun _ _ _ _ same => by cases same
  | unmap i addr len =>
    obtain ⟨member, fresh⟩ := allowed
    have holding := holding_of_fresh (inv.valid i member) fresh
    refine (mmUnmap_changes addr len holding (inv.referred member) undivided).bind ?_
    intro result changed
    exact inv.kept member changed fun _ _ _ _ same => by cases same
  | dup i source allocs copies =>
    obtain ⟨member, present, _, fresh⟩ := allowed
    refine (dupMmap_changes (inv.referred member) (inv.referred present) rfl fresh).bind ?_
    rintro ⟨after, rest, ret⟩ ⟨changed, copied⟩
    refine ⟨inv.store member changed, inv.steady member changed, ?_⟩
    intro i source allocs copies same
    cases same
    rwa [space_store_same]
  | exit =>
    obtain ⟨after, ran, changed⟩ := exitMmap_changes (inv.referred allowed)
    refine .bind_ok ran ?_
    exact inv.kept allowed changed fun _ _ _ _ same => by cases same
  | destroy i =>
    refine (mmDestroy_ends (inv.backed i allowed)).bind ?_
    intro after lost
    obtain ⟨kept, steady⟩ := inv.removed allowed lost
    exact ⟨kept, steady, fun _ _ _ _ same => by cases same⟩

/-- Every shared area has an object that covers it, each object counts the areas that
point to it, and none of them points to an object that is destroyed. -/
structure Sound (s : System) : Prop where
  backed : ∀ i ∈ s.live, ∀ vma ∈ (s.space i).areas, vma.Shared → ∃ object, vma.shmem = some object ∧
    ∀ addr, vma.span.Covers addr → vma.shmemOff + (addr - vma.vmStart) < (s.shmems object).len
  counted : ∀ object, (s.shmems object).shmemRef = s.refs object
  alive : ∀ object, 0 < s.refs object → (s.shmems object).destroys = 0

theorem Inv.sound (inv : Inv s) : Sound s := by
  refine ⟨?_, inv.counted, inv.alive⟩
  intro i live vma inside shared
  obtain ⟨object, points, bound⟩ := inv.backed i live vma inside shared
  refine ⟨object, points, ?_⟩
  rintro addr ⟨low, high⟩
  simp only [Vma.span] at low high
  omega

theorem inv_start (begins : machine.start s) : Inv s := by
  obtain ⟨nothing, objects⟩ := begins
  have refs : ∀ object, s.refs object = 0 := fun object => by rw [System.refs, nothing, sum_empty]
  refine ⟨?_, ?_, ?_, ?_, fun object => (objects object).2.2⟩
  · intro i live
    rw [nothing] at live
    cases live
  · intro i live
    rw [nothing] at live
    cases live
  · intro object
    rw [refs, (objects object).1]
    rfl
  · intro object some
    rw [refs] at some
    cases some

/-- As long as no hole is made in a shared area, shared areas stay backed and counted;
a call can only stop at the overlap check of `mm_map`. -/
theorem backing_sound_when_undivided (s : (machine.restrict Undivided).Reached) : Sound s ∧ ∀ op,
    (machine.restrict Undivided).allowed s op → Ends Overlap (machine.step s op) fun result =>
      Sound result.1 ∧ Kept s op result.1 result.2 := by
  have conforms : (machine.restrict Undivided).ConformsExcept Overlap Sound fun s op result =>
    Kept s op result.1 result.2 :=
    Machine.conformsExcept_of_invariant (fun _ => inv_start) (fun _ _ inv allowed =>
      step_ends inv allowed.1 allowed.2) fun _ => Inv.sound
  exact conforms s s.2

theorem hole_in_a_shared_area : ∃ s, machine.Reachable s ∧ 0 ∈ s.live ∧ ∃ vma ∈ (s.space 0).areas,
    vma.Shared ∧ vma.shmem = none := by
  have begins : machine.start ⟨∅, fun _ => ⟨fun _ => ⟨0, 0, 0, none, 0⟩, fun _ => ⟨false, 0, 0, 0⟩,
    fun _ => ⟨0x3000, 0, 0⟩, fun _ => 0,
      [], none, none, 0, 0, 0⟩, fun _ => ⟨0x3000, 0, 0⟩⟩ := ⟨rfl, fun _ => ⟨rfl, rfl, show 0x3000 % pgSize = 0 by decide⟩⟩
  exact Machine.exists_of_replay begins [.create 0, .mapShmem 0 0x400000 vmWrite (some 7) ⟨none,
    some 1, none⟩, .unmap 0 0x401000 0x1000 ⟨some 2, none, none⟩] (by decide)

end Ucore.Spaces
