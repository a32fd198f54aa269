import Ucore.Proofs.ForkIsolation

/-! The two address spaces when `dup_mmap` has returned 0. -/

namespace Ucore.Pmm
open Lib Vmm RbTree

variable {w : World} {addr page : Nat} {f : Frame} {p : Ptr}

/-- What is assumed of the parent: its pages are in its areas, those of shared areas come from their
objects, and frames of private pages belong to no object. -/
structure Parent (w : World) : Prop where
  consistent : Consistent .none w
  granted : Granted w
  covered : ∀ addr, addr < userTop → w.dir.entry (vpn addr) ≠ 0 → ∃ p, Covering w addr p
  shared : ∀ addr p f, Covering w addr p → (w.mm.vmas p).vmFlags &&& vmShare ≠ 0 →
    frameOf (w.dir.entry (vpn addr)) = some f → frameOf (w.slot (w.mm.vmas p) (roundDown addr)) = some f
  apart : ∀ addr p f, Covering w addr p → (w.mm.vmas p).vmFlags &&& vmShare = 0 →
    frameOf (w.dir.entry (vpn addr)) = some f → ∀ object slot, frameOf (slotEntry (w.shmems object) slot) ≠ some f

/-- The address space that `mm_create` and `setup_pgdir` have made for the child, and the
allocations of `dup_mmap`. -/
structure Blank (w : World) (mm : MmStruct) (dir : PageDir) (allocs : List Alloc) : Prop where
  valid : Valid mm
  list : mm.mmapList = []
  objects : mm.shmems = w.mm.shmems
  entries : ∀ page, dir.entry page = 0
  fresh : (allocs.flatMap Alloc.ptrs ++ mm.inUse).Nodup

def InArea (w : World) (page : Nat) (p : Ptr) : Prop :=
  p ∈ w.mm.mmapList ∧ PageIn (w.mm.vmas p).vmStart (w.mm.vmas p).vmEnd page

theorem Covering.inArea (valid : Valid w.mm) (covering : Covering w addr p) : InArea w (vpn addr) p := by
  refine ⟨covering.member, ?_⟩
  have fine := valid.fine p covering.member
  have covers := covering.covers
  simp only [Fine, UserAccess, MmStruct.span, Vma.span, Span.Covers, PageIn, vpn, pgSize, userTop] at *
  omega

theorem InArea.covering (valid : Valid w.mm) (inside : InArea w page p) :
    Covering w (page * pgSize) p ∧ vpn (page * pgSize) = page := by
  have fine := valid.fine p inside.1
  have covers := inside.2
  refine ⟨⟨inside.1, ?_⟩, ?_⟩
  · simp only [Fine, UserAccess, MmStruct.span, Vma.span, Span.Covers, PageIn, pgSize, userTop] at *
    omega
  · simp only [Fine, UserAccess, MmStruct.span, Vma.span, PageIn, vpn, pgSize, userTop] at *
    omega

theorem pagesOf_iff (w : World) (chosen : Vma → Bool) (page : Nat) :
    PagesOf ((w.mm.mmapList.reverse.map w.mm.vmas).filter chosen) page ↔ ∃ p, InArea w page p ∧
    chosen (w.mm.vmas p) = true := by
  constructor
  · rintro ⟨vma, listed, inside⟩
    obtain ⟨member, holds⟩ := List.mem_filter.mp listed
    obtain ⟨p, among, rfl⟩ := List.mem_map.mp member
    exact ⟨p, ⟨List.mem_reverse.mp among, inside⟩, holds⟩
  · rintro ⟨p, ⟨member, inside⟩, holds⟩
    exact ⟨w.mm.vmas p, List.mem_filter.mpr ⟨List.mem_map_of_mem (List.mem_reverse.mpr member), holds⟩, inside⟩

theorem Books.blank {entries others : Nat → Pte} {m : Memory} (books : Books .none others m)
    (blank : ∀ page, entries page = 0) : Books (restOf others) entries m := by
  have frames : ∀ f, places (frameOf ∘ entries) f = ∅ := by
    intro f
    refine Set.eq_empty_of_forall_notMem fun page held => ?_
    rw [mem_places, Function.comp_apply, blank] at held
    cases held
  have swaps : ∀ offset, places (swapOf ∘ entries) offset = ∅ := by
    intro offset
    refine Set.eq_empty_of_forall_notMem fun page held => ?_
    rw [mem_places, Function.comp_apply, blank] at held
    cases held
  refine ⟨fun f => by rw [frames]; exact Set.finite_empty, fun f => ?_, books.unused, fun offset =>
    by rw [swaps]; exact Set.finite_empty, fun offset => ?_, ?_, books.cached⟩
  · have enough := books.frames f
    rw [tally, frames, Set.ncard_empty]
    simp only [restOf, Rest.none] at enough ⊢
    omega
  · have enough := books.swaps offset
    rw [tally, swaps, Set.ncard_empty]
    simp only [restOf, Rest.none] at enough ⊢
    omega
  · intro page offset held
    rw [blank] at held
    cases held

theorem Valid.apart_areas {mm : MmStruct} (valid : Valid mm) :
    (mm.mmapList.reverse.map mm.vmas).Pairwise fun a b => a.span.Apart b.span := by
  rw [List.pairwise_map, List.pairwise_reverse]
  exact valid.ordered.ascending.imp fun before => .inr before

end Ucore.Pmm

namespace Ucore.ForkedSpaces
open Lib Vmm Pmm RbTree

variable {s after : State} {w : World} {mm : MmStruct} {dir : PageDir} {allocs : List Alloc}
    {addr : Nat} {f : Frame} {p : Ptr}

structure Forked (w : World) (s : State) : Prop where
  same : SameAreas w (s.world .parent)
  dir : s.dir .parent = w.dir
  shmems : s.shmems = w.shmems
  valid : ∀ side, Valid (s.mm side)
  backed : ∀ side, ∀ p ∈ (s.mm side).mmapList, ((s.mm side).vmas p).Backed (s.mm side).shmems
  lens : ∀ side object, (s.shmems object).len = ((s.mm side).shmems object).len
  listed : (s.mm .child).areas.Perm ((w.mm.mmapList.reverse.map w.mm.vmas).map Vma.copied)
  copying : Copying w.dir w.memory (fun page => ∃ p, InArea w page p ∧ (w.mm.vmas p).vmFlags &&& vmShare ≠ 0)
    (fun page => ∃ p, InArea w page p) (s.dir .child) s.memory

theorem Forks.forked (forks : Forks w mm dir allocs s) (parent : Parent w) (blank : Blank w mm dir allocs) : Forked w s := by
  obtain ⟨next, pages, executed, rfl⟩ := forks
  have valid := parent.consistent.areas
  have areas : ∀ vma, vma ∈ w.mm.mmapList.reverse.map w.mm.vmas → ∃ p ∈ w.mm.mmapList, w.mm.vmas p = vma := by
    intro vma member
    obtain ⟨p, among, same⟩ := List.mem_map.mp member
    exact ⟨p, List.mem_reverse.mp among, same⟩
  have fine : ∀ vma ∈ w.mm.mmapList.reverse.map w.mm.vmas, Fine vma.span := by
    intro vma member
    obtain ⟨p, among, rfl⟩ := areas vma member
    exact valid.fine p among
  have backed : ∀ vma ∈ w.mm.mmapList.reverse.map w.mm.vmas, vma.Backed mm.shmems := by
    intro vma member
    obtain ⟨p, among, rfl⟩ := areas vma member
    rw [blank.objects]
    exact parent.consistent.backed p among
  have copies : ∀ (s : PageDir × Memory) (vma : Vma), Ends (fun _ => True) (copyArea w.dir s vma)
    fun _ => True := fun s vma => ends_trivial _
  obtain ⟨done, later, parts, all, duplicated⟩ :=
    (dupVmas_ends copies (fun _ _ => trivial) blank.valid blank.fresh fine backed).value executed
  have copying := (dupVmas_copies parent.consistent.books.finite (fun page f maps =>
    (parent.consistent.books.mapped maps).2) fine (Valid.apart_areas valid)
    (parent.consistent.books.blank blank.entries) blank.entries allocs mm).value executed rfl
  have listed : next.areas.Perm ((w.mm.mmapList.reverse.map w.mm.vmas).map Vma.copied) := by
    have listed := duplicated.listed
    rwa [MmStruct.areas, MmStruct.areas, blank.list, List.map_nil, List.append_nil,
      ← List.append_nil done, ← all rfl, ← parts] at listed
  have lens : ∀ object, (next.shmems object).len = (w.mm.shmems object).len := by
    intro object
    rw [duplicated.objects, blank.objects]
  have still : ∀ {vma : Vma}, vma.Backed w.mm.shmems → vma.Backed next.shmems := by
    intro vma backed shared
    obtain ⟨object, points, inside⟩ := backed shared
    exact ⟨object, points, by rwa [lens]⟩
  refine ⟨⟨rfl, rfl⟩, rfl, rfl, ?_, ?_, ?_, listed, ?_⟩
  · rintro (_ | _)
    · exact { valid with }
    · exact duplicated.valid
  · rintro (_ | _) p member
    · exact still (parent.consistent.backed p member)
    have copied := listed.mem_iff.mp (mem_areas.mpr ⟨p, member, rfl⟩)
    obtain ⟨vma, among, same⟩ := List.mem_map.mp copied
    have kept := still (blank.objects ▸ backed vma among)
    exact same ▸ kept.copied
  · rintro (_ | _) object
    all_goals exact (parent.consistent.lens object).trans (lens object).symm
  · have every : ∀ page, PagesOf (w.mm.mmapList.reverse.map w.mm.vmas) page ↔ ∃ p, InArea w page p := by
      intro page
      have all := pagesOf_iff w (fun _ => true) page
      simpa using all
    have some : ∀ page, PagesOf ((w.mm.mmapList.reverse.map w.mm.vmas).filter fun vma =>
      vma.vmFlags &&& vmShare ≠ 0) page ↔ ∃ p, InArea w page p ∧ (w.mm.vmas p).vmFlags &&& vmShare ≠
      0 := by
      intro page
      rw [pagesOf_iff]
      simp only [decide_eq_true_eq]
    rwa [funext fun page => propext (every page), funext fun page => propext (some page)] at copying

theorem copied_copied (vma : Vma) : vma.copied.copied = vma.copied := by
  by_cases share : vma.Shared
  · rw [Vma.copied, Vma.copied, if_pos share, if_pos share]
  · rw [Vma.copied, Vma.copied, if_neg share,
      if_neg (show ¬ Vma.Shared ⟨vma.vmStart, vma.vmEnd, vma.vmFlags, none, 0⟩ from share)]

section
variable (forked : Forked w s) (parent : Parent w) {page : Nat} {g : Frame}
include forked

theorem Forked.vmas : (s.mm .parent).vmas = w.mm.vmas := forked.same.vmas

theorem Forked.to_child (covering : Covering w addr p) : ∃ q, Covering (s.world .child) addr q ∧
    (s.mm .child).vmas q = (w.mm.vmas p).copied := by
  have member := forked.listed.mem_iff.mpr
    (List.mem_map_of_mem (List.mem_map_of_mem (List.mem_reverse.mpr covering.member)))
  obtain ⟨q, among, same⟩ := mem_areas.mp member
  refine ⟨q, ⟨among, ?_⟩, same⟩
  show ((s.mm .child).vmas q).span.Covers addr
  rw [same, copied_span]
  exact covering.covers

theorem Forked.to_parent {q : Ptr} (covering : Covering (s.world .child) addr q) :
    ∃ p, Covering w addr p ∧ (s.mm .child).vmas q = (w.mm.vmas p).copied := by
  obtain ⟨vma, among, same⟩ := List.mem_map.mp (forked.listed.mem_iff.mp (mem_areas.mpr ⟨q, covering.member, rfl⟩))
  obtain ⟨p, member, rfl⟩ := List.mem_map.mp among
  refine ⟨p, ⟨List.mem_reverse.mp member, ?_⟩, same.symm⟩
  have covers : ((s.mm .child).vmas q).span.Covers addr := covering.covers
  rwa [← same, copied_span] at covers

theorem Forked.origin (maps : frameOf ((s.dir .child).entry page) = some f) : ∃ p g, InArea w page p ∧
    frameOf (w.dir.entry page) = some g := by
  have held : (s.dir .child).entry page ≠ 0 := by
    intro empty
    rw [empty] at maps
    cases maps
  have visited := not_not.mp fun out => held (forked.copying.unvisited page out)
  have present := not_not.mp fun absent => held (forked.copying.absent page absent)
  exact visited.imp fun p inside => ⟨_, inside, frameOf_present present⟩

theorem Forked.child_maps (inside : InArea w page p) (origin : frameOf (w.dir.entry page) = some g) :
    ∃ f, frameOf ((s.dir .child).entry page) = some f := by
  by_cases shared : ∃ p, InArea w page p ∧ (w.mm.vmas p).vmFlags &&& vmShare ≠ 0
  · exact ⟨g, forked.copying.same page g ⟨p, inside⟩ shared origin⟩
  · obtain ⟨f, holds, _⟩ := forked.copying.own page g ⟨p, inside⟩ shared origin
    exact ⟨f, holds⟩

theorem Forked.child_empty (unmapped : ¬ Present ((s.dir .child).entry page)) : (s.dir .child).entry page = 0 := by
  by_cases visited : ∃ p, InArea w page p
  · refine forked.copying.absent page fun present => ?_
    obtain ⟨p, inside⟩ := visited
    obtain ⟨f, holds⟩ := forked.child_maps inside (frameOf_present present)
    rw [frameOf_absent unmapped] at holds
    cases holds
  · exact forked.copying.unvisited page visited

theorem Forked.shared_page (inside : InArea w page p) (maps : frameOf ((s.dir .child).entry page) =
    some f) (origin : frameOf (w.dir.entry page) = some g)
    (share : (w.mm.vmas p).vmFlags &&& vmShare ≠ 0) : f = g := by
  have same := forked.copying.same page g ⟨p, inside⟩ ⟨p, inside, share⟩ origin
  exact Option.some_inj.mp (maps.symm.trans same)

include parent

theorem Forked.private_page (inside : InArea w page p) (maps : frameOf ((s.dir .child).entry page) = some f)
    (origin : frameOf (w.dir.entry page) = some g) (own : (w.mm.vmas p).vmFlags &&& vmShare = 0) :
      w.memory.free f = true ∧ s.memory.data f = w.memory.data g := by
  have valid := parent.consistent.areas
  have plain : ¬ ∃ q, InArea w page q ∧ (w.mm.vmas q).vmFlags &&& vmShare ≠ 0 := by
    rintro ⟨q, there, share⟩
    have covering := (inside.covering valid).1
    rw [(there.covering valid).1.unique valid covering] at share
    exact share own
  obtain ⟨c, holds, free, data⟩ := forked.copying.own page g ⟨p, inside⟩ plain origin
  cases Option.some_inj.mp (maps.symm.trans holds)
  exact ⟨free, data⟩

theorem Forked.consistent (resident : Resident w) : ∀ side, Consistent (restOf (s.dir side.other).entry) (s.world side) := by
  have before := parent.consistent
  have shaped : ∀ object, Shaped (s.shmems object) := by
    rw [forked.shmems]
    exact before.shaped
  have slots : ∀ object slot f, frameOf (slotEntry (s.shmems object) slot) = some f → s.memory.free f = false := by
    rw [forked.shmems]
    exact fun object slot f holds => forked.copying.later.used (before.slots object slot f holds)
  have books := forked.copying.books
  rintro (_ | _)
  · refine ⟨forked.valid _, forked.backed _, forked.lens _, shaped, slots, ?_⟩
    show Books (restOf (s.dir .child).entry) (s.dir .parent).entry s.memory
    rw [forked.dir]
    refine books_flip books before.books.finite before.books.finiteSwaps fun page offset held => ?_
    rw [resident.entries] at held
    cases held
  · refine ⟨forked.valid _, forked.backed _, forked.lens _, shaped, slots, ?_⟩
    show Books (restOf (s.dir .parent).entry) (s.dir .child).entry s.memory
    rwa [forked.dir]

theorem Forked.granted : ∀ side, Granted (s.world side) := by
  rintro (_ | _)
  · exact parent.granted.of_same forked.same (congrArg PageDir.entry forked.dir)
  intro addr q covering present
  obtain ⟨p, around, same⟩ := forked.to_parent covering
  obtain ⟨_, g, _, origin⟩ := forked.origin (frameOf_present present)
  have visited : ∃ p, InArea w (vpn addr) p := ⟨p, around.inArea parent.consistent.areas⟩
  have there : Present (w.dir.entry (vpn addr)) := by
    by_contra absent
    rw [frameOf_absent absent] at origin
    cases origin
  obtain ⟨read, write⟩ := parent.granted addr p around there
  refine ⟨forked.copying.read _ visited there read, fun share flag => (forked.copying.write _ visited there).mpr ?_⟩
  rw [show (s.world .child).mm.vmas q = _ from same, copied_flags] at share flag
  exact write share flag

theorem Forked.shared : ∀ side addr p f, Covering (s.world side) addr p → ((s.mm side).vmas p).vmFlags &&& vmShare ≠ 0 →
    frameOf ((s.dir side).entry (vpn addr)) = some f →
      frameOf ((s.world side).slot ((s.mm side).vmas p) (roundDown addr)) = some f := by
  have valid := parent.consistent.areas
  rintro (_ | _) addr p f covering share maps
  · rw [forked.dir] at maps
    rw [forked.vmas] at share ⊢
    rw [slot_of_entries (v := w) fun object => congrArg (fun shmems => slotEntry (shmems object)) forked.shmems]
    exact parent.shared addr p f (forked.same.covering.mp covering) share maps
  · obtain ⟨q, around, same⟩ := forked.to_parent covering
    obtain ⟨_, g, _, origin⟩ := forked.origin maps
    have share' : (w.mm.vmas q).vmFlags &&& vmShare ≠ 0 := by rwa [same, copied_flags] at share
    rw [forked.shared_page (around.inArea valid) maps origin share', same, Vma.copied,
      if_pos (show (w.mm.vmas q).Shared from share')]
    rw [slot_of_entries (v := w) fun object => congrArg (fun shmems => slotEntry (shmems object)) forked.shmems]
    exact parent.shared addr q g around share' origin

theorem Forked.apart : ∀ side addr p f, Covering (s.world side) addr p →
    ((s.mm side).vmas p).vmFlags &&& vmShare = 0 → frameOf ((s.dir side).entry (vpn addr)) = some
    f →
    (∀ page, frameOf ((s.dir side.other).entry page) ≠ some f) ∧ ∀ object slot,
      frameOf (slotEntry (s.shmems object) slot) ≠ some f := by
  have valid := parent.consistent.areas
  have used : ∀ {page f}, frameOf (w.dir.entry page) = some f → w.memory.free f = false :=
    fun maps => (parent.consistent.books.mapped maps).2
  rintro (_ | _) addr p f covering own maps
  · rw [forked.dir] at maps
    rw [forked.vmas] at own
    rw [forked.same.covering] at covering
    have slots := parent.apart addr p f covering own maps
    rw [forked.shmems]
    refine ⟨fun page holds => ?_, slots⟩
    obtain ⟨q, g, inside, origin⟩ := forked.origin holds
    by_cases share : (w.mm.vmas q).vmFlags &&& vmShare = 0
    · cases (used maps).symm.trans (forked.private_page parent inside holds origin share).1
    obtain ⟨around, rounded⟩ := inside.covering valid
    rw [forked.shared_page inside holds origin share] at slots
    rw [← rounded] at origin
    obtain ⟨object, slot, held⟩ := World.slot_held (parent.shared _ q g around share origin)
    exact slots object slot held
  · obtain ⟨q, around, same⟩ := forked.to_parent covering
    obtain ⟨_, g, _, origin⟩ := forked.origin maps
    rw [same, copied_flags] at own
    have free := (forked.private_page parent (around.inArea valid) maps origin own).1
    refine ⟨fun page holds => ?_, fun object slot holds => ?_⟩
    · rw [show s.dir (Side.child).other = w.dir from forked.dir] at holds
      cases (used holds).symm.trans free
    · rw [forked.shmems] at holds
      cases (parent.consistent.slots object slot f holds).symm.trans free

section
variable (resident : Resident w)
include resident

theorem Forked.inv : Inv s := by
  refine ⟨forked.consistent parent resident, forked.granted parent, ?_, ?_, ?_, forked.shared parent, forked.apart parent⟩
  · rintro (_ | _)
    · refine ⟨fun page => ?_, fun object slot => ?_⟩
      · exact (congrArg (fun dir => swapOf (PageDir.entry dir page)) forked.dir).trans (resident.entries page)
      · exact (congrArg (fun shmems => swapOf (slotEntry (shmems object) slot)) forked.shmems).trans
          (resident.slots object slot)
    refine ⟨fun page => ?_, fun object slot => ?_⟩
    · show swapOf ((s.dir .child).entry page) = none
      by_cases present : Present ((s.dir .child).entry page)
      · exact swapOf_present present
      · rw [forked.child_empty present]
        rfl
    · exact (congrArg (fun shmems => swapOf (slotEntry (shmems object) slot)) forked.shmems).trans
        (resident.slots object slot)
  · rintro (_ | _) addr low held
    · rw [forked.dir] at held
      exact (parent.covered addr low held).imp fun p covering => forked.same.covering.mpr covering
    have present := not_not.mp fun absent => held (forked.child_empty absent)
    obtain ⟨_, g, _, origin⟩ := forked.origin (frameOf_present present)
    have there : w.dir.entry (vpn addr) ≠ 0 := by
      intro empty
      rw [empty] at origin
      cases origin
    obtain ⟨p, covering⟩ := parent.covered addr low there
    exact (forked.to_child covering).imp fun q both => both.1
  · rintro (_ | _) addr p covering
    · obtain ⟨q, around, same⟩ := forked.to_child (forked.same.covering.mp covering)
      exact ⟨q, around, by rw [show (s.mm (Side.parent).other).vmas q = _ from same, copied_copied, forked.vmas]⟩
    · obtain ⟨q, around, same⟩ := forked.to_parent covering
      exact ⟨q, forked.same.covering.mpr around,
        by rw [same, copied_copied]; exact congrArg (fun vmas => (vmas q).copied) forked.vmas⟩

theorem Forked.twins (covering : Covering w addr p) (own : (w.mm.vmas p).vmFlags &&& vmShare = 0) :
    ∃ byte, ∀ side, Shows (s.world side) addr byte := by
  have inside := covering.inArea parent.consistent.areas
  obtain ⟨q, around, same⟩ := forked.to_child covering
  have filled : ∀ {world : World} {vma : Vma}, vma.vmFlags = (w.mm.vmas p).vmFlags →
    ¬ world.Unfilled vma (roundDown addr) := fun flags unfilled => unfilled.2.1 (flags ▸ own)
  have child : (s.world .child).mm.vmas q = (w.mm.vmas p).copied := same
  by_cases present : Present (w.dir.entry (vpn addr))
  · obtain ⟨f, holds⟩ := forked.child_maps inside (frameOf_present present)
    have mapped : Present ((s.dir .child).entry (vpn addr)) := by
      by_contra absent
      rw [frameOf_absent absent] at holds
      cases holds
    have frame := Option.some_inj.mp ((frameOf_present mapped).symm.trans holds)
    have data := (forked.private_page parent inside holds (frameOf_present present) own).2
    refine ⟨w.memory.data (pte2page (w.dir.entry (vpn addr))) (addr % pgSize), ?_⟩
    rintro (_ | _)
    · refine ⟨p, forked.same.covering.mpr covering, filled (by rw [forked.same.vmas]), congrFun ?_ _⟩
      have here : (s.world .parent).dir.entry (vpn (roundDown addr)) = w.dir.entry (vpn addr) := by
        rw [vpn_roundDown]
        exact congrArg (fun dir => PageDir.entry dir (vpn addr)) forked.dir
      rw [World.contents_present (by rwa [here]), here]
      exact forked.copying.later.data _ (parent.consistent.books.mapped (frameOf_present present)).2
    · refine ⟨q, around, filled (by rw [child, copied_flags]), congrFun ?_ _⟩
      rw [World.contents_present (by rwa [vpn_roundDown]), vpn_roundDown]
      exact (congrArg s.memory.data frame).trans data
  · have empty := absent_of_swapOf (resident.entries _) present
    have zero : ∀ {world : World} {vma : Vma}, world.dir.entry (vpn addr) = 0 →
      vma.vmFlags = (w.mm.vmas p).vmFlags → world.contents vma (roundDown addr) = fun _ => 0 := by
      intro world vma none flags
      rw [World.contents_empty (by rwa [vpn_roundDown]), if_neg fun both => both.1 (flags ▸ own)]
    refine ⟨0, ?_⟩
    rintro (_ | _)
    · refine ⟨p, forked.same.covering.mpr covering, filled (by rw [forked.same.vmas]),
        congrFun (zero ?_ (by rw [forked.same.vmas])) _⟩
      exact (congrArg (fun dir => PageDir.entry dir (vpn addr)) forked.dir).trans empty
    · refine ⟨q, around, filled (by rw [child, copied_flags]), congrFun (zero ?_ (by rw [child, copied_flags])) _⟩
      exact forked.copying.absent _ present

theorem Forked.twins_of (covering : Covering (s.world side) addr p)
    (own : ((s.mm side).vmas p).vmFlags &&& vmShare = 0) : ∃ byte, ∀ side,
    Shows (s.world side) addr byte := by
  cases side with
  | parent =>
    rw [forked.vmas] at own
    exact forked.twins parent resident (forked.same.covering.mp covering) own
  | child =>
    obtain ⟨q, around, same⟩ := forked.to_parent covering
    rw [same, copied_flags] at own
    exact forked.twins parent resident around own

theorem Forked.empty_iff (low : addr < userTop) : w.dir.entry (vpn addr) = 0 ↔ (s.dir .child).entry (vpn addr) = 0 := by
  constructor
  · intro empty
    exact forked.copying.absent _ (empty ▸ not_present_zero)
  intro empty
  refine absent_of_swapOf (resident.entries _) fun present => ?_
  obtain ⟨p, covering⟩ := parent.covered addr low present.ne_zero
  obtain ⟨f, holds⟩ := forked.child_maps (covering.inArea parent.consistent.areas) (frameOf_present present)
  rw [empty] at holds
  cases holds

end

end

variable {side : Side} {tf : Trapframe}

theorem Inv.blocked_iff (inv : Inv s) (low : addr < userTop) :
    Blocked ((s.dir side).entry (vpn addr)) false ↔ (s.dir side).entry (vpn addr) = 0 := by
  constructor
  · intro blocked
    refine absent_of_swapOf ((inv.resident side).entries _) fun present => ?_
    obtain ⟨p, covering⟩ := inv.covered side addr low present.ne_zero
    exact blocked ⟨present, (inv.granted side addr p covering present).1⟩
  · intro empty both
    exact not_present_zero (empty ▸ both.1)

theorem Inv.accepts (inv : Inv s) (accepts : Accepts s side tf) : Accepts s side.other tf := by
  obtain ⟨p, covering, accepted⟩ := accepts
  obtain ⟨q, around, copied⟩ := inv.areas side tf.badvaddr p covering
  refine ⟨q, around, ?_⟩
  have flags := flags_of_copied copied
  have start := congrArg Span.start ((copied_span _).symm.trans ((congrArg Vma.span copied).trans (copied_span _)))
  rwa [World.Rejects, flags, show ((s.mm side.other).vmas q).vmStart = ((s.mm side).vmas p).vmStart from start]

/-- When the parent or the child reads an address and then the other one does, they read the same
byte. -/
def SameReads (s : State) : Prop := ∀ side tf, ¬ tf.InKernel → tf.badvaddr < userTop →
  ∃ between after first second, step s (.load side tf) = .ok (between, first) ∧
    step between (.load side.other tf) = .ok (after, second) ∧
    (∀ a b, first = some a → second = some b → a = b) ∧ (Ample 4 s.memory → Ample 4 between.memory → first = second)

theorem Prepared.passes_iff (prepared : Prepared s side false tf w) (inv : Inv s)
    (low : tf.badvaddr < userTop) (ample : Ample 4 s.memory) :
    ¬ Blocked (w.dir.entry (vpn tf.badvaddr)) false ↔ (s.dir side).entry (vpn tf.badvaddr) ≠ 0 ∨ Accepts s side tf := by
  constructor
  · intro passes
    by_contra neither
    obtain ⟨empty, refused⟩ := not_or.mp neither
    exact passes (prepared.closed ((inv.blocked_iff low).mpr (not_not.mp empty)) refused)
  · rintro (held | accepts)
    · exact prepared.still fun blocked => held ((inv.blocked_iff low).mp blocked)
    · exact prepared.opens ample accepts

theorem accepts_setWorld (s : State) (side : Side) (v : World) :
    Accepts (s.setWorld side v) side.other tf ↔ Accepts s side.other tf := by
  rw [Accepts, world_setWorld_other, mm_setWorld_other]
  exact exists_congr fun p => and_congr_left fun _ =>
    ⟨fun covering => ⟨covering.member, covering.covers⟩, fun covering =>
      ⟨covering.member, covering.covers⟩⟩

section
variable {between : State} {first second : Option (BitVec 8)} (inv : Inv s) (low : tf.badvaddr < userTop)
  (executed : step s (.load side tf) = .ok (between, first))
    (again : step between (.load side.other tf) = .ok (after, second))
include inv low executed again

/-- Two loads, by one process and then by the other, from a state in which private pages are twins.
-/
theorem bytes_agree {a b : BitVec 8} (twins : ∀ p, Covering (s.world side) tf.badvaddr p →
    ((s.mm side).vmas p).vmFlags &&& vmShare = 0 →
      ∃ byte, ∀ side, Shows (s.world side) tf.badvaddr byte) (left : first = some a) (right : second = some b) : a = b := by
  obtain ⟨kept, keeps, shown⟩ := (load_isolated inv low).value executed
  obtain ⟨_, _, shown'⟩ := (load_isolated kept low).value again
  obtain ⟨here, determined⟩ := shown a left
  have other := (shown' b right).2
  obtain ⟨w, prepared, result⟩ := (load_ends inv side tf).value executed
  cases result
  obtain ⟨p, covering, _⟩ := here
  have around := covering
  rw [world_setWorld, prepared.areas.covering] at around
  have vmas : ((s.setWorld side w).mm side).vmas = (s.mm side).vmas := by
    rw [mm_setWorld]
    exact prepared.areas.vmas
  by_cases own : ((s.mm side).vmas p).vmFlags &&& vmShare = 0
  · obtain ⟨byte, both⟩ := twins p around own
    rw [determined byte (both side), other byte (keeps side.other _ _ (both side.other))]
  · exact (other a (kept.both covering (by rwa [vmas]) (shown a left).1)).symm

theorem answers_agree (empty : (s.dir side).entry (vpn tf.badvaddr) = 0 ↔
    (s.dir side.other).entry (vpn tf.badvaddr) = 0) (ample : Ample 4 s.memory)
    (ample' : Ample 4 between.memory) : first = none ↔ second = none := by
  have kept := ((load_isolated inv low).value executed).1
  obtain ⟨w, prepared, result⟩ := (load_ends inv side tf).value executed
  obtain ⟨v, prepared', result'⟩ := (load_ends kept side.other tf).value again
  cases result
  cases result'
  have accepts : Accepts s side.other tf ↔ Accepts s side tf :=
    ⟨fun accepts => by simpa using inv.accepts accepts, inv.accepts⟩
  have left := prepared.passes_iff inv low ample
  have right := prepared'.passes_iff kept low ample'
  rw [accepts_setWorld, accepts, dir_setWorld_other, ne_eq, ← empty, ← left] at right
  have same := not_iff_not.mp right
  constructor
  · intro none
    split at none
    · next blocked => rw [if_pos (same.mpr blocked)]
    · cases none
  · intro none
    split at none
    · next blocked => rw [if_pos (same.mp blocked)]
    · cases none

end

theorem Forked.sameReads (forked : Forked w s) (parent : Parent w) (resident : Resident w) : SameReads s := by
  have inv := forked.inv parent resident
  intro side tf user low
  have returns : ∀ (state : State) (which : Side), Inv state → ∃ result, step state (.load which tf) = .ok result := by
    intro state which inv
    cases executed : step state (.load which tf) with
    | ok result => exact ⟨result, rfl⟩
    | error => exact absurd ((load_ends inv which tf).fault executed).1 user
  obtain ⟨⟨between, first⟩, executed⟩ := returns s side inv
  have kept := ((load_isolated inv low).value executed).1
  obtain ⟨⟨after, second⟩, again⟩ := returns between side.other kept
  have bytes := fun a b => bytes_agree inv low executed again (a := a) (b := b)
    fun p covering own => forked.twins_of parent resident covering own
  have empty : (s.dir side).entry (vpn tf.badvaddr) = 0 ↔ (s.dir side.other).entry (vpn tf.badvaddr) = 0 := by
    have iff := forked.empty_iff parent resident low
    rw [← forked.dir] at iff
    cases side with
    | parent => exact iff
    | child => exact iff.symm
  refine ⟨between, after, first, second, executed, again, bytes, fun ample ample' => ?_⟩
  have answers := answers_agree inv low executed again empty ample ample'
  cases first with
  | none => exact (answers.mp rfl).symm
  | some a =>
    cases second with
    | none => cases answers.mpr rfl
    | some b => rw [bytes a b rfl rfl]

/-- After `dup_mmap` both processes read the same bytes; afterwards private pages are isolated and
shared ones are common, if no page of the parent is in the swap space. -/
theorem fork_isolates_when_resident (parent : Parent w) (blank : Blank w mm dir allocs)
    (forks : Forks w mm dir allocs s) (resident : Resident w) :
    SameReads s ∧ (machine s).ConformsExcept KernelPanic (fun _ => True) Isolated :=
  ⟨(forks.forked parent blank).sameReads parent resident,
    machine_isolated ((forks.forked parent blank).inv parent resident)⟩

def emptyMm : MmStruct := { onePage 0 with mmapList := [], mapCount := 0 }

def emptyDir : PageDir := ⟨fun _ => 0, fun _ => 0, fun _ => 0⟩

def childMm : MmStruct :=
  { emptyMm with
    vmas := Function.update emptyMm.vmas 2 ⟨0x400000, 0x401000, vmWrite, none, 0⟩, mmapList :=
      [2], mapCount := 1 }

def forkedOnePage (w : World) : State :=
  ⟨fun side => match side with
    | .parent => { w.mm with shmems := childMm.shmems }
    | .child => childMm, fun side => match side with
    | .parent => w.dir
    | .child => emptyDir, w.shmems, w.memory⟩

theorem blank_onePage (one : w.mm = onePage vmWrite) : Blank w emptyMm emptyDir [⟨none, some 2, none⟩] := by
  refine ⟨⟨fun _ never => (by cases never), .nil, rfl, fun _ never => (by cases never),
    fun _ never => (by cases never), rfl⟩, rfl, ?_, ?_, ?_⟩
  · rw [one]
    rfl
  · exact fun _ => ite_self _
  · exact List.nodup_singleton _

theorem copyRangeFrom_absent {source : PageDir} {m : Memory} {share : Bool}
    (absent : ¬ Present (source.entry 0x400)) : copyRangeFrom source share 0x401000 1 dir m
    0x400000 = .ok (dir, m, 0) := by
  have page : vpn 0x400000 = 0x400 := by decide
  rw [copyRangeFrom]
  simp only [page]
  by_cases tabled : source.Tabled 0x400
  · have missing : ¬ Present (source.pte 0x400) := by rwa [PageDir.entry, if_pos tabled] at absent
    rw [if_neg (not_not_intro tabled), if_neg missing, copyRangeFrom.next]
    rfl
  · rw [if_pos tabled, copyRangeFrom.next]
    rfl

theorem forks_onePage (one : w.mm = onePage vmWrite) (absent : ¬ Present (w.dir.entry 0x400)) :
    Forks w emptyMm emptyDir [⟨none, some 2, none⟩] (forkedOnePage w) := by
  refine ⟨childMm, (emptyDir, w.memory), ?_, rfl⟩
  have range : copyRange emptyDir w.dir w.memory 0x400000 0x401000 false = .ok (emptyDir, w.memory,
    0) := copyRangeFrom_absent absent
  have area : copyArea w.dir (emptyDir, w.memory) ⟨0x400000, 0x401000, vmWrite, some 7, 0⟩ = .ok
    ((emptyDir, w.memory), 0) := by
    show copyRange emptyDir w.dir w.memory 0x400000 0x401000 false >>= _ = _
    rw [range]
    rfl
  rw [one]
  show copyArea w.dir (emptyDir, w.memory) ⟨0x400000, 0x401000, vmWrite, some 7, 0⟩ >>= _ = _
  rw [area]
  rfl

theorem parent_onePage (consistent : Consistent .none w) (one : w.mm = onePage vmWrite)
    (absent : ∀ page, ¬ Present (w.dir.entry page)) (single : ∀ page, w.dir.entry page ≠ 0 →
    page = 0x400) : Parent w := by
  have unmapped : ∀ page f, frameOf (w.dir.entry page) ≠ some f := by
    intro page f maps
    rw [frameOf_absent (absent page)] at maps
    cases maps
  refine ⟨consistent, fun _ _ _ present => absurd present (absent _), ?_, fun _ _ _ _ _ maps =>
    absurd maps (unmapped _ _), fun _ _ _ _ _ maps => absurd maps (unmapped _ _)⟩
  intro addr low held
  have page := single _ held
  refine ⟨1, ⟨?_, ?_⟩⟩
  · rw [one]
    exact List.mem_singleton_self 1
  rw [one]
  show 0x400000 ≤ addr ∧ addr < 0x401000
  simp only [vpn, pgSize, userTop] at page low
  omega

private theorem dupVmas_congr {σ : Type} {copy copy' : σ → Vma → Kernel (σ × Int)} {vmas : List Vma}
    (same : ∀ vma ∈ vmas, ∀ s, copy s vma = copy' s vma)
    (allocs : List Alloc) (mm : MmStruct) (s : σ) : dupVmas copy vmas allocs mm s = dupVmas copy' vmas allocs mm s := by
  induction vmas generalizing allocs mm s with
  | nil => rfl
  | cons vma rest ih =>
    have rest := ih fun vma member => same vma (List.mem_cons_of_mem _ member)
    cases allocs with
    | nil => rfl
    | cons alloc allocs =>
      rw [dupVmas, dupVmas]
      simp only [same vma List.mem_cons_self, rest]

/-- `copy_range` for an area of one page that is present. -/
def copyPage (source : PageDir) (s : PageDir × Memory) (vma : Vma) : Kernel ((PageDir × Memory) × Int) :=
  match getPte s.1 s.2 (vpn vma.vmStart) true with
  | (dir, m, false) => pure ((dir, m), -eNoMem)
  | (dir, m, true) => do
    let s ← copyEntry dir m (vpn vma.vmStart) (source.pte (vpn vma.vmStart)) (vma.vmFlags &&& vmShare ≠ 0)
    pure (s, 0)

private theorem copyArea_page {source : PageDir} {vma : Vma}
    (page : vma.vmEnd = vma.vmStart + pgSize) (aligned : vma.vmStart % pgSize = 0)
    (user : UserAccess vma.vmStart vma.vmEnd) (tabled : source.Tabled (vpn vma.vmStart))
      (present : Present (source.pte (vpn vma.vmStart)))
    (s : PageDir × Memory) : copyArea source s vma = copyPage source s vma := by
  have both : vma.vmStart % pgSize = 0 ∧ vma.vmEnd % pgSize = 0 := by
    rw [page]
    exact ⟨aligned, (Nat.add_mod_right ..).trans aligned⟩
  have one : (vma.vmEnd - vma.vmStart) / pgSize = 1 := by rw [page, Nat.add_sub_cancel_left]; rfl
  have stops : ∀ (fuel : Nat) (dir : PageDir) (m : Memory) (share : Bool),
    copyRangeFrom.next source share vma.vmEnd fuel dir m (vma.vmStart + pgSize) = .ok
    (dir, m, 0) := by
    intro fuel dir m share
    rw [copyRangeFrom.next, if_neg (by omega)]
    rfl
  rw [copyArea, copyRange, ensure_bind, if_pos both, ensure_bind, if_pos user, one, copyRangeFrom, copyPage]
  simp only [not_not_intro tabled, if_false, if_pos present, stops]
  cases getPte s.1 s.2 (vpn vma.vmStart) true with
  | mk dir rest =>
  obtain ⟨m, _ | _⟩ := rest
  · rfl
  · dsimp only
    cases copyEntry dir m (vpn vma.vmStart) (source.pte (vpn vma.vmStart)) (decide (vma.vmFlags &&& vmShare ≠ 0)) <;> rfl

/-- A private page in frame 1 and a shared one in frame 2, both present. -/
def sharing : World where
  mm := { onePage vmWrite with
    vmas := fun p => if p = 1 then ⟨0x400000, 0x401000, vmWrite, none, 0⟩ else ⟨0x500000, 0x501000,
      vmShare ||| vmWrite, some 7, 0⟩
    mmapList := [1, 2]
    mapCount := 2 }
  dir := ⟨fun _ => 1, fun _ => 1, fun page => if page = 0x400 then mapping 1 0x16 else if page =
    0x500 then mapping 2 0x16 else 0⟩
  shmems := fun _ => ⟨[⟨0, ptSize, 7⟩], none, 0x1000, fun slot => if slot = 0 then mapping 2 0x16 else 0⟩
  memory := ⟨fun f => if f = 1 then 1 else if f = 2 then 2 else 0, fun f => f ≠ 1 ∧ f ≠ 2, fun _ =>
    false, fun f _ => f.setWidth 8,
    ⟨false, 0, fun _ => 0, [], fun _ => 0, fun _ => false, fun _ _ => 0⟩, [some 3, some 4, some 5, some 6], [true], [true]⟩

private theorem sharing_area {p : Ptr} (member : p ∈ sharing.mm.mmapList) : p = 1 ∨ p = 2 := by
  simpa using (show p ∈ [1, 2] from member)

private theorem sharing_entry (page : Nat) : sharing.dir.entry page =
    if page = 0x400 then mapping 1 0x16 else if page = 0x500 then mapping 2 0x16 else 0 :=
  if_pos ⟨show Present 1 by decide, show Present 1 by decide⟩

private theorem sharing_frame {page : Nat} {f : Frame} (maps : frameOf (sharing.dir.entry page) = some f) :
    (page = 0x400 ∧ f = 1) ∨ (page = 0x500 ∧ f = 2) := by
  rw [sharing_entry] at maps
  split at maps
  · next here => exact .inl ⟨here, (Option.some_inj.mp maps).symm⟩
  split at maps
  · next here => exact .inr ⟨here, (Option.some_inj.mp maps).symm⟩
  · cases maps

private theorem sharing_slot (object : Ptr) (slot : Nat) :
    slotEntry (sharing.shmems object) slot = mapping 2 0x16 ∨ slotEntry (sharing.shmems object) slot = 0 := by
  rw [slotEntry]
  split
  · exact ite_eq_or_eq ..
  · exact .inr rfl

private theorem sharing_resident : Resident sharing := by
  refine ⟨fun page => ?_, fun object slot => ?_⟩
  · rw [sharing_entry]
    split
    · decide
    split <;> decide
  · rcases sharing_slot object slot with mapped | empty
    · rw [mapped]
      decide
    · rw [empty]
      decide

private theorem sharing_books : Books .none sharing.dir.entry sharing.memory := by
  have unswapped : ∀ offset, places (swapOf ∘ sharing.dir.entry) offset = ∅ := by
    intro offset
    refine Set.eq_empty_of_forall_notMem fun page held => ?_
    rw [mem_places, Function.comp_apply, sharing_resident.entries] at held
    cases held
  have place : ∀ f, places (frameOf ∘ sharing.dir.entry) f ⊆ {if f = 1 then 0x400 else 0x500} := by
    intro f page maps
    rcases sharing_frame maps with ⟨rfl, rfl⟩ | ⟨rfl, rfl⟩ <;> simp
  refine ⟨fun f => (Set.finite_singleton _).subset (place f), ?_, ?_, fun offset =>
    unswapped offset ▸ Set.finite_empty, ?_, ?_, ?_⟩
  · intro f
    have one : tally (frameOf ∘ sharing.dir.entry) f ≤ 1 := (Set.ncard_le_ncard (place f)).trans (Set.ncard_singleton _).le
    show (tally _ f : Int) + 0 ≤ if f = 1 then 1 else if f = 2 then 2 else 0
    split
    · omega
    split
    · omega
    · next first second =>
      have nowhere : places (frameOf ∘ sharing.dir.entry) f = ∅ := by
        refine Set.eq_empty_of_forall_notMem fun page maps => ?_
        rcases sharing_frame maps with ⟨_, same⟩ | ⟨_, same⟩
        · exact first same
        · exact second same
      rw [tally, nowhere, Set.ncard_empty]
      rfl
  · intro f free
    obtain ⟨first, second⟩ := of_decide_eq_true free
    refine ⟨?_, List.not_mem_nil⟩
    show (if f = 1 then (1 : Int) else if f = 2 then 2 else 0) = 0
    rw [if_neg first, if_neg second]
  · intro offset
    rw [tally, unswapped, Set.ncard_empty]
    exact Nat.zero_le _
  · intro page offset held
    rw [sharing_resident.entries] at held
    cases held
  · exact fun f cached => absurd cached List.not_mem_nil

private theorem sharing_consistent : Consistent .none sharing := by
  refine ⟨⟨?_, ⟨?_, ?_⟩, rfl, nofun, nofun, rfl⟩, ?_, fun _ => rfl, fun _ =>
    ⟨⟨?_, List.pairwise_singleton ..⟩, ?_, nofun⟩, ?_, sharing_books⟩
  · intro p member
    obtain rfl | rfl := sharing_area member
    · exact show Fine ⟨0x400000, 0x401000⟩ by decide
    · exact show Fine ⟨0x500000, 0x501000⟩ by decide
  · intro p member
    obtain rfl | rfl := sharing_area member
    · exact show 0x400000 < 0x401000 by decide
    · exact show 0x500000 < 0x501000 by decide
  · exact List.pairwise_pair.mpr (show 0x401000 ≤ 0x500000 by decide)
  · intro p member shared
    obtain rfl | rfl := sharing_area member
    · exact absurd (show vmWrite &&& vmShare = 0 by decide) shared
    · exact ⟨7, rfl, show 0 + (0x501000 - 0x500000) ≤ 0x1000 by decide⟩
  · intro shmn member
    cases List.mem_singleton.mp member
    exact show 0 < ptSize by decide
  · intro shmn member
    cases List.mem_singleton.mp member
    exact ⟨rfl, rfl⟩
  · intro object slot f holds
    rcases sharing_slot object slot with mapped | empty
    · rw [mapped] at holds
      cases (show f = 2 from (Option.some_inj.mp holds).symm)
      decide
    · rw [empty] at holds
      cases holds

private theorem sharing_parent : Parent sharing := by
  refine ⟨sharing_consistent, ?_, ?_, ?_, ?_⟩
  · intro addr p covering present
    rcases sharing_frame (frameOf_present present) with ⟨page, _⟩ | ⟨page, _⟩
    all_goals
      rw [page]
      exact ⟨by decide, fun _ _ => by decide⟩
  · intro addr low held
    have page : vpn addr = 0x400 ∨ vpn addr = 0x500 := by
      by_contra neither
      exact held (by rw [sharing_entry, if_neg fun same => neither (.inl same), if_neg fun same => neither (.inr same)])
    simp only [vpn, pgSize, userTop] at page low
    rcases page with page | page
    · exact ⟨1, List.mem_cons_self, show 0x400000 ≤ addr ∧ addr < 0x401000 by omega⟩
    · exact ⟨2, List.mem_cons_of_mem _ List.mem_cons_self, show 0x500000 ≤ addr ∧ addr < 0x501000 by omega⟩
  · intro addr p f covering shared maps
    obtain rfl | rfl := sharing_area covering.member
    · exact absurd (show vmWrite &&& vmShare = 0 by decide) shared
    have here : 0x500000 ≤ addr ∧ addr < 0x501000 := covering.covers
    have start : roundDown addr = 0x500000 := by
      simp only [roundDown, pgSize]
      omega
    rw [start]
    rcases sharing_frame maps with ⟨page, _⟩ | ⟨_, rfl⟩
    · simp only [vpn, pgSize] at page
      omega
    · decide
  · intro addr p f covering own maps object slot
    obtain rfl | rfl := sharing_area covering.member
    · have here : 0x400000 ≤ addr ∧ addr < 0x401000 := covering.covers
      rcases sharing_frame maps with ⟨_, rfl⟩ | ⟨page, _⟩
      · rcases sharing_slot object slot with mapped | empty
        · rw [mapped]
          decide
        · rw [empty]
          decide
      · simp only [vpn, pgSize] at page
        omega
    · exact absurd own (by decide)

/-- A parent with a private and a shared page in memory. -/
theorem fork_isolates_sharing : Present (sharing.dir.entry 0x400) ∧ Present (sharing.dir.entry 0x500) ∧
    ∃ s, Forks sharing emptyMm emptyDir [⟨none, some 3, none⟩, ⟨none, some 4, none⟩] s ∧ SameReads s ∧
      (machine s).ConformsExcept KernelPanic (fun _ => True) Isolated := by
  have copied : ∃ next pages, dupMmap (copyPage sharing.dir) [⟨none, some 3, none⟩, ⟨none, some 4, none⟩] emptyMm sharing.mm
      (emptyDir, sharing.memory) = .ok (next, pages, 0) := ⟨_, _, rfl⟩
  obtain ⟨next, pages, copied⟩ := copied
  have forks : ∃ s, Forks sharing emptyMm emptyDir [⟨none, some 3, none⟩, ⟨none, some 4, none⟩] s := by
    refine ⟨_, next, pages, (dupVmas_congr ?_ _ _ _).trans copied, rfl⟩
    intro vma member s
    obtain ⟨p, listed, rfl⟩ := List.mem_map.mp member
    obtain rfl | rfl := sharing_area (List.mem_reverse.mp listed)
    all_goals exact copyArea_page (by decide) (by decide) (by decide) (by decide) (by decide) s
  obtain ⟨s, forks⟩ := forks
  have blank : Blank sharing emptyMm emptyDir [⟨none, some 3, none⟩, ⟨none, some 4, none⟩] :=
    ⟨(blank_onePage (w := untouched vmWrite) rfl).valid, rfl, rfl, fun _ => ite_self _, by decide⟩
  exact ⟨by decide, by decide, s, forks, fork_isolates_when_resident sharing_parent blank forks sharing_resident⟩

/-- One page of a private area is in the swap space, and there is memory to spare. -/
def pagedOut : World :=
  { swappedOut with
    memory := { swappedOut.memory with
      supply := [some 1, some 2, some 3, some 4, some 5, some 6], reads := [true, true] } }

/-- The child reads 0 where the parent reads what it has written. -/
theorem swapped_page_is_not_copied : Parent pagedOut ∧ Blank pagedOut emptyMm emptyDir [⟨none, some 2, none⟩] ∧
    Forks pagedOut emptyMm emptyDir [⟨none, some 2, none⟩] (forkedOnePage pagedOut) ∧
    ∃ between after, step (forkedOnePage pagedOut) (.load .parent ⟨0, 0x400000⟩) = .ok
      (between, some 5) ∧ step between (.load .child ⟨0, 0x400000⟩) = .ok (after, some 0) := by
  have entry : ∀ page, pagedOut.dir.entry page = if page = 0x400 then 0x100 else 0 := swappedOut_entry
  have absent : ∀ page, ¬ Present (pagedOut.dir.entry page) := by
    intro page
    rw [entry]
    split <;> decide
  have books := swappedOut_books
  have consistent : Consistent .none pagedOut := consistent_onePage { books with }
  refine ⟨parent_onePage consistent rfl absent ?_, blank_onePage rfl, forks_onePage rfl (absent _), _, _, rfl, rfl⟩
  intro page held
  by_contra other
  exact held (by rw [entry, if_neg other])

end Ucore.ForkedSpaces
