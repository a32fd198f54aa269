import Ucore.Proofs.VmaSet

/-! The calls that change an address space. Each keeps the set of areas valid when
the search at the start of the range tells the whole truth about the range. -/

namespace Ucore.Vmm
open Lib RbTree List Option Function

variable {mm after : MmStruct} {alloc : Alloc} {outside : List Ptr} {start stop : Nat} {p : Ptr}
    {vma : Vma} {q : Ptr} {addr : Nat} {flags : BitVec 32}

@[simp] theorem span_setVma_same (mm : MmStruct) (p : Ptr) (vma : Vma) :
    (mm.setVma p vma).span p = vma.span := by simp [MmStruct.span, MmStruct.setVma]

@[simp] theorem vmas_setVma_same (mm : MmStruct) (p : Ptr) (vma : Vma) :
    (mm.setVma p vma).vmas p = vma := by simp [MmStruct.setVma]

theorem span_setVma_other (vma : Vma) (different : q ≠ p) : (mm.setVma p vma).span q = mm.span q := by
  simp [MmStruct.span, MmStruct.setVma, update_of_ne different]

theorem vmas_setVma_other (vma : Vma) (different : q ≠ p) : (mm.setVma p vma).vmas q = mm.vmas q := by
  simp [MmStruct.setVma, update_of_ne different]

theorem roundDown_aligned (addr : Nat) : roundDown addr % pgSize = 0 := by
  simp only [roundDown, pgSize]
  omega

theorem roundUp_aligned (addr : Nat) : roundUp addr % pgSize = 0 := roundDown_aligned _

theorem roundDown_of_aligned (aligned : addr % pgSize = 0) : roundDown addr = addr := by
  rw [roundDown, aligned]
  rfl

theorem roundUp_lt (addr : Nat) : roundUp addr < 2 ^ 64 := by
  simp only [roundUp, roundDown, wrap]
  omega

theorem roundUp_of_aligned (aligned : stop % pgSize = 0) (word : stop < 2 ^ 64)
    (order : start ≤ stop) : roundUp (wrap (start + (stop - start))) = stop := by
  simp only [pgSize] at aligned
  simp only [roundUp, roundDown, wrap, pgSize]
  omega

theorem span_setVma_unlisted (absent : p ∉ mm.mmapList) (vma : Vma) : ∀ q ∈ mm.mmapList,
    (mm.setVma p vma).span q = mm.span q :=
    fun _ member => span_setVma_other vma (ne_of_mem_of_not_mem member absent)

theorem span_setVma_within (ordered : Span.Ordered mm.span mm.mmapList)
    (within : vma.span.Within (mm.span p)) : ∀ q ∈ mm.mmapList, ((mm.setVma p vma).span q).Within
    (mm.span q) := by
  intro q member
  by_cases here : q = p
  · rwa [here, span_setVma_same]
  · rw [span_setVma_other vma here]
    exact ⟨le_rfl, ordered.full q member, le_rfl⟩

theorem Holding.write (holding : Holding alloc outside mm) (member : p ∈ outside) (vma : Vma) :
    Holding alloc outside (mm.setVma p vma) := by
  have valid := holding.valid
  have same := span_setVma_unlisted (holding.notMem member) vma
  refine ⟨{ valid with fine := ?_, ordered := valid.ordered.congr same }, holding.separate⟩
  intro q inside
  rw [same q inside]
  exact valid.fine q inside

theorem Holding.shrink (holding : Holding alloc outside mm) (within : vma.span.Within (mm.span p))
    (fine : Fine vma.span) : Holding alloc outside (mm.setVma p vma) := by
  have valid := holding.valid
  refine ⟨{ valid with
    fine := ?_, ordered := valid.ordered.shrink (span_setVma_within valid.ordered within) },
      holding.separate⟩
  intro q inside
  by_cases here : q = p
  · rwa [here, span_setVma_same]
  · rw [span_setVma_other vma here]
    exact valid.fine q inside

theorem Valid.relabel (valid : Valid mm) (same : vma.span = mm.span p) : Valid (mm.setVma p vma) := by
  have spans : (mm.setVma p vma).span = mm.span := by
    funext q
    by_cases here : q = p
    · rw [here, span_setVma_same, same]
    · exact span_setVma_other vma here
  refine { valid with fine := ?_, ordered := ?_ }
  · rw [spans]
    exact valid.fine
  · rw [spans]
    exact valid.ordered

theorem Valid.pages (valid : Valid mm) (pgdir : Nat → BitVec 64) : Valid { mm with pgdir } := { valid with }

theorem Valid.objects (valid : Valid mm) (shmems : Ptr → Shmem) : Valid { mm with shmems } := { valid with }

theorem Valid.setBrk (valid : Valid mm) {brkStart brk : Nat} (aligned : brk % pgSize = 0) :
    Valid { mm with brkStart, brk } := { valid with aligned := aligned }

def Clear (mm : MmStruct) (start stop : Nat) : Prop := ∀ p ∈ mm.mmapList, (mm.span p).Apart ⟨start, stop⟩

/-- The area around the start of a range, if there is one, is the only way to
meet the range: otherwise no area begins inside it. -/
def Seen (mm : MmStruct) (start stop : Nat) : Prop :=
  (∃ p ∈ mm.mmapList, (mm.span p).Covers start) ∨ ∀ p ∈ mm.mmapList,
    ¬ (start < (mm.span p).start ∧ (mm.span p).start < stop)

theorem Seen.clear (seen : Seen mm start stop) (nothing : ∀ p ∈ mm.mmapList,
    ¬ (mm.span p).Covers start) : Clear mm start stop := by
  intro p member
  have outside := nothing p member
  rcases seen with ⟨q, inside, covered⟩ | free
  · exact absurd covered (nothing q inside)
  · have begins := free p member
    simp only [Span.Apart, Span.Covers] at outside ⊢
    omega

theorem vmaResize_ok (first : start % pgSize = 0) (last : stop % pgSize = 0)
    (within : Span.Within ⟨start, stop⟩ (mm.span p)) : vmaResize mm p start stop = .ok
    (mm.setVma p ((mm.vmas p).resized start stop)) := by
  simp only [vmaResize, ensure_bind, if_pos (And.intro first last)]
  exact if_pos within

theorem unmapRange_ok (first : start % pgSize = 0) (last : stop % pgSize = 0)
    (access : UserAccess start stop) : unmapRange mm start stop = .ok
    (mm.clearPages start stop) := by
  simp only [unmapRange, ensure_bind, if_pos (And.intro first last)]
  exact if_pos access

theorem Holding.clearPages (holding : Holding alloc outside mm) (start stop : Nat) :
    Holding alloc outside (mm.clearPages start stop) := ⟨holding.valid.pages _, holding.separate⟩

structure Added (vma : Vma) (p : Ptr) (mm after : MmStruct) : Prop where
  fresh : p ∉ mm.mmapList
  listed : after.mmapList.Perm (p :: mm.mmapList)
  own : after.vmas p = vma
  same : ∀ q ∈ mm.mmapList, after.vmas q = mm.vmas q

theorem Holding.insertNew (holding : Holding alloc (p :: outside) mm) (vma : Vma)
    (fine : Fine vma.span) (shmems : Ptr → Shmem) :
    Ends (fun fault => Overlap fault ∧ ¬ Clear mm vma.span.start vma.span.stop)
      (insertVmaStruct alloc { mm.setVma p vma with shmems } p) fun after =>
      Holding alloc outside after ∧ Added vma p mm after ∧ after.shmems = shmems := by
  have absent := holding.notMem mem_cons_self
  have away : ∀ q ∈ mm.mmapList, q ≠ p := fun q member same => absent (same ▸ member)
  obtain ⟨written, writtenIs⟩ : ∃ written : MmStruct, written = { mm.setVma p vma with shmems } := ⟨_, rfl⟩
  have kept : Holding alloc (p :: outside) written := by
    have kept := holding.write mem_cons_self vma
    rw [writtenIs]
    exact ⟨kept.valid.objects _, kept.separate⟩
  have own : written.vmas p = vma := by
    rw [writtenIs]
    exact vmas_setVma_same mm p vma
  have others : ∀ q ∈ mm.mmapList, written.vmas q = mm.vmas q := by
    intro q member
    rw [writtenIs]
    exact vmas_setVma_other vma (away q member)
  have same : written.mmapList = mm.mmapList ∧ written.shmems = shmems := by
    rw [writtenIs]
    exact ⟨rfl, rfl⟩
  rw [← writtenIs]
  refine ((insertVmaStruct_ends kept (show Fine (written.vmas p).span from own ▸ fine)).excuse ?_).mono ?_
  · rintro fault ⟨overlap, meets⟩
    refine ⟨overlap, fun clear => meets fun q member => ?_⟩
    rw [same.1] at member
    rw [MmStruct.span, MmStruct.span, own, others q member]
    exact (clear q member).symm
  · rintro _ ⟨links, tree, before, later, listed, rfl, kept⟩
    refine ⟨kept, ⟨absent, ?_, own, others⟩, same.2⟩
    rw [← same.1, listed]
    exact perm_middle

theorem insert_created_ends (holding : Holding alloc (p :: outside) mm) (fine : Fine ⟨start, stop⟩) :
    Ends (fun fault => Overlap fault ∧ ¬ Clear mm start stop)
    (insertVmaStruct alloc (vmaCreate mm p start stop flags) p) fun after =>
      Holding alloc outside after ∧ Added ⟨start, stop, flags, none, 0⟩ p mm after ∧ after.shmems = mm.shmems :=
  holding.insertNew ⟨start, stop, flags, none, 0⟩ fine mm.shmems

inductive MapOutcome (start stop : Nat) (flags : BitVec 32) (mm after : MmStruct) : Int → Option Ptr → Prop where
  | refused {ret : Int} (failed : ret ≠ 0) (valid : Valid after) (same : ∃ cache, after = { mm with mmapCache := cache }) :
      MapOutcome start stop flags mm after ret none
  | mapped {p : Ptr} (fine : Fine ⟨start, stop⟩) (valid : Valid after) (objects : after.shmems = mm.shmems)
      (added : Added ⟨start, stop, flags &&& ~~~vmShare, none, 0⟩ p mm after) :
        MapOutcome start stop flags mm after 0 (some p)

theorem MapOutcome.recall {flags : BitVec 32} {cache : Option Ptr} {ret : Int} {stored : Option Ptr}
    (outcome : MapOutcome start stop flags { mm with mmapCache := cache } after ret stored) :
      MapOutcome start stop flags mm after ret stored := by
  cases outcome with
  | refused failed valid same => exact .refused failed valid same
  | mapped fine valid objects added => exact .mapped fine valid objects { added with }

theorem MapOutcome.valid {ret : Int} {stored : Option Ptr}
    (outcome : MapOutcome start stop flags mm after ret stored) : Valid after := by
  cases outcome with
  | refused _ valid | mapped _ valid => exact valid

theorem mapRange_ends (flags : BitVec 32) (holding : Holding alloc alloc.vma.toList mm)
    (fine : Fine ⟨start, stop⟩) : Ends (fun fault => Overlap fault ∧ ¬ Clear mm start stop)
    (mapRange alloc mm start stop flags) fun result =>
      MapOutcome start stop flags mm result.1 result.2.1 result.2.2 := by
  rw [mapRange]
  cases given : alloc.vma with
  | none => exact .refused (show -eNoMem ≠ 0 by decide) holding.valid ⟨mm.mmapCache, rfl⟩
  | some =>
    rw [given] at holding
    refine (insert_created_ends holding fine).bind ?_
    rintro after ⟨kept, added, objects⟩
    exact .mapped fine kept.valid objects added

/-- Every call sees the areas in the range it maps. -/
def Visible (mm : MmStruct) (op : Op) : Prop :=
  match op.call with
  | .map addr len _ => sees addr len
  | .mapShmem addr _ shmem => ∀ object, shmem = some object → sees addr (mm.shmems object).len
  | .brk addr len => sees addr len
  | .doBrk brk => UserAccess mm.brk (roundUp brk) → Seen mm mm.brk (roundUp brk)
  | .unmap _ _ => True
  | .loadBrk _ => True
where
  sees (addr len : Nat) : Prop :=
    UserAccess (roundDown addr) (roundUp (wrap (addr + len))) → Seen mm (roundDown addr) (roundUp (wrap (addr + len)))

theorem mmMap_ends (addr len : Nat) (flags : BitVec 32)
    (holding : Holding alloc alloc.vma.toList mm) :
    Ends (fun fault => Overlap fault ∧ ¬ Visible.sees mm addr len) (mmMap alloc mm addr len flags)
    fun result =>
      MapOutcome (roundDown addr) (roundUp (wrap (addr + len))) flags mm result.1 result.2.1 result.2.2 := by
  rw [mmMap]
  by_cases access : UserAccess (roundDown addr) (roundUp (wrap (addr + len)))
  · obtain ⟨cache, found, ran, valid, answers⟩ := findVma_spec holding.valid (roundDown addr)
    rw [if_neg (not_not_intro access)]
    apply Ends.bind_ok ran
    cases found with
    | some p =>
      have taken : roundUp (wrap (addr + len)) > (mm.vmas p).vmStart := answers.2.1.trans_lt access.2.1
      dsimp only
      rw [if_pos taken]
      exact .refused (show -eInval ≠ 0 by decide) valid ⟨cache, rfl⟩
    | none =>
      have recalled : Holding alloc alloc.vma.toList { mm with mmapCache := cache } := ⟨valid, holding.separate⟩
      refine ((mapRange_ends flags recalled ⟨roundDown_aligned _, roundUp_aligned _, access⟩).excuse
        ?_).mono fun _ => MapOutcome.recall
      exact fun fault meets => ⟨meets.1, fun seen => meets.2 ((seen access).clear answers)⟩
  · rw [if_pos access]
    exact .refused (show -eInval ≠ 0 by decide) holding.valid ⟨mm.mmapCache, rfl⟩

theorem mmMapShmem_ends (addr : Nat) (flags : BitVec 32) (shmem : Option Ptr) (holding : Holding alloc alloc.vma.toList mm)
    (seen : ∀ object, shmem = some object → Visible.sees mm addr (mm.shmems object).len)
      (excused : Fault → Prop) : Ends excused (mmMapShmem alloc mm addr flags shmem) fun result =>
        Valid result.1 := by
  cases shmem with
  | none => exact holding.valid
  | some object =>
    rw [mmMapShmem]
    by_cases unaligned : addr % pgSize ≠ 0
    · rw [if_pos unaligned]
      exact holding.valid
    have counted : Holding alloc alloc.vma.toList (shmemRefAdd mm object 1) := ⟨holding.valid.objects _, holding.separate⟩
    have same : ((shmemRefAdd mm object 1).shmems object).len = (mm.shmems object).len := by simp [shmemRefAdd]
    rw [if_neg unaligned]
    dsimp only
    rw [same]
    refine ((mmMap_ends addr (mm.shmems object).len flags counted).excuse fun _ unseen =>
      absurd (seen object rfl) unseen.2).bind ?_
    rintro ⟨after, ret, stored⟩ outcome
    cases outcome with
    | refused _ valid => exact valid.objects _
    | mapped _ valid => exact valid.relabel rfl

/-- The first loop of `mm_unmap` takes the areas from `p` on that begin before
`stop` out of the list. -/
theorem detachVmas_spec (fuel : Nat) {before later freeList : List Ptr}
    (holding : Holding alloc (freeList ++ outside) mm) (listed : mm.mmapList = before ++ p :: later)
    (enough : later.length < fuel) : ∃ links cache count gone left,
      detachVmas stop fuel mm p freeList = .ok
      ({ mm with links, mmapList := before ++ left, mmapCache := cache, mapCount := count },
      gone.reverse ++ freeList) ∧
      Holding alloc (gone.reverse ++ freeList ++ outside)
        { mm with links, mmapList := before ++ left, mmapCache := cache, mapCount := count } ∧
      p :: later = gone ++ left ∧ (∀ q ∈ gone, (mm.span q).start < stop) ∧ ∀ q ∈ left, stop ≤ (mm.span q).start := by
  induction fuel generalizing mm p later freeList with
  | zero => omega
  | succ fuel ih =>
    have ordered := holding.valid.ordered
    rw [listed] at ordered
    rw [detachVmas]
    by_cases begins : (mm.vmas p).vmStart < stop
    · have absent : p ∉ before := by
        have distinct := (nodup_cons.mp (nodup_middle.mp ordered.nodup)).1
        exact fun member => distinct (mem_append_left _ member)
      have next : Ring.next mm.mmapList (some p) = later.head? := by
        rw [listed]
        exact Ring.next_of_split absent
      obtain ⟨links, cache, ran, kept⟩ := removeVmaStruct_spec holding listed
      rw [if_pos begins, next, ran]
      cases later with
      | nil =>
        refine ⟨links, cache, mm.mapCount - 1, [p], [], rfl, kept, rfl, ?_, by simp⟩
        intro q member
        rwa [mem_singleton.mp member]
      | cons =>
        obtain ⟨links, cache, count, gone, left, finished, kept, split, taken, spared⟩ :=
          ih (show Holding alloc ((p :: freeList) ++ outside) _ from kept) rfl
          (by simpa using enough)
        have reversed : (p :: gone).reverse ++ freeList = gone.reverse ++ p :: freeList := by simp
        refine ⟨links, cache, count, p :: gone, left, ?_, ?_, split ▸ rfl, ?_, spared⟩
        · rwa [reversed]
        · rwa [reversed]
        · exact forall_mem_cons.mpr ⟨begins, taken⟩
    · rw [if_neg begins]
      refine ⟨mm.links, mm.mmapCache, mm.mapCount, [], p :: later, by rw [← listed]; rfl,
        by rwa [← listed], rfl, by simp, ?_⟩
      have starts := (pairwise_cons.mp (pairwise_append.mp ordered.starts).2.1).1
      have own := not_lt.mp begins
      exact forall_mem_cons.mpr ⟨own, fun q member => own.trans (Nat.le_of_lt (starts q member))⟩

def Vma.Shared (vma : Vma) : Prop := vma.vmFlags &&& vmShare ≠ 0
deriving Decidable

/-- The fault of destroying a shared area that has no object. -/
def NoObject (fault : Fault) : Prop := ∃ text, fault = .nullPointer text

/-- The same, with the area in a list of areas. -/
def Orphan (vmas : Ptr → Vma) (areas : List Ptr) (fault : Fault) : Prop :=
  NoObject fault ∧ ∃ p ∈ areas, (vmas p).Shared ∧ (vmas p).shmem = none

def Vma.released (vma : Vma) (shmems : Ptr → Shmem) : Ptr → Shmem :=
  if vma.Shared then
    match vma.shmem with
    | none => shmems
    | some object => shmemRelease shmems object
  else shmems

theorem vmaDestroy_ends (mm : MmStruct) (p : Ptr) : Ends (Orphan mm.vmas [p]) (vmaDestroy mm p)
    fun after => after = { mm with shmems := (mm.vmas p).released mm.shmems } := by
  simp only [vmaDestroy, Vma.released]
  by_cases shared : (mm.vmas p).Shared
  · rw [if_pos (show (mm.vmas p).vmFlags &&& vmShare ≠ 0 from shared), if_pos shared]
    cases backed : (mm.vmas p).shmem with
    | none => exact ⟨⟨_, rfl⟩, p, mem_singleton_self p, shared, backed⟩
    | some => rfl
  · rw [if_neg (show ¬ (mm.vmas p).vmFlags &&& vmShare ≠ 0 from shared), if_neg shared]
    rfl

/-- What is left of an area that `mm_unmap` has detached: the part on one side of the range. -/
def Vma.rest (vma : Vma) (start stop : Nat) : Option Vma :=
  if vma.vmStart < start then some (vma.resized vma.vmStart start)
  else if stop < vma.vmEnd then some (vma.resized stop vma.vmEnd)
  else none

/-- An area that meets the range but does not reach beyond it on both sides. -/
structure Met (start stop : Nat) (span : Span) : Prop where
  fine : Fine span
  meets : span.start < stop ∧ start < span.stop
  oneSided : ¬ (span.start < start ∧ stop < span.stop)

theorem Met.rest_covers (met : Met start stop vma.span) (addr : Nat) :
    (∃ rest, vma.rest start stop = some rest ∧ rest.span.Covers addr) ↔ vma.span.Covers addr ∧
    ¬ Span.Covers ⟨start, stop⟩ addr := by
  have meets := met.meets
  have oneSided := met.oneSided
  simp only [Vma.span] at meets oneSided
  simp only [Vma.rest]
  by_cases before : vma.vmStart < start
  · simp only [before, if_true, some.injEq, exists_eq_left', Span.Covers, Vma.span, Vma.resized]
    omega
  by_cases beyond : stop < vma.vmEnd
  · simp only [before, beyond, if_true, if_false, some.injEq, exists_eq_left', Span.Covers, Vma.span, Vma.resized]
    omega
  · simp only [before, beyond, if_false, reduceCtorEq, false_and, exists_false, Span.Covers, Vma.span, false_iff]
    omega

theorem Met.rest_within {rest : Vma} (met : Met start stop vma.span)
    (left : vma.rest start stop = some rest) : rest.span.Within vma.span := by
  obtain ⟨⟨_, _, _, full, _⟩, ⟨first, last⟩, _⟩ := met
  rw [Vma.rest] at left
  split at left
  · next before =>
    cases left
    exact ⟨le_rfl, before, last.le⟩
  · split at left
    · next beyond =>
      cases left
      exact ⟨first.le, beyond, le_rfl⟩
    · cases left

structure Restored (start stop : Nat) (p : Ptr) (mm after : MmStruct) : Prop where
  others : ∀ q, q ≠ p → after.vmas q = mm.vmas q
  own : after.vmas p = ((mm.vmas p).rest start stop).getD (mm.vmas p)
  listed : after.mmapList.Perm (if ((mm.vmas p).rest start stop).isSome then p :: mm.mmapList else mm.mmapList)
  objects : after.shmems = if ((mm.vmas p).rest start stop).isSome then mm.shmems else (mm.vmas p).released mm.shmems
  pages : ∀ page, after.pgdir page =
    if Span.Covers ⟨start, stop⟩ (page * pgSize) ∧ (mm.span p).Covers (page * pgSize) then 0 else mm.pgdir page

theorem reinsertVma_spec (first last : Nat) (holding : Holding alloc (p :: outside) mm)
    (separate : ∀ q ∈ mm.mmapList, (mm.span p).Apart (mm.span q)) (fine : Fine ⟨first, last⟩)
    (within : Span.Within ⟨first, last⟩ (mm.span p)) : ∃ links tree list count,
      list.Perm (p :: mm.mmapList) ∧ reinsertVma alloc mm p first last =
        .ok { mm.setVma p ((mm.vmas p).resized first last) with
          links, mmapTree := tree, mmapList := list, mapCount := count } ∧ Holding alloc outside
        { mm.setVma p ((mm.vmas p).resized first last) with
          links, mmapTree := tree, mmapList := list, mapCount := count } := by
  generalize resizedIs : mm.setVma p ((mm.vmas p).resized first last) = resized
  have written := resizedIs ▸ holding.write mem_cons_self _
  have own : resized.span p = ⟨first, last⟩ := by
    rw [← resizedIs, span_setVma_same]
    rfl
  have others : ∀ q, q ≠ p → resized.span q = mm.span q := fun q different => resizedIs ▸ span_setVma_other _ different
  have same : resized.mmapList = mm.mmapList := by
    rw [← resizedIs]
    rfl
  have free : ∀ q ∈ resized.mmapList, (resized.span p).Apart (resized.span q) := by
    intro q member
    rw [same] at member
    have different : q ≠ p := fun clash => holding.notMem mem_cons_self (clash ▸ member)
    rw [own, others q different]
    exact ((separate q member).symm.within within).symm
  obtain ⟨_, ran, links, tree, before, later, listed, rfl, kept⟩ :=
    (insertVmaStruct_ends written (own ▸ fine)).exists_ok fun _ both => both.2 free
  refine ⟨links, tree, before ++ p :: later, resized.mapCount + 1, ?_, ?_, kept⟩
  · rw [← same, listed]
    exact perm_middle
  · rwa [reinsertVma, vmaResize_ok fine.1 fine.2.1 within, resizedIs]

theorem reinsertVma_restores {first last : Nat} (low high : Nat) (holding : Holding alloc (p :: outside) mm)
    (left : (mm.vmas p).rest start stop = some ((mm.vmas p).resized first last))
      (separate : ∀ q ∈ mm.mmapList, (mm.span p).Apart (mm.span q)) (fine : Fine ⟨first, last⟩)
    (within : Span.Within ⟨first, last⟩ (mm.span p)) (gap : Fine ⟨low, high⟩)
      (cut : ∀ addr, Span.Covers ⟨low, high⟩ addr ↔ Span.Covers ⟨start, stop⟩ addr ∧
      (mm.span p).Covers addr) (excused : Fault → Prop) :
    Ends excused (reinsertVma alloc mm p first last >>= fun mm => unmapRange mm low high) fun after =>
      Holding alloc outside after ∧ Restored start stop p mm after := by
  obtain ⟨links, tree, list, count, listed, ran, kept⟩ := reinsertVma_spec first last holding separate fine within
  apply Ends.bind_ok ran
  refine .of_ok (unmapRange_ok gap.1 gap.2.1 gap.2.2) ⟨kept.clearPages _ _, ?_, ?_, ?_, ?_, ?_⟩
  · exact fun q different => vmas_setVma_other _ different
  · rw [left]
    exact vmas_setVma_same _ _ _
  · rwa [left]
  · rw [left]
    rfl
  · exact fun page => if_congr (cut _) rfl rfl

theorem restoreVma_ends (holding : Holding alloc (p :: outside) mm) (range : Fine ⟨start, stop⟩)
    (met : Met start stop (mm.span p)) (separate : ∀ q ∈ mm.mmapList,
      (mm.span p).Apart (mm.span q)) : Ends (Orphan mm.vmas [p]) (restoreVma alloc start stop mm p)
      fun after =>
      Holding alloc outside after ∧ Restored start stop p mm after := by
  obtain ⟨⟨firstAligned, lastAligned, low, full, high⟩, meets, oneSided⟩ := met
  obtain ⟨startAligned, stopAligned, startLow, startStop, stopHigh⟩ := range
  simp only [MmStruct.span, Vma.span] at *
  rw [restoreVma]
  split
  · next before =>
    refine reinsertVma_restores start (mm.vmas p).vmEnd holding (if_pos before) separate
      ⟨firstAligned, startAligned, low, before, startStop.le.trans stopHigh⟩
      ⟨le_rfl, before, meets.2.le⟩ ⟨startAligned, lastAligned, startLow, meets.2, high⟩ (fun addr => ?_) _
    simp only [Span.Covers, MmStruct.span, Vma.span]
    omega
  · next before =>
    split
    · next beyond =>
      refine reinsertVma_restores (mm.vmas p).vmStart stop holding ((if_neg before).trans (if_pos beyond)) separate
        ⟨stopAligned, lastAligned, startLow.trans startStop.le, beyond, high⟩ ⟨meets.1.le, beyond,
          le_rfl⟩ ⟨firstAligned, stopAligned, low, meets.1, stopHigh⟩ (fun addr => ?_) _
      simp only [Span.Covers, MmStruct.span, Vma.span]
      omega
    · next beyond =>
      have left : (mm.vmas p).rest start stop = none := (if_neg before).trans (if_neg beyond)
      refine (vmaDestroy_ends mm p).bind ?_
      rintro after rfl
      have kept : Holding alloc outside { mm with shmems := (mm.vmas p).released mm.shmems } :=
        ⟨holding.valid.objects _, (holding.drop (sublist_cons_self p outside)).separate⟩
      refine .of_ok (unmapRange_ok firstAligned lastAligned ⟨low, full, high⟩) ⟨kept.clearPages _ _,
        fun _ _ => rfl, ?_, ?_, ?_, ?_⟩
      · rw [left]
        rfl
      · rw [left]
        exact List.Perm.refl _
      · rw [left]
        rfl
      · intro page
        refine if_congr ?_ rfl rfl
        simp only [Span.Covers, MmStruct.span, Vma.span]
        omega

/-- The areas the second loop of `mm_unmap` has still to look at. -/
structure Detached (start stop : Nat) (freeList : List Ptr) (mm : MmStruct) : Prop where
  met : ∀ p ∈ freeList, Met start stop (mm.span p)
  apart : freeList.Pairwise fun p q => (mm.span p).Apart (mm.span q)
  separate : ∀ p ∈ freeList, ∀ q ∈ mm.mmapList, (mm.span p).Apart (mm.span q)

theorem Restored.mem (restored : Restored start stop p mm after) (member : q ∈ after.mmapList) :
    q ∈ mm.mmapList ∨ q = p ∧ ∃ rest, (mm.vmas p).rest start stop = some rest ∧
    after.vmas p = rest := by
  have member := restored.listed.mem_iff.mp member
  have own := restored.own
  cases left : (mm.vmas p).rest start stop with
  | none =>
    rw [left] at member
    exact .inl member
  | some rest =>
    rw [left] at member own
    rcases mem_cons.mp member with here | inside
    · exact .inr ⟨here, rest, rfl, own⟩
    · exact .inl inside

theorem Detached.rest {rest : List Ptr} (detached : Detached start stop (p :: rest) mm)
    (absent : p ∉ rest) (outside : p ∉ mm.mmapList) (restored : Restored start stop p mm after) :
    Detached start stop rest after := by
  obtain ⟨apartHead, apartRest⟩ := pairwise_cons.mp detached.apart
  have same : ∀ q ∈ rest, after.span q = mm.span q :=
    fun q member => congrArg Vma.span (restored.others q fun clash => absent (clash ▸ member))
  constructor
  · intro q member
    rw [same q member]
    exact detached.met q (mem_cons_of_mem p member)
  · apply apartRest.imp_of_mem
    intro q r first second apart
    rwa [same q first, same r second]
  · intro q member r listed
    rw [same q member]
    rcases restored.mem listed with inside | ⟨rfl, left, leftIs, own⟩
    · have different : r ≠ p := fun clash => outside (clash ▸ inside)
      rw [show after.span r = mm.span r from congrArg Vma.span (restored.others r different)]
      exact detached.separate q (mem_cons_of_mem p member) r inside
    · rw [show after.span r = left.span from congrArg Vma.span own]
      exact (apartHead q member).symm.within ((detached.met r mem_cons_self).rest_within leftIs)

structure RestoredAll (start stop : Nat) (freeList : List Ptr) (mm after : MmStruct) : Prop where
  others : ∀ q, q ∉ freeList → after.vmas q = mm.vmas q
  own : ∀ p ∈ freeList, after.vmas p = ((mm.vmas p).rest start stop).getD (mm.vmas p)
  listed : after.mmapList.Perm ((freeList.filter fun p => ((mm.vmas p).rest start stop).isSome) ++ mm.mmapList)
  objects : after.shmems = (freeList.filter fun p => ((mm.vmas p).rest start stop).isNone).foldl
    (fun shmems p => (mm.vmas p).released shmems) mm.shmems
  pages : ∀ page, after.pgdir page =
    if Span.Covers ⟨start, stop⟩ (page * pgSize) ∧ ∃ p ∈ freeList, (mm.span p).Covers
      (page * pgSize) then 0 else mm.pgdir page

theorem RestoredAll.cons {rest : List Ptr} {between : MmStruct} (absent : p ∉ rest)
    (first : Restored start stop p mm between)
    (others : RestoredAll start stop rest between after) :
    RestoredAll start stop (p :: rest) mm after := by
  have same : ∀ q ∈ rest, between.vmas q = mm.vmas q := fun q member => first.others q fun clash => absent (clash ▸ member)
  constructor
  · intro q outside
    obtain ⟨notFirst, notRest⟩ := not_or.mp (mem_cons.not.mp outside)
    rw [others.others q notRest, first.others q notFirst]
  · intro q member
    rcases mem_cons.mp member with rfl | member
    · rw [others.others q absent, first.own]
    · rw [others.own q member, same q member]
  · have filtered : (rest.filter fun q => ((between.vmas q).rest start stop).isSome) = rest.filter
      fun q => ((mm.vmas q).rest start stop).isSome :=
      filter_congr fun q member => by rw [same q member]
    rw [filter_cons]
    refine others.listed.trans ?_
    rw [filtered]
    refine (List.Perm.append_left _ first.listed).trans ?_
    split
    · exact perm_middle
    · exact List.Perm.refl _
  · have filtered : (rest.filter fun q => ((between.vmas q).rest start stop).isNone) = rest.filter
      fun q => ((mm.vmas q).rest start stop).isNone :=
      filter_congr fun q member => by rw [same q member]
    have folded : ∀ shmems, (rest.filter fun q => ((mm.vmas q).rest start stop).isNone).foldl
      (fun shmems q => (between.vmas q).released shmems) shmems =
        (rest.filter fun q => ((mm.vmas q).rest start stop).isNone).foldl (fun shmems q =>
          (mm.vmas q).released shmems) shmems := by
      intro shmems
      apply foldl_ext
      intro shmems q member
      rw [same q (mem_of_mem_filter member)]
    rw [others.objects, filtered, folded, first.objects, filter_cons]
    cases (mm.vmas p).rest start stop <;> simp
  · intro page
    rw [others.pages page, first.pages page]
    have spans : ∀ q ∈ rest, between.span q = mm.span q := fun q member => congrArg Vma.span (same q member)
    by_cases inside : Span.Covers ⟨start, stop⟩ (page * pgSize)
    · by_cases later : ∃ q ∈ rest, (mm.span q).Covers (page * pgSize)
      · obtain ⟨q, member, covered⟩ := later
        rw [if_pos ⟨inside, q, member, by rwa [spans q member]⟩, if_pos ⟨inside, q, mem_cons_of_mem p member, covered⟩]
      have none : ¬ ∃ q ∈ rest, (between.span q).Covers (page * pgSize) :=
        fun ⟨q, member, covered⟩ => later ⟨q, member, by rwa [← spans q member]⟩
      rw [if_neg fun both => none both.2]
      refine if_congr ?_ rfl rfl
      simp only [exists_mem_cons_iff, later, or_false]
    · simp [inside]

theorem restoreVmas_ends (freeList : List Ptr) (holding : Holding alloc (freeList ++ outside) mm) (range : Fine ⟨start, stop⟩)
    (detached : Detached start stop freeList mm) : Ends (Orphan mm.vmas freeList)
      (restoreVmas alloc start stop mm freeList) fun after =>
      Holding alloc outside after ∧ RestoredAll start stop freeList mm after := by
  induction freeList generalizing mm with
  | nil => exact ⟨holding, fun _ _ => rfl, by simp, List.Perm.refl _, rfl, by simp⟩
  | cons p rest ih =>
    have absent : p ∉ rest := by
      have distinct := (nodup_append.mp holding.separate).2.1
      have alone := (nodup_cons.mp distinct).1
      exact fun member => alone (by simp [member])
    refine ((restoreVma_ends holding range (detached.met p mem_cons_self)
      (detached.separate p mem_cons_self)).excuse ?_).bind ?_
    · intro fault orphan
      exact ⟨orphan.1, p, mem_cons_self, by simpa using orphan.2⟩
    intro between ⟨kept, restored⟩
    refine ((ih kept (detached.rest absent (holding.notMem mem_cons_self) restored)).excuse ?_).mono ?_
    · intro fault ⟨null, q, member, orphan⟩
      rw [restored.others q fun clash => absent (clash ▸ member)] at orphan
      exact ⟨null, q, mem_cons_of_mem p member, orphan⟩
    · intro after ⟨kept, others⟩
      exact ⟨kept, .cons absent restored others⟩

/-- What `mm_unmap` does when the range does not lie strictly inside one area: the
areas that meet the range are cut down to what lies outside, and the others stay. -/
structure Trimmed (start stop : Nat) (met left : List Ptr) (mm after : MmStruct) : Prop where
  parts : mm.mmapList.Perm (met ++ left)
  meets : ∀ p ∈ met, Met start stop (mm.span p)
  apart : ∀ p ∈ left, (mm.span p).Apart ⟨start, stop⟩
  same : ∀ p ∈ left, after.vmas p = mm.vmas p
  trimmed : ∀ p ∈ met, after.vmas p = ((mm.vmas p).rest start stop).getD (mm.vmas p)
  listed : after.mmapList.Perm ((met.filter fun p => ((mm.vmas p).rest start stop).isSome) ++ left)
  objects : after.shmems = (met.filter fun p => ((mm.vmas p).rest start stop).isNone).foldl
    (fun shmems p => (mm.vmas p).released shmems) mm.shmems
  pages : ∀ page, after.pgdir page =
    if Span.Covers ⟨start, stop⟩ (page * pgSize) ∧ ∃ p ∈ met, (mm.span p).Covers (page * pgSize) then 0 else mm.pgdir page

/-- What `mm_unmap` does when the range lies strictly inside the area `p`: the part
before the range becomes the new area `nvma`. -/
structure Holed (start stop : Nat) (p nvma : Ptr) (mm after : MmStruct) : Prop where
  member : p ∈ mm.mmapList
  fresh : nvma ∉ mm.mmapList
  before : (mm.vmas p).vmStart < start
  beyond : stop < (mm.vmas p).vmEnd
  front : after.vmas nvma = ⟨(mm.vmas p).vmStart, start, (mm.vmas p).vmFlags, none, 0⟩
  back : after.vmas p = (mm.vmas p).resized stop (mm.vmas p).vmEnd
  same : ∀ q ∈ mm.mmapList, q ≠ p → after.vmas q = mm.vmas q
  listed : after.mmapList.Perm (nvma :: mm.mmapList)
  objects : after.shmems = mm.shmems
  pages : ∀ page, after.pgdir page = if Span.Covers ⟨start, stop⟩ (page * pgSize) then 0 else mm.pgdir page

theorem Trimmed.clear {met left : List Ptr} (trimmed : Trimmed start stop met left mm after) : Clear after start stop := by
  intro p member
  rcases mem_append.mp (trimmed.listed.mem_iff.mp member) with some | other
  · obtain ⟨inside, some⟩ := mem_filter.mp some
    obtain ⟨rest, left⟩ := isSome_iff_exists.mp some
    rw [MmStruct.span, trimmed.trimmed p inside, left]
    rw [Vma.rest] at left
    split at left
    · cases left
      exact .inl le_rfl
    split at left
    · cases left
      exact .inr le_rfl
    · cases left
  · rw [MmStruct.span, trimmed.same p other]
    exact trimmed.apart p other

theorem Holed.clear {nvma : Ptr} (holed : Holed start stop p nvma mm after) (valid : Valid mm)
    (full : start < stop) : Clear after start stop := by
  intro q member
  rcases mem_cons.mp (holed.listed.mem_iff.mp member) with rfl | inside
  · rw [MmStruct.span, holed.front]
    exact .inl le_rfl
  by_cases here : q = p
  · rw [here, MmStruct.span, holed.back]
    exact .inr le_rfl
  · have around := valid.ordered.apart inside holed.member here
    rw [MmStruct.span, holed.same q inside here]
    exact around.within ⟨holed.before.le, full, holed.beyond.le⟩

theorem unmapInside_spec (holding : Holding alloc (alloc.nvma.toList ++ outside) mm)
    (member : p ∈ mm.mmapList) (range : Fine ⟨start, stop⟩) (before : (mm.vmas p).vmStart < start)
    (beyond : stop < (mm.vmas p).vmEnd) :
    alloc.nvma = none ∧ unmapInside alloc mm p start stop = .ok (mm, -eNoMem) ∨ ∃ nvma after,
      unmapInside alloc mm p start stop = .ok (after, 0) ∧ Holding alloc outside after ∧
      Holed start stop p nvma mm after := by
  rw [unmapInside]
  cases given : alloc.nvma with
  | none => exact .inl ⟨rfl, rfl⟩
  | some nvma =>
    rw [given] at holding
    have fresh := holding.notMem mem_cons_self
    have different : p ≠ nvma := fun same => fresh (same ▸ member)
    obtain ⟨firstAligned, lastAligned, low, full, high⟩ := holding.valid.fine p member
    obtain ⟨startAligned, stopAligned, startLow, startStop, stopHigh⟩ := range
    generalize createdIs : vmaCreate mm nvma (mm.vmas p).vmStart start (mm.vmas p).vmFlags = created
    have own : created.vmas p = mm.vmas p := createdIs ▸ vmas_setVma_other _ different
    have kept : Holding alloc (nvma :: outside) created := createdIs ▸ holding.write mem_cons_self _
    have within : Span.Within ⟨stop, (created.vmas p).vmEnd⟩ (created.span p) := by
      rw [MmStruct.span, own]
      exact ⟨Nat.le_of_lt (before.trans startStop), beyond, le_rfl⟩
    have fine : Fine ⟨stop, (created.vmas p).vmEnd⟩ := by
      rw [own]
      exact ⟨stopAligned, lastAligned, startLow.trans startStop.le, beyond, high⟩
    generalize splitIs : created.setVma p ((created.vmas p).resized stop (created.vmas p).vmEnd) = split
    have resized := splitIs ▸ vmaResize_ok stopAligned fine.2.1 within
    have kept : Holding alloc (nvma :: outside) split := splitIs ▸ kept.shrink within fine
    have front : split.vmas nvma = ⟨(mm.vmas p).vmStart, start, (mm.vmas p).vmFlags, none, 0⟩ := by
      rw [← splitIs, vmas_setVma_other _ different.symm, ← createdIs]
      exact vmas_setVma_same _ _ _
    have back : split.vmas p = (mm.vmas p).resized stop (mm.vmas p).vmEnd := by rw [← splitIs, vmas_setVma_same, own]
    have others : ∀ q ∈ mm.mmapList, q ≠ p → split.vmas q = mm.vmas q := by
      intro q inside notOld
      rw [← splitIs, vmas_setVma_other _ notOld, ← createdIs]
      exact vmas_setVma_other _ fun same => fresh (same ▸ inside)
    have same : split.mmapList = mm.mmapList ∧ split.shmems = mm.shmems ∧ split.pgdir = mm.pgdir := by
      rw [← splitIs, ← createdIs]
      exact ⟨rfl, rfl, rfl⟩
    have apart : ∀ q ∈ split.mmapList, (split.span nvma).Apart (split.span q) := by
      intro q inside
      rw [same.1] at inside
      rw [MmStruct.span, front, MmStruct.span]
      by_cases here : q = p
      · rw [here, back]
        exact .inl startStop.le
      have around := holding.valid.ordered.apart inside member here
      have part : Span.Within ⟨(mm.vmas p).vmStart, start⟩ (mm.span p) :=
        ⟨le_rfl, before, Nat.le_of_lt (startStop.trans beyond)⟩
      rw [others q inside here]
      exact (around.within part).symm
    have frontFine : Fine (split.span nvma) := by
      rw [MmStruct.span, front]
      exact ⟨firstAligned, startAligned, low, before, startStop.le.trans stopHigh⟩
    obtain ⟨_, ran, links, tree, first, later, listed, rfl, kept⟩ :=
      (insertVmaStruct_ends kept frontFine).exists_ok fun _ both => both.2 apart
    refine .inr ⟨nvma, _, ?_, kept.clearPages start stop, member, fresh, before, beyond, front,
      back, others, ?_, same.2.1, ?_⟩
    · dsimp only
      rw [createdIs]
      simp only [resized, ran, bind, Except.bind, unmapRange_ok startAligned stopAligned ⟨startLow, startStop, stopHigh⟩]
      rfl
    · rw [← same.1, listed]
      exact perm_middle
    · intro page
      rw [← same.2.2]
      rfl

/-- The first loop, run from the area around the start of the range, detaches the
areas that meet the range. -/
theorem detachRange_spec (holding : Holding alloc outside mm) (member : p ∈ mm.mmapList)
    (covered : (mm.span p).Covers start)
    (oneSided : ¬ ((mm.vmas p).vmStart < start ∧ stop < (mm.vmas p).vmEnd)) :
    ∃ links cache count met left,
      detachVmas stop mm.fuel mm p [] = .ok
        ({ mm with links, mmapList := left, mmapCache := cache, mapCount := count }, met) ∧
      Holding alloc (met ++ outside)
        { mm with links, mmapList := left, mmapCache := cache, mapCount := count } ∧
        Detached start stop met { mm with
        links, mmapList := left, mmapCache := cache, mapCount := count } ∧
      mm.mmapList.Perm (met ++ left) ∧ ∀ q ∈ left, (mm.span q).Apart ⟨start, stop⟩ := by
  have valid := holding.valid
  obtain ⟨before, later, listed⟩ := append_of_mem member
  have size : later.length < mm.fuel := by
    have size := valid.counted
    rw [listed] at size
    simp only [length_append, length_cons] at size
    rw [MmStruct.fuel]
    omega
  obtain ⟨links, cache, count, gone, left, ran, kept, split, taken, spared⟩ :=
    detachVmas_spec mm.fuel (show Holding alloc ([] ++ outside) mm from holding) listed size
  rw [append_nil] at ran kept
  have ascending := valid.ordered.ascending
  rw [listed] at ascending
  obtain ⟨_, fromP, across⟩ := pairwise_append.mp ascending
  have inList : ∀ q ∈ gone, q ∈ mm.mmapList := by
    intro q detached
    rw [listed, split]
    simp [detached]
  have beyondP : ∀ q ∈ gone, q = p ∨ (mm.span p).stop ≤ (mm.span q).start := by
    intro q detached
    rcases mem_cons.mp (split ▸ mem_append_left left detached : q ∈ p :: later) with here | beyond
    · exact .inl here
    · exact .inr ((pairwise_cons.mp fromP).1 q beyond)
  have met : ∀ q ∈ gone, Met start stop (mm.span q) := by
    intro q detached
    have fine := valid.fine q (inList q detached)
    rcases beyondP q detached with here | beyond
    · exact ⟨fine, ⟨taken q detached, here ▸ covered.2⟩, here ▸ oneSided⟩
    · have after := covered.2.trans_le beyond
      exact ⟨fine, ⟨taken q detached, after.trans fine.2.2.2.1⟩, fun both => Nat.lt_asymm after both.1⟩
  refine ⟨links, cache, count, gone.reverse, before ++ left, ran, kept, ⟨?_, ?_, ?_⟩, ?_, ?_⟩
  · exact fun q detached => met q (mem_reverse.mp detached)
  · rw [pairwise_reverse]
    rw [split] at fromP
    exact (pairwise_append.mp fromP).1.imp .inr
  · intro q detached r inside
    have different : q ≠ r := fun clash => kept.notMem (mem_append_left outside detached) (clash ▸ inside)
    refine valid.ordered.apart (inList q (mem_reverse.mp detached)) ?_ different
    rw [listed, split]
    simp only [mem_append] at inside ⊢
    tauto
  · rw [listed, split]
    refine (perm_append_comm_assoc before gone left).trans ?_
    exact (reverse_perm gone).symm.append_right _
  · intro q inside
    rcases mem_append.mp inside with earlier | beyond
    · exact .inl (Nat.le_trans (across q earlier p mem_cons_self) covered.1)
    · exact .inr (spared q beyond)

inductive Unmapped (start stop : Nat) (mm after : MmStruct) : Int → Prop where
  | refused {ret : Int} (failed : ret ≠ 0) (same : ∃ cache, after = { mm with mmapCache := cache }) :
      Unmapped start stop mm after ret
  /-- The search at the start of the range finds nothing. -/
  | missed (nothing : ∀ p ∈ mm.mmapList, ¬ (mm.span p).Covers start) (same : ∃ cache,
      after = { mm with mmapCache := cache }) :
      Unmapped start stop mm after 0
  | holed {p nvma : Ptr} (holed : Holed start stop p nvma mm after) : Unmapped start stop mm after 0
  | trimmed {met left : List Ptr} (trimmed : Trimmed start stop met left mm after) : Unmapped start stop mm after 0

theorem unmapFrom_ends (holding : Holding alloc (alloc.nvma.toList ++ outside) mm) (member : p ∈ mm.mmapList)
    (covered : (mm.span p).Covers start) (range : Fine ⟨start, stop⟩) :
      Ends (Orphan mm.vmas mm.mmapList) (unmapFrom alloc mm p start stop) fun result =>
      Holding alloc outside result.1 ∧ Unmapped start stop mm result.1 result.2 := by
  have rest := holding.drop (sublist_append_right _ _)
  rw [unmapFrom]
  split
  · next inside =>
    rcases unmapInside_spec holding member range inside.1 inside.2 with ⟨_, ran⟩ | ⟨nvma, after, ran, kept, holed⟩
    · exact .of_ok ran ⟨rest, .refused (show -eNoMem ≠ 0 by decide) ⟨mm.mmapCache, rfl⟩⟩
    · exact .of_ok ran ⟨kept, .holed holed⟩
  · next inside =>
    obtain ⟨links, cache, count, met, left, ran, kept, detached, parts, apart⟩ :=
      detachRange_spec rest member covered inside
    apply Ends.bind_ok ran
    refine ((restoreVmas_ends met kept range detached).excuse ?_).bind ?_
    · intro fault ⟨null, q, member, orphan⟩
      exact ⟨null, q, parts.mem_iff.mpr (mem_append_left _ member), orphan⟩
    intro final ⟨finalKept, restored⟩
    have distinct : ∀ q ∈ left, q ∉ met := fun q inLeft inMet => kept.notMem (mem_append_left outside inMet) inLeft
    exact ⟨finalKept, .trimmed ⟨parts, detached.met, apart, fun q inLeft =>
      restored.others q (distinct q inLeft), restored.own, restored.listed, restored.objects,
      restored.pages⟩⟩

theorem Unmapped.recall {cache : Option Ptr} {ret : Int}
    (unmapped : Unmapped start stop { mm with mmapCache := cache } after ret) :
    Unmapped start stop mm after ret := by
  cases unmapped with
  | refused failed same => exact .refused failed same
  | missed nothing same => exact .missed nothing same
  | holed holed =>
    exact .holed { holed with }
  | trimmed trimmed =>
    exact .trimmed { trimmed with }

theorem mmUnmap_ends (addr len : Nat) (holding : Holding alloc (alloc.nvma.toList ++ outside) mm) :
    Ends (Orphan mm.vmas mm.mmapList) (mmUnmap alloc mm addr len) fun result =>
      Holding alloc outside result.1 ∧ Unmapped (roundDown addr) (roundUp (wrap (addr + len))) mm result.1 result.2 := by
  have rest := holding.drop (sublist_append_right _ _)
  rw [mmUnmap]
  by_cases access : UserAccess (roundDown addr) (roundUp (wrap (addr + len)))
  · rw [if_neg (not_not_intro access)]
    obtain ⟨cache, found, ran, valid, answers⟩ := findVma_spec holding.valid (roundDown addr)
    apply Ends.bind_ok ran
    cases found with
    | none => exact ⟨⟨valid, rest.separate⟩, .missed answers ⟨cache, rfl⟩⟩
    | some p =>
      have begins : ¬ roundUp (wrap (addr + len)) ≤ (mm.vmas p).vmStart :=
        Nat.not_le_of_gt (answers.2.1.trans_lt access.2.1)
      have range : Fine ⟨roundDown addr, roundUp (wrap (addr + len))⟩ := ⟨roundDown_aligned _, roundUp_aligned _, access⟩
      dsimp only
      rw [if_neg begins]
      have recalled : Holding alloc (alloc.nvma.toList ++ outside) { mm with mmapCache := cache } :=
        ⟨valid, holding.separate⟩
      refine (unmapFrom_ends recalled answers.1 answers.2 range).mono ?_
      intro result ⟨kept, unmapped⟩
      exact ⟨kept, unmapped.recall⟩
  · rw [if_pos access]
    exact ⟨rest, .refused (show -eInval ≠ 0 by decide) ⟨mm.mmapCache, rfl⟩⟩

theorem Unmapped.clear (unmapped : Unmapped start stop mm after 0) (valid : Valid mm)
    (full : start < stop) (seen : Seen mm start stop) : Clear after start stop := by
  cases unmapped with
  | refused failed => exact absurd rfl failed
  | missed nothing same =>
    obtain ⟨cache, rfl⟩ := same
    exact seen.clear nothing
  | holed holed => exact holed.clear valid full
  | trimmed trimmed => exact trimmed.clear

theorem Valid.grow (valid : Valid mm) (member : p ∈ mm.mmapList) (meets : (mm.vmas p).vmEnd = start)
    (range : Fine ⟨start, stop⟩) (clear : Clear mm start stop) :
    Valid (mm.setVma p { mm.vmas p with vmEnd := stop }) := by
  obtain ⟨_, stopAligned, _, startStop, stopHigh⟩ := range
  have own : (mm.setVma p { mm.vmas p with vmEnd := stop }).span p = ⟨(mm.span p).start, stop⟩ := span_setVma_same _ _ _
  have others : ∀ q, q ≠ p → (mm.setVma p { mm.vmas p with vmEnd := stop }).span q = mm.span q :=
    fun q different => span_setVma_other _ different
  have ending : (mm.span p).stop = start := meets
  have longer := ending ▸ startStop.le
  refine { valid with fine := ?_, ordered := valid.ordered.grow member own others longer (ending ▸ clear) }
  intro q listed
  by_cases here : q = p
  · obtain ⟨firstAligned, _, low, full, _⟩ := valid.fine p member
    rw [here, own]
    exact ⟨firstAligned, stopAligned, low, full.trans_le longer, stopHigh⟩
  · rw [others q here]
    exact valid.fine q listed

theorem brkNew_ends (holding : Holding alloc alloc.vma.toList mm) (range : Fine ⟨start, stop⟩) :
    Ends (fun fault => Overlap fault ∧ ¬ Clear mm start stop) (brkRange.brkNew alloc mm start stop)
    fun result => Valid result.1 := by
  rw [brkRange.brkNew]
  cases given : alloc.vma with
  | none => exact holding.valid
  | some =>
    rw [given] at holding
    exact (insert_created_ends holding range).bind fun after inserted => inserted.1.valid

theorem brkRange_ends {prev : Option Ptr} (holding : Holding alloc alloc.vma.toList mm)
    (answers : Answers mm.span mm.mmapList addr prev) (range : Fine ⟨start, stop⟩)
    (clear : Clear mm start stop) (excused : Fault → Prop) :
    Ends excused (brkRange alloc mm prev start stop) fun result => Valid result.1 := by
  have created : Ends excused (brkRange.brkNew alloc mm start stop) fun result => Valid result.1 :=
    (brkNew_ends holding range).excuse fun _ meets => absurd clear meets.2
  cases prev with
  | none => exact created
  | some =>
    rw [brkRange]
    split
    · next meets => exact holding.valid.grow answers.1 meets.1 range clear
    · exact created

theorem mmBrk_ends (addr len : Nat) (holding : Holding alloc (alloc.nvma.toList ++ alloc.vma.toList)
    mm) (seen : UserAccess (roundDown addr) (roundUp (wrap (addr + len))) →
    Seen mm (roundDown addr) (roundUp (wrap (addr + len)))) :
    Ends NoObject (mmBrk alloc mm addr len) fun result => Valid result.1 := by
  rw [mmBrk]
  by_cases access : UserAccess (roundDown addr) (roundUp (wrap (addr + len)))
  · rw [if_neg (not_not_intro access)]
    have unmapped := (mmUnmap_ends (roundDown addr) (roundUp (wrap (addr + len)) - roundDown addr)
      holding).excuse fun _ => And.left
    rw [roundDown_of_aligned (roundDown_aligned addr), roundUp_of_aligned (roundUp_aligned _)
      (roundUp_lt _) access.2.1.le] at unmapped
    refine unmapped.bind ?_
    intro ⟨after, ret⟩ ⟨kept, result⟩
    dsimp only at kept result ⊢
    split
    · exact kept.valid
    · next failed =>
      obtain ⟨cache, prev, ran, valid, answers⟩ := findVma_spec kept.valid (roundDown addr - 1)
      have range : Fine ⟨roundDown addr, roundUp (wrap (addr + len))⟩ := ⟨roundDown_aligned _, roundUp_aligned _, access⟩
      have recalled : Holding alloc alloc.vma.toList { after with mmapCache := cache } := ⟨valid, kept.separate⟩
      have free : Clear after (roundDown addr) (roundUp (wrap (addr + len))) := by
        rw [not_not.mp failed] at result
        exact result.clear holding.valid access.2.1 (seen access)
      apply Ends.bind_ok ran
      exact brkRange_ends recalled answers range free NoObject
  · rw [if_pos access]
    exact holding.valid

theorem findVmaIntersection_spec (valid : Valid mm) (start stop : Nat) : ∃ cache found,
    findVmaIntersection mm start stop = .ok ({ mm with mmapCache := cache }, found) ∧
    Valid { mm with mmapCache := cache } := by
  obtain ⟨cache, found, ran, kept, _⟩ := findVma_spec valid start
  rw [findVmaIntersection, ran]
  cases found with
  | none => exact ⟨cache, none, rfl, kept⟩
  | some => exact ⟨cache, _, rfl, kept⟩

theorem Valid.settle {newbrk : Nat} (valid : Valid mm) (aligned : newbrk % pgSize = 0) (ret : Int) :
    Valid (if ret ≠ 0 then mm else { mm with brk := newbrk }) := by
  split
  · exact valid
  · exact valid.setBrk aligned

theorem doBrk_ends (brk : Nat) (holding : Holding alloc (alloc.nvma.toList ++ alloc.vma.toList) mm)
    (seen : UserAccess mm.brk (roundUp brk) → Seen mm mm.brk (roundUp brk)) :
      Ends NoObject (doBrk alloc mm brk) fun result => Valid result.1 := by
  have valid := holding.valid
  have aligned := roundUp_aligned brk
  have word := roundUp_lt brk
  rw [doBrk]
  generalize roundUp brk = newbrk at seen aligned word ⊢
  split
  · exact valid
  simp only [ensure_bind, if_pos valid.aligned]
  split
  · exact valid
  split
  · refine ((mmUnmap_ends newbrk (mm.brk - newbrk) holding).excuse fun _ => And.left).bind ?_
    rintro ⟨after, ret⟩ ⟨kept, _⟩
    exact kept.valid.settle aligned ret
  · next smaller =>
    obtain ⟨cache, found, ran, kept⟩ := findVmaIntersection_spec valid mm.brk (wrap (newbrk + pgSize))
    apply Ends.bind_ok ran
    cases found with
    | some => exact kept
    | none =>
      have recalled : Holding alloc (alloc.nvma.toList ++ alloc.vma.toList)
        { mm with mmapCache := cache } := ⟨kept, holding.separate⟩
      have grown := mmBrk_ends mm.brk (newbrk - mm.brk) recalled
      rw [roundDown_of_aligned valid.aligned, roundUp_of_aligned aligned word (not_lt.mp smaller)] at grown
      refine (grown seen).bind ?_
      rintro ⟨after, ret⟩ kept
      exact Valid.settle kept aligned ret

/-- The areas as the list shows them. -/
structure Sound (mm : MmStruct) : Prop where
  pages : ∀ p ∈ mm.mmapList, (mm.vmas p).vmStart < (mm.vmas p).vmEnd ∧
    (mm.vmas p).vmStart % pgSize = 0 ∧ (mm.vmas p).vmEnd % pgSize = 0 ∧
    userBase ≤ (mm.vmas p).vmStart ∧ (mm.vmas p).vmEnd ≤ userTop
  sorted : mm.mmapList.Pairwise fun p q => (mm.vmas p).vmStart < (mm.vmas q).vmStart
  disjoint : mm.mmapList.Pairwise fun p q => (mm.vmas p).vmEnd ≤ (mm.vmas q).vmStart ∨
    (mm.vmas q).vmEnd ≤ (mm.vmas p).vmStart

theorem Valid.sound (valid : Valid mm) : Sound mm := by
  refine ⟨?_, valid.ordered.starts, valid.ordered.ascending.imp .inl⟩
  intro p member
  obtain ⟨firstAligned, lastAligned, low, full, high⟩ := valid.fine p member
  exact ⟨full, firstAligned, lastAligned, low, high⟩

theorem Holding.of_fresh (valid : Valid mm) (fresh : (alloc.ptrs ++ (outside ++ mm.inUse)).Nodup) :
    Holding alloc (alloc.nvma.toList ++ alloc.vma.toList ++ outside) mm := by
  refine ⟨valid, ?_⟩
  rw [Alloc.ptrs, MmStruct.inUse] at fresh
  rw [MmStruct.headers]
  generalize alloc.nvma.toList ++ alloc.vma.toList = areas at fresh ⊢
  cases built : mm.mmapTree with
  | some tree =>
    simp only [built, some_or] at fresh ⊢
    have fewer : (areas ++ (outside ++ ([tree.nil, tree.root] ++ mm.mmapList))).Nodup :=
      fresh.sublist ((sublist_append_left areas _).append (List.Sublist.refl _))
    refine (List.Perm.nodup_iff ?_).mp fewer
    rw [← append_assoc]
    exact perm_append_comm_assoc _ _ _
  | none =>
    simp only [built, none_or, append_assoc] at fresh ⊢
    have moved := (perm_append_comm_assoc _ _ _).nodup_iff.mp fresh
    cases given : alloc.tree with
    | none =>
      rwa [given] at moved
    | some =>
      rwa [given] at moved

theorem holding_of_allowed {op : Op} (valid : Valid mm) (allowed : Allowed mm op) :
    Holding op.alloc (op.alloc.nvma.toList ++ op.alloc.vma.toList) mm := by
  have holding := Holding.of_fresh valid (show (op.alloc.ptrs ++ ([] ++ mm.inUse)).Nodup from allowed)
  rwa [append_nil] at holding

theorem step_ends (mm : MmStruct) (op : Op) (valid : Valid mm) (allowed : Allowed mm op)
    (visible : Visible mm op) : Ends NoObject (step mm op) fun result => Valid result.1 := by
  have holding := holding_of_allowed valid allowed
  have one := holding.drop (sublist_append_right _ _)
  obtain ⟨call, alloc⟩ := op
  cases call with
  | map addr len flags =>
    exact ((mmMap_ends addr len flags one).excuse fun _ unseen => absurd visible unseen.2).bind
      fun _ outcome => outcome.valid
  | mapShmem addr flags shmem =>
    exact mmMapShmem_ends addr flags shmem one visible NoObject
  | unmap addr len => exact ((mmUnmap_ends addr len holding).excuse fun _ => And.left).mono fun _ result => result.1.valid
  | brk addr len => exact mmBrk_ends addr len holding visible
  | doBrk brk => exact doBrk_ends brk holding visible
  | loadBrk top => exact valid.setBrk (roundUp_aligned top)

theorem valid_start (begins : machine.start mm) : Valid mm := by
  obtain ⟨memory, rfl⟩ := begins
  exact ⟨by simp [mmCreate], .nil, rfl, by simp [mmCreate], by simp [mmCreate], rfl⟩

/-- When every call sees the areas in the range it maps, the areas stay sound and
no assertion fails; only a shared area without an object can stop a call. -/
theorem areas_sound_when_visible (mm : (machine.restrict Visible).Reached) : Sound mm ∧ ∀ op,
    (machine.restrict Visible).allowed mm op → Ends NoObject (machine.step mm op) fun result => Sound result.1 := by
  have safe : (machine.restrict Visible).SafeExcept NoObject Sound := Machine.safeExcept_of_invariant (fun _ => valid_start)
      (fun mm op valid allowed => step_ends mm op valid allowed.1 allowed.2) fun _ => Valid.sound
  exact safe mm mm.2

/-- Mapping a range that runs into an area above its start stops the kernel. -/
theorem map_below_an_area_stops : ∃ mm op, machine.Reachable mm ∧ machine.allowed mm op ∧
    machine.step mm op = .error (.assertion "prev->vm_end <= next->vm_start") := by
  have created : machine.Run [] (mmCreate ⟨fun _ => ⟨0, 0, 0, none, 0⟩, fun _ => ⟨false, 0, 0, 0⟩,
    fun _ => ⟨0, 0, 0⟩, fun _ => 0, [], none, none, 0, 0, 0⟩) := .start ⟨_, rfl⟩
  have first := created.next ⟨.map 0x400000 0x1000 vmRead, ⟨none, some 1, none⟩⟩ (show Allowed _ _ by decide) rfl
  exact ⟨_, ⟨.map 0x3ff000 0x2000 vmRead, ⟨none, some 2, none⟩⟩, ⟨_, first⟩, show Allowed _ _ by decide, rfl⟩

/-- What an operation does to the list and to the areas, and what a lookup answers. -/
def AreaOp.Does (mm : MmStruct) : AreaOp → MmStruct × Option Ptr → Prop
  | .insert _ p vma, (after, _) => (∀ q, q ∈ after.mmapList ↔ q = p ∨ q ∈ mm.mmapList) ∧ after.vmas = update mm.vmas p vma
  | .remove p, (after, _) => (∀ q, q ∈ after.mmapList ↔ q ≠ p ∧ q ∈ mm.mmapList) ∧ after.vmas = mm.vmas
  | .resize p start stop, (after, _) =>
    after.mmapList = mm.mmapList ∧ after.vmas = update mm.vmas p ((mm.vmas p).resized start stop)
  | .find addr, (after, found) => after.mmapList = mm.mmapList ∧ after.vmas = mm.vmas ∧
    ∀ p, found = some p ↔ p ∈ mm.mmapList ∧ (mm.span p).Covers addr

theorem Arranged.step {op : AreaOp} (arranged : Arranged mm) (allowed : op.Allowed mm) :
    Ends (fun _ => False) (areas.step mm op) fun result => Arranged result.1 ∧ op.Does mm result := by
  cases op with
  | insert alloc p vma =>
    obtain ⟨separate, full, apart⟩ := allowed
    have same := span_setVma_unlisted (separate.notMem mem_cons_self) vma
    have written : Arranged (mm.setVma p vma) := { arranged with ordered := arranged.ordered.congr same }
    have inserted := written.insert separate (by rwa [span_setVma_same])
    refine (inserted.excuse ?_).bind ?_
    · rintro fault ⟨_, overlaps⟩
      refine overlaps fun q member => ?_
      rw [span_setVma_same, same q member]
      exact apart q member
    · rintro _ ⟨links, tree, before, later, listed, rfl, kept, _⟩
      refine ⟨kept, fun q => ?_, rfl⟩
      rw [show mm.mmapList = before ++ later from listed]
      exact perm_middle.mem_iff.trans mem_cons
  | remove p =>
    obtain ⟨before, later, listed⟩ := append_of_mem allowed
    obtain ⟨links, cache, ran, kept⟩ := arranged.remove listed
    refine .bind_ok ran ⟨kept, fun q => ?_, rfl⟩
    have once := nodup_cons.mp (nodup_middle.mp (listed ▸ arranged.ordered.nodup))
    rw [listed, perm_middle.mem_iff, mem_cons]
    constructor
    · exact fun member => ⟨fun same => once.1 (same ▸ member), .inr member⟩
    · exact fun ⟨other, member⟩ => member.resolve_left other
  | resize p start stop =>
    obtain ⟨first, last, within⟩ := allowed
    have shrunk := span_setVma_within arranged.ordered (show ((mm.vmas p).resized start stop).span.Within _ from within)
    exact .bind_ok (vmaResize_ok first last within) ⟨{ arranged with ordered := arranged.ordered.shrink shrunk }, rfl, rfl⟩
  | find addr =>
    obtain ⟨cache, found, ran, kept, answers⟩ := arranged.findVma addr
    refine .of_ok ran ⟨kept, rfl, rfl, fun p => ?_⟩
    cases found with
    | none => exact iff_of_false nofun fun both => answers p both.1 both.2
    | some q =>
      constructor
      · rintro ⟨⟩
        exact answers
      · intro ⟨member, covers⟩
        rw [arranged.ordered.unique member answers.1 covers answers.2]

theorem lookups_agree : areas.ConformsExcept (fun _ => False) Arranged fun mm op result => op.Does mm result := by
  refine Machine.conformsExcept_of_invariant (show ∀ mm, _ → Arranged mm from ?_) (fun _ _ => Arranged.step) fun _ => id
  rintro _ ⟨fresh, rfl⟩
  exact ⟨⟨nofun, .nil⟩, rfl, nofun, nofun⟩

end Ucore.Vmm
