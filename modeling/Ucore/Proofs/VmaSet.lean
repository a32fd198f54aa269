import Ucore.Vmm
import Ucore.Proofs.RbOrder

/-! The set of areas of an address space. The list is ordered and free of overlap,
the tree lists the same areas, and the searches, the insertion and the removal of
an area are specified against the list alone. -/

namespace Ucore.Vmm
open Lib RbTree Lib.LinkedTree List

def Fine (span : Span) : Prop :=
  span.start % pgSize = 0 ∧ span.stop % pgSize = 0 ∧ UserAccess span.start span.stop
deriving Decidable

/-- The tree holds the areas of the list, in the order of the list. -/
def Indexed (links : RbTree.Heap) (tree : Header) (owners : List Ptr) : Prop :=
  ∃ shape height, Holds links tree.nil tree.root shape ∧ Balanced false height shape ∧ shape.toList = owners

structure Valid (mm : MmStruct) : Prop where
  fine : ∀ p ∈ mm.mmapList, Fine (mm.span p)
  ordered : Span.Ordered mm.span mm.mmapList
  counted : mm.mapCount = mm.mmapList.length
  cached : ∀ p, mm.mmapCache = some p → p ∈ mm.mmapList
  indexed : ∀ tree, mm.mmapTree = some tree → Indexed mm.links tree mm.mmapList
  aligned : mm.brk % pgSize = 0

/-- The searches and the changes of the list need no more than this. -/
structure Arranged (mm : MmStruct) : Prop where
  ordered : Span.Ordered mm.span mm.mmapList
  counted : mm.mapCount = mm.mmapList.length
  cached : ∀ p, mm.mmapCache = some p → p ∈ mm.mmapList
  indexed : ∀ tree, mm.mmapTree = some tree → Indexed mm.links tree mm.mmapList

def Answers (span : Ptr → Span) (owners : List Ptr) (addr : Nat) : Option Ptr → Prop
  | some p => p ∈ owners ∧ (span p).Covers addr
  | none => ∀ p ∈ owners, ¬ (span p).Covers addr

variable {mm : MmStruct} {tree : Header} {p : Ptr} {owners : List Ptr} {links : RbTree.Heap} {before later : List Ptr}

theorem Valid.arranged (valid : Valid mm) : Arranged mm := { valid with }

theorem findVmaRb_spec {nil root : Ptr} (addr fuel : Nat) {frames : List (Frame Ptr)} {tree : LinkedTree.Tree Ptr}
    (focus : Focus mm.links nil root frames tree) (ordered : Span.Ordered mm.span tree.toList)
      (enough : tree.toList.length < fuel) :
    ∃ found, findVmaRb ⟨nil, root⟩ mm addr fuel (tree.ptr nil) = .ok found ∧ Answers mm.span tree.toList addr found := by
  induction fuel generalizing frames tree with
  | zero => omega
  | succ fuel ih =>
    cases tree with
    | leaf => exact ⟨none, by simp [findVmaRb, pure, Except.pure], by simp [Answers, Tree.toList]⟩
    | node color left p right =>
      have present : p ≠ nil := fun same => focus.nil_notMem (by simp [same, Tree.toList])
      have atLeft : Focus mm.links nil root (⟨.left, color, p, right⟩ :: frames) left := focus.refocus rfl
      have atRight : Focus mm.links nil root (⟨.right, color, p, left⟩ :: frames) right := focus.refocus rfl
      obtain ⟨_, _, near, far, _, _⟩ := focus.linked
      simp only [Tree.toList, length_append, length_cons] at enough
      obtain ⟨_, rest, across⟩ := pairwise_append.mp ordered.ascending
      obtain ⟨beyond, _⟩ := pairwise_cons.mp rest
      rw [Tree.ptr, findVmaRb, if_neg present, near, far]
      split
      · next below =>
        by_cases inside : (mm.vmas p).vmStart ≤ addr
        · rw [if_pos inside]
          exact ⟨some p, rfl, by simp [Tree.toList], inside, below⟩
        -- Everything on the right starts even later.
        rw [if_neg inside]
        obtain ⟨found, ran, answers⟩ := ih atLeft (ordered.sublist (sublist_append_left _ _)) (by omega)
        refine ⟨found, ran, ?_⟩
        cases found with
        | some => exact ⟨by simp [Tree.toList, answers.1], answers.2⟩
        | none =>
          intro q member covered
          simp only [Tree.toList, mem_append, mem_cons] at member
          rcases member with member | rfl | member
          · exact answers q member covered
          · exact inside covered.1
          · have later := beyond q member
            exact inside (Nat.le_trans (Nat.le_of_lt (ordered.full p (by simp [Tree.toList]))) (later.trans covered.1))
      · next below =>
        have sub : right.toList.Sublist (left.toList ++ p :: right.toList) :=
          (sublist_cons_self p _).trans (sublist_append_right _ _)
        obtain ⟨found, ran, answers⟩ := ih atRight (ordered.sublist sub) (by omega)
        refine ⟨found, ran, ?_⟩
        cases found with
        | some => exact ⟨by simp [Tree.toList, answers.1], answers.2⟩
        | none =>
          intro q member covered
          simp only [Tree.toList, mem_append, mem_cons] at member
          rcases member with member | rfl | member
          · have earlier := across q member p (by simp)
            have full := ordered.full p (by simp [Tree.toList])
            exact below (covered.2.trans_le (earlier.trans full.le))
          · exact below covered.2
          · exact answers q member covered

theorem searchVma_spec (arranged : Arranged mm) (addr : Nat) : ∃ found,
    searchVma mm addr = .ok found ∧ Answers mm.span mm.mmapList addr found := by
  cases built : mm.mmapTree with
  | none =>
    refine ⟨mm.mmapList.find? fun p => decide ((mm.span p).Covers addr), by rw [searchVma, built]; rfl, ?_⟩
    cases found : mm.mmapList.find? fun p => decide ((mm.span p).Covers addr) with
    | none =>
      intro p member
      simpa using find?_eq_none.mp found p member
    | some => exact ⟨mem_of_find?_eq_some found, by simpa using find?_some found⟩
  | some tree =>
    obtain ⟨shape, height, holds, _, listed⟩ := arranged.indexed tree built
    have focus : Focus mm.links tree.nil tree.root [] shape := holds_plug.mp holds
    obtain ⟨found, ran, answers⟩ := findVmaRb_spec addr mm.fuel focus (listed ▸ arranged.ordered)
      (by rw [listed, MmStruct.fuel, arranged.counted]; omega)
    refine ⟨found, ?_, listed ▸ answers⟩
    rw [searchVma, built]
    dsimp only
    rwa [holds.top]

theorem Arranged.findVma (arranged : Arranged mm) (addr : Nat) : ∃ cache found, findVma mm addr = .ok
    ({ mm with mmapCache := cache }, found) ∧ Arranged { mm with mmapCache := cache } ∧
    Answers mm.span mm.mmapList addr found := by
  have looked : ∃ found, lookupVma mm addr = .ok found ∧ Answers mm.span mm.mmapList addr found := by
    cases remembered : mm.mmapCache with
    | none =>
      rw [lookupVma, remembered]
      exact searchVma_spec arranged addr
    | some p =>
      simp only [lookupVma, remembered]
      by_cases covered : (mm.span p).Covers addr
      · exact ⟨some p, if_pos covered, arranged.cached p remembered, covered⟩
      · rw [if_neg covered]
        exact searchVma_spec arranged addr
  obtain ⟨found, ran, answers⟩ := looked
  cases found with
  | none => exact ⟨mm.mmapCache, none, by rw [Vmm.findVma, ran]; rfl, arranged, answers⟩
  | some p =>
    refine ⟨some p, some p, by rw [Vmm.findVma, ran]; rfl, ?_, answers⟩
    refine { arranged with cached := ?_ }
    intro q same
    cases same
    exact answers.1

theorem findVma_spec (valid : Valid mm) (addr : Nat) : ∃ cache found, findVma mm addr = .ok
    ({ mm with mmapCache := cache }, found) ∧ Valid { mm with mmapCache := cache } ∧
    Answers mm.span mm.mmapList addr found := by
  obtain ⟨cache, found, ran, arranged, answers⟩ := valid.arranged.findVma addr
  exact ⟨cache, found, ran, { valid with cached := arranged.cached }, answers⟩

theorem vmaCompare_le (vmas : Ptr → Vma) (a b : Ptr) : vmaCompare vmas a b ≤ 0 ↔ (vmas a).vmStart ≤ (vmas b).vmStart := by
  rw [vmaCompare]
  split
  · omega
  · split <;> omega

theorem vmaCompare_lawful (vmas : Ptr → Vma) : Lawful (vmaCompare vmas) := by
  constructor
  · intro a b
    simp only [vmaCompare]
    split <;> split <;> omega
  · intro a b c
    simp only [vmaCompare_le]
    exact Nat.le_trans

theorem sorted_of_ordered (ordered : Span.Ordered mm.span owners) :
    Sorted (vmaCompare mm.vmas) owners := ordered.starts.imp fun less => (vmaCompare_le _ _ _).mpr
    (Nat.le_of_lt less)

/-- A place in the list for an area that starts at `start`. -/
structure Cut (span : Ptr → Span) (start : Nat) (owners before later : List Ptr) : Prop where
  whole : owners = before ++ later
  lower : ∀ p ∈ before, (span p).start ≤ start
  upper : ∀ p ∈ later, start ≤ (span p).start

theorem lastNotAfter_spec (start : Nat) (ordered : Span.Ordered mm.span owners) (prev : Option Ptr) :
    ∃ before later, lastNotAfter mm.vmas start owners prev = before.getLast?.or prev ∧
    Cut mm.span start owners before later := by
  induction owners generalizing prev with
  | nil => exact ⟨[], [], rfl, rfl, by simp, by simp⟩
  | cons p rest ih =>
    rw [lastNotAfter]
    by_cases after : (mm.vmas p).vmStart > start
    · refine ⟨[], p :: rest, by rw [if_pos after]; rfl, rfl, by simp, ?_⟩
      have starts := (pairwise_cons.mp ordered.starts).1
      have own := after
      intro q member
      rcases mem_cons.mp member with rfl | member
      · exact own.le
      · exact Nat.le_of_lt (own.trans (starts q member))
    · obtain ⟨before, later, ran, cut⟩ := ih (ordered.sublist (sublist_cons_self p rest)) (some p)
      refine ⟨p :: before, later, ?_, by rw [cut.whole]; rfl, ?_, cut.upper⟩
      · rw [if_neg after, ran, getLast?_cons]
        cases before.getLast? <;> rfl
      · exact forall_mem_cons.mpr ⟨not_lt.mp after, cut.lower⟩

theorem insertRb_spec {fuel : Nat} (indexed : Indexed links tree owners) (ordered : Span.Ordered mm.span owners)
    (fresh : p ∉ tree.nil :: tree.root :: owners) (enough : owners.length < fuel) :
      ∃ after before later, RbTree.insert (vmaCompare mm.vmas) tree fuel p links = .ok after ∧
      Cut mm.span (mm.span p).start owners before later ∧ Indexed after tree (before ++ p :: later) := by
  obtain ⟨shape, height, holds, balanced, rfl⟩ := indexed
  obtain ⟨after, final, path, total, ran, held, whole, rfl, searched, order⟩ :=
    insert_spec (vmaCompare mm.vmas) holds balanced fresh enough
  obtain ⟨lower, upper⟩ := searched_bounds (vmaCompare_lawful mm.vmas) searched (sorted_of_ordered ordered)
  refine ⟨after, lefts path, rights path, ran, ⟨?_, ?_, ?_⟩, final, total, held, whole, order⟩
  · rw [toList_plug]
    rfl
  · exact fun q member => (vmaCompare_le _ _ _).mp (lower q member)
  · exact fun q member => (vmaCompare_le _ _ _).mp (upper q member)

theorem insertVmaRb_spec (indexed : Indexed mm.links tree mm.mmapList)
    (ordered : Span.Ordered mm.span mm.mmapList) (counted : mm.mapCount = mm.mmapList.length)
    (fresh : p ∉ tree.nil :: tree.root :: mm.mmapList) : ∃ links before later,
      insertVmaRb mm tree p = .ok (links, before.getLast?) ∧
      Cut mm.span (mm.span p).start mm.mmapList before later ∧ Indexed links tree
      (before ++ p :: later) := by
  have room : mm.mmapList.length + 1 < mm.fuel := by
    rw [MmStruct.fuel]
    omega
  obtain ⟨links, before, later, ran, cut, final⟩ := insertRb_spec indexed ordered fresh (Nat.lt_of_succ_lt room)
  obtain ⟨shape, height, holds, balanced, listed⟩ := final
  have size : shape.toList.length < mm.fuel := by
    rw [listed]
    rw [cut.whole] at room
    simp only [length_append, length_cons] at room ⊢
    omega
  have previous := predecessor_spec holds listed size
  refine ⟨links, before, later, ?_, cut, shape, height, holds, balanced, listed⟩
  rw [insertVmaRb, ran]
  simp only [bind, Except.bind, previous, pure, Except.pure]
  cases last : before.getLast? with
  | none => simp
  | some q =>
    have notNil : q ≠ tree.nil := by
      intro same
      have member : q ∈ shape.toList := by
        rw [listed]
        exact mem_append_left _ (mem_of_getLast? last)
      exact (nodup_cons.mp holds.distinct).1 (mem_cons_of_mem _ (same ▸ member))
    simp [notNil]

theorem placeVma_spec (arranged : Arranged mm) (fresh : p ∉ mm.inUse) : ∃ links before later,
    placeVma mm p = .ok (links, before.getLast?) ∧ Cut mm.span (mm.span p).start mm.mmapList before
    later ∧
      ∀ tree, mm.mmapTree = some tree → Indexed links tree (before ++ p :: later) := by
  rw [MmStruct.inUse] at fresh
  cases built : mm.mmapTree with
  | none =>
    obtain ⟨before, later, ran, cut⟩ := lastNotAfter_spec (mm.vmas p).vmStart arranged.ordered none
    refine ⟨mm.links, before, later, ?_, cut, by simp⟩
    rw [placeVma, built]
    rw [ran, Option.or_none]
    rfl
  | some tree =>
    simp only [built] at fresh
    obtain ⟨links, before, later, ran, cut, indexed⟩ :=
      insertVmaRb_spec (arranged.indexed tree built) arranged.ordered arranged.counted fresh
    refine ⟨links, before, later, ?_, cut, ?_⟩
    · rwa [placeVma, built]
    · intro other same
      cases same
      exact indexed

/-- The assertion that stops a call whose range runs into an area above its start. -/
def Overlap (fault : Fault) : Prop := fault = .assertion "prev->vm_end <= next->vm_start"

theorem checkVmaOverlap_ends {prev next : Vma} (first : prev.vmStart < prev.vmEnd) (second : next.vmStart < next.vmEnd) :
    Ends (fun fault => Overlap fault ∧ ¬ prev.vmEnd ≤ next.vmStart) (checkVmaOverlap prev next)
      fun _ => prev.vmEnd ≤ next.vmStart := by
  simp only [checkVmaOverlap, ensure_bind, if_pos first]
  split
  · next apart => exact .of_ok (if_pos second) apart
  · next apart => exact ⟨rfl, apart⟩

theorem unlessHead_ends {place : Option Ptr} {check : Ptr → Kernel Unit} {excused : Ptr → Fault →
    Prop} {passed : Ptr → Prop} (checks : ∀ q, place = some q → Ends (excused q) (check q) fun _ =>
      passed q) :
    Ends (fun fault => ∃ q, place = some q ∧ excused q fault) (unlessHead place check) fun _ => ∀ q,
      place = some q → passed q := by
  cases place with
  | none => exact fun q none => by cases none
  | some q =>
    refine ((checks q rfl).excuse fun fault failed => ⟨q, rfl, failed⟩).mono ?_
    intro _ holds r same
    cases same
    exact holds

/-- The checks against the neighbours of a place rule out every overlap, and fail only if there is
one. -/
theorem checkNeighbours_ends (ordered : Span.Ordered mm.span owners)
    (cut : Cut mm.span (mm.span p).start owners before later)
    (full : (mm.span p).start < (mm.span p).stop) :
    Ends (fun fault => Overlap fault ∧ ¬ ∀ q ∈ owners, (mm.span p).Apart (mm.span q))
      (checkNeighbours mm p before.getLast? later.head?) fun _ => ∀ q ∈ owners, (mm.span p).Apart
      (mm.span q) := by
  obtain ⟨rfl, lower, upper⟩ := cut
  obtain ⟨ascendingBefore, ascendingLater, _⟩ := pairwise_append.mp ordered.ascending
  have first := unlessHead_ends fun q last =>
      checkVmaOverlap_ends (ordered.full q (mem_append_left _ (mem_of_getLast? last))) full
  have second := unlessHead_ends fun q head =>
      checkVmaOverlap_ends full (ordered.full q (mem_append_right _ (mem_of_head? head)))
  refine (first.excuse ?_).bind fun _ below => (second.excuse ?_).mono fun _ above => ?_
  · rintro fault ⟨q, last, overlap, meets⟩
    refine ⟨overlap, fun apart => ?_⟩
    have member := mem_of_getLast? last
    rcases apart q (mem_append_left _ member) with before | after
    · exact Nat.not_le_of_gt full (before.trans (lower q member))
    · exact meets after
  · rintro fault ⟨q, head, overlap, meets⟩
    refine ⟨overlap, fun apart => ?_⟩
    have member := mem_append_right before (mem_of_head? head)
    rcases apart q member with before | after
    · exact meets before
    · exact Nat.not_le_of_gt (ordered.full q member) (after.trans (upper q (mem_of_head? head)))
  intro q member
  rcases mem_append.mp member with earlier | beyond
  · right
    have last := getLast?_eq_some_getLast (ne_nil_of_mem earlier)
    have bound := below _ last
    rcases eq_or_ne q (before.getLast (ne_nil_of_mem earlier)) with same | different
    · rwa [same]
    have split := dropLast_concat_getLast (ne_nil_of_mem earlier)
    rw [← split, pairwise_append] at ascendingBefore
    rw [← split, mem_append, mem_singleton, or_iff_left different] at earlier
    have less := ascendingBefore.2.2 q earlier _ (mem_singleton_self _)
    have inside := ordered.full _ (mem_append_left later (mem_of_getLast? last))
    exact less.trans (inside.le.trans bound)
  · left
    cases later with
    | nil => cases beyond
    | cons head =>
      have bound := above head rfl
      rcases mem_cons.mp beyond with rfl | deeper
      · exact bound
      · have inside := ordered.full head (by simp)
        exact bound.trans (inside.le.trans ((pairwise_cons.mp ascendingLater).1 q deeper))

theorem indexed_create (different : tree.nil ≠ tree.root) :
    Indexed (treeCreate links tree.nil tree.root) tree [] :=
    ⟨.leaf, 0, holds_create different, .leaf, rfl⟩

theorem insertAll_spec (inserted rest : List Ptr) (indexed : Indexed links tree inserted)
    (ordered : Span.Ordered mm.span (inserted ++ rest))
    (distinct : (tree.nil :: tree.root :: (inserted ++ rest)).Nodup)
      (enough : (inserted ++ rest).length < mm.fuel) : ∃ after, insertAll mm tree rest links =
      .ok after ∧ Indexed after tree (inserted ++ rest) := by
  induction rest generalizing inserted links with
  | nil => exact ⟨links, rfl, by rwa [append_nil]⟩
  | cons p rest ih =>
    have fresh : p ∉ tree.nil :: tree.root :: inserted := by
      have order := @perm_middle _ p (tree.nil :: tree.root :: inserted) rest
      have absent := (nodup_cons.mp (order.nodup_iff.mp distinct)).1
      intro member
      apply absent
      simp only [mem_cons, mem_append] at member ⊢
      tauto
    have lowerPart := ordered.sublist (sublist_append_left inserted (p :: rest))
    have size : inserted.length < mm.fuel := by
      simp only [length_append, length_cons] at enough
      omega
    obtain ⟨after, before, later, ran, cut, indexed⟩ := insertRb_spec indexed lowerPart fresh size
    have none : later = [] := by
      apply eq_nil_iff_forall_not_mem.mpr
      intro q member
      have inside : q ∈ inserted := by
        rw [cut.whole]
        exact mem_append_right _ member
      have less := (pairwise_append.mp ordered.starts).2.2 q inside p (by simp)
      exact lt_irrefl _ (less.trans_le (cut.upper q member))
    have all : before ++ p :: later = inserted ++ [p] := by rw [cut.whole, none, append_nil]
    rw [all] at indexed
    rw [append_cons] at ordered distinct enough ⊢
    obtain ⟨final, finished, indexed⟩ := ih (inserted ++ [p]) indexed ordered distinct enough
    refine ⟨final, ?_, indexed⟩
    rwa [insertAll, ran]

theorem buildTree_spec (ordered : Span.Ordered mm.span mm.mmapList)
    (counted : mm.mapCount = mm.mmapList.length)
    (distinct : (mm.headers alloc ++ mm.mmapList).Nodup)
    (indexed : ∀ tree, mm.mmapTree = some tree → Indexed mm.links tree mm.mmapList) : ∃ links tree,
      buildTree alloc mm = .ok { mm with links, mmapTree := tree } ∧
      tree.or alloc.tree = mm.mmapTree.or alloc.tree ∧ ∀ header, tree = some header → Indexed links header mm.mmapList := by
  have idle : ∃ links tree, (.ok mm : Kernel MmStruct) = .ok { mm with links, mmapTree := tree } ∧
      tree.or alloc.tree = mm.mmapTree.or alloc.tree ∧ ∀ header, tree = some header →
        Indexed links header mm.mmapList := ⟨mm.links, mm.mmapTree, rfl, rfl, indexed⟩
  rw [buildTree]
  split
  · next due =>
    cases given : alloc.tree with
    | none =>
      rwa [given] at idle
    | some tree =>
      rw [MmStruct.headers, due.1, given] at distinct
      have different : tree.nil ≠ tree.root := by
        intro same
        simp [same] at distinct
      have size : ([] ++ mm.mmapList).length < mm.fuel := by
        rw [MmStruct.fuel, nil_append]
        omega
      obtain ⟨links, ran, indexed⟩ := insertAll_spec [] mm.mmapList (indexed_create different) ordered distinct size
      refine ⟨links, some tree, ?_, by rw [due.1]; rfl, ?_⟩
      · dsimp only
        rw [ran]
        rfl
      · intro header same
        cases same
        exact indexed
  · exact idle

/-- The address space and some areas that are not in its list, all in separate memory. -/
structure Holding (alloc : Alloc) (outside : List Ptr) (mm : MmStruct) : Prop where
  valid : Valid mm
  separate : (mm.headers alloc ++ (outside ++ mm.mmapList)).Nodup

variable {alloc : Alloc} {outside : List Ptr}

theorem Holding.drop {fewer : List Ptr} (holding : Holding alloc outside mm)
    (sub : fewer.Sublist outside) : Holding alloc fewer mm :=
    ⟨holding.valid, holding.separate.sublist
    ((List.Sublist.refl _).append (sub.append (List.Sublist.refl _)))⟩

theorem Separate.notMem (separate : Separate alloc outside mm) (member : p ∈ outside) : p ∉ mm.mmapList := by
  obtain ⟨_, rest, _⟩ := nodup_append.mp separate
  exact fun inside => (nodup_append.mp rest).2.2 p member p inside rfl

theorem Holding.notMem (holding : Holding alloc outside mm) (member : p ∈ outside) :
    p ∉ mm.mmapList := Separate.notMem holding.separate member

theorem Separate.fresh (separate : Separate alloc outside mm) (member : p ∈ outside) : p ∉ mm.inUse := by
  have absent := separate.notMem member
  have apart := (nodup_append.mp separate).2.2
  rw [MmStruct.headers] at apart
  rw [MmStruct.inUse]
  cases built : mm.mmapTree with
  | none => exact absent
  | some tree =>
    simp only [built, Option.some_or] at apart
    simp only [mem_cons, not_or]
    refine ⟨?_, ?_, absent⟩
    · exact fun same => apart tree.nil (by simp) p (by simp [member]) same.symm
    · exact fun same => apart tree.root (by simp) p (by simp [member]) same.symm

theorem Arranged.insert (arranged : Arranged mm) (separate : Separate alloc (p :: outside) mm)
    (full : (mm.span p).start < (mm.span p).stop) :
    Ends (fun fault => Overlap fault ∧ ¬ ∀ q ∈ mm.mmapList, (mm.span p).Apart (mm.span q))
      (insertVmaStruct alloc mm p) fun after =>
      ∃ links tree before later, mm.mmapList = before ++ later ∧
        after = { mm with links, mmapTree := tree, mmapList := before ++ p :: later, mapCount := mm.mapCount + 1 } ∧
        Arranged after ∧ Separate alloc outside after := by
  obtain ⟨links, before, later, placed, cut, indexed⟩ := placeVma_spec arranged (separate.fresh mem_cons_self)
  have distinct := (cut.whole ▸ arranged.ordered.nodup).sublist (sublist_append_left before later)
  have next : Ring.next mm.mmapList before.getLast? = later.head? := by
    rw [cut.whole]
    exact Ring.next_cut distinct
  have added : Ring.addAfter mm.mmapList before.getLast? p = before ++ p :: later := by
    rw [cut.whole]
    exact Ring.addAfter_cut p distinct
  rw [insertVmaStruct, ensure_bind, if_pos (show (mm.vmas p).vmStart < (mm.vmas p).vmEnd from full), placed]
  refine .bind_ok rfl ?_
  dsimp only
  rw [next, added]
  refine (checkNeighbours_ends arranged.ordered cut full).bind fun _ apart => ?_
  have ordered : Span.Ordered mm.span (before ++ p :: later) := by
    rw [cut.whole] at apart
    exact (cut.whole ▸ arranged.ordered).insert full apart cut.lower cut.upper
  have moved : Separate alloc outside { mm with mmapList := before ++ p :: later } := by
    refine (List.Perm.nodup_iff ?_).mp separate
    rw [cut.whole]
    apply List.Perm.append_left
    refine perm_middle.symm.trans ?_
    exact List.Perm.append_left _ perm_middle.symm
  obtain ⟨linked, linkedIs⟩ :=
    @exists_eq _ ({ mm with links, mmapList := before ++ p :: later, mapCount := mm.mapCount + 1 })
  have counted : linked.mapCount = linked.mmapList.length := by
    rw [linkedIs]
    simp only [arranged.counted, cut.whole, length_append, length_cons]
    omega
  have apart : (linked.headers alloc ++ linked.mmapList).Nodup := by
    rw [linkedIs]
    exact moved.sublist ((List.Sublist.refl _).append (sublist_append_right _ _))
  obtain ⟨final, tree, built, same, indexed⟩ := buildTree_spec (linkedIs ▸ ordered) counted apart (linkedIs ▸ indexed)
  rw [linkedIs] at built same counted indexed
  refine .of_ok built ⟨final, tree, before, later, cut.whole, rfl, ⟨ordered, counted, ?_, indexed⟩, ?_⟩
  · intro q remembered
    have member := arranged.cached q remembered
    rw [cut.whole] at member
    exact perm_middle.mem_iff.mpr (mem_cons_of_mem p member)
  · rw [Separate, MmStruct.headers] at moved ⊢
    rwa [same]

theorem insertVmaStruct_ends (holding : Holding alloc (p :: outside) mm) (fine : Fine (mm.span p)) :
    Ends (fun fault => Overlap fault ∧ ¬ ∀ q ∈ mm.mmapList, (mm.span p).Apart (mm.span q))
    (insertVmaStruct alloc mm p) fun after =>
      ∃ links tree before later, mm.mmapList = before ++ later ∧
        after = { mm with links, mmapTree := tree, mmapList := before ++ p :: later, mapCount := mm.mapCount + 1 } ∧
        Holding alloc outside after := by
  refine (holding.valid.arranged.insert holding.separate fine.2.2.2.1).mono ?_
  rintro _ ⟨links, tree, before, later, listed, rfl, arranged, separate⟩
  refine ⟨links, tree, before, later, listed, rfl, { arranged with fine := ?_, aligned := holding.valid.aligned }, separate⟩
  intro q member
  rcases mem_cons.mp (perm_middle.mem_iff.mp member) with rfl | member
  · exact fine
  · exact holding.valid.fine q (listed ▸ member)

theorem Arranged.remove (arranged : Arranged mm) (listed : mm.mmapList = before ++ p :: later) :
    ∃ links cache, removeVmaStruct mm p =
        .ok { mm with
          links, mmapList := before ++ later, mmapCache := cache, mapCount :=
            mm.mapCount - 1 } ∧ Arranged
            { mm with
            links, mmapList := before ++ later, mmapCache := cache, mapCount :=
            mm.mapCount - 1 } := by
  have distinct := arranged.ordered.nodup
  rw [listed] at distinct
  have absent := (nodup_cons.mp (nodup_middle.mp distinct)).1
  have erased : mm.mmapList.erase p = before ++ later := by
    rw [listed, erase_append_right _ fun member => absent (mem_append_left _ member),
      erase_cons_head]
  have sub : (before ++ later).Sublist mm.mmapList := by
    rw [listed]
    exact (List.Sublist.refl before).append (sublist_cons_self p later)
  have unlinked : ∃ links, deleteVmaRb mm p = .ok links ∧ ∀ tree, mm.mmapTree = some tree →
    Indexed links tree (before ++ later) := by
    rw [deleteVmaRb]
    cases built : mm.mmapTree with
    | none => exact ⟨mm.links, rfl, by simp⟩
    | some tree =>
      obtain ⟨shape, height, holds, balanced, order⟩ := arranged.indexed tree built
      have member : p ∈ shape.toList := by
        rw [order, listed]
        simp
      have size : shape.toList.length < mm.fuel := by
        rw [order, MmStruct.fuel, arranged.counted]
        omega
      obtain ⟨links, final, total, first, second, ran, held, whole, split, final_order⟩ :=
        delete_spec holds balanced member size
      refine ⟨links, ran, ?_⟩
      intro other same
      cases same
      refine ⟨final, total, held, whole, ?_⟩
      rw [order, listed] at split
      rw [mem_append, not_or] at absent
      obtain ⟨rfl, _, rfl⟩ := (append_cons_inj_of_notMem absent.1 absent.2).mp split
      exact final_order
  obtain ⟨links, ran, indexed⟩ := unlinked
  refine ⟨links, if mm.mmapCache = some p then none else mm.mmapCache, ?_, arranged.ordered.sublist sub, ?_, ?_, indexed⟩
  · rw [removeVmaStruct, ran, ← erased]
    rfl
  · have size := arranged.counted
    rw [listed] at size
    simp only [length_append, length_cons] at size ⊢
    omega
  · intro q remembered
    split at remembered
    · cases remembered
    · next other =>
      have member := arranged.cached q remembered
      rw [listed] at member
      rcases mem_cons.mp (perm_middle.mem_iff.mp member) with rfl | member
      · exact absurd remembered other
      · exact member

theorem Separate.remove (separate : Separate alloc outside mm) (listed : mm.mmapList = before ++
    p :: later) : Separate alloc (p :: outside) { mm with mmapList := before ++ later } := by
  refine (List.Perm.nodup_iff ?_).mp separate
  rw [listed]
  apply List.Perm.append_left
  refine (List.Perm.append_left outside perm_middle).trans ?_
  exact perm_middle

theorem removeVmaStruct_spec (holding : Holding alloc outside mm) (listed : mm.mmapList = before ++
    p :: later) : ∃ links cache, removeVmaStruct mm p =
        .ok { mm with
          links, mmapList := before ++ later, mmapCache := cache, mapCount :=
            mm.mapCount - 1 } ∧ Holding alloc (p :: outside)
            { mm with
            links, mmapList := before ++ later, mmapCache := cache, mapCount :=
            mm.mapCount - 1 } := by
  obtain ⟨links, cache, ran, arranged⟩ := holding.valid.arranged.remove listed
  refine ⟨links, cache, ran,
    { arranged with
    fine := fun q member => holding.valid.fine q ?_, aligned :=
    holding.valid.aligned }, Separate.remove holding.separate listed⟩
  rw [listed]
  exact perm_middle.mem_iff.mpr (mem_cons_of_mem p member)

end Ucore.Vmm
