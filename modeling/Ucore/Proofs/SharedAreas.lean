import Ucore.Spaces
import Ucore.Proofs.AreaView

/-! The areas of several address spaces and the shared objects behind them. Each call
is described by what it does to the list of areas, whatever their order, and to the
reference counts of the objects. -/

namespace Ucore.Vmm
open Lib RbTree List Function

variable {mm after : MmStruct} {alloc : Alloc} {outside : List Ptr} {p : Ptr} {start stop addr : Nat} {vma : Vma}
  {left met : List Ptr} {shmems : Ptr → Shmem}

theorem Holding.later (holding : Holding alloc outside mm) : (outside ++ mm.inUse).Nodup := by
  have separate := holding.separate
  rw [MmStruct.headers] at separate
  rw [MmStruct.inUse]
  cases built : mm.mmapTree with
  | some tree =>
    simp only [built, Option.some_or] at separate ⊢
    exact (perm_append_comm_assoc [tree.nil, tree.root] outside mm.mmapList).nodup_iff.mp separate
  | none =>
    exact separate.sublist (sublist_append_right _ _)

def MmStruct.areas (mm : MmStruct) : List Vma := mm.mmapList.map mm.vmas

theorem mem_areas : vma ∈ mm.areas ↔ ∃ p ∈ mm.mmapList, mm.vmas p = vma := mem_map

theorem Valid.shows_iff_areas (valid : Valid mm) (addr : Nat) (backing : Backing) :
    mm.shows addr = some backing ↔ ∃ vma ∈ mm.areas, vma.span.Covers addr ∧
    vma.backs addr = backing := by
  rw [valid.shows_iff]
  constructor
  · rintro ⟨p, member, facts⟩
    exact ⟨_, mem_areas.mpr ⟨p, member, rfl⟩, facts⟩
  · rintro ⟨vma, member, facts⟩
    obtain ⟨p, listed, rfl⟩ := mem_areas.mp member
    exact ⟨p, listed, facts⟩

theorem shows_of_subset (valid : Valid mm) (kept : Valid after) (subset : ∀ vma ∈ mm.areas,
    vma ∈ after.areas) {backing : Backing} (shown : mm.shows addr = some backing) :
    after.shows addr = some backing := by
  obtain ⟨vma, member, facts⟩ := (valid.shows_iff_areas addr backing).mp shown
  exact (kept.shows_iff_areas addr backing).mpr ⟨vma, subset vma member, facts⟩

theorem Added.areas (added : Added vma p mm after) : after.areas.Perm (vma :: mm.areas) := by
  refine (added.listed.map after.vmas).trans ?_
  rw [map_cons, added.own, map_congr_left added.same]
  exact List.Perm.refl _

theorem Added.relabel (added : Added vma p mm after) (other : Vma) : Added other p mm (after.setVma p other) := by
  refine ⟨added.fresh, added.listed, vmas_setVma_same _ _ _, ?_⟩
  intro q member
  have apart : q ≠ p := fun same => added.fresh (same ▸ member)
  rw [vmas_setVma_other other apart]
  exact added.same q member

/-- What `mm_map` is to do: refuse a range that meets an area, or add one area. A search may change
the cache. -/
def Maps (mm : MmStruct) (start stop : Nat) (flags : BitVec 32) (after : MmStruct) (ret : Int) : Prop :=
  (¬ Clear mm start stop → ret = -eInval ∧ ∃ cache, after = { mm with mmapCache := cache }) ∧
  (Clear mm start stop → (ret = -eNoMem ∧ ∃ cache, after = { mm with mmapCache := cache }) ∨
    ret = 0 ∧ ∃ p, Added ⟨start, stop, flags &&& ~~~vmShare, none, 0⟩ p mm after)

theorem mapRange_maps {cache : Option Ptr}
    (holding : Holding alloc alloc.vma.toList { mm with mmapCache := cache })
    (fine : Fine ⟨start, stop⟩) (clear : Clear mm start stop) (flags : BitVec 32) :
    ∃ after ret stored,
      mapRange alloc { mm with mmapCache := cache } start stop flags = .ok (after, ret, stored) ∧
        Maps mm start stop flags after ret := by
  cases given : alloc.vma with
  | none =>
    refine ⟨{ mm with mmapCache := cache }, -eNoMem, none, ?_, absurd clear, fun _ => .inl ⟨rfl, cache, rfl⟩⟩
    rw [mapRange, given]
    rfl
  | some p =>
    rw [given] at holding
    obtain ⟨after, ran, _, added, _⟩ := (insert_created_ends holding fine).exists_ok fun _ both => both.2 clear
    refine ⟨after, 0, some p, ?_, absurd clear, fun _ => .inr ⟨rfl, p, { added with }⟩⟩
    rw [mapRange, given]
    exact congrArg (· >>= fun mm => pure (mm, 0, some p)) ran

/-- An area that was added is apart from the others. -/
theorem Added.clear (added : Added vma p mm after) (valid : Valid after) :
    Clear mm vma.vmStart vma.vmEnd := by
  intro q member
  have different : q ≠ p := fun same => added.fresh (same ▸ member)
  have apart := valid.ordered.apart (added.listed.mem_iff.mpr (mem_cons_of_mem p member))
    (added.listed.mem_iff.mpr mem_cons_self) different
  rwa [MmStruct.span, MmStruct.span, added.own, added.same q member] at apart

/-- A range in which an area begins unseen is neither refused nor mapped. -/
theorem mapRange_unseen {cache : Option Ptr} {ret : Int} {stored : Option Ptr}
    (holding : Holding alloc alloc.vma.toList { mm with mmapCache := cache })
    (fine : Fine ⟨start, stop⟩) (meets : ¬ Clear mm start stop) {flags : BitVec 32}
    (ran : mapRange alloc { mm with mmapCache := cache } start stop flags = .ok (after, ret, stored)) :
    ¬ Maps mm start stop flags after ret := by
  intro maps
  obtain ⟨refused, _⟩ := maps.1 meets
  cases given : alloc.vma with
  | none =>
    rw [mapRange, given] at ran
    cases ran
    exact absurd refused (show -eNoMem ≠ -eInval by decide)
  | some p =>
    have outcome := (mapRange_ends flags holding fine).value ran
    cases outcome with
    | refused failed valid same =>
      simp only [mapRange, given] at ran
      obtain ⟨inserted, _, done⟩ := exists_of_bind ran
      cases done
    | mapped _ valid _ added => exact meets (added.clear valid)

/-- `mm_map` does what it should exactly when the search sees every area in the range. -/
theorem map_is_exact_when_seen (holding : Holding alloc alloc.vma.toList mm) (word : addr + len < 2 ^ 64)
    (access : UserAccess (roundDown addr) (roundUp (addr + len))) :
    (∃ after ret stored, mmMap alloc mm addr len flags = .ok (after, ret, stored) ∧
        Maps mm (roundDown addr) (roundUp (addr + len)) flags after ret) ↔
      Seen mm (roundDown addr) (roundUp (addr + len)) := by
  obtain ⟨cache, found, executed, valid, answers⟩ := findVma_spec holding.valid (roundDown addr)
  rw [mmMap, wrap, Nat.mod_eq_of_lt word, if_neg (not_not_intro access)]
  simp only [executed, bind, Except.bind]
  cases found with
  | some p =>
    have taken : roundUp (addr + len) > (mm.vmas p).vmStart := answers.2.1.trans_lt access.2.1
    have meets : ¬ Clear mm (roundDown addr) (roundUp (addr + len)) := by
      intro clear
      have apart := clear p answers.1
      have covered := answers.2
      have full := access.2.1
      simp only [Span.Apart, Span.Covers] at apart covered
      omega
    dsimp only
    rw [if_pos taken]
    exact iff_of_true ⟨_, -eInval, none, rfl, fun _ => ⟨rfl, cache, rfl⟩, meets.elim⟩ (.inl ⟨p, answers⟩)
  | none =>
    have held : Holding alloc alloc.vma.toList { mm with mmapCache := cache } :=
      ⟨valid, holding.separate⟩
    have fine : Fine ⟨roundDown addr, roundUp (addr + len)⟩ :=
      ⟨roundDown_aligned _, roundUp_aligned _, access⟩
    constructor
    · rintro ⟨after, ret, stored, ran, maps⟩
      by_contra unseen
      have meets : ¬ Clear mm (roundDown addr) (roundUp (addr + len)) := by
        intro clear
        refine unseen (.inr fun p member inside => ?_)
        have apart := clear p member
        have full := (holding.valid.ordered.full p member)
        simp only [Span.Apart] at apart
        omega
      exact mapRange_unseen held fine meets ran maps
    · exact fun seen => mapRange_maps held fine (seen.clear answers) flags

/-- An address space without areas, and one with a page at `0x400000`. -/
def blank : MmStruct :=
  mmCreate ⟨fun _ => ⟨0, 0, 0, none, 0⟩, fun _ => ⟨false, 0, 0, 0⟩, fun _ => ⟨0, 0, 0⟩, fun _ => 0, [], none, none, 0, 0, 0⟩

theorem holding_blank : Holding ⟨none, some 1, none⟩ [1] blank :=
  holding_of_allowed (valid_start ⟨_, rfl⟩)
    (show Allowed blank ⟨.loadBrk 0, ⟨none, some 1, none⟩⟩ by decide)

/-- The space after `mm_map` has entered an area. -/
def withArea (mm : MmStruct) (p : Ptr) (addr len : Nat) : MmStruct :=
  match mmMap ⟨none, some p, none⟩ mm addr len vmRead with
  | .ok (after, _) => after
  | .error _ => mm

theorem valid_withArea {len : Nat} (valid : Valid mm)
    (allowed : Allowed mm ⟨.loadBrk 0, ⟨none, some p, none⟩⟩) : Valid (withArea mm p addr len) := by
  have ends := mmMap_ends addr len vmRead (holding_of_allowed valid allowed)
  rw [withArea]
  split
  · next ran => exact (ends.value ran).valid
  · exact valid

/-- Two pages at `0x400000`, and a page each at the top of the user range and below a gap of one
page. -/
def spaced : MmStruct :=
  withArea (withArea (withArea blank 1 0x400000 0x2000) 2 0x3fffffd000 0x1000) 3 0x3ffffff000 0x1000

theorem valid_spaced : Valid spaced :=
  valid_withArea (valid_withArea (valid_withArea (valid_start ⟨_, rfl⟩) (by decide)) (by decide))
    (by decide)

theorem holding_spaced : Holding ⟨none, some 4, none⟩ [4] spaced :=
  holding_of_allowed valid_spaced (show Allowed spaced ⟨.loadBrk 0, ⟨none, some 4, none⟩⟩ by decide)

theorem map_is_exact_between_areas : spaced.mmapList = [1, 2, 3] ∧
    ∃ after ret stored, mmMap ⟨none, some 4, none⟩ spaced 0x402000 0x3000 vmRead = .ok (after, ret, stored) ∧
      Maps spaced 0x402000 0x405000 vmRead after ret :=
  ⟨rfl, (map_is_exact_when_seen holding_spaced (show 0x402000 + 0x3000 < 2 ^ 64 by decide)
    (by decide)).mpr (.inr (by decide))⟩

/-- A range that begins in a gap and reaches into an area is not refused. -/
theorem map_into_an_area_stops : ¬ ∀ mm alloc addr len flags, Holding alloc alloc.vma.toList mm → addr + len < 2 ^ 64 →
    UserAccess (roundDown addr) (roundUp (addr + len)) → ∃ after ret stored,
      mmMap alloc mm addr len flags = .ok (after, ret, stored) ∧
      Maps mm (roundDown addr) (roundUp (addr + len)) flags after ret := by
  intro exact_
  have valid := ((mmMap_ends 0x400000 0x1000 vmRead holding_blank).value rfl).valid
  obtain ⟨_, _, _, executed, _⟩ := exact_ _ ⟨none, some 2, none⟩ 0x3ff000 0x2000 vmRead
    (holding_of_allowed valid (show Allowed _ ⟨.loadBrk 0, ⟨none, some 2, none⟩⟩ by decide)) (by decide) (by decide)
  cases executed

section
variable {len : Nat}

/-- A range of the length can begin at `start`, up to a limit. -/
def Fits (mm : MmStruct) (len : Nat) (owners : List Ptr) (limit start : Nat) : Prop :=
  userBase ≤ start ∧ start + len ≤ limit ∧ ∀ p ∈ owners, (mm.span p).Apart ⟨start, start + len⟩

/-- The greatest of the starts that fit, or 0 if there is none. -/
structure Highest (fits : Nat → Prop) (found : Nat) : Prop where
  zero : found = 0 ↔ ∀ start, ¬ fits start
  greatest : found ≠ 0 → IsGreatest {start | fits start} found

theorem Highest.none {fits : Nat → Prop} (none : ∀ start, ¬ fits start) : Highest fits 0 := ⟨iff_of_true rfl none, absurd rfl⟩

theorem Highest.some {owners : List Ptr} {found : Nat} (positive : found ≠ 0)
    (fit : Fits mm len owners (found + len) found) : Highest (Fits mm len owners (found + len))
    found :=
  ⟨iff_of_false positive fun none => none found fit, fun _ => ⟨fit, fun _ other => Nat.add_le_add_iff_right.mp other.2.1⟩⟩

theorem unmappedBelow_spec {owners : List Ptr} (start : Nat) (fine : ∀ p ∈ owners, Fine (mm.span p))
    (down : owners.Pairwise fun p q => (mm.span q).stop ≤ (mm.span p).start) :
    Highest (Fits mm len owners (start + len)) (unmappedBelow mm len owners start) := by
  have base : 0 < userBase := by decide
  induction owners generalizing start with
  | nil =>
    rw [unmappedBelow]
    split
    · exact .some (by omega) ⟨by omega, le_rfl, by simp⟩
    · exact .none fun other fit => by
        obtain ⟨low, high, _⟩ := fit
        omega
  | cons p rest ih =>
    obtain ⟨below, down⟩ := pairwise_cons.mp down
    rw [forall_mem_cons] at fine
    obtain ⟨low, full, _⟩ := fine.1.2.2
    -- Below the area only the others matter.
    have skip (next : Nat) (same : ∀ other, other ≤ start ∧ (mm.span p).Apart ⟨other, other + len⟩ ↔
      other ≤ next) : Highest (Fits mm len (p :: rest) (start + len))
      (unmappedBelow mm len rest next) := by
      have fits : Fits mm len (p :: rest) (start + len) = Fits mm len rest (next + len) := by
        funext other
        rw [Fits, Fits, forall_mem_cons, Nat.add_le_add_iff_right, Nat.add_le_add_iff_right, ← same, and_assoc]
      rw [fits]
      exact ih next fine.2 down
    simp only [Span.Apart, MmStruct.span, Vma.span] at *
    rw [unmappedBelow]
    split
    · refine .some (by omega) ⟨by omega, le_rfl, forall_mem_cons.mpr ⟨.inl ?_, fun q member => .inl ?_⟩⟩
      · assumption
      · have := below q member
        simp only [MmStruct.span, Vma.span]
        omega
    · split
      · split
        · refine .none ?_
          rintro other ⟨above, limit, apart⟩
          have this := apart p mem_cons_self
          simp only [Span.Apart, MmStruct.span, Vma.span] at this
          omega
        · exact skip _ fun other => by omega
      · exact skip _ fun other => by omega

/-- `get_unmapped_area` returns the greatest start of a range of the length that lies in the user
range and meets no area,
and 0 if there is none. -/
theorem get_unmapped_area_highest (valid : Valid mm) (some : 0 < len) :
    Highest (Fits mm len mm.mmapList userTop) (getUnmappedArea mm len) := by
  have base : 0 < userBase := by decide
  rw [getUnmappedArea]
  split
  · exact .none fun start fit => by
      obtain ⟨low, high, _⟩ := fit
      omega
  have most : userTop - len + len = userTop := by omega
  have found := @unmappedBelow_spec mm len _ (userTop - len) (fun p member =>
    valid.fine p (mem_reverse.mp member)) (pairwise_reverse.mpr valid.ordered.ascending)
  have fits : Fits mm len mm.mmapList.reverse = Fits mm len mm.mmapList := by
    funext limit start
    simp only [Fits, mem_reverse]
  rwa [most, fits] at found

/-- Two pages do not fit between the upper areas. -/
theorem unmapped_area_below_the_gap : getUnmappedArea spaced 0x2000 = 0x3fffffb000 ∧
    Highest (Fits spaced 0x2000 [1, 2, 3] userTop) (getUnmappedArea spaced 0x2000) :=
  ⟨by decide, get_unmapped_area_highest valid_spaced (by decide)⟩

end

def Vma.Points (vma : Vma) (object : Ptr) : Prop := vma.Shared ∧ vma.shmem = some object
deriving Decidable

def uses (object : Ptr) (areas : List Vma) : Nat := areas.countP fun vma => vma.Points object

theorem uses_cons (object : Ptr) (vma : Vma) (areas : List Vma) :
    uses object (vma :: areas) = uses object areas + if vma.Points object then 1 else 0 := by
  rw [uses, countP_cons]
  simp [uses]

theorem uses_append (object : Ptr) (first second : List Vma) :
    uses object (first ++ second) = uses object first + uses object second := countP_append

theorem uses_perm {first second : List Vma} (perm : first.Perm second) (object : Ptr) :
    uses object first = uses object second := perm.countP_eq _

def Shmem.lose (object : Shmem) (count : Nat) : Shmem :=
  { object with
    shmemRef := object.shmemRef - count
    destroys := object.destroys + if 0 < object.shmemRef ∧ object.shmemRef ≤ count then 1 else 0 }

@[simp] theorem lose_zero (object : Shmem) : object.lose 0 = object := by
  have never : ¬ (0 < object.shmemRef ∧ object.shmemRef ≤ ((0 : Nat) : Int)) := by omega
  rw [Shmem.lose, if_neg never]
  simp

theorem lose_lose (object : Shmem) (first second : Nat) : (object.lose first).lose second = object.lose (first + second) := by
  simp only [Shmem.lose, Shmem.mk.injEq, true_and]
  exact ⟨by omega, by grind⟩

theorem destroys_lose {object : Shmem} {count : Nat} (enough : count ≤ object.shmemRef) :
    (object.lose count).destroys = object.destroys + if 0 < object.shmemRef ∧
    (object.lose count).shmemRef = 0 then 1 else 0 := by
  simp only [Shmem.lose]
  grind

theorem released_apply (vma : Vma) (shmems : Ptr → Shmem) (object : Ptr) :
    vma.released shmems object = (shmems object).lose (if vma.Points object then 1 else 0) := by
  rw [Vma.released]
  by_cases shared : vma.Shared
  · rw [if_pos shared]
    cases backed : vma.shmem with
    | none => simp [Vma.Points, backed]
    | some other =>
      obtain rfl | same := eq_or_ne object other
      · have points : vma.Points object := ⟨shared, backed⟩
        simp only [points, if_true, shmemRelease, update_self, Shmem.lose, Shmem.mk.injEq]
        exact ⟨trivial, by omega, by grind⟩
      · have elsewhere : ¬ vma.Points object := fun points => same (Option.some.inj (points.2.symm.trans backed))
        simp [elsewhere, shmemRelease, update_of_ne same]
  · simp [Vma.Points, shared]

theorem released_fold (areas : List Vma) (shmems : Ptr → Shmem) (object : Ptr) :
    areas.foldl (fun shmems vma => vma.released shmems) shmems object = (shmems object).lose
    (uses object areas) := by
  induction areas generalizing shmems with
  | nil => simp [uses]
  | cons vma rest ih => rw [foldl_cons, ih, released_apply, lose_lose, uses_cons, add_comm]

def Vma.Backed (shmems : Ptr → Shmem) (vma : Vma) : Prop :=
  vma.Shared → ∃ object, vma.shmem = some object ∧ vma.shmemOff + (vma.vmEnd - vma.vmStart) ≤ (shmems object).len

/-- What is assumed of an address space before a call. -/
structure Referred (mm : MmStruct) : Prop where
  valid : Valid mm
  backed : ∀ vma ∈ mm.areas, vma.Backed mm.shmems
  enough : ∀ object, uses object mm.areas ≤ (mm.shmems object).shmemRef

/-- What a call does to the areas of an address space and to the shared objects. -/
structure Changed (mm after : MmStruct) : Prop where
  valid : Valid after
  backed : ∀ vma ∈ after.areas, vma.Backed after.shmems
  lens : ∀ object, (after.shmems object).len = (mm.shmems object).len
  counted : ∀ object, (after.shmems object).shmemRef + uses object mm.areas =
    (mm.shmems object).shmemRef + uses object after.areas
  destroyed : ∀ object, (after.shmems object).destroys = (mm.shmems object).destroys +
    if 0 < (mm.shmems object).shmemRef ∧ (after.shmems object).shmemRef = 0 then 1 else 0
  alive : ∀ object, uses object mm.areas < uses object after.areas → (mm.shmems object).destroys =
    0 ∨ 0 < (mm.shmems object).shmemRef
  shows : ∀ addr backing, mm.shows addr = some backing → after.shows addr = some backing ∨ after.shows addr = none

section
variable (referred : Referred mm) (valid : Valid after)
include referred valid

theorem Changed.of_same (vmas : after.vmas = mm.vmas) (listed : after.mmapList = mm.mmapList)
    (objects : after.shmems = mm.shmems) : Changed mm after := by
  have areas : after.areas = mm.areas := by rw [MmStruct.areas, MmStruct.areas, vmas, listed]
  refine ⟨valid, ?_, ?_, ?_, ?_, ?_, ?_⟩
  · rw [areas, objects]
    exact referred.backed
  · intro object
    rw [objects]
  · intro object
    rw [areas, objects]
  · intro object
    have never : ¬ (0 < (mm.shmems object).shmemRef ∧ (mm.shmems object).shmemRef = 0) := by omega
    rw [objects, if_neg never, add_zero]
  · intro object more
    rw [areas] at more
    exact absurd more (lt_irrefl _)
  · intro addr backing shown
    rw [referred.valid.shows_iff_areas, ← areas, ← valid.shows_iff_areas] at shown
    exact .inl shown

theorem Changed.of_more {more : List Vma} (areas : after.areas.Perm (more ++ mm.areas))
    (objects : ∀ object, after.shmems object =
      { mm.shmems object with shmemRef := (mm.shmems object).shmemRef + uses object more })
      (backed : ∀ vma ∈ more, vma.Backed mm.shmems)
    (alive : ∀ object, 0 < uses object more → (mm.shmems object).destroys = 0 ∨
      0 < (mm.shmems object).shmemRef) : Changed mm after := by
  have count : ∀ object, uses object after.areas = uses object more + uses object mm.areas := by
    intro object
    rw [uses_perm areas, uses_append]
  refine ⟨valid, ?_, ?_, ?_, ?_, ?_, ?_⟩
  · intro vma member shared
    obtain ⟨object, points, inside⟩ : ∃ object, vma.shmem = some object ∧
      vma.shmemOff + (vma.vmEnd - vma.vmStart) ≤ (mm.shmems object).len := by
      rcases mem_append.mp (areas.mem_iff.mp member) with added | old
      · exact backed vma added shared
      · exact referred.backed vma old shared
    refine ⟨object, points, ?_⟩
    rwa [objects object]
  · intro object
    rw [objects object]
  · intro object
    rw [objects object, count object]
    push_cast
    omega
  · intro object
    have never : ¬ (0 < (mm.shmems object).shmemRef ∧ (mm.shmems object).shmemRef +
      (uses object more : Int) = 0) := by omega
    rw [objects object, if_neg never, add_zero]
  · intro object grown
    rw [count object] at grown
    exact alive object (by omega)
  · intro addr backing shown
    refine .inl (shows_of_subset referred.valid valid ?_ shown)
    intro vma member
    exact areas.mem_iff.mpr (mem_append_right more member)

/-- Some areas give way to what is left of them, and lose the references of those that disappear. -/
theorem Changed.of_fewer {met left gone : List Vma} {rests : List Vma}
    (before : mm.areas.Perm (met ++ left)) (areas : after.areas.Perm (rests ++ left))
    (counts : ∀ object, uses object rests + uses object gone = uses object met)
    (objects : ∀ object, after.shmems object = (mm.shmems object).lose (uses object gone))
      (backed : ∀ vma ∈ rests, vma.Backed mm.shmems)
    (shows : ∀ addr backing, mm.shows addr = some backing → after.shows addr = some backing ∨
      after.shows addr = none) : Changed mm after := by
  have countBefore : ∀ object, uses object mm.areas = uses object met + uses object left := by
    intro object
    rw [uses_perm before, uses_append]
  have countAfter : ∀ object, uses object after.areas = uses object rests + uses object left := by
    intro object
    rw [uses_perm areas, uses_append]
  refine ⟨valid, ?_, ?_, ?_, ?_, ?_, shows⟩
  · intro vma member shared
    obtain ⟨object, points, inside⟩ : ∃ object, vma.shmem = some object ∧
      vma.shmemOff + (vma.vmEnd - vma.vmStart) ≤ (mm.shmems object).len := by
      rcases mem_append.mp (areas.mem_iff.mp member) with rest | other
      · exact backed vma rest shared
      · exact referred.backed vma (before.mem_iff.mpr (mem_append_right met other)) shared
    refine ⟨object, points, ?_⟩
    rwa [objects object]
  · intro object
    rw [objects object]
    rfl
  · intro object
    have same := counts object
    rw [objects object, countBefore object, countAfter object, Shmem.lose]
    push_cast
    omega
  · intro object
    have same := counts object
    have enough := referred.enough object
    have whole := countBefore object
    rw [objects object]
    exact destroys_lose (by omega)
  · intro object grown
    have same := counts object
    rw [countBefore object, countAfter object] at grown
    omega

end

theorem mmMap_changes (addr len : Nat) (flags : BitVec 32)
    (holding : Holding alloc alloc.vma.toList mm) (referred : Referred mm) :
    Ends Overlap (mmMap alloc mm addr len flags) fun result => Changed mm result.1 := by
  refine ((mmMap_ends addr len flags holding).excuse fun _ => And.left).mono ?_
  rintro ⟨after, ret, stored⟩ outcome
  cases outcome with
  | refused failed valid same =>
    obtain ⟨cache, rfl⟩ := same
    exact .of_same referred valid rfl rfl rfl
  | @mapped p fine valid objects added =>
    have plain : ¬ Vma.Shared ⟨roundDown addr, roundUp (wrap (addr + len)), flags &&& ~~~vmShare,
      none, 0⟩ := by simp [Vma.Shared, BitVec.and_assoc]
    revert added plain
    generalize (⟨roundDown addr, _, _, none, 0⟩ : Vma) = vma
    intro added plain
    have none : ∀ object, uses object [vma] = 0 := by
      intro object
      rw [uses_cons, if_neg fun points => plain points.1]
      rfl
    refine .of_more referred valid (show after.areas.Perm ([vma] ++ mm.areas) from added.areas) ?_ ?_ ?_
    · intro object
      rw [none object, objects]
      simp
    · intro other member shared
      rw [mem_singleton] at member
      exact absurd (member ▸ shared) plain
    · intro object some
      rw [none object] at some
      exact absurd some (lt_irrefl _)

theorem shmems_shmemRefAdd (mm : MmStruct) (object other : Ptr) (amount : Int) :
    (shmemRefAdd mm object amount).shmems other =
    { mm.shmems other with
    shmemRef := (mm.shmems other).shmemRef + if object = other then amount else 0 } := by
  rw [shmemRefAdd]
  obtain rfl | same := eq_or_ne object other
  · simp
  · simp [update_of_ne (Ne.symm same), same]

/-- The range that is mapped for an object of whole pages is not longer than the object. -/
theorem roundUp_sub_le {len : Nat} (first : addr % pgSize = 0) (whole : len % pgSize = 0) :
    roundUp (wrap (addr + len)) - roundDown addr ≤ len := by
  simp only [roundUp, roundDown, wrap, pgSize] at *
  omega

theorem share_or (flags : BitVec 32) : (flags ||| vmShare) &&& vmShare ≠ 0 := by
  have bit : ((flags ||| vmShare) &&& vmShare) = vmShare := by
    ext i inside
    simp only [BitVec.getElem_and, BitVec.getElem_or]
    cases vmShare[i] <;> simp
  rw [bit]
  decide

theorem mmMapShmem_changes {shmem : Option Ptr} (addr : Nat) (flags : BitVec 32) (holding : Holding alloc alloc.vma.toList mm)
    (referred : Referred mm) (whole : ∀ object ∈ shmem, (mm.shmems object).len % pgSize = 0)
      (alive : ∀ object ∈ shmem, (mm.shmems object).destroys = 0) :
    Ends Overlap (mmMapShmem alloc mm addr flags shmem) fun result => Changed mm result.1 := by
  cases shmem with
  | none => exact .of_same referred referred.valid rfl rfl rfl
  | some object =>
    rw [mmMapShmem]
    by_cases aligned : addr % pgSize = 0
    · have counted : Holding alloc alloc.vma.toList (shmemRefAdd mm object 1) := ⟨holding.valid.objects _, holding.separate⟩
      have len : ((shmemRefAdd mm object 1).shmems object).len = (mm.shmems object).len := by rw [shmems_shmemRefAdd]
      rw [if_neg (not_not_intro aligned)]
      refine ((mmMap_ends addr _ flags counted).excuse fun _ => And.left).bind ?_
      rintro ⟨after, ret, stored⟩ outcome
      cases outcome with
      | refused failed valid same =>
        obtain ⟨cache, rfl⟩ := same
        refine .of_same referred (valid.objects _) rfl rfl ?_
        funext other
        rw [shmems_shmemRefAdd, shmems_shmemRefAdd]
        split <;> simp
      | @mapped p fine valid objects added =>
        -- The area of `mm_map` becomes a shared one over the object.
        obtain ⟨vma, vmaIs⟩ : ∃ vma : Vma,
          vma = { after.vmas p with
          shmem := some object, shmemOff := 0, vmFlags := (after.vmas p).vmFlags ||| vmShare } :=
          ⟨_, rfl⟩
        have points : ∀ other, vma.Points other ↔ object = other := by
          intro other
          have shared : vma.Shared := by
            rw [vmaIs]
            exact share_or _
          have backed : vma.shmem = some object := by rw [vmaIs]
          rw [Vma.Points, and_iff_right shared, backed, Option.some_inj]
        have count : ∀ other, uses other [vma] = if object = other then 1 else 0 := by
          intro other
          rw [uses_cons, ite_congr (propext (points other)) (fun _ => rfl) fun _ => rfl]
          exact zero_add _
        have inside : vma.shmemOff + (vma.vmEnd - vma.vmStart) ≤ (mm.shmems object).len := by
          rw [vmaIs, added.own, len]
          exact (zero_add _).trans_le (roundUp_sub_le aligned (whole object rfl))
        show Changed mm (after.setVma p _)
        rw [← vmaIs]
        have relabelled : Valid (after.setVma p vma) := valid.relabel (vmaIs ▸ rfl)
        refine .of_more referred relabelled (show (after.setVma p vma).areas.Perm ([vma] ++
          mm.areas) from (added.relabel vma).areas) ?_ ?_ ?_
        · intro other
          show after.shmems other = _
          rw [objects, shmems_shmemRefAdd, count]
          split <;> rfl
        · intro other member shared
          rw [mem_singleton] at member
          exact ⟨object, by rw [member, vmaIs], by rwa [member]⟩
        · intro other some
          rw [count] at some
          split at some
          · next same => exact .inl (same ▸ alive object rfl)
          · cases some
    · rw [if_pos aligned]
      exact .of_same referred referred.valid rfl rfl rfl

theorem rest_keeps {rest : Vma} (left : vma.rest start stop = some rest) :
    rest.vmFlags = vma.vmFlags ∧ rest.shmem = vma.shmem := by
  rw [Vma.rest] at left
  split at left
  · cases left
    exact ⟨rfl, rfl⟩
  split at left
  · cases left
    exact ⟨rfl, rfl⟩
  · cases left

theorem rest_points {rest : Vma} (left : vma.rest start stop = some rest) (object : Ptr) :
    rest.Points object ↔ vma.Points object := by
  obtain ⟨flags, backed⟩ := rest_keeps left
  rw [Vma.Points, Vma.Points, Vma.Shared, Vma.Shared, flags, backed]

/-- The part of an area that is left lies in the part of the object that the area had. -/
theorem Vma.Backed.rest {rest : Vma} (backed : vma.Backed shmems) (met : Met start stop vma.span)
    (left : vma.rest start stop = some rest) : rest.Backed shmems := by
  intro shared
  obtain ⟨flags, same⟩ := rest_keeps left
  have meets : vma.vmStart < stop ∧ start < vma.vmEnd := met.meets
  have own : vma.Shared := by rwa [Vma.Shared, ← flags]
  obtain ⟨object, points, inside⟩ := backed own
  refine ⟨object, same.trans points, Nat.le_trans ?_ inside⟩
  have bounded : ∀ value, wrap value ≤ value := fun value => Nat.mod_le _ _
  have moved : ∀ first, wrap (vma.shmemOff + (first - vma.vmStart)) ≤ vma.shmemOff +
    (first - vma.vmStart) := fun first => bounded _
  rw [Vma.rest] at left
  split at left
  · cases left
    have offset := moved vma.vmStart
    simp only [Vma.resized, if_pos (show vma.vmFlags &&& vmShare ≠ 0 from own)]
    omega
  · split at left
    · cases left
      have offset := moved stop
      simp only [Vma.resized, if_pos (show vma.vmFlags &&& vmShare ≠ 0 from own)]
      omega
    · cases left

theorem uses_rest (object : Ptr) (areas : List Vma) :
    uses object (areas.filterMap fun vma => vma.rest start stop) + uses object
    (areas.filter fun vma => (vma.rest start stop).isNone) = uses object areas := by
  induction areas with
  | nil => rfl
  | cons vma =>
    cases left : vma.rest start stop with
    | none =>
      simp only [filterMap_cons, filter_cons, left, Option.isNone_none, if_true, uses_cons]
      omega
    | some =>
      simp only [filterMap_cons, filter_cons, left, Option.isNone_some, Bool.false_eq_true,
        if_false, uses_cons, rest_points left]
      omega

section
variable (trimmed : Trimmed start stop met left mm after)
include trimmed

theorem Trimmed.areas_before : mm.areas.Perm (met.map mm.vmas ++ left.map mm.vmas) := by
  rw [← map_append]
  exact trimmed.parts.map _

theorem Trimmed.areas_after :
    after.areas.Perm ((met.map mm.vmas).filterMap (fun vma => vma.rest start stop) ++
    left.map mm.vmas) := by
  have rests : ∀ some : List Ptr, (∀ p ∈ some, p ∈ met) →
    (some.filter fun p => ((mm.vmas p).rest start stop).isSome).map after.vmas =
    (some.map mm.vmas).filterMap fun vma => vma.rest start stop := by
    intro some inside
    induction some with
    | nil => rfl
    | cons p others ih =>
      have tail := ih fun q member => inside q (mem_cons_of_mem p member)
      have own := trimmed.trimmed p (inside p mem_cons_self)
      cases rest : (mm.vmas p).rest start stop with
      | none => simpa [rest] using tail
      | some => simpa [rest, own] using tail
  refine (trimmed.listed.map after.vmas).trans ?_
  rw [map_append, rests met fun _ member => member, map_congr_left trimmed.same]

theorem Trimmed.changes (referred : Referred mm) (kept : Valid after) : Changed mm after := by
  refine .of_fewer referred kept trimmed.areas_before trimmed.areas_after (fun object => uses_rest object _) ?_ ?_ ?_
  · intro object
    rw [trimmed.objects, ← released_fold, filter_map, foldl_map]
    rfl
  · intro vma member
    obtain ⟨whole, inside, left⟩ := mem_filterMap.mp member
    obtain ⟨p, met, rfl⟩ := mem_map.mp inside
    have listed := trimmed.parts.mem_iff.mpr (mem_append_left _ met)
    exact (referred.backed _ (mem_areas.mpr ⟨p, listed, rfl⟩)).rest (trimmed.meets p met) left
  · intro addr backing shown
    by_cases covered : Span.Covers ⟨start, stop⟩ addr
    · exact .inr (shows_none fun p member around => (trimmed.clear p member).not_covers around covered)
    · exact .inl ((trimmed.shows referred.valid kept covered).trans shown)

end

theorem Holed.changes {nvma : Ptr} (holed : Holed start stop p nvma mm after) (referred : Referred mm)
    (kept : Valid after) (full : start < stop) (plain : ¬ (mm.vmas p).Shared) :
    Changed mm after := by
  obtain ⟨others, listed⟩ : ∃ others, mm.mmapList.Perm (p :: others) := ⟨_, perm_cons_erase holed.member⟩
  have nodup := listed.nodup_iff.mp referred.valid.ordered.nodup
  have same : ∀ q ∈ others, after.vmas q = mm.vmas q := by
    intro q member
    refine holed.same q (listed.mem_iff.mpr (mem_cons_of_mem p member)) ?_
    rintro rfl
    exact (nodup_cons.mp nodup).1 member
  have private' : ∀ vma : Vma, vma.vmFlags = (mm.vmas p).vmFlags → ¬ vma.Shared := by
    intro vma flags
    rwa [Vma.Shared, flags]
  have front : ¬ (after.vmas nvma).Shared := private' _ (by rw [holed.front])
  have back : ¬ (after.vmas p).Shared := private' _ (by rw [holed.back]; rfl)
  refine @Changed.of_fewer _ _ referred kept [mm.vmas p] (others.map mm.vmas) [] [after.vmas nvma,
    after.vmas p] ?_ ?_ ?_ ?_ ?_ ?_
  · exact listed.map mm.vmas
  · refine ((holed.listed.trans (listed.cons nvma)).map after.vmas).trans ?_
    rw [map_cons, map_cons, map_congr_left same]
    exact List.Perm.refl _
  · intro object
    simp [Vma.Points, front, back, plain, uses]
  · intro object
    rw [holed.objects]
    exact (lose_zero _).symm
  · intro vma member shared
    rcases mem_pair.mp member with rfl | rfl
    · exact absurd shared front
    · exact absurd shared back
  · intro addr backing shown
    by_cases covered : Span.Covers ⟨start, stop⟩ addr
    · exact .inr (shows_none fun q member around => (holed.clear referred.valid full q member).not_covers around covered)
    · exact .inl ((holed.shows referred.valid kept full (fun loses => plain loses.1) covered).trans shown)

/-- No shared area reaches beyond the range on both sides. -/
def Whole (mm : MmStruct) (start stop : Nat) : Prop :=
  ∀ vma ∈ mm.areas, vma.vmStart < start → stop < vma.vmEnd → ¬ vma.Shared

theorem mmUnmap_changes (addr len : Nat) (holding : Holding alloc (alloc.nvma.toList ++ outside) mm) (referred : Referred mm)
    (whole : Whole mm (roundDown addr) (roundUp (wrap (addr + len)))) :
      Ends Overlap (mmUnmap alloc mm addr len) fun result => Changed mm result.1 := by
  by_cases access : UserAccess (roundDown addr) (roundUp (wrap (addr + len)))
  · refine ((mmUnmap_ends addr len holding).excuse ?_).mono ?_
    · rintro fault ⟨_, p, member, shared, orphan⟩
      obtain ⟨object, backed, _⟩ := referred.backed _ (mem_areas.mpr ⟨p, member, rfl⟩) shared
      cases orphan.symm.trans backed
    rintro ⟨after, ret⟩ ⟨kept, unmapped⟩
    cases unmapped with
    | refused failed same =>
      obtain ⟨cache, rfl⟩ := same
      exact .of_same referred kept.valid rfl rfl rfl
    | missed nothing same =>
      obtain ⟨cache, rfl⟩ := same
      exact .of_same referred kept.valid rfl rfl rfl
    | holed holed =>
      have plain := whole _ (mem_areas.mpr ⟨_, holed.member, rfl⟩) holed.before holed.beyond
      exact holed.changes referred kept.valid access.2.1 plain
    | trimmed trimmed => exact trimmed.changes referred kept.valid
  · rw [mmUnmap, if_pos access]
    exact .of_same referred referred.valid rfl rfl rfl

def Vma.copied (vma : Vma) : Vma :=
  if vma.Shared then vma else ⟨vma.vmStart, vma.vmEnd, vma.vmFlags, none, 0⟩

theorem copied_span (vma : Vma) : vma.copied.span = vma.span := by
  rw [Vma.copied]
  split <;> rfl

theorem copied_backs (vma : Vma) (addr : Nat) : vma.copied.backs addr = vma.backs addr := by
  rw [Vma.copied]
  split
  · rfl
  · next plain =>
    have plain' : ¬ Vma.Shared ⟨vma.vmStart, vma.vmEnd, vma.vmFlags, none, 0⟩ := plain
    rw [Vma.backs, Vma.backs, if_neg plain, if_neg plain']

theorem copied_points (vma : Vma) (object : Ptr) : vma.copied.Points object ↔ vma.Points object := by
  rw [Vma.copied]
  split
  · rfl
  · next plain => exact iff_of_false (fun points => plain points.1) (fun points => plain points.1)

theorem Vma.Backed.copied (backed : vma.Backed shmems) : vma.copied.Backed shmems := by
  rw [Vma.copied]
  split
  · exact backed
  · next plain => exact plain.elim

theorem uses_copied (object : Ptr) (areas : List Vma) : uses object (areas.map Vma.copied) = uses object areas := by
  rw [uses, countP_map]
  refine countP_congr fun vma _ => ?_
  simp [copied_points]

theorem dupVma_ok {nvma : Ptr} (backed : vma.Backed mm.shmems) : dupVma mm nvma vma = .ok { mm.setVma nvma vma.copied with
      shmems := fun object => { mm.shmems object with
        shmemRef := (mm.shmems object).shmemRef + if vma.Points object then 1 else 0 } } := by
  by_cases shared : vma.Shared
  · obtain ⟨object, points, _⟩ := backed shared
    have given : ∀ other, vma.Points other ↔ object = other := by
      intro other
      rw [Vma.Points, and_iff_right shared, points, Option.some_inj]
    have written : (vmaCreate mm nvma vma.vmStart vma.vmEnd vma.vmFlags).setVma nvma
      ⟨vma.vmStart, vma.vmEnd, vma.vmFlags, some object, vma.shmemOff⟩ = mm.setVma nvma
      vma.copied := by
      rw [Vma.copied, if_pos shared, ← points]
      simp [vmaCreate, MmStruct.setVma]
    rw [dupVma, if_pos (show vma.vmFlags &&& vmShare ≠ 0 from shared), points]
    simp only [vmas_setVma_same, vmaCreate] at written ⊢
    rw [written]
    refine congrArg Except.ok ?_
    rw [shmemRefAdd]
    congr 1
    funext other
    have counted := shmems_shmemRefAdd mm object other 1
    simp only [given]
    exact counted
  · have none : ∀ object, ¬ vma.Points object := fun object points => shared points.1
    rw [dupVma, if_neg (show ¬ vma.vmFlags &&& vmShare ≠ 0 from shared), Vma.copied, if_neg shared]
    simp only [none, if_false, Int.add_zero]
    rfl

structure Duplicated (done : List Vma) (mm after : MmStruct) : Prop where
  valid : Valid after
  listed : after.areas.Perm (done.map Vma.copied ++ mm.areas)
  objects : ∀ object, after.shmems object =
    { mm.shmems object with shmemRef := (mm.shmems object).shmemRef + uses object done }

theorem Duplicated.refl (valid : Valid mm) : Duplicated [] mm mm := ⟨valid, .refl _, fun object => by simp [uses]⟩

theorem Duplicated.cons {done : List Vma} {between : MmStruct} (rest : Duplicated done between after)
    (added : Added vma.copied p mm between) (objects : ∀ object, between.shmems object =
      { mm.shmems object with
        shmemRef := (mm.shmems object).shmemRef + if vma.Points object then 1 else 0 }) :
          Duplicated (vma :: done) mm after := by
  refine ⟨rest.valid, ?_, ?_⟩
  · exact rest.listed.trans ((added.areas.append_left _).trans perm_middle)
  intro object
  rw [rest.objects, objects, uses_cons]
  simp only [Shmem.mk.injEq, true_and, and_true]
  split <;> omega

theorem dupVmas_ends {σ : Type} {excused : Fault → Prop} {copy : σ → Vma → Kernel (σ × Int)}
    {areas : List Vma} {allocs : List Alloc} {s : σ}
    (copies : ∀ s vma, Ends excused (copy s vma) fun _ => True) (overlap : ∀ fault, Overlap fault →
      excused fault) (valid : Valid mm) (fresh : (allocs.flatMap Alloc.ptrs ++ mm.inUse).Nodup)
      (fine : ∀ vma ∈ areas, Fine vma.span)
    (backed : ∀ vma ∈ areas, vma.Backed mm.shmems) : Ends excused (dupVmas copy areas allocs mm s) fun result =>
      ∃ done later, areas = done ++ later ∧ (result.2.2 = 0 → later = []) ∧ Duplicated done mm result.1 := by
  induction areas generalizing mm allocs s with
  | nil =>
    exact ⟨[], [], rfl, fun _ => rfl, .refl valid⟩
  | cons vma rest ih =>
    have stopped : ∀ s : σ, Ends excused (pure (mm, s, -eNoMem) : Kernel (MmStruct × σ × Int)) fun result =>
        ∃ done later, vma :: rest = done ++ later ∧ (result.2.2 = 0 → later = []) ∧ Duplicated done mm result.1 :=
      fun s => ⟨[], vma :: rest, rfl, fun zero => absurd zero (show -eNoMem ≠ 0 by decide), .refl valid⟩
    cases allocs with
    | nil => exact stopped s
    | cons alloc allocs =>
      rw [dupVmas]
      cases given : alloc.vma with
      | none => exact stopped s
      | some nvma =>
        rw [flatMap_cons, append_assoc] at fresh
        have holding := Holding.of_fresh valid fresh
        have holding : Holding alloc (nvma :: allocs.flatMap Alloc.ptrs) mm := by
          refine holding.drop ?_
          rw [given, append_assoc]
          exact sublist_append_right _ _
        have span := copied_span vma ▸ fine vma mem_cons_self
        refine .bind_ok (dupVma_ok (backed vma mem_cons_self)) ?_
        refine .bind ((holding.insertNew vma.copied span _).excuse fun fault meets => overlap fault meets.1) ?_
        rintro between ⟨kept, added, objects⟩
        have gained := congrFun objects
        refine (copies s vma).bind ?_
        rintro ⟨s, ret⟩ _
        dsimp only
        split
        · exact ⟨[vma], rest, rfl, fun zero => absurd zero (show -eNoMem ≠ 0 by decide),
            .cons (.refl kept.valid) added gained⟩
        refine (ih kept.valid kept.later (fun vma member => fine vma (mem_cons_of_mem _ member)) ?_).mono ?_
        · intro other member shared
          obtain ⟨object, points, inside⟩ := backed other (mem_cons_of_mem _ member) shared
          exact ⟨object, points, by rwa [gained]⟩
        · rintro result ⟨done, later, parts, all, duplicated⟩
          exact ⟨vma :: done, later, parts ▸ rfl, all, duplicated.cons added gained⟩

theorem dupMmap_changes {source : MmStruct} {allocs : List Alloc} {copies : List Int}
    (referred : Referred mm) (from' : Referred source) (objects : source.shmems = mm.shmems)
    (fresh : (allocs.flatMap Alloc.ptrs ++ mm.inUse).Nodup) :
    Ends Overlap (dupMmap Spaces.copyOutcome allocs mm source copies) fun result =>
      Changed mm result.1 ∧ (result.2.2 = 0 → ∀ addr backing, source.shows addr = some backing →
      result.1.shows addr = some backing) := by
  have areas : ∀ vma, vma ∈ source.mmapList.reverse.map source.vmas ↔ vma ∈ source.areas := by
    intro vma
    rw [map_reverse, mem_reverse, MmStruct.areas]
  have backed : ∀ vma ∈ source.mmapList.reverse.map source.vmas, vma.Backed mm.shmems := by
    intro vma member
    rw [← objects]
    exact from'.backed vma ((areas vma).mp member)
  have fine : ∀ vma ∈ source.mmapList.reverse.map source.vmas, Fine vma.span := by
    intro vma member
    obtain ⟨p, listed, rfl⟩ := mem_areas.mp ((areas vma).mp member)
    exact from'.valid.fine p listed
  have copying : ∀ copies vma, Ends Overlap (Spaces.copyOutcome copies vma) fun _ => True := fun _ _ => trivial
  refine (dupVmas_ends copying (fun _ overlap => overlap) referred.valid fresh fine backed).mono ?_
  rintro ⟨after, s, ret⟩ ⟨done, later, parts, all, duplicated⟩
  have copied : ∀ vma ∈ done, vma ∈ source.areas := by
    intro vma member
    refine (areas vma).mp ?_
    rw [parts]
    exact mem_append_left _ member
  constructor
  · refine .of_more referred duplicated.valid duplicated.listed ?_ ?_ ?_
    · intro object
      rw [uses_copied]
      exact duplicated.objects object
    · intro vma member
      obtain ⟨whole, inside, rfl⟩ := mem_map.mp member
      rw [← objects]
      exact (from'.backed whole (copied whole inside)).copied
    · -- An object that the source uses has a reference.
      intro object some
      right
      rw [uses_copied, uses, countP_pos_iff] at some
      obtain ⟨vma, member, points⟩ := some
      have used : 0 < uses object source.areas := countP_pos_iff.mpr ⟨vma, copied vma member, points⟩
      have enough := from'.enough object
      rw [objects] at enough
      omega
  · intro zero addr backing shown
    obtain ⟨vma, member, covered, same⟩ := (from'.valid.shows_iff_areas addr backing).mp shown
    rw [← areas, parts, all zero, append_nil] at member
    refine (duplicated.valid.shows_iff_areas addr backing).mpr ⟨vma.copied, ?_, ?_, ?_⟩
    · exact duplicated.listed.mem_iff.mpr (mem_append_left _ (mem_map_of_mem member))
    · rwa [copied_span]
    · rw [copied_backs, same]

theorem exitMmap_changes (referred : Referred mm) : ∃ after, exitMmap mm = .ok after ∧ Changed mm after := by
  have clears : ∀ (some : List Ptr) (pgdir : Nat → BitVec 64), (∀ p ∈ some, p ∈ mm.mmapList) →
      ∃ cleared, some.foldlM (fun mm p => unmapRange mm (mm.vmas p).vmStart (mm.vmas p).vmEnd)
        { mm with pgdir } = .ok { mm with pgdir := cleared } := by
    intro some
    induction some with
    | nil => exact fun pgdir _ => ⟨pgdir, rfl⟩
    | cons p others ih =>
      intro pgdir inside
      obtain ⟨first, last, access⟩ := referred.valid.fine p (inside p mem_cons_self)
      obtain ⟨cleared, ran⟩ := ih (MmStruct.clearPages { mm with pgdir } (mm.vmas p).vmStart
        (mm.vmas p).vmEnd).pgdir fun q member => inside q (mem_cons_of_mem p member)
      have clear : unmapRange { mm with pgdir } (mm.vmas p).vmStart (mm.vmas p).vmEnd = .ok
        (MmStruct.clearPages { mm with pgdir } _ _) := unmapRange_ok first last access
      refine ⟨cleared, ?_⟩
      rwa [foldlM_cons, clear]
  obtain ⟨cleared, ran⟩ := clears mm.mmapList mm.pgdir fun _ member => member
  exact ⟨_, ran, .of_same referred (referred.valid.pages cleared) rfl rfl rfl⟩

theorem destroyVmas_ends (listed : List Ptr) (mm : MmStruct) : Ends (Orphan mm.vmas listed)
    (destroyVmas mm listed) fun after =>
      after.shmems = (listed.map mm.vmas).foldl (fun shmems vma => vma.released shmems) mm.shmems := by
  induction listed generalizing mm with
  | nil => rfl
  | cons p rest ih =>
    refine ((vmaDestroy_ends { mm with mmapList := rest } p).excuse ?_).bind ?_
    · rintro fault ⟨fails, q, member, orphan⟩
      exact ⟨fails, q, mem_singleton.mp member ▸ mem_cons_self, orphan⟩
    rintro between rfl
    refine (ih _).excuse ?_
    rintro fault ⟨fails, q, member, orphan⟩
    exact ⟨fails, q, mem_cons_of_mem p member, orphan⟩

theorem mmDestroy_ends (backed : ∀ vma ∈ mm.areas, vma.Backed mm.shmems) : Ends Overlap (mmDestroy mm)
    fun after => ∀ object, after.shmems object = (mm.shmems object).lose
    (uses object mm.areas) := by
  refine ((destroyVmas_ends mm.mmapList { mm with mmapTree := none }).excuse ?_).mono ?_
  · rintro fault ⟨_, p, member, shared, orphan⟩
    obtain ⟨object, points, _⟩ := backed _ (mem_areas.mpr ⟨p, member, rfl⟩) shared
    cases orphan.symm.trans points
  · intro after objects object
    rw [objects, released_fold]
    rfl

end Ucore.Vmm
