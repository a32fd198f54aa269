import Ucore.Proofs.VmaCalls

/-! What an address space shows at each address, apart from how its areas are cut:
the flags, the backing of shared addresses, and the page table entry. `mm_unmap` is
specified against this view. -/

namespace Ucore.Vmm
open Lib RbTree List Option

/-- The flags at an address, and for a shared address the object with the offset in it. -/
structure Backing where
  flags : BitVec 32
  shared : Option (Option Ptr × Nat)
deriving DecidableEq

def Vma.backs (vma : Vma) (addr : Nat) : Backing :=
  ⟨vma.vmFlags, if vma.Shared then some (vma.shmem, wrap (vma.shmemOff + (addr - vma.vmStart))) else none⟩

/-- What an address space shows at an address, or `none` outside its areas. -/
def MmStruct.shows (mm : MmStruct) (addr : Nat) : Option Backing :=
  (mm.mmapList.find? fun p => decide ((mm.span p).Covers addr)).map fun p => (mm.vmas p).backs addr

variable {mm after : MmStruct} {alloc : Alloc} {start stop addr : Nat} {vma : Vma}

theorem Valid.shows_iff (valid : Valid mm) (addr : Nat) (backing : Backing) :
    mm.shows addr = some backing ↔ ∃ p ∈ mm.mmapList, (mm.span p).Covers addr ∧
    (mm.vmas p).backs addr = backing := by
  rw [MmStruct.shows, map_eq_some_iff]
  constructor
  · rintro ⟨p, found, same⟩
    exact ⟨p, mem_of_find?_eq_some found, by simpa using find?_some found, same⟩
  rintro ⟨p, member, covered, same⟩
  cases found : mm.mmapList.find? fun p => decide ((mm.span p).Covers addr) with
  | none => exact absurd covered (by simpa using find?_eq_none.mp found p member)
  | some q =>
    have here : (mm.span q).Covers addr := by simpa using find?_some found
    rw [← valid.ordered.unique member (mem_of_find?_eq_some found) covered here]
    exact ⟨p, rfl, same⟩

theorem shows_none (nothing : ∀ p ∈ mm.mmapList, ¬ (mm.span p).Covers addr) : mm.shows addr = none := by
  rw [MmStruct.shows, map_eq_none_iff]
  simpa using nothing

theorem Vma.backs_resized {first last : Nat} (low : vma.vmStart ≤ first) (above : first ≤ addr) :
    (vma.resized first last).backs addr = vma.backs addr := by
  have shared : (vma.resized first last).Shared ↔ vma.Shared := Iff.rfl
  simp only [Vma.backs, shared]
  by_cases share : vma.Shared
  · have moved : (vma.resized first last).shmemOff = wrap (vma.shmemOff + (first - vma.vmStart)) := if_pos share
    have same : wrap (wrap (vma.shmemOff + (first - vma.vmStart)) + (addr - first)) = wrap
      (vma.shmemOff + (addr - vma.vmStart)) := by
      simp only [wrap]
      omega
    rw [if_pos share, if_pos share, moved]
    simp only [Vma.resized, same]
  · rw [if_neg share, if_neg share]
    rfl

theorem Met.backs_rest {vma rest : Vma} (met : Met start stop vma.span)
    (left : vma.rest start stop = some rest) (covered : rest.span.Covers addr) :
    rest.backs addr = vma.backs addr := by
  have meets := met.meets
  rw [Vma.rest] at left
  split at left
  · cases left
    exact Vma.backs_resized le_rfl covered.1
  split at left
  · cases left
    exact Vma.backs_resized meets.1.le covered.1
  · cases left

theorem Trimmed.shows {met left : List Ptr} (trimmed : Trimmed start stop met left mm after)
    (valid : Valid mm) (kept : Valid after) (outside : ¬ Span.Covers ⟨start, stop⟩ addr) :
    after.shows addr = mm.shows addr := by
  apply ext
  intro backing
  rw [kept.shows_iff, valid.shows_iff]
  constructor
  · rintro ⟨p, member, covered, same⟩
    rcases mem_append.mp (trimmed.listed.mem_iff.mp member) with some | other
    · obtain ⟨inside, some⟩ := mem_filter.mp some
      obtain ⟨rest, left⟩ := isSome_iff_exists.mp some
      have own : after.vmas p = rest := by rw [trimmed.trimmed p inside, left, getD_some]
      have met := trimmed.meets p inside
      rw [MmStruct.span, own] at covered
      rw [own, met.backs_rest left covered] at same
      exact ⟨p, trimmed.parts.mem_iff.mpr (mem_append_left _ inside),
        ((met.rest_covers addr).mp ⟨rest, left, covered⟩).1, same⟩
    · rw [MmStruct.span, trimmed.same p other] at covered
      rw [trimmed.same p other] at same
      exact ⟨p, trimmed.parts.mem_iff.mpr (mem_append_right _ other), covered, same⟩
  · rintro ⟨p, member, covered, same⟩
    rcases mem_append.mp (trimmed.parts.mem_iff.mp member) with inside | other
    · have met := trimmed.meets p inside
      obtain ⟨rest, left, around⟩ := (met.rest_covers addr).mpr ⟨covered, outside⟩
      have own : after.vmas p = rest := by rw [trimmed.trimmed p inside, left, getD_some]
      refine ⟨p, trimmed.listed.mem_iff.mpr (mem_append_left _ ?_), ?_, ?_⟩
      · exact mem_filter.mpr ⟨inside, left ▸ rfl⟩
      · rwa [MmStruct.span, own]
      · rw [own, met.backs_rest left around, same]
    · refine ⟨p, trimmed.listed.mem_iff.mpr (mem_append_right _ other), ?_, ?_⟩
      · rwa [MmStruct.span, trimmed.same p other]
      · rw [trimmed.same p other, same]

/-- The area is shared, and an area without an object shows something else. -/
def Vma.Loses (vma : Vma) : Prop := vma.Shared ∧ ¬ (vma.shmem = none ∧ wrap vma.shmemOff = 0)

/-- The front part that `mm_unmap` makes shows the same, unless an object is behind the area. -/
theorem Vma.backs_front (vma : Vma) (plain : ¬ vma.Loses) :
    (Vma.backs ⟨vma.vmStart, start, vma.vmFlags, none, 0⟩ addr) = vma.backs addr := by
  have shared : Vma.Shared ⟨vma.vmStart, start, vma.vmFlags, none, 0⟩ ↔ vma.Shared := Iff.rfl
  simp only [Vma.backs, shared]
  by_cases share : vma.Shared
  · have missing := not_not.mp (not_and.mp plain share)
    have offset : wrap (0 + (addr - vma.vmStart)) = wrap (vma.shmemOff + (addr - vma.vmStart)) := by
      have zero := missing.2
      simp only [wrap] at zero ⊢
      omega
    rw [if_pos share, if_pos share, missing.1, offset]
  · rw [if_neg share, if_neg share]

theorem Vma.backs_front_iff {vma : Vma} (share : vma.Shared)
    (same : (Vma.backs ⟨vma.vmStart, start, vma.vmFlags, none, 0⟩ vma.vmStart) = vma.backs vma.vmStart) : ¬ vma.Loses := by
  have shared : Vma.Shared ⟨vma.vmStart, start, vma.vmFlags, none, 0⟩ ↔ vma.Shared := Iff.rfl
  simp only [Vma.backs, shared, if_pos share] at same
  simp only [Backing.mk.injEq, true_and, Option.some.injEq, Prod.mk.injEq, Nat.sub_self, Nat.add_zero] at same
  exact fun backed => backed.2 ⟨same.1.symm, same.2.symm⟩

theorem Holed.shows {p nvma : Ptr} (holed : Holed start stop p nvma mm after) (valid : Valid mm) (kept : Valid after)
    (full : start < stop) (plain : ¬ (mm.vmas p).Loses)
      (outside : ¬ Span.Covers ⟨start, stop⟩ addr) : after.shows addr = mm.shows addr := by
  have before := holed.before
  have beyond := holed.beyond
  have front : (after.span nvma).Covers addr ↔ (mm.vmas p).vmStart ≤ addr ∧ addr < start := by
    rw [MmStruct.span, holed.front]
    rfl
  have back : (after.span p).Covers addr ↔ stop ≤ addr ∧ addr < (mm.vmas p).vmEnd := by
    rw [MmStruct.span, holed.back]
    rfl
  have whole : (mm.span p).Covers addr ↔ (after.span nvma).Covers addr ∨ (after.span p).Covers addr := by
    rw [front, back]
    simp only [Span.Covers, MmStruct.span, Vma.span] at outside ⊢
    omega
  have frontBacks : (after.vmas nvma).backs addr = (mm.vmas p).backs addr := by
    rw [holed.front]
    exact (mm.vmas p).backs_front plain
  have backBacks (last : (after.span p).Covers addr) : (after.vmas p).backs addr = (mm.vmas p).backs addr := by
    rw [holed.back]
    exact Vma.backs_resized (by omega) (back.mp last).1
  apply ext
  intro backing
  rw [kept.shows_iff, valid.shows_iff]
  constructor
  · rintro ⟨q, member, covered, same⟩
    rcases mem_cons.mp (holed.listed.mem_iff.mp member) with rfl | inside
    · exact ⟨p, holed.member, whole.mpr (.inl covered), frontBacks ▸ same⟩
    by_cases here : q = p
    · rw [here] at covered same
      exact ⟨p, holed.member, whole.mpr (.inr covered), backBacks covered ▸ same⟩
    · rw [MmStruct.span, holed.same q inside here] at covered
      rw [holed.same q inside here] at same
      exact ⟨q, inside, covered, same⟩
  · rintro ⟨q, member, covered, same⟩
    by_cases here : q = p
    · rw [here] at covered same
      rcases whole.mp covered with first | last
      · exact ⟨nvma, holed.listed.mem_iff.mpr mem_cons_self, first, frontBacks.trans same⟩
      · exact ⟨p, holed.listed.mem_iff.mpr (mem_cons_of_mem _ holed.member), last, (backBacks last).trans same⟩
    · refine ⟨q, holed.listed.mem_iff.mpr (mem_cons_of_mem _ member), ?_, ?_⟩
      · rwa [MmStruct.span, holed.same q member here]
      · rw [holed.same q member here, same]

/-- When `mm_unmap` sees what it has to do: the search at the start of the range tells
the truth about the range, the range is not a hole in a shared area, and the pages of
the range that have an entry lie in areas. -/
structure Plain (mm : MmStruct) (start stop : Nat) : Prop where
  seen : Seen mm start stop
  whole : ∀ p ∈ mm.mmapList, (mm.vmas p).vmStart < start → stop < (mm.vmas p).vmEnd → ¬ (mm.vmas p).Loses
  owned : ∀ page, Span.Covers ⟨start, stop⟩ (page * pgSize) → mm.pgdir page ≠ 0 →
    ∃ p ∈ mm.mmapList, (mm.span p).Covers (page * pgSize)

/-- The whole effect of `mm_unmap` on what an address space shows. -/
structure Erased (mm after : MmStruct) (start stop : Nat) : Prop where
  inside : ∀ addr, Span.Covers ⟨start, stop⟩ addr → after.shows addr = none ∧ after.pgdir (addr / pgSize) = 0
  outside : ∀ addr, ¬ Span.Covers ⟨start, stop⟩ addr →
    after.shows addr = mm.shows addr ∧ after.pgdir (addr / pgSize) = mm.pgdir (addr / pgSize)

theorem Unmapped.pages (unmapped : Unmapped start stop mm after 0) (valid : Valid mm) (full : start < stop)
    (plain : Plain mm start stop) (page : Nat) : after.pgdir page = if Span.Covers ⟨start, stop⟩
      (page * pgSize) then 0 else mm.pgdir page := by
  have clear := unmapped.clear valid full plain.seen
  cases unmapped with
  | refused failed => exact absurd rfl failed
  | missed nothing same =>
    obtain ⟨cache, rfl⟩ := same
    split
    · next inside =>
      refine not_not.mp fun some => ?_
      obtain ⟨p, member, covered⟩ := plain.owned page inside some
      exact (clear p member).not_covers covered inside
    · rfl
  | holed holed => exact holed.pages page
  | @trimmed met left trimmed =>
    rw [trimmed.pages page]
    by_cases inside : Span.Covers ⟨start, stop⟩ (page * pgSize)
    · split
      · rfl
      · next unmet =>
        -- An entry in the range belongs to an area that meets the range.
        refine not_not.mp fun some => ?_
        obtain ⟨p, member, covered⟩ := plain.owned page inside some
        rcases mem_append.mp (trimmed.parts.mem_iff.mp member) with meets | other
        · exact unmet ⟨inside, p, meets, covered⟩
        · exact (trimmed.apart p other).not_covers covered inside
    · rw [if_neg inside, if_neg fun both => inside both.1]

theorem Unmapped.erased (unmapped : Unmapped start stop mm after 0) (valid : Valid mm)
    (kept : Valid after) (range : Fine ⟨start, stop⟩) (plain : Plain mm start stop) :
    Erased mm after start stop := by
  have full := range.2.2.2.1
  have clear := unmapped.clear valid full plain.seen
  have nothing : ∀ addr, Span.Covers ⟨start, stop⟩ addr → after.shows addr = none := by
    intro addr covered
    exact shows_none fun p member around => (clear p member).not_covers around covered
  have pages := unmapped.pages valid full plain
  have shows : ∀ addr, ¬ Span.Covers ⟨start, stop⟩ addr → after.shows addr = mm.shows addr := by
    intro addr outside
    cases unmapped with
    | refused failed => exact absurd rfl failed
    | missed nothing same =>
      obtain ⟨cache, rfl⟩ := same
      rfl
    | holed holed => exact holed.shows valid kept full (plain.whole _ holed.member holed.before holed.beyond) outside
    | trimmed trimmed => exact trimmed.shows valid kept outside
  have page : ∀ addr, Span.Covers ⟨start, stop⟩ (addr / pgSize * pgSize) ↔ Span.Covers ⟨start, stop⟩ addr := by
    obtain ⟨first, last, _⟩ := range
    intro addr
    simp only [Span.Covers, pgSize] at first last ⊢
    omega
  refine ⟨fun addr covered => ⟨nothing addr covered, ?_⟩, fun addr outside => ⟨shows addr outside, ?_⟩⟩
  · rw [pages, if_pos ((page addr).mpr covered)]
  · rw [pages, if_neg fun covered => outside ((page addr).mp covered)]

/-- A call that erases the range has seen what it had to do. -/
theorem Unmapped.plain (unmapped : Unmapped start stop mm after 0) (valid : Valid mm) (kept : Valid after)
    (range : Fine ⟨start, stop⟩)
    (found : (∃ p ∈ mm.mmapList, (mm.span p).Covers start) ∨ ∃ cache, after = { mm with mmapCache := cache })
    (erased : Erased mm after start stop) : Plain mm start stop := by
  have full := range.2.2.2.1
  refine ⟨?_, ?_, ?_⟩
  · rcases found with covered | ⟨cache, rfl⟩
    · exact .inl covered
    -- Nothing has changed, so an area that begins in the range is still there.
    · refine .inr fun p member begins => ?_
      have shown := (valid.shows_iff (mm.span p).start _).mpr ⟨p, member, ⟨le_rfl, valid.ordered.full p member⟩, rfl⟩
      have gone := (erased.inside (mm.span p).start ⟨begins.1.le, begins.2⟩).1
      cases shown.symm.trans gone
  · intro p member before beyond backed
    have covers : (mm.span p).Covers start := ⟨before.le, full.trans beyond⟩
    cases unmapped with
    | refused failed => exact absurd rfl failed
    | missed nothing => exact nothing p member covers
    | @holed q nvma holed =>
      obtain rfl := valid.ordered.unique holed.member member ⟨holed.before.le, full.trans holed.beyond⟩ covers
      have outside : ¬ Span.Covers ⟨start, stop⟩ (mm.vmas q).vmStart := fun inside => Nat.not_lt_of_le inside.1 before
      have same := (erased.outside _ outside).1
      have shown := (valid.shows_iff (mm.vmas q).vmStart _).mpr ⟨q, member, ⟨le_rfl, valid.ordered.full q member⟩, rfl⟩
      rw [shown, kept.shows_iff] at same
      obtain ⟨r, listed, around, shows⟩ := same
      have front : (after.span nvma).Covers (mm.vmas q).vmStart := by
        rw [MmStruct.span, holed.front]
        exact ⟨le_rfl, before⟩
      obtain rfl := kept.ordered.unique listed (holed.listed.mem_iff.mpr mem_cons_self) around front
      rw [holed.front] at shows
      exact Vma.backs_front_iff backed.1 shows backed
    | trimmed trimmed =>
      rcases mem_append.mp (trimmed.parts.mem_iff.mp member) with met | other
      · exact (trimmed.meets p met).oneSided ⟨before, beyond⟩
      · exact (trimmed.apart p other).not_covers covers ⟨le_rfl, full⟩
  · intro page inside some
    by_contra alone
    have cleared : after.pgdir page = 0 := by
      have whole : page * pgSize / pgSize = page := Nat.mul_div_cancel page (by decide)
      rw [← whole]
      exact (erased.inside (page * pgSize) inside).2
    apply some
    cases unmapped with
    | refused failed => exact absurd rfl failed
    | missed _ same =>
      obtain ⟨cache, rfl⟩ := same
      exact cleared
    | holed holed =>
      have before := holed.before
      have beyond := holed.beyond
      refine absurd ⟨_, holed.member, ?_⟩ alone
      simp only [Span.Covers, MmStruct.span, Vma.span] at inside ⊢
      omega
    | trimmed trimmed =>
      rwa [trimmed.pages, if_neg] at cleared
      rintro ⟨_, p, met, covered⟩
      exact alone ⟨p, trimmed.parts.mem_iff.mpr (mem_append_left _ met), covered⟩

/-- The range lies strictly inside one area, and there is no memory for a second one. -/
def Short (alloc : Alloc) (mm : MmStruct) (start stop : Nat) : Prop :=
  alloc.nvma = none ∧ ∃ p ∈ mm.mmapList, (mm.vmas p).vmStart < start ∧ stop < (mm.vmas p).vmEnd

/-- What `mm_unmap` does after its search, and when it returns a failure. -/
theorem mmUnmap_found {len : Nat} {ret : Int} (valid : Valid mm)
    (access : UserAccess (roundDown addr) (roundUp (wrap (addr + len))))
    (ran : mmUnmap alloc mm addr len = .ok (after, ret)) :
    (ret ≠ 0 ↔ Short alloc mm (roundDown addr) (roundUp (wrap (addr + len)))) ∧
      ((∃ p ∈ mm.mmapList, (mm.span p).Covers (roundDown addr)) ∨ ∃ cache, after = { mm with mmapCache := cache }) := by
  have full := access.2.1
  rw [mmUnmap, if_neg (not_not_intro access)] at ran
  obtain ⟨cache, found, searched, _, answers⟩ := findVma_spec valid (roundDown addr)
  rw [searched] at ran
  cases found with
  | none =>
    cases ran
    refine ⟨iff_of_false (absurd rfl) ?_, .inr ⟨cache, rfl⟩⟩
    rintro ⟨_, p, member, before, beyond⟩
    exact answers p member ⟨before.le, full.trans beyond⟩
  | some p =>
    refine ⟨?_, .inl ⟨p, answers⟩⟩
    have unique {q : Ptr} (member : q ∈ mm.mmapList) (before : (mm.vmas q).vmStart < roundDown addr)
        (beyond : roundUp (wrap (addr + len)) < (mm.vmas q).vmEnd) : q = p :=
      valid.ordered.unique member answers.1 ⟨before.le, full.trans beyond⟩ answers.2
    have begins : ¬ roundUp (wrap (addr + len)) ≤ (mm.vmas p).vmStart := Nat.not_le_of_gt (answers.2.1.trans_lt full)
    dsimp only [bind, Except.bind] at ran
    rw [if_neg begins, unmapFrom] at ran
    split at ran
    · next inside =>
      rw [unmapInside] at ran
      cases given : alloc.nvma with
      | none =>
        rw [given] at ran
        cases ran
        exact iff_of_true (show -eNoMem ≠ 0 by decide) ⟨given, p, answers.1, inside⟩
      | some nvma =>
        rw [given] at ran
        obtain ⟨_, _, ran⟩ := exists_of_bind ran
        obtain ⟨_, _, ran⟩ := exists_of_bind ran
        obtain ⟨_, _, ran⟩ := exists_of_bind ran
        cases ran
        exact iff_of_false (absurd rfl) fun short => by cases given.symm.trans short.1
    · next inside =>
      obtain ⟨_, _, ran⟩ := exists_of_bind ran
      obtain ⟨_, _, ran⟩ := exists_of_bind ran
      cases ran
      refine iff_of_false (absurd rfl) ?_
      rintro ⟨_, q, member, before, beyond⟩
      exact inside (unique member before beyond ▸ ⟨before, beyond⟩)

/-- A call of `mm_unmap` that returns 0 removes the areas and the entries of the range and changes
nothing
outside exactly when it sees what it has to do; it returns a failure only where there is no memory
for the
second part of an area. -/
theorem unmap_erases_when_plain (alloc : Alloc) (mm : MmStruct) (addr len : Nat) (valid : Valid mm)
    (allowed : Allowed mm ⟨.unmap addr len, alloc⟩) (access : UserAccess (roundDown addr) (roundUp (wrap (addr + len)))) :
    Ends NoObject (mmUnmap alloc mm addr len) fun result =>
      (result.2 = 0 → Erased mm result.1 (roundDown addr) (roundUp (wrap (addr + len)))) ↔
        Plain mm (roundDown addr) (roundUp (wrap (addr + len))) ∨ Short alloc mm (roundDown addr)
          (roundUp (wrap (addr + len))) := by
  have ends := (mmUnmap_ends addr len (holding_of_allowed valid allowed)).excuse fun _ => And.left
  have range : Fine ⟨roundDown addr, roundUp (wrap (addr + len))⟩ := ⟨roundDown_aligned _, roundUp_aligned _, access⟩
  cases ran : mmUnmap alloc mm addr len with
  | error => exact ends.fault ran
  | ok result =>
    obtain ⟨after, ret⟩ := result
    obtain ⟨kept, unmapped⟩ := ends.value ran
    obtain ⟨failed, found⟩ := mmUnmap_found valid access ran
    by_cases done : ret = 0
    · subst done
      have enough : ¬ Short alloc mm _ _ := fun short => failed.mpr short rfl
      rw [or_iff_left enough]
      exact ⟨fun erased => unmapped.plain valid kept.valid range found (erased rfl),
        fun plain _ => unmapped.erased valid kept.valid range plain⟩
    · exact iff_of_true (fun zero => absurd zero done) (.inr (failed.mp done))

def lone (vma : Vma) : MmStruct :=
  { vmas := fun _ => vma, links := fun _ => ⟨false, 0, 0, 0⟩, shmems := fun _ => ⟨0, 0, 0⟩, pgdir := fun _ => 0
    mmapList := [1]
    mmapTree := none, mmapCache := none, mapCount := 1, brkStart := 0, brk := 0 }

theorem lone_valid (fine : Fine vma.span) : Valid (lone vma) := by
  refine ⟨?_, ⟨?_, pairwise_singleton _ _⟩, rfl, by simp [lone], by simp [lone], rfl⟩
  · exact fun p _ => fine
  · exact fun p _ => fine.2.2.2.1

theorem unmap_erases_lone : (lone ⟨0x400000, 0x403000, vmRead, none, 0⟩).shows 0x401000 = some ⟨vmRead, none⟩ ∧
    Ends NoObject (mmUnmap ⟨some 2, none, none⟩ (lone ⟨0x400000, 0x403000, vmRead, none, 0⟩) 0x401000 0x1000) fun result =>
      result.2 = 0 → Erased (lone ⟨0x400000, 0x403000, vmRead, none, 0⟩) result.1
        (roundDown 0x401000) (roundUp (wrap (0x401000 + 0x1000))) := by
  have exact_ := unmap_erases_when_plain ⟨some 2, none, none⟩ (lone ⟨0x400000, 0x403000, vmRead, none, 0⟩) 0x401000 0x1000
    (lone_valid (by decide)) (by decide) (by decide)
  refine ⟨by decide, exact_.mono fun result iff => iff.mpr (.inl ⟨.inl ⟨1, by decide, by decide⟩, ?_, ?_⟩)⟩
  · exact fun p _ _ _ backed => absurd backed.1 (by decide : ¬ Vma.Shared ⟨0x400000, 0x403000, vmRead, none, 0⟩)
  · exact fun page _ some => absurd rfl some

/-- An area that begins inside the range survives, and the front part of a shared area
with a hole loses its object. -/
theorem unmap_leaves_and_loses : (∃ after, Valid (lone ⟨0x401000, 0x402000, vmRead, none, 0⟩) ∧
      mmUnmap ⟨none, none, none⟩ (lone ⟨0x401000, 0x402000, vmRead, none, 0⟩) 0x400000 0x2000 = .ok (after, 0) ∧
      after.shows 0x401000 = some ⟨vmRead, none⟩) ∧ ∃ after,
        Valid (lone ⟨0x400000, 0x403000, vmRead ||| vmShare, some 7, 0⟩) ∧
      mmUnmap ⟨some 2, none, none⟩ (lone ⟨0x400000, 0x403000, vmRead ||| vmShare, some 7, 0⟩)
        0x401000 0x1000 = .ok (after, 0) ∧
      (lone ⟨0x400000, 0x403000, vmRead ||| vmShare, some 7, 0⟩).shows 0x400000 = some
        ⟨vmRead ||| vmShare, some (some 7, 0)⟩ ∧
      after.shows 0x400000 = some ⟨vmRead ||| vmShare, some (none, 0)⟩ :=
        ⟨⟨_, lone_valid (by decide), rfl, by decide⟩, _, lone_valid (by decide), rfl, by decide,
        by decide⟩

end Ucore.Vmm
