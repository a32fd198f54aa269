import Ucore.Shmem

/-! The tables of a shared object: their list, the search for the table of an offset, and
what getting a table can do. -/

namespace Ucore.Pmm
open Lib Vmm List Function

variable {shmem : ShmemStruct} {m : Memory} {slot : Nat} {create : Bool} {after : Memory}
    {addr : Nat} {next : ShmemStruct} {new : Shmn} {given : Option Shmn}
  {shmn : Shmn}

/-- The tables of an object cover disjoint ranges of the right size. -/
structure Shaped (shmem : ShmemStruct) : Prop where
  ordered : Span.Ordered Shmn.span shmem.shmnList
  aligned : ∀ shmn ∈ shmem.shmnList, shmn.start % ptSize = 0 ∧ shmn.stop = shmn.start + ptSize
  cached : ∀ shmn ∈ shmem.shmnCache, shmn ∈ shmem.shmnList

theorem checkShmnOverlap_ok {prev next : Shmn} (first : prev.start < prev.stop)
    (second : next.start < next.stop) (apart : prev.stop ≤ next.start) :
    checkShmnOverlap prev next = .ok () := by
  simp only [checkShmnOverlap, ensure_bind, if_pos first, if_pos apart]
  rw [ensure, if_pos second]

theorem insertShmn_ok {list : List Shmn} (ordered : Span.Ordered Shmn.span list) (full : new.start < new.stop)
    (apart : ∀ shmn ∈ list, new.span.Apart shmn.span) : ∃ before rest, list = before ++ rest ∧
      insertShmn list new = .ok (before ++ new :: rest) ∧ Span.Ordered Shmn.span
      (before ++ new :: rest) := by
  obtain ⟨before, beforeIs⟩ := @exists_eq _ (list.takeWhile fun prev => decide (prev.start ≤ new.start))
  obtain ⟨rest, restIs⟩ := @exists_eq _ (list.dropWhile fun prev => decide (prev.start ≤ new.start))
  have whole : list = before ++ rest := by rw [beforeIs, restIs, takeWhile_append_dropWhile]
  rw [whole] at ordered apart
  have lower : ∀ shmn ∈ before, shmn.start ≤ new.start := by
    intro shmn member
    rw [beforeIs] at member
    simpa using mem_takeWhile_imp member
  have upper : ∀ shmn ∈ rest, new.start ≤ shmn.start := by
    intro shmn member
    cases rest with
    | nil => cases member
    | cons head =>
      have first : new.start < head.start := by
        have stops := head_dropWhile_not (fun prev : Shmn => decide (prev.start ≤ new.start))
          (show list.dropWhile _ ≠ [] by rw [← restIs]; simp)
        simpa only [← restIs, head_cons, decide_eq_false_iff_not, not_le] using stops
      rcases mem_cons.mp member with rfl | deeper
      · exact first.le
      · have ascending := (ordered.sublist (sublist_append_right before _)).starts
        exact Nat.le_of_lt (first.trans ((pairwise_cons.mp ascending).1 shmn deeper))
  have after := ordered.insert full apart lower upper
  refine ⟨before, rest, whole, ?_, after⟩
  have first : unlessListHead before.getLast? (fun prev => checkShmnOverlap prev new) = .ok () := by
    cases last : before.getLast? with
    | none => rfl
    | some prev =>
      have member := mem_of_getLast? last
      have below := (pairwise_append.mp after.ascending).2.2 prev member new mem_cons_self
      exact checkShmnOverlap_ok (ordered.full prev (mem_append_left _ member)) full below
  have second : unlessListHead rest.head? (checkShmnOverlap new) = .ok () := by
    cases head : rest.head? with
    | none => rfl
    | some next =>
      have member := mem_of_head? head
      have above := (pairwise_cons.mp (pairwise_append.mp after.ascending).2.1).1 next member
      exact checkShmnOverlap_ok full (ordered.full next (mem_append_right _ member)) above
  simp only [insertShmn, ← beforeIs, ← restIs, first, second]
  rfl

theorem findShmn_spec (shaped : Shaped shmem) (addr : Nat) :
    (∃ shmn ∈ shmem.shmnList, shmn.span.Covers addr ∧
    findShmn shmem addr = ({ shmem with shmnCache := some shmn }, some shmn)) ∨
    (∀ shmn ∈ shmem.shmnList, ¬ shmn.span.Covers addr) ∧ findShmn shmem addr = (shmem, none) := by
  rw [findShmn]
  cases cached : shmem.shmnCache.filter fun shmn => decide (shmn.span.Covers addr) with
  | some shmn =>
    obtain ⟨is, covers⟩ := Option.filter_eq_some_iff.mp cached
    exact .inl ⟨shmn, shaped.cached shmn is, by simpa using covers, by simp only [← is]⟩
  | none =>
    cases found : shmem.shmnList.find? fun shmn => decide (shmn.span.Covers addr) with
    | some shmn => exact .inl ⟨shmn, mem_of_find?_eq_some found, by simpa using find?_some found, rfl⟩
    | none => exact .inr ⟨by simpa using find?_eq_none.mp found, rfl⟩

theorem slotEntry_setEntry (tabled : Tabled shmem slot) (pte : Pte) :
    slotEntry (shmem.setEntry slot pte) = update (slotEntry shmem) slot pte := by
  funext other
  obtain rfl | here := eq_or_ne other slot
  · rw [update_self, slotEntry, if_pos (show Tabled (shmem.setEntry other pte) other from tabled)]
    exact update_self ..
  · have same : (shmem.setEntry slot pte).entry other = shmem.entry other := update_of_ne here ..
    rw [update_of_ne here, slotEntry, same]
    rfl

theorem slot_of_covers (aligned : shmn.start % ptSize = 0)
    (covers : shmn.span.Covers (roundDown addr)) :
    shmn.start / pgSize + (roundDown addr - shmn.start) / pgSize = addr / pgSize := by
  simp only [Shmn.span, Span.Covers, roundDown, ptSize, pgSize, nPteEntry] at *
  omega

theorem tabled_of_covers (member : shmn ∈ shmem.shmnList)
    (covers : shmn.span.Covers (roundDown addr)) : Tabled shmem (addr / pgSize) := by
  refine ⟨shmn, member, ?_⟩
  have same : addr / pgSize * pgSize = roundDown addr := by
    simp only [roundDown, pgSize]
    omega
  rwa [same]

theorem slotEntry_insert {before rest : List Shmn} (parts : shmem.shmnList = before ++ rest)
    (aligned : new.start % ptSize = 0 ∧ new.stop = new.start + ptSize)
    (apart : ∀ shmn ∈ shmem.shmnList, new.span.Apart shmn.span) :
    slotEntry { shmem.clearTable new.start with shmnList := before ++ new :: rest } = slotEntry shmem := by
  funext slot
  have inside : slot / nPteEntry = new.start / ptSize ↔ new.span.Covers (slot * pgSize) := by
    obtain ⟨first, last⟩ := aligned
    simp only [Shmn.span, Span.Covers, last]
    simp only [ptSize, pgSize, nPteEntry] at *
    omega
  have tables : Tabled { shmem.clearTable new.start with shmnList := before ++ new :: rest } slot ↔
    new.span.Covers (slot * pgSize) ∨ Tabled shmem slot := by
    simp only [Tabled, parts, mem_append, mem_cons]
    constructor
    · rintro ⟨shmn, first | rfl | last, covers⟩
      · exact .inr ⟨shmn, .inl first, covers⟩
      · exact .inl covers
      · exact .inr ⟨shmn, .inr last, covers⟩
    · rintro (covers | ⟨shmn, first | last, covers⟩)
      · exact ⟨new, .inr (.inl rfl), covers⟩
      · exact ⟨shmn, .inl first, covers⟩
      · exact ⟨shmn, .inr (.inr last), covers⟩
  rw [slotEntry, slotEntry]
  by_cases here : new.span.Covers (slot * pgSize)
  · have none : ¬ Tabled shmem slot := by
      rintro ⟨shmn, member, covers⟩
      exact (apart shmn member).not_covers here covers
    rw [if_pos (tables.mpr (.inl here)), if_neg none]
    exact if_pos (inside.mpr here)
  · have same := tables.trans (or_iff_right here)
    by_cases tabled : Tabled shmem slot
    · rw [if_pos (same.mpr tabled), if_pos tabled]
      exact if_neg fun within => here (inside.mp within)
    · rw [if_neg fun both => tabled (same.mp both), if_neg tabled]

/-- What `shmn_create` can do: there is no memory for the table, or it gets a new frame. -/
theorem shmnCreate_cases {start : Nat} (aligned : start % ptSize = 0) (shmem : ShmemStruct)
    (m : Memory) : (m.kmallocs.headD false = false ∧ shmnCreate shmem m start = .ok (shmem,
    m.kmalloc.1, none)) ∨
    (∃ after, m.kmalloc.1.allocPage = (after, none) ∧ shmnCreate shmem m start = .ok (shmem, after,
      none)) ∨ ∃ after f, m.kmalloc.1.allocPage = (after, some f) ∧
      shmnCreate shmem m start = .ok (shmem.clearTable start, after, some ⟨start, start + ptSize, f⟩) := by
  have whole : start % pgSize * nPteEntry = 0 := by
    simp only [ptSize, pgSize, nPteEntry] at *
    omega
  have result : m.kmalloc = (m.kmalloc.1, m.kmallocs.headD false) := rfl
  rw [shmnCreate, ensure_bind, if_pos whole, result]
  generalize m.kmalloc.1 = paid
  cases m.kmallocs.headD false with
  | false => exact .inl ⟨rfl, rfl⟩
  | true =>
    obtain ⟨after, given, taken⟩ : ∃ after given, paid.allocPage = (after, given) := ⟨_, _, rfl⟩
    cases given with
    | none =>
      refine .inr (.inl ⟨after, taken, ?_⟩)
      simp only [taken]
      rfl
    | some f =>
      refine .inr (.inr ⟨after, f, taken, ?_⟩)
      simp only [taken]
      rfl

inductive GotShmn (shmem : ShmemStruct) (m : Memory) (addr : Nat) (create : Bool) : ShmemStruct →
    Memory → Option Shmn → Prop where
  | found {shmn : Shmn} (member : shmn ∈ shmem.shmnList) (covers : shmn.span.Covers addr) :
      GotShmn shmem m addr create { shmem with shmnCache := some shmn } m (some shmn)
  | absent (off : create = false) : GotShmn shmem m addr create shmem m none
  | poor (short : m.kmallocs.headD false = false) : GotShmn shmem m addr create shmem m.kmalloc.1 none
  | full {after : Memory} (short : m.kmalloc.1.allocPage = (after, none)) : GotShmn shmem m addr create shmem after none
  | made {after : Memory} {new : Shmn} {before rest : List Shmn} (taken : m.kmalloc.1.allocPage = (after, some new.page))
      (aligned : new.start % ptSize = 0 ∧ new.stop = new.start + ptSize) (covers : new.span.Covers addr)
      (apart : ∀ shmn ∈ shmem.shmnList, new.span.Apart shmn.span) (parts : shmem.shmnList = before ++ rest)
      (ordered : Span.Ordered Shmn.span (before ++ new :: rest)) :
      GotShmn shmem m addr create { shmem.clearTable new.start with shmnList := before ++ new :: rest } after (some new)

theorem getShmn_spec (shaped : Shaped shmem) (m : Memory) (addr : Nat) (create : Bool) :
    ∃ next after given, getShmn shmem m addr create = .ok (next, after, given) ∧
    GotShmn shmem m addr create next after given := by
  rw [getShmn]
  rcases findShmn_spec shaped addr with ⟨shmn, member, covers, found⟩ | ⟨nothing, found⟩
  · refine ⟨_, m, some shmn, ?_, .found member covers⟩
    rw [found]
    dsimp only
    rw [ensure_bind, if_pos (show shmn.start ≤ addr ∧ addr < shmn.stop from covers)]
    rfl
  rw [found]
  cases create with
  | false => exact ⟨shmem, m, none, rfl, .absent rfl⟩
  | true =>
    generalize startIs : addr - addr % (pgSize * nPteEntry) = start
    have aligned : start % ptSize = 0 := by
      rw [← startIs]
      exact Nat.mod_eq_zero_of_dvd (Nat.dvd_sub_mod addr)
    have covers : Span.Covers ⟨start, start + ptSize⟩ addr := by
      have bound := Nat.mod_lt addr (show 0 < pgSize * nPteEntry by decide)
      simp only [Span.Covers, ptSize]
      omega
    simp only [Bool.true_eq_false, if_false]
    rcases shmnCreate_cases aligned shmem m with ⟨short, created⟩ | ⟨after, short, created⟩ | ⟨after, f, taken, created⟩
    · exact ⟨shmem, _, none, by rw [created]; rfl, .poor short⟩
    · exact ⟨shmem, after, none, by rw [created]; rfl, .full short⟩
    -- No table of the object meets the range of the new one, since none covers the address.
    have apart : ∀ shmn ∈ shmem.shmnList, (Shmn.span ⟨start, start + ptSize, f⟩).Apart shmn.span := by
      intro shmn member
      obtain ⟨first, last⟩ := shaped.aligned shmn member
      have away := nothing shmn member
      simp only [Span.Apart, Shmn.span, Span.Covers, last] at away covers ⊢
      simp only [ptSize, pgSize, nPteEntry] at *
      omega
    obtain ⟨before, rest, parts, inserted, ordered⟩ :=
      insertShmn_ok shaped.ordered (show start < start + ptSize by simp [ptSize, pgSize, nPteEntry])
      apart
    refine ⟨_, after, some ⟨start, start + ptSize, f⟩, ?_, .made taken ⟨aligned, rfl⟩ covers apart parts ordered⟩
    rw [created]
    show (insertShmn shmem.shmnList _ >>= _) = _
    rw [inserted]
    rfl

theorem GotShmn.table (got : GotShmn shmem m addr create next after (some shmn)) :
    shmn ∈ next.shmnList ∧ shmn.span.Covers addr := by
  cases got with
  | found member covers => exact ⟨member, covers⟩
  | made taken aligned covers => exact ⟨by simp, covers⟩

theorem GotShmn.entries (got : GotShmn shmem m addr create next after given) : slotEntry next = slotEntry shmem := by
  cases got with
  | found | absent | poor | full => rfl
  | made taken aligned covers apart parts => exact slotEntry_insert parts aligned apart

theorem GotShmn.shaped (got : GotShmn shmem m addr create next after given) (shaped : Shaped shmem) : Shaped next := by
  cases got with
  | @found shmn member covers =>
    refine ⟨shaped.ordered, shaped.aligned, ?_⟩
    rintro other ⟨⟩
    exact member
  | absent | poor | full => exact shaped
  | @made after new before rest taken aligned covers apart parts ordered =>
    have members : ∀ shmn, shmn ∈ before ++ new :: rest ↔ shmn = new ∨ shmn ∈ shmem.shmnList := by
      intro shmn
      rw [parts]
      simp only [mem_append, mem_cons]
      exact or_left_comm
    refine ⟨ordered, ?_, ?_⟩
    · intro shmn member
      rcases (members shmn).mp member with rfl | old
      · exact aligned
      · exact shaped.aligned shmn old
    · intro shmn cached
      exact (members shmn).mpr (.inr (shaped.cached shmn cached))

theorem findShmn_eq_find? (shaped : Shaped shmem) (addr : Nat) :
    (findShmn shmem addr).2 = shmem.shmnList.find? fun shmn => shmn.span.Covers addr := by
  rcases findShmn_spec shaped addr with ⟨shmn, member, covers, found⟩ | ⟨nothing, found⟩
  · rw [found]
    cases first : shmem.shmnList.find? fun shmn => decide (shmn.span.Covers addr) with
    | none => exact absurd covers (by simpa using find?_eq_none.mp first shmn member)
    | some => rw [shaped.ordered.unique member (mem_of_find?_eq_some first) covers (by simpa using find?_some first)]
  · rw [found, find?_eq_none.mpr (by simpa using nothing)]

/-- There is memory for a table. -/
def Affords (m : Memory) : Prop := m.kmallocs.headD false = true ∧ m.kmalloc.1.allocPage.2 ≠ none

theorem affords_of_shmnCreate {start : Nat} {shmem next : ShmemStruct}
    (created : shmnCreate shmem m start = .ok (next, after, some shmn)) : m.kmallocs.headD false = true := by
  by_contra short
  rw [Bool.not_eq_true] at short
  have result : m.kmalloc = (m.kmalloc.1, m.kmallocs.headD false) := rfl
  rw [shmnCreate, ensure_bind, result, short] at created
  split at created <;> cases created

/-- There is a table for an address if there was one, or if one is to be made and there is memory
for it. -/
theorem getShmn_given (shaped : Shaped shmem)
    (ran : getShmn shmem m addr create = .ok (next, after, given)) :
    given ≠ none ↔ (∃ shmn ∈ shmem.shmnList, shmn.span.Covers addr) ∨ create = true ∧ Affords m := by
  rw [getShmn] at ran
  rcases findShmn_spec shaped addr with ⟨shmn, member, covers, found⟩ | ⟨nothing, found⟩
  · rw [found] at ran
    dsimp only at ran
    rw [ensure_bind, if_pos (show shmn.start ≤ addr ∧ addr < shmn.stop from covers)] at ran
    cases ran
    exact iff_of_true (Option.some_ne_none shmn) (.inl ⟨shmn, member, covers⟩)
  have uncovered : ¬ ∃ shmn ∈ shmem.shmnList, shmn.span.Covers addr :=
    fun ⟨shmn, member, covers⟩ => nothing shmn member covers
  rw [found] at ran
  cases create with
  | false =>
    cases ran
    simp [uncovered]
  | true =>
    have aligned : (addr - addr % (pgSize * nPteEntry)) % ptSize = 0 :=
      Nat.mod_eq_zero_of_dvd (Nat.dvd_sub_mod addr)
    simp only [Bool.true_eq_false, if_false] at ran
    rcases shmnCreate_cases aligned shmem m with ⟨short, created⟩ | ⟨paid, short, created⟩ | ⟨paid, f, taken, created⟩
    · rw [created] at ran
      cases ran
      have poor : ¬ Affords m := fun affords => Bool.false_ne_true (short.symm.trans affords.1)
      simp [poor, uncovered]
    · rw [created] at ran
      cases ran
      have poor : ¬ Affords m := fun affords => affords.2 (by rw [short])
      simp [poor, uncovered]
    · have affords : Affords m := ⟨affords_of_shmnCreate created, by simp [taken]⟩
      rw [created] at ran
      replace ran : (insertShmn shmem.shmnList ⟨_, _, f⟩ >>= _) = _ := ran
      obtain ⟨list, _, done⟩ := exists_of_bind ran
      cases done
      exact iff_of_true (Option.some_ne_none _) (.inr ⟨rfl, affords⟩)

/-- What `shmem_get_entry` does: it returns the slot of the page where there is or can be a table,
and
may give an empty slot a frame. No other slot changes. -/
structure SlotGot (shmem : ShmemStruct) (m : Memory) (page : Nat) (create : Bool) (next : ShmemStruct)
    (given : Option Nat) : Prop where
  own : ∀ slot ∈ given, slot = page
  given_iff : given ≠ none ↔ Tabled shmem page ∨ create = true ∧ Affords m
  entries : slotEntry next = slotEntry shmem ∨ given ≠ none ∧ create = true ∧ slotEntry shmem page = 0 ∧
    ∃ f, slotEntry next = update (slotEntry shmem) page (ptepMap (page2pa f))

theorem shmemGetEntry_slot (shaped : Shaped shmem) (inside : addr < shmem.len) (m : Memory) (create : Bool) :
    ∃ next after given, shmemGetEntry shmem m addr create = .ok (next, after, given) ∧ Shaped next ∧
      (given ≠ none → Tabled next (addr / pgSize)) ∧ SlotGot shmem m (addr / pgSize) create next given := by
  obtain ⟨middle, between, found, ran, got⟩ := getShmn_spec shaped m (roundDown addr) create
  have same : addr / pgSize * pgSize = roundDown addr := by
    simp only [roundDown, pgSize]
    omega
  have given := getShmn_given shaped ran
  rw [← same] at given
  rw [shmemGetEntry, ensure_bind, if_pos inside, ran]
  have kept := got.shaped shaped
  cases found with
  | none =>
    exact ⟨middle, between, none, rfl, kept, absurd rfl, nofun,
      iff_of_false (absurd rfl) fun enough => given.mpr enough rfl, .inl got.entries⟩
  | some shmn =>
    obtain ⟨member, covers⟩ := got.table
    have tabled := tabled_of_covers member covers
    replace given : some (addr / pgSize) ≠ none ↔ Tabled shmem (addr / pgSize) ∨ create = true ∧ Affords m :=
      iff_of_true (Option.some_ne_none _) (given.mp (Option.some_ne_none _))
    have page : ∀ slot ∈ some (addr / pgSize), slot = addr / pgSize := fun slot is => (Option.some.inj is).symm
    simp only [bind, Except.bind, slot_of_covers (kept.aligned shmn member).1 covers, fillSlot]
    split
    · next empty =>
      split
      · exact ⟨middle, _, _, rfl, kept, fun _ => tabled, page, given, .inl got.entries⟩
      · next m f _ =>
        have filled : slotEntry (middle.setEntry (addr / pgSize) (ptepMap (page2pa f))) =
            update (slotEntry shmem) (addr / pgSize) (ptepMap (page2pa f)) := by
          rw [slotEntry_setEntry tabled, got.entries]
        have vacant : slotEntry shmem (addr / pgSize) = 0 := by
          rw [← got.entries, slotEntry, if_pos tabled]
          exact empty.1
        exact ⟨_, _, _, rfl, { kept with }, fun _ => tabled, page, given,
          .inr ⟨Option.some_ne_none _, empty.2, vacant, f, filled⟩⟩
    · exact ⟨middle, between, _, rfl, kept, fun _ => tabled, page, given, .inl got.entries⟩

/-- What stops a change of an entry: the accounts of the frames and the swap entries. -/
def Miscounted (fault : Fault) : Prop := ∃ m pte, dropEntry m pte = .error fault ∨ holdEntry m pte = .error fault

/-- The entry is stored where there is or can be a table for it, and otherwise nothing changes. -/
def Stored (shmem : ShmemStruct) (m : Memory) (page : Nat) (pte : Pte) (next : ShmemStruct) (ret : Int) : Prop :=
  (Tabled shmem page ∨ Affords m → ret = 0 ∧ slotEntry next = update (slotEntry shmem) page pte) ∧
  (¬ (Tabled shmem page ∨ Affords m) → ret = -eNoMem ∧ slotEntry next = slotEntry shmem)

theorem shmemInsertEntry_slot (shaped : Shaped shmem) (inside : addr < shmem.len) (m : Memory) (pte : Pte) :
    Ends Miscounted (shmemInsertEntry shmem m addr pte) fun result =>
      Shaped result.1 ∧ Stored shmem m (addr / pgSize) pte result.1 result.2.2 := by
  obtain ⟨next, after, given, ran, kept, tabled, got⟩ := shmemGetEntry_slot shaped inside m true
  have given_iff := got.given_iff
  simp only [true_and] at given_iff
  refine .bind_ok ran ?_
  cases given with
  | none =>
    have short : ¬ (Tabled shmem (addr / pgSize) ∨ Affords m) := fun enough => given_iff.mpr enough rfl
    refine ⟨kept, fun enough => absurd enough short, fun _ => ⟨rfl, ?_⟩⟩
    rcases got.entries with same | ⟨never, _⟩
    · exact same
    · exact absurd rfl never
  | some slot =>
    obtain rfl := got.own slot rfl
    have enough := given_iff.mp (Option.some_ne_none _)
    have stored : slotEntry (next.setEntry (addr / pgSize) pte) = update (slotEntry shmem) (addr / pgSize) pte := by
      rw [slotEntry_setEntry (tabled (Option.some_ne_none _))]
      rcases got.entries with same | ⟨_, _, _, f, filled⟩
      · rw [same]
      · rw [filled, update_idem]
    dsimp only
    cases dropped : dropEntry after (next.entry (addr / pgSize)) with
    | error => exact ⟨_, _, .inl dropped⟩
    | ok m =>
      show Ends _ (holdEntry m pte >>= _) _
      cases held : holdEntry m pte with
      | error => exact ⟨_, _, .inr held⟩
      | ok => exact ⟨{ kept with }, fun _ => ⟨rfl, stored⟩, absurd enough⟩

/-- What the calls on an object are to do at the page of their offset. -/
inductive Slotted (s : ShmemStruct × Memory) : Nat × TableOp → (ShmemStruct × Memory) × Answer → Prop where
  | got {addr : Nat} {create : Bool} {after : ShmemStruct × Memory} {given : Option Nat}
      (got : SlotGot s.1 s.2 (addr / pgSize) create after.1 given) : Slotted s (addr, .get create) (after, .slot given)
  | inserted {addr : Nat} {pte : Pte} {after : ShmemStruct × Memory} {ret : Int}
      (stored : Stored s.1 s.2 (addr / pgSize) pte after.1 ret) : Slotted s (addr, .insert pte) (after, .ret ret)
  | removed {addr : Nat} {after : ShmemStruct × Memory} {ret : Int}
      (stored : Stored s.1 s.2 (addr / pgSize) 0 after.1 ret) : Slotted s (addr, .remove) (after, .ret ret)

/-- The tables stay in order, the cache does not change what is found, and every call is about the
slot of its page. -/
theorem shared_tables_ordered : tables.ConformsExcept Miscounted
    (fun s => Shaped s.1 ∧ ∀ addr, (findShmn s.1 addr).2 = s.1.shmnList.find? fun shmn =>
      shmn.span.Covers addr) Slotted := by
  refine Machine.conformsExcept_of_invariant (show ∀ s, _ → Shaped s.1 from ?_) ?_ fun s shaped =>
    ⟨shaped, findShmn_eq_find? shaped⟩
  · rintro ⟨_, m⟩ ⟨len, rfl⟩
    exact ⟨.nil, nofun, nofun⟩
  rintro s ⟨addr, op⟩ shaped inside
  cases op with
  | get create =>
    obtain ⟨next, after, given, ran, kept, _, got⟩ := shmemGetEntry_slot shaped inside s.2 create
    exact .bind_ok ran ⟨kept, .got got⟩
  | insert pte =>
    refine (shmemInsertEntry_slot shaped inside s.2 pte).bind ?_
    rintro result ⟨kept, stored⟩
    exact ⟨kept, .inserted stored⟩
  | remove =>
    refine (shmemInsertEntry_slot shaped inside s.2 0).bind ?_
    rintro result ⟨kept, stored⟩
    exact ⟨kept, .removed stored⟩

end Ucore.Pmm
