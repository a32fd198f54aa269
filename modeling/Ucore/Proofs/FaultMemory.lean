import Ucore.PageFault
import Ucore.Proofs.PageWalk
import Ucore.Proofs.ShmemTables

/-! What the parts of the page fault handler do to memory: which frames they take, and
what becomes of the entry that a new one takes the place of. -/

namespace Ucore.Pmm
open Lib Vmm Function

variable {dir next : PageDir} {m between after : Memory} {f g : Frame} {page n : Nat} {pte : Pte} {given : Option Frame}

/-- Some free frames are taken; frames in use keep their counts and their contents. -/
structure Took (m after : Memory) : Prop where
  swap : after.swap = m.swap
  data : ∀ f, m.free f = false → after.data f = m.data f
  frames : ∀ f, after.free f = m.free f ∧ after.ref f = m.ref f ∨
    m.free f = true ∧ after.free f = false ∧ (after.ref f = m.ref f ∨ after.ref f = 1)

theorem Took.refl (m : Memory) : Took m m := ⟨rfl, fun _ _ => rfl, fun _ => .inl ⟨rfl, rfl⟩⟩

theorem Took.used (took : Took m after) (used : m.free f = false) : after.free f = false ∧ after.ref f = m.ref f := by
  rcases took.frames f with ⟨free, ref⟩ | ⟨free, _⟩
  · exact ⟨free.trans used, ref⟩
  · cases used.symm.trans free

theorem Took.unused (took : Took m after) (unused : after.free f = true) : m.free f = true ∧ after.ref f = m.ref f := by
  rcases took.frames f with ⟨free, ref⟩ | ⟨_, taken, _⟩
  · exact ⟨free.symm.trans unused, ref⟩
  · cases unused.symm.trans taken

theorem Took.trans (first : Took m between) (second : Took between after) : Took m after := by
  refine ⟨second.swap.trans first.swap, ?_, ?_⟩
  · intro f used
    rw [second.data f (first.used used).1, first.data f used]
  intro f
  rcases second.frames f with ⟨free, ref⟩ | ⟨free, taken, ref⟩
  · rw [free, ref]
    exact first.frames f
  · obtain ⟨was, same⟩ := first.unused free
    rw [same] at ref
    exact .inr ⟨was, taken, ref⟩

def Plenty : Nat → Memory → Prop
  | 0, _ => True
  | n + 1, m => m.allocPage.2 ≠ none ∧ Plenty n m.allocPage.1

theorem allocPage_frame (taken : m.allocPage = (after, given)) : ∃ supply free, after = { m with supply, free } := by
  rcases allocPage_cases m with ⟨rest, none⟩ | ⟨rest, f, _, _, some⟩
  · exact ⟨rest, m.free, (Prod.ext_iff.mp (taken.symm.trans none)).1⟩
  · exact ⟨rest, _, (Prod.ext_iff.mp (taken.symm.trans some)).1⟩

theorem Plenty.mono (plenty : Plenty n m) (supply : after.supply = m.supply)
    (free : ∀ f, m.free f = true → after.free f = true) : Plenty n after := by
  induction n generalizing m after with
  | zero => trivial
  | succ n ih =>
    obtain ⟨some, plenty⟩ := plenty
    rcases allocPage_cases m with ⟨rest, taken⟩ | ⟨rest, f, was, is, taken⟩
    · rw [taken] at some
      exact absurd rfl some
    rw [taken] at plenty
    have again : after.allocPage =
      ({ after with supply := rest, free := update after.free f false }, .some f) := by
        simp only [Memory.allocPage, supply, is, free f was, if_true]
    refine ⟨by rw [again]; simp, ?_⟩
    rw [again]
    refine ih plenty rfl ?_
    intro g
    obtain rfl | here := eq_or_ne g f
    · simp
    · simpa [update_of_ne here] using free g

theorem Plenty.less (plenty : Plenty (n + 1) m) : Plenty n m := by
  induction n generalizing m with
  | zero => trivial
  | succ n ih => exact ⟨plenty.1, ih plenty.2⟩

theorem took_allocPage (taken : m.allocPage = (after, given)) : Took m after := by
  rcases allocPage_cases m with ⟨rest, none⟩ | ⟨rest, f, free, _, some⟩
  · cases taken.symm.trans none
    exact ⟨rfl, fun _ _ => rfl, fun _ => .inl ⟨rfl, rfl⟩⟩
  · cases taken.symm.trans some
    refine ⟨rfl, fun _ _ => rfl, ?_⟩
    intro g
    obtain rfl | here := eq_or_ne g f
    · exact .inr ⟨free, update_self .., .inl rfl⟩
    · exact .inl ⟨update_of_ne here .., rfl⟩

/-- The allocators have answered, and no frame was written. -/
structure Asked (m after : Memory) : Prop where
  supply : after.supply ⊆ m.supply
  data : after.data = m.data

private theorem Asked.refl (m : Memory) : Asked m m := ⟨List.Subset.refl _, rfl⟩

private theorem Asked.trans (first : Asked m between) (second : Asked between after) : Asked m after :=
  ⟨List.Subset.trans second.supply first.supply, second.data.trans first.data⟩

private theorem asked_allocPage (taken : m.allocPage = (after, given)) : Asked m after := by
  obtain rfl : m.allocPage.1 = after := congrArg Prod.fst taken
  rw [Memory.allocPage]
  split
  · exact .refl m
  · next supply => exact ⟨supply ▸ List.subset_cons_self .., rfl⟩
  · next supply =>
    split <;> exact ⟨supply ▸ List.subset_cons_self .., rfl⟩

private theorem supplied_of_allocPage (taken : m.allocPage = (after, some f)) : some f ∈ m.supply := by
  have given : m.allocPage.2 = some f := congrArg Prod.snd taken
  rw [Memory.allocPage] at given
  split at given
  · cases given
  · cases given
  · next supply =>
    split at given
    · rw [supply, show f = _ from (Option.some_inj.mp given).symm]
      exact List.mem_cons_self
    · cases given

/-- What a call leaves alone while it takes frames. -/
structure Drew (m after : Memory) : Prop extends Took m after where
  asked : Asked m after
  kmallocs : after.kmallocs = m.kmallocs
  reads : after.reads = m.reads

theorem Drew.refl (m : Memory) : Drew m m := ⟨.refl m, .refl m, rfl, rfl⟩

theorem Drew.trans (first : Drew m between) (second : Drew between after) : Drew m after :=
  ⟨first.toTook.trans second.toTook, first.asked.trans second.asked,
    second.kmallocs.trans first.kmallocs, second.reads.trans first.reads⟩

theorem drew_allocPage (taken : m.allocPage = (after, given)) : Drew m after := by
  have took := took_allocPage taken
  have asked := asked_allocPage taken
  obtain ⟨_, _, rfl⟩ := allocPage_frame taken
  exact ⟨took, asked, rfl, rfl⟩

theorem drew_table (taken : m.allocPage = (between, some f)) : Drew m (between.setRef f 1) := by
  have asked := asked_allocPage taken
  rcases allocPage_cases m with ⟨rest, none⟩ | ⟨rest, g, free, _, some⟩
  · cases taken.symm.trans none
  · cases taken.symm.trans some
    refine ⟨⟨rfl, fun _ _ => rfl, ?_⟩, { asked with }, rfl, rfl⟩
    intro other
    obtain rfl | here := eq_or_ne other f
    · exact .inr ⟨free, update_self .., .inr (update_self ..)⟩
    · exact .inl ⟨update_of_ne here .., update_of_ne here ..⟩

theorem Plenty.table (plenty : Plenty (n + 1) m) (taken : m.allocPage = (between, some f)) :
    Plenty n (between.setRef f 1) := by
  have rest := plenty.2
  rw [taken] at rest
  exact rest.mono rfl fun _ => id

theorem Plenty.some (plenty : Plenty (n + 1) m) (taken : m.allocPage = (after, given)) : given ≠ none ∧ Plenty n after := by
  have facts := plenty
  rwa [Plenty, taken] at facts

structure Walk (dir : PageDir) (m : Memory) (page : Nat) (next : PageDir) (after : Memory) (ok : Bool) : Prop where
  entries : next.entry = dir.entry
  drew : Drew m after
  tabled : ok = true → next.Tabled page
  plenty : ∀ n, Plenty (n + 2) m → ok = true ∧ Plenty n after

theorem getPmd_walk (dir : PageDir) (m : Memory) (page : Nat) : ∃ next after ok,
    getPmd dir m page true = (next, after, ok) ∧ next.entry = dir.entry ∧ Drew m after ∧
      (ok = true → Present (next.pgd (pgx page))) ∧ ∀ n, Plenty (n + 1) m → ok = true ∧ Plenty n after := by
  rw [getPmd]
  split
  · next present => exact ⟨dir, m, true, rfl, rfl, .refl m, fun _ => present, fun n plenty => ⟨rfl, plenty.less⟩⟩
  · next present =>
    obtain ⟨between, given, taken⟩ : ∃ between given, m.allocPage = (between, given) := ⟨_, _, rfl⟩
    simp only [Bool.true_eq_false, if_false, taken]
    cases given with
    | none =>
      refine ⟨dir, between, false, rfl, rfl, drew_allocPage taken, fun never => (by cases never), ?_⟩
      intro n plenty
      exact absurd rfl (plenty.some taken).1
    | some f =>
      refine ⟨dir.addPmd page f, between.setRef f 1, true, rfl, entry_addPmd present, drew_table taken, fun _ => ?_, ?_⟩
      · simp [PageDir.addPmd, present_ptepMap]
      · exact fun n plenty => ⟨rfl, plenty.table taken⟩

theorem getPte_walk (dir : PageDir) (m : Memory) (page : Nat) : ∃ next after ok,
    getPte dir m page true = (next, after, ok) ∧ Walk dir m page next after ok := by
  obtain ⟨middle, between, found, first, entries, drew, above, enough⟩ := getPmd_walk dir m page
  rw [getPte, first]
  cases found with
  | false =>
    refine ⟨middle, between, false, rfl, entries, drew, fun never => (by cases never), ?_⟩
    intro n plenty
    exact absurd (enough (n + 1) plenty).1 (by simp)
  | true =>
    have above := above rfl
    by_cases present : Present (middle.pmd (pmx page))
    · refine ⟨middle, between, true, if_pos present, entries, drew, fun _ => ⟨above, present⟩, ?_⟩
      exact fun n plenty => ⟨rfl, (enough (n + 1) plenty).2.less⟩
    obtain ⟨after, given, taken⟩ : ∃ after given, between.allocPage = (after, given) := ⟨_, _, rfl⟩
    simp only [if_neg present, Bool.true_eq_false, if_false, taken]
    cases given with
    | none =>
      refine ⟨middle, after, false, rfl, entries, drew.trans (drew_allocPage taken), fun never => (by cases never), ?_⟩
      intro n plenty
      exact absurd rfl ((enough (n + 1) plenty).2.some taken).1
    | some f =>
      refine ⟨middle.addTable page f, after.setRef f 1, true, rfl,
        (entry_addTable present).trans entries, drew.trans (drew_table taken), fun _ =>
          tabled_addTable above, ?_⟩
      exact fun n plenty => ⟨rfl, (enough (n + 1) plenty).2.table taken⟩

theorem allocPage_some (taken : m.allocPage = (after, some f)) : m.free f = true ∧ after.free f = false := by
  rcases allocPage_cases m with ⟨rest, none⟩ | ⟨rest, g, free, _, some⟩
  · cases taken.symm.trans none
  · cases taken.symm.trans some
    exact ⟨free, update_self ..⟩

/-- Frames may be taken, but no reference is. -/
structure Reserved (m after : Memory) : Prop extends Took m after where
  refs : after.ref = m.ref

theorem Reserved.refl (m : Memory) : Reserved m m := ⟨.refl m, rfl⟩

theorem Reserved.trans (first : Reserved m between) (second : Reserved between after) :
    Reserved m after := ⟨first.toTook.trans second.toTook, second.refs.trans first.refs⟩

theorem reserved_allocPage (taken : m.allocPage = (after, given)) : Reserved m after := by
  have took := took_allocPage taken
  obtain ⟨_, _, rfl⟩ := allocPage_frame taken
  exact ⟨took, rfl⟩

theorem reserved_kmalloc (m : Memory) : Reserved m m.kmalloc.1 := ⟨⟨rfl, fun _ _ => rfl, fun _ => .inl ⟨rfl, rfl⟩⟩, rfl⟩

private theorem asked_kmalloc (m : Memory) : Asked m m.kmalloc.1 := ⟨List.Subset.refl _, rfl⟩

section SharedObjects
variable {shmem nextShmem : ShmemStruct} {addr : Nat} {found : Option Shmn}

theorem GotShmn.reserved {create : Bool} (got : GotShmn shmem m addr create nextShmem after found) : Reserved m after := by
  cases got with
  | found | absent => exact .refl m
  | poor => exact reserved_kmalloc m
  | full short => exact (reserved_kmalloc m).trans (reserved_allocPage short)
  | made taken => exact (reserved_kmalloc m).trans (reserved_allocPage taken)

theorem GotShmn.plenty (got : GotShmn shmem m addr true nextShmem after found)
    (paid : m.kmallocs.headD false = true) (plenty : Plenty (n + 1) m) : found ≠ none ∧
    Plenty n after := by
  have still : Plenty (n + 1) m.kmalloc.1 := plenty.mono rfl fun _ => id
  cases got with
  | found => exact ⟨by simp, plenty.less⟩
  | absent off => cases off
  | poor short =>
    cases paid.symm.trans short
  | full short => exact absurd rfl (still.some short).1
  | made taken => exact ⟨by simp, (still.some taken).2⟩

/-- What `shmem_get_entry` can do for a slot: there is no memory, the slot has an entry, or it gets
a new frame. -/
inductive GotEntry (shmem : ShmemStruct) (m : Memory) (slot : Nat) : ShmemStruct → Memory → Option Nat → Prop where
  | missed {next : ShmemStruct} {after : Memory} {given : Option Nat}
      (same : slotEntry next = slotEntry shmem) (reserved : Reserved m after)
      (empty : ∀ slot, given = some slot → next.entry slot = 0) (short : Plenty 2 m →
        m.kmallocs.headD false = true → False) :
      GotEntry shmem m slot next after given
  | found {next : ShmemStruct} {after : Memory} (same : slotEntry next = slotEntry shmem) (reserved : Reserved m after)
      (holds : next.entry slot = slotEntry shmem slot) (full : slotEntry shmem slot ≠ 0) :
        GotEntry shmem m slot next after (some slot)
  | made {next : ShmemStruct} {between : Memory} {f : Frame} (empty : slotEntry shmem slot = 0)
      (reserved : Reserved m between)
      (free : m.free f = true) (taken : between.free f = false) (asked : Asked m between) (supplied : some f ∈ m.supply)
      (holds : next.entry slot = ptepMap (page2pa f))
      (entries : slotEntry next = update (slotEntry shmem) slot (ptepMap (page2pa f))) :
      GotEntry shmem m slot next (between.refAdd f 1) (some slot)

private theorem GotShmn.asked {create : Bool}
    (got : GotShmn shmem m addr create nextShmem after found) : Asked m after := by
  cases got with
  | found | absent => exact .refl m
  | poor => exact asked_kmalloc m
  | full short => exact (asked_kmalloc m).trans (asked_allocPage short)
  | made taken => exact (asked_kmalloc m).trans (asked_allocPage taken)

theorem shmemGetEntry_spec (shaped : Shaped shmem) (inside : addr < shmem.len) (m : Memory) :
    ∃ next after given, shmemGetEntry shmem m addr true = .ok (next, after, given) ∧ Shaped next ∧
      next.len = shmem.len ∧ GotEntry shmem m (addr / pgSize) next after given := by
  obtain ⟨middle, between, found, ran, got⟩ := getShmn_spec shaped m (roundDown addr) true
  rw [shmemGetEntry, ensure_bind, if_pos inside, ran]
  have len : middle.len = shmem.len := by cases got <;> rfl
  cases found with
  | none =>
    refine ⟨middle, between, none, rfl, got.shaped shaped, len,
      .missed got.entries got.reserved (fun _ never => by cases never) ?_⟩
    exact fun plenty paid => (got.plenty paid plenty).1 rfl
  | some shmn =>
    obtain ⟨member, covers⟩ := got.table
    have kept := got.shaped shaped
    have slot := slot_of_covers (kept.aligned shmn member).1 covers
    have tabled := tabled_of_covers member covers
    have entry : slotEntry middle (addr / pgSize) = middle.entry (addr / pgSize) := if_pos tabled
    simp only [bind, Except.bind, slot, fillSlot, and_true]
    by_cases empty : middle.entry (addr / pgSize) = 0
    · obtain ⟨after, given, taken⟩ : ∃ after given, between.allocPage = (after, given) := ⟨_, _, rfl⟩
      simp only [if_pos empty, taken]
      cases given with
      | none =>
        refine ⟨middle, after, some (addr / pgSize), rfl, kept, len,
          .missed got.entries (got.reserved.trans (reserved_allocPage taken)) ?_ ?_⟩
        · rintro other ⟨⟩
          exact empty
        · exact fun plenty paid => ((got.plenty paid plenty).2.some taken).1 rfl
      | some =>
        obtain ⟨free, used⟩ := allocPage_some taken
        refine ⟨_, _, _, rfl, ?_, len, .made ?_ (got.reserved.trans (reserved_allocPage taken))
          (got.reserved.unused free).1 used
          (got.asked.trans (asked_allocPage taken)) (got.asked.supply (supplied_of_allocPage taken)) (update_self ..) ?_⟩
        · exact { kept with }
        · rw [← got.entries, entry, empty]
        · rw [slotEntry_setEntry tabled, got.entries]
    · simp only [if_neg empty]
      refine ⟨_, _, _, rfl, kept, len, .found got.entries got.reserved ?_ ?_⟩
      · rw [← entry, got.entries]
      · rwa [← got.entries, entry]

end SharedObjects

end Ucore.Pmm
