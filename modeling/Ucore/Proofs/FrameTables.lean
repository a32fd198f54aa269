import Ucore.Proofs.FrameAccounts
import Ucore.Proofs.PageWalk
import Ucore.Proofs.ShmemTables

/-! The calls on page directories keep the accounts of all frames. Each lemma is about
one directory of a state; the others and the shared objects stay as they are. -/

namespace Ucore.Frames
open Lib Vmm Pmm Function

/-- The tables of an object lie in frames of their own. -/
structure ShmemOk (own : Frame → Owner) (o : Nat) (shmem : ShmemStruct) : Prop extends Shaped shmem where
  owned : ∀ shmn ∈ shmem.shmnList, own shmn.page = .shmn o shmn.start
  clean : ∀ slot, slotEntry shmem slot = 0 ∨ Present (slotEntry shmem slot)

structure Inv (own : Frame → Owner) (s : State) : Prop where
  accounts : Accounts s.maps own s.memory
  nested : ∀ d i, Present ((s.dirs d).pmd i) → Present ((s.dirs d).pgd (i / nPteEntry))
  dirTable : ∀ f, own f = .dir ↔ DirTable s f
  shmem : ∀ o shmem, s.shmems o = some shmem → ShmemOk own o shmem
  shmn : ∀ f o start, own f = .shmn o start → ∃ shmem, s.shmems o = some shmem ∧ ∃ shmn ∈ shmem.shmnList, shmn.page = f

variable {s : State} {d : Nat} {dir : PageDir} {m after : Memory} {own later : Frame → Owner}
    {f g : Frame} {page : Nat} {owner : Owner} {last : Frame → Owner} {pte : Pte} {ret : Int}

def Owner.Table : Owner → Prop
  | .pool | .caller => False
  | .dir | .shmn _ _ => True

def SameOwners (own later : Frame → Owner) : Prop := ∀ f, later f = own f ∨ ¬ (own f).Table ∧ ¬ (later f).Table

theorem SameOwners.iff (same : SameOwners own later) (table : owner.Table) (f : Frame) : later f = owner ↔ own f = owner := by
  rcases same f with equal | ⟨first, second⟩
  · rw [equal]
  · exact iff_of_false (fun is => second (is ▸ table)) (fun is => first (is ▸ table))

theorem SameOwners.dirs (same : SameOwners own later) (f : Frame) : later f = .dir ↔ own f = .dir :=
  same.iff (show Owner.Table .dir from trivial) f

theorem SameOwners.shmns (same : SameOwners own later) (f : Frame) (o start : Nat) :
    later f = .shmn o start ↔ own f = .shmn o start :=
    same.iff (show Owner.Table (.shmn o start) from trivial) f

theorem sameOwners_update (first : ¬ (own f).Table) (second : ¬ owner.Table) : SameOwners own (update own f owner) := by
  intro g
  obtain rfl | here := eq_or_ne g f
  · rw [update_self]
    exact .inr ⟨first, second⟩
  · exact .inl (update_of_ne here ..)

theorem ShmemOk.reown {o : Nat} {shmem : ShmemStruct} (ok : ShmemOk own o shmem) (same : ∀ f start,
    own f = .shmn o start → later f = .shmn o start) : ShmemOk later o shmem :=
  ⟨ok.toShaped, fun shmn member => same _ _ (ok.owned shmn member), ok.clean⟩

theorem Inv.reown {s' : State} (inv : Inv own s) (same : SameOwners own later) (accounts : Accounts s'.maps later s'.memory)
    (pgd : ∀ d, (s'.dirs d).pgd = (s.dirs d).pgd) (pmd : ∀ d, (s'.dirs d).pmd = (s.dirs d).pmd)
      (shmems : s'.shmems = s.shmems) : Inv later s' := by
  refine ⟨accounts, ?_, ?_, ?_, ?_⟩
  · intro d i
    rw [pgd, pmd]
    exact inv.nested d i
  · intro f
    rw [same.dirs, inv.dirTable]
    simp only [DirTable, HasTable, pgd, pmd]
  · intro o shmem is
    exact (inv.shmem o shmem (shmems ▸ is)).reown fun f start => (same.shmns f o start).mpr
  · intro f o start owned
    rw [shmems]
    exact inv.shmn f o start ((same.shmns f o start).mp owned)

theorem maps_setDir {other : PageDir} (entries : other.entry = dir.entry) :
    (s.setDir d other after).maps = (s.setDir d dir m).maps := by
  funext place
  cases place with
  | slot => rfl
  | page e =>
    simp only [State.maps, State.entry, State.setDir]
    by_cases here : e = d
    · rw [here, update_self, update_self, entries]
    · rw [update_of_ne here, update_of_ne here]

theorem maps_setPte (tabled : dir.Tabled page) (pte : Pte) :
    (s.setDir d (dir.setPte page pte) after).maps = update (s.setDir d dir m).maps (.page d page)
    (frameOf pte) := by
  funext place
  cases place with
  | slot =>
    rfl
  | page e other =>
    by_cases here : Place.page e other = .page d page
    · cases here
      simp only [State.maps, State.entry, State.setDir, update_self, entry_setPte tabled]
    rw [update_of_ne here]
    simp only [State.maps, State.entry, State.setDir]
    obtain rfl | same := eq_or_ne e d
    · have apart : other ≠ page := fun equal => here (by rw [equal])
      rw [update_self, update_self, entry_setPte tabled, update_of_ne apart]
    · rw [update_of_ne same, update_of_ne same]

theorem exists_table_update {tables : Nat → Pte} {i : Nat} (missing : ¬ Present (tables i)) :
    (∃ j, Present (update tables i (ptepMap (page2pa f)) j) ∧
    pte2page (update tables i (ptepMap (page2pa f)) j) = g) ↔
      g = f ∨ ∃ j, Present (tables j) ∧ pte2page (tables j) = g := by
  simp only [update_apply]
  constructor
  · rintro ⟨j, present, same⟩
    split at same
    · exact .inl (same.symm.trans (pte2page_ptepMap f))
    · next other => exact .inr ⟨j, by rwa [if_neg other] at present, same⟩
  · rintro (rfl | ⟨j, present, same⟩)
    · exact ⟨i, by simp [present_ptepMap], by simp [pte2page_ptepMap]⟩
    · have other : j ≠ i := fun equal => missing (equal ▸ present)
      exact ⟨j, by rwa [if_neg other], by rwa [if_neg other]⟩

theorem hasTable_addPmd (nested : ∀ i, Present (dir.pmd i) → Present (dir.pgd (i / nPteEntry)))
    (missing : ¬ Present (dir.pgd (pgx page))) : HasTable (dir.addPmd page f) g ↔ g = f ∨
    HasTable dir g := by
  have pmd : ∀ i, Present ((dir.addPmd page f).pmd i) ∧ pte2page ((dir.addPmd page f).pmd i) = g ↔
    Present (dir.pmd i) ∧ pte2page (dir.pmd i) = g := by
    intro i
    simp only [PageDir.addPmd]
    split
    · next inside => exact iff_of_false (fun both => not_present_zero both.1) fun both => missing (inside ▸ nested i both.1)
    · rfl
  rw [HasTable, HasTable, exists_congr pmd, PageDir.addPmd, exists_table_update missing, or_assoc]

theorem hasTable_addTable (missing : ¬ Present (dir.pmd (pmx page))) :
    HasTable (dir.addTable page f) g ↔ g = f ∨ HasTable dir g := by
  rw [HasTable, PageDir.addTable, exists_table_update missing]
  exact or_left_comm

theorem nested_addPmd (nested : ∀ i, Present (dir.pmd i) → Present (dir.pgd (i / nPteEntry)))
    (i : Nat) (present : Present ((dir.addPmd page f).pmd i)) :
    Present ((dir.addPmd page f).pgd (i / nPteEntry)) := by
  simp only [PageDir.addPmd] at present ⊢
  split at present
  · exact absurd present not_present_zero
  · next other =>
    rw [update_of_ne other]
    exact nested i present

theorem nested_addTable (nested : ∀ i, Present (dir.pmd i) → Present (dir.pgd (i / nPteEntry)))
    (middle : Present (dir.pgd (pgx page)))
    (i : Nat) (present : Present ((dir.addTable page f).pmd i)) : Present ((dir.addTable page f).pgd (i / nPteEntry)) := by
  simp only [PageDir.addTable, update_apply] at present ⊢
  split at present
  · next here =>
    rwa [here]
  · exact nested i present

def Grows (own later : Frame → Owner) : Prop := ∀ f, later f = own f ∨ own f = .pool ∧ (later f).Table

theorem Grows.refl (own : Frame → Owner) : Grows own own := fun _ => .inl rfl

theorem Grows.trans (first : Grows own later) (second : Grows later last) : Grows own last := by
  intro f
  rcases second f with same | ⟨pool, table⟩
  · rw [same]
    exact first f
  rcases first f with before | ⟨_, dir⟩
  · exact .inr ⟨before ▸ pool, table⟩
  · rw [pool] at dir
    exact dir.elim

/-- A walk that may add tables: no entry changes, and frames that are in use stay where they are. -/
structure Walked (own later : Frame → Owner) (dir : PageDir) (m : Memory) (next : PageDir) (after : Memory) : Prop where
  entries : next.entry = dir.entry
  io : after.io = m.io
  grows : Grows own later
  taken : ∀ g, m.free g = false → after.free g = false ∧ later g = own g

theorem Walked.refl (own : Frame → Owner) (dir : PageDir) (m : Memory) : Walked own own dir m dir m :=
  ⟨rfl, rfl, .refl own, fun _ taken => ⟨taken, rfl⟩⟩

theorem Walked.trans {between next : PageDir} {middle : Memory}
    (first : Walked own later dir m between middle)
    (second : Walked later last between middle next after) : Walked own last dir m next after := by
  refine ⟨second.entries.trans first.entries, second.io.trans first.io, first.grows.trans second.grows, ?_⟩
  intro g taken
  obtain ⟨still, same⟩ := first.taken g taken
  obtain ⟨last, equal⟩ := second.taken g still
  exact ⟨last, equal.trans same⟩

theorem Inv.supplied (inv : Inv own (s.setDir d dir m))
    (accounts : Accounts (s.setDir d dir m).maps own after) : Inv own (s.setDir d dir after) :=
    inv.reown (fun _ => .inl rfl) accounts (fun _ => rfl) (fun _ => rfl) rfl

theorem dirTable_setDir : DirTable (s.setDir d dir m) g ↔ HasTable dir g ∨ ∃ e ≠ d, HasTable (s.dirs e) g := by
  constructor
  · rintro ⟨e, table⟩
    by_cases here : e = d
    · simp only [State.setDir, here, update_self] at table
      exact .inl table
    · simp only [State.setDir, update_of_ne here] at table
      exact .inr ⟨e, here, table⟩
  · rintro (table | ⟨e, other, table⟩)
    · exact ⟨d, by simpa only [State.setDir, update_self] using table⟩
    · exact ⟨e, by simpa only [State.setDir, update_of_ne other] using table⟩

section
variable (inv : Inv own (s.setDir d dir m))
include inv

theorem Inv.addTable {next : PageDir} (free : m.free f = true)
    (accounts : Accounts (s.setDir d dir m).maps (update own f .dir) after)
    (entries : next.entry = dir.entry)
    (nested : ∀ i, Present (next.pmd i) → Present (next.pgd (i / nPteEntry)))
      (tables : ∀ g, HasTable next g ↔ g = f ∨ HasTable dir g) :
      Inv (update own f .dir) (s.setDir d next after) := by
  have pool := inv.accounts.pool_of_free free
  have stays : ∀ g o start, update own f .dir g = .shmn o start ↔ own g = .shmn o start := by
    intro g o start
    by_cases here : g = f
    · rw [here, pool]
      simp
    · rw [update_of_ne here]
  constructor
  · rwa [maps_setDir entries]
  · intro e i
    by_cases here : e = d
    · simp only [State.setDir, here, update_self]
      exact nested i
    · have old := inv.nested e i
      simp only [State.setDir, update_of_ne here] at old ⊢
      exact old
  · intro g
    have old := inv.dirTable g
    rw [dirTable_setDir] at old
    rw [dirTable_setDir, tables, or_assoc, ← old]
    by_cases here : g = f
    all_goals simp [here]
  · intro o shmem is
    exact (inv.shmem o shmem is).reown fun g start => (stays g o start).mpr
  · intro g o start owned
    exact inv.shmn g o start ((stays g o start).mp owned)

/-- One stage of a walk: a table is made in a new frame, or there is no memory for it. -/
theorem Inv.makeTable {next : Frame → PageDir} (entries : ∀ f, (next f).entry = dir.entry)
    (nested : ∀ f i, Present ((next f).pmd i) → Present ((next f).pgd (i / nPteEntry)))
    (tables : ∀ f g, HasTable (next f) g ↔ g = f ∨ HasTable dir g) :
    (∃ after, m.allocPage = (after, none) ∧ Inv own (s.setDir d dir after) ∧ Walked own own dir m dir after) ∨
    ∃ after f later, m.allocPage = (after, some f) ∧
      Inv later (s.setDir d (next f) (after.setRef f 1)) ∧ Walked own later dir m (next f)
      (after.setRef f 1) := by
  have accounts : Accounts (s.setDir d dir m).maps own m := inv.accounts
  rcases accounts.allocPage with ⟨after, ran, ios, frees, kept⟩ | ⟨after, f, ran, free, plain, ios, frees, kept⟩
  · refine .inl ⟨after, ran, inv.supplied kept, rfl, ios, .refl own, ?_⟩
    intro g taken
    exact ⟨by rw [frees, taken], rfl⟩
  have owner := accounts.pool_of_free free
  have table : Accounts _ (update (update own f .caller) f .dir) (after.setRef f 1) :=
    kept.table (update_self ..) (by rw [ios, plain]) (.inl rfl)
  rw [update_idem] at table
  refine .inr ⟨after, f, update own f .dir, ran, inv.addTable free table (entries f) (nested f)
    (tables f), entries f, ios, ?_, ?_⟩
  · intro g
    obtain rfl | here := eq_or_ne g f
    · exact .inr ⟨owner, by rw [update_self]; exact trivial⟩
    · exact .inl (update_of_ne here ..)
  · intro g taken
    have other : g ≠ f := by
      rintro rfl
      cases free.symm.trans taken
    refine ⟨?_, update_of_ne other ..⟩
    show after.free g = false
    rw [frees, update_of_ne other, taken]

theorem Inv.nestedAt (i : Nat) (present : Present (dir.pmd i)) : Present (dir.pgd (i / nPteEntry)) := by
  have nested := inv.nested d i
  simp only [State.setDir, update_self] at nested
  exact nested present

theorem getPmd_inv (page : Nat) (create : Bool) : ∃ next after ok later, getPmd dir m page create =
    (next, after, ok) ∧ Inv later (s.setDir d next after) ∧ Walked own later dir m next after ∧
    (ok = true → Present (next.pgd (pgx page))) := by
  rw [getPmd]
  split
  · next present => exact ⟨dir, m, true, own, rfl, inv, .refl own dir m, fun _ => present⟩
  · next present =>
    cases create with
    | false => exact ⟨dir, m, false, own, rfl, inv, .refl own dir m, by rintro ⟨⟩⟩
    | true =>
      rcases inv.makeTable (fun f => entry_addPmd present) (fun f => nested_addPmd inv.nestedAt)
        (fun f g => hasTable_addPmd inv.nestedAt present) with ⟨after, ran, kept, walked⟩ | ⟨after,
        f, later, ran, kept, walked⟩
      · exact ⟨dir, after, false, own, by simp only [ran]; rfl, kept, walked, by rintro ⟨⟩⟩
      · refine ⟨dir.addPmd page f, after.setRef f 1, true, later, by simp only [ran]; rfl, kept, walked, fun _ => ?_⟩
        simp [PageDir.addPmd, present_ptepMap]

theorem getPte_inv (page : Nat) (create : Bool) : ∃ next after ok later, getPte dir m page create =
    (next, after, ok) ∧ Inv later (s.setDir d next after) ∧ Walked own later dir m next after ∧
    (ok = true → next.Tabled page) := by
  obtain ⟨between, middle, found, owners, first, inv, walked, above⟩ := getPmd_inv inv page create
  rw [getPte, first]
  cases found with
  | false => exact ⟨between, middle, false, owners, rfl, inv, walked, by rintro ⟨⟩⟩
  | true =>
    have above := above rfl
    by_cases present : Present (between.pmd (pmx page))
    · exact ⟨between, middle, true, owners, if_pos present, inv, walked, fun _ => ⟨above, present⟩⟩
    simp only [if_neg present]
    cases create with
    | false => exact ⟨between, middle, false, owners, rfl, inv, walked, by rintro ⟨⟩⟩
    | true =>
      rcases inv.makeTable (fun f => entry_addTable present)
        (fun f => nested_addTable inv.nestedAt above)
        (fun f g => hasTable_addTable present) with ⟨after, ran, kept, further⟩ | ⟨after, f, later,
        ran, kept, further⟩
      · exact ⟨between, after, false, owners, by simp only [ran]; rfl, kept, walked.trans further, by rintro ⟨⟩⟩
      · exact ⟨between.addTable page f, after.setRef f 1, true, later, by simp only [ran]; rfl,
          kept, walked.trans further, fun _ => tabled_addTable above⟩

theorem Inv.write (tabled : dir.Tabled page) (same : SameOwners own later)
    (accounts : Accounts (update (s.setDir d dir m).maps (.page d page) (frameOf pte)) later after)
    : Inv later (s.setDir d (dir.setPte page pte) after) := by
  have tables : ∀ e, ((s.setDir d (dir.setPte page pte) after).dirs e).pgd =
    ((s.setDir d dir m).dirs e).pgd ∧ ((s.setDir d (dir.setPte page pte) after).dirs e).pmd =
    ((s.setDir d dir m).dirs e).pmd := by
    intro e
    by_cases here : e = d
    · simp only [State.setDir, here, update_self]
      exact ⟨rfl, rfl⟩
    · simp only [State.setDir, update_of_ne here, and_self]
  refine inv.reown same ?_ (fun e => (tables e).1) (fun e => (tables e).2) rfl
  rwa [maps_setPte tabled]

end

theorem maps_page (tabled : dir.Tabled page) : (s.setDir d dir m).maps (.page d page) = frameOf (dir.pte page) := by
  simp only [State.maps, State.entry, State.setDir, update_self, entry_of_tabled tabled]

theorem not_table_of_user (owner : own f = .caller ∨ own f = .pool) : ¬ (own f).Table := by
  rcases owner with held | pool
  · rw [held]
    exact id
  · rw [pool]
    exact id

/-- What `page_insert` does with the frame it is given. -/
structure InsertOutcome (own later : Frame → Owner) (f : Frame) (ret : Int) : Prop where
  success : ret = 0 → later f = .pool
  failure : ret ≠ 0 → later f = own f
  grows : ∀ g, g ≠ f → later g = own g ∨ own g = .pool ∧ (later g).Table

theorem pageInsert_inv (inv : Inv own (s.setDir d dir m)) (owner : own f = .caller ∨ own f = .pool) (taken : m.free f = false)
    (plain : m.io f = false) (page : Nat) (perm : Perm) : ∃ next after ret later,
      pageInsert dir m f page perm = .ok (next, after, ret) ∧ Inv later (s.setDir d next after) ∧
      InsertOutcome own later f ret ∧ after.io = m.io ∧ after.free f = false ∧ (dir.Tabled page → ret = 0) := by
  obtain ⟨next, middle, ok, later, found, kept, walked, tabled⟩ := getPte_inv inv page true
  obtain ⟨still, same⟩ := walked.taken f taken
  have grows : ∀ g, g ≠ f → later g = own g ∨ own g = .pool ∧ (later g).Table := fun g _ => walked.grows g
  rw [pageInsert, found]
  cases ok with
  | false =>
    refine ⟨next, middle, -eNoMem, later, rfl, kept, ⟨fun zero => ?_, fun _ => same, grows⟩,
      walked.io, still, fun there => ?_⟩
    · exact absurd zero (show -eNoMem ≠ 0 by decide)
    · rw [getPte_tabled there] at found
      cases found
  | true =>
    have tabled := tabled rfl
    obtain ⟨after, displaced, io, accounts⟩ :=
      kept.accounts.displace_ok (maps_page tabled) (same ▸ owner) still
      (by rwa [State.setDir, walked.io])
    have written : frameOf (mapping f perm) = some f := by rw [frameOf_present (present_mapping f perm), pte2page_mapping]
    rw [← written] at accounts
    have inside := kept.write tabled (sameOwners_update (not_table_of_user (same ▸ owner)) id) accounts
    have holds : (s.setDir d (next.setPte page (mapping f perm)) after).maps (.page d page) = some f := by
      rw [maps_page (tabled_setPte.mpr tabled), ← written]
      exact congrArg frameOf (update_self ..)
    have displaced : displace middle f (next.pte page) = .ok after := displaced
    refine ⟨next.setPte page (mapping f perm), after, 0, update later f .pool, ?_, inside,
      ⟨fun _ => update_self .., ?_, ?_⟩, io.trans walked.io, inside.accounts.not_free_of_mapped
      (inside.accounts.mapped_of_holds holds), fun _ => rfl⟩
    · dsimp only
      rw [displaced]
      rfl
    · intro failed
      exact absurd rfl failed
    · intro g other
      rw [update_of_ne other]
      exact grows g other

theorem Grows.of_insert (outcome : InsertOutcome own later f ret) (owner : own f = .pool) : Grows own later := by
  intro g
  obtain rfl | here := eq_or_ne g f
  · by_cases zero : ret = 0
    · exact .inl ((outcome.success zero).trans owner.symm)
    · exact .inl (outcome.failure zero)
  · exact outcome.grows g here

theorem Grows.of_insert_new (outcome : InsertOutcome (update own f .caller) later f ret)
    (owner : own f = .pool) : Grows own (update later f .pool) := by
  intro g
  obtain rfl | here := eq_or_ne g f
  · rw [update_self]
    exact .inl owner.symm
  · have step := outcome.grows g here
    rw [update_of_ne here] at step
    rwa [update_of_ne here]

section
variable (inv : Inv own (s.setDir d dir m))
include inv

theorem Inv.filled (owner : own f = .pool)
    (accounts : Accounts (s.setDir d dir m).maps (update own f .caller) after) (data : Contents) :
    Inv (update own f .caller) (s.setDir d dir (after.setData f data)) :=
  inv.reown (sameOwners_update (not_table_of_user (.inr owner)) id) (accounts.congr rfl rfl rfl rfl)
    (fun _ => rfl) (fun _ => rfl) rfl

theorem pgdirAllocPage_inv (page : Nat) (perm : Perm) : ∃ next after given later,
    pgdirAllocPage dir m page perm = .ok (next, after, given) ∧ Inv later (s.setDir d next after) ∧
    Grows own later := by
  have accounts : Accounts (s.setDir d dir m).maps own m := inv.accounts
  rcases accounts.allocPage with ⟨middle, ran, ios, frees, kept⟩ | ⟨middle, f, ran, free, plain, ios, frees, kept⟩
  · exact ⟨dir, middle, none, own, by rw [pgdirAllocPage, ran]; rfl, inv.supplied kept, .refl own⟩
  have owner := accounts.pool_of_free free
  have zeroed := inv.filled owner kept fun _ => 0
  have taken : (middle.setData f fun _ => 0).free f = false := by
    show middle.free f = false
    rw [frees, update_self]
  have still : (middle.setData f fun _ => 0).io f = false := by
    show middle.io f = false
    rw [ios, plain]
  obtain ⟨next, after, ret, later, inserted, inv, outcome, io, used, _⟩ :=
    pageInsert_inv zeroed (.inl (update_self ..)) taken still page perm
  have grows := Grows.of_insert_new outcome owner
  rw [pgdirAllocPage, ran]
  by_cases zero : ret = 0
  · rw [← outcome.success zero, update_eq_self] at grows
    refine ⟨next, after, some f, later, ?_, inv, grows⟩
    simp only [inserted, bind, Except.bind, zero]
    rfl
  · have held := (outcome.failure zero).trans (update_self ..)
    have inside : Accounts (s.setDir d next after).maps later after := inv.accounts
    obtain ⟨last, freed, _, _, accounts⟩ := inside.freePage (f := f) (by rw [held]; decide) (by rwa [io])
    refine ⟨next, last, none, update later f .pool, ?_, ?_, grows⟩
    · simp only [inserted, bind, Except.bind, zero, ne_eq, not_false_eq_true, if_true, freed]
      rfl
    · exact inv.reown (sameOwners_update (not_table_of_user (.inl held)) id) accounts (fun _ => rfl) (fun _ => rfl) rfl

theorem removeEntry_inv (tabled : dir.Tabled page) : ∃ after, removeEntry (dir, m) page = .ok
    (dir.setPte page 0, after) ∧ Inv own (s.setDir d (dir.setPte page 0) after) := by
  obtain ⟨after, ran, io, accounts⟩ := inv.accounts.pageRemovePte_ok (maps_page tabled)
  have ran : pageRemovePte m (dir.pte page) = .ok after := ran
  refine ⟨after, ?_, inv.write tabled (fun _ => .inl rfl) ?_⟩
  · rw [removeEntry, ran]
    rfl
  · exact accounts

theorem clearEntry_inv (page : Nat) : ∃ next after, clearEntry (dir, m) page = .ok (next, after) ∧
    Inv own (s.setDir d next after) := by
  by_cases tabled : dir.Tabled page
  · rw [clearEntry]
    split
    · obtain ⟨after, ran, kept⟩ := removeEntry_inv inv tabled
      exact ⟨_, after, ran, kept⟩
    · exact ⟨dir, m, rfl, inv⟩
  · have none : dir.entry page = 0 := if_neg tabled
    rw [clearEntry, if_neg (not_not_intro none)]
    exact ⟨dir, m, rfl, inv⟩

theorem clearEntries_inv (pages : List Nat) : ∃ next after, pages.foldlM clearEntry (dir, m) = .ok
    (next, after) ∧ Inv own (s.setDir d next after) := by
  induction pages generalizing dir m with
  | nil => exact ⟨dir, m, rfl, inv⟩
  | cons page rest ih =>
    obtain ⟨between, middle, ran, kept⟩ := clearEntry_inv inv page
    obtain ⟨next, after, finished, last⟩ := ih kept
    refine ⟨next, after, ?_, last⟩
    rwa [List.foldlM_cons, ran]

theorem unmapRange_inv {start stop : Nat} (aligned : start % pgSize = 0 ∧ stop % pgSize = 0)
    (access : UserAccess start stop) : ∃ next after, Pmm.unmapRange (dir, m) start stop = .ok
    (next, after) ∧ Inv own (s.setDir d next after) := by
  rw [unmapRange_eq _ aligned.1 aligned.2 access]
  exact clearEntries_inv inv _

end

/-- The assertion that stops `copy_range` when there is no memory for a copy. -/
def Starved (fault : Fault) : Prop := fault = .assertion "npage!=NULL"

theorem copyEntry_inv (inv : Inv own (s.setDir d dir m)) (tabled : dir.Tabled page) (share : Bool)
    {place : Place} (mapped : (s.setDir d dir m).maps place = some (pte2page pte)) :
    Ends Starved (copyEntry dir m page pte share) fun result => ∃ later,
      Inv later (s.setDir d result.1 result.2) ∧ Grows own later := by
  have accounts : Accounts (s.setDir d dir m).maps own m := inv.accounts
  cases share with
  | true =>
    have some := accounts.mapped_of_holds mapped
    have owner := accounts.pool_of_mapped some
    obtain ⟨next, after, ret, later, inserted, kept, outcome, _, _, zero⟩ :=
      pageInsert_inv inv (.inr owner) (accounts.not_free_of_mapped some) (accounts.pool owner).2.2
      page ((pte &&& pteUser).setWidth 10)
    have zero := zero tabled
    simp only [copyEntry, if_true]
    refine .bind_ok inserted ?_
    rw [zero, ensure_bind]
    exact ⟨later, kept, .of_insert outcome owner⟩
  | false =>
    simp only [copyEntry, Bool.false_eq_true, if_false]
    rcases accounts.allocPage with ⟨middle, ran, ios, frees, kept⟩ | ⟨middle, f, ran, free, plain, ios, frees, kept⟩
    · rw [ran]
      rfl
    have owner := accounts.pool_of_free free
    have copied := inv.filled owner kept (middle.data (pte2page pte))
    have taken : middle.free f = false := by rw [frees, update_self]
    have still : middle.io f = false := by rw [ios, plain]
    obtain ⟨next, after, ret, later, inserted, inside, outcome, _, _, zero⟩ :=
      pageInsert_inv copied (.inl (update_self ..)) taken still page ((pte &&& pteUser).setWidth 10)
    have zero := zero tabled
    have grows := Grows.of_insert_new outcome owner
    rw [← outcome.success zero, update_eq_self] at grows
    rw [ran]
    refine .bind_ok inserted ?_
    rw [zero, ensure_bind]
    exact ⟨later, inside, grows⟩

theorem copyRangeFrom_inv {source fuel start stop : Nat} {share : Bool}
    (inv : Inv own (s.setDir d dir m)) (different : source ≠ d)
    (aligned : start % pgSize = 0 ∧ stop % pgSize = 0) (before : start < stop)
      (enough : stop - start ≤ fuel * pgSize) :
      Ends Starved (copyRangeFrom (s.dirs source) share stop fuel dir m start) fun result =>
      ∃ later, Inv later (s.setDir d result.1 result.2.1) ∧ Grows own later := by
  induction fuel generalizing own dir m start with
  | zero => omega
  | succ fuel ih =>
    -- The rest of the walk, from any later address.
    have next : ∀ {own : Frame → Owner} {dir : PageDir} {m : Memory} {address : Nat},
      Inv own (s.setDir d dir m) → address % pgSize = 0 →
        start + pgSize ≤ address →
          Ends Starved (copyRangeFrom.next (s.dirs source) share stop fuel dir m address)
          fun result =>
          ∃ later, Inv later (s.setDir d result.1 result.2.1) ∧ Grows own later := by
      intro own dir m address inv page further
      rw [copyRangeFrom.next]
      split
      · next more => exact ih inv ⟨page, aligned.2⟩ more.2 (by rw [Nat.succ_mul] at enough; omega)
      · exact ⟨own, inv, .refl own⟩
    rw [copyRangeFrom]
    split
    · refine next inv ?_ ?_
      all_goals
        simp only [ptSize, nPteEntry, pgSize] at *
        omega
    · next tabled =>
      have tabled := not_not.mp tabled
      split
      · next present =>
        obtain ⟨between, middle, ok, later, found, kept, walked, there⟩ := getPte_inv inv (vpn start) true
        rw [found]
        cases ok with
        | false => exact ⟨later, kept, walked.grows⟩
        | true =>
          have mapped : (s.setDir d between middle).maps (.page source (vpn start)) = some
            (pte2page ((s.dirs source).pte (vpn start))) := by
            simp only [State.maps, State.entry, State.setDir, update_of_ne different, entry_of_tabled tabled]
            exact frameOf_present present
          refine (copyEntry_inv kept (there rfl) share mapped).bind ?_
          rintro ⟨following, after⟩ ⟨last, inside, grows⟩
          refine (next inside ((Nat.add_mod_right start pgSize).trans aligned.1) le_rfl).mono ?_
          rintro result ⟨final, holds, growth⟩
          exact ⟨final, holds, walked.grows.trans (grows.trans growth)⟩
      · exact next inv ((Nat.add_mod_right start pgSize).trans aligned.1) le_rfl

theorem copyRange_inv {source start stop : Nat} (inv : Inv own (s.setDir d dir m)) (different : source ≠ d)
    (aligned : start % pgSize = 0 ∧ stop % pgSize = 0) (access : UserAccess start stop)
      (share : Bool) : Ends Starved (copyRange dir (s.dirs source) m start stop share) fun result =>
      ∃ later, Inv later (s.setDir d result.1 result.2.1) ∧ Grows own later := by
  rw [copyRange, ensure_bind, if_pos aligned, ensure_bind, if_pos access]
  refine copyRangeFrom_inv inv different aligned access.2.1 ?_
  simp only [pgSize] at aligned ⊢
  omega

end Ucore.Frames
