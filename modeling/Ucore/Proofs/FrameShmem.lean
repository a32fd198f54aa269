import Ucore.Proofs.FrameTables

/-! The calls on shared objects keep the accounts of all frames, as long as
`shmem_insert_entry` does not drop the last mapping of the frame it inserts. -/

namespace Ucore.Frames
open Lib Vmm Pmm Function List Option

variable {s : State} {o : Nat} {shmem : ShmemStruct} {m after : Memory} {own later : Frame → Owner}
    {f g : Frame} {slot : Nat} {other : ShmemStruct} {last : Frame → Owner} {rest : List Shmn}
  {addr : Nat} {shmn : Shmn}
  {pte : Pte} {ghost : ShmemStruct}

theorem shmems_setShmem_same (s : State) (o : Nat) (object : Option ShmemStruct) (m : Memory) :
    (s.setShmem o object m).shmems o = object := update_self ..

theorem shmems_setShmem_other {p : Nat} (other : p ≠ o) (object : Option ShmemStruct) (m : Memory) :
    (s.setShmem o object m).shmems p = s.shmems p := update_of_ne other ..

theorem maps_setShmem (entries : slotEntry other = slotEntry shmem) :
    (s.setShmem o (some other) after).maps = (s.setShmem o (some shmem) m).maps := by
  funext place
  cases place with
  | page => rfl
  | slot p =>
    simp only [State.maps, State.entry, State.setShmem]
    by_cases here : p = o
    · rw [here, update_self, update_self, map_some, map_some, entries]
    · rw [update_of_ne here, update_of_ne here]

theorem maps_setEntry (tabled : Tabled shmem slot) (pte : Pte) :
    (s.setShmem o (some (shmem.setEntry slot pte)) after).maps = update
    (s.setShmem o (some shmem) m).maps (.slot o slot) (frameOf pte) := by
  have entries := slotEntry_setEntry tabled pte
  funext place
  cases place with
  | page =>
    rfl
  | slot p other =>
    by_cases here : Place.slot p other = .slot o slot
    · cases here
      simp only [State.maps, State.entry, State.setShmem, update_self, map_some, getD_some, entries]
    rw [update_of_ne here]
    simp only [State.maps, State.entry, State.setShmem]
    obtain rfl | same := eq_or_ne p o
    · have apart : other ≠ slot := fun equal => here (by rw [equal])
      rw [update_self, update_self, map_some, map_some, entries, update_of_ne apart]
    · rw [update_of_ne same, update_of_ne same]

theorem maps_slot (tabled : Tabled shmem slot) : (s.setShmem o (some shmem) m).maps (.slot o slot) =
    frameOf (shmem.entry slot) := by
  simp only [State.maps, State.entry, State.setShmem, update_self, map_some, getD_some, slotEntry, if_pos tabled]

theorem Inv.shmemAt (inv : Inv own (s.setShmem o (some shmem) m)) : ShmemOk own o shmem :=
  inv.shmem o shmem (shmems_setShmem_same ..)

theorem Inv.tableAt {start : Nat} (inv : Inv own (s.setShmem o (some shmem) m))
    (owned : own f = .shmn o start) : ∃ shmn ∈ shmem.shmnList, shmn.page = f := by
  obtain ⟨object, is, found⟩ := inv.shmn f o start owned
  rw [shmems_setShmem_same] at is
  cases is
  exact found

/-- One object is replaced and its tables may come and go; the tables of the others keep their
frames. -/
theorem Inv.exchange {object next : Option ShmemStruct} (inv : Inv own (s.setShmem o object m))
    (accounts : Accounts (s.setShmem o next after).maps later after) (dirs : ∀ f, later f = .dir ↔
    own f = .dir)
    (others : ∀ f p start, p ≠ o → (later f = .shmn p start ↔ own f = .shmn p start))
      (ok : ∀ shmem, next = some shmem → ShmemOk later o shmem)
    (tables : ∀ f start, later f = .shmn o start → ∃ shmem, next = some shmem ∧
      ∃ shmn ∈ shmem.shmnList, shmn.page = f) : Inv later (s.setShmem o next after) := by
  refine ⟨accounts, inv.nested, fun f => (dirs f).trans (inv.dirTable f), ?_, ?_⟩
  · intro p shmem is
    obtain rfl | here := eq_or_ne p o
    · exact ok shmem ((shmems_setShmem_same ..).symm.trans is)
    · have old := (shmems_setShmem_other here object m).trans ((shmems_setShmem_other here ..).symm.trans is)
      exact (inv.shmem p shmem old).reown fun f start => (others f p start here).mpr
  · intro f p start owned
    obtain rfl | here := eq_or_ne p o
    · rw [shmems_setShmem_same]
      exact tables f start owned
    · rw [shmems_setShmem_other here]
      obtain ⟨shmem, is, found⟩ := inv.shmn f p start ((others f p start here).mp owned)
      exact ⟨shmem, (shmems_setShmem_other here ..).symm.trans is, found⟩

theorem Inv.reshmem (inv : Inv own (s.setShmem o (some shmem) m)) (same : SameOwners own later)
    (accounts : Accounts (s.setShmem o (some other) after).maps later after)
    (list : other.shmnList = shmem.shmnList)
    (cached : ∀ shmn ∈ other.shmnCache, shmn ∈ other.shmnList) (clean : ∀ slot,
      slotEntry other slot = 0 ∨ Present (slotEntry other slot)) :
      Inv later (s.setShmem o (some other) after) := by
  have ok := inv.shmemAt
  refine inv.exchange accounts same.dirs (fun f p start _ => same.shmns f p start) ?_ ?_
  · rintro _ ⟨⟩
    refine ⟨⟨list ▸ ok.ordered, list ▸ ok.aligned, cached⟩, ?_, clean⟩
    intro shmn member
    exact (same.shmns _ _ _).mpr (ok.owned shmn (list ▸ member))
  · intro f start owned
    exact ⟨other, rfl, list ▸ inv.tableAt ((same.shmns f o start).mp owned)⟩

theorem clean_setEntry (ok : ShmemOk own o shmem) (tabled : Tabled shmem slot) (clean : pte = 0 ∨
    Present pte) (other : Nat) : slotEntry (shmem.setEntry slot pte) other = 0 ∨
    Present (slotEntry (shmem.setEntry slot pte) other) := by
  rw [slotEntry_setEntry tabled, update_apply]
  split
  · exact clean
  · exact ok.clean other

theorem Inv.writeSlot (inv : Inv own (s.setShmem o (some shmem) m)) (tabled : Tabled shmem slot) (same : SameOwners own later)
    (clean : pte = 0 ∨ Present pte)
      (accounts : Accounts (update (s.setShmem o (some shmem) m).maps (.slot o slot) (frameOf pte))
      later after) : Inv later (s.setShmem o (some (shmem.setEntry slot pte)) after) := by
  refine inv.reshmem same ?_ rfl inv.shmemAt.cached (clean_setEntry inv.shmemAt tabled clean)
  rwa [maps_setEntry tabled]

/-- What a call that may add tables keeps: no slot changes, and frames that are in use stay where
they are. -/
structure Extended (own later : Frame → Owner) (shmem : ShmemStruct) (m : Memory)
    (next : ShmemStruct) (after : Memory) : Prop where
  entries : slotEntry next = slotEntry shmem
  io : after.io = m.io
  grows : Grows own later
  taken : ∀ g, m.free g = false → after.free g = false ∧ later g = own g

theorem update_eq_iff {owner kind : Owner} (was : own f ≠ kind) (new : owner ≠ kind) (g : Frame) :
    update own f owner g = kind ↔ own g = kind := by
  by_cases here : g = f
  · rw [here, update_self]
    exact iff_of_false new was
  · rw [update_of_ne here]

theorem Inv.addShmn {create : Bool} {new : Shmn} {next : ShmemStruct} {middle : Memory}
    (inv : Inv own (s.setShmem o (some shmem) m))
    (free : m.free new.page = true) (accounts : Accounts (s.setShmem o (some shmem) m).maps
      (update own new.page (.shmn o new.start)) after)
    (got : GotShmn shmem m addr create next middle (some new)) (members : ∀ shmn,
      shmn ∈ next.shmnList ↔ shmn = new ∨ shmn ∈ shmem.shmnList) :
      Inv (update own new.page (.shmn o new.start)) (s.setShmem o (some next) after) := by
  have ok := inv.shmemAt
  have pool := inv.accounts.pool_of_free free
  rw [← maps_setShmem got.entries] at accounts
  refine inv.exchange accounts (update_eq_iff (by simp [pool]) (by simp)) (fun f p start other =>
    update_eq_iff (by simp [pool]) (by simp [other.symm]) f) ?_ ?_
  · rintro _ ⟨⟩
    refine ⟨got.shaped ok.toShaped, ?_, got.entries ▸ ok.clean⟩
    intro shmn member
    rcases (members shmn).mp member with rfl | old
    · exact update_self ..
    have owned := ok.owned shmn old
    have other : shmn.page ≠ new.page := by
      intro same
      rw [same, pool] at owned
      cases owned
    rw [update_of_ne other, owned]
  · intro f start owned
    by_cases here : f = new.page
    · exact ⟨next, rfl, new, (members new).mpr (.inl rfl), here.symm⟩
    · rw [update_of_ne here] at owned
      obtain ⟨shmn, member, page⟩ := inv.tableAt owned
      exact ⟨next, rfl, shmn, (members shmn).mpr (.inr member), page⟩

theorem Inv.resupplied (inv : Inv own (s.setShmem o (some shmem) m))
    (accounts : Accounts (s.setShmem o (some shmem) m).maps own after) :
    Inv own (s.setShmem o (some shmem) after) :=
      inv.reshmem (fun _ => .inl rfl) accounts rfl inv.shmemAt.cached inv.shmemAt.clean

theorem Extended.resupplied {next : ShmemStruct} (entries : slotEntry next = slotEntry shmem) (frees : after.free = m.free)
    (ios : after.io = m.io) : Extended own own shmem m next after :=
      ⟨entries, ios, .refl own, fun _ taken => ⟨by rw [frees, taken], rfl⟩⟩

theorem getShmn_inv (inv : Inv own (s.setShmem o (some shmem) m)) (addr : Nat) (create : Bool) :
    ∃ next after given later, getShmn shmem m addr create = .ok (next, after, given) ∧
    Inv later (s.setShmem o (some next) after) ∧
      Extended own later shmem m next after ∧ ∀ shmn, given = some shmn → shmn ∈ next.shmnList ∧ shmn.span.Covers addr := by
  have ok := inv.shmemAt
  have accounts := inv.accounts
  have paid : Accounts (s.setShmem o (some shmem) m).maps own m.kmalloc.1 := accounts.congr rfl rfl rfl rfl
  obtain ⟨next, after, given, ran, got⟩ := getShmn_spec ok.toShaped m addr create
  have table : ∀ shmn, given = some shmn → shmn ∈ next.shmnList ∧ shmn.span.Covers addr := by
    rintro shmn rfl
    exact got.table
  have whole := got
  cases got with
  | @found shmn member covers =>
    refine ⟨_, m, _, own, ran, ?_, .resupplied rfl rfl rfl, table⟩
    refine inv.reshmem (fun _ => .inl rfl) ?_ rfl (whole.shaped ok.toShaped).cached ok.clean
    rwa [maps_setShmem whole.entries]
  | absent => exact ⟨shmem, m, none, own, ran, inv, .resupplied rfl rfl rfl, table⟩
  | poor => exact ⟨shmem, _, none, own, ran, inv.resupplied paid, .resupplied rfl rfl rfl, table⟩
  | @full after short =>
    rcases paid.allocPage with ⟨last, taken, ios, frees, kept⟩ | ⟨last, f, taken, _⟩
    · cases short.symm.trans taken
      exact ⟨shmem, after, none, own, ran, inv.resupplied kept, .resupplied rfl frees ios, table⟩
    · cases short.symm.trans taken
  | @made after new before rest taken aligned covers apart parts ordered =>
    rcases paid.allocPage with ⟨last, none, _⟩ | ⟨last, f, again, free, plain, ios, frees, kept⟩
    · cases taken.symm.trans none
    · cases taken.symm.trans again
      have members : ∀ shmn, shmn ∈ before ++ new :: rest ↔ shmn = new ∨ shmn ∈ shmem.shmnList := by
        intro shmn
        rw [parts]
        simp only [mem_append, mem_cons]
        exact or_left_comm
      have free : m.free new.page = true := free
      have table' : Accounts _ (update (update own new.page .caller) new.page (.shmn o new.start))
        (after.setRef new.page (after.ref new.page)) :=
        kept.table (update_self ..) (by rw [ios, plain]) (.inr ⟨o, new.start, rfl⟩)
      have same : after.setRef new.page (after.ref new.page) = after := by simp [Memory.setRef]
      rw [update_idem, same] at table'
      refine ⟨_, after, _, _, ran, inv.addShmn free table' whole members, ⟨whole.entries, ios, ?_, ?_⟩, table⟩
      · intro g
        obtain rfl | here := eq_or_ne g new.page
        · exact .inr ⟨accounts.pool_of_free free, by rw [update_self]; exact trivial⟩
        · exact .inl (update_of_ne here ..)
      · intro g was
        have other : g ≠ new.page := by
          rintro rfl
          cases free.symm.trans was
        exact ⟨by rwa [frees, update_of_ne other], update_of_ne other ..⟩

/-- What getting a slot does to the mappings: at most the slot gets a frame that was free. -/
structure Filled (slot : Place) (own later : Frame → Owner) (before : State) (after : State) : Prop where
  inv : Inv later after
  grows : Grows own later
  io : after.memory.io = before.memory.io
  taken : ∀ g, before.memory.free g = false → after.memory.free g = false ∧ later g = own g
  others : ∀ place, place ≠ slot → after.maps place = before.maps place
  kept : ∀ g, before.memory.free g = false → after.maps slot = some g → before.maps slot = some g

theorem Filled.of_same {slot : Place} {before after : State} (inv : Inv later after)
    (grows : Grows own later) (io : after.memory.io = before.memory.io)
    (taken : ∀ g, before.memory.free g = false → after.memory.free g = false ∧ later g = own g)
      (same : after.maps = before.maps) :
    Filled slot own later before after :=
      ⟨inv, grows, io, taken, fun place _ => congrFun same place, fun g _ => by rw [same]; exact id⟩

theorem Filled.after_walk {slot : Place} {before between after : State}
    (filled : Filled slot later last between after) (grows : Grows own later)
    (io : between.memory.io = before.memory.io)
    (taken : ∀ g, before.memory.free g = false → between.memory.free g = false ∧ later g = own g)
      (same : between.maps = before.maps) : Filled slot own last before after := by
  refine ⟨filled.inv, grows.trans filled.grows, filled.io.trans io, ?_, ?_, ?_⟩
  · intro g was
    obtain ⟨still, equal⟩ := taken g was
    obtain ⟨final, again⟩ := filled.taken g still
    exact ⟨final, again.trans equal⟩
  · intro place other
    rw [filled.others place other, same]
  · intro g was maps
    rw [← same]
    exact filled.kept g (taken g was).1 maps

theorem fillSlot_inv (inv : Inv own (s.setShmem o (some shmem) m)) (tabled : Tabled shmem slot)
    (create : Bool) : ∃ next after, fillSlot shmem m slot create = (next, after) ∧
    next.shmnList = shmem.shmnList ∧
      Filled (.slot o slot) own own (s.setShmem o (some shmem) m) (s.setShmem o (some next) after) := by
  have accounts : Accounts (s.setShmem o (some shmem) m).maps own m := inv.accounts
  rw [fillSlot]
  split
  · next empty =>
    rcases accounts.allocPage with ⟨after, ran, ios, frees, kept⟩ | ⟨after, f, ran, free, plain, ios, frees, kept⟩
    · rw [ran]
      exact ⟨shmem, after, rfl, rfl, .of_same (inv.resupplied kept) (.refl own) ios (fun g was =>
        ⟨by rw [← was]; exact congrFun frees g, rfl⟩) rfl⟩
    have owner := accounts.pool_of_free free
    have nothing : (s.setShmem o (some shmem) m).maps (.slot o slot) = none := by
      rw [maps_slot tabled, empty.1]
      exact frameOf_absent not_present_zero
    have put := kept.put nothing (.inl (update_self ..)) (by rw [frees, update_self]) (by rw [ios, plain])
    rw [update_idem, ← owner, update_eq_self] at put
    have written : frameOf (ptepMap (page2pa f)) = some f := by rw [frameOf_present (present_ptepMap f), pte2page_ptepMap]
    rw [← written] at put
    rw [ran]
    refine ⟨_, _, rfl, rfl, inv.writeSlot tabled (fun _ => .inl rfl) (.inr (present_ptepMap f)) put,
      .refl own, ios, ?_, ?_, ?_⟩
    · intro g was
      have other : g ≠ f := by
        rintro rfl
        rw [show m.free g = false from was] at free
        cases free
      refine ⟨?_, rfl⟩
      show after.free g = false
      rwa [frees, update_of_ne other]
    · intro place other
      rw [maps_setEntry tabled, update_of_ne other]
    · intro g was maps
      rw [maps_setEntry (m := m) tabled, update_self, written] at maps
      cases maps
      rw [show m.free f = false from was] at free
      cases free
  · exact ⟨shmem, m, rfl, rfl, .of_same inv (.refl own) rfl (fun g was => ⟨was, rfl⟩) rfl⟩

theorem shmemGetEntry_inv (inv : Inv own (s.setShmem o (some shmem) m)) (inside : addr < shmem.len) (create : Bool) :
    ∃ next after given later, shmemGetEntry shmem m addr create = .ok (next, after, given) ∧
      (∀ slot, given = some slot → slot = addr / pgSize ∧ Tabled next slot) ∧
      Filled (.slot o (addr / pgSize)) own later (s.setShmem o (some shmem) m) (s.setShmem o (some next) after) := by
  obtain ⟨between, middle, found, owners, ran, kept, extended, covers⟩ := getShmn_inv inv (roundDown addr) create
  have same : (s.setShmem o (some between) middle).maps = (s.setShmem o (some shmem) m).maps :=
    maps_setShmem extended.entries
  rw [shmemGetEntry, ensure_bind, if_pos inside, ran]
  cases found with
  | none =>
    refine ⟨between, middle, none, owners, rfl, ?_, .of_same kept extended.grows extended.io extended.taken same⟩
    rintro slot ⟨⟩
  | some shmn =>
    obtain ⟨member, around⟩ := covers shmn rfl
    have slot := slot_of_covers (kept.shmemAt.aligned shmn member).1 around
    have tabled := tabled_of_covers member around
    obtain ⟨next, after, filled, list, facts⟩ := fillSlot_inv kept tabled create
    refine ⟨next, after, some (addr / pgSize), owners, ?_, ?_,
      facts.after_walk extended.grows extended.io extended.taken same⟩
    · simp only [bind, Except.bind, slot, filled]
      rfl
    · rintro other ⟨⟩
      refine ⟨rfl, ?_⟩
      rwa [Tabled, list]

/-- What an entry for a frame needs when it takes the place of another one in a slot. -/
theorem Accounts.swapEntry {old : Pte} {place : Place} {holds : Place → Option Frame}
    (accounts : Accounts holds own m) (held : holds place = frameOf old) (clean : old = 0 ∨
    Present old) (new : pte = 0 ∨ Present pte)
    (user : Present pte → (own (pte2page pte) = .caller ∨ own (pte2page pte) = .pool) ∧
      m.free (pte2page pte) = false ∧ m.io (pte2page pte) = false)
    (elsewhere : Present pte → holds place = some (pte2page pte) → ∃ other, other ≠ place ∧
      holds other = some (pte2page pte)) : ∃ between after, dropEntry m old = .ok between ∧
      holdEntry between pte = .ok after ∧
      Accounts (update holds place (frameOf pte)) (if Present pte then update own (pte2page pte) .pool else own) after := by
  obtain ⟨between, dropped, io, spared, kept⟩ := accounts.shmemRemoveEntryPte_ok held clean
  rw [← dropEntry_eq] at dropped
  by_cases present : Present pte
  · obtain ⟨owner, taken, plain⟩ := user present
    have still : between.free (pte2page pte) = false := by
      by_cases same : frameOf old = some (pte2page pte)
      · -- Another place maps the frame, so that it outlives the slot.
        obtain ⟨other, apart, maps⟩ := elsewhere present (held.trans same)
        have mapped : update holds place none other = some (pte2page pte) := by rw [update_of_ne apart, maps]
        exact kept.not_free_of_mapped (kept.mapped_of_holds mapped)
      · rw [spared _ same, taken]
    refine ⟨between, between.refAdd (pte2page pte) 1, dropped, by rw [holdEntry, if_pos present]; rfl, ?_⟩
    have put := kept.put (update_self ..) owner still (by rw [io, plain])
    rw [if_pos present, frameOf_present present]
    rwa [update_idem] at put
  · have zero := new.resolve_right present
    refine ⟨between, between, dropped, by rw [holdEntry, if_neg present, zero]; rfl, ?_⟩
    rwa [if_neg present, frameOf_absent present]

theorem shmemInsertEntry_inv (inv : Inv own (s.setShmem o (some shmem) m)) (inside : addr < shmem.len)
    (new : pte = 0 ∨ Present pte)
    (user : Present pte → (own (pte2page pte) = .caller ∨ own (pte2page pte) = .pool) ∧
      m.free (pte2page pte) = false ∧ m.io (pte2page pte) = false)
    (elsewhere : Present pte → (s.setShmem o (some shmem) m).maps (.slot o (addr / pgSize)) =
      some (pte2page pte) → ∃ other, other ≠ .slot o (addr / pgSize) ∧
      (s.setShmem o (some shmem) m).maps other = some (pte2page pte)) :
    ∃ next after ret later, shmemInsertEntry shmem m addr pte = .ok (next, after, ret) ∧
      Inv later (s.setShmem o (some next) after) ∧ (∀ g, (Present pte → g ≠ pte2page pte) →
      later g = own g ∨ own g = .pool ∧ (later g).Table) ∧
      (Present pte → after.free (pte2page pte) = false ∧
        (later (pte2page pte)  = own (pte2page pte) ∨ later (pte2page pte) = .pool)) := by
  obtain ⟨between, middle, given, owners, got, slot, filled⟩ := shmemGetEntry_inv inv inside true
  have was : ∀ present : Present pte, m.free (pte2page pte) = false := fun present => (user present).2.1
  have same : ∀ present : Present pte, owners (pte2page pte) = own (pte2page pte) :=
    fun present => (filled.taken _ (was present)).2
  rw [shmemInsertEntry, got]
  cases given with
  | none =>
    refine ⟨between, middle, -eNoMem, owners, rfl, filled.inv, fun g _ => filled.grows g,
      fun present => ⟨?_, .inl (same present)⟩⟩
    exact (filled.taken _ (was present)).1
  | some slot' =>
    obtain ⟨rfl, tabled⟩ := slot slot' rfl
    have held := maps_slot (s := s) (o := o) (m := middle) tabled
    have clean : between.entry (addr / pgSize) = 0 ∨ Present (between.entry (addr / pgSize)) := by
      have clean := filled.inv.shmemAt.clean (addr / pgSize)
      rwa [slotEntry, if_pos tabled] at clean
    obtain ⟨dropped, after, drops, holds, accounts⟩ := filled.inv.accounts.swapEntry held clean new
      (fun present => ⟨same present ▸ (user present).1, (filled.taken _ (was present)).1,
        by rw [filled.io]; exact (user present).2.2⟩) (fun present maps => by
        obtain ⟨other, apart, there⟩ := elsewhere present (filled.kept _ (was present) maps)
        exact ⟨other, apart, (filled.others other apart).trans there⟩)
    have owners' : SameOwners owners (if Present pte then update owners (pte2page pte) .pool else owners) := by
      split
      · next present => exact sameOwners_update (not_table_of_user (same present ▸ (user present).1)) id
      · exact fun _ => .inl rfl
    have inside := filled.inv.writeSlot tabled owners' new accounts
    refine ⟨between.setEntry (addr / pgSize) pte, after, 0, _, ?_, inside, ?_, ?_⟩
    · have drops : dropEntry middle (between.entry (addr / pgSize)) = .ok dropped := drops
      simp only [bind, Except.bind, drops, holds]
      rfl
    · intro g other
      split
      · next present =>
        rw [update_of_ne (other present)]
        exact filled.grows g
      · exact filled.grows g
    · intro present
      have mapped : (s.setShmem o (some (between.setEntry (addr / pgSize) pte)) after).maps
        (.slot o (addr / pgSize)) = some (pte2page pte) := by
        rw [maps_setEntry (m := m) tabled, update_self, frameOf_present present]
      refine ⟨inside.accounts.not_free_of_mapped (inside.accounts.mapped_of_holds mapped), .inr ?_⟩
      rw [if_pos present, update_self]

/-- Emptying slots only depends on the entries: the accounts may be kept over an object
`ghost` with the same entries that still has the table in its list. -/
theorem removeSlots_inv (slots : List Nat) (inv : Inv own (s.setShmem o (some ghost) m)) (same : shmem.entry = ghost.entry)
    (tabled : ∀ slot ∈ slots, Tabled ghost slot) : ∃ entry after, slots.foldlM removeSlot
      (shmem, m) = .ok ({ shmem with entry }, after) ∧
      Inv own (s.setShmem o (some { ghost with entry }) after) ∧ (∀ slot ∈ slots, entry slot = 0) ∧
        ∀ slot, ghost.entry slot = 0 → entry slot = 0 := by
  induction slots generalizing shmem ghost m with
  | nil =>
    refine ⟨shmem.entry, m, rfl, same ▸ inv, ?_, fun slot zero => (congrFun same slot).trans zero⟩
    rintro slot ⟨⟩
  | cons slot rest ih =>
    have here := tabled slot mem_cons_self
    have clean := inv.shmemAt.clean slot
    rw [slotEntry, if_pos here] at clean
    obtain ⟨middle, removed, _, _, accounts⟩ :=
      inv.accounts.shmemRemoveEntryPte_ok (maps_slot (s := s) (o := o) (m := m) here) clean
    have cleared := inv.writeSlot here (fun _ => .inl rfl) (.inl rfl) accounts
    have equal : (shmem.setEntry slot 0).entry = (ghost.setEntry slot 0).entry := by
      rw [ShmemStruct.setEntry, ShmemStruct.setEntry, same]
    obtain ⟨entry, after, ran, kept, zero, stays⟩ := ih cleared equal fun other member =>
      tabled other (mem_cons_of_mem slot member)
    have removed : shmemRemoveEntryPte m (shmem.entry slot) = .ok middle := by rwa [same]
    refine ⟨entry, after, ?_, kept, ?_, ?_⟩
    · rwa [foldlM_cons, removeSlot, removed]
    · intro other member
      rcases mem_cons.mp member with rfl | later
      · exact stays other (update_self ..)
      · exact zero other later
    · intro other was
      refine stays other ?_
      by_cases equal : other = slot
      · rw [equal]
        exact update_self ..
      · exact (update_of_ne equal ..).trans was

def Callers (own later : Frame → Owner) : Prop := ∀ f, later f = .caller ↔ own f = .caller

theorem Grows.callers (grows : Grows own later) : Callers own later := by
  intro f
  rcases grows f with same | ⟨pool, table⟩
  · rw [same]
  · rw [pool]
    refine iff_of_false (fun held => ?_) (by simp)
    rwa [held] at table

theorem Callers.trans (first : Callers own later) (second : Callers later last) : Callers own last :=
  fun f => (second f).trans (first f)

theorem Inv.dropShmn (inv : Inv own (s.setShmem o (some ghost) m))
    (list : ghost.shmnList = shmn :: rest) (uncached : ghost.shmnCache = none) (empty : ∀ slot,
    shmn.span.Covers (slot * pgSize) → ghost.entry slot = 0) :
    ∃ after, m.freePage shmn.page = .ok after ∧ Inv (update own shmn.page .pool)
      (s.setShmem o (some { ghost with shmnList := rest }) after) := by
  have ok := inv.shmemAt
  have accounts := inv.accounts
  have owner := ok.owned shmn (list ▸ mem_cons_self)
  have plain : m.io shmn.page = false := by
    have account := accounts.frame shmn.page
    rw [owner] at account
    exact account.2.2
  obtain ⟨after, freed, _, _, kept⟩ := accounts.freePage (f := shmn.page) (by rw [owner]; simp) plain
  have entries : slotEntry { ghost with shmnList := rest } = slotEntry ghost := by
    funext slot
    by_cases here : shmn.span.Covers (slot * pgSize)
    · have zero := empty slot here
      rw [slotEntry, slotEntry]
      simp only [zero, ite_self]
    · have same : Tabled { ghost with shmnList := rest } slot ↔ Tabled ghost slot := by
        simp only [Tabled, list, mem_cons, exists_eq_or_imp, here, false_or]
      by_cases tabled : Tabled ghost slot
      · rw [slotEntry, slotEntry, if_pos tabled, if_pos (same.mpr tabled)]
      · rw [slotEntry, slotEntry, if_neg tabled, if_neg fun both => tabled (same.mp both)]
  have fewer : ∀ other ∈ rest, other ∈ ghost.shmnList := fun other member => list ▸ mem_cons_of_mem shmn member
  rw [← maps_setShmem entries] at kept
  refine ⟨after, freed, inv.exchange kept (update_eq_iff (by simp [owner]) (by simp))
    (fun f p start other => update_eq_iff (by simp [owner, other.symm]) (by simp) f) ?_ ?_⟩
  · rintro _ ⟨⟩
    refine ⟨⟨ok.ordered.sublist (list ▸ sublist_cons_self shmn rest), fun other member =>
      ok.aligned other (fewer other member), ?_⟩, ?_, entries ▸ ok.clean⟩
    · intro other cached
      rw [show ghost.shmnCache = none from uncached] at cached
      cases cached
    intro other member
    -- The tables of an object start at different offsets, so they have different frames.
    have apart : other.page ≠ shmn.page := by
      intro same
      have first := ok.owned other (fewer other member)
      rw [same, owner] at first
      have less := (list ▸ ok.ordered).starts
      have less := (pairwise_cons.mp less).1 other member
      simp only [Owner.shmn.injEq] at first
      simp only [Shmn.span] at less
      omega
    rw [update_of_ne apart]
    exact ok.owned other (fewer other member)
  · intro f start owned
    have other : f ≠ shmn.page := by
      rintro rfl
      rw [update_self] at owned
      cases owned
    rw [update_of_ne other] at owned
    obtain ⟨found, member, page⟩ := inv.tableAt owned
    rw [list] at member
    rcases mem_cons.mp member with rfl | inside
    · exact absurd page.symm other
    · exact ⟨_, rfl, found, inside, page⟩

theorem mem_slots (aligned : shmn.start % ptSize = 0 ∧ shmn.stop = shmn.start + ptSize) :
    slot ∈ range' (shmn.start / pgSize) nPteEntry ↔ shmn.span.Covers (slot * pgSize) := by
  obtain ⟨first, last⟩ := aligned
  rw [mem_range'_1]
  simp only [Shmn.span, Span.Covers, last]
  simp only [ptSize, pgSize, nPteEntry] at *
  omega

theorem shmnDestroy_inv (inv : Inv own (s.setShmem o (some ghost) m))
    (list : ghost.shmnList = shmn :: rest) (uncached : ghost.shmnCache = none)
    (same : shmem.entry = ghost.entry) :
    ∃ entry after, shmnDestroy (shmem, m) shmn = .ok ({ shmem with entry }, after) ∧
      Inv (update own shmn.page .pool)
      (s.setShmem o (some { ghost with shmnList := rest, entry }) after) ∧
      Callers own (update own shmn.page .pool) := by
  have member := list ▸ mem_cons_self
  have slots : ∀ slot, slot ∈ range' (shmn.start / pgSize) nPteEntry ↔ shmn.span.Covers
    (slot * pgSize) := fun slot => mem_slots (inv.shmemAt.aligned shmn member)
  obtain ⟨entry, middle, emptied, kept, zero, _⟩ :=
    removeSlots_inv (range' (shmn.start / pgSize) nPteEntry) inv same fun slot inside =>
      ⟨shmn, member, (slots slot).mp inside⟩
  obtain ⟨after, freed, last⟩ := kept.dropShmn list uncached fun slot covers => zero slot ((slots slot).mpr covers)
  refine ⟨entry, after, ?_, last, ?_⟩
  · rw [shmnDestroy, emptied]
    simp only [bind, Except.bind, freed]
    rfl
  · intro f
    by_cases here : f = shmn.page
    · rw [here, inv.shmemAt.owned shmn member]
      simp
    · rw [update_of_ne here]

theorem destroyShmns_inv (shmns : List Shmn) (inv : Inv own (s.setShmem o (some ghost) m))
    (list : ghost.shmnList = shmns) (uncached : ghost.shmnCache = none)
    (same : shmem.entry = ghost.entry) :
    ∃ final after later, destroyShmns (shmem, m) shmns = .ok (final, after) ∧
      Inv later (s.setShmem o none after) ∧ Callers own later := by
  induction shmns generalizing shmem ghost m own with
  | nil =>
    have zero : ∀ slot, slotEntry ghost slot = 0 := by
      intro slot
      refine if_neg ?_
      rintro ⟨shmn, member, _⟩
      rw [list] at member
      cases member
    have maps : (s.setShmem o none m).maps = (s.setShmem o (some ghost) m).maps := by
      funext place
      cases place with
      | page => rfl
      | slot p =>
        simp only [State.maps, State.entry, State.setShmem]
        by_cases here : p = o
        · rw [here, update_self, update_self, map_some, zero]
          rfl
        · rw [update_of_ne here, update_of_ne here]
    refine ⟨shmem, m, own, rfl, inv.exchange (maps ▸ inv.accounts) (fun _ => Iff.rfl)
      (fun _ _ _ _ => Iff.rfl) (by simp) ?_, fun _ => Iff.rfl⟩
    intro f start owned
    obtain ⟨shmn, member, _⟩ := inv.tableAt owned
    rw [list] at member
    cases member
  | cons shmn rest ih =>
    have entries : { shmem with shmnList := rest }.entry = ghost.entry := same
    obtain ⟨entry, middle, destroyed, kept, callers⟩ := shmnDestroy_inv inv list uncached entries
    have again : ({ shmem with shmnList := rest, entry } : ShmemStruct).entry = entry := rfl
    obtain ⟨final, after, later, ran, last, further⟩ := ih kept rfl uncached again
    refine ⟨final, after, later, ?_, last, callers.trans further⟩
    rwa [destroyShmns, destroyed]

theorem shmemDestroy_inv (inv : Inv own (s.setShmem o (some shmem) m)) : ∃ final after later,
    shmemDestroy (shmem, m) = .ok (final, after) ∧ Inv later (s.setShmem o none after) ∧
    Callers own later := by
  have forgotten : Inv own (s.setShmem o (some { shmem with shmnCache := none }) m) := by
    refine inv.reshmem (fun _ => .inl rfl) ?_ rfl (fun _ never => by cases never) inv.shmemAt.clean
    rw [maps_setShmem (show slotEntry { shmem with shmnCache := none } = slotEntry shmem from rfl)]
    exact inv.accounts
  exact destroyShmns_inv shmem.shmnList forgotten rfl rfl rfl

end Ucore.Frames
