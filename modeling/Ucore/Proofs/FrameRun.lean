import Ucore.Proofs.FrameShmem

/-! Reference counting over whole runs: the count of a frame of user memory is the number
of places that map it, and the frame goes back to the allocator with the last of them. -/

namespace Ucore.Frames
open Lib Vmm Pmm Function

variable {s after : State} {own later : Frame → Owner} {f : Frame} {o : Nat} {shmem : ShmemStruct}

/-- The number of entries that map a frame. -/
noncomputable def mappings (s : State) (f : Frame) : Nat := tally s.maps f

/-- The counts are right, and no frame is free while it is mapped. -/
structure Counted (s : State) : Prop where
  finite : ∀ f, {place | s.maps place = some f}.Finite
  ref : ∀ f, ¬ DirTable s f → ¬ ShmnTable s f → s.memory.ref f = mappings s f
  free : ∀ f, s.memory.free f = true → mappings s f = 0

/-- A frame is freed in a step exactly if the step takes its last mapping away. -/
structure FreedLast (s after : State) : Prop where
  last : ∀ f, 0 < mappings s f → mappings after f = 0 → ¬ DirTable after f → ¬ ShmnTable after f →
    after.memory.free f = true
  only : ∀ f, s.memory.free f = false → ¬ DirTable s f → ¬ ShmnTable s f → after.memory.free f = true →
    0 < mappings s f ∧ mappings after f = 0

theorem Inv.user (inv : Inv own s) (noDir : ¬ DirTable s f) (noShmn : ¬ ShmnTable s f) : own f = .pool ∨ own f = .caller := by
  cases owner : own f with
  | pool => exact .inl rfl
  | caller => exact .inr rfl
  | dir => exact absurd ((inv.dirTable f).mp owner) noDir
  | shmn o start =>
    obtain ⟨shmem, is, shmn, member, page⟩ := inv.shmn f o start owner
    exact absurd ⟨o, shmem, is, shmn, member, page⟩ noShmn

theorem Inv.counted (inv : Inv own s) : Counted s := by
  refine ⟨inv.accounts.finite, ?_, ?_⟩
  · intro f noDir noShmn
    rcases inv.user noDir noShmn with pool | held
    · exact (inv.accounts.pool pool).1
    · obtain ⟨zero, _, none⟩ := inv.accounts.caller held
      rw [zero, mappings, none]
      rfl
  · intro f free
    exact (inv.accounts.pool (inv.accounts.pool_of_free free)).2.1.mp free

structure Handed (own later : Frame → Owner) (s after : State) : Prop where
  given : ∀ f, later f = .caller → own f = .caller ∨ s.memory.free f = true
  kept : ∀ f, own f = .caller → after.memory.free f = false

theorem Inv.freedLast (inv : Inv own s) (next : Inv later after) (handed : Handed own later s after) : FreedLast s after := by
  constructor
  · intro f some none noDir noShmn
    rcases next.user noDir noShmn with pool | held
    · exact (next.accounts.pool pool).2.1.mpr none
    -- The frame was mapped, so it can not have come to a caller.
    rcases handed.given f held with before | free
    · exact absurd (inv.accounts.caller before).2.2 some.ne'
    · exact absurd (inv.counted.free f free) some.ne'
  · intro f taken noDir noShmn free
    rcases inv.user noDir noShmn with pool | held
    · refine ⟨Nat.pos_of_ne_zero fun none => ?_, next.counted.free f free⟩
      rw [(inv.accounts.pool pool).2.1.mpr none] at taken
      cases taken
    · rw [handed.kept f held] at free
      cases free

theorem Handed.of_callers (next : Inv later after) (callers : Callers own later) : Handed own later s after := by
  refine ⟨fun f held => .inl ((callers f).mp held), fun f held => ?_⟩
  exact (next.accounts.caller ((callers f).mpr held)).2.1

theorem setDir_self (s : State) (d : Nat) : s.setDir d (s.dirs d) s.memory = s := by rw [State.setDir, update_eq_self]

theorem setShmem_self (is : s.shmems o = some shmem) : s.setShmem o (some shmem) s.memory = s := by
  rw [State.setShmem, ← is, update_eq_self]

theorem Inv.atDir (inv : Inv own s) (d : Nat) : Inv own (s.setDir d (s.dirs d) s.memory) := by rwa [setDir_self]

theorem Inv.atShmem (inv : Inv own s) (is : s.shmems o = some shmem) :
    Inv own (s.setShmem o (some shmem) s.memory) := by rwa [setShmem_self is]

theorem Inv.owner (inv : Inv own s) (user : User s f) : own f = .caller ∨ own f = .pool :=
  (inv.user user.noDirTable user.noShmnTable).symm

/-- `shmem_insert_entry` is not given the frame of the slot itself, unless another place maps it
too. -/
def Elsewhere (s : State) : Op → Prop
  | .shmemInsertEntry o addr pte => Present pte → s.maps (.slot o (addr / pgSize)) = some (pte2page pte) →
      ∃ other, other ≠ .slot o (addr / pgSize) ∧ s.maps other = some (pte2page pte)
  | _ => True

def Kept (own : Frame → Owner) (s after : State) : Prop := ∃ later, Inv later after ∧ Handed own later s after

theorem Kept.of_callers (next : Inv later after) (callers : Callers own later) : Kept own s after :=
  ⟨later, next, .of_callers next callers⟩

theorem Kept.of_grows (next : Inv later after) (grows : Grows own later) : Kept own s after := .of_callers next grows.callers

theorem allocPage_kept (inv : Inv own s) : Kept own s { s with memory := s.memory.allocPage.1 } := by
  rcases inv.accounts.allocPage with ⟨memory, ran, ios, frees, kept⟩ | ⟨memory, f, ran, free, plain, ios, frees, kept⟩
  · rw [ran]
    exact .of_callers (inv.reown (fun _ => .inl rfl) kept (fun _ => rfl) (fun _ => rfl) rfl) fun _ => Iff.rfl
  have owner := inv.accounts.pool_of_free free
  rw [ran]
  refine ⟨_, inv.reown (sameOwners_update (not_table_of_user (.inr owner)) id) kept (fun _ => rfl)
    (fun _ => rfl) rfl, ?_, ?_⟩
  · intro g held
    by_cases here : g = f
    · exact .inr (here ▸ free)
    · rw [update_of_ne here] at held
      exact .inl held
  · intro g held
    have other : g ≠ f := by
      rintro rfl
      cases owner.symm.trans held
    rw [frees, update_of_ne other]
    exact (inv.accounts.caller held).2.1

theorem pageInsert_kept {d : Nat} (inv : Inv own s) (user : User s f) (page : Nat) (perm : Perm) :
    ∃ next memory ret, pageInsert (s.dirs d) s.memory f page perm = .ok (next, memory, ret) ∧
    Kept own s (s.setDir d next memory) := by
  obtain ⟨next, memory, ret, later, ran, kept, outcome, _, taken, _⟩ :=
    pageInsert_inv (inv.atDir d) (inv.owner user) user.taken user.plain page perm
  refine ⟨next, memory, ret, ran, later, kept, ?_, ?_⟩
  · intro g held
    obtain rfl | here := eq_or_ne g f
    · by_cases zero : ret = 0
      · rw [outcome.success zero] at held
        cases held
      · exact .inl (outcome.failure zero ▸ held)
    · rcases outcome.grows g here with same | ⟨_, table⟩
      · exact .inl (same ▸ held)
      · rw [held] at table
        exact table.elim
  · intro g held
    obtain rfl | here := eq_or_ne g f
    · exact taken
    · rcases outcome.grows g here with same | ⟨pool, _⟩
      · exact (kept.accounts.caller (same.trans held)).2.1
      · cases held.symm.trans pool

theorem shmemInsertEntry_kept {addr : Nat} {pte : Pte} (inv : Inv own s) (is : s.shmems o = some shmem)
    (inside : addr < shmem.len) (entry : pte = 0 ∨ Present pte ∧ User s (pte2page pte))
      (elsewhere : Elsewhere s (.shmemInsertEntry o addr pte)) :
    ∃ next memory ret, shmemInsertEntry shmem s.memory addr pte = .ok (next, memory, ret) ∧
      Kept own s (s.setShmem o (some next) memory) := by
  have user : Present pte → User s (pte2page pte) := by
    intro present
    rcases entry with rfl | ⟨_, user⟩
    · exact absurd present not_present_zero
    · exact user
  have apart := elsewhere
  rw [← setShmem_self is] at apart
  obtain ⟨next, memory, ret, later, ran, kept, others, own'⟩ :=
    shmemInsertEntry_inv (inv.atShmem is) inside (entry.imp id And.left) (fun present =>
      ⟨inv.owner (user present), (user present).taken, (user present).plain⟩) apart
  refine ⟨next, memory, ret, ran, later, kept, ?_, ?_⟩
  · intro g held
    by_cases here : Present pte ∧ g = pte2page pte
    · obtain ⟨present, rfl⟩ := here
      rcases (own' present).2 with same | pool
      · exact .inl (same ▸ held)
      · cases pool.symm.trans held
    · rcases others g fun present same => here ⟨present, same⟩ with same | ⟨_, table⟩
      · exact .inl (same ▸ held)
      · rw [held] at table
        exact table.elim
  · intro g held
    by_cases here : Present pte ∧ g = pte2page pte
    · obtain ⟨present, rfl⟩ := here
      exact (own' present).1
    · rcases others g fun present same => here ⟨present, same⟩ with same | ⟨pool, _⟩
      · exact (kept.accounts.caller (same.trans held)).2.1
      · cases held.symm.trans pool

theorem shmemCreate_inv {memory : Memory} (len : Nat) (inv : Inv own s) (new : s.shmems o = none)
    (accounts : Accounts s.maps own memory) :
    Inv own (s.setShmem o (some (shmemCreate len)) memory) := by
  have empty : ∀ slot, slotEntry (shmemCreate len) slot = 0 := by
    intro slot
    refine if_neg ?_
    rintro ⟨shmn, member, _⟩
    cases member
  have maps : (s.setShmem o (some (shmemCreate len)) memory).maps = s.maps := by
    funext place
    cases place with
    | page => rfl
    | slot p =>
      simp only [State.maps, State.entry, State.setShmem]
      by_cases here : p = o
      · rw [here, update_self, Option.map_some, empty, new]
        rfl
      · rw [update_of_ne here]
  refine ⟨maps ▸ accounts, inv.nested, inv.dirTable, ?_, ?_⟩
  · intro p object is
    obtain rfl | here := eq_or_ne p o
    · rw [shmems_setShmem_same] at is
      cases is
      refine ⟨⟨.nil, ?_, ?_⟩, ?_, fun slot => .inl (empty slot)⟩
      · rintro shmn ⟨⟩
      all_goals rintro shmn ⟨⟩
    · rw [shmems_setShmem_other here] at is
      exact inv.shmem p object is
  · intro f p start owned
    obtain ⟨object, is, found⟩ := inv.shmn f p start owned
    have other : p ≠ o := by
      rintro rfl
      cases new.symm.trans is
    exact ⟨object, (shmems_setShmem_other other ..).trans is, found⟩

theorem step_ends {op : Op} (inv : Inv own s) (allowed : Allowed s op) (elsewhere : Elsewhere s op) :
    Ends Starved (step s op) fun result => Kept own s result.1 := by
  cases op with
  | allocPage => exact allocPage_kept inv
  | pgdirAllocPage d la perm =>
    obtain ⟨next, memory, given, later, ran, kept, grows⟩ := pgdirAllocPage_inv (inv.atDir d) (vpn la) perm
    exact .bind_ok ran (.of_grows kept grows)
  | pageInsert d f la perm =>
    obtain ⟨next, memory, ret, ran, kept⟩ := pageInsert_kept inv allowed (vpn la) perm
    exact .bind_ok ran kept
  | pageRemove d la =>
    obtain ⟨next, memory, ran, kept⟩ := clearEntry_inv (inv.atDir d) (vpn la)
    exact .bind_ok ((pageRemove_eq ..).trans ran) (.of_grows kept (.refl own))
  | unmapRange d =>
    obtain ⟨next, memory, ran, kept⟩ := unmapRange_inv (inv.atDir d) allowed.1 allowed.2
    exact .bind_ok ran (.of_grows kept (.refl own))
  | copyRange d source start stop share =>
    obtain ⟨different, aligned, access⟩ := allowed
    refine (copyRange_inv (inv.atDir d) different.symm aligned access share).bind ?_
    rintro ⟨next, memory, ret⟩ ⟨later, kept, grows⟩
    exact .of_grows kept grows
  | shmemCreate o len =>
    have paid : Accounts s.maps own { s.memory with kmallocs := s.memory.kmallocs.tail } :=
      inv.accounts.congr rfl rfl rfl rfl
    simp only [step, Memory.kmalloc]
    cases s.memory.kmallocs.headD false with
    | false => exact .of_callers (inv.reown (fun _ => .inl rfl) paid (fun _ => rfl) (fun _ => rfl) rfl) fun _ => Iff.rfl
    | true => exact .of_callers (shmemCreate_inv len inv allowed paid) fun _ => Iff.rfl
  | shmemGetEntry o addr create =>
    obtain ⟨shmem, is, inside⟩ := allowed
    obtain ⟨next, memory, given, later, ran, _, filled⟩ := shmemGetEntry_inv (inv.atShmem is) inside create
    simp only [step, State.onShmem, is]
    rw [ran]
    exact .of_grows filled.inv filled.grows
  | shmemInsertEntry =>
    obtain ⟨⟨shmem, is, inside⟩, entry⟩ := allowed
    obtain ⟨next, memory, ret, ran, kept⟩ := shmemInsertEntry_kept inv is inside entry elsewhere
    simp only [step, State.onShmem, is]
    rwa [ran]
  | shmemRemoveEntry =>
    obtain ⟨shmem, is, inside⟩ := allowed
    obtain ⟨next, memory, ret, ran, kept⟩ := shmemInsertEntry_kept inv is inside (.inl rfl)
      fun present _ => absurd present not_present_zero
    simp only [step, State.onShmem, is]
    rwa [shmemRemoveEntry, ran]
  | shmemDestroy =>
    obtain ⟨shmem, is⟩ := Option.ne_none_iff_exists'.mp allowed
    obtain ⟨final, memory, later, ran, kept, callers⟩ := shmemDestroy_inv (inv.atShmem is)
    simp only [step, is]
    exact .bind_ok ran (.of_callers kept callers)

theorem inv_start (begins : Start s) : Inv (fun f => if s.memory.free f then .pool else .caller) s := by
  have nothing : s.maps = fun _ => none := by
    funext place
    refine frameOf_absent ?_
    cases place with
    | page d =>
      rw [State.entry, PageDir.entry, if_neg fun tabled => not_present_zero ((begins.dirs d _).1 ▸ tabled.1)]
      exact not_present_zero
    | slot =>
      rw [State.entry, begins.shmems]
      exact not_present_zero
  have empty : ∀ f, places s.maps f = ∅ := by
    intro f
    rw [nothing]
    simp [places]
  have zero : ∀ f, tally s.maps f = 0 := fun f => by rw [tally, empty, Set.ncard_empty]
  refine ⟨⟨fun f => by rw [empty]; exact Set.finite_empty, ?_, begins.swap⟩, ?_, ?_, ?_, ?_⟩
  · intro f
    rw [begins.ref, zero]
    cases free : s.memory.free f with
    | true =>
      refine ⟨rfl, by simp, ?_⟩
      cases io : s.memory.io f with
      | false => rfl
      | true =>
        rw [begins.io f io] at free
        cases free
    | false => exact ⟨rfl, rfl, rfl⟩
  · intro d i present
    rw [(begins.dirs d i).2] at present
    exact absurd present not_present_zero
  · intro f
    refine iff_of_false (by split <;> simp) ?_
    rintro ⟨d, ⟨i, present, _⟩ | ⟨i, present, _⟩⟩
    · rw [(begins.dirs d i).1] at present
      exact not_present_zero present
    · rw [(begins.dirs d i).2] at present
      exact not_present_zero present
  · intro o shmem is
    rw [begins.shmems] at is
    cases is
  · intro f o start owned
    split at owned <;> cases owned

/-- In a kernel without swap space the counts are right in every state and frames are freed
with their last mapping, as long as `shmem_insert_entry` does not replace a frame by itself.
A run can only stop in `copy_range`, when there is no memory for a copy. -/
theorem frames_counted_when_elsewhere (s : (machine.restrict Elsewhere).Reached) : Counted s ∧ ∀ op,
    (machine.restrict Elsewhere).allowed s op → Ends Starved (machine.step s op) fun result =>
      Counted result.1 ∧ FreedLast s result.1 := by
  suffices conforms : (machine.restrict Elsewhere).ConformsExcept Starved Counted fun s _ result =>
    FreedLast s result.1 from
    conforms s s.2
  refine Machine.conformsExcept_of_invariant (show ∀ s, _ → ∃ own, Inv own s from ?_) ?_ ?_
  · intro s begins
    exact ⟨_, inv_start begins⟩
  · rintro s op ⟨own, inv⟩ ⟨allowed, elsewhere⟩
    refine (step_ends inv allowed elsewhere).mono ?_
    rintro result ⟨later, kept, handed⟩
    exact ⟨⟨later, kept⟩, inv.freedLast kept handed⟩
  · rintro s ⟨own, inv⟩
    exact inv.counted

def fresh : State where
  memory := ⟨fun _ => 0, fun _ => true, fun _ => false, fun _ _ => 0,
    ⟨false, 0, fun _ => 0, [], fun _ => 0, fun _ => false, fun _ _ => 0⟩,
    [some 1, some 2], [true, true], []⟩
  dirs := fun _ => ⟨fun _ => 0, fun _ => 0, fun _ => 0⟩
  shmems := fun _ => none

/-- Inserting the only entry of a frame into its own slot frees the frame and maps it. -/
theorem entry_inserted_over_itself : ∃ s op after place f, machine.Reachable s ∧
    machine.allowed s op ∧ machine.step s op = .ok (after, ()) ∧
    after.maps place = some f ∧ after.memory.free f = true := by
  have begins : machine.start fresh :=
    ⟨fun _ _ => ⟨rfl, rfl⟩, fun _ => rfl, fun _ => rfl, fun _ never => (by cases never), rfl, rfl⟩
  have first := (Machine.Run.start begins).next (.shmemCreate 0 0x1000) rfl rfl
  have second := first.next (.shmemGetEntry 0 0 true) ⟨_, rfl, by decide⟩ rfl
  refine ⟨_, .shmemInsertEntry 0 0 (ptepMap (page2pa 2)), _, .slot 0 0, 2, ⟨_, second⟩,
    ⟨⟨_, rfl, by decide⟩, .inr ⟨by decide, ?_⟩⟩, rfl, ?_, ?_⟩
  · refine ⟨by decide, rfl, ?_, ?_⟩
    · rintro ⟨d, ⟨i, present, _⟩ | ⟨i, present, _⟩⟩
      all_goals exact not_present_zero present
    rintro ⟨o, shmem, is, shmn, member, page⟩
    obtain rfl | here := eq_or_ne o 0
    · cases is
      cases List.mem_singleton.mp member
      exact absurd page (by decide)
    · exact absurd ((shmems_setShmem_other here ..).symm.trans
        ((shmems_setShmem_other here ..).symm.trans is)) (by simp [fresh])
  all_goals decide

/-- `unmap_range` only fails where removing a page fails. -/
theorem unmap_range_removes_pages (s : PageDir × Memory) {start stop : Nat}
    (first : start % pgSize = 0) (last : stop % pgSize = 0)
    (access : UserAccess start stop) :
      Pmm.unmapRange s start stop = (granules pgSize start stop).foldlM
      (fun s page => pageRemove s.1 s.2 page) s ∧
      Ends (fun fault => ∃ m pte, pageRemovePte m pte = .error fault) (Pmm.unmapRange s start stop) fun after =>
        ∀ page, ¬ (start ≤ page * pgSize ∧ page * pgSize < stop) → after.1.entry page = s.1.entry page := by
  simp only [pageRemove_eq, ← mem_granules (show 0 < pgSize by decide)
    (Nat.dvd_of_mod_eq_zero first) (Nat.dvd_of_mod_eq_zero last), unmapRange_eq s first last access]
  refine ⟨trivial, ?_⟩
  generalize granules pgSize start stop = pages
  induction pages generalizing s with
  | nil => exact fun _ _ => rfl
  | cons page rest ih =>
    rw [List.foldlM_cons]
    refine (clearEntry_others s page).bind fun after others => (ih after).mono fun final kept other outside => ?_
    rw [kept other fun later => outside (List.mem_cons_of_mem page later), others other fun same =>
      outside (same ▸ List.mem_cons_self)]

/-- The last page of one table and the first page of the next are mapped to the frames 8 and 9,
and the page after them to frame 10. -/
def mappedPages : PageDir × Memory :=
  (⟨fun _ => ptepMap (page2pa 4), fun _ => ptepMap (page2pa 5), fun page =>
      if 0x3ff ≤ page ∧ page ≤ 0x401 then ptepMap (page2pa (BitVec.ofNat 52 (page - 0x3ff + 8)))
      else 0⟩,
    { fresh.memory with ref := fun _ => 1, free := fun _ => false })

/-- Both pages go, across the tables, and the third stays. -/
theorem unmap_across_tables :
    Pmm.unmapRange mappedPages 0x3ff000 0x401000 =
        [0x3ff, 0x400].foldlM (fun s page => pageRemove s.1 s.2 page) mappedPages ∧
      (Pmm.unmapRange mappedPages 0x3ff000 0x401000).toOption.any (fun after =>
        after.1.entry 0x3ff = 0 ∧ after.1.entry 0x400 = 0 ∧ after.2.ref 8 = 0 ∧ after.2.ref 9 = 0 ∧
          after.1.entry 0x401 = ptepMap (page2pa 10) ∧ after.2.ref 10 = 1) = true := by
  have removes := (unmap_range_removes_pages mappedPages (show 0x3ff000 % pgSize = 0 by decide)
    (show 0x401000 % pgSize = 0 by decide) (by decide)).1
  rw [show granules pgSize 0x3ff000 0x401000 = [0x3ff, 0x400] from rfl] at removes
  refine ⟨removes, ?_⟩
  rw [removes]
  decide

end Ucore.Frames
