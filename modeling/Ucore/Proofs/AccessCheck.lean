import Ucore.Proofs.FaultContract

/-! The accesses that `user_mem_check` lets through, and what becomes of them in the
page fault handler. -/

namespace Ucore.Pmm
open Lib Vmm RbTree List

variable {rest : Rest} {mm : MmStruct} {w after : World} {write : Bool} {start stop addr len : Nat} {tf : Trapframe}
  {p : Ptr}

def areasAbove (mm : MmStruct) (start : Nat) : List Ptr := mm.mmapList.filter fun p => decide (start < (mm.span p).stop)

theorem areasAbove_less (member : p ∈ mm.mmapList) (covers : (mm.span p).Covers start) :
    (areasAbove mm (mm.span p).stop).length < (areasAbove mm start).length := by
  have part : areasAbove mm (mm.span p).stop = (areasAbove mm start).filter fun q =>
    decide ((mm.span p).stop < (mm.span q).stop) := by
    rw [areasAbove, areasAbove, filter_filter]
    refine filter_congr fun q _ => ?_
    have above := covers.2
    rw [← Bool.decide_and, decide_eq_decide]
    omega
  rw [part, length_filter_lt_length_iff_exists]
  exact ⟨p, mem_filter.mpr ⟨member, by simpa using covers.2⟩, by simp⟩

/-- What the check establishes for an address. -/
structure Checked (mm : MmStruct) (write : Bool) (addr : Nat) (p : Ptr) : Prop where
  member : p ∈ mm.mmapList
  covers : (mm.span p).Covers addr
  flag : (mm.vmas p).vmFlags &&& (if write then vmWrite else vmRead) ≠ 0
  above : write = true → (mm.vmas p).vmFlags &&& vmStack ≠ 0 → (mm.vmas p).vmStart + pgSize ≤ addr

/-- The loop ends, and succeeds if it can see an area for every address of the range. -/
theorem checkAreas_spec {fuel : Nat} (valid : Valid mm) (enough : (areasAbove mm start).length < fuel) :
    ∃ cache ok, checkAreas write stop fuel mm start = .ok ({ mm with mmapCache := cache }, ok) ∧
      Valid { mm with mmapCache := cache } ∧ (ok = true ↔ ∀ addr, start ≤ addr → addr < stop → ∃ p,
      Checked mm write addr p) := by
  induction fuel generalizing mm start with
  | zero => cases enough
  | succ fuel ih =>
    unfold checkAreas
    split
    · next more =>
      obtain ⟨cache, found, ran, kept, answers⟩ := findVma_spec valid start
      have refused (none : ∀ p, ¬ Checked mm write start p) : false = true ↔ ∀ addr, start ≤ addr →
        addr < stop → ∃ p, Checked mm write addr p := iff_of_false Bool.false_ne_true fun all =>
          not_exists.mpr none (all start le_rfl more)
      rw [ran]
      cases found with
      | none => exact ⟨cache, false, rfl, kept, refused fun p checked => answers p checked.member checked.covers⟩
      | some p =>
        obtain ⟨member, covers⟩ := answers
        have only (q : Ptr) (checked : Checked mm write start q) : q = p :=
          valid.ordered.unique checked.member member checked.covers covers
        have inside : ¬ start < (mm.vmas p).vmStart := not_lt.mpr covers.1
        simp only [bind, Except.bind]
        rw [if_neg inside]
        by_cases flag : (mm.vmas p).vmFlags &&& (if write then vmWrite else vmRead) = 0
        · rw [if_pos flag]
          exact ⟨cache, false, rfl, kept, refused fun q checked => (only q checked ▸ checked.flag) flag⟩
        rw [if_neg flag]
        split
        · next guarded =>
          refine ⟨cache, false, rfl, kept, refused fun q checked => ?_⟩
          have above := checked.above guarded.1
          rw [only q checked] at above
          exact not_lt.mpr (above guarded.2.1) guarded.2.2
        · next guarded =>
          have fewer := areasAbove_less member covers
          obtain ⟨last, ok, ran, sound, seen⟩ := ih kept (fewer.trans_le (Nat.le_of_lt_succ enough))
          refine ⟨last, ok, ran, sound, ?_⟩
          rw [seen]
          constructor
          · intro rest addr low high
            by_cases here : addr < (mm.span p).stop
            · refine ⟨p, member, ⟨covers.1.trans low, here⟩, flag, ?_⟩
              intro writes stack
              by_contra below
              exact guarded ⟨writes, stack, by omega⟩
            · obtain ⟨q, checked⟩ := rest addr (not_lt.mp here) high
              exact ⟨q, checked.member, checked.covers, checked.flag, checked.above⟩
          · intro all addr low high
            obtain ⟨q, checked⟩ := all addr (covers.2.le.trans low) high
            exact ⟨q, checked.member, checked.covers, checked.flag, checked.above⟩
    · next more =>
        exact ⟨mm.mmapCache, true, rfl, valid, fun _ addr low high =>
          absurd (low.trans_lt high) more, fun _ => rfl⟩

theorem userMemCheck_spec (valid : Valid mm) (addr len : Nat) (write : Bool) : ∃ cache ok,
    userMemCheck mm addr len write = .ok ({ mm with mmapCache := cache }, ok) ∧
    Valid { mm with mmapCache := cache } ∧
      (ok = true ↔ UserAccess addr (wrap (addr + len)) ∧ ∀ a, addr ≤ a → a < wrap (addr + len) →
        ∃ p, Checked mm write a p) := by
  unfold userMemCheck
  by_cases access : UserAccess addr (wrap (addr + len))
  · rw [if_neg (not_not_intro access), and_iff_right access]
    refine checkAreas_spec valid ?_
    have few := length_filter_le (fun p => decide (addr < (mm.span p).stop)) mm.mmapList
    rw [areasAbove]
    omega
  · rw [if_pos access]
    exact ⟨mm.mmapCache, false, rfl, valid, iff_of_false Bool.false_ne_true fun both => access both.1⟩

/-- The check always returns, and succeeds if the range does not wrap, lies in the user range and
every byte of it is in an area that
allows the access. A write may not touch the lowest page of a stack. -/
theorem user_mem_check_exact (valid : Valid mm) (write : Bool) (start : addr < 2 ^ 64)
    (some : 0 < len) (short : len < 2 ^ 64) :
    ∃ after ok, userMemCheck mm addr len write = .ok (after, ok) ∧
      (ok = true ↔ addr + len < 2 ^ 64 ∧ userBase ≤ addr ∧ addr + len ≤ userTop ∧
        ∀ a, addr ≤ a → a < addr + len → ∃ p, Checked mm write a p) := by
  obtain ⟨cache, ok, ran, _, exact⟩ := userMemCheck_spec valid addr len write
  refine ⟨_, ok, ran, exact.trans ?_⟩
  by_cases wraps : addr + len < 2 ^ 64
  · rw [wrap, Nat.mod_eq_of_lt wraps]
    simp only [UserAccess, wraps, show addr < addr + len by omega, true_and, and_assoc]
  refine iff_of_false (fun both => ?_) fun all => wraps all.1
  have order := both.1.2.1
  rw [wrap] at order
  omega

/-- A writable area of one page, and right above it a stack of two pages. -/
def belowStack : MmStruct :=
  { onePage vmWrite with
    vmas := fun p => if p = 1 then ⟨0x400000, 0x401000, vmWrite, none, 0⟩ else ⟨0x401000, 0x403000,
      vmStack ||| vmWrite, none, 0⟩
    mmapList := [1, 2]
    mapCount := 2 }

private theorem belowStack_valid : Valid belowStack := by
  have area : ∀ p ∈ belowStack.mmapList, p = 1 ∨ p = 2 := fun p member => by
    simpa using (show p ∈ [1, 2] from member)
  refine ⟨fun p member => ?_, ⟨fun p member => ?_, ?_⟩, rfl, nofun, nofun, rfl⟩
  · obtain rfl | rfl := area p member
    · exact show Fine ⟨0x400000, 0x401000⟩ by decide
    · exact show Fine ⟨0x401000, 0x403000⟩ by decide
  · obtain rfl | rfl := area p member
    · exact show 0x400000 < 0x401000 by decide
    · exact show 0x401000 < 0x403000 by decide
  · exact List.pairwise_pair.mpr (show 0x401000 ≤ 0x401000 from Nat.le_refl _)

/-- A write that begins in the area and ends in the stack. -/
theorem user_mem_check_into_stack : ∃ after ok, userMemCheck belowStack 0x400800 0x2000 true = .ok (after, ok) ∧
    (ok = true ↔ 0x400800 + 0x2000 < 2 ^ 64 ∧ userBase ≤ 0x400800 ∧ 0x400800 + 0x2000 ≤ userTop ∧
      ∀ a, 0x400800 ≤ a → a < 0x400800 + 0x2000 → ∃ p, Checked belowStack true a p) :=
  user_mem_check_exact belowStack_valid true (by decide) (by decide) (by decide)

theorem trap_error (status : BitVec 64) : (status ||| 3) &&& 3 = 3 ∧ (status ||| 3) &&& 2 ≠ 0 := by
  have absorbed : ∀ mask : BitVec 64, mask &&& 3 = mask → (status ||| 3) &&& mask = mask := by
    intro mask inside
    apply BitVec.eq_of_getLsbD_eq
    intro i _
    have bit := congrArg (fun word => word.getLsbD i) inside
    simp only [BitVec.getLsbD_and] at bit
    rw [BitVec.getLsbD_and, BitVec.getLsbD_or]
    cases set : mask.getLsbD i with
    | false => exact Bool.and_false _
    | true =>
      rw [set, Bool.true_and] at bit
      rw [bit, Bool.or_true, Bool.and_true]
  exact ⟨absorbed 3 rfl, by rw [absorbed 2 rfl]; decide⟩

/-- What the handler asks of an area, whatever the access was. -/
structure Writable (vma : Vma) (addr : Nat) : Prop where
  device : vma.vmFlags &&& vmIO = 0
  flag : vma.vmFlags &&& vmWrite ≠ 0
  above : vma.vmFlags &&& vmStack ≠ 0 → vma.vmStart + pgSize ≤ addr

theorem Writable.accepted (writable : Writable (w.mm.vmas p) addr) (covering : Covering w addr p)
    (status : BitVec 64) : ¬ World.Rejects (w.mm.vmas p) (status ||| 3) addr := by
  rintro (low | ⟨stack, guarded⟩ | device | refused)
  · exact not_lt.mpr covering.covers.1 low
  · exact not_lt.mpr (writable.above stack) guarded
  · exact device writable.device
  · refine refused (.inr ⟨?_, ?_, writable.flag⟩)
    all_goals
      rw [(trap_error status).1]
      decide

/-- Pages have the permissions of their areas; only private pages may be left without the right to
write. -/
def Granted (w : World) : Prop := ∀ addr p, Covering w addr p → Present (w.dir.entry (vpn addr)) →
    URead (w.dir.entry (vpn addr)) ∧
  ((w.mm.vmas p).vmFlags &&& vmShare ≠ 0 → (w.mm.vmas p).vmFlags &&& vmWrite ≠ 0 → UWrite (w.dir.entry (vpn addr)))

structure SameAreas (w after : World) : Prop where
  vmas : after.mm.vmas = w.mm.vmas
  list : after.mm.mmapList = w.mm.mmapList

theorem SameAreas.covering (same : SameAreas w after) : Covering after addr p ↔ Covering w addr p := by
  constructor
  · rintro ⟨member, covers⟩
    exact ⟨same.list ▸ member, by rwa [MmStruct.span, same.vmas] at covers⟩
  · rintro ⟨member, covers⟩
    exact ⟨same.list ▸ member, by rwa [MmStruct.span, same.vmas]⟩

theorem SameAreas.of_cache {cache : Option Ptr} (same : after.mm = { w.mm with mmapCache := cache }) :
    SameAreas w after := ⟨by rw [same], by rw [same]⟩

/-- What is blocked although the area allows writes is not unexpected in the handler. -/
theorem Granted.expected {status : BitVec 64} (granted : Granted w) (covering : Covering w addr p)
    (flag : (w.mm.vmas p).vmFlags &&& vmWrite ≠ 0)
      (blocked : Blocked (w.dir.entry (vpn addr)) write) : Expected (w.mm.vmas p) (status ||| 3)
      (w.dir.entry (vpn addr)) := by
  by_cases present : Present (w.dir.entry (vpn addr))
  · obtain ⟨read, shared⟩ := granted addr p covering present
    have readOnly : ¬ UWrite (w.dir.entry (vpn addr)) := by
      intro writes
      cases write with
      | true => exact blocked ⟨present, writes⟩
      | false => exact blocked ⟨present, read⟩
    refine .inr ⟨(trap_error status).2, readOnly, (cow_iff _).mpr ⟨?_, flag⟩⟩
    by_contra share
    exact readOnly (shared share flag)
  · exact .inl present

theorem Granted.of_same (granted : Granted w) (same : SameAreas w after)
    (entry : after.dir.entry = w.dir.entry) : Granted after := by
  intro addr p covering
  rw [entry, same.vmas]
  exact granted addr p (same.covering.mp covering)

theorem Granted.of_grants {error : BitVec 64} (granted : Granted w) (same : SameAreas w after)
    (others : ∀ page, page ≠ vpn addr → after.dir.entry page = w.dir.entry page)
    (write : error &&& 2 ≠ 0) (grants : Grants error (after.dir.entry (vpn addr))) : Granted after := by
  intro other q around
  rw [same.covering] at around
  by_cases here : vpn other = vpn addr
  · rw [here]
    exact fun _ => ⟨grants.read, fun _ _ => grants.write write⟩
  · rw [others _ here, same.vmas]
    exact granted other q around

theorem userAccess_of_covering (consistent : Consistent rest w) (covering : Covering w addr p) :
    UserAccess addr (wrap (addr + 1)) := by
  obtain ⟨_, _, low, _, high⟩ := consistent.areas.fine p covering.member
  have inside := covering.covers
  simp only [MmStruct.span, Vma.span, Span.Covers, UserAccess, wrap, userTop] at *
  omega

theorem pgfaultHandler_covered {result : World × Int} (consistent : Consistent rest w)
    (covering : Covering w tf.badvaddr p) (ran : w.doPgfault (tf.status ||| 3) tf.badvaddr =
    .ok result) : pgfaultHandler w tf = .ok result := by
  rwa [pgfaultHandler, if_neg fun both => both.2 (userAccess_of_covering consistent covering)]

theorem exceptionHandler_maps (consistent : Consistent rest w) (covering : Covering w tf.badvaddr p)
    (writable : Writable (w.mm.vmas p) tf.badvaddr)
    (unmapped : ¬ Present (w.dir.entry (vpn tf.badvaddr)))
    (usable : w.dir.entry (vpn tf.badvaddr) = 0 → (w.mm.vmas p).vmFlags &&& vmShare ≠ 0 →
      w.slot (w.mm.vmas p) (roundDown tf.badvaddr) = 0 ∨
      Present (w.slot (w.mm.vmas p) (roundDown tf.badvaddr))) (ample : Ample 4 w.memory) :
    ∃ after, exceptionHandler w tf = .ok (after, false) ∧ Grants (tf.status ||| 3) (after.dir.entry (vpn tf.badvaddr)) := by
  have accepted := writable.accepted covering tf.status
  obtain ⟨after, ret, ran, kept, cache, outcome⟩ :=
    doPgfault_serves consistent covering accepted (.inl unmapped)
    ⟨vpn_roundDown tf.badvaddr ▸ usable, fun lost => ample.frames.1 lost.missing⟩
  have handled := pgfaultHandler_covered consistent covering ran
  rcases outcome with failed | ⟨rfl, f, perm, served⟩
  · exact absurd ample failed.short
  · refine ⟨after, ?_, vpn_roundDown tf.badvaddr ▸ served.grants (permitted_of_accepted accepted)⟩
    rw [exceptionHandler, handled]
    rfl

/-- A slot of a shared object that is in the swap space. -/
def World.SlotSwapped (w : World) (vma : Vma) (addr : Nat) : Prop :=
  w.dir.entry (vpn addr) = 0 ∧ vma.vmFlags &&& vmShare ≠ 0 ∧ w.slot vma addr ≠ 0 ∧ ¬ Present (w.slot vma addr)

/-- The empty entry of the page is duplicated in place of the one in the slot. -/
theorem mapSlot_absent {page : Nat} {perm : Perm} {pte : Pte} {result : World × Int}
    (empty : w.dir.pte page = 0) (absent : ¬ Present pte) : w.mapSlot page perm pte ≠ .ok result := by
  rw [World.mapSlot, if_neg absent, empty]
  split
  · intro ran
    obtain ⟨_, duplicated, _⟩ := exists_of_bind ran
    cases duplicated
  · exact nofun

private theorem touchShared_swapped {vma : Vma} {object : Ptr} {perm : Perm} {result : World × Int}
    (tabled : w.dir.Tabled (vpn addr)) (shaped : ∀ object, Shaped (w.shmems object))
    (empty : w.dir.entry (vpn addr) = 0) (behind : Behind w vma addr object)
    (full : w.slot vma addr ≠ 0) (absent : ¬ Present (w.slot vma addr))
    (ran : w.touchShared vma addr perm = .ok result) : result.2 ≠ 0 := by
  obtain ⟨next, m, given, found, _, _, got⟩ := shmemGetEntry_spec (shaped object) behind.inside w.memory
  rw [behind.slot] at full absent
  rw [World.touchShared, behind.points] at ran
  dsimp only at ran
  rw [found] at ran
  dsimp only [bind, Except.bind] at ran
  cases got with
  | missed same reserved nothing short =>
    cases given with
    | none =>
      cases ran
      exact show -eNoMem ≠ 0 by decide
    | some slot =>
      replace ran : (if next.entry slot = 0 then _ else _) = _ := ran
      rw [if_pos (nothing slot rfl)] at ran
      cases ran
      exact show -eNoMem ≠ 0 by decide
  | found same reserved holds full =>
    replace ran : (if next.entry _ = 0 then _ else _) = _ := ran
    rw [holds, if_neg full] at ran
    refine absurd ran (mapSlot_absent ?_ absent)
    rwa [← entry_of_tabled tabled]
  | made vacant => exact absurd vacant full

private theorem faultPage_swapped {vma : Vma} {object : Ptr} {error : BitVec 64} {result : World × Int}
    (consistent : Consistent rest w) (behind : Behind w vma addr object) (swapped : w.SlotSwapped vma addr)
    (ran : w.faultPage vma error addr = .ok result) : result.2 ≠ 0 := by
  obtain ⟨empty, shared, full, absent⟩ := swapped
  rw [World.faultPage] at ran
  by_cases tabled : w.dir.Tabled (vpn addr)
  · rw [getPte_tabled tabled] at ran
    dsimp only at ran
    rw [if_pos ((entry_of_tabled tabled).symm.trans empty), if_neg shared] at ran
    exact touchShared_swapped tabled consistent.shaped empty behind full absent ran
  obtain ⟨next, m, ok, walked, walk⟩ := getPte_walk w.dir w.memory (vpn addr)
  rw [walked] at ran
  cases ok with
  | false =>
    cases ran
    exact show -eNoMem ≠ 0 by decide
  | true =>
    have made := walk.tabled rfl
    have entry : next.entry (vpn addr) = 0 := by rw [walk.entries, empty]
    dsimp only at ran
    rw [if_pos ((entry_of_tabled made).symm.trans entry), if_neg shared] at ran
    exact touchShared_swapped (w := { w with dir := next, memory := m }) made consistent.shaped
      entry ⟨behind.points, behind.inside⟩ full absent ran

/-- The handler lets a fault through only where it may. -/
private theorem writable_of_served {after : World} (consistent : Consistent rest w)
    (covering : Covering w tf.badvaddr p) (served : exceptionHandler w tf = .ok (after, false)) :
    Writable (w.mm.vmas p) tf.badvaddr ∧ ¬ w.SlotSwapped (w.mm.vmas p) (roundDown tf.badvaddr) := by
  obtain ⟨⟨between, ret⟩, handled, served⟩ := exists_of_bind served
  have zero : ret = 0 := by
    by_contra failed
    replace served : (if ret ≠ 0 then _ else _) = _ := served
    rw [if_pos failed] at served
    split at served <;> cases served
  subst zero
  obtain ⟨cache, found, searched, valid, answers⟩ := findVma_spec consistent.areas tf.badvaddr
  have access : UserAccess tf.badvaddr (wrap (tf.badvaddr + 1)) := userAccess_of_covering consistent covering
  rw [pgfaultHandler, if_neg fun both => both.2 access, World.doPgfault, searched] at handled
  obtain rfl : found = some p := by
    cases found with
    | none => exact absurd covering.covers (answers p covering.member)
    | some q => rw [consistent.areas.ordered.unique answers.1 covering.member answers.2 covering.covers]
  replace handled : (if World.Rejects (w.mm.vmas p) (tf.status ||| 3) tf.badvaddr then _ else _) = _ := handled
  split at handled
  · cases handled
  · next accepted =>
    have kept : Consistent rest { w with mm := { w.mm with mmapCache := cache } } := { consistent with areas := valid }
    refine ⟨⟨?_, write_of_permitted (permitted_of_accepted accepted) (trap_error tf.status).2, ?_⟩, ?_⟩
    · by_contra device
      exact accepted (.inr (.inr (.inl device)))
    · intro stack
      by_contra low
      exact accepted (.inr (.inl ⟨stack, Nat.lt_of_not_le low⟩))
    · intro swapped
      obtain ⟨object, behind⟩ := kept.behind ⟨covering.member, covering.covers⟩ swapped.2.1
      exact faultPage_swapped kept behind swapped handled rfl

/-- What `user_mem_check` has let through is mapped by the fault handler exactly if the area is no
device
area and loads are made where stores are allowed, too. -/
theorem check_agrees_when_writable (consistent : Consistent rest w)
    (checked : userMemCheck w.mm addr len write = .ok (mm, true))
    (first : addr ≤ tf.badvaddr) (last : tf.badvaddr < wrap (addr + len))
      (unmapped : ¬ Present (w.dir.entry (vpn tf.badvaddr)))
    (ample : Ample 4 w.memory) :
    (∃ after, exceptionHandler { w with mm } tf = .ok (after, false) ∧
      Grants (tf.status ||| 3) (after.dir.entry (vpn tf.badvaddr))) ↔
      ∀ p, Covering w tf.badvaddr p → (w.mm.vmas p).vmFlags &&& vmIO = 0 ∧
        ¬ w.SlotSwapped (w.mm.vmas p) (roundDown tf.badvaddr) ∧ (write = false → Writable (w.mm.vmas p) tf.badvaddr) := by
  obtain ⟨cache, ok, executed, valid, seen⟩ := userMemCheck_spec consistent.areas addr len write
  cases executed.symm.trans checked
  have kept : Consistent rest { w with mm := { w.mm with mmapCache := cache } } := { consistent with areas := valid }
  constructor
  · rintro ⟨after, served, _⟩ p covering
    obtain ⟨writable, slot⟩ := writable_of_served kept ⟨covering.member, covering.covers⟩ served
    exact ⟨writable.device, slot, fun _ => writable⟩
  intro plain
  obtain ⟨p, found⟩ := (seen.mp rfl).2 tf.badvaddr first last
  have covering : Covering w tf.badvaddr p := ⟨found.member, found.covers⟩
  obtain ⟨device, slot, loads⟩ := plain p covering
  have writable : Writable (w.mm.vmas p) tf.badvaddr := by
    cases write with
    | false => exact loads rfl
    | true => exact ⟨device, found.flag, found.above rfl⟩
  refine exceptionHandler_maps (p := p) kept ⟨found.member, found.covers⟩ writable unmapped ?_ ample
  intro empty shared
  by_contra neither
  exact slot ⟨vpn_roundDown tf.badvaddr ▸ empty, shared, fun zero => neither (.inl zero),
    fun present => neither (.inr present)⟩

theorem untouched_ample (flags : BitVec 32) : Ample 4 (untouched flags).memory := by
  refine ⟨⟨?_, ?_, ?_, ?_, trivial⟩, rfl, rfl⟩
  · exact Option.some_ne_none 1
  · exact Option.some_ne_none 2
  · exact Option.some_ne_none 3
  · exact Option.some_ne_none 4

theorem check_agrees_untouched : ∃ mm after, userMemCheck (untouched (vmRead ||| vmWrite)).mm
    0x400000 1 false = .ok (mm, true) ∧
    exceptionHandler { untouched (vmRead ||| vmWrite) with mm } ⟨0x100, 0x400000⟩ = .ok
      (after, false) ∧ Grants (0x100 ||| 3) (after.dir.entry (vpn 0x400000)) := by
  have checked : ∃ mm, userMemCheck (untouched (vmRead ||| vmWrite)).mm 0x400000 1 false = .ok (mm, true) := ⟨_, rfl⟩
  obtain ⟨mm, checked⟩ := checked
  obtain ⟨after, executed, grants⟩ := (check_agrees_when_writable (untouched_consistent _) checked
    (show 0x400000 ≤ (⟨0x100, 0x400000⟩ : Trapframe).badvaddr by decide) (by decide)
    (by rw [untouched_entry]; decide) (untouched_ample _)).mpr fun p _ => ⟨show (vmRead ||| vmWrite) &&& vmIO = 0 by decide,
      fun swapped => swapped.2.1 (show (vmRead ||| vmWrite) &&& vmShare = 0 by decide),
      fun _ => ⟨show (vmRead ||| vmWrite) &&& vmIO = 0 by decide, show (vmRead ||| vmWrite) &&& vmWrite ≠ 0 by decide,
        fun stack => absurd (show (vmRead ||| vmWrite) &&& vmStack = 0 by decide) stack⟩⟩
  exact ⟨mm, after, checked, executed, grants⟩

/-- Loads that `user_mem_check` lets through and that end in the panic of the trap code: from a page
that
can only be read, from the lowest page of a stack, and from a device. -/
theorem checked_load_panics : [vmRead, vmRead ||| vmWrite ||| vmStack, vmRead ||| vmWrite ||| vmIO].Forall fun flags =>
    Consistent .none (untouched flags) ∧ Ample 4 (untouched flags).memory ∧
    ∃ mm, userMemCheck (untouched flags).mm 0x400000 1 false = .ok (mm, true) ∧
      exceptionHandler { untouched flags with mm } ⟨0x100, 0x400000⟩ =
        .error (.panic "handle pgfault failed in kernel mode. ret=%d\n") := by
  rw [forall_iff_forall_mem]
  intro flags listed
  refine ⟨untouched_consistent flags, untouched_ample flags, ?_⟩
  simp only [mem_cons, not_mem_nil, or_false] at listed
  rcases listed with rfl | rfl | rfl
  · exact ⟨_, rfl, rfl⟩
  all_goals exact ⟨_, rfl, rfl⟩

end Ucore.Pmm
