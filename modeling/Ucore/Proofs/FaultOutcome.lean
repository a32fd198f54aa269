import Ucore.Proofs.FaultBooks
import Ucore.Proofs.SharedAreas

/-! What `do_pgfault` can do. Either it fails and leaves the page table as it is, or the
page gets one entry for a frame with the contents that the page had. -/

namespace Ucore.Pmm
open Lib Vmm RbTree Function Option

variable {rest : Rest} {entries : Nat → Pte} {w after : World} {m between : Memory} {f : Frame}
    {newpage : Option Frame} {vma : Vma} {error : BitVec 64}
  {c : Frame} {next : PageDir} {result : World × Int}
  {count : Nat} {object : Ptr}
  {addr page : Nat} {perm : Perm} {pte : Pte}

/-- Nothing is freed, and frames in use keep their contents. -/
structure Later (m after : Memory) : Prop where
  free : ∀ g, after.free g = true → m.free g = true
  data : ∀ g, m.free g = false → after.data g = m.data g

theorem Later.refl (m : Memory) : Later m m := ⟨fun _ => id, fun _ _ => rfl⟩

theorem Later.used (later : Later m between) (used : m.free f = false) : between.free f = false := by
  cases free : between.free f with
  | false => rfl
  | true => cases used.symm.trans (later.free f free)

theorem Later.trans {after : Memory} (first : Later m between) (second : Later between after) : Later m after := by
  refine ⟨fun g free => first.free g (second.free g free), ?_⟩
  intro g used
  rw [second.data g (first.used used), first.data g used]

theorem Took.later (took : Took m between) : Later m between := ⟨fun _ free => (took.unused free).1, took.data⟩

theorem SwappedIn.later (swapped : SwappedIn rest entries m pte f between) : Later m between := ⟨swapped.free, swapped.data⟩

theorem Displaced.later (displaced : Displaced m f pte between) : Later m between :=
  ⟨fun _ free => by rwa [← displaced.free], fun _ _ => by rw [displaced.data]⟩

theorem later_setData (free : m.free f = true) (later : Later m between) (contents : Contents) :
    Later m (between.setData f contents) := by
  refine ⟨later.free, ?_⟩
  intro g used
  have other : g ≠ f := by
    rintro rfl
    cases used.symm.trans free
  exact (update_of_ne other ..).trans (later.data g used)

structure Put (rest : Rest) (w : World) (page : Nat) (f : Frame) (perm : Perm) (contents : Contents)
    (after : World) : Prop where
  mm : after.mm = w.mm
  shmems : after.shmems = w.shmems
  entry : after.dir.entry = Function.update w.dir.entry page (mapping f perm)
  books : Books rest after.dir.entry after.memory
  later : Later w.memory after.memory
  contents : after.memory.data f = contents

theorem pageInsert_books {dir : PageDir} (tabled : dir.Tabled page) (books : Books rest dir.entry m)
    (used : m.free f = false) (stays : Stays m f (dir.entry page)) (perm : Perm) :
    ∃ after, pageInsert dir m f page perm = .ok (dir.setPte page (mapping f perm), after, 0) ∧
      Displaced m f (dir.entry page) after ∧ Books rest (dir.setPte page (mapping f perm)).entry
      after := by
  obtain ⟨after, ran, displaced⟩ := displace_books books stays
  refine ⟨after, ?_, displaced, ?_⟩
  · rw [entry_of_tabled tabled] at ran
    rw [pageInsert, getPte_tabled tabled]
    dsimp only
    rw [ran]
    rfl
  · rw [entry_setPte tabled]
    exact displaced.books books used perm

theorem Spare.displaced (spare : Spare entries m c) (displaced : Displaced m f (entries page) between)
    (other : c ≠ f) (perm : Perm) : Spare (update entries page (mapping f perm)) between c := by
  refine ⟨by rw [displaced.free, spare.taken], ?_, ?_, ?_⟩
  · rw [displaced.refs, if_neg other, if_neg (spare.unmapped page), spare.count]
    rfl
  · rw [Memory.PageSwap, displaced.pages]
    exact spare.plain
  · intro here
    rw [update_apply]
    split
    · rw [frameOf_mapping]
      exact fun same => other (some_inj.mp same).symm
    · exact spare.unmapped here

theorem freeUnused_spare (newpage : Option Frame) (books : Books rest entries m)
    (spare : ∀ c, newpage = some c → Spare entries m c) :
    ∃ after, freeUnused m newpage = .ok after ∧ Books rest entries after ∧ after.swap = m.swap ∧
      after.data = m.data ∧ after.ref = m.ref ∧ ∀ g, after.free g = m.free g ∨ newpage = some g ∧
      after.free g = true := by
  cases newpage with
  | none => exact ⟨m, rfl, books, rfl, rfl, rfl, fun _ => .inl rfl⟩
  | some c =>
    have spare := spare c rfl
    obtain ⟨after, freed, swap, data, ref, free⟩ := freePage_spare spare
    refine ⟨after, freed, books.of_freed ⟨spare.count, spare.plain⟩ swap ref free, swap, data, ref, ?_⟩
    intro g
    rw [free, update_apply]
    split
    · next here => exact .inr ⟨by rw [here], rfl⟩
    · exact .inl rfl

section
variable (tabled : w.dir.Tabled page) (later : Later w.memory m) (books : Books rest w.dir.entry m)
include tabled later books

theorem pageInsert_put (used : m.free f = false) (stays : Stays m f (w.dir.entry page)) (perm : Perm) :
    ∃ dir memory, pageInsert w.dir m f page perm = .ok (dir, memory, 0) ∧ Put rest w page f perm
      (m.data f) { w with dir, memory } ∧ Displaced m f (w.dir.entry page) memory := by
  obtain ⟨after, ran, displaced, kept⟩ := pageInsert_books tabled books used stays perm
  refine ⟨_, after, ran, ⟨rfl, rfl, entry_setPte tabled (mapping f perm), kept, later.trans displaced.later, ?_⟩, displaced⟩
  rw [displaced.data]

theorem insertFrame_put (used : m.free f = false) (stays : Stays m f (w.dir.entry page))
    (newpage : Option Frame) (spare : ∀ c, newpage = some c → w.memory.free c = true ∧
    Spare w.dir.entry m c ∧ c ≠ f) (perm : Perm) :
    ∃ after between, w.insertFrame m f newpage page perm = .ok (after, 0) ∧ Put rest w page f perm
      (m.data f) after ∧ Displaced m f (w.dir.entry page) between ∧ after.memory.references f =
      between.references f := by
  obtain ⟨dir, between, ran, put, displaced⟩ := pageInsert_put tabled later books used stays perm
  obtain ⟨memory, freed, kept, swap, data, ref, free⟩ :=
    freeUnused_spare newpage put.books fun c given => put.entry ▸ (spare c given).2.1.displaced
    displaced (spare c given).2.2 perm
  refine ⟨{ w with dir, memory }, between, ?_, ⟨rfl, rfl, put.entry, kept, ⟨?_, ?_⟩, ?_⟩, displaced,
    references_congr swap (congrFun ref f)⟩
  · rw [World.insertFrame, ran]
    show (freeUnused between newpage >>= _) = _
    rw [freed]
    rfl
  · intro g freeNow
    rcases free g with same | ⟨given, _⟩
    · exact put.later.free g (same.symm.trans freeNow)
    · exact (spare g given).1
  · intro g usedBefore
    rw [data]
    exact put.later.data g usedBefore
  · rw [data]
    exact put.contents

end

/-- The entry stands for the frame, directly or through the swap space. -/
def Names (m : Memory) (pte : Pte) (f : Frame) : Prop :=
  frameOf pte = some f ∨ (pte ≠ 0 ∧ ¬ Present pte) ∧ swapHashFind m pte = some f

/-- A frame may take the place of another one that is the same or that others refer to as well. -/
theorem Names.stays (names : Names m pte f) (kept : c = f ∨ 1 < m.references f) : Stays m c pte := by
  constructor
  · intro present
    rcases names with maps | ⟨⟨_, absent⟩, _⟩
    · rw [frameOf_present present] at maps
      rw [some_inj.mp maps]
      exact kept.imp_left Eq.symm
    · exact absurd present absent
  intro offset swapped
  rcases names with maps | ⟨⟨some, absent⟩, found⟩
  · rw [frameOf] at maps
    split at maps
    · next present =>
      rw [swapOf_present present] at swapped
      cases swapped
    · cases maps
  · rcases kept with rfl | shared
    · exact .inr ⟨c, found, .inl rfl⟩
    rw [swapOf_absent absent some, some_inj] at swapped
    rw [references_named found, swapped] at shared
    by_cases more : 1 < m.swap.memMap offset
    · exact .inl more
    · exact .inr ⟨f, found, .inr (by omega)⟩

theorem Names.again (names : Names m pte f) (displaced : Displaced m f pte between) :
    between.references f = m.references f := by
  refine displaced.again (names.imp id ?_)
  rintro ⟨⟨some, absent⟩, found⟩
  exact ⟨(named_of_found found).1, (named_of_found found).2, some, absent⟩

/-- Copy-on-write leaves the page with a frame of its own, unless there is no memory for the copy.
-/
theorem copyOnWrite_put (tabled : w.dir.Tabled page) (later : Later w.memory m)
    (books : Books rest w.dir.entry m) (used : m.free f = false)
    (names : Names m (w.dir.entry page) f) (spare : ∀ c, newpage = some c → w.memory.free c = true ∧
      Spare w.dir.entry m c ∧ c ≠ f) (perm : Perm) (ret : Int) :
    ∃ after given, w.copyOnWrite m f newpage page perm ret = .ok (after, given) ∧
      ((newpage = none ∧ 1 < m.references f ∧ after = { w with memory := m } ∧ given = ret) ∨
        given = 0 ∧ ∃ g, (g = f ∨ newpage = some g) ∧ Put rest w page g perm (m.data f) after ∧
          after.memory.references g ≤ 1) := by
  obtain ⟨count, counted, total⟩ := swapPageCount_ok books f
  unfold World.copyOnWrite
  rw [counted]
  show ∃ after given, (if m.ref f + count > 1 then _ else _) = _ ∧ _
  rw [total]
  split
  · next shared =>
    cases newpage with
    | none => exact ⟨_, ret, rfl, .inl ⟨rfl, shared, rfl, rfl⟩⟩
    | some c =>
      obtain ⟨free, own, other⟩ := spare c rfl
      generalize filledIs : m.setData c (m.data f) = filled
      have kept : Books rest w.dir.entry filled := filledIs ▸ books.of_swap rfl books.frames books.unused
      have stays : Stays filled c (w.dir.entry page) :=
        Names.stays (m := filled) (f := f) (filledIs ▸ names) (.inr (filledIs ▸ shared))
      have taken : filled.free c = false := filledIs ▸ own.taken
      obtain ⟨after, between, ran, put, displaced, references⟩ :=
        insertFrame_put tabled (filledIs ▸ later_setData free later (m.data f)) kept taken stays
        none (fun _ never => by cases never) perm
      have contents : filled.data c = m.data f := filledIs ▸ update_self ..
      have none : filled.references c = 0 := filledIs ▸ own.references
      rw [← filledIs] at ran
      refine ⟨after, 0, ran, .inr ⟨rfl, c, .inr rfl, contents ▸ put, ?_⟩⟩
      rw [references, displaced.fresh none (filledIs ▸ own.plain) (own.unmapped page)]
  · obtain ⟨after, between, ran, put, displaced, references⟩ :=
      insertFrame_put tabled later books used (names.stays (.inl rfl)) newpage spare perm
    refine ⟨after, 0, ran, .inr ⟨rfl, f, .inl rfl, put, ?_⟩⟩
    rw [references, names.again displaced]
    omega

/-- Memory suffices for a number of frames, a table of a shared object and a transfer from the disk.
-/
structure Ample (count : Nat) (m : Memory) : Prop where
  frames : Plenty count m
  kmallocs : m.kmallocs.headD false = true
  reads : m.reads.headD false = true

def World.slot (w : World) (vma : Vma) (addr : Nat) : Pte :=
  match vma.shmem with
  | none => 0
  | some object => slotEntry (w.shmems object) (wrap (addr - vma.vmStart + vma.shmemOff) / pgSize)

def World.contents (w : World) (vma : Vma) (addr : Nat) : Contents :=
  let pte := w.dir.entry (vpn addr)
  if Present pte then w.memory.data (pte2page pte)
  else if pte ≠ 0 then swapContents w.memory pte
  else if vma.vmFlags &&& vmShare ≠ 0 ∧ Present (w.slot vma addr) then w.memory.data (pte2page (w.slot vma addr))
  else fun _ => 0

/-- A first touch of a shared page that no frame has been found for yet. -/
def World.Unfilled (w : World) (vma : Vma) (addr : Nat) : Prop :=
  w.dir.entry (vpn addr) = 0 ∧ vma.vmFlags &&& vmShare ≠ 0 ∧ ¬ Present (w.slot vma addr)

/-- A first touch of a shared page for which an uncleared frame may be found. -/
def World.Stale (w : World) (vma : Vma) (addr : Nat) : Prop :=
  w.Unfilled vma addr ∧ ∃ f, some f ∈ w.memory.supply ∧ w.memory.free f = true ∧ w.memory.data f ≠ fun _ => 0

/-- Shared objects keep their entries, except that an empty slot may have got a frame. -/
structure Fills (w after : World) : Prop where
  slots : ∀ object slot, slotEntry (after.shmems object) slot = slotEntry (w.shmems object) slot ∨
    slotEntry (w.shmems object) slot = 0 ∧ ∃ f, w.memory.free f = true ∧ after.memory.free f = false ∧
      slotEntry (after.shmems object) slot = ptepMap (page2pa f)
  shaped : ∀ object, Shaped (w.shmems object) → Shaped (after.shmems object)
  lens : ∀ object, (after.shmems object).len = (w.shmems object).len

theorem Fills.of_same (same : after.shmems = w.shmems) : Fills w after := by
  constructor
  · exact fun object slot => .inl (by rw [same])
  · exact fun object shaped => by rwa [same]
  · exact fun object => by rw [same]

/-- A fault that was not served: at most, frames and tables have been taken. -/
structure Failed (count : Nat) (w : World) (page : Nat) (after : World) (ret : Int) : Prop where
  ret : ret ≠ 0
  mm : after.mm = w.mm
  entry : after.dir.entry = w.dir.entry
  took : Took w.memory after.memory
  refs : w.dir.Tabled page → after.memory.ref = w.memory.ref
  fills : Fills w after
  slots : ∀ object, slotEntry (after.shmems object) = slotEntry (w.shmems object)
  short : ¬ Ample count w.memory

/-- A fault that was served with a frame. -/
structure Served (rest : Rest) (w : World) (vma : Vma) (error : BitVec 64) (addr : Nat) (f : Frame)
    (perm : Perm) (after : World) : Prop where
  mm : after.mm = w.mm
  entry : after.dir.entry = Function.update w.dir.entry (vpn addr) (mapping f perm)
  books : Books rest after.dir.entry after.memory
  later : Later w.memory after.memory
  fills : Fills w after
  granted : perm = faultPerm vma.vmFlags ∨ perm = unsetWrite (faultPerm vma.vmFlags) ∧ error &&& 2 = 0
  contents : ¬ w.Stale vma addr → after.memory.data f = w.contents vma addr
  single : vma.vmFlags &&& vmShare = 0 → UWrite (mapping f perm) → after.memory.references f ≤ 1
  kept : w.memory.free f = true ∨ Names w.memory (w.dir.entry (vpn addr)) f ∨ vma.vmFlags &&& vmShare ≠ 0
  shared : w.dir.entry (vpn addr) = 0 → vma.vmFlags &&& vmShare ≠ 0 → frameOf (after.slot vma addr) = some f
  steady : vma.vmFlags &&& vmShare = 0 → after.shmems = w.shmems

theorem faultPerm_bits (flags : BitVec 32) : (faultPerm flags).getLsbD 1 = true ∧
    (faultPerm flags).getLsbD 4 = true ∧ ((faultPerm flags).getLsbD 2 = true ↔
    flags &&& vmWrite ≠ 0) := by
  unfold faultPerm
  dsimp only
  by_cases write : flags &&& vmWrite ≠ 0 <;> by_cases exec : flags &&& vmExec ≠ 0
  · rw [if_pos write, if_pos exec]
    exact ⟨by decide, by decide, iff_of_true (by decide) write⟩
  · rw [if_pos write, if_neg exec]
    exact ⟨by decide, by decide, iff_of_true (by decide) write⟩
  · rw [if_neg write, if_pos exec]
    exact ⟨by decide, by decide, iff_of_false (by decide) write⟩
  · rw [if_neg write, if_neg exec]
    exact ⟨by decide, by decide, iff_of_false (by decide) write⟩

theorem unsetWrite_bits (perm : Perm) : (unsetWrite perm).getLsbD 1 = perm.getLsbD 1 ∧
    (unsetWrite perm).getLsbD 4 = perm.getLsbD 4 ∧ (unsetWrite perm).getLsbD 2 = false := by
  revert perm
  decide +kernel

theorem cow_iff (flags : BitVec 32) : flags &&& (vmShare ||| vmWrite) = vmWrite ↔
    flags &&& vmShare = 0 ∧ flags &&& vmWrite ≠ 0 := by
  have single : flags &&& vmWrite = 0 ∨ flags &&& vmWrite = vmWrite := by
    rw [show vmWrite = BitVec.twoPow 32 1 by decide, BitVec.and_twoPow]
    split
    · exact .inr rfl
    · exact .inl rfl
  have both : flags &&& (vmShare ||| vmWrite) = (flags &&& vmShare) ||| (flags &&& vmWrite) := by
    ext i
    simp [Bool.and_or_distrib_left]
  constructor
  · intro cow
    have share : flags &&& vmShare = (flags &&& (vmShare ||| vmWrite)) &&& vmShare := by rw [BitVec.and_assoc]; rfl
    have write : flags &&& vmWrite = (flags &&& (vmShare ||| vmWrite)) &&& vmWrite := by rw [BitVec.and_assoc]; rfl
    rw [share, write, cow]
    decide
  · rintro ⟨own, write⟩
    rw [both, own, single.resolve_left write]
    decide

theorem not_uWrite_unset (f : Frame) (perm : Perm) : ¬ UWrite (mapping f (unsetWrite perm)) := by
  intro writes
  have bit := ((uWrite_mapping f _).mp writes).2
  rw [(unsetWrite_bits perm).2.2] at bit
  cases bit

theorem UWrite.flag {flags : BitVec 32} (writes : UWrite (mapping f perm))
    (granted : perm = faultPerm flags ∨ perm = unsetWrite (faultPerm flags)) :
    flags &&& vmWrite ≠ 0 := by
  rcases granted with rfl | rfl
  · exact (faultPerm_bits flags).2.2.mp ((uWrite_mapping f _).mp writes).2
  · exact absurd writes (not_uWrite_unset f _)

structure Newpage (entries : Nat → Pte) (m : Memory) (cow : Bool) (between : Memory) (newpage : Option Frame) : Prop where
  reserved : Reserved m between
  reads : between.reads = m.reads
  spare : ∀ c, newpage = some c → m.free c = true ∧ Spare entries between c
  missing : cow = true → newpage = none → m.allocPage.2 = none
  plenty : Plenty 2 m → Plenty 1 between

theorem takeNewpage_spec (books : Books rest entries m) (cow : Bool) : ∃ between newpage,
    World.takeNewpage m cow = (between, newpage) ∧ Newpage entries m cow between newpage := by
  cases cow with
  | false => exact ⟨m, none, rfl, .refl m, rfl, (fun _ never => by cases never), (fun never => by cases never), Plenty.less⟩
  | true =>
    obtain ⟨between, newpage, taken⟩ : ∃ between newpage, m.allocPage = (between, newpage) := ⟨_, _, rfl⟩
    refine ⟨between, newpage, taken, reserved_allocPage taken, (drew_allocPage taken).reads, ?_, ?_,
      fun plenty => (plenty.some taken).2⟩
    · intro c given
      rw [given] at taken
      exact ⟨(allocPage_some taken).1, books.spare taken⟩
    · exact fun _ none => by rw [taken, none]

/-- A write to a page in the swap space that others refer to, when there is no frame for a copy. -/
structure World.Lost (w : World) (vma : Vma) (error : BitVec 64) (addr : Nat) : Prop where
  swapped : w.dir.entry (vpn addr) ≠ 0 ∧ ¬ Present (w.dir.entry (vpn addr))
  write : error &&& 2 ≠ 0
  cow : vma.vmFlags &&& (vmShare ||| vmWrite) = vmWrite
  shared : 1 < w.memory.entryReferences (w.dir.entry (vpn addr))
  missing : w.memory.allocPage.2 = none

def Result (rest : Rest) (count : Nat) (w : World) (vma : Vma) (error : BitVec 64) (addr : Nat)
    (result : World × Int) : Prop :=
  Failed count w (vpn addr) result.1 result.2 ∨ result.2 = 0 ∧ ∃ f perm, Served rest w vma error addr f perm result.1

theorem Put.served {contents : Contents} (put : Put rest w (vpn addr) f perm contents after)
    (held : w.dir.entry (vpn addr) ≠ 0)
    (granted : perm = faultPerm vma.vmFlags ∨ perm = unsetWrite (faultPerm vma.vmFlags) ∧
      error &&& 2 = 0) (same : contents = w.contents vma addr)
    (single : vma.vmFlags &&& (vmShare ||| vmWrite) = vmWrite → UWrite (mapping f perm) → after.memory.references f ≤ 1)
    (kept : w.memory.free f = true ∨ Names w.memory (w.dir.entry (vpn addr)) f) :
      Served rest w vma error addr f perm after := by
  refine ⟨put.mm, put.entry, put.books, put.later, .of_same put.shmems, granted, fun _ =>
    put.contents.trans same, ?_, ?_, ?_, fun _ => put.shmems⟩
  · intro own writes
    have flag := writes.flag (granted.imp id And.left)
    exact single ((cow_iff _).mpr ⟨own, flag⟩) writes
  · exact kept.imp id .inl
  · exact held.elim

theorem World.contents_present (present : Present (w.dir.entry (vpn addr))) :
    w.contents vma addr = w.memory.data (pte2page (w.dir.entry (vpn addr))) := if_pos present

theorem World.contents_swapped (held : w.dir.entry (vpn addr) ≠ 0)
    (absent : ¬ Present (w.dir.entry (vpn addr))) : w.contents vma addr = swapContents w.memory
    (w.dir.entry (vpn addr)) := by rw [World.contents, if_neg absent, if_pos held]

theorem World.contents_empty (empty : w.dir.entry (vpn addr) = 0) :
    w.contents vma addr = if vma.vmFlags &&& vmShare ≠ 0 ∧
    Present (w.slot vma addr) then w.memory.data (pte2page (w.slot vma addr)) else fun _ => 0 := by
  rw [World.contents, empty]
  exact if_neg fun never => never rfl

theorem Failed.of_reserved {ret : Int} (nonzero : ret ≠ 0) (reserved : Reserved w.memory m) (short : ¬ Ample count w.memory) :
    Failed count w page { w with memory := m } ret :=
      ⟨nonzero, rfl, rfl, reserved.toTook, fun _ => reserved.refs, .of_same rfl, fun _ => rfl,
      short⟩

theorem copyPresent_ends (vma : Vma) (error : BitVec 64) (tabled : w.dir.Tabled (vpn addr))
    (books : Books rest w.dir.entry w.memory) (present : Present (w.dir.entry (vpn addr)))
    (taken : Newpage w.dir.entry w.memory true m newpage) :
    ∃ result, w.copyOnWrite m (pte2page (w.dir.entry (vpn addr))) newpage (vpn addr)
      (faultPerm vma.vmFlags) (-eNoMem) = .ok result ∧ Result rest 2 w vma error addr result := by
  have maps := frameOf_present present
  have kept := books.took taken.reserved.toTook
  have used := (books.mapped maps).2
  have spare : ∀ c, newpage = some c → w.memory.free c = true ∧ Spare w.dir.entry m c ∧
    c ≠ pte2page (w.dir.entry (vpn addr)) := by
    intro c given
    obtain ⟨free, own⟩ := taken.spare c given
    exact ⟨free, own, fun same => own.unmapped (vpn addr) (same ▸ maps)⟩
  obtain ⟨after, given, ran, outcome⟩ := copyOnWrite_put tabled taken.reserved.later kept
    (kept.mapped maps).2 (.inl maps) spare (faultPerm vma.vmFlags) (-eNoMem)
  refine ⟨_, ran, ?_⟩
  rcases outcome with ⟨none, _, rfl, rfl⟩ | ⟨rfl, g, origin, put, single⟩
  · have nonzero : -eNoMem ≠ 0 := by decide
    refine .inl (.of_reserved nonzero taken.reserved ?_)
    exact fun ample => ample.frames.1 (taken.missing rfl none)
  · refine .inr ⟨rfl, g, _, put.served present.ne_zero (.inl rfl) ?_ (fun _ _ => single) ?_⟩
    · rw [World.contents_present present, taken.reserved.data _ used]
    · rcases origin with rfl | given
      · exact .inr (.inl maps)
      · exact .inl (spare g given).1

theorem entryReferences_congr (swap : between.swap = m.swap) (ref : between.ref = m.ref) :
    between.entryReferences pte = m.entryReferences pte := by
  rw [Memory.entryReferences, Memory.entryReferences, swapHashFind, swapHashFind, swap, ref]

theorem swapHashFind_congr (swap : between.swap = m.swap) : swapHashFind between pte = swapHashFind m
    pte := by rw [swapHashFind, swap, swapHashFind]

theorem swapContents_congr (books : Books rest entries m) (took : Took m between) :
    swapContents between pte = swapContents m pte := by
  rw [swapContents, swapContents, swapHashFind_congr took.swap, took.swap]
  cases found : swapHashFind m pte with
  | none => rfl
  | some f => exact took.data f (books.used_of_pageSwap (named_of_found found).1)

theorem Spare.reserved (spare : Spare entries m c) (reserved : Reserved m between) : Spare entries between c := by
  refine ⟨(reserved.used spare.taken).1, by rw [reserved.refs, spare.count], ?_, spare.unmapped⟩
  rw [Memory.PageSwap, reserved.swap]
  exact spare.plain

theorem Spare.swappedIn (spare : Spare entries m c) (read : SwappedIn rest entries m pte f between) :
    Spare entries between c ∧ c ≠ f := by
  have other : c ≠ f := by
    rintro rfl
    rcases read.origin with free | found
    · cases spare.taken.symm.trans free
    · exact spare.plain (named_of_found found).1
  refine ⟨⟨read.later.used spare.taken, by rw [read.refs, spare.count], ?_, spare.unmapped⟩, other⟩
  exact fun cached => (read.pages c cached).elim spare.plain other

theorem Reserved.freed {after : Memory} (reserved : Reserved m between)
    (given : ∀ c, newpage = some c → m.free c = true) (swap : after.swap = between.swap)
    (data : after.data = between.data) (ref : after.ref = between.ref)
    (free : ∀ g, after.free g = between.free g ∨ newpage = some g ∧ after.free g = true) : Reserved m after := by
  refine ⟨⟨swap.trans reserved.swap, ?_, ?_⟩, ref.trans reserved.refs⟩
  · intro g used
    rw [data, reserved.data g used]
  intro g
  rcases free g with same | ⟨back, now⟩
  · rw [same, ref]
    exact reserved.frames g
  · exact .inl ⟨now.trans (given g back).symm, by rw [ref, reserved.refs]⟩

theorem swapIn_ends (tabled : w.dir.Tabled (vpn addr)) (books : Books rest w.dir.entry w.memory)
    (held : w.dir.entry (vpn addr) ≠ 0) (absent : ¬ Present (w.dir.entry (vpn addr))) {cow : Bool}
    (isCow : cow = true ↔ vma.vmFlags &&& (vmShare ||| vmWrite) = vmWrite)
      (taken : Newpage w.dir.entry w.memory cow m newpage) (safe : ¬ w.Lost vma error addr) :
    ∃ result, w.swapIn m newpage error (vpn addr) (faultPerm vma.vmFlags) cow = .ok result ∧
      Result rest 2 w vma error addr result := by
  have swapped := swapOf_absent absent held
  obtain ⟨enabled, valid⟩ := books.swapped (vpn addr) _ swapped
  have kept := books.took taken.reserved.toTook
  have valid : m.HasOffset (w.dir.entry (vpn addr) >>> 8).toNat := by rwa [Memory.HasOffset, taken.reserved.swap]
  obtain ⟨between, ret, given, ran, outcome⟩ := swapInPage_spec kept valid
  unfold World.swapIn
  rw [if_pos enabled, ← entry_of_tabled tabled, ran]
  rcases outcome with ⟨rfl, nonzero, reserved, short⟩ | ⟨f, rfl, rfl, read⟩
  · obtain ⟨freed, ran, _, swap, data, ref, free⟩ :=
      freeUnused_spare newpage (kept.took reserved.toTook) fun c given =>
        (taken.spare c given).2.reserved reserved
    refine ⟨({ w with memory := freed }, ret), ?_, .inl (.of_reserved nonzero ?_ ?_)⟩
    · show (freeUnused between newpage >>= _) = _
      rw [ran]
      rfl
    · exact (taken.reserved.trans reserved).freed (fun c given => (taken.spare c given).1) swap data ref free
    · exact fun ample => short (taken.plenty ample.frames) (taken.reads ▸ ample.reads)
  have spare : ∀ c, newpage = some c → w.memory.free c = true ∧ Spare w.dir.entry between c ∧
    c ≠ f := fun c given => ⟨(taken.spare c given).1, (taken.spare c given).2.swappedIn read⟩
  have later := taken.reserved.later.trans read.later
  have names : Names between (w.dir.entry (vpn addr)) f := .inr ⟨⟨held, absent⟩, read.cached⟩
  have contents : between.data f = w.contents vma addr := by
    rw [read.contents, World.contents_swapped held absent,
      swapContents_congr books taken.reserved.toTook]
  have origin : w.memory.free f = true ∨ Names w.memory (w.dir.entry (vpn addr)) f := by
    rcases read.origin with free | found
    · exact .inl (taken.reserved.unused free).1
    · rw [swapHashFind_congr taken.reserved.swap] at found
      exact .inr (.inr ⟨⟨held, absent⟩, found⟩)
  show ∃ result, (if error &&& 2 = 0 ∧ cow = true then _ else _) = _ ∧ _
  by_cases reads : error &&& 2 = 0 ∧ cow = true
  · obtain ⟨after, _, ran, put, _⟩ := insertFrame_put tabled later read.books read.used
      (names.stays (.inl rfl)) newpage spare (unsetWrite (faultPerm vma.vmFlags))
    rw [if_pos reads]
    refine ⟨_, ran, .inr ⟨rfl, f, _, put.served held (.inr ⟨rfl, reads.1⟩) contents ?_ origin⟩⟩
    exact fun _ writes => absurd writes (not_uWrite_unset f _)
  rw [if_neg reads]
  cases cow with
  | true =>
    have write : error &&& 2 ≠ 0 := fun none => reads ⟨none, rfl⟩
    obtain ⟨after, given, ran, outcome⟩ :=
      copyOnWrite_put tabled later read.books read.used names spare (faultPerm vma.vmFlags) 0
    refine ⟨_, ran, ?_⟩
    rcases outcome with ⟨none, shared, _, _⟩ | ⟨rfl, g, kept, put, single⟩
    · rw [read.references, entryReferences_congr taken.reserved.swap taken.reserved.refs] at shared
      exact absurd ⟨⟨held, absent⟩, write, isCow.mp rfl, shared, taken.missing rfl none⟩ safe
    refine .inr ⟨rfl, g, _, put.served held (.inl rfl) contents (fun _ _ => single) ?_⟩
    rcases kept with rfl | given
    · exact origin
    · exact .inl (spare g given).1
  | false =>
    obtain ⟨after, _, ran, put, _⟩ := insertFrame_put tabled later read.books read.used
      (names.stays (.inl rfl)) newpage spare (faultPerm vma.vmFlags)
    refine ⟨_, ran, .inr ⟨rfl, f, _, put.served held (.inl rfl) contents ?_ origin⟩⟩
    exact fun cow => by cases isCow.mpr cow

/-- The test on the entry of a page that is present. -/
def Expected (vma : Vma) (error : BitVec 64) (pte : Pte) : Prop :=
  ¬ Present pte ∨ error &&& 2 ≠ 0 ∧ ¬ UWrite pte ∧ vma.vmFlags &&& (vmShare ||| vmWrite) = vmWrite

theorem replacePage_ends (tabled : w.dir.Tabled (vpn addr)) (books : Books rest w.dir.entry w.memory)
    (held : w.dir.entry (vpn addr) ≠ 0)
    (safe : ¬ w.Lost vma error addr) : Ends (fun fault => fault = .assertion "0" ∧
      ¬ Expected vma error (w.dir.entry (vpn addr)))
      (w.replacePage vma error (vpn addr) (faultPerm vma.vmFlags))
      (Result rest 2 w vma error addr) := by
  unfold World.replacePage
  rw [← entry_of_tabled tabled]
  simp only [ensure_bind, decide_eq_true_eq]
  split
  · next passed =>
    have expected := passed
    obtain ⟨m, newpage, ran, taken⟩ := takeNewpage_spec books (decide (vma.vmFlags &&& (vmShare ||| vmWrite) = vmWrite))
    rw [ran]
    by_cases present : Present (w.dir.entry (vpn addr))
    · have cow := (expected.resolve_left (not_not_intro present)).2.2
      rw [if_pos present, if_pos cow]
      rw [decide_eq_true cow] at taken
      obtain ⟨result, ran, holds⟩ := copyPresent_ends vma error tabled books present taken
      exact .of_ok ran holds
    · rw [if_neg present]
      obtain ⟨result, ran, holds⟩ := swapIn_ends tabled books held present decide_eq_true_iff taken safe
      exact .of_ok ran holds
  · next refused => exact ⟨rfl, refused⟩

theorem stays_zero (m : Memory) (f : Frame) : Stays m f 0 := ⟨not_present_zero.elim, fun _ never => by cases never⟩

theorem touchPrivate_ends (tabled : w.dir.Tabled (vpn addr)) (books : Books rest w.dir.entry w.memory)
    (empty : w.dir.entry (vpn addr) = 0) (own : vma.vmFlags &&& vmShare = 0) :
    ∃ result, w.touchPrivate (vpn addr) (faultPerm vma.vmFlags) = .ok result ∧ Result rest 2 w vma error addr result := by
  obtain ⟨m, given, taken⟩ : ∃ m given, w.memory.allocPage = (m, given) := ⟨_, _, rfl⟩
  have reserved := reserved_allocPage taken
  unfold World.touchPrivate pgdirAllocPage
  rw [taken]
  cases given with
  | none =>
    refine ⟨_, rfl, .inl (.of_reserved (show -eNoMem ≠ 0 by decide) reserved ?_)⟩
    exact fun ample => (ample.frames.some taken).1 rfl
  | some f =>
    have spare := books.spare taken
    have free := (allocPage_some taken).1
    obtain ⟨filled, filledIs⟩ := @exists_eq _ (m.setData f fun _ => 0)
    have kept : Books rest w.dir.entry filled := filledIs ▸ (books.took reserved.toTook).of_swap rfl
      (books.took reserved.toTook).frames (books.took reserved.toTook).unused
    have stays := empty ▸ stays_zero filled f
    obtain ⟨dir, memory, ran, put, displaced⟩ :=
      pageInsert_put tabled (filledIs ▸ later_setData free reserved.later fun _ => 0) kept
      (filledIs ▸ spare.taken) stays (faultPerm vma.vmFlags)
    dsimp only
    rw [← filledIs, ran]
    refine ⟨_, rfl, .inr ⟨rfl, f, _, put.mm, put.entry, put.books, put.later, .of_same rfl,
      .inl rfl, ?_, ?_, .inl free, ?_, fun _ => rfl⟩⟩
    · intro _
      refine put.contents.trans ?_
      rw [World.contents_empty empty, if_neg (fun both => both.1 own), filledIs]
      exact update_self ..
    · intro _ _
      have none : filled.references f = 0 := filledIs ▸ spare.references
      exact (displaced.fresh none (filledIs ▸ spare.plain) (spare.unmapped (vpn addr))).le
    · exact fun _ shared => absurd own shared

/-- The state of an address space and of memory between calls. -/
structure Consistent (rest : Rest) (w : World) : Prop where
  areas : Valid w.mm
  backed : ∀ p ∈ w.mm.mmapList, (w.mm.vmas p).Backed w.mm.shmems
  lens : ∀ object, (w.shmems object).len = (w.mm.shmems object).len
  shaped : ∀ object, Shaped (w.shmems object)
  slots : ∀ object slot f, frameOf (slotEntry (w.shmems object) slot) = some f → w.memory.free f = false
  books : Books rest w.dir.entry w.memory

theorem Consistent.slot_used (consistent : Consistent rest w) (present : Present (w.slot vma addr)) :
    w.memory.free (pte2page (w.slot vma addr)) = false := by
  unfold World.slot at present ⊢
  cases points : vma.shmem with
  | none =>
    rw [points] at present
    exact absurd present not_present_zero
  | some object =>
    rw [points] at present
    exact consistent.slots object _ _ (frameOf_present present)

structure Behind (w : World) (vma : Vma) (addr : Nat) (object : Ptr) : Prop where
  points : vma.shmem = some object
  inside : wrap (addr - vma.vmStart + vma.shmemOff) < (w.shmems object).len

theorem Behind.slot (behind : Behind w vma addr object) : w.slot vma addr = slotEntry
    (w.shmems object) (wrap (addr - vma.vmStart + vma.shmemOff) / pgSize) := by
      rw [World.slot, behind.points]

theorem mapSlot_put (tabled : w.dir.Tabled page) (books : Books rest w.dir.entry w.memory)
    (empty : w.dir.entry page = 0) (present : Present pte)
    (used : w.memory.free (pte2page pte) = false) (perm : Perm) :
    ∃ after, w.mapSlot page perm pte = .ok (after, 0) ∧ Put rest w page (pte2page pte) perm
      (w.memory.data (pte2page pte)) after := by
  obtain ⟨dir, memory, ran, put, _⟩ := pageInsert_put tabled (.refl w.memory) books used
    (empty ▸ stays_zero w.memory _) perm
  refine ⟨_, ?_, put⟩
  unfold World.mapSlot
  rw [if_pos present, ran]
  rfl

theorem Books.hold (books : Books rest entries m) (used : m.free f = false) : Books rest entries (m.refAdd f 1) := by
  refine books.of_swap rfl ?_ ?_
  · intro g
    have enough := books.frames g
    rw [refAdd_ref]
    split <;> omega
  · intro g free
    have other : g ≠ f := by
      rintro rfl
      cases used.symm.trans free
    rw [refAdd_ref, if_neg other, Int.add_zero]
    exact books.unused g free

theorem Fills.of_update {next : ShmemStruct} (same : after.shmems = update w.shmems object next)
    (shaped : Shaped next) (len : next.len = (w.shmems object).len)
    (slots : ∀ slot, slotEntry next slot = slotEntry (w.shmems object) slot ∨ slotEntry (w.shmems object) slot = 0 ∧
      ∃ f, w.memory.free f = true ∧ after.memory.free f = false ∧ slotEntry next slot = ptepMap
        (page2pa f)) : Fills w after := by
  constructor
  · intro other slot
    rw [same, update_apply]
    split
    · next here => exact here ▸ slots slot
    · exact .inl rfl
  · intro other before
    rw [same, update_apply]
    split
    · exact shaped
    · exact before
  · intro other
    rw [same, update_apply]
    split
    · next here => rw [here, len]
    · rfl

theorem Put.served_shared {next : ShmemStruct} {contents : Contents}
    (put : Put rest { w with shmems := update w.shmems object next, memory := m } (vpn addr) f
    (faultPerm vma.vmFlags) contents after)
    (behind : Behind w vma addr object) (shared : vma.vmFlags &&& vmShare ≠ 0)
      (later : Later w.memory m)
      (holds : frameOf (slotEntry next (wrap (addr - vma.vmStart + vma.shmemOff) / pgSize)) =
      some f) (fills : Fills w after)
    (same : ¬ w.Stale vma addr → contents = w.contents vma addr) : Served rest w vma error addr f
      (faultPerm vma.vmFlags) after := by
  refine ⟨put.mm, put.entry, put.books, later.trans put.later, fills, .inl rfl, fun full =>
    put.contents.trans (same full), ?_, ?_, ?_, shared.elim⟩
  · exact shared.elim
  · exact .inr (.inr shared)
  intro _ _
  rw [World.slot, behind.points, put.shmems]
  dsimp only
  rwa [update_self]

theorem touchShared_ends (tabled : w.dir.Tabled (vpn addr)) (consistent : Consistent rest w)
    (empty : w.dir.entry (vpn addr) = 0)
    (shared : vma.vmFlags &&& vmShare ≠ 0) (behind : Behind w vma addr object)
      (usable : w.slot vma addr = 0 ∨ Present (w.slot vma addr)) :
    ∃ result, w.touchShared vma addr (faultPerm vma.vmFlags) = .ok result ∧ Result rest 2 w vma error addr result := by
  obtain ⟨next, m, given, ran, shaped, len, got⟩ := shmemGetEntry_spec (consistent.shaped object) behind.inside w.memory
  have slot := behind.slot
  unfold World.touchShared
  rw [behind.points]
  dsimp only
  rw [ran]
  cases got with
  | missed same reserved nothing short =>
    refine ⟨({ w with shmems := update w.shmems object next, memory := m }, -eNoMem), ?_,
      .inl ⟨show -eNoMem ≠ 0 by decide, rfl, rfl,
      reserved.toTook, fun _ => reserved.refs, .of_update rfl shaped len fun slot => .inl (by rw [same]), ?_, ?_⟩⟩
    · cases given with
      | none => rfl
      | some slot => exact if_pos (nothing slot rfl)
    · intro other
      show slotEntry (update w.shmems object next other) = _
      rw [update_apply]
      split
      · next here => rw [here, same]
      · rfl
    · exact fun ample => short ample.frames ample.kmallocs
  | found same reserved holds full =>
    rw [slot] at usable
    have present := usable.resolve_left full
    have used := consistent.slots object _ _ (frameOf_present present)
    obtain ⟨after, ran, put⟩ :=
      mapSlot_put (w := { w with shmems := update w.shmems object next, memory := m }) tabled
      (consistent.books.took reserved.toTook) empty present (reserved.used used).1
      (faultPerm vma.vmFlags)
    refine ⟨(after, 0), ?_, .inr ⟨rfl, _, _, put.served_shared behind shared reserved.later ?_ ?_ ?_⟩⟩
    · show (if next.entry _ = 0 then _ else _) = _
      rwa [holds, if_neg full]
    · rw [same, frameOf_present present]
    · exact .of_update put.shmems shaped len fun slot => .inl (by rw [same])
    · intro _
      rw [World.contents_empty empty, slot, if_pos ⟨shared, present⟩, reserved.data _ used]
  | @made between f vacant reserved free taken asked supplied holds entries =>
    have present := present_ptepMap f
    have kept := (consistent.books.took reserved.toTook).hold taken
    obtain ⟨after, ran, put⟩ :=
      mapSlot_put (w := { w with
      shmems := update w.shmems object next, memory :=
      between.refAdd f 1 }) tabled kept empty present ((pte2page_ptepMap f).symm ▸ taken)
      (faultPerm vma.vmFlags)
    have later : Later w.memory (between.refAdd f 1) := ⟨reserved.later.free, reserved.later.data⟩
    refine ⟨(after, 0), ?_, .inr ⟨rfl, _, _, put.served_shared behind shared later ?_ ?_ ?_⟩⟩
    · show (if next.entry _ = 0 then _ else _) = _
      rwa [holds, if_neg present.ne_zero]
    · rw [entries, update_self, frameOf_present present]
    · refine .of_update put.shmems shaped len fun slot => ?_
      rw [entries, update_apply]
      split
      · next here => exact .inr ⟨here ▸ vacant, f, free, put.later.used taken, rfl⟩
      · exact .inl rfl
    · intro fresh
      have missing : ¬ Present (w.slot vma addr) := by
        rw [slot, vacant]
        exact not_present_zero
      have cleared : w.memory.data f = fun _ => 0 := by
        by_contra written
        exact fresh ⟨⟨empty, shared, missing⟩, f, supplied, free, written⟩
      rw [World.contents_empty empty, if_neg fun both => missing both.2, pte2page_ptepMap, ← cleared]
      exact congrFun asked.data f

theorem Ample.less (ample : Ample (count + 2) m) : Ample count m := ⟨ample.frames.less.less, ample.kmallocs, ample.reads⟩

theorem Failed.more {ret : Int} (failed : Failed count w page after ret) :
    Failed (count + 2) w page after ret :=
    { failed with short := fun ample => failed.short ample.less }

theorem Result.more (outcome : Result rest count w vma error addr result) :
    Result rest (count + 2) w vma error addr result := outcome.imp Failed.more id

theorem Fills.of_walk (took : Took w.memory m) (fills : Fills { w with dir := next, memory := m } after) : Fills w after := by
  refine ⟨?_, fills.shaped, fills.lens⟩
  intro object slot
  refine (fills.slots object slot).imp id ?_
  rintro ⟨vacant, f, free, used, entry⟩
  exact ⟨vacant, f, (took.unused free).1, used, entry⟩

theorem Consistent.walked {ok : Bool} (consistent : Consistent rest w)
    (walk : Walk w.dir w.memory page next m ok) :
    Consistent rest { w with dir := next, memory := m } := by
  refine { consistent with slots := ?_, books := ?_ }
  · intro object slot f holds
    exact (walk.drew.used (consistent.slots object slot f holds)).1
  · rw [walk.entries]
    exact consistent.books.took walk.drew.toTook

theorem Result.of_walk {ok : Bool} (walk : Walk w.dir w.memory (vpn addr) next m ok)
    (untabled : ¬ w.dir.Tabled (vpn addr)) (consistent : Consistent rest w)
    (outcome : Result rest 2 { w with dir := next, memory := m } vma error addr result) :
      Result rest 4 w vma error addr result := by
  have drew := walk.drew
  have empty : w.dir.entry (vpn addr) = 0 := if_neg untabled
  rcases outcome with failed | ⟨zero, f, perm, served⟩
  · refine .inl ⟨failed.ret, failed.mm, failed.entry.trans walk.entries,
      drew.toTook.trans failed.took, untabled.elim, failed.fills.of_walk drew.toTook, failed.slots,
      ?_⟩
    intro ample
    exact failed.short ⟨(walk.plenty 2 ample.frames).2, drew.kmallocs ▸ ample.kmallocs, drew.reads ▸ ample.reads⟩
  have entry : next.entry (vpn addr) = 0 := by rw [walk.entries, empty]
  refine .inr ⟨zero, f, perm, served.mm, ?_, served.books, drew.later.trans served.later,
    served.fills.of_walk drew.toTook, served.granted, ?_, served.single, ?_, fun _ =>
      served.shared entry, served.steady⟩
  · rw [served.entry]
    exact congrArg (fun entries => update entries (vpn addr) _) walk.entries
  · intro full
    have fullThen : ¬ World.Stale { w with dir := next, memory := m } vma addr := by
      rintro ⟨unfilled, f, supplied, free, written⟩
      exact full ⟨⟨empty, unfilled.2⟩, f, drew.asked.supply supplied, (drew.unused free).1, drew.asked.data ▸ written⟩
    rw [served.contents fullThen, World.contents_empty empty,
      World.contents_empty (w := { w with dir := next, memory := m }) entry]
    exact ite_congr rfl (fun both => drew.data _ (consistent.slot_used both.2)) fun _ => rfl
  · rcases served.kept with free | names | shared
    · exact .inl (drew.unused free).1
    · rcases names with maps | ⟨⟨held, _⟩, _⟩
      · rw [entry] at maps
        cases maps
      · exact absurd entry held
    · exact .inr (.inr shared)

/-- What an access needs besides memory: the object of a shared page has no swapped-out slot
for it, and a copy of a page from the swap space can be made. -/
structure Servable (w : World) (vma : Vma) (error : BitVec 64) (addr : Nat) : Prop where
  usable : w.dir.entry (vpn addr) = 0 → vma.vmFlags &&& vmShare ≠ 0 → w.slot vma addr = 0 ∨ Present (w.slot vma addr)
  copyable : ¬ w.Lost vma error addr

/-- The assertion on pages that are present fails for other faults than copy-on-write. -/
def Unexpected (vma : Vma) (error : BitVec 64) (pte : Pte) (fault : Fault) : Prop :=
  fault = .assertion "0" ∧ ¬ Expected vma error pte

theorem touch_ends (tabled : w.dir.Tabled (vpn addr)) (consistent : Consistent rest w) (empty : w.dir.entry (vpn addr) = 0)
    (behind : vma.vmFlags &&& vmShare ≠ 0 → ∃ object, Behind w vma addr object)
      (servable : Servable w vma error addr) : ∃ result,
      (if vma.vmFlags &&& vmShare = 0 then w.touchPrivate (vpn addr) (faultPerm vma.vmFlags)
      else w.touchShared vma addr (faultPerm vma.vmFlags)) = .ok result ∧ Result rest 2 w vma error addr result := by
  split
  · next own => exact touchPrivate_ends tabled consistent.books empty own
  · next own =>
    obtain ⟨object, behind⟩ := behind own
    exact touchShared_ends tabled consistent empty own behind (servable.usable empty own)

theorem faultPage_ends (consistent : Consistent rest w) (behind : vma.vmFlags &&& vmShare ≠ 0 →
    ∃ object, Behind w vma addr object) (servable : Servable w vma error addr) :
    Ends (Unexpected vma error (w.dir.entry (vpn addr))) (w.faultPage vma error addr) (Result rest 4 w vma error addr) := by
  unfold World.faultPage
  by_cases tabled : w.dir.Tabled (vpn addr)
  · rw [getPte_tabled tabled]
    dsimp only
    rw [← entry_of_tabled tabled]
    split
    · next empty =>
      obtain ⟨result, ran, outcome⟩ := touch_ends tabled consistent empty behind servable
      exact .of_ok ran outcome.more
    · next empty => exact (replacePage_ends tabled consistent.books empty servable.copyable).mono fun _ => Result.more
  obtain ⟨next, m, ok, ran, walk⟩ := getPte_walk w.dir w.memory (vpn addr)
  have empty : w.dir.entry (vpn addr) = 0 := if_neg tabled
  rw [ran]
  cases ok with
  | false =>
    refine .of_ok rfl (.inl ⟨show -eNoMem ≠ 0 by decide, rfl, walk.entries, walk.drew.toTook,
      tabled.elim, .of_same rfl, fun _ => rfl, ?_⟩)
    exact fun ample => absurd (walk.plenty 2 ample.frames).1 (by simp)
  | true =>
    have made := walk.tabled rfl
    have entry : next.entry (vpn addr) = 0 := by rw [walk.entries, empty]
    dsimp only
    rw [if_pos ((entry_of_tabled made).symm.trans entry)]
    obtain ⟨result, ran, outcome⟩ := touch_ends made (consistent.walked walk) entry
      (fun shared => (behind shared).imp fun _ behind => ⟨behind.points, behind.inside⟩)
      (⟨fun _ => servable.usable empty, fun lost => lost.swapped.1 entry⟩)
    exact .of_ok ran (outcome.of_walk walk tabled consistent)

theorem Consistent.of_result (consistent : Consistent rest w)
    (outcome : Result rest count w vma error addr result) : Consistent rest result.1 := by
  rcases outcome with failed | ⟨_, f, perm, served⟩
  · refine ⟨failed.mm ▸ consistent.areas, failed.mm ▸ consistent.backed, ?_, fun object =>
      failed.fills.shaped object (consistent.shaped object), ?_, ?_⟩
    · intro object
      rw [failed.fills.lens, failed.mm, consistent.lens]
    · intro object slot f holds
      rw [failed.slots] at holds
      exact (failed.took.used (consistent.slots object slot f holds)).1
    · rw [failed.entry]
      exact consistent.books.took failed.took
  · refine ⟨served.mm ▸ consistent.areas, served.mm ▸ consistent.backed, ?_, fun object =>
      served.fills.shaped object (consistent.shaped object), ?_, served.books⟩
    · intro object
      rw [served.fills.lens, served.mm, consistent.lens]
    intro object slot g holds
    rcases served.fills.slots object slot with same | ⟨_, h, _, used, entry⟩
    · rw [same] at holds
      exact served.later.used (consistent.slots object slot g holds)
    · rw [entry, frameOf_present (present_ptepMap h), pte2page_ptepMap] at holds
      exact some_inj.mp holds ▸ used

theorem vpn_roundDown (addr : Nat) : vpn (roundDown addr) = vpn addr := by
  simp only [vpn, roundDown, pgSize]
  omega

structure Covering (w : World) (addr : Nat) (p : Ptr) : Prop where
  member : p ∈ w.mm.mmapList
  covers : (w.mm.span p).Covers addr

theorem Consistent.behind {p : Ptr} (consistent : Consistent rest w) (covering : Covering w addr p)
    (shared : (w.mm.vmas p).vmFlags &&& vmShare ≠ 0) : ∃ object, Behind w (w.mm.vmas p)
    (roundDown addr) object := by
  obtain ⟨object, points, inside⟩ := consistent.backed p covering.member shared
  refine ⟨object, points, ?_⟩
  obtain ⟨aligned, _, _, full, _⟩ := consistent.areas.fine p covering.member
  have covers := covering.covers
  rw [consistent.lens]
  refine Nat.lt_of_le_of_lt (Nat.mod_le _ _) ?_
  generalize w.mm.shmems object = record at inside ⊢
  simp only [MmStruct.span, Vma.span, Span.Covers, roundDown, pgSize] at *
  omega

inductive Handled (rest : Rest) (w : World) (error : BitVec 64) (addr : Nat) : World × Int → Prop where
  | rejected {cache : Option Ptr} (refused : ∀ p, Covering w addr p → World.Rejects (w.mm.vmas p) error addr) :
      Handled rest w error addr ({ w with mm := { w.mm with mmapCache := cache } }, -eInval)
  | answered {cache : Option Ptr} {p : Ptr} {result : World × Int} (covering : Covering w addr p)
      (accepted : ¬ World.Rejects (w.mm.vmas p) error addr)
      (outcome : Result rest 4 { w with mm := { w.mm with mmapCache := cache } } (w.mm.vmas p) error
        (roundDown addr) result) :
      Handled rest w error addr result

theorem Covering.unique {p q : Ptr} (valid : Valid w.mm) (first : Covering w addr p)
    (second : Covering w addr q) : p = q :=
    valid.ordered.unique first.member second.member first.covers second.covers

theorem doPgfault_ends (consistent : Consistent rest w) (servable : ∀ p, Covering w addr p →
    ¬ World.Rejects (w.mm.vmas p) error addr → Servable w (w.mm.vmas p) error (roundDown addr)) :
    Ends (fun fault => ∃ p, Covering w addr p ∧
      Unexpected (w.mm.vmas p) error (w.dir.entry (vpn addr)) fault) (w.doPgfault error addr)
      fun result => Consistent rest result.1 ∧ Handled rest w error addr result := by
  obtain ⟨cache, found, ran, valid, answers⟩ := findVma_spec consistent.areas addr
  unfold World.doPgfault
  rw [ran]
  have kept : Consistent rest { w with mm := { w.mm with mmapCache := cache } } := { consistent with areas := valid }
  cases found with
  | none =>
    refine .of_ok rfl ⟨kept, .rejected ?_⟩
    exact fun p covering => absurd covering.covers (answers p covering.member)
  | some p =>
    have covering : Covering w addr p := ⟨answers.1, answers.2⟩
    show Ends _ (if World.Rejects (w.mm.vmas p) error addr then _ else _) _
    split
    · refine .of_ok rfl ⟨kept, .rejected ?_⟩
      intro q other
      rwa [← covering.unique consistent.areas other]
    · next rejects =>
      have ready := servable p covering rejects
      have ends := faultPage_ends kept (fun shared => (consistent.behind covering shared).imp
        fun _ behind => ⟨behind.points, behind.inside⟩) ⟨ready.usable, fun lost =>
          ready.copyable { lost with }⟩
      refine (ends.excuse ?_).mono ?_
      · intro fault unexpected
        rw [vpn_roundDown] at unexpected
        exact ⟨p, covering, unexpected⟩
      · intro result outcome
        exact ⟨kept.of_result outcome, .answered covering rejects outcome⟩

end Ucore.Pmm
