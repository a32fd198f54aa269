import Ucore.Lib.Tally
import Ucore.Proofs.FaultMemory

/-! The references that an address space relies on. Every frame it maps and every swap
entry it holds is counted at least as often as its entries name it, so that replacing
one entry never takes a frame from the others. -/

namespace Ucore.Pmm
open Lib Vmm Function List

/-- References that others hold: other address spaces, and whoever else counts on a frame. -/
structure Rest where
  frames : Frame → Nat
  swaps : Nat → Nat

def Rest.none : Rest := ⟨fun _ => 0, fun _ => 0⟩

variable {rest : Rest} {entries : Nat → Pte} {m between after : Memory} {f g : Frame} {page offset : Nat} {pte : Pte}

/-- The offset in the swap space that an entry stands for. -/
def swapOf (pte : Pte) : Option Nat := if pte ≠ 0 ∧ ¬ Present pte then some (pte >>> 8).toNat else none

theorem swapOf_present (present : Present pte) : swapOf pte = none := if_neg fun both => both.2 present

theorem swapOf_absent (absent : ¬ Present pte) (some : pte ≠ 0) :
    swapOf pte = .some (pte >>> 8).toNat := if_pos ⟨some, absent⟩

namespace Memory

/-- `page_ref` and `swap_page_count` together. -/
def references (m : Memory) (f : Frame) : Int :=
  m.ref f + if m.PageSwap f then (m.swap.memMap (m.swap.index f >>> 8).toNat : Int) else 0

def HasOffset (m : Memory) (offset : Nat) : Prop := 0 < offset ∧ offset < m.swap.maxOffset

end Memory

theorem swapOffset_ok {entry : Pte} (valid : m.HasOffset (entry >>> 8).toNat) :
    swapOffset m entry = .ok (entry >>> 8).toNat := if_pos valid

structure Books (rest : Rest) (entries : Nat → Pte) (m : Memory) : Prop where
  finite : ∀ f, (places (frameOf ∘ entries) f).Finite
  frames : ∀ f, (tally (frameOf ∘ entries) f : Int) + rest.frames f ≤ m.ref f
  unused : ∀ f, m.free f = true → m.ref f = 0 ∧ ¬ m.PageSwap f
  finiteSwaps : ∀ offset, (places (swapOf ∘ entries) offset).Finite
  swaps : ∀ offset, tally (swapOf ∘ entries) offset + rest.swaps offset ≤ m.swap.memMap offset
  swapped : ∀ page offset, swapOf (entries page) = some offset → m.swap.enabled = true ∧ m.HasOffset offset
  cached : ∀ f, m.PageSwap f → m.HasOffset (m.swap.index f >>> 8).toNat

namespace Books

section
variable (books : Books rest entries m)
include books

theorem count (f : Frame) : 0 ≤ m.ref f := by
  have enough := books.frames f
  omega

theorem mapped (maps : frameOf (entries page) = some f) : 1 ≤ m.ref f ∧ m.free f = false := by
  have some := tally_pos (books.finite f) maps
  have enough := books.frames f
  refine ⟨by omega, Bool.eq_false_iff.mpr fun free => ?_⟩
  have none := (books.unused f free).1
  omega

theorem unmapped (free : m.free f = true) (page : Nat) : frameOf (entries page) ≠ some f := by
  intro maps
  cases free.symm.trans (books.mapped maps).2

theorem used_of_pageSwap (cached : m.PageSwap f) : m.free f = false :=
  Bool.eq_false_iff.mpr fun free => (books.unused f free).2 cached

theorem of_swap (swap : after.swap = m.swap) (frames : ∀ f, (tally (frameOf ∘ entries) f : Int) +
    rest.frames f ≤ after.ref f) (unused : ∀ f, after.free f = true → after.ref f = 0 ∧
    ¬ m.PageSwap f) : Books rest entries after := by
  refine ⟨books.finite, frames, ?_, books.finiteSwaps, swap ▸ books.swaps, ?_, ?_⟩
  · intro f
    rw [Memory.PageSwap, swap]
    exact unused f
  · intro page offset
    rw [Memory.HasOffset, swap]
    exact books.swapped page offset
  · intro f
    rw [Memory.PageSwap, Memory.HasOffset, swap]
    exact books.cached f

theorem took (took : Took m after) : Books rest entries after := by
  refine books.of_swap took.swap ?_ ?_
  · intro f
    have enough := books.frames f
    rcases took.frames f with ⟨_, same⟩ | ⟨free, _, same⟩
    · rwa [same]
    · have none := (books.unused f free).1
      omega
  · intro f free
    obtain ⟨was, same⟩ := took.unused free
    rw [same]
    exact books.unused f was

end

end Books

/-- Nothing is freed when the entry gives way to the frame. -/
structure Stays (m : Memory) (f : Frame) (old : Pte) : Prop where
  frame : Present old → pte2page old = f ∨ 1 < m.references (pte2page old)
  entry : ∀ offset, swapOf old = some offset → 1 < m.swap.memMap offset ∨ ∃ g,
    swapHashFind m old = some g ∧ (g = f ∨ m.ref g ≠ 0)

/-- What memory looks like when the frame has taken the place of the entry. -/
structure Displaced (m : Memory) (f : Frame) (old : Pte) (after : Memory) : Prop where
  free : after.free = m.free
  data : after.data = m.data
  enabled : after.swap.enabled = m.swap.enabled
  maxOffset : after.swap.maxOffset = m.swap.maxOffset
  pages : after.swap.pages = m.swap.pages
  index : after.swap.index = m.swap.index
  refs : ∀ g, after.ref g = m.ref g + (if g = f then 1 else 0) - if frameOf old = some g then 1 else 0
  memMap : ∀ offset, after.swap.memMap offset + (if swapOf old = some offset then 1 else 0) = m.swap.memMap offset

theorem refAdd_ref (m : Memory) (f g : Frame) (amount : Int) : (m.refAdd f amount).ref g = m.ref g +
    if g = f then amount else 0 := by
  simp only [Memory.refAdd, Memory.setRef, update_apply]
  split
  · next here => rw [here]
  · next => rw [Int.add_zero]

theorem displace_other (present : Present pte) (other : pte2page pte ≠ f)
    (stays : 1 < m.references (pte2page pte)) : ∃ after, displace m f pte = .ok after ∧
    Displaced m f pte after := by
  have different : ¬ (Present pte ∧ pte2page pte = f) := fun both => other both.2
  have refs : ∀ g, ((m.refAdd f 1).refAdd (pte2page pte) (-1)).ref g = m.ref g +
    (if g = f then 1 else 0) - if frameOf pte = some g then 1 else 0 := by
    intro g
    rw [refAdd_ref, refAdd_ref, frameOf_present present]
    by_cases here : g = pte2page pte
    · simp [here, Int.sub_eq_add_neg]
    · simp [here, Ne.symm here]
  have same : ∀ offset, m.swap.memMap offset + (if swapOf pte = some offset then 1 else 0) = m.swap.memMap offset := by
    intro offset
    rw [swapOf_present present]
    rfl
  simp only [displace, if_pos present.ne_zero, if_neg different, pageRemovePte, if_pos present]
  by_cases cached : m.PageSwap (pte2page pte)
  · rw [if_neg (show ¬ ¬ (m.refAdd f 1).PageSwap (pte2page pte) from not_not_intro cached)]
    split <;> exact ⟨_, rfl, rfl, rfl, rfl, rfl, rfl, rfl, refs, same⟩
  have left : ¬ (((m.refAdd f 1).refAdd (pte2page pte) (-1)).ref (pte2page pte) = 0 ∧
    ((m.refAdd f 1).refAdd (pte2page pte) (-1)).io (pte2page pte) = false) := by
    rw [Memory.references, if_neg cached] at stays
    rw [refs, frameOf_present present, if_pos rfl]
    omega
  rw [if_pos (show ¬ (m.refAdd f 1).PageSwap (pte2page pte) from cached)]
  exact ⟨_, if_neg left, rfl, rfl, rfl, rfl, rfl, rfl, refs, same⟩

/-- Giving up one use of a swap entry frees nothing while the entry has other uses or its frame is
mapped. -/
theorem swapRemoveEntry_keeps (valid : m.HasOffset (pte >>> 8).toNat)
    (counted : 0 < m.swap.memMap (pte >>> 8).toNat) (stays : 1 < m.swap.memMap (pte >>> 8).toNat ∨
    ∃ g, swapHashFind m pte = some g ∧ m.ref g ≠ 0) :
    swapRemoveEntry m pte = .ok (m.setMemMap (pte >>> 8).toNat (m.swap.memMap (pte >>> 8).toNat - 1)) := by
  rw [swapRemoveEntry, swapOffset_ok valid]
  generalize (pte >>> 8).toNat = offset at *
  show (ensure (m.swap.memMap offset > 0) _ >>= _) = _
  rw [ensure_bind, if_pos counted]
  dsimp only
  split
  · next none =>
    have last := (update_self offset _ m.swap.memMap).symm.trans none
    rcases stays with more | ⟨g, found, used⟩
    · omega
    · have same : swapHashFind (m.setMemMap offset (m.swap.memMap offset - 1)) pte = some g := found
      rw [swapDrop, same]
      exact if_pos used
  · rfl

theorem displace_swapped (books : Books rest entries m) (held : entries page = pte) (some : pte ≠ 0)
    (absent : ¬ Present pte) (stays : Stays m f pte) : ∃ after, displace m f pte = .ok after ∧
    Displaced m f pte after := by
  have swapped := swapOf_absent absent some
  obtain ⟨enabled, valid⟩ := books.swapped page (pte >>> 8).toNat (by rw [held, swapped])
  have counted : 0 < m.swap.memMap (pte >>> 8).toNat :=
    Nat.lt_of_lt_of_le (tally_pos (books.finiteSwaps _) (show (swapOf ∘ entries) page =
    _ from held ▸ swapped)) (Nat.le_trans (Nat.le_add_right ..) (books.swaps _))
  have different : ¬ (Present pte ∧ pte2page pte = f) := fun both => absent both.1
  have kept : swapRemoveEntry (m.refAdd f 1) pte = .ok
    ((m.refAdd f 1).setMemMap (pte >>> 8).toNat (m.swap.memMap (pte >>> 8).toNat - 1)) := by
    refine swapRemoveEntry_keeps (m := m.refAdd f 1) valid counted ?_
    refine (stays.entry _ swapped).imp id ?_
    rintro ⟨g, found, used⟩
    refine ⟨g, found, ?_⟩
    have count := books.count g
    rw [refAdd_ref]
    split
    · omega
    · next other =>
      rw [Int.add_zero]
      exact used.resolve_left other
  refine ⟨(m.refAdd f 1).setMemMap (pte >>> 8).toNat (m.swap.memMap (pte >>> 8).toNat - 1), ?_, rfl,
    rfl, rfl, rfl, rfl, rfl, ?_, ?_⟩
  · simp only [displace, if_pos some, if_neg different, pageRemovePte, if_neg absent]
    rw [if_pos ⟨some, enabled⟩, kept]
  · intro g
    rw [frameOf_absent absent]
    exact (refAdd_ref m f g 1).trans (by simp)
  · intro other
    rw [swapped]
    generalize (pte >>> 8).toNat = offset at *
    show update m.swap.memMap offset (m.swap.memMap offset - 1) other + _ = _
    rw [update_apply]
    obtain rfl | here := eq_or_ne other offset
    · simp only [if_true]
      omega
    · simp [here, Ne.symm here]

theorem displace_books (books : Books rest entries m) (stays : Stays m f (entries page)) : ∃ after,
    displace m f (entries page) = .ok after ∧ Displaced m f (entries page) after := by
  by_cases none : entries page = 0
  · rw [none]
    refine ⟨m.refAdd f 1, rfl, rfl, rfl, rfl, rfl, rfl, rfl, ?_, fun _ => rfl⟩
    intro g
    rw [refAdd_ref, frameOf_absent not_present_zero]
    simp
  by_cases present : Present (entries page)
  · by_cases same : pte2page (entries page) = f
    · refine ⟨(m.refAdd f 1).refAdd f (-1), ?_, rfl, rfl, rfl, rfl, rfl, rfl, ?_, ?_⟩
      · simp only [displace, if_pos present.ne_zero, if_pos (And.intro present same)]
        rfl
      · intro g
        rw [refAdd_ref, refAdd_ref, frameOf_present present, same]
        by_cases here : g = f
        · simp [here]
        · simp [here, Ne.symm here]
      · intro offset
        rw [swapOf_present present]
        rfl
    · exact displace_other present same ((stays.frame present).resolve_left same)
  · exact displace_swapped books rfl none present stays

theorem frameOf_mapping (f : Frame) (perm : Perm) : frameOf (mapping f perm) = some f := by
  rw [frameOf_present (present_mapping f perm), pte2page_mapping]

theorem swapOf_mapping (f : Frame) (perm : Perm) : swapOf (mapping f perm) = none := swapOf_present (present_mapping f perm)

theorem Displaced.books (displaced : Displaced m f (entries page) after)
    (books : Books rest entries m) (used : m.free f = false) (perm : Perm) :
    Books rest (update entries page (mapping f perm)) after := by
  have frames : frameOf ∘ update entries page (mapping f perm) = update (frameOf ∘ entries) page
    (some f) := by rw [comp_update, frameOf_mapping]
  have swaps : swapOf ∘ update entries page (mapping f perm) = update (swapOf ∘ entries) page
    none := by rw [comp_update, swapOf_mapping]
  constructor
  · intro g
    rw [frames]
    exact finite_update (books.finite g)
  · intro g
    have enough := books.frames g
    have change := tally_update (books.finite g) page (some f)
    rw [frames, displaced.refs g]
    rw [comp_apply, if_congr (Option.some_inj.trans eq_comm : some f = some g ↔ g = f) rfl rfl] at change
    have counted := congrArg (Nat.cast (R := Int)) change
    push_cast at counted
    omega
  · intro g free
    rw [displaced.free] at free
    have other : g ≠ f := by
      rintro rfl
      cases used.symm.trans free
    rw [displaced.refs, if_neg other, if_neg (books.unmapped free page), Memory.PageSwap, displaced.pages]
    exact ⟨by rw [(books.unused g free).1]; rfl, (books.unused g free).2⟩
  · intro offset
    rw [swaps]
    exact finite_update (books.finiteSwaps offset)
  · intro offset
    have enough := books.swaps offset
    have change := tally_update (books.finiteSwaps offset) page none
    have left := displaced.memMap offset
    rw [swaps]
    simp only [comp_apply, reduceCtorEq, if_false] at change
    omega
  · intro other offset
    rw [displaced.enabled, Memory.HasOffset, displaced.maxOffset, update_apply]
    split
    · rw [swapOf_mapping]
      exact fun never => by cases never
    · exact books.swapped other offset
  · intro g
    rw [Memory.PageSwap, Memory.HasOffset, displaced.pages, displaced.index, displaced.maxOffset]
    exact books.cached g

theorem Displaced.fresh (displaced : Displaced m f pte after) (none : m.references f = 0)
    (plain : ¬ m.PageSwap f) (other : frameOf pte ≠ some f) : after.references f = 1 := by
  have kept : ¬ after.PageSwap f := by rwa [Memory.PageSwap, displaced.pages]
  rw [Memory.references, if_neg plain] at none
  rw [Memory.references, if_neg kept, displaced.refs, if_pos rfl, if_neg other]
  omega

theorem Displaced.again (displaced : Displaced m f pte after) (named : frameOf pte = some f ∨
    m.PageSwap f ∧ m.swap.index f = pte ∧ pte ≠ 0 ∧ ¬ Present pte) :
    after.references f = m.references f := by
  have same : after.PageSwap f ↔ m.PageSwap f := by rw [Memory.PageSwap, displaced.pages, Memory.PageSwap]
  rw [Memory.references, Memory.references, displaced.refs, if_pos rfl, displaced.index, if_congr same rfl rfl]
  rcases named with maps | ⟨cached, named, some, absent⟩
  · have left := displaced.memMap (m.swap.index f >>> 8).toNat
    have present : Present pte := by
      by_contra absent
      rw [frameOf_absent absent] at maps
      cases maps
    rw [swapOf_present present] at left
    simp only [reduceCtorEq, if_false, add_zero] at left
    rw [if_pos maps, left]
    omega
  · have left := displaced.memMap (m.swap.index f >>> 8).toNat
    rw [swapOf_absent absent some, named, if_pos rfl] at left
    rw [frameOf_absent absent, if_pos cached, if_pos cached, named]
    simp only [reduceCtorEq, if_false]
    omega

theorem references_congr (swap : after.swap = m.swap) (ref : after.ref f = m.ref f) :
    after.references f = m.references f := by
  have same : after.PageSwap f ↔ m.PageSwap f := by rw [Memory.PageSwap, swap, Memory.PageSwap]
  rw [Memory.references, Memory.references, ref, if_congr same rfl rfl, swap]

theorem swapPageCount_ok (books : Books rest entries m) (f : Frame) : ∃ count,
    swapPageCount m f = .ok count ∧ m.ref f + count = m.references f := by
  rw [swapPageCount, Memory.references]
  by_cases cached : m.PageSwap f
  · refine ⟨m.swap.memMap (m.swap.index f >>> 8).toNat, ?_, by rw [if_pos cached]⟩
    rw [if_neg (not_not_intro cached), swapOffset_ok (books.cached f cached)]
    rfl
  · exact ⟨0, if_pos cached, by rw [if_neg cached]; rfl⟩

/-- A frame that was taken from the allocator and is not in use. -/
structure Spare (entries : Nat → Pte) (m : Memory) (f : Frame) : Prop where
  taken : m.free f = false
  count : m.ref f = 0
  plain : ¬ m.PageSwap f
  unmapped : ∀ page, frameOf (entries page) ≠ some f

theorem Books.spare (books : Books rest entries m) (taken : m.allocPage = (after, some f)) : Spare entries after f := by
  have reserved := reserved_allocPage taken
  obtain ⟨free, used⟩ := allocPage_some taken
  obtain ⟨none, plain⟩ := books.unused f free
  refine ⟨used, by rw [reserved.refs, none], ?_, books.unmapped free⟩
  rwa [Memory.PageSwap, reserved.swap]

theorem Spare.references (spare : Spare entries m f) : m.references f = 0 := by
  rw [Memory.references, if_neg spare.plain, spare.count]
  rfl

theorem freePage_spare (spare : Spare entries m f) : ∃ after, m.freePage f = .ok after ∧
    after.swap = m.swap ∧ after.data = m.data ∧ after.ref = m.ref ∧
    after.free = update m.free f true := by
  refine ⟨{ m with free := update m.free f true, ref := update m.ref f 0 }, ?_, rfl, rfl, ?_, rfl⟩
  · rw [Memory.freePage, ensure_bind, if_pos spare.taken]
    rfl
  · rw [← spare.count, update_eq_self]

theorem Books.of_freed (books : Books rest entries m) (plain : m.ref f = 0 ∧ ¬ m.PageSwap f)
    (swap : after.swap = m.swap) (ref : after.ref = m.ref)
    (free : after.free = update m.free f true) : Books rest entries after := by
  refine books.of_swap swap (ref ▸ books.frames) ?_
  intro g
  rw [free, ref, update_apply]
  split
  · next here => exact fun _ => here ▸ plain
  · exact books.unused g

def swapContents (m : Memory) (pte : Pte) : Contents :=
  match swapHashFind m pte with
  | some f => m.data f
  | none => m.swap.disk (pte >>> 8).toNat

/-- The references to a swap entry, from page tables and through the frame that caches it. -/
def Memory.entryReferences (m : Memory) (pte : Pte) : Int :=
  (match swapHashFind m pte with
    | some f => m.ref f
    | none => 0) + m.swap.memMap (pte >>> 8).toNat

/-- The frame now caches the swap entry. -/
structure SwappedIn (rest : Rest) (entries : Nat → Pte) (m : Memory) (pte : Pte) (f : Frame) (after : Memory) : Prop where
  free : ∀ g, after.free g = true → m.free g = true
  used : after.free f = false
  data : ∀ g, m.free g = false → after.data g = m.data g
  refs : after.ref = m.ref
  references : after.references f = m.entryReferences pte
  cached : swapHashFind after pte = some f
  pages : ∀ g, after.PageSwap g → m.PageSwap g ∨ g = f
  origin : m.free f = true ∨ swapHashFind m pte = some f
  contents : after.data f = swapContents m pte
  books : Books rest entries after

theorem named_of_found (found : swapHashFind m pte = some f) : m.PageSwap f ∧ m.swap.index f = pte :=
  ⟨mem_of_find?_eq_some found, by simpa using find?_some found⟩

theorem references_named (found : swapHashFind m pte = some f) :
    m.references f = m.ref f + m.swap.memMap (pte >>> 8).toNat := by
  obtain ⟨cached, index⟩ := named_of_found found
  rw [Memory.references, if_pos cached, index]

section
variable (books : Books rest entries m) (valid : m.HasOffset (pte >>> 8).toNat)
include books valid

theorem swapRead_spec (missing : swapHashFind m pte = none) : ∃ after ret given,
    swapRead m pte (pte >>> 8).toNat = .ok (after, ret, given) ∧
      ((given = none ∧ ret ≠ 0 ∧ Reserved m after ∧ (Plenty 1 m → m.reads.headD false = true →
        False)) ∨ ∃ f, given = some f ∧ ret = 0 ∧ SwappedIn rest entries m pte f after) := by
  obtain ⟨between, given, taken⟩ : ∃ between given, m.allocPage = (between, given) := ⟨_, _, rfl⟩
  have drew := drew_allocPage taken
  have reserved := reserved_allocPage taken
  have still : swapHashFind between pte = none := by rwa [swapHashFind, drew.swap]
  simp only [swapRead, taken, still]
  cases given with
  | none =>
    exact ⟨between, -eNoMem, none, rfl, .inl ⟨rfl, by decide, reserved, fun plenty =>
      absurd rfl (plenty.some taken).1⟩⟩
  | some f =>
    have spare := books.spare taken
    cases read : between.reads.headD false with
    | false =>
      obtain ⟨after, freed, swap, data, ref, free⟩ :=
        freePage_spare (m := { between with reads := between.reads.tail }) { spare with }
      refine ⟨after, -eSwapFault, none, ?_, .inl ⟨rfl, by decide, ⟨⟨?_, ?_, ?_⟩, ?_⟩, ?_⟩⟩
      · simp only [Bool.false_eq_true, if_false, freed]
        rfl
      · rw [swap]
        exact reserved.swap
      · intro g used
        rw [data]
        exact reserved.data g used
      · intro g
        rw [free, ref, update_apply]
        split
        · next here =>
          rw [here]
          exact .inl ⟨(allocPage_some taken).1.symm, congrFun reserved.refs f⟩
        · exact reserved.frames g
      · rw [ref]
        exact reserved.refs
      · intro _ reads
        rw [← drew.reads, read] at reads
        cases reads
    | true =>
      refine ⟨_, 0, some f, rfl, .inr ⟨f, rfl, rfl, ?_, spare.taken, ?_, reserved.refs, ?_, ?_, ?_,
        .inl (allocPage_some taken).1, ?_, ?_⟩⟩
      · exact fun g free => (reserved.unused free).1
      · intro g used
        have other : g ≠ f := by
          rintro rfl
          rw [(allocPage_some taken).1] at used
          cases used
        exact (update_of_ne other ..).trans (reserved.data g used)
      · refine (references_named (show swapHashFind _ pte = some f by simp [swapHashFind, Memory.swapPageAdd])).trans ?_
        show between.ref f + ((between.swap.memMap (pte >>> 8).toNat : Nat) : Int) = _
        rw [Memory.entryReferences, missing, spare.count, reserved.swap]
      · simp [swapHashFind, Memory.swapPageAdd]
      · intro g member
        rw [Memory.PageSwap, ← reserved.swap]
        exact (mem_cons.mp member).symm
      · rw [swapContents, missing]
        exact (update_self ..).trans (congrFun (congrArg Swap.disk reserved.swap) _)
      · have kept := books.took reserved.toTook
        refine { kept with unused := ?_, cached := ?_ }
        · intro g free
          refine ⟨(kept.unused g free).1, ?_⟩
          intro member
          rcases mem_cons.mp member with rfl | member
          · cases spare.taken.symm.trans free
          · exact (kept.unused g free).2 member
        · intro g member
          show Memory.HasOffset between (update between.swap.index f pte g >>> 8).toNat
          rw [update_apply]
          split
          · rwa [Memory.HasOffset, reserved.swap]
          · next other => exact kept.cached g ((mem_cons.mp member).resolve_left other)

theorem swapInPage_spec : ∃ after ret given, swapInPage m pte = .ok (after, ret, given) ∧
      ((given = none ∧ ret ≠ 0 ∧ Reserved m after ∧ (Plenty 1 m → m.reads.headD false = true →
        False)) ∨ ∃ f, given = some f ∧ ret = 0 ∧ SwappedIn rest entries m pte f after) := by
  rw [swapInPage, swapOffset_ok valid]
  cases found : swapHashFind m pte with
  | none => exact swapRead_spec books valid found
  | some f =>
    have cached := (named_of_found found).1
    refine ⟨m, 0, some f, rfl, .inr ⟨f, rfl, rfl, fun _ => id, books.used_of_pageSwap cached,
      fun _ _ => rfl, rfl, ?_, found, fun _ => .inl, .inr found, ?_, books⟩⟩
    · rw [references_named found, Memory.entryReferences, found]
    · rw [swapContents, found]

end

end Ucore.Pmm
