import Ucore.Proofs.AccessCheck
import Ucore.Proofs.CopyPages

/-! What two processes see of memory while they load and store. Faults change nothing that
either of them sees. -/

namespace Ucore.Pmm
open Lib Vmm RbTree

variable {rest : Rest} {w after : World} {m : Memory} {vma : Vma} {addr : Nat} {byte : BitVec 8} {p q : Ptr} {f : Frame}
  {other : Nat}

/-- The byte that a process sees at an address, where that is determined. -/
def Shows (w : World) (addr : Nat) (byte : BitVec 8) : Prop :=
  ∃ p, Covering w addr p ∧ ¬ w.Unfilled (w.mm.vmas p) (roundDown addr) ∧ w.contents (w.mm.vmas p)
    (roundDown addr) (addr % pgSize) = byte

theorem Shows.unique {other : BitVec 8} (valid : Valid w.mm) (first : Shows w addr byte)
    (second : Shows w addr other) : byte = other := by
  obtain ⟨p, covering, _, rfl⟩ := first
  obtain ⟨q, around, _, rfl⟩ := second
  rw [covering.unique valid around]

structure Resident (w : World) : Prop where
  entries : ∀ page, swapOf (w.dir.entry page) = none
  slots : ∀ object slot, swapOf (slotEntry (w.shmems object) slot) = none

theorem absent_of_swapOf {pte : Pte} (resident : swapOf pte = none) (absent : ¬ Present pte) : pte = 0 := by
  by_contra held
  rw [swapOf_absent absent held] at resident
  cases resident

def KeepsSlots (w after : World) : Prop :=
  ∀ object slot, slotEntry (after.shmems object) slot = slotEntry (w.shmems object) slot ∨
  slotEntry (w.shmems object) slot = 0

theorem slot_of_entries {v : World} (slots : ∀ object, slotEntry (w.shmems object) = slotEntry
    (v.shmems object)) : w.slot vma addr = v.slot vma addr := by
  unfold World.slot
  cases vma.shmem with
  | none => rfl
  | some object => exact congrFun (slots object) _

theorem World.slot_held (held : frameOf (w.slot vma addr) = some f) : ∃ object slot,
    frameOf (slotEntry (w.shmems object) slot) = some f := by
  unfold World.slot at held
  cases points : vma.shmem with
  | none =>
    rw [points, frameOf_absent (show ¬ Present 0 by decide)] at held
    cases held
  | some object =>
    rw [points] at held
    exact ⟨object, _, held⟩

theorem KeepsSlots.slot (keeps : KeepsSlots w after) (present : Present (w.slot vma addr)) :
    after.slot vma addr = w.slot vma addr := by
  unfold World.slot at present ⊢
  cases points : vma.shmem with
  | none => rfl
  | some object =>
    rw [points] at present
    exact (keeps object _).resolve_right present.ne_zero

theorem KeepsSlots.held (keeps : KeepsSlots w after) (held : frameOf (w.slot vma addr) = some f) :
    frameOf (after.slot vma addr) = some f := by
  by_cases present : Present (w.slot vma addr)
  · rw [keeps.slot present, held]
  · rw [frameOf_absent present] at held
    cases held

theorem Fills.keeps (fills : Fills w after) : KeepsSlots w after :=
  fun object slot => (fills.slots object slot).imp id And.left

theorem Fills.origin {object : Ptr} {slot : Nat} (fills : Fills w after)
    (holds : frameOf (slotEntry (after.shmems object) slot) = some f) :
    frameOf (slotEntry (w.shmems object) slot) = some f ∨ w.memory.free f = true := by
  rcases fills.slots object slot with same | ⟨_, g, free, _, entry⟩
  · exact .inl (same ▸ holds)
  · rw [entry, frameOf_present (present_ptepMap g), pte2page_ptepMap, Option.some_inj] at holds
    exact .inr (holds ▸ free)

theorem Shows.keep (consistent : Consistent rest w) (resident : Resident w) (same : SameAreas w after)
    (entry : after.dir.entry (vpn addr) = w.dir.entry (vpn addr))
    (later : Later w.memory after.memory) (slots : KeepsSlots w after)
    (shows : Shows w addr byte) : Shows after addr byte := by
  obtain ⟨p, covering, filled, rfl⟩ := shows
  refine ⟨p, same.covering.mpr covering, ?_, ?_⟩
  · rintro ⟨empty, shared, missing⟩
    rw [vpn_roundDown, entry] at empty
    rw [same.vmas] at shared missing
    refine filled ⟨by rw [vpn_roundDown, empty], shared, ?_⟩
    intro present
    rw [slots.slot present] at missing
    exact missing present
  rw [same.vmas]
  refine congrFun ?_ (addr % pgSize)
  by_cases present : Present (w.dir.entry (vpn addr))
  · rw [World.contents_present (by rwa [vpn_roundDown, entry]),
      World.contents_present (by rwa [vpn_roundDown]), vpn_roundDown, entry]
    exact later.data _ (consistent.books.mapped (frameOf_present present)).2
  have empty := absent_of_swapOf (resident.entries _) present
  rw [World.contents_empty (by rw [vpn_roundDown, entry, empty]), World.contents_empty (by rw [vpn_roundDown, empty])]
  by_cases shared : (w.mm.vmas p).vmFlags &&& vmShare ≠ 0 ∧ Present (w.slot (w.mm.vmas p) (roundDown addr))
  · rw [if_pos shared, slots.slot shared.2, if_pos shared]
    exact later.data _ (consistent.slot_used shared.2)
  have own : (w.mm.vmas p).vmFlags &&& vmShare = 0 := by
    by_contra share
    exact filled ⟨by rw [vpn_roundDown, empty], share, fun slot => shared ⟨share, slot⟩⟩
  rw [if_neg shared, if_neg fun both => both.1 own]

theorem roundDown_of_vpn (low : addr < userTop) (high : other < userTop)
    (same : vpn other = vpn addr) : roundDown other = roundDown addr := by
  simp only [roundDown, vpn, pgSize, userTop] at *
  omega

theorem Covering.page (valid : Valid w.mm) (covering : Covering w addr p)
    (same : roundDown other = roundDown addr) : Covering w other p := by
  refine ⟨covering.member, ?_⟩
  have fine := valid.fine p covering.member
  have covers := covering.covers
  simp only [Fine, Span.Covers, roundDown, pgSize] at *
  omega

theorem Covering.low (valid : Valid w.mm) (covering : Covering w addr p) : addr < userTop :=
  Nat.lt_of_lt_of_le covering.covers.2 (valid.fine p covering.member).2.2.2.2

theorem Shows.served {error : BitVec 64} {perm : Perm} {cache : Option Ptr}
    (consistent : Consistent rest w) (same : SameAreas w after) (covering : Covering w addr p)
    (served : Served rest { w with mm := { w.mm with mmapCache := cache } } (w.mm.vmas p) error
      (roundDown addr) f perm after) (page : vpn other = vpn addr) (shows : Shows w other byte) :
      Shows after other byte := by
  obtain ⟨q, around, filled, rfl⟩ := shows
  have rounded := roundDown_of_vpn (covering.low consistent.areas) (around.low consistent.areas) page
  have equal := (around.page consistent.areas rounded.symm).unique consistent.areas covering
  subst equal
  have entry := served.entry
  rw [vpn_roundDown] at entry
  have here : after.dir.entry (vpn other) = mapping f perm := by rw [page, entry, Function.update_self]
  have present := here ▸ present_mapping f perm
  rw [rounded] at filled
  refine ⟨q, same.covering.mpr around, fun unfilled => present.ne_zero (vpn_roundDown other ▸ unfilled.1), ?_⟩
  rw [World.contents_present (by rwa [vpn_roundDown]), vpn_roundDown, here, pte2page_mapping,
    served.contents fun stale => filled stale.1, rounded]
  rfl

end Ucore.Pmm

namespace Ucore.ForkedSpaces
open Lib Vmm Pmm RbTree
open Function (update update_apply update_of_ne update_self)

variable {s after : State} {side : Side} {w : World} {addr : Nat} {f : Frame} {p : Ptr}

@[simp] theorem Side.other_other (side : Side) : side.other.other = side := by cases side <;> rfl

@[simp] theorem Side.other_ne (side : Side) : side.other ≠ side := by cases side <;> decide

theorem Side.both {holds : Side → Prop} (side : Side) (here : holds side) (there : holds side.other)
    (which : Side) : holds which := by
  cases side <;> cases which <;> assumption

section
variable (s) (side) (w)

theorem world_setWorld : (s.setWorld side w).world side = w := by simp only [State.world, State.setWorld, update_self]

theorem world_setWorld_other : (s.setWorld side w).world side.other = ⟨s.mm side.other,
    s.dir side.other, w.shmems, w.memory⟩ := by
      simp only [State.world, State.setWorld, update_of_ne side.other_ne]

@[simp] theorem dir_setWorld : (s.setWorld side w).dir side = w.dir := update_self ..

@[simp] theorem mm_setWorld : (s.setWorld side w).mm side = w.mm := update_self ..

@[simp] theorem mm_setWorld_other : (s.setWorld side w).mm side.other = s.mm side.other := update_of_ne side.other_ne ..

@[simp] theorem dir_setWorld_other : (s.setWorld side w).dir side.other = s.dir side.other := update_of_ne side.other_ne ..

end

/-- Both address spaces are consistent, and private pages share no frame with anything in the other
one. -/
structure Inv (s : State) : Prop where
  consistent : ∀ side, Consistent (restOf (s.dir side.other).entry) (s.world side)
  granted : ∀ side, Granted (s.world side)
  resident : ∀ side, Resident (s.world side)
  covered : ∀ side addr, addr < userTop → (s.dir side).entry (vpn addr) ≠ 0 → ∃ p, Covering (s.world side) addr p
  areas : ∀ side addr p, Covering (s.world side) addr p →
    ∃ q, Covering (s.world side.other) addr q ∧ ((s.mm side.other).vmas q).copied = ((s.mm side).vmas p).copied
  shared : ∀ side addr p f, Covering (s.world side) addr p → ((s.mm side).vmas p).vmFlags &&& vmShare ≠ 0 →
    frameOf ((s.dir side).entry (vpn addr)) = some f →
      frameOf ((s.world side).slot ((s.mm side).vmas p) (roundDown addr)) = some f
  apart : ∀ side addr p f, Covering (s.world side) addr p → ((s.mm side).vmas p).vmFlags &&& vmShare = 0 →
    frameOf ((s.dir side).entry (vpn addr)) = some f →
    (∀ page, frameOf ((s.dir side.other).entry page) ≠ some f) ∧ ∀ object slot,
      frameOf (slotEntry (s.shmems object) slot) ≠ some f

def Keeps (s after : State) : Prop := ∀ side addr byte, Shows (s.world side) addr byte → Shows (after.world side) addr byte

theorem books_flip {entries others : Nat → Pte} {m : Memory} (books : Books (restOf others) entries m)
    (finite : ∀ f, (places (frameOf ∘ others) f).Finite) (finiteSwaps : ∀ offset,
    (places (swapOf ∘ others) offset).Finite)
    (swapped : ∀ page offset, swapOf (others page) = some offset → m.swap.enabled = true ∧
      m.HasOffset offset) : Books (restOf entries) others m := by
  refine ⟨finite, ?_, books.unused, finiteSwaps, ?_, swapped, books.cached⟩
  · intro f
    have enough := books.frames f
    simp only [restOf] at enough ⊢
    omega
  · intro offset
    have enough := books.swaps offset
    simp only [restOf] at enough ⊢
    omega

theorem Inv.other_consistent (inv : Inv s) (kept : Consistent (restOf (s.dir side.other).entry) w)
    (lens : ∀ object, (w.shmems object).len = (s.shmems object).len) :
    Consistent (restOf w.dir.entry) ⟨s.mm side.other, s.dir side.other, w.shmems, w.memory⟩ := by
  have before := inv.consistent side.other
  refine ⟨before.areas, before.backed, ?_, kept.shaped, kept.slots, ?_⟩
  · intro object
    exact (lens object).trans (before.lens object)
  refine books_flip kept.books before.books.finite before.books.finiteSwaps ?_
  intro page offset held
  rw [show swapOf ((s.dir side.other).entry page) = none from (inv.resident side.other).entries page] at held
  cases held

theorem Inv.of_same (inv : Inv s) (consistent : ∀ side, Consistent (restOf (after.dir side.other).entry) (after.world side))
    (areas : ∀ side, SameAreas (s.world side) (after.world side)) (entries : ∀ side,
      (after.dir side).entry = (s.dir side).entry) (slots : ∀ object,
      slotEntry (after.shmems object) = slotEntry (s.shmems object)) : Inv after := by
  have vmas : ∀ side, (after.mm side).vmas = (s.mm side).vmas := fun side => (areas side).vmas
  refine ⟨consistent, ?_, ?_, ?_, ?_, ?_, ?_⟩
  · exact fun side => (inv.granted side).of_same (areas side) (entries side)
  · intro side
    refine ⟨fun page => ?_, fun object slot => ?_⟩
    · rw [show (after.world side).dir.entry = _ from entries side]
      exact (inv.resident side).entries page
    · rw [show slotEntry ((after.world side).shmems object) = _ from slots object]
      exact (inv.resident side).slots object slot
  · intro side addr low held
    rw [entries] at held
    exact (inv.covered side addr low held).imp fun p covering => (areas side).covering.mpr covering
  · intro side addr p covering
    obtain ⟨q, around, same⟩ := inv.areas side addr p ((areas side).covering.mp covering)
    exact ⟨q, (areas side.other).covering.mpr around, by rw [vmas, vmas, same]⟩
  · intro side addr p f covering
    rw [entries, vmas, slot_of_entries (v := s.world side) slots]
    exact inv.shared side addr p f ((areas side).covering.mp covering)
  · intro side addr p f covering
    rw [entries, vmas, entries]
    simp only [slots]
    exact inv.apart side addr p f ((areas side).covering.mp covering)

theorem Inv.keeps_same (inv : Inv s) (areas : ∀ side, SameAreas (s.world side) (after.world side))
    (entries : ∀ side, (after.dir side).entry = (s.dir side).entry)
    (slots : ∀ object, slotEntry (after.shmems object) = slotEntry (s.shmems object))
      (later : Later s.memory after.memory) : Keeps s after := by
  intro side addr byte
  refine Shows.keep (inv.consistent side) (inv.resident side) (areas side) (congrFun (entries side) _) later ?_
  exact fun object slot => .inl (congrFun (slots object) slot)

structure Mapped (s : State) (side : Side) (addr : Nat) (p : Ptr) (f : Frame) (perm : Perm) (w : World) : Prop where
  covering : Covering (s.world side) addr p
  same : SameAreas (s.world side) w
  kept : Consistent (restOf (s.dir side.other).entry) w
  granted : Granted w
  entry : w.dir.entry = update (s.dir side).entry (vpn addr) (mapping f perm)
  later : Later s.memory w.memory
  fills : Fills (s.world side) w
  shown : ∀ other byte, vpn other = vpn addr → Shows (s.world side) other byte → Shows w other byte
  own : ((s.mm side).vmas p).vmFlags &&& vmShare = 0 →
    w.shmems = s.shmems ∧ (s.memory.free f = true ∨ frameOf ((s.dir side).entry (vpn addr)) = some f)
  shared : ((s.mm side).vmas p).vmFlags &&& vmShare ≠ 0 → frameOf (w.slot ((s.mm side).vmas p) (roundDown addr)) = some f

theorem Inv.used (inv : Inv s) {page : Nat} (maps : frameOf ((s.dir side).entry page) = some f) :
    s.memory.free f = false := ((inv.consistent side).books.mapped maps).2

theorem Mapped.slot_apart {perm : Perm} {which : Side} {page : Nat} {g : Frame}
    (mapped : Mapped s side addr p f perm w) (inv : Inv s)
    (maps : frameOf ((s.dir which).entry page) = some g) (apart : ∀ object slot,
      frameOf (slotEntry (s.shmems object) slot) ≠ some g) (object : Ptr) (slot : Nat) :
      frameOf (slotEntry (w.shmems object) slot) ≠ some g := by
  intro holds
  rcases mapped.fills.origin holds with old | free
  · exact apart object slot old
  · cases (inv.used maps).symm.trans free

section
variable {perm : Perm} (mapped : Mapped s side addr p f perm w) (inv : Inv s) {other : Nat}
include mapped inv

theorem Mapped.page (low : other < userTop) (same : vpn other = vpn addr) :
    roundDown other = roundDown addr ∧ Covering (s.world side) other p := by
  have valid := (inv.consistent side).areas
  have rounded := roundDown_of_vpn (mapped.covering.low valid) low same
  exact ⟨rounded, mapped.covering.page valid rounded⟩

theorem Mapped.resident : Resident (((s.setWorld side w).world side)) := by
  rw [world_setWorld]
  refine ⟨fun page => ?_, fun object slot => ?_⟩
  · rw [mapped.entry, update_apply]
    split
    · exact swapOf_present (present_mapping f perm)
    · exact (inv.resident side).entries page
  · rcases mapped.fills.slots object slot with same | ⟨_, g, _, _, entry⟩
    · exact same ▸ (inv.resident side).slots object slot
    · exact entry ▸ swapOf_present (present_ptepMap g)

theorem Mapped.own_apart (own : ((s.mm side).vmas p).vmFlags &&& vmShare = 0) :
    (∀ page, frameOf ((s.dir side.other).entry page) ≠ some f) ∧ ∀ object slot,
    frameOf (slotEntry (w.shmems object) slot) ≠ some f := by
  obtain ⟨same, free | old⟩ := mapped.own own
  · refine ⟨fun page maps => ?_, fun object slot holds => ?_⟩
    · cases (inv.used maps).symm.trans free
    · rw [same] at holds
      cases ((inv.consistent side).slots object slot f holds).symm.trans free
  · rw [same]
    exact inv.apart side addr p f mapped.covering own old

theorem Mapped.other_apart {q : Ptr} {g : Frame} (covering : Covering (s.world side.other) other q)
    (own : ((s.mm side.other).vmas q).vmFlags &&& vmShare = 0)
    (maps : frameOf ((s.dir side.other).entry (vpn other)) = some g) : f ≠ g := by
  rintro rfl
  obtain ⟨entries, slots⟩ := inv.apart side.other other q f covering own maps
  rw [Side.other_other] at entries
  by_cases share : ((s.mm side).vmas p).vmFlags &&& vmShare = 0
  · obtain ⟨_, free | old⟩ := mapped.own share
    · cases (inv.used maps).symm.trans free
    · exact entries _ old
  · obtain ⟨object, slot, holds⟩ := World.slot_held (mapped.shared share)
    exact mapped.slot_apart inv maps slots object slot holds

theorem Mapped.consistent : ∀ which, Consistent (restOf ((s.setWorld side w).dir which.other).entry)
    ((s.setWorld side w).world which) := by
  refine Side.both side ?_ ?_
  · rw [world_setWorld, dir_setWorld_other]
    exact mapped.kept
  · rw [world_setWorld_other, Side.other_other, dir_setWorld]
    exact inv.other_consistent mapped.kept mapped.fills.lens

omit inv in
theorem Mapped.sameAreas : ∀ which, SameAreas (s.world which) ((s.setWorld side w).world which) := by
  refine Side.both side ?_ ?_
  · rw [world_setWorld]
    exact mapped.same
  · rw [world_setWorld_other]
    exact ⟨rfl, rfl⟩

theorem Mapped.entry_at {q : Ptr} (covering : Covering (s.world side) other q) :
    vpn other = vpn addr ∧ q = p ∧ roundDown other = roundDown addr ∧
    w.dir.entry (vpn other) = mapping f perm ∨
      vpn other ≠ vpn addr ∧ w.dir.entry (vpn other) = (s.dir side).entry (vpn other) := by
  by_cases same : vpn other = vpn addr
  · have valid := (inv.consistent side).areas
    obtain ⟨rounded, around⟩ := mapped.page inv (covering.low valid) same
    exact .inl ⟨same, covering.unique valid around, rounded, by rw [mapped.entry, same, update_self]⟩
  · exact .inr ⟨same, by rw [mapped.entry, update_of_ne same]⟩

theorem Mapped.sound : Inv (s.setWorld side w) := by
  have areas := mapped.sameAreas
  have vmas : ∀ which, ((s.setWorld side w).mm which).vmas = (s.mm which).vmas := fun which => (areas which).vmas
  refine ⟨mapped.consistent inv, ?_, ?_, ?_, ?_, ?_, ?_⟩
  · refine Side.both side (by rw [world_setWorld]; exact mapped.granted) ?_
    refine (inv.granted side.other).of_same (areas _) ?_
    rw [world_setWorld_other]
    rfl
  · have here := mapped.resident inv
    refine Side.both side here ⟨?_, ?_⟩
    · rw [world_setWorld_other]
      exact (inv.resident side.other).entries
    · rw [world_setWorld] at here
      exact here.slots
  · refine Side.both side ?_ ?_
    · intro other low held
      by_cases same : vpn other = vpn addr
      · exact ⟨p, (areas side).covering.mpr (mapped.page inv low same).2⟩
      · rw [dir_setWorld, mapped.entry, update_of_ne same] at held
        exact (inv.covered side other low held).imp fun _ covering => (areas side).covering.mpr covering
    · intro other low held
      rw [dir_setWorld_other] at held
      exact (inv.covered side.other other low held).imp fun _ covering => (areas side.other).covering.mpr covering
  · intro which other q covering
    obtain ⟨r, around, same⟩ := inv.areas which other q ((areas which).covering.mp covering)
    exact ⟨r, (areas which.other).covering.mpr around, by rw [vmas, vmas, same]⟩
  · refine Side.both side ?_ ?_
    · intro other q g covering share maps
      rw [(areas side).covering] at covering
      rw [vmas] at share
      rw [vmas]
      rw [dir_setWorld] at maps
      rcases mapped.entry_at inv covering with ⟨_, rfl, rounded, entry⟩ | ⟨_, entry⟩
      · rw [entry, frameOf_mapping] at maps
        rw [rounded, ← maps]
        exact mapped.shared share
      · rw [entry] at maps
        exact mapped.fills.keeps.held (inv.shared side other q g covering share maps)
    · intro other q g covering share maps
      rw [(areas side.other).covering] at covering
      rw [vmas] at share
      rw [vmas]
      rw [dir_setWorld_other] at maps
      exact mapped.fills.keeps.held (inv.shared side.other other q g covering share maps)
  · refine Side.both side ?_ ?_
    · intro other q g covering own maps
      rw [(areas side).covering] at covering
      rw [vmas] at own
      rw [dir_setWorld] at maps
      rw [dir_setWorld_other]
      rcases mapped.entry_at inv covering with ⟨_, rfl, rounded, entry⟩ | ⟨_, entry⟩
      · rw [entry, frameOf_mapping] at maps
        exact maps ▸ mapped.own_apart inv own
      · rw [entry] at maps
        obtain ⟨entries, slots⟩ := inv.apart side other q g covering own maps
        exact ⟨entries, mapped.slot_apart inv maps slots⟩
    · intro other q g covering own maps
      rw [(areas side.other).covering] at covering
      rw [vmas] at own
      rw [dir_setWorld_other] at maps
      rw [Side.other_other, dir_setWorld]
      obtain ⟨entries, slots⟩ := inv.apart side.other other q g covering own maps
      refine ⟨fun page holds => ?_, mapped.slot_apart inv maps slots⟩
      rw [mapped.entry, update_apply] at holds
      split at holds
      · rw [frameOf_mapping, Option.some_inj] at holds
        exact mapped.other_apart inv covering own maps holds
      · rw [Side.other_other] at entries
        exact entries page holds

theorem Mapped.keeps : Keeps s (s.setWorld side w) := by
  refine Side.both side ?_ ?_
  · intro other byte shows
    rw [world_setWorld]
    by_cases same : vpn other = vpn addr
    · exact mapped.shown other byte same shows
    · refine shows.keep (inv.consistent side) (inv.resident side) mapped.same ?_ mapped.later mapped.fills.keeps
      rw [mapped.entry, update_of_ne same]
      rfl
  · intro other byte shows
    rw [world_setWorld_other]
    exact shows.keep (inv.consistent side.other) (inv.resident side.other) ⟨rfl, rfl⟩ rfl mapped.later mapped.fills.keeps

end

theorem Inv.absent_shared {write : Bool} {status : BitVec 64} (inv : Inv s) (covering : Covering (s.world side) addr p)
    (accepted : ¬ World.Rejects ((s.mm side).vmas p) (status ||| 3) addr)
      (blocked : Blocked ((s.dir side).entry (vpn addr)) write)
      (share : ((s.mm side).vmas p).vmFlags &&& vmShare ≠ 0) :
      (s.dir side).entry (vpn addr) = 0 := by
  refine absent_of_swapOf ((inv.resident side).entries _) fun present => ?_
  obtain ⟨read, writes⟩ := inv.granted side addr p covering present
  have flag := write_of_permitted (permitted_of_accepted accepted) (trap_error status).2
  cases write with
  | true => exact blocked ⟨present, writes share flag⟩
  | false => exact blocked ⟨present, read⟩

theorem Inv.mapped {write : Bool} {status : BitVec 64} {cache : Option Ptr} {perm : Perm}
    (inv : Inv s) (covering : Covering (s.world side) addr p)
    (accepted : ¬ World.Rejects ((s.mm side).vmas p) (status ||| 3) addr)
      (blocked : Blocked ((s.dir side).entry (vpn addr)) write)
      (kept : Consistent (restOf (s.dir side.other).entry) w)
    (served : Served (restOf (s.dir side.other).entry)
      { s.world side with mm := { s.mm side with mmapCache := cache } } ((s.mm side).vmas p)
      (status ||| 3) (roundDown addr) f perm w) : Mapped s side addr p f perm w := by
  have same : SameAreas (s.world side) w := .of_cache served.mm
  have entry := served.entry
  rw [vpn_roundDown] at entry
  have grants := served.grants (permitted_of_accepted accepted)
  rw [vpn_roundDown] at grants
  refine ⟨covering, same, kept, ?_, entry, served.later, ⟨served.fills.slots, served.fills.shaped,
    served.fills.lens⟩, ?_, ?_, ?_⟩
  · refine (inv.granted side).of_grants same ?_ (trap_error status).2 grants
    intro page other
    rw [entry, update_of_ne other]
  · exact fun other byte page shows => shows.served (inv.consistent side) same covering served page
  · intro own
    refine ⟨served.steady own, ?_⟩
    rcases served.kept with free | named | share
    · exact .inl free
    · rw [vpn_roundDown] at named
      rcases named with maps | ⟨⟨held, absent⟩, _⟩
      · exact .inr maps
      · exact absurd (absent_of_swapOf ((inv.resident side).entries _) absent) held
    · exact absurd own share
  · exact fun share => served.shared (by rw [vpn_roundDown]; exact inv.absent_shared covering accepted blocked share) share

end Ucore.ForkedSpaces
