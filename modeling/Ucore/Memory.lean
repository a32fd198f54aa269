import Ucore.Vmm

/-! Physical memory: frames with their page descriptors and contents, page table
entries, and what the allocators return during a call. -/

namespace Ucore.Pmm
open Vmm BitVec Function

/-- A frame is its number, `page2ppn(page)`. -/
abbrev Frame := BitVec 52
abbrev Pte := BitVec 64

/-- Permissions are the low ten bits of an entry. -/
abbrev Perm := BitVec 10
abbrev Contents := Nat → BitVec 8

def pteV : Pte := 0x001
def pteR : Pte := 0x002
def pteW : Pte := 0x004
def pteX : Pte := 0x008
def pteU : Pte := 0x010
def pteD : Pte := 0x080
def pteUser : Pte := pteR ||| pteW ||| pteX ||| pteU ||| pteV
def pteFlags : Pte := 0x3FF

def page2pa (f : Frame) : BitVec 64 := f.setWidth 64 <<< 12
def pteAddr (pte : Pte) : BitVec 64 := (pte &&& ~~~pteFlags) <<< 2
def pa2page (pa : BitVec 64) : Frame := (pa >>> 12).setWidth 52
def pte2page (pte : Pte) : Frame := pa2page (pteAddr pte)

def ptepMap (pa : BitVec 64) : Pte := pa >>> 2 ||| pteV

def ptepSetPerm (pte perm : Pte) : Pte := pte ||| if perm &&& pteW ≠ 0 then perm ||| pteR else perm

def Present (pte : Pte) : Prop := pte &&& pteV ≠ 0
deriving Decidable

def URead (pte : Pte) : Prop := pte &&& pteU ≠ 0 ∧ pte &&& pteR ≠ 0
deriving Decidable

def UWrite (pte : Pte) : Prop := pte &&& pteU ≠ 0 ∧ pte &&& pteW ≠ 0
deriving Decidable

def Dirty (pte : Pte) : Prop := pte &&& pteD ≠ 0
deriving Decidable

def frameOf (pte : Pte) : Option Frame := if Present pte then some (pte2page pte) else none

/-- The entry that maps a frame with some permissions. -/
def mapping (f : Frame) (perm : Perm) : Pte := ptepSetPerm (ptepMap (page2pa f)) (perm.setWidth 64)

/-- The state of the swap space. Its frames are those with `PG_swap`, in the order of
the hash lists, and `index` is the swap entry of such a frame. -/
structure Swap where
  /-- Whether the kernel is built with `UCONFIG_SWAP`. -/
  enabled : Bool
  maxOffset : Nat
  memMap : Nat → Nat
  pages : List Frame
  index : Frame → Pte
  dirty : Frame → Bool
  disk : Nat → Contents

structure Memory where
  ref : Frame → Int
  /-- The frame belongs to the allocator. -/
  free : Frame → Bool
  io : Frame → Bool
  data : Frame → Contents
  swap : Swap
  /-- What the coming calls of `alloc_page` return, where it is free. -/
  supply : List (Option Frame)
  /-- Whether the coming calls of `kmalloc` and of `swapfs_read` succeed. -/
  kmallocs : List Bool
  reads : List Bool

namespace Memory

def setRef (m : Memory) (f : Frame) (value : Int) : Memory := { m with ref := update m.ref f value }

/-- `page_ref_inc` and `page_ref_dec` -/
def refAdd (m : Memory) (f : Frame) (amount : Int) : Memory := m.setRef f (m.ref f + amount)

def setData (m : Memory) (f : Frame) (contents : Contents) : Memory := { m with data := update m.data f contents }

def PageSwap (m : Memory) (f : Frame) : Prop := f ∈ m.swap.pages
deriving Decidable

def allocPage (m : Memory) : Memory × Option Frame :=
  match m.supply with
  | [] => (m, none)
  | none :: rest => ({ m with supply := rest }, none)
  | some f :: rest =>
    if m.free f then ({ m with supply := rest, free := update m.free f false }, some f)
    else ({ m with supply := rest }, none)

/-- `free_page`. The allocator asserts that the frame is not the head of a free block;
here the assertion fails for every frame that is free already. -/
def freePage (m : Memory) (f : Frame) : Kernel Memory := do
  ensure (m.free f = false) "!PageReserved(p) && !PageProperty(p)"
  pure { m with free := update m.free f true, ref := update m.ref f 0 }

def kmalloc (m : Memory) : Memory × Bool := ({ m with kmallocs := m.kmallocs.tail }, m.kmallocs.headD false)

end Memory

@[simp] theorem getLsbD_pteFlags (i : Nat) : pteFlags.getLsbD i = decide (i < 10) := by
  rw [show pteFlags = (allOnes 10).setWidth 64 by decide, getLsbD_setWidth, getLsbD_allOnes]
  grind

variable {i : Nat}

theorem getLsbD_pte2page (small : i < 52) (pte : Pte) : (pte2page pte).getLsbD i = pte.getLsbD (10 + i) := by
  simp only [pte2page, pa2page, pteAddr, getLsbD_setWidth, getLsbD_ushiftRight, getLsbD_shiftLeft,
    getLsbD_and, getLsbD_not, getLsbD_pteFlags]
  rw [show 12 + i - 2 = 10 + i by omega]
  grind

theorem getLsbD_ptepMap (pa : BitVec 64) (i : Nat) :
    (ptepMap pa).getLsbD i = (pa.getLsbD (2 + i) || decide (i = 0)) := by
      simp [ptepMap, pteV, getLsbD_one]

theorem getLsbD_page2pa (f : Frame) (i : Nat) : (page2pa f).getLsbD (12 + i) = f.getLsbD i := by
  simp only [page2pa, getLsbD_shiftLeft, getLsbD_setWidth]
  grind

theorem getLsbD_page2pa_low (f : Frame) (low : i < 12) : (page2pa f).getLsbD i = false := by simp [page2pa, low]

theorem getLsbD_pteR (i : Nat) : pteR.getLsbD i = decide (i = 1) := by
  rw [show pteR = twoPow 64 1 by decide, getLsbD_twoPow]
  simp [eq_comm]

theorem getLsbD_mapping_low {f : Frame} {perm : Perm} (low : i < 10 := by decide) :
    (mapping f perm).getLsbD i = (decide (i = 0) || perm.getLsbD i ||
    (decide (i = 1) && perm.getLsbD 2)) := by
  have writes : (perm.setWidth 64 &&& pteW ≠ 0) ↔ perm.getLsbD 2 = true := by
    revert perm
    decide +kernel
  have address : (page2pa f).getLsbD (2 + i) = false := getLsbD_page2pa_low f (by omega)
  have small : i < 64 := by omega
  rw [mapping, ptepSetPerm, getLsbD_or, getLsbD_ptepMap, address]
  cases bit : perm.getLsbD 2 with
  | true =>
    rw [if_pos (writes.mpr bit), getLsbD_or, getLsbD_setWidth, getLsbD_pteR]
    simp [small, Bool.or_assoc]
  | false =>
    rw [if_neg (fun set => Bool.false_ne_true (bit.symm.trans (writes.mp set))), getLsbD_setWidth]
    simp [small]

theorem getLsbD_mapping_high (f : Frame) (perm : Perm) (i : Nat) : (mapping f perm).getLsbD (10 + i) = f.getLsbD i := by
  rw [mapping, ptepSetPerm, getLsbD_or, getLsbD_ptepMap, ← add_assoc, getLsbD_page2pa]
  have other : 10 + i ≠ 1 := by omega
  split <;> simp [getLsbD_pteR, other]

@[simp] theorem pte2page_mapping (f : Frame) (perm : Perm) : pte2page (mapping f perm) = f := by
  apply eq_of_getLsbD_eq
  intro i small
  rw [getLsbD_pte2page small, getLsbD_mapping_high]

theorem and_flag_ne_zero {pte flag : Pte} (single : flag = twoPow 64 i := by decide)
    (small : i < 64 := by decide) : pte &&& flag ≠ 0 ↔ pte.getLsbD i = true := by
  have some : twoPow 64 i ≠ 0 := by
    intro zero
    have bit := congrArg (fun word => word.getLsbD i) zero
    simp [small] at bit
  rw [single, and_twoPow]
  split
  · next set => exact iff_of_true some set
  · next unset => exact iff_of_false (not_not_intro rfl) unset

theorem present_iff (pte : Pte) : Present pte ↔ pte.getLsbD 0 = true := and_flag_ne_zero

theorem uRead_iff (pte : Pte) : URead pte ↔ pte.getLsbD 4 = true ∧ pte.getLsbD 1 = true :=
  and_congr (and_flag_ne_zero) (and_flag_ne_zero)

theorem uWrite_iff (pte : Pte) : UWrite pte ↔ pte.getLsbD 4 = true ∧ pte.getLsbD 2 = true :=
  and_congr (and_flag_ne_zero) (and_flag_ne_zero)

@[simp] theorem present_mapping (f : Frame) (perm : Perm) : Present (mapping f perm) := by
  rw [present_iff, getLsbD_mapping_low]
  rfl

theorem uWrite_mapping (f : Frame) (perm : Perm) : UWrite (mapping f perm) ↔ perm.getLsbD 4 = true ∧
    perm.getLsbD 2 = true := by
  rw [uWrite_iff, getLsbD_mapping_low, getLsbD_mapping_low]
  simp

theorem allocPage_cases (m : Memory) : (∃ rest, m.allocPage = ({ m with supply := rest }, none)) ∨
    ∃ rest f, m.free f = true ∧ m.supply = some f :: rest ∧
      m.allocPage = ({ m with supply := rest, free := Function.update m.free f false }, some f) := by
  cases supply : m.supply with
  | nil =>
    have same : m.allocPage = (m, none) := by simp only [Memory.allocPage, supply]
    exact .inl ⟨m.supply, same⟩
  | cons given rest =>
    cases given with
    | none => exact .inl ⟨rest, by rw [Memory.allocPage, supply]⟩
    | some f =>
      by_cases free : m.free f = true
      · exact .inr ⟨rest, f, free, rfl, by simp only [Memory.allocPage, supply, free, if_true]⟩
      · exact .inl ⟨rest, by simp only [Memory.allocPage, supply, if_neg free]⟩

theorem not_present_zero : ¬ Present 0 := by decide

variable {pte : Pte}

theorem Present.ne_zero (present : Present pte) : pte ≠ 0 := by
  rintro rfl
  exact not_present_zero present

theorem frameOf_present (present : Present pte) : frameOf pte = some (pte2page pte) := if_pos present

theorem frameOf_absent (absent : ¬ Present pte) : frameOf pte = none := if_neg absent

theorem mapping_zero (f : Frame) : mapping f 0 = ptepMap (page2pa f) := by simp [mapping, ptepSetPerm]

theorem present_ptepMap (f : Frame) : Present (ptepMap (page2pa f)) := mapping_zero f ▸ present_mapping f 0

theorem pte2page_ptepMap (f : Frame) : pte2page (ptepMap (page2pa f)) = f := mapping_zero f ▸ pte2page_mapping f 0

end Ucore.Pmm
