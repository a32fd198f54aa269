import Ucore.Memory

/-! The swap space as the page fault handler and the page tables use it. The lists of
active and inactive frames only matter to page replacement and are left out. -/

namespace Ucore.Pmm
open Function

def swapUnused : Nat := 0xFFFF
def maxSwapRef : Nat := 0xFFFE

def swapOffset (m : Memory) (entry : Pte) : Kernel Nat :=
  let offset := (entry >>> 8).toNat
  if 0 < offset ∧ offset < m.swap.maxOffset then pure offset else .error (.panic "invalid swap_entry_t = %08x.\n")

namespace Memory

def setMemMap (m : Memory) (offset count : Nat) : Memory :=
  { m with swap := { m.swap with memMap := update m.swap.memMap offset count } }

def setPageDirty (m : Memory) (f : Frame) : Memory :=
  { m with swap := { m.swap with dirty := update m.swap.dirty f true } }

/-- `swap_page_add` for a given entry. -/
def swapPageAdd (m : Memory) (f : Frame) (entry : Pte) : Memory :=
  { m with swap := { m.swap with pages := f :: m.swap.pages, index := update m.swap.index f entry } }

def swapPageDel (m : Memory) (f : Frame) : Memory := { m with swap := { m.swap with pages := m.swap.pages.erase f } }

end Memory

def swapHashFind (m : Memory) (entry : Pte) : Option Frame := m.swap.pages.find? fun f => m.swap.index f = entry

def swapFreePage (m : Memory) (f : Frame) : Kernel Memory := do
  ensure (m.PageSwap f ∧ m.ref f = 0) "PageSwap(page) && page_ref(page) == 0"
  (m.swapPageDel f).freePage f

/-- The end of `swap_remove_entry`, when the last reference from a page table has gone. -/
def swapDrop (m : Memory) (entry : Pte) (offset : Nat) : Kernel Memory :=
  match swapHashFind m entry with
  | none => pure (m.setMemMap offset swapUnused)
  | some f =>
    if m.ref f ≠ 0 then pure m
    else do
      let m ← swapFreePage m f
      pure (m.setMemMap offset swapUnused)

def swapRemoveEntry (m : Memory) (entry : Pte) : Kernel Memory := do
  let offset ← swapOffset m entry
  ensure (m.swap.memMap offset > 0) "mem_map[offset] > 0"
  let m := m.setMemMap offset (m.swap.memMap offset - 1)
  if m.swap.memMap offset = 0 then swapDrop m entry offset else pure m

def swapPageCount (m : Memory) (f : Frame) : Kernel Nat :=
  if ¬ m.PageSwap f then pure 0
  else do
    let offset ← swapOffset m (m.swap.index f)
    pure (m.swap.memMap offset)

def swapDuplicate (m : Memory) (entry : Pte) : Kernel Memory := do
  let offset ← swapOffset m entry
  ensure (m.swap.memMap offset < maxSwapRef) "mem_map[offset] >= 0 && mem_map[offset] < MAX_SWAP_REF"
  pure (m.setMemMap offset (m.swap.memMap offset + 1))

/-- `if (newpage != NULL) free_page(newpage)` -/
def freeUnused (m : Memory) (newpage : Option Frame) : Kernel Memory :=
  match newpage with
  | none => pure m
  | some f => m.freePage f

/-- `swap_in_page` for an entry that no frame caches: the frame is read from the disk.
`none` stands for the frame when the call fails. -/
def swapRead (m : Memory) (entry : Pte) (offset : Nat) : Kernel (Memory × Int × Option Frame) :=
  let (m, newpage) := m.allocPage
  match swapHashFind m entry with
  | some f => do
    let m ← freeUnused m newpage
    pure (m, 0, some f)
  | none =>
    match newpage with
    | none => pure (m, -eNoMem, none)
    | some f =>
      let reads := m.reads
      let m := { m with reads := reads.tail }
      if reads.headD false then
        pure ((m.setData f (m.swap.disk offset)).swapPageAdd f entry, 0, some f)
      else do
        let m ← m.freePage f
        pure (m, -eSwapFault, none)

def swapInPage (m : Memory) (entry : Pte) : Kernel (Memory × Int × Option Frame) := do
  let offset ← swapOffset m entry
  match swapHashFind m entry with
  | some f => pure (m, 0, some f)
  | none => swapRead m entry offset

end Ucore.Pmm
