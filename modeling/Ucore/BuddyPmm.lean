import Ucore.Fault
import Ucore.Lib.Machine
import Ucore.Lib.BuddyBlocks

/-! The buddy system behind `alloc_pages` and `free_pages`. The pages of the zone
are named by their distance from `mem_base`, which is what `page2idx` returns. -/

namespace Ucore.BuddyPmm
open Lib Function

def maxOrder : Nat := 10
def maxZoneNum : Nat := 10

/-- `reserved` and `head` are the flags `PG_reserved` and `PG_property`. -/
structure Page where
  reserved : Bool
  head : Bool
  property : Nat
  zoneNum : Nat

/-- The descriptors of the pages from `mem_base` up to `npage` lie below `limit`. -/
structure Pmm where
  pages : Nat → Page
  freeList : Nat → List Nat
  nrFree : Nat → Nat
  zoneCount : Nat
  limit : Nat

namespace Pmm

def setPage (pmm : Pmm) (p : Nat) (page : Page) : Pmm := { pmm with pages := update pmm.pages p page }

/-- `property = order; SetPageProperty; nr_free++; list_add` -/
def addBlock (pmm : Pmm) (p order : Nat) : Pmm :=
  { pmm with
    pages := update pmm.pages p { pmm.pages p with property := order, head := true }
    freeList := update pmm.freeList order (p :: pmm.freeList order)
    nrFree := update pmm.nrFree order (pmm.nrFree order + 1) }

/-- `nr_free--; list_del` -/
def removeBlock (pmm : Pmm) (p order : Nat) : Pmm :=
  { pmm with
    freeList := update pmm.freeList order ((pmm.freeList order).erase p)
    nrFree := update pmm.nrFree order (pmm.nrFree order - 1) }

def clearPageProperty (pmm : Pmm) (p : Nat) : Pmm := pmm.setPage p { pmm.pages p with head := false }

end Pmm

/-- The first loop of `buddy_init_memmap`. -/
def resetPages : Nat → Nat → Pmm → Kernel Pmm
  | 0, _, pmm => pure pmm
  | count + 1, p, pmm => do
    ensure ((pmm.pages p).reserved = true) "PageReserved(p)"
    resetPages count (p + 1) (pmm.setPage p ⟨false, false, 0, pmm.zoneCount⟩)

/-- The inner loop of `buddy_init_memmap`, which returns the pages left over. -/
def carveOrder (order : Nat) : Nat → Nat → Nat → Pmm → Kernel (Nat × Nat × Pmm)
  | 0, _, _, _ => .error .exhausted
  | fuel + 1, n, p, pmm =>
    if n ≥ 2 ^ order then carveOrder order fuel (n - 2 ^ order) (p + 2 ^ order) (pmm.addBlock p order)
    else pure (n, p, pmm)

def carve : Nat → Nat → Nat → Pmm → Kernel Pmm
  | 0, n, p, pmm => do
    let (n, _, pmm) ← carveOrder 0 (n + 1) n p pmm
    if n ≠ 0 then .error .exhausted else pure pmm
  | order + 1, n, p, pmm => do
    let (n, p, pmm) ← carveOrder (order + 1) (n + 1) n p pmm
    if n ≠ 0 then carve order n p pmm else pure pmm

def initMemmap (pmm : Pmm) (n : Nat) : Kernel Pmm := do
  ensure (n > 0 ∧ pmm.zoneCount < maxZoneNum) "n > 0 && zone_num < MAX_ZONE_NUM"
  let pmm ← resetPages n 0 pmm
  carve maxOrder n 0 { pmm with zoneCount := pmm.zoneCount + 1 }

/-- The loop of `getorder` with `more` orders to try. -/
def getorderFrom (n : Nat) : Nat → Nat → Kernel Nat
  | 0, _ => .error (.panic "getorder failed. %d\n")
  | more + 1, order => if n ≤ 2 ^ order then pure order else getorderFrom n more (order + 1)

def getorder (n : Nat) : Kernel Nat := getorderFrom n (maxOrder + 1) 0

/-- The splitting loop of `buddy_alloc_pages_sub`, from `order + more` down to `order`. -/
def splitDown (page order : Nat) : Nat → Pmm → Pmm
  | 0, pmm => pmm
  | more + 1, pmm => splitDown page order more (pmm.addBlock (page + 2 ^ (order + more)) (order + more))

/-- The search of `buddy_alloc_pages_sub` with `more` orders to try. -/
def allocFrom (order : Nat) (pmm : Pmm) : Nat → Nat → Pmm × Option Nat
  | 0, _ => (pmm, none)
  | more + 1, curOrder =>
    match pmm.freeList curOrder with
    | [] => allocFrom order pmm more (curOrder + 1)
    | page :: _ =>
      ((splitDown page order (curOrder - order) (pmm.removeBlock page curOrder)).clearPageProperty page, some page)

def allocPagesSub (pmm : Pmm) (order : Nat) : Kernel (Pmm × Option Nat) := do
  ensure (order ≤ maxOrder) "order <= MAX_ORDER"
  pure (allocFrom order pmm (maxOrder + 1 - order) order)

def PageIsBuddy (pmm : Pmm) (page order zoneNum : Nat) : Prop :=
  page < pmm.limit ∧ (pmm.pages page).zoneNum = zoneNum ∧ (pmm.pages page).reserved = false ∧
    (pmm.pages page).head = true ∧ (pmm.pages page).property = order
deriving Decidable

/-- The first loop of `buddy_free_pages_sub`. -/
def releasePages : Nat → Nat → Pmm → Kernel Pmm
  | 0, _, pmm => pure pmm
  | count + 1, p, pmm => do
    ensure ((pmm.pages p).reserved = false ∧ (pmm.pages p).head = false) "!PageReserved(p) && !PageProperty(p)"
    releasePages count (p + 1) (pmm.setPage p { pmm.pages p with reserved := false, head := false })

/-- The merging loop of `buddy_free_pages_sub`. -/
def coalesce (zoneNum : Nat) : Nat → Pmm → Nat → Nat → Kernel (Pmm × Nat × Nat)
  | 0, _, _, _ => .error .exhausted
  | fuel + 1, pmm, pageIdx, order =>
    if order < maxOrder then
      let buddyIdx := pageIdx ^^^ 2 ^ order
      if ¬ PageIsBuddy pmm buddyIdx order zoneNum then pure (pmm, pageIdx, order)
      else
        let pmm := (pmm.removeBlock buddyIdx order).clearPageProperty buddyIdx
        coalesce zoneNum fuel pmm (pageIdx &&& buddyIdx) (order + 1)
    else pure (pmm, pageIdx, order)

def freePagesSub (pmm : Pmm) (base order : Nat) : Kernel Pmm := do
  ensure (base &&& (2 ^ order - 1) = 0) "(page_idx & ((1 << order) - 1)) == 0"
  let pmm ← releasePages (2 ^ order) base pmm
  let (pmm, pageIdx, order) ← coalesce (pmm.pages base).zoneNum (maxOrder + 1) pmm base order
  pure (pmm.addBlock pageIdx order)

/-- One turn of the rising loop of `buddy_free_pages`. -/
def freeOdd (pmm : Pmm) (base n order : Nat) : Kernel (Pmm × Nat × Nat) :=
  if base &&& 2 ^ order ≠ 0 then do
    let pmm ← freePagesSub pmm base order
    pure (pmm, base + 2 ^ order, n - 2 ^ order)
  else pure (pmm, base, n)

def freeRising : Nat → Pmm → Nat → Nat → Nat → Kernel (Pmm × Nat × Nat × Nat)
  | 0, _, _, _, _ => .error .exhausted
  | fuel + 1, pmm, base, n, order =>
    if n ≥ 2 ^ order then do
      ensure (order ≤ maxOrder) "order <= MAX_ORDER"
      let (pmm, base, n) ← freeOdd pmm base n order
      freeRising fuel pmm base n (order + 1)
    else pure (pmm, base, n, order)

/-- `while (n < order_size) order--, order_size >>= 1;` -/
def lowerOrder (n : Nat) : Nat → Nat
  | 0 => 0
  | order + 1 => if n < 2 ^ (order + 1) then lowerOrder n order else order + 1

def freeFalling : Nat → Pmm → Nat → Nat → Nat → Kernel Pmm
  | 0, _, _, _, _ => .error .exhausted
  | fuel + 1, pmm, base, n, order =>
    if n ≠ 0 then do
      let order := lowerOrder n order
      let pmm ← freePagesSub pmm base order
      freeFalling fuel pmm (base + 2 ^ order) (n - 2 ^ order) order
    else pure pmm

def freePages (pmm : Pmm) (base n : Nat) : Kernel Pmm := do
  ensure (n > 0) "n > 0"
  if n = 1 then freePagesSub pmm base 0
  else do
    let (pmm, base, n, order) ← freeRising (maxOrder + 2) pmm base n 0
    freeFalling (n + 1) pmm base n order

/-- The return of the unused tail in `buddy_alloc_pages`. -/
def freeTail (pmm : Pmm) (page : Option Nat) (n order : Nat) : Kernel Pmm :=
  match page with
  | some p => if n ≠ 2 ^ order then freePages pmm (p + n) (2 ^ order - n) else pure pmm
  | none => pure pmm

def allocPages (pmm : Pmm) (n : Nat) : Kernel (Pmm × Option Nat) := do
  ensure (n > 0) "n > 0"
  let order ← getorder n
  let (pmm, page) ← allocPagesSub pmm order
  let pmm ← freeTail pmm page n order
  pure (pmm, page)

/-- The allocator with the size of its zone and the pages that callers hold. -/
structure State where
  pmm : Pmm
  size : Nat
  allocated : Nat → Bool

inductive Op where
  | initMemmap (n : Nat)
  | alloc (n : Nat)
  | free (base n : Nat)

def mark (allocated : Nat → Bool) (base n : Nat) (held : Bool) : Nat → Bool :=
  fun i => if base ≤ i ∧ i < base + n then held else allocated i

def step (state : State) : Op → Kernel (State × Option Nat)
  | .initMemmap n => do
    let pmm ← initMemmap state.pmm n
    pure ({ state with pmm, size := n }, none)
  | .alloc n => do
    let (pmm, page) ← allocPages state.pmm n
    match page with
    | some p => pure ({ state with pmm, allocated := mark state.allocated p n true }, some p)
    | none => pure ({ state with pmm }, none)
  | .free base n => do
    let pmm ← freePages state.pmm base n
    pure ({ state with pmm, allocated := mark state.allocated base n false }, none)

/-- One zone is set up, over pages that have descriptors. Requests are of at most
1024 pages, and only pages that are held are freed. -/
def Allowed (state : State) : Op → Prop
  | .initMemmap n => state.size = 0 ∧ 0 < n ∧ n ≤ state.pmm.limit
  | .alloc n => 1 ≤ n ∧ n ≤ 2 ^ maxOrder
  | .free base n => 1 ≤ n ∧ n ≤ 2 ^ maxOrder ∧ ∀ i < n, state.allocated (base + i) = true

/-- At boot `buddy_init` has run and every page is reserved. -/
def machine : Machine State Op (Option Nat) Fault where
  start state := state.size = 0 ∧ (∀ i, state.allocated i = false) ∧ (∀ order, state.pmm.freeList order = []) ∧
    (∀ order, state.pmm.nrFree order = 0) ∧ state.pmm.zoneCount = 0 ∧
    ∀ i < state.pmm.limit, (state.pmm.pages i).reserved = true
  allowed := Allowed
  step := step

end Ucore.BuddyPmm
