import Ucore.Fault
import Ucore.Lib.Machine

/-! The slab allocator. Slab descriptors and the index arrays behind them are looked up
by address; that no object lies over them is part of what is proved. The page allocator
may refuse any request. -/

namespace Ucore.Slab
open Function

abbrev Addr := Nat
abbrev PageId := Nat

def pgSize : Nat := 4096
def sizeofSlab : Nat := 48
def sizeofBufctl : Nat := 8
def bufctlEnd : Nat := 0xFFFFFFFF
def slabLimit : Nat := 0xFFFFFFFE
def minSizeOrder : Nat := 5
def maxSizeOrder : Nat := 17
def slabCacheNum : Nat := maxSizeOrder - minSizeOrder + 1
def kmallocMaxOrder : Nat := 10
def vaPaOffset : Nat := 0xFFFFFFC000000000

def page2kva (page : PageId) : Addr := page * pgSize + vaPaOffset
def kva2page (kva : Addr) : PageId := (kva - vaPaOffset) / pgSize

def roundUp (a n : Nat) : Nat := (a + n - 1) / n * n

def slabMgmtSize (num align : Nat) : Nat := roundUp (sizeofSlab + num * sizeofBufctl) align

/-- The loop of `cache_estimate` that makes room for the management area. -/
def fitObjs (objsize align slabSize : Nat) : Nat → Nat
  | 0 => 0
  | nrObjs + 1 =>
    if slabMgmtSize (nrObjs + 1) align + (nrObjs + 1) * objsize > slabSize then fitObjs objsize align slabSize nrObjs
    else nrObjs + 1

/-- The remainder and the number of objects. -/
def cacheEstimate (order objsize align : Nat) (offSlab : Bool) : Nat × Nat :=
  let slabSize := pgSize <<< order
  if offSlab then
    let nrObjs := min (slabSize / objsize) slabLimit
    (slabSize - nrObjs * objsize, nrObjs)
  else
    let nrObjs := min (fitObjs objsize align slabSize ((slabSize - sizeofSlab) / (objsize + sizeofBufctl))) slabLimit
    (slabSize - nrObjs * objsize - slabMgmtSize nrObjs align, nrObjs)

/-- The panic of `calculate_slab_order` about descriptors that do not fit in an object. -/
def checkOffSlab (objsize num : Nat) (offSlab : Bool) : Kernel Unit :=
  if offSlab ∧ num > (objsize - sizeofSlab) / sizeofBufctl then throw (.panic "off_slab: objsize = %d, num = %d.")
  else pure ()

/-- The orders from `order` on, as many as remain. Returns the number of objects, the
order and what is left over. -/
def slabOrderFrom (objsize align : Nat) (offSlab : Bool) : Nat → Nat → Kernel (Nat × Nat × Nat)
  | 0, _ => throw (.panic "calculate_slab_over: failed.")
  | remaining + 1, order =>
    let (remainder, num) := cacheEstimate order objsize align offSlab
    if num ≠ 0 then do
      checkOffSlab objsize num offSlab
      if remainder * 8 ≤ pgSize <<< order then pure (num, order, remainder)
      else slabOrderFrom objsize align offSlab remaining (order + 1)
    else slabOrderFrom objsize align offSlab remaining (order + 1)

def calculateSlabOrder (objsize align : Nat) (offSlab : Bool) : Kernel (Nat × Nat × Nat) :=
  slabOrderFrom objsize align offSlab (kmallocMaxOrder + 1) 0

def orderFrom (n : Nat) : Nat → Nat → Kernel Nat
  | 0, _ => throw (.panic "getorder failed. %d\n")
  | remaining + 1, order => if n ≤ 1 <<< order then pure order else orderFrom n remaining (order + 1)

def getorder (n : Nat) : Kernel Nat := orderFrom n slabCacheNum minSizeOrder

abbrev CacheId := Fin slabCacheNum

instance : NeZero slabCacheNum := ⟨by decide⟩

/-- `slab_cache + (order - MIN_SIZE_ORDER)` -/
def cacheOfOrder (order : Nat) : CacheId := Fin.ofNat slabCacheNum (order - minSizeOrder)

structure CacheLayout where
  objsize : Nat
  num : Nat
  offset : Nat
  offSlab : Bool
  pageOrder : Nat
  slabCachep : Option CacheId
deriving Repr, DecidableEq

structure KmemCache extends CacheLayout where
  slabsFull : List Addr
  slabsNotfull : List Addr

/-- Where the management area goes once the number of objects is known. -/
def placeMgmt (objsize num pageOrder mgmtSize leftOver : Nat) (offSlab : Bool) : Kernel CacheLayout :=
  if offSlab ∧ ¬ leftOver ≥ mgmtSize then do
    let order ← getorder mgmtSize
    pure ⟨objsize, num, 0, true, pageOrder, some (cacheOfOrder order)⟩
  else pure ⟨objsize, num, mgmtSize, false, pageOrder, none⟩

def initKmemCache (size align : Nat) : Kernel KmemCache := do
  let objsize := roundUp size align
  let offSlab : Bool := objsize ≥ pgSize >>> 3
  let (num, pageOrder, leftOver) ← calculateSlabOrder objsize align offSlab
  ensure (num > 0) "cachep->num > 0"
  let layout ← placeMgmt objsize num pageOrder (slabMgmtSize num align) leftOver offSlab
  pure { layout with slabsFull := [], slabsNotfull := [] }

inductive LockAct where
  | acquire (c : CacheId)
  | release (c : CacheId)
deriving Repr, DecidableEq

/-- What a `kmem_cache_alloc` can do to the locks of the caches: it serves the request or gets no
pages, or it grows, which may need a descriptor from another cache, and tries again. -/
inductive AllocLocks (L : CacheId → CacheLayout) : CacheId → List LockAct → Prop where
  | once (c : CacheId) : AllocLocks L c [.acquire c, .release c]
  | grow {c : CacheId} (onSlab : (L c).offSlab = false) :
      AllocLocks L c [.acquire c, .release c, .acquire c, .release c, .acquire c, .release c]
  | refused {c d : CacheId} {acts : List LockAct} (cachep : (L c).slabCachep = some d)
      (inner : AllocLocks L d acts) : AllocLocks L c ([.acquire c, .release c] ++ acts)
  | growOff {c d : CacheId} {acts : List LockAct} (cachep : (L c).slabCachep = some d)
      (inner : AllocLocks L d acts) :
      AllocLocks L c ([.acquire c, .release c] ++ acts ++ [.acquire c, .release c, .acquire c, .release c])

/-- What a `kmem_cache_free` can do to the locks. It holds its own lock while the descriptor of
a slab that it destroys is returned to another cache. -/
inductive FreeLocks (L : CacheId → CacheLayout) : CacheId → List LockAct → Prop where
  | once (c : CacheId) : FreeLocks L c [.acquire c, .release c]
  | destroy {c d : CacheId} {acts : List LockAct} (cachep : (L c).slabCachep = some d)
      (inner : FreeLocks L d acts) : FreeLocks L c ([.acquire c] ++ acts ++ [.release c])

/-- No lock is acquired while it is held. -/
def neverReacquires (held : List CacheId) : List LockAct → Bool
  | [] => true
  | .acquire c :: rest => decide (c ∉ held) && neverReacquires (c :: held) rest
  | .release c :: rest => neverReacquires (held.erase c) rest

/-- A `slab_t` with the index array behind it. -/
structure SlabT where
  sMem : Addr
  inuse : Nat
  offset : Nat
  free : Nat
  bufctl : Nat → Nat

/-- `PG_slab`, and the two pointers that `page_link` holds for a slab page. -/
structure PageInfo where
  slab : Bool
  cache : CacheId
  slabp : Addr
deriving Repr, DecidableEq

/-- `used` is the page allocator, `answers` what it would offer to the next requests, and
`usedPages` what `nr_used_pages` returns, the sum over all CPUs. -/
structure State where
  slabCache : CacheId → KmemCache
  slabs : Addr → SlabT
  pages : PageId → PageInfo
  used : PageId → Bool
  answers : List (Option PageId)
  usedPages : BitVec 64

namespace State

def setCache (s : State) (c : CacheId) (cache : KmemCache) : State := { s with slabCache := update s.slabCache c cache }

def setSlab (s : State) (slabp : Addr) (slab : SlabT) : State := { s with slabs := update s.slabs slabp slab }

def setPage (s : State) (page : PageId) (info : PageInfo) : State := { s with pages := update s.pages page info }

def mark (s : State) (page : PageId) (n : Nat) (inUse : Bool) : State :=
  { s with used := fun p => if page ≤ p ∧ p < page + n then inUse else s.used p }

/-- `list_del(&(slabp->slab_link))` takes the slab out of whatever list it is in. -/
def unlink (s : State) (slabp : Addr) : State :=
  { s with slabCache := fun c => { s.slabCache c with
      slabsFull := (s.slabCache c).slabsFull.erase slabp, slabsNotfull := (s.slabCache c).slabsNotfull.erase slabp } }

def addFull (s : State) (c : CacheId) (slabp : Addr) : State :=
  s.setCache c { s.slabCache c with slabsFull := slabp :: (s.slabCache c).slabsFull }

def addNotfull (s : State) (c : CacheId) (slabp : Addr) : State :=
  s.setCache c { s.slabCache c with slabsNotfull := slabp :: (s.slabCache c).slabsNotfull }

end State

/-- Whether `n` pages from `page` on are free. -/
def Available (s : State) (page : PageId) (n : Nat) : Prop := ∀ i < n, s.used (page + i) = false

instance (s : State) (page : PageId) (n : Nat) : Decidable (Available s page n) := inferInstanceAs (Decidable (∀ i < n, _))

/-- The pages of a request are added to the count, and the remaining answers are kept. -/
def State.count (s : State) (n : Nat) (rest : List (Option PageId)) : State :=
  { s with answers := rest, usedPages := s.usedPages + BitVec.ofNat 64 n }

/-- A request succeeds if the next answer offers free pages. `alloc_pages` counts the pages
in either case. -/
def allocPages (s : State) (n : Nat) : State × Option PageId :=
  match s.answers with
  | some page :: rest =>
    if Available s page n then ((s.mark page n true).count n rest, some page)
    else (s.count n rest, none)
  | none :: rest => (s.count n rest, none)
  | [] => (s.count n [], none)

/-- The cache has a free object, or the next answer offers the pages of a slab; where the
descriptor is an object of another cache, that cache is supplied as well. -/
def Supplied (descriptors : State → CacheId → Prop) (s : State) (c : CacheId) : Prop :=
  (s.slabCache c).slabsNotfull ≠ [] ∨
    ∃ page rest, s.answers = some page :: rest ∧ Available s page (1 <<< (s.slabCache c).pageOrder) ∧
      ∀ d, (s.slabCache c).offSlab = true → (s.slabCache c).slabCachep = some d →
        descriptors ((s.mark page (1 <<< (s.slabCache c).pageOrder) true).count
          (1 <<< (s.slabCache c).pageOrder) rest) d

/-- Descriptors come from caches that keep their own descriptors on the slab. -/
def Ready : State → CacheId → Prop := Supplied (Supplied fun _ _ => True)

def freePages (s : State) (page : PageId) (n : Nat) : State :=
  { s.mark page n false with usedPages := s.usedPages - BitVec.ofNat 64 n }

/-- The part of `kmem_cache_slabmgmt` that fills in the descriptor. -/
def startSlab (s : State) (c : CacheId) (page : PageId) (slabp : Addr) : State :=
  let offset := (s.slabCache c).offset
  s.setSlab slabp { s.slabs slabp with inuse := 0, offset, sMem := page2kva page + offset }

/-- The address of the descriptor, which for some caches is an object of another cache. -/
def mgmtAddr (allocate : State → CacheId → Kernel (State × Option Addr)) (s : State) (c : CacheId) (page : PageId) :
    Kernel (State × Option Addr) :=
  if (s.slabCache c).offSlab then
    match (s.slabCache c).slabCachep with
    | some cachep => allocate s cachep
    | none => throw (.nullPointer "cachep->slab_cachep")
  else pure (s, some (page2kva page))

def kmemCacheSlabmgmt (allocate : State → CacheId → Kernel (State × Option Addr)) (s : State)
    (c : CacheId) (page : PageId) :
    Kernel (State × Option Addr) := do
  let (s, slabp) ← mgmtAddr allocate s c page
  match slabp with
  | none => pure (s, none)
  | some slabp => pure (startSlab s c page slabp, some slabp)

/-- The loop of `kmem_cache_grow` over the pages of the slab. -/
def setSlabPages (c : CacheId) (slabp : Addr) : Nat → PageId → State → State
  | 0, _, s => s
  | n + 1, page, s => setSlabPages c slabp n (page + 1) (s.setPage page ⟨true, c, slabp⟩)

/-- The loop of `kmem_cache_grow` over the index array. -/
def fillBufctl : Nat → (Nat → Nat) → Nat → Nat
  | 0, bufctl => bufctl
  | i + 1, bufctl => update (fillBufctl i bufctl) i (i + 1)

/-- The new slab gets its pages and its index array and goes to the front of the list. -/
def linkSlab (s : State) (c : CacheId) (page : PageId) (slabp : Addr) : State :=
  let cache := s.slabCache c
  let s := setSlabPages c slabp (1 <<< cache.pageOrder) page s
  let bufctl := update (fillBufctl cache.num (s.slabs slabp).bufctl) (cache.num - 1) bufctlEnd
  (s.setSlab slabp { s.slabs slabp with bufctl, free := 0 }).addNotfull c slabp

def growFrom (allocate : State → CacheId → Kernel (State × Option Addr)) (c : CacheId) :
    State × Option PageId → Kernel (State × Bool)
  | (s, none) => pure (s, false)
  | (s, some page) => do
    let (s, slabp) ← kmemCacheSlabmgmt allocate s c page
    match slabp with
    | none => pure (freePages s page (1 <<< (s.slabCache c).pageOrder), false)
    | some slabp => pure (linkSlab s c page slabp, true)

def kmemCacheGrow (allocate : State → CacheId → Kernel (State × Option Addr)) (s : State)
    (c : CacheId) : Kernel (State × Bool) :=
  growFrom allocate c (allocPages s (1 <<< (s.slabCache c).pageOrder))

def kmemCacheAllocOne (s : State) (c : CacheId) (slabp : Addr) : State × Addr :=
  let slab := s.slabs slabp
  let objp := slab.sMem + slab.free * (s.slabCache c).objsize
  let free := slab.bufctl slab.free
  let s := s.setSlab slabp { slab with inuse := slab.inuse + 1, free }
  (if free = bufctlEnd then (s.unlink slabp).addFull c slabp else s, objp)

/-- A cache grows at most once for a request, and descriptors come from caches that keep
their own descriptors on the slab. -/
def kmemCacheAlloc : Nat → State → CacheId → Kernel (State × Option Addr)
  | 0, _, _ => throw .exhausted
  | fuel + 1, s, c =>
    match (s.slabCache c).slabsNotfull with
    | slabp :: _ =>
      let (s, objp) := kmemCacheAllocOne s c slabp
      pure (s, some objp)
    | [] => do
      let (s, grown) ← kmemCacheGrow (kmemCacheAlloc fuel) s c
      if grown then kmemCacheAlloc fuel s c else pure (s, none)

def kmalloc (s : State) (size : Nat) : Kernel (State × Option Addr) := do
  ensure (size > 0) "size > 0"
  let order ← getorder size
  if order > maxSizeOrder then pure (s, none) else kmemCacheAlloc 4 s (cacheOfOrder order)

/-- The loop of `kmem_slab_destroy` over the pages of the slab. -/
def clearSlabPages : Nat → PageId → State → Kernel State
  | 0, _, s => pure s
  | n + 1, page, s => do
    ensure ((s.pages page).slab = true) "PageSlab(p)"
    clearSlabPages n (page + 1) (s.setPage page { s.pages page with slab := false })

def releaseMgmt (release : State → CacheId → Addr → Kernel State) (s : State) (c : CacheId) (slabp : Addr) : Kernel State :=
  if (s.slabCache c).offSlab then
    match (s.slabCache c).slabCachep with
    | some cachep => release s cachep slabp
    | none => throw (.nullPointer "cachep->slab_cachep")
  else pure s

def kmemSlabDestroy (release : State → CacheId → Addr → Kernel State) (s : State) (c : CacheId)
    (slabp : Addr) : Kernel State := do
  let page := kva2page ((s.slabs slabp).sMem - (s.slabs slabp).offset)
  let n := 1 <<< (s.slabCache c).pageOrder
  let s ← clearSlabPages n page s
  releaseMgmt release (freePages s page n) c slabp

/-- The descriptor after one of its objects has been returned. -/
def SlabT.returned (slab : SlabT) (objnr : Nat) : SlabT :=
  { slab with bufctl := update slab.bufctl objnr slab.free, free := objnr, inuse := slab.inuse - 1 }

def kmemCacheFreeOne (release : State → CacheId → Addr → Kernel State) (s : State) (c : CacheId) (slabp objp : Addr) :
    Kernel State :=
  let slab := (s.slabs slabp).returned ((objp - (s.slabs slabp).sMem) / (s.slabCache c).objsize)
  let s := s.setSlab slabp slab
  if slab.inuse = 0 then kmemSlabDestroy release (s.unlink slabp) c slabp
  else if slab.inuse = (s.slabCache c).num - 1 then pure ((s.unlink slabp).addNotfull c slabp)
  else pure s

def kmemCacheFree : Nat → State → CacheId → Addr → Kernel State
  | 0, _, _, _ => throw .exhausted
  | fuel + 1, s, c, objp =>
    let page := s.pages (kva2page objp)
    if page.slab then kmemCacheFreeOne (kmemCacheFree fuel) s c page.slabp objp
    else throw (.panic "not a slab page %08x\n")

def kfree (s : State) : Option Addr → Kernel State
  | none => pure s
  | some objp => kmemCacheFree 2 s (s.pages (kva2page objp)).cache objp

structure Block where
  addr : Addr
  size : Nat
deriving Repr, DecidableEq

/-- The allocator and the objects it has given to clients. -/
structure Heap where
  state : State
  live : List Block

inductive Op where
  | kmalloc (size : Nat) (answers : List (Option PageId))
  | kfree (block : Block)
  /-- Another client of the page allocator takes or returns a page. -/
  | page (page : PageId) (inUse : Bool)

def took (heap : Heap) (size : Nat) : State × Option Addr → Heap × Option Addr
  | (s, some objp) => (⟨{ s with answers := [] }, ⟨objp, size⟩ :: heap.live⟩, some objp)
  | (s, none) => (⟨{ s with answers := [] }, heap.live⟩, none)

def step (heap : Heap) : Op → Kernel (Heap × Option Addr)
  | .kmalloc size answers => do
    let result ← kmalloc { heap.state with answers } size
    pure (took heap size result)
  | .kfree block => do
    let s ← kfree heap.state (some block.addr)
    pure (⟨{ s with answers := [] }, heap.live.erase block⟩, none)
  | .page page inUse =>
    let s := heap.state.mark page 1 inUse
    let usedPages := if inUse then s.usedPages + 1 else s.usedPages - 1
    pure ({ heap with state := { s with usedPages } }, none)

/-- Sizes are in the range of the caches, only live objects are returned, and other
clients of the page allocator keep away from slab pages. -/
def Allowed (heap : Heap) : Op → Prop
  | .kmalloc size _ => 1 ≤ size ∧ size ≤ 128 * 1024
  | .kfree block => block ∈ heap.live
  | .page page _ => (heap.state.pages page).slab = false

/-- After `slab_init`: every cache has its layout and no slabs, no page is a slab page,
and any pages may be in use. -/
def machine : Lib.Machine Heap Op (Option Addr) Fault where
  start heap := (∀ c : CacheId, initKmemCache (1 <<< (c + minSizeOrder)) 16 = .ok (heap.state.slabCache c)) ∧
    (∀ page, (heap.state.pages page).slab = false) ∧ heap.state.answers = [] ∧ heap.live = []
  allowed := Allowed
  step := step

end Ucore.Slab
