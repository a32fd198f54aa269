import Ucore.Swap
import Ucore.Lib.Pieces

/-! Page tables. A page directory has a table of `pgd` entries, a table of `pmd`
entries under each of them that is present, and a table of page entries under each
of those. All entries are indexed by the page they serve, so that a table is the
entries whose pages agree in their upper bits. -/

namespace Ucore.Pmm
open Lib Vmm Function

def nPteEntry : Nat := 512
def ptSize : Nat := pgSize * nPteEntry
def pmSize : Nat := nPteEntry * ptSize
def puSize : Nat := pmSize

/-- The page of an address: `PGX`, `PMX` and `PTX` together. -/
def vpn (la : Nat) : Nat := la / pgSize % 2 ^ 27

structure PageDir where
  pgd : Nat → Pte
  pmd : Nat → Pte
  pte : Nat → Pte

/-- The indices of the `pgd` and the `pmd` entry for a page. -/
def pgx (page : Nat) : Nat := page / nPteEntry / nPteEntry
def pmx (page : Nat) : Nat := page / nPteEntry

namespace PageDir

def Tabled (dir : PageDir) (page : Nat) : Prop := Present (dir.pgd (pgx page)) ∧ Present (dir.pmd (pmx page))
deriving Decidable

/-- The entry of a page, or zero where a table is missing. -/
def entry (dir : PageDir) (page : Nat) : Pte := if dir.Tabled page then dir.pte page else 0

def setPte (dir : PageDir) (page : Nat) (pte : Pte) : PageDir := { dir with pte := update dir.pte page pte }

def addPmd (dir : PageDir) (page : Nat) (f : Frame) : PageDir :=
  { dir with
    pgd := update dir.pgd (pgx page) (ptepMap (page2pa f))
    pmd := fun index => if index / nPteEntry = pgx page then 0 else dir.pmd index }

def addTable (dir : PageDir) (page : Nat) (f : Frame) : PageDir :=
  { dir with
    pmd := update dir.pmd (pmx page) (ptepMap (page2pa f))
    pte := fun other => if pmx other = pmx page then 0 else dir.pte other }

end PageDir

/-- `get_pmd`; the last component tells whether the pointer is not `NULL`. -/
def getPmd (dir : PageDir) (m : Memory) (page : Nat) (create : Bool) : PageDir × Memory × Bool :=
  if Present (dir.pgd (pgx page)) then (dir, m, true)
  else if create = false then (dir, m, false)
  else
    match m.allocPage with
    | (m, none) => (dir, m, false)
    | (m, some f) => (dir.addPmd page f, m.setRef f 1, true)

/-- `get_pte`, with the rest of the walk after `get_pmd`. -/
def getPte (dir : PageDir) (m : Memory) (page : Nat) (create : Bool) : PageDir × Memory × Bool :=
  match getPmd dir m page create with
  | (dir, m, false) => (dir, m, false)
  | (dir, m, true) =>
    if Present (dir.pmd (pmx page)) then (dir, m, true)
    else if create = false then (dir, m, false)
    else
      match m.allocPage with
      | (m, none) => (dir, m, false)
      | (m, some f) => (dir.addTable page f, m.setRef f 1, true)

/-- `page_ref_dec` of a mapped frame that is not in the swap space, and what follows. -/
def dropRef (m : Memory) (f : Frame) : Kernel Memory :=
  let m := m.refAdd f (-1)
  if m.ref f = 0 ∧ m.io f = false then m.freePage f else pure m

/-- `page_remove_pte` up to `ptep_unmap`: what losing an entry does to memory. -/
def pageRemovePte (m : Memory) (pte : Pte) : Kernel Memory :=
  if Present pte then
    let f := pte2page pte
    if ¬ m.PageSwap f then dropRef m f
    else
      let m := if Dirty pte then m.setPageDirty f else m
      pure (m.refAdd f (-1))
  else if pte ≠ 0 ∧ m.swap.enabled then swapRemoveEntry m pte
  else pure m

/-- What `page_insert` does to memory when an entry for `f` takes the place of `old`. -/
def displace (m : Memory) (f : Frame) (old : Pte) : Kernel Memory :=
  let m := m.refAdd f 1
  if old ≠ 0 then
    if Present old ∧ pte2page old = f then pure (m.refAdd f (-1)) else pageRemovePte m old
  else pure m

def pageInsert (dir : PageDir) (m : Memory) (f : Frame) (page : Nat) (perm : Perm) : Kernel (PageDir × Memory × Int) :=
  match getPte dir m page true with
  | (dir, m, false) => pure (dir, m, -eNoMem)
  | (dir, m, true) => do
    let m ← displace m f (dir.pte page)
    pure (dir.setPte page (mapping f perm), m, 0)

/-- `page_remove_pte` through its pointer. -/
def removeEntry (s : PageDir × Memory) (page : Nat) : Kernel (PageDir × Memory) := do
  let m ← pageRemovePte s.2 (s.1.pte page)
  pure (s.1.setPte page 0, m)

def pageRemove (dir : PageDir) (m : Memory) (page : Nat) : Kernel (PageDir × Memory) :=
  match getPte dir m page false with
  | (dir, m, false) => pure (dir, m)
  | (dir, m, true) => removeEntry (dir, m) page

def pgdirAllocPage (dir : PageDir) (m : Memory) (page : Nat) (perm : Perm) : Kernel (PageDir × Memory × Option Frame) :=
  match m.allocPage with
  | (m, none) => pure (dir, m, none)
  | (m, some f) => do
    let (dir, m, ret) ← pageInsert dir (m.setData f fun _ => 0) f page perm
    if ret ≠ 0 then do
      let m ← m.freePage f
      pure (dir, m, none)
    else pure (dir, m, some f)

/-- The loop body of `unmap_range_pte`. -/
def unmapEntry (s : PageDir × Memory) (page : Nat) : Kernel (PageDir × Memory) :=
  if s.1.pte page ≠ 0 then removeEntry s page else pure s

def unmapRangePte (s : PageDir × Memory) (base start stop : Nat) : Kernel (PageDir × Memory) := do
  ensure (start < stop ∧ stop ≤ ptSize) "start >= 0 && start < end && end <= PTSIZE"
  ensure (start % pgSize = 0 ∧ stop % pgSize = 0) "start % PGSIZE == 0 && end % PGSIZE == 0"
  (granules pgSize (base + start) (base + stop)).foldlM unmapEntry s

/-- The loop body of `unmap_range_pmd`. -/
def unmapTable (base : Nat) (s : PageDir × Memory) (piece : Piece) : Kernel (PageDir × Memory) :=
  if Present (s.1.pmd ((base + piece.la) / ptSize)) then unmapRangePte s (base + piece.la) piece.off piece.stop else pure s

def unmapRangePmd (s : PageDir × Memory) (base start stop : Nat) : Kernel (PageDir × Memory) := do
  ensure (start < stop ∧ stop ≤ pmSize) "start >= 0 && start < end && end <= PMSIZE"
  (pieces ptSize (stop - start) (start - start % ptSize) start stop).foldlM (unmapTable base) s

/-- The loop body of `unmap_range_pgd`. On this architecture `unmap_range_pud` only
calls `unmap_range_pmd`. -/
def unmapMiddle (s : PageDir × Memory) (piece : Piece) : Kernel (PageDir × Memory) :=
  if Present (s.1.pgd (piece.la / puSize)) then unmapRangePmd s piece.la piece.off piece.stop else pure s

def unmapRangePgd (s : PageDir × Memory) (start stop : Nat) : Kernel (PageDir × Memory) :=
  (pieces puSize (stop - start) (start - start % puSize) start stop).foldlM unmapMiddle s

def unmapRange (s : PageDir × Memory) (start stop : Nat) : Kernel (PageDir × Memory) := do
  ensure (start % pgSize = 0 ∧ stop % pgSize = 0) "start % PGSIZE == 0 && end % PGSIZE == 0"
  ensure (UserAccess start stop) "USER_ACCESS(start, end)"
  unmapRangePgd s start stop

/-- The body of `copy_range` for an entry that is present, once the other page
directory has a table for it. -/
def copyEntry (dir : PageDir) (m : Memory) (page : Nat) (pte : Pte) (share : Bool) : Kernel (PageDir × Memory) :=
  let perm : Perm := (pte &&& pteUser).setWidth 10
  if share then do
    let (dir, m, ret) ← pageInsert dir m (pte2page pte) page perm
    ensure (ret = 0) "ret == 0"
    pure (dir, m)
  else
    match m.allocPage with
    | (_, none) => .error (.assertion "npage!=NULL")
    | (m, some f) => do
      let (dir, m, ret) ← pageInsert dir (m.setData f (m.data (pte2page pte))) f page perm
      ensure (ret = 0) "ret == 0"
      pure (dir, m)

/-- The loop of `copy_range`. A missing table is skipped as a whole. -/
def copyRangeFrom (source : PageDir) (share : Bool) (stop : Nat) : Nat → PageDir → Memory → Nat →
    Kernel (PageDir × Memory × Int)
  | 0, _, _, _ => .error .exhausted
  | fuel + 1, dir, m, start =>
    let page := vpn start
    if ¬ source.Tabled page then next fuel dir m (start + ptSize - (start + ptSize) % ptSize)
    else if Present (source.pte page) then
      match getPte dir m page true with
      | (dir, m, false) => pure (dir, m, -eNoMem)
      | (dir, m, true) => do
        let (dir, m) ← copyEntry dir m page (source.pte page) share
        next fuel dir m (start + pgSize)
    else next fuel dir m (start + pgSize)
where
  next (fuel : Nat) (dir : PageDir) (m : Memory) (start : Nat) : Kernel (PageDir × Memory × Int) :=
    if start ≠ 0 ∧ start < stop then copyRangeFrom source share stop fuel dir m start else pure (dir, m, 0)

def copyRange (dir source : PageDir) (m : Memory) (start stop : Nat) (share : Bool) : Kernel (PageDir × Memory × Int) := do
  ensure (start % pgSize = 0 ∧ stop % pgSize = 0) "start % PGSIZE == 0 && end % PGSIZE == 0"
  ensure (UserAccess start stop) "USER_ACCESS(start, end)"
  copyRangeFrom source share stop ((stop - start) / pgSize) dir m start

end Ucore.Pmm
