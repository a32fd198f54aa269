import Ucore.Error
import Ucore.Fault
import Ucore.Lib.Machine

/-! Mounting and unmounting of an SFS device. `vfs_unmount` calls `sfs_sync` and
`sfs_unmount`. Only `sfs_cleanup` looks at the inodes in memory and releases what an
instance holds, and only `vfs_cleanup` calls it, when the kernel goes down. -/

namespace Ucore.Mount
open Lib Function

/-- What `sfs_do_mount` has allocated for an instance and nobody has freed. -/
structure Resources where
  sfs : Bool
  freemap : Bool
  sfsBuffer : Bool
  hashList : Bool
deriving Repr, DecidableEq

def Resources.held : Resources := ⟨true, true, true, true⟩
def Resources.freed : Resources := ⟨false, false, false, false⟩

/-- What is mounted on the device, and of every `sfs_fs` that ever was its inodes in memory, whether
the super
block or the freemap has to be written, and its memory. -/
structure State where
  fs : Option Nat
  inodeList : Nat → List Nat
  superDirty : Nat → Bool
  resources : Nat → Resources
  count : Nat
  /-- `vfs_cleanup` has been called. -/
  down : Bool

/-- `answer` is what the device returns to `sfs_sync_super` and `sfs_sync_freemap`. -/
def sfsSync (s : State) (k : Nat) (answer : Int) : State × Int :=
  if s.superDirty k then ({ s with superDirty := update s.superDirty k (answer ≠ 0) }, answer) else (s, 0)

/-- The last `tries + 1` rounds of the loop of `sfs_unmount`. -/
def sfsUnmount (k : Nat) (answer : Nat → Int) : Nat → State → State × Int
  | 0, s => sfsSync s k (answer 0)
  | tries + 1, s =>
    let (s, ret) := sfsSync s k (answer (tries + 1))
    if ret = 0 then (s, 0) else sfsUnmount k answer tries s

/-- `mounted` is what `sfs_do_mount` returns. -/
def vfsMount (s : State) (mounted : Int) : State × Int :=
  if s.fs ≠ none then (s, -eBusy)
  else if mounted = 0 then
    ({ s with
      fs := some s.count
      inodeList := update s.inodeList s.count []
      superDirty := update s.superDirty s.count false
      resources := update s.resources s.count .held
      count := s.count + 1 }, 0)
  else (s, mounted)

def vfsUnmount (s : State) (answer : Nat → Int) : State × Int :=
  match s.fs with
  | none => (s, -eInval)
  | some k =>
    let (s, ret) := sfsSync s k (answer 32)
    if ret ≠ 0 then (s, ret)
    else
      let (s, ret) := sfsUnmount k answer 31 s
      if ret = 0 then ({ s with fs := none }, 0) else (s, ret)

def sfsCleanup (s : State) (k : Nat) : Kernel (State × Int) :=
  if s.inodeList k ≠ [] then pure (s, -eBusy)
  else do
    ensure (s.superDirty k = false) "!sfs->super_dirty"
    pure ({ s with resources := update s.resources k .freed }, 0)

/-- `vfs_cleanup`, which ignores what `sfs_cleanup` returns. -/
def vfsCleanup (s : State) : Kernel State :=
  match s.fs with
  | none => pure { s with down := true }
  | some k => do
    let (s, _) ← sfsCleanup s k
    pure { s with down := true }

inductive Op where
  | mount (mounted : Int)
  | unmount (answer : Nat → Int)
  /-- `sfs_load_inode`, from `vfs_get_root` or from a lookup through an inode of the instance. -/
  | load (k ino : Nat)
  | reclaim (k ino : Nat)
  /-- A block is taken or freed. -/
  | dirty (k : Nat)
  | cleanup

def step (s : State) : Op → Kernel (State × Int)
  | .mount mounted => pure (vfsMount s mounted)
  | .unmount answer => pure (vfsUnmount s answer)
  | .load k ino => pure ({ s with inodeList := update s.inodeList k ((s.inodeList k).insert ino) }, 0)
  | .reclaim k ino => pure ({ s with inodeList := update s.inodeList k ((s.inodeList k).erase ino) }, 0)
  | .dirty k => pure ({ s with superDirty := update s.superDirty k true }, 0)
  | .cleanup => do
    let s ← vfsCleanup s
    pure (s, 0)

/-- The instance can read and write the device. -/
def Uses (s : State) (k : Nat) : Prop := s.fs = some k ∨ s.inodeList k ≠ []

def machine : Machine State Op Int Fault where
  start s := s = ⟨none, fun _ => [], fun _ => false, fun _ => .freed, 0, false⟩
  allowed s op := s.down = false ∧ match op with
    | .load k _ | .reclaim k _ | .dirty k => Uses s k
    | _ => True
  step := step

end Ucore.Mount
