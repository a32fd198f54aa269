import Mathlib
import Ucore.Error
import Ucore.Fault

/-! `sysfile_read` and `sysfile_write` on regular files of SFS. Data go through a kernel
buffer of one page, and each piece can fail in the file system and in the copy to or from
user memory. -/

namespace Ucore.FileIo

abbrev Memory := Nat → UInt8

/-- `memcpy` of `n` bytes. -/
def copy (dst : Memory) (d : Nat) (src : Memory) (s n : Nat) : Memory :=
  fun a => if d ≤ a ∧ a < d + n then src (s + (a - d)) else dst a

def iobufSize : Nat := 4096
def blkSize : Nat := 4096
def maxFileSize : Nat := 1024 * 1024 * 128

/-- A file with its bytes, whichever blocks they are in. -/
structure Inode where
  size : Nat
  blocks : Nat
  bytes : Memory

structure File where
  node : Nat
  pos : Nat
  readable : Bool
  writable : Bool

def File.allows (file : File) (write : Bool) : Bool := if write then file.writable else file.readable

/-- The open descriptors, the files and the memory of the process. -/
structure State where
  files : Nat → Option File
  nodes : Nat → Inode
  user : Memory

/-- The codes that `trylock_sin`, `sfs_bmap_load_nolock` and the block functions fail with, zero for
none. -/
structure Device where
  lock : Nat
  load : Nat → Nat
  op : Nat → Nat

/-- The variables of `sfs_io_nolock`. -/
structure Transfer where
  bytes : Memory
  buf : Memory
  blocks : Nat
  blkno : Nat
  alen : Nat
  err : Nat

section
variable (dev : Device) (write : Bool)

/-- One call of `sfs_bmap_load_nolock` and of `sfs_buf_op` or `sfs_block_op`, unless an earlier one
has failed. -/
def Transfer.part (t : Transfer) (blkoff size : Nat) : Kernel Transfer :=
  if t.err ≠ 0 then pure t
  else do
    ensure (t.blkno ≤ t.blocks) "index <= din->blocks"
    if dev.load t.blkno ≠ 0 then pure { t with err := dev.load t.blkno }
    else
      let t := { t with blocks := max t.blocks (t.blkno + 1) }
      if dev.op t.blkno ≠ 0 then pure { t with err := dev.op t.blkno }
      else
        let place := t.blkno * blkSize + blkoff
        pure { t with
          bytes := if write then copy t.bytes place t.buf t.alen size else t.bytes
          buf := if write then t.buf else copy t.buf t.alen t.bytes place size
          blkno := t.blkno + 1
          alen := t.alen + size }

def Transfer.whole : Nat → Transfer → Kernel Transfer
  | 0, t => pure t
  | nblks + 1, t => do
    let t ← t.part dev write 0 blkSize
    Transfer.whole nblks t

def Transfer.first (t : Transfer) (blkoff nblks len : Nat) : Kernel Transfer :=
  if blkoff ≠ 0 then t.part dev write blkoff (if nblks ≠ 0 then blkSize - blkoff else len) else pure t

/-- What comes behind it, unless all is in one block; `size` bytes are in the last block. -/
def Transfer.rest (t : Transfer) (blkoff nblks size : Nat) : Kernel Transfer :=
  if blkoff ≠ 0 ∧ nblks = 0 then pure t
  else do
    let t ← t.whole dev write (if blkoff ≠ 0 then nblks - 1 else nblks)
    if size ≠ 0 then t.part dev write 0 size else pure t

/-- `sfs_io_nolock` gives back the inode, the buffer, the number of bytes and the error. -/
def sfsIoNolock (node : Inode) (buf : Memory) (offset len : Nat) : Kernel (Inode × Memory × Nat × Int) :=
  if offset ≥ maxFileSize then pure (node, buf, 0, -eInval)
  else if len = 0 ∨ write = false ∧ offset ≥ node.size then pure (node, buf, 0, 0)
  else do
    let endpos := if write then min (offset + len) maxFileSize else min (min (offset + len) maxFileSize) node.size
    let blkoff := offset % blkSize
    let nblks := endpos / blkSize - offset / blkSize
    let t : Transfer := ⟨node.bytes, buf, node.blocks, offset / blkSize, 0, 0⟩
    let t ← t.first dev write blkoff nblks (endpos - offset)
    let t ← t.rest dev write blkoff nblks (endpos % blkSize)
    pure (⟨max node.size (offset + t.alen), t.blocks, t.bytes⟩, t.buf, t.alen, -(t.err : Int))

/-- `file_read` and `file_write` differ in the permission and in the direction of the transfer. -/
def fileIo (s : State) (fd : Nat) (buf : Memory) (len : Nat) : Kernel (State × Memory × Nat × Int) :=
  match s.files fd with
  | none => pure (s, buf, 0, -eInval)
  | some file =>
    if file.allows write = false then pure (s, buf, 0, -eInval)
    else if dev.lock ≠ 0 then pure (s, buf, 0, -(dev.lock : Int))
    else do
      let (node, buf, copied, ret) ← sfsIoNolock dev write (s.nodes file.node) buf file.pos len
      let s := { s with
        nodes := Function.update s.nodes file.node node
        files := Function.update s.files fd (some { file with pos := file.pos + copied }) }
      pure (s, buf, copied, ret)

end

def fileRead (dev : Device) := fileIo dev false
def fileWrite (dev : Device) := fileIo dev true

section
-- What `user_mem_check` answers for a range, and what the device does from call to call.
variable (access : Nat → Nat → Bool) (devs : Nat → Device) (fd : Nat)

def readLoop : Nat → Nat → State → Memory → Nat → Nat → Nat → Kernel (State × Nat × Int)
  | 0, _, _, _, _, _, _ => throw .exhausted
  | fuel + 1, k, s, buf, base, len, copied =>
    if len = 0 then pure (s, copied, 0)
    else do
      let (s, buf, alen, ret) ← fileRead (devs k) s fd buf (min iobufSize len)
      if alen ≠ 0 ∧ access base alen = true then do
        ensure (len ≥ alen) "len >= alen"
        let s := { s with user := copy s.user base buf 0 alen }
        if ret ≠ 0 then pure (s, copied + alen, ret) else readLoop fuel (k + 1) s buf (base + alen) (len - alen) (copied + alen)
      else pure (s, copied, if alen ≠ 0 ∧ ret = 0 then -eInval else ret)

def writeLoop : Nat → Nat → State → Memory → Nat → Nat → Nat → Kernel (State × Nat × Int)
  | 0, _, _, _, _, _, _ => throw .exhausted
  | fuel + 1, k, s, buf, base, len, copied =>
    if len = 0 then pure (s, copied, 0)
    else if access base (min iobufSize len) = false then pure (s, copied, -eInval)
    else do
      let buf := copy buf 0 s.user base (min iobufSize len)
      let (s, buf, alen, ret) ← fileWrite (devs k) s fd buf (min iobufSize len)
      ensure (len ≥ alen) "len >= alen"
      if ret ≠ 0 ∨ alen = 0 then pure (s, copied + alen, ret)
      else writeLoop fuel (k + 1) s buf (base + alen) (len - alen) (copied + alen)

def fileTestfd (s : State) (write : Bool) : Bool := (s.files fd).any fun file => file.allows write

/-- The number of bytes is returned as an `int`. -/
def result (copied : Nat) (ret : Int) : Int := if copied ≠ 0 then (BitVec.ofNat 32 copied).toInt else ret

/-- What the two calls do around their loop; `memory` tells whether there is memory for the buffer.
-/
def sysfileIo (write memory : Bool) (loop : Kernel (State × Nat × Int)) (s : State) (len : Nat) : Kernel (State × Int) :=
  if len = 0 then pure (s, 0)
  else if fileTestfd fd s write = false then pure (s, -eInval)
  else if memory = false then pure (s, -eNoMem)
  else do
    let (s, copied, ret) ← loop
    pure (s, result copied ret)

/-- The buffer first holds `buf`. -/
def sysfileRead (memory : Bool) (buf : Memory) (s : State) (base len : Nat) : Kernel (State × Int) :=
  sysfileIo fd false memory (readLoop access devs fd (len + 1) 0 s buf base len 0) s len

def sysfileWrite (memory : Bool) (buf : Memory) (s : State) (base len : Nat) : Kernel (State × Int) :=
  sysfileIo fd true memory (writeLoop access devs fd (len + 1) 0 s buf base len 0) s len

end

end Ucore.FileIo
