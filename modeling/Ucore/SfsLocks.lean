import Ucore.Proc
import Ucore.Lib.Machine

/-! The semaphores of SFS. The code of an operation is a regular expression over the
semaphores it takes and gives back; its words are the ways through the code. Every
`down` and every `up` is one step. -/

namespace Ucore.SfsLocks
open Lib Function

abbrev Ino := Nat

inductive Sem where
  | mutex
  | inode (ino : Ino)
  | fs
  | io
deriving Repr, DecidableEq

inductive Act where
  | down (sem : Sem)
  | up (sem : Sem)
deriving Repr, DecidableEq

abbrev Code := RegularExpression Act

def holding (sem : Sem) (body : Code) : Code := .char (.down sem) * body * .char (.up sem)

/-- Any number of `sfs_rbuf`, `sfs_wbuf`, `sfs_rblock`, `sfs_wblock` and `sfs_clear_block`. -/
def transfers : Code := (holding .io 1).star

/-- `trylock_sin` fails, before or after it has taken the semaphore. -/
def removed (ino : Ino) : Code := 1 + holding (.inode ino) 1

/-- `body` between `trylock_sin` and `unlock_sin`. -/
def locked (ino : Ino) (body : Code) : Code := removed ino + holding (.inode ino) body

def sfsLoadInode : Code := holding .fs transfers

def sfsFsync (ino : Ino) : Code := 1 + locked ino transfers

/-- The blocks of an inode without links are freed, an inode with links is written back. -/
def sfsReclaim (ino : Ino) : Code := holding .fs transfers * transfers + holding .fs (sfsFsync ino)

/-- Only the last reference is followed by a reclaim. -/
def vopRefDec (ino : Ino) : Code := 1 + sfsReclaim ino

def sfsLookupOnce (dir : Ino) : Code := removed dir + holding (.inode dir) transfers * (1 + sfsLoadInode)

/-- One component of a path, which may be `..`. -/
def sfsLookup (dir : Ino) : Code := (1 + sfsLoadInode + sfsLookupOnce dir) * vopRefDec dir

/-- An existing entry is loaded, a new inode is linked into the lists of the file system first. -/
def sfsCreate (dir ino : Ino) : Code :=
  locked dir (transfers * (1 + sfsLoadInode * (1 + vopRefDec ino) + holding .fs 1 * transfers * (1 + vopRefDec ino)))

def sfsMkdir (dir ino : Ino) : Code := locked dir (transfers * (1 + holding .fs 1 * transfers * vopRefDec ino))

def sfsLink (dir : Ino) : Code := locked dir transfers

/-- The semaphore of the entry is taken as well if it is a directory. -/
def sfsUnlink (dir ino : Ino) : Code :=
  holding .mutex (locked dir (transfers * (1 + sfsLoadInode * (1 + (transfers + locked ino transfers) * vopRefDec ino))))

def sfsRename (dir newDir ino : Ino) : Code :=
  holding .mutex (locked dir (if dir = newDir then transfers
    else locked newDir (transfers * (1 + sfsLoadInode * (1 + transfers * vopRefDec ino)))))

/-- Reading, writing, truncating and listing take the semaphore of the inode, after checks that may
fail. -/
def sfsIo (ino : Ino) : Code := 1 + locked ino transfers

/-- All inodes are written back, and then the super block and the free map. -/
def sfsSync (inodes : List Ino) : Code := holding .fs ((inodes.map sfsFsync).foldr (· * ·) 1) * transfers

/-- Unmounting is a sequence of calls of `sfs_sync`. -/
inductive Call where
  | lookup (dir : Ino)
  | create (dir ino : Ino)
  | mkdir (dir ino : Ino)
  | link (dir : Ino)
  | unlink (dir ino : Ino)
  | rename (dir newDir ino : Ino)
  | io (ino : Ino)
  | fsync (ino : Ino)
  | reclaim (ino : Ino)
  | sync (inodes : List Ino)

def Call.code : Call → Code
  | .lookup dir => sfsLookup dir
  | .create dir ino => sfsCreate dir ino
  | .mkdir dir ino => sfsMkdir dir ino
  | .link dir => sfsLink dir
  | .unlink dir ino => sfsUnlink dir ino
  | .rename dir newDir ino => sfsRename dir newDir ino
  | .io ino => sfsIo ino
  | .fsync ino => sfsFsync ino
  | .reclaim ino => sfsReclaim ino
  | .sync inodes => sfsSync inodes

/-- Who holds a semaphore, and what is left of the call of a process. -/
structure State where
  holder : Sem → Option ProcId
  rest : ProcId → List Act

/-- The semaphore that a process is about to take. -/
def State.wants (s : State) (p : ProcId) : Option Sem :=
  match s.rest p with
  | .down sem :: _ => some sem
  | _ => none

inductive Op where
  | call (p : ProcId) (c : Call) (path : List Act)
  | go (p : ProcId)

def next (s : State) : Op → State
  | .call p _ path => { s with rest := update s.rest p path }
  | .go p =>
    match s.rest p with
    | .down sem :: rest => ⟨update s.holder sem (some p), update s.rest p rest⟩
    | .up sem :: rest => ⟨update s.holder sem none, update s.rest p rest⟩
    | [] => s

/-- A call takes any way through its code, and `down` returns when the semaphore is free. -/
def Allowed (s : State) : Op → Prop
  | .call p c path => s.rest p = [] ∧ c.code.rmatch path = true
  | .go p => ∀ sem ∈ s.wants p, s.holder sem = none

instance (s : State) : (op : Op) → Decidable (Allowed s op)
  | .call p c path => inferInstanceAs (Decidable (s.rest p = [] ∧ c.code.rmatch path = true))
  | .go p => inferInstanceAs (Decidable (∀ sem ∈ s.wants p, s.holder sem = none))

def machine : Machine State Op Unit Fault where
  start s := s = ⟨fun _ => none, fun _ => []⟩
  allowed := Allowed
  step s op := pure (next s op, ())

instance (s : State) (op : Op) : Decidable (machine.allowed s op) := inferInstanceAs (Decidable (Allowed s op))

/-- The process waits for a semaphore that the other one holds. -/
def Waits (s : State) (p q : ProcId) : Prop := ∃ sem ∈ s.wants p, s.holder sem = some q

def Deadlock (s : State) : Prop := ∃ p, Relation.TransGen (Waits s) p p

end Ucore.SfsLocks
