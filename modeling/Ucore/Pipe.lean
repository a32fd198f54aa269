import Ucore.Fault
import Ucore.Lib.Machine

/-! Pipes. `pipe_state_read` and `pipe_state_write` are cut at their critical sections and at
their waits. Which bytes a call has moved is recorded beside the buffer. -/

namespace Ucore.Pipe
open Lib Function

/-- `PGSIZE - sizeof(struct pipe_state)` -/
def pipeBufsize : Nat := 4096 - 136

/-- The positions are 64 bits wide. -/
def word : Nat := 2 ^ 64

inductive Want where
  | read (n : Nat)
  | write (data : List UInt8)
deriving Repr, DecidableEq

inductive Place where
  | entering
  /-- After `unlock_state` and before `wait_current_set`. -/
  | parking
  | waiting
  /-- Taken from the queue with `WT_PIPE`, or woken by something else. -/
  | woken
  | interrupted
  | returned
deriving Repr, DecidableEq

/-- `got` is what a read has stored in its buffer. -/
structure Call where
  want : Want
  ret : Nat
  got : List UInt8
  place : Place
deriving Repr, DecidableEq

structure State where
  rpos : Nat
  wpos : Nat
  buf : Nat → UInt8
  isclosed : Bool
  readerQueue : List Nat
  writerQueue : List Nat
  calls : Nat → Option Call
  count : Nat
  /-- The bytes taken from writers and given to readers in order, each with its call. -/
  accepted : List (Nat × UInt8)
  returned : List (Nat × UInt8)

/-- `p_wpos - p_rpos` -/
def occupancy (s : State) : Nat := (s.wpos + word - s.rpos) % word

def isEmpty (s : State) : Bool := s.rpos = s.wpos

def isFull (s : State) : Bool := pipeBufsize ≤ occupancy s

def setCall (s : State) (id : Nat) (call : Call) : State := { s with calls := update s.calls id (some call) }

/-- A waiting call that `wakeup_queue` has come to. -/
def wake (call : Call) : Call := { call with place := .woken }

def wakeupReader (s : State) : State :=
  { s with calls := fun id => if id ∈ s.readerQueue then (s.calls id).map wake else s.calls id, readerQueue := [] }

def wakeupWriter (s : State) : State :=
  { s with calls := fun id => if id ∈ s.writerQueue then (s.calls id).map wake else s.calls id, writerQueue := [] }

def readByte (s : State) (id : Nat) : State :=
  { s with rpos := (s.rpos + 1) % word, returned := s.returned ++ [(id, s.buf (s.rpos % pipeBufsize))] }

def writeByte (s : State) (id : Nat) (byte : UInt8) : State :=
  { s with
    buf := update s.buf (s.wpos % pipeBufsize) byte
    wpos := (s.wpos + 1) % word
    accepted := s.accepted ++ [(id, byte)] }

/-- The loop of `pipe_state_read`, with the bytes it copies. -/
def readLoop (id : Nat) : Nat → State → State × List UInt8
  | 0, s => (s, [])
  | n + 1, s =>
    if isEmpty s then (s, [])
    else
      let (after, bytes) := readLoop id n (readByte s id)
      (after, s.buf (s.rpos % pipeBufsize) :: bytes)

/-- The loop of `pipe_state_write`, with what it has not written. -/
def writeLoop (id : Nat) : List UInt8 → State → State × List UInt8
  | [], s => (s, [])
  | byte :: rest, s => if isFull s then (s, byte :: rest) else writeLoop id rest (writeByte s id byte)

/-- The critical section of `pipe_state_read`. -/
def enterRead (s : State) (id : Nat) (call : Call) (n : Nat) : State :=
  if isEmpty s then
    if s.isclosed then setCall s id { call with place := .returned } else setCall s id { call with place := .parking }
  else
    let (s, bytes) := readLoop id (n - call.ret) s
    let ret := call.ret + bytes.length
    let s := if ret ≠ 0 then wakeupWriter s else s
    setCall s id { call with ret, got := call.got ++ bytes, place := .returned }

/-- The critical section of `pipe_state_write`. -/
def enterWrite (s : State) (id : Nat) (call : Call) (data : List UInt8) : State :=
  if s.isclosed then setCall s id { call with place := .returned }
  else
    let left := data.drop call.ret
    let (s, rest) := writeLoop id left s
    let call := { call with ret := call.ret + (left.length - rest.length) }
    if rest ≠ [] then setCall (wakeupReader s) id { call with place := .parking }
    else
      let s := if left ≠ [] then wakeupReader s else s
      setCall s id { call with place := .returned }

def enter (s : State) (id : Nat) (call : Call) : State :=
  match call.want with
  | .read n => enterRead s id call n
  | .write data => enterWrite s id call data

/-- `wait_current_set` -/
def park (s : State) (id : Nat) (call : Call) : State :=
  let s := setCall s id { call with place := .waiting }
  match call.want with
  | .read _ => { s with readerQueue := s.readerQueue ++ [id] }
  | .write _ => { s with writerQueue := s.writerQueue ++ [id] }

/-- `pipe_state_wait` after `schedule`. -/
def resume (s : State) (id : Nat) (call : Call) : State :=
  let s := { s with readerQueue := s.readerQueue.erase id, writerQueue := s.writerQueue.erase id }
  if call.place = .woken then setCall s id { call with place := .entering } else setCall s id
    { call with place := .returned }

inductive Op where
  | begin (want : Want)
  | enter (id : Nat)
  | park (id : Nat)
  /-- The waiting process is woken because it is killed. -/
  | interrupt (id : Nat)
  | resume (id : Nat)
  | close
deriving Repr

/-- A call that is at one of these places goes on. -/
def withCall (s : State) (id : Nat) (go : Call → State) : State :=
  match s.calls id with
  | some call => go call
  | none => s

def next (s : State) : Op → State
  | .begin want => { setCall s s.count ⟨want, 0, [], .entering⟩ with count := s.count + 1 }
  | .enter id => withCall s id (Pipe.enter s id)
  | .park id => withCall s id (Pipe.park s id)
  | .interrupt id => withCall s id fun call => setCall s id { call with place := .interrupted }
  | .resume id => withCall s id (Pipe.resume s id)
  | .close => wakeupWriter (wakeupReader { s with isclosed := true })

def step (s : State) (op : Op) : Kernel (State × Unit) := pure (next s op, ())

def At (s : State) (id : Nat) (place : Place) : Prop := (s.calls id).map Call.place = some place
deriving Decidable

def Allowed (s : State) : Op → Prop
  | .begin _ => True
  | .enter id => At s id .entering
  | .park id => At s id .parking
  | .interrupt id => At s id .waiting
  | .resume id => At s id .woken ∨ At s id .interrupted
  | .close => True

def create : State := ⟨0, 0, fun _ => 0, false, [], [], fun _ => none, 0, [], []⟩

def machine : Machine State Op Unit Fault where
  start s := s = create
  allowed := Allowed
  step := step

/-- The bytes that a call has moved. -/
def moved (s : State) (id : Nat) : Want → List UInt8
  | .read _ => (s.returned.filter fun entry => entry.1 = id).map Prod.snd
  | .write _ => (s.accepted.filter fun entry => entry.1 = id).map Prod.snd

/-- What the caller has been told, or will be told, about the bytes it moved. -/
def Counts (s : State) (id : Nat) (call : Call) : Prop :=
  call.ret = (moved s id call.want).length ∧
    match call.want with
    | .read n => call.ret ≤ n ∧ call.got = moved s id call.want
    | .write data => moved s id call.want = data.take call.ret

/-- The bytes given to readers are the first ones taken from writers, the return values count the
bytes moved, and
the buffer holds no more than it can. -/
structure Fifo (s : State) : Prop where
  stream : s.returned.map Prod.snd <+: s.accepted.map Prod.snd
  counts : ∀ id, ∀ call ∈ s.calls id, Counts s id call
  occupancy : occupancy s ≤ pipeBufsize

end Ucore.Pipe
