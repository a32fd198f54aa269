import Ucore.Error
import Ucore.Proc
import Ucore.Lib.Lane
import Ucore.Lib.Machine
import Ucore.Lib.Tally

/-! Mailboxes. The calls are cut where a process can sleep and between `get_mbox`, which takes no
lock, and what is done to the box. Which messages a box has accepted is recorded beside it. -/

namespace Ucore.Mbox
open Lib Function

inductive BoxState where
  | closed
  | opened
  | closing
deriving Repr, DecidableEq

/-- `struct msg_msg` with the bytes of all its segments -/
structure Msg where
  pid : ProcId
  data : List UInt8
deriving Repr, DecidableEq

def Msg.bytes (msg : Msg) : Nat := msg.data.length

/-- A message with the opening of a box that has accepted it, and its place among the messages
accepted since. -/
structure Entry where
  msg : Msg
  era : Nat
  number : Nat
deriving Repr, DecidableEq

structure Box where
  inuse : Nat
  state : BoxState
  maxSlots : Nat
  slots : Nat
  queue : List Entry
  senders : List ProcId
  receivers : List ProcId
  /-- The number of boxes that had been opened before. -/
  era : Nat
deriving Repr, DecidableEq

def Box.blank : Box := ⟨0, .closed, 0, 0, [], [], [], 0⟩

def maxMboxNum : Nat := 8192

def maxMsgSlots : Nat := 0x1000

def maxMsgBytes : Nat := 0x10000

inductive Wake where
  | interrupted
  /-- `WT_MBOX_SEND` or `WT_MBOX_RECV` -/
  | mbox
deriving Repr, DecidableEq

inductive Pc where
  | user
  /-- `ipc_mbox_send` has loaded its message, and has found the box. -/
  | loaded (id : Int) (msg : Msg)
  | sendFound (id : Nat) (msg : Msg)
  | sending (id : Nat) (msg : Msg)
  /-- `ipc_mbox_recv` has read the size of its buffer, and has found the box. -/
  | asked (id : Int) (size : Nat)
  | recvFound (id : Nat) (size : Nat)
  | receiving (id : Nat) (size : Nat)
  /-- `recv_msg` has returned the message; it could not be copied out; the box to put it back to has
  been found. -/
  | holds (id : Nat) (entry : Entry)
  | failed (id : Nat) (entry : Entry)
  | puttingBack (id : Nat) (entry : Entry)
  | freeFound (id : Nat)
deriving Repr, DecidableEq

structure State where
  boxes : Nat → Box
  /-- `free_mbox_list` and the number of pages in `mbox_map` -/
  freeList : List Nat
  pages : Nat
  pc : ProcId → Pc
  flags : ProcId → Wake
  eras : Nat
  lanes : Nat → Lane Entry
  /-- The messages that receives have returned, and those freed without. -/
  received : List Entry
  discarded : List Entry

def setPc (s : State) (p : ProcId) (pc : Pc) : State := { s with pc := update s.pc p pc }

def setBox (s : State) (id : Nat) (box : Box) : State := { s with boxes := update s.boxes id box }

def setLane (s : State) (e : Nat) (lane : Lane Entry) : State := { s with lanes := update s.lanes e lane }

/-- `wakeup_first` of the receivers. -/
def wakeupReceiver (s : State) (id : Nat) : State :=
  match (s.boxes id).receivers with
  | [] => s
  | p :: rest => { setBox s id { s.boxes id with receivers := rest } with flags := update s.flags p .mbox }

def wakeupSender (s : State) (id : Nat) : State :=
  match (s.boxes id).senders with
  | [] => s
  | p :: rest => { setBox s id { s.boxes id with senders := rest } with flags := update s.flags p .mbox }

def mboxFree (s : State) (id : Nat) : Kernel State := do
  let mbox := s.boxes id
  ensure (mbox.state = .closing ∧ mbox.inuse = 0) "mbox->state == CLOSING && mbox->inuse == 0"
  ensure (mbox.queue = []) "list_empty(&(mbox->msg_link))"
  ensure (mbox.senders = []) "wait_queue_empty(&(mbox->senders))"
  ensure (mbox.receivers = []) "wait_queue_empty(&(mbox->receivers))"
  pure { setBox s id { mbox with state := .closed, maxSlots := 0, slots := 0 } with freeList := s.freeList ++ [id] }

def addMsg (s : State) (id : Nat) (entry : Entry) (append : Bool) : Kernel State := do
  let mbox := s.boxes id
  ensure (mbox.state = .opened) "mbox->state == OPENED"
  let queue := if append then mbox.queue ++ [entry] else entry :: mbox.queue
  pure (wakeupReceiver (setBox s id { mbox with slots := mbox.slots + 1, queue }) id)

def pickMsg (s : State) (id maxBytes : Nat) : Kernel (State × Except Int Entry) := do
  let mbox := s.boxes id
  ensure (mbox.state = .opened ∧ 0 < mbox.slots) "mbox->state == OPENED && mbox->slots > 0"
  match mbox.queue with
  | [] => .error (.assertion "!list_empty(&(mbox->msg_link))")
  | entry :: rest =>
    if maxBytes < entry.msg.bytes then pure (s, .error (-eTooBig))
    else pure (wakeupSender (setBox s id { mbox with slots := mbox.slots - 1, queue := rest }) id, .ok entry)

/-- What `send_msg` and `recv_msg` do from `out` on. -/
def leave (s : State) (id : Nat) (ret : Int) : Kernel State := do
  let s := setBox s id { s.boxes id with inuse := (s.boxes id).inuse - 1 }
  if (s.boxes id).state ≠ .opened then
    ensure (ret ≠ 0 ∧ (s.boxes id).state = .closing) "ret != 0 && mbox->state == CLOSING"
    if (s.boxes id).inuse = 0 then mboxFree s id else pure s
  else pure s

inductive Reply where
  | goesOn
  | returns (ret : Int)
  /-- `ipc_mbox_recv` returns 0. -/
  | delivers (msg : Msg)
  /-- `ipc_mbox_info` returns 0. -/
  | tells (slots maxSlots : Nat) (inuse hasSender hasReceiver : Bool)
deriving Repr, DecidableEq

def ipcCheckTimeout (timedOut : Bool) : Int := if timedOut then -eTimeout else -1

def sendLoop (s : State) (p : ProcId) (id : Nat) (msg : Msg) : Kernel (State × Reply) := do
  let mbox := s.boxes id
  if mbox.maxSlots ≤ mbox.slots then
    ensure (mbox.state = .opened) "mbox->state == OPENED"
    pure ({ setBox s id { mbox with senders := mbox.senders ++ [p] } with flags := update s.flags p .interrupted }, .goesOn)
  else
    ensure (mbox.state = .opened ∧ mbox.slots < mbox.maxSlots) "mbox->state == OPENED && mbox->max_slots > mbox->slots"
    let lane := s.lanes mbox.era
    let entry : Entry := ⟨msg, mbox.era, lane.accepted.length⟩
    let s ← addMsg s id entry true
    let s ← leave s id 0
    pure (setPc (setLane s mbox.era (lane.accept entry)) p .user, .returns 0)

def recvLoop (s : State) (p : ProcId) (id size : Nat) : Kernel (State × Reply) := do
  let mbox := s.boxes id
  if mbox.slots = 0 then
    ensure (mbox.state = .opened) "mbox->state == OPENED"
    pure ({ setBox s id { mbox with receivers := mbox.receivers ++ [p] } with
      flags := update s.flags p .interrupted }, .goesOn)
  else
    ensure (mbox.state = .opened ∧ 0 < mbox.slots) "mbox->state == OPENED && mbox->slots > 0"
    ensure (mbox.queue ≠ []) "!list_empty(&(mbox->msg_link))"
    let (s, picked) ← pickMsg s id size
    match picked with
    | .error ret => do
      let s ← leave (wakeupReceiver s id) id ret
      pure (setPc s p .user, .returns ret)
    | .ok entry => do
      let s ← leave s id 0
      pure (setPc (setLane s mbox.era (s.lanes mbox.era).leave) p (.holds id entry), .goesOn)

/-- What a call reads from user memory first. -/
inductive CopyIn (α : Type) where
  | reads (value : α)
  | fails (ret : Int)
deriving Repr

inductive Op where
  | init (p : ProcId) (maxSlots : Nat) (page : Bool)
  | send (p : ProcId) (id : Int) (data : CopyIn (List UInt8))
  | sendLookup (p : ProcId)
  | sendEnter (p : ProcId)
  /-- Awake again, also because of a timer or of a signal. -/
  | sendResume (p : ProcId) (timedOut : Bool)
  | recv (p : ProcId) (id : Int) (size : CopyIn Nat)
  | recvLookup (p : ProcId)
  | recvEnter (p : ProcId)
  | recvResume (p : ProcId) (timedOut : Bool)
  | copyOut (p : ProcId) (copied : Bool)
  /-- `get_mbox` for a message that could not be copied out. -/
  | backLookup (p : ProcId)
  | putBack (p : ProcId)
  | free (p : ProcId) (id : Int)
  | freeEnter (p : ProcId)
  | info (p : ProcId) (id : Int) (copied : Bool)
deriving Repr

-- `MBOX_P_PAGE`
variable (perPage : Nat)

def maxMboxPages : Nat := (maxMboxNum + perPage - 1) / perPage

def getMbox (s : State) (id : Int) : Option Nat :=
  if 0 ≤ id ∧ id.toNat < maxMboxNum ∧ id.toNat / perPage < s.pages ∧ (s.boxes id.toNat).state =
    .opened then some id.toNat else none

/-- A new page of boxes, if there is none to be had. -/
def growMap (s : State) (page : Bool) : Option State :=
  if s.freeList = [] then
    if s.pages = maxMboxPages perPage ∨ page = false then none
    else some { s with
      boxes := fun id => if id / perPage = s.pages then .blank else s.boxes id
      freeList := List.range' (s.pages * perPage) perPage
      pages := s.pages + 1 }
  else some s

def newMbox (s : State) (maxSlots : Nat) (page : Bool) : Kernel (State × Option Nat) :=
  match growMap perPage s page with
  | none => pure (s, none)
  | some s =>
    match s.freeList with
    | [] => .error (.assertion "!list_empty(&free_mbox_list)")
    | id :: rest =>
      pure ({ setBox s id { s.boxes id with state := .opened, maxSlots, queue := [], era := s.eras } with
        freeList := rest, eras := s.eras + 1 }, some id)

def ipcMboxInit (s : State) (maxSlots : Nat) (page : Bool) : Kernel (State × Reply) :=
  if maxSlots = 0 ∨ maxMsgSlots < maxSlots then pure (s, .returns (-eInval))
  else do
    let (s, mbox) ← newMbox perPage s maxSlots page
    match mbox with
    | some id => pure (s, .returns id)
    | none => pure (s, .returns (-eNoMem))

/-- A user of a box gets into `send_msg` or `recv_msg`. -/
def enter (s : State) (p : ProcId) (id : Nat) (pc : Pc) : State :=
  setPc (setBox s id { s.boxes id with inuse := (s.boxes id).inuse + 1 }) p pc

/-- The end of a call that was woken for something else than a message or a slot. -/
def giveUp (s : State) (p : ProcId) (id : Nat) (timedOut : Bool) : Kernel (State × Reply) := do
  let s ← leave s id (-1)
  pure (setPc s p .user, .returns (ipcCheckTimeout timedOut))

/-- The rest of `ipc_mbox_free`. A closed box has its link in the list of free boxes. -/
def closeBox (s : State) (id : Nat) : Kernel State := do
  let mbox := s.boxes id
  if mbox.state = .closed then .error (.misread "free_msg(le2msg(le, msg_link))")
  let s := { setBox s id { mbox with state := .closing, queue := [], senders := [], receivers := [] } with
    flags := fun p => if p ∈ mbox.senders ∨ p ∈ mbox.receivers then .interrupted else s.flags p
    discarded := s.discarded ++ mbox.queue }
  let s := setLane s mbox.era (s.lanes mbox.era).clear
  if (s.boxes id).inuse = 0 then mboxFree s id else pure s

def step (s : State) : Op → Kernel (State × Reply)
  | .init _ maxSlots page => ipcMboxInit perPage s maxSlots page
  | .send p id data =>
    match getMbox perPage s id, data with
    | none, _ => pure (s, .returns (-eInval))
    | some _, .fails ret => pure (s, .returns ret)
    | some _, .reads data => pure (setPc s p (.loaded id ⟨p, data⟩), .goesOn)
  | .sendLookup p =>
    match s.pc p with
    | .loaded id msg =>
      match getMbox perPage s id with
      | none => pure (setPc s p .user, .returns (-eInval))
      | some mbox => pure (setPc s p (.sendFound mbox msg), .goesOn)
    | _ => pure (s, .goesOn)
  | .sendEnter p =>
    match s.pc p with
    | .sendFound id msg => sendLoop (enter s p id (.sending id msg)) p id msg
    | _ => pure (s, .goesOn)
  | .sendResume p timedOut =>
    match s.pc p with
    | .sending id msg =>
      let s := setBox s id { s.boxes id with senders := (s.boxes id).senders.erase p }
      if (s.boxes id).state ≠ .opened ∨ s.flags p ≠ .mbox then giveUp s p id timedOut else sendLoop s p id msg
    | _ => pure (s, .goesOn)
  | .recv p id size =>
    match getMbox perPage s id, size with
    | none, _ => pure (s, .returns (-eInval))
    | some _, .fails ret => pure (s, .returns ret)
    | some _, .reads size => pure (setPc s p (.asked id size), .goesOn)
  | .recvLookup p =>
    match s.pc p with
    | .asked id size =>
      match getMbox perPage s id with
      | none => pure (setPc s p .user, .returns (-eInval))
      | some mbox => pure (setPc s p (.recvFound mbox size), .goesOn)
    | _ => pure (s, .goesOn)
  | .recvEnter p =>
    match s.pc p with
    | .recvFound id size => recvLoop (enter s p id (.receiving id size)) p id size
    | _ => pure (s, .goesOn)
  | .recvResume p timedOut =>
    match s.pc p with
    | .receiving id size =>
      let s := setBox s id { s.boxes id with receivers := (s.boxes id).receivers.erase p }
      if (s.boxes id).state ≠ .opened ∨ s.flags p ≠ .mbox then giveUp s p id timedOut else recvLoop s p id size
    | _ => pure (s, .goesOn)
  | .copyOut p copied =>
    match s.pc p with
    | .holds id entry =>
      if copied then pure (setPc { s with received := s.received ++ [entry] } p .user, .delivers entry.msg)
      else pure (setPc s p (.failed id entry), .goesOn)
    | _ => pure (s, .goesOn)
  | .backLookup p =>
    match s.pc p with
    | .failed id entry =>
      match getMbox perPage s id with
      | none => pure (setPc { s with discarded := s.discarded ++ [entry] } p .user, .returns (-eInval))
      | some mbox => pure (setPc s p (.puttingBack mbox entry), .goesOn)
    | _ => pure (s, .goesOn)
  | .putBack p =>
    match s.pc p with
    | .puttingBack id entry => do
      let e := (s.boxes id).era
      let s ← addMsg s id entry false
      pure (setPc (setLane s e (s.lanes e).back) p .user, .returns (-eInval))
    | _ => pure (s, .goesOn)
  | .free p id =>
    match getMbox perPage s id with
    | none => pure (s, .returns (-eInval))
    | some mbox => pure (setPc s p (.freeFound mbox), .goesOn)
  | .freeEnter p =>
    match s.pc p with
    | .freeFound id => do
      let s ← closeBox s id
      pure (setPc s p .user, .returns 0)
    | _ => pure (s, .goesOn)
  | .info _ id copied =>
    match getMbox perPage s id with
    | none => pure (s, .returns (-eInval))
    | some mbox =>
      let box := s.boxes mbox
      if copied then pure (s, .tells box.slots box.maxSlots (box.inuse ≠ 0) (box.senders ≠ []) (box.receivers ≠ []))
      else pure (s, .returns (-eInval))

/-- A process goes on where it is; what it has read is as `ipc_mbox_send` and `ipc_mbox_recv` check
it. -/
def Allowed (s : State) : Op → Prop
  | .init p _ _ | .free p _ | .info p _ _ => s.pc p = .user
  | .send p _ data => s.pc p = .user ∧ ∀ bytes, data = .reads bytes → 0 < bytes.length ∧ bytes.length ≤ maxMsgBytes
  | .recv p _ size => s.pc p = .user ∧ size ≠ .reads 0
  | .sendLookup p => ∃ id msg, s.pc p = .loaded id msg
  | .sendEnter p => ∃ id msg, s.pc p = .sendFound id msg
  | .sendResume p _ => ∃ id msg, s.pc p = .sending id msg
  | .recvLookup p => ∃ id size, s.pc p = .asked id size
  | .recvEnter p => ∃ id size, s.pc p = .recvFound id size
  | .recvResume p _ => ∃ id size, s.pc p = .receiving id size
  | .copyOut p _ => ∃ id entry, s.pc p = .holds id entry
  | .backLookup p => ∃ id entry, s.pc p = .failed id entry
  | .putBack p => ∃ id entry, s.pc p = .puttingBack id entry
  | .freeEnter p => ∃ id, s.pc p = .freeFound id

def boot : State where
  boxes _ := .blank
  freeList := []
  pages := 0
  pc _ := .user
  flags _ := .interrupted
  eras := 0
  lanes _ := .empty
  received := []
  discarded := []

/-- `mbox_init` refuses to compile when no box fits on a page. -/
def machine : Machine State Op Reply Fault where
  start s := s = boot ∧ 0 < perPage
  allowed := Allowed
  step := step perPage

/-- The message that a receive has taken and not yet returned. -/
def State.hand (s : State) (p : ProcId) : Option Entry :=
  match s.pc p with
  | .holds _ entry | .failed _ entry | .puttingBack _ entry => some entry
  | _ => none

def State.openAt (s : State) (e : Nat) : Prop := ∃ id, (s.boxes id).state = .opened ∧ (s.boxes id).era = e

/-- Messages wait in the order in which they were accepted. Each one that has left is received once,
on its way to a receive, or
discarded after its box was freed. -/
structure Delivers (s : State) : Prop where
  fifo : ∀ id, (s.boxes id).state ≠ .closed → (s.boxes id).queue = (s.lanes (s.boxes id).era).waiting
  distinct : ∀ e, (s.lanes e).accepted.Nodup ∧ ∀ x ∈ (s.lanes e).accepted, x.era = e
  once : ∀ x, s.received.count x + s.discarded.count x + tally s.hand x = (s.lanes x.era).gone.count x
  idle : ∀ e, ¬ s.openAt e → (s.lanes e).waiting = []
  discarded : ∀ x ∈ s.discarded, ¬ s.openAt x.era

/-- What can be read off a box. -/
structure Box.Sound (box : Box) : Prop where
  bounded : box.slots ≤ box.maxSlots
  counted : box.state ≠ .closing → box.slots = box.queue.length
  closed : box.state = .closed → box.queue = [] ∧ box.inuse = 0 ∧ box.senders = [] ∧ box.receivers = []

end Ucore.Mbox
