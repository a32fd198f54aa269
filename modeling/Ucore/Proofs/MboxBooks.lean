import Ucore.Mbox

/-! What mailboxes, their users and their messages have to do with each other, one part at a
time. A step changes one box, the record of the messages it has accepted, and one process. -/

namespace Ucore.Mbox
open Lib Function List

variable {strict : Prop} {perPage : Nat} {s t : State} {p : ProcId} {id e : Nat} {box : Box} {lane : Lane Entry} {x : Entry}

/-- A box with the messages that should wait in it. A box that was closed with messages in it counts
them on, unless nobody used it. -/
structure Box.Shape (strict : Prop) (box : Box) (waiting : List Entry) : Prop where
  opened : box.state = .opened → box.queue = waiting ∧ box.slots = box.queue.length
  unopened : box.state ≠ .opened → box.queue = [] ∧ box.senders = [] ∧ box.receivers = []
  closing : strict → box.state = .closing → box.slots = 0
  closed : box.state = .closed → box.slots = 0 ∧ box.inuse = 0
  bounded : box.slots ≤ box.maxSlots

/-- The box in which a process is in `send_msg` or `recv_msg`. -/
def Pc.inside : Pc → Option Nat
  | .sending id _ | .receiving id _ => some id
  | _ => none

/-- A message in the hands of a process, with the box it was taken from. -/
def Pc.home : Pc → Option (Nat × Entry)
  | .holds id entry | .failed id entry | .puttingBack id entry => some (id, entry)
  | _ => none

def Pc.place : Pc → Option Nat
  | .sendFound id _ | .sending id _ | .recvFound id _ | .receiving id _ | .holds id _ | .failed id
      _ | .puttingBack id _ | .freeFound id => some id
  | _ => none

def State.inside (s : State) (p : ProcId) : Option Nat := (s.pc p).inside

theorem hand_eq (s : State) (p : ProcId) : s.hand p = (s.pc p).home.map Prod.snd := by
  unfold State.hand
  cases s.pc p <;> rfl

structure Users (s : State) : Prop where
  finite : ∀ id, (places s.inside id).Finite
  count : ∀ id, (s.boxes id).inuse = tally s.inside id

structure Pool (perPage : Nat) (s : State) : Prop where
  known : ∀ id, (s.boxes id).state ≠ .closed → id / perPage < s.pages ∧ (s.boxes id).era < s.eras
  apart : ∀ id id', (s.boxes id).state ≠ .closed → (s.boxes id').state ≠ .closed →
    (s.boxes id).era = (s.boxes id').era → id = id'
  free : ∀ id ∈ s.freeList, (s.boxes id).state = .closed ∧ id / perPage < s.pages
  nodup : s.freeList.Nodup

structure Ledger (s : State) : Prop where
  numbered : ∀ e k (x : Entry), (s.lanes e).accepted[k]? = some x → x.era = e ∧ x.number = k
  unborn : ∀ e, s.eras ≤ e → (s.lanes e).accepted = []
  finite : ∀ x, (places s.hand x).Finite
  once : ∀ x, s.received.count x + s.discarded.count x + tally s.hand x = (s.lanes x.era).gone.count x
  idle : ∀ e, ¬ s.openAt e → (s.lanes e).waiting = []
  discarded : ∀ x ∈ s.discarded, ¬ s.openAt x.era

structure Homes (s : State) : Prop where
  home : ∀ p id x, (s.pc p).home = some (id, x) → ∀ other, (s.boxes other).state = .opened →
    (s.boxes other).era = x.era → other = id
  within : ∀ p id, (s.pc p).place = some id → id < maxMboxNum

/-- What a process that goes to a place has to keep of the messages in its hands. -/
structure Pc.Homed (pc : Pc) (s : State) : Prop where
  home : ∀ id x, pc.home = some (id, x) → ∀ other, (s.boxes other).state = .opened →
    (s.boxes other).era = x.era → other = id
  within : ∀ id, pc.place = some id → id < maxMboxNum

theorem Pc.homed_user : Pc.user.Homed s := ⟨by simp [Pc.home], by simp [Pc.place]⟩

/-- A process gets into a box or out of it, or it stays. -/
structure Passes (s : State) (p : ProcId) (pc : Pc) (id inuse : Nat) : Prop where
  count : inuse + (if (s.pc p).inside = some id then 1 else 0) = (s.boxes id).inuse + if pc.inside = some id then 1 else 0
  elsewhere : ∀ other, other ≠ id → (pc.inside = some other ↔ (s.pc p).inside = some other)

structure Inv (strict : Prop) (perPage : Nat) (s : State) : Prop where
  shapes : ∀ id, (s.boxes id).Shape strict (s.lanes (s.boxes id).era).waiting
  users : Users s
  pool : Pool perPage s
  ledger : Ledger s
  homes : Homes s

section Parts

theorem inside_update {pc : Pc} (moved : t.pc = update s.pc p pc) : t.inside = update s.inside p pc.inside := by
  funext q
  obtain rfl | same := eq_or_ne q p
  · simp [State.inside, moved]
  · simp [State.inside, moved, same]

theorem hand_update {pc : Pc} (moved : t.pc = update s.pc p pc) : t.hand = update s.hand p (pc.home.map Prod.snd) := by
  funext q
  obtain rfl | same := eq_or_ne q p
  · simp [hand_eq, moved]
  · simp [hand_eq, moved, same]

theorem Users.act (users : Users s) {pc : Pc} (moved : t.pc = update s.pc p pc)
    (boxes : t.boxes = update s.boxes id box) (passes : Passes s p pc id box.inuse) : Users t := by
  refine ⟨fun other => ?_, fun other => ?_⟩
  · rw [inside_update moved]
    exact finite_update (users.finite other)
  have change : tally t.inside other + (if (s.pc p).inside = some other then 1 else 0) = tally
    s.inside other + if pc.inside = some other then 1 else 0 :=
    inside_update moved ▸ tally_update (users.finite other) p pc.inside
  have before := users.count other
  rw [boxes]
  rw [update_apply]
  split
  · next same =>
    subst same
    have count := passes.count
    omega
  · next same =>
    have still := passes.elsewhere other same
    by_cases within : pc.inside = some other
    · rw [if_pos within, if_pos (still.mp within)] at change
      omega
    · rw [if_neg within, if_neg fun before => within (still.mpr before)] at change
      omega

theorem Users.same (users : Users s) (inside : t.inside = s.inside)
    (inuse : ∀ id, (t.boxes id).inuse = (s.boxes id).inuse) : Users t :=
    ⟨fun id => inside ▸ users.finite id, fun id => by rw [inuse, inside]; exact users.count id⟩

theorem Pool.act (pool : Pool perPage s) (boxes : t.boxes = update s.boxes id box) (live : (s.boxes id).state ≠ .closed)
    (era : box.era = (s.boxes id).era) (list : t.freeList = s.freeList) (pages : t.pages = s.pages)
      (eras : t.eras = s.eras) : Pool perPage t := by
  have before : ∀ other, (t.boxes other).state ≠ .closed → (s.boxes other).state ≠ .closed ∧
    (t.boxes other).era = (s.boxes other).era := by
    intro other live'
    rw [boxes] at live' ⊢
    obtain rfl | same := eq_or_ne other id
    · rw [update_self]
      exact ⟨live, era⟩
    · rw [update_of_ne same] at live' ⊢
      exact ⟨live', rfl⟩
  constructor
  case known =>
    intro other live'
    obtain ⟨alive, same⟩ := before other live'
    rw [same, pages, eras]
    exact pool.known other alive
  case apart =>
    intro one two live₁ live₂ equal
    obtain ⟨alive₁, same₁⟩ := before one live₁
    obtain ⟨alive₂, same₂⟩ := before two live₂
    rw [same₁, same₂] at equal
    exact pool.apart one two alive₁ alive₂ equal
  case free =>
    intro other listed
    rw [list] at listed
    obtain ⟨closed, known⟩ := pool.free other listed
    have different : other ≠ id := by
      rintro rfl
      exact live closed
    rw [boxes, update_of_ne different, pages]
    exact ⟨closed, known⟩
  case nodup => exact list ▸ pool.nodup

def Pc.adds (pc : Pc) (x : Entry) : Nat := if pc.home.map Prod.snd = some x then 1 else 0

theorem Ledger.count_gone (ledger : Ledger s) (other : x.era ≠ e) : (s.lanes e).gone.count x = 0 := by
  refine count_eq_zero.mpr fun member => ?_
  obtain ⟨k, found⟩ := mem_iff_getElem?.mp (Lane.mem_accepted_of_gone member)
  exact other (ledger.numbered e k x found).1

theorem Ledger.act (ledger : Ledger s) {pc : Pc} (moved : t.pc = update s.pc p pc) (lanes : t.lanes = update s.lanes e lane)
    (known : e < s.eras) (eras : t.eras = s.eras) (numbered : ∀ k (x : Entry),
      lane.accepted[k]? = some x → x.era = e ∧ x.number = k)
    (opens : ∀ e, t.openAt e → s.openAt e) (others : ∀ e', e' ≠ e → ¬ t.openAt e' → ¬ s.openAt e')
      (idle : ¬ t.openAt e → lane.waiting = [])
      (once : ∀ x, t.received.count x + t.discarded.count x + pc.adds x + (s.lanes e).gone.count x =
      s.received.count x + s.discarded.count x + (s.pc p).adds x + lane.gone.count x)
        (discarded : ∀ x ∈ t.discarded, x ∈ s.discarded ∨ ¬ t.openAt x.era) : Ledger t := by
  have fresh : ∀ x, x.era ≠ e → lane.gone.count x = 0 := by
    intro x other
    refine count_eq_zero.mpr fun member => ?_
    obtain ⟨k, found⟩ := mem_iff_getElem?.mp (Lane.mem_accepted_of_gone member)
    exact other (numbered k x found).1
  constructor
  case numbered =>
    intro e' k x found
    rw [lanes] at found
    by_cases same : e' = e
    · subst same
      rw [update_self] at found
      exact numbered k x found
    · rw [update_of_ne same] at found
      exact ledger.numbered e' k x found
  case unborn =>
    intro e' late
    rw [eras] at late
    rw [lanes, update_of_ne (Nat.ne_of_gt (known.trans_le late))]
    exact ledger.unborn e' late
  case finite =>
    intro x
    rw [hand_update moved]
    exact finite_update (ledger.finite x)
  case once =>
    intro x
    have change := tally_update (ledger.finite x) p (pc.home.map Prod.snd)
    rw [← hand_update moved, hand_eq] at change
    have before := ledger.once x
    have now := once x
    simp only [Pc.adds] at now
    rw [lanes]
    by_cases same : x.era = e
    · rw [same] at before ⊢
      rw [update_self]
      omega
    · rw [ledger.count_gone same, fresh x same] at now
      rw [update_of_ne same]
      omega
  case idle =>
    intro e' shut
    rw [lanes]
    rw [update_apply]
    split
    · next same =>
      subst same
      exact idle shut
    · next same => exact ledger.idle e' (others e' same shut)
  case discarded =>
    intro x member
    rcases discarded x member with before | shut
    · exact fun again => ledger.discarded x before (opens x.era again)
    · exact shut

theorem Homes.act (homes : Homes s) {pc : Pc} (moved : t.pc = update s.pc p pc)
    (opens : ∀ other, (t.boxes other).state = .opened → (s.boxes other).state = .opened ∧
      (t.boxes other).era = (s.boxes other).era) (homed : pc.Homed s) : Homes t := by
  refine ⟨fun q id x held other opened era => ?_, fun q id found => ?_⟩
  · obtain ⟨before, same⟩ := opens other opened
    rw [same] at era
    rw [moved] at held
    obtain rfl | equal := eq_or_ne q p
    · rw [update_self] at held
      exact homed.home id x held other before era
    · rw [update_of_ne equal] at held
      exact homes.home q id x held other before era
  · rw [moved] at found
    obtain rfl | equal := eq_or_ne q p
    · rw [update_self] at found
      exact homed.within id found
    · rw [update_of_ne equal] at found
      exact homes.within q id found

theorem Box.Shape.shut {waiting waiting' : List Entry} (shape : box.Shape strict waiting)
    (shut : box.state ≠ .opened) : box.Shape strict waiting' :=
    { shape with opened := fun opened => absurd opened shut }

end Parts

section Acts
variable {pc : Pc} {received discarded : List Entry}

section
variable (inv : Inv strict perPage s)
include inv

theorem Inv.act (box : Box) (live : (s.boxes id).state ≠ .closed) (era : box.era = (s.boxes id).era)
    (opens : box.state = .opened → (s.boxes id).state = .opened)
    (shape : box.Shape strict lane.waiting)
    (passes : Passes s p pc id box.inuse) (numbered : ∀ k (x : Entry), lane.accepted[k]? = some x →
      x.era = (s.boxes id).era ∧ x.number = k)
    (idle : box.state ≠ .opened → lane.waiting = [])
      (once : ∀ x, received.count x + discarded.count x + pc.adds x +
      (s.lanes (s.boxes id).era).gone.count x = s.received.count x + s.discarded.count x +
      (s.pc p).adds x + lane.gone.count x)
    (dropped : ∀ x ∈ discarded, x ∈ s.discarded ∨ box.state ≠ .opened ∧ x.era = (s.boxes id).era)
      (homed : pc.Homed s) (flags : ProcId → Wake) : Inv strict perPage { s with
      boxes := update s.boxes id box
      lanes := update s.lanes (s.boxes id).era lane
      pc := update s.pc p pc
      flags, received, discarded } := by
  have before : ∀ other, (update s.boxes id box other).state = .opened →
    (s.boxes other).state = .opened ∧ (update s.boxes id box other).era = (s.boxes other).era := by
    intro other opened
    obtain rfl | same := eq_or_ne other id
    · rw [update_self] at opened ⊢
      exact ⟨opens opened, era⟩
    · rw [update_of_ne same] at opened ⊢
      exact ⟨opened, rfl⟩
  have shut : box.state ≠ .opened → ∀ other, (update s.boxes id box other).state = .opened →
    (update s.boxes id box other).era ≠ (s.boxes id).era := by
    intro closed other opened equal
    obtain ⟨was, same⟩ := before other opened
    rw [same] at equal
    have here := inv.pool.apart other id (by rw [was]; decide) live equal
    subst here
    rw [update_self] at opened
    exact closed opened
  constructor
  case shapes =>
    intro other
    dsimp only
    obtain rfl | same := eq_or_ne other id
    · rwa [update_self, era, update_self]
    rw [update_of_ne same]
    by_cases opened : (s.boxes other).state = .opened
    · have apart : (s.boxes other).era ≠ (s.boxes id).era :=
        fun equal => same (inv.pool.apart other id (by rw [opened]; decide) live equal)
      rw [update_of_ne apart]
      exact inv.shapes other
    · exact (inv.shapes other).shut opened
  case users => exact inv.users.act rfl rfl passes
  case pool => exact inv.pool.act rfl live era rfl rfl rfl
  case ledger =>
    refine inv.ledger.act rfl rfl (inv.pool.known id live).2 rfl numbered ?_ ?_ ?_ once ?_
    · rintro e ⟨other, opened, equal⟩
      obtain ⟨was, same⟩ := before other opened
      exact ⟨other, was, same.symm.trans equal⟩
    · rintro e different closed ⟨other, opened, equal⟩
      have apart : other ≠ id := by
        rintro rfl
        exact different equal.symm
      refine closed ⟨other, ?_, ?_⟩
      · simpa [apart] using opened
      · simpa [apart] using equal
    · intro closed
      refine idle fun opened => closed ⟨id, ?_, ?_⟩
      · simpa using opened
      · simpa using era
    · intro x member
      rcases dropped x member with was | ⟨closed, equal⟩
      · exact .inl was
      · refine .inr ?_
        rintro ⟨other, opened, same⟩
        exact shut closed other opened (same.trans equal)
  case homes => exact inv.homes.act rfl before homed

theorem Inv.waiting_shut (live : (s.boxes id).state ≠ .closed) (shut : (s.boxes id).state ≠ .opened) :
    (s.lanes (s.boxes id).era).waiting = [] := by
  refine inv.ledger.idle _ ?_
  rintro ⟨other, opened, equal⟩
  have here := inv.pool.apart other id (by rw [opened]; decide) live equal
  exact shut (here ▸ opened)

theorem Inv.uses (box : Box) (live : (s.boxes id).state ≠ .closed) (era : box.era = (s.boxes id).era)
    (state : box.state = (s.boxes id).state)
    (shape : box.Shape strict (s.lanes (s.boxes id).era).waiting)
    (passes : Passes s p pc id box.inuse) (home : pc.home = (s.pc p).home) (within : ∀ id,
      pc.place = some id → id < maxMboxNum) (flags : ProcId → Wake) :
    Inv strict perPage { s with boxes := update s.boxes id box, pc := update s.pc p pc, flags } := by
  have act := inv.act box live era (fun opened => state ▸ opened) shape passes
    (inv.ledger.numbered _) (fun shut => inv.waiting_shut live (state ▸ shut))
    (fun x => by rw [Pc.adds, Pc.adds, home]) (fun x member => .inl member)
    ⟨fun other x held => inv.homes.home p other x (home ▸ held), within⟩ flags
  rwa [update_eq_self] at act

theorem Inv.arranges (live : (s.boxes id).state ≠ .closed) (senders receivers : List ProcId)
    (shut : (s.boxes id).state ≠ .opened → senders = [] ∧ receivers = []) (flags : ProcId → Wake) :
    Inv strict perPage { s with boxes := update s.boxes id { s.boxes id with senders, receivers }, flags } := by
  obtain ⟨shape, unopened, closing, closed, bounded⟩ := inv.shapes id
  have uses := inv.uses (p := 0) { s.boxes id with senders, receivers } live rfl rfl
    ⟨shape, fun other => ⟨(unopened other).1, shut other⟩, closing, closed, bounded⟩
    ⟨rfl, fun _ _ => Iff.rfl⟩ rfl (inv.homes.within 0) flags
  rwa [update_eq_self] at uses

end

theorem Ledger.same (ledger : Ledger s) (hand : t.hand = s.hand) (lanes : t.lanes = s.lanes)
    (eras : t.eras = s.eras) (opens : ∀ e, t.openAt e ↔ s.openAt e)
    (received : t.received = s.received) (discarded : t.discarded = s.discarded) : Ledger t := by
  obtain ⟨numbered, unborn, finite, once, idle, dropped⟩ := ledger
  have openAt : t.openAt = s.openAt := funext fun e => propext (opens e)
  constructor
  case numbered => exact lanes ▸ numbered
  case unborn => exact eras ▸ lanes ▸ unborn
  case finite => exact hand ▸ finite
  case once => exact received ▸ discarded ▸ hand ▸ lanes ▸ once
  case idle => exact openAt ▸ lanes ▸ idle
  case discarded => exact discarded ▸ openAt ▸ dropped

theorem Inv.walks (inv : Inv strict perPage s) (inside : pc.inside = (s.pc p).inside)
    (ledger : Ledger { s with pc := update s.pc p pc, received, discarded })
    (homed : pc.Homed s) : Inv strict perPage { s with pc := update s.pc p pc, received, discarded } := by
  refine ⟨inv.shapes, inv.users.same ?_ fun _ => rfl, { inv.pool with }, ledger,
    inv.homes.act rfl (fun other opened => ⟨opened, rfl⟩) homed⟩
  rw [inside_update rfl, inside]
  exact update_eq_self _ _

theorem Inv.goes {before : Pc} (inv : Inv strict perPage s) (here : s.pc p = before) (inside : pc.inside = before.inside)
    (home : pc.home = before.home) (within : ∀ id, pc.place = some id → id < maxMboxNum) :
      Inv strict perPage (setPc s p pc) := by
  subst here
  refine inv.walks inside (inv.ledger.same ?_ rfl rfl (fun _ => Iff.rfl) rfl rfl) ⟨fun id x held =>
    inv.homes.home p id x (home ▸ held), within⟩
  rw [hand_update rfl, home, ← hand_eq]
  exact update_eq_self _ _

theorem Ledger.left_of_home (ledger : Ledger s) (held : (s.pc p).home = some (id, x)) :
    x ∈ (s.lanes x.era).gone ∧ x.era < s.eras := by
  have hand : s.hand p = some x := by rw [hand_eq, held]; rfl
  have member : x ∈ (s.lanes x.era).gone := by
    have positive := tally_pos (ledger.finite x) hand
    have once := ledger.once x
    exact count_pos_iff.mp (by omega)
  refine ⟨member, ?_⟩
  by_contra late
  have accepted := Lane.mem_accepted_of_gone member
  rw [ledger.unborn x.era (not_lt.mp late)] at accepted
  cases accepted

theorem Inv.settles (inv : Inv strict perPage s) (held : (s.pc p).home = some (id, x)) (outside : (s.pc p).inside = none)
    (once : ∀ y, received.count y + discarded.count y = s.received.count y + s.discarded.count y +
      if some x = some y then 1 else 0)
    (dropped : ∀ y ∈ discarded, y ∈ s.discarded ∨ ¬ s.openAt y.era) :
      Inv strict perPage { s with pc := update s.pc p .user, received, discarded } := by
  refine inv.walks outside.symm ?_ Pc.homed_user
  refine inv.ledger.act rfl ((update_eq_self _ _).symm) (inv.ledger.left_of_home held).2 rfl
    (inv.ledger.numbered _) (fun _ opened => opened) (fun _ _ shut => shut) (inv.ledger.idle _)
    (fun y => ?_) dropped
  have counted := once y
  have added : (s.pc p).adds y = if some x = some y then 1 else 0 := by rw [Pc.adds, held]; rfl
  have none : Pc.user.adds y = 0 := rfl
  dsimp only
  omega

end Acts

end Ucore.Mbox
