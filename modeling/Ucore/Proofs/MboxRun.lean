import Ucore.Proofs.MboxBooks

/-! Every call of the mailboxes keeps the books right and every assertion true, as long as a box
that was found is still open when it is used and a message is put back right after it was taken. -/

namespace Ucore.Mbox
open Lib Function List
attribute [local simp] step

variable {strict : Prop} {perPage : Nat} {s t : State} {p : ProcId} {id : Nat} {msg : Msg}
    {size : Nat} {x : Entry} {excused : Fault → Prop} {pc : Pc} {page : Bool} {maxSlots : Nat}

theorem openAt_of_same (same : ∀ id, (t.boxes id).state = .opened ∨ (s.boxes id).state = .opened →
    t.boxes id = s.boxes id) (e : Nat) : t.openAt e ↔ s.openAt e := by
  constructor
  · rintro ⟨id, opened, era⟩
    have kept := same id (.inl opened)
    exact ⟨id, kept ▸ opened, kept ▸ era⟩
  · rintro ⟨id, opened, era⟩
    have kept := same id (.inr opened)
    exact ⟨id, kept ▸ opened, kept ▸ era⟩

def freed (s : State) (id : Nat) : State :=
  { setBox s id { s.boxes id with state := .closed, maxSlots := 0, slots := 0 } with freeList := s.freeList ++ [id] }

theorem mboxFree_ok (closing : (s.boxes id).state = .closing) (unused : (s.boxes id).inuse = 0)
    (empty : (s.boxes id).queue = [] ∧ (s.boxes id).senders = [] ∧ (s.boxes id).receivers = []) :
    mboxFree s id = .ok (freed s id) := by
  simp [mboxFree, closing, unused, empty, freed, pure, Except.pure]

theorem Inv.freed (inv : Inv strict perPage s) (id : Nat) (closing : (s.boxes id).state = .closing)
    (unused : (s.boxes id).inuse = 0) : Inv strict perPage (freed s id) := by
  have live : (s.boxes id).state ≠ .closed := by rw [closing]; decide
  have other : ∀ other, ((Mbox.freed s id).boxes other).state ≠ .closed → other ≠ id ∧
    (Mbox.freed s id).boxes other = s.boxes other := by
    intro other alive
    by_cases same : other = id
    · simp [Mbox.freed, setBox, same] at alive
    · exact ⟨same, by simp [Mbox.freed, setBox, same]⟩
  have openAt : ∀ e, (Mbox.freed s id).openAt e ↔ s.openAt e := by
    refine openAt_of_same fun box opened => ?_
    rcases opened with after | before
    · exact (other box (by rw [after]; decide)).2
    have different : box ≠ id := by
      rintro rfl
      cases closing.symm.trans before
    simp [Mbox.freed, setBox, different]
  constructor
  case shapes =>
    intro box
    obtain rfl | same := eq_or_ne box id
    · have empty := (inv.shapes box).unopened (by rw [closing]; decide)
      constructor <;> simp [Mbox.freed, setBox, empty, unused]
    · have kept : (Mbox.freed s id).boxes box = s.boxes box := by simp [Mbox.freed, setBox, same]
      rw [kept]
      exact inv.shapes box
  case users =>
    refine inv.users.same rfl fun box => ?_
    by_cases same : box = id <;> simp [Mbox.freed, setBox, same]
  case pool =>
    constructor
    case known =>
      intro box alive
      obtain ⟨_, same⟩ := other box alive
      rw [same] at alive ⊢
      exact inv.pool.known box alive
    case apart =>
      intro one two alive₁ alive₂ equal
      obtain ⟨_, same₁⟩ := other one alive₁
      obtain ⟨_, same₂⟩ := other two alive₂
      rw [same₁] at alive₁ equal
      rw [same₂] at alive₂ equal
      exact inv.pool.apart one two alive₁ alive₂ equal
    case free =>
      intro box listed
      rcases mem_append.mp listed with before | new
      · obtain ⟨closed, known⟩ := inv.pool.free box before
        by_cases same : box = id
        · exact absurd (same ▸ closed) live
        · exact ⟨by simpa [Mbox.freed, setBox, same] using closed, known⟩
      · rw [mem_singleton.mp new]
        exact ⟨by simp [Mbox.freed, setBox], (inv.pool.known id live).1⟩
    case nodup =>
      refine nodup_append.mpr ⟨inv.pool.nodup, nodup_singleton id, fun box listed box' new => ?_⟩
      rintro rfl
      rw [mem_singleton.mp new] at listed
      exact live (inv.pool.free id listed).1
  case ledger => exact inv.ledger.same rfl rfl rfl openAt rfl rfl
  case homes =>
    refine ⟨fun q home x held box opened era => ?_, inv.homes.within⟩
    obtain ⟨_, same⟩ := other box (by rw [opened]; decide)
    rw [same] at opened era
    exact inv.homes.home q home x held box opened era

section Leaving

theorem Inv.live_inside (inv : Inv strict perPage s) (inside : (s.pc p).inside = some id) :
    (s.boxes id).state ≠ .closed ∧ 0 < (s.boxes id).inuse := by
  have positive : 0 < (s.boxes id).inuse := by
    rw [inv.users.count id]
    exact tally_pos (inv.users.finite id) inside
  refine ⟨fun closed => ?_, positive⟩
  rw [((inv.shapes id).closed closed).2] at positive
  exact lt_irrefl 0 positive

theorem passes_leave (pc : Pc) (outside : pc.inside = none) (inside : (s.pc p).inside = some id)
    (positive : 0 < (s.boxes id).inuse) : Passes s p pc id ((s.boxes id).inuse - 1) := by
  refine ⟨?_, fun other different => ?_⟩
  · rw [if_pos inside, outside, if_neg (by simp)]
    omega
  · rw [outside, inside]
    simp [Ne.symm different]

theorem passes_stay (id : Nat) (pc : Pc) (outside : pc.inside = none)
    (before : (s.pc p).inside = none) : Passes s p pc id (s.boxes id).inuse := by
  constructor <;> rw [outside, before]
  exact fun _ _ => Iff.rfl

theorem Inv.out (inv : Inv strict perPage s) (inside : (s.pc p).inside = some id)
    (empty : (s.pc p).home = none) :
    Inv strict perPage (setPc (setBox s id { s.boxes id with inuse := (s.boxes id).inuse - 1 }) p
    .user) := by
  obtain ⟨live, positive⟩ := inv.live_inside inside
  obtain ⟨opened, unopened, closing, _, bounded⟩ := inv.shapes id
  refine inv.uses (p := p) { s.boxes id with inuse := (s.boxes id).inuse - 1 } live rfl rfl
    ⟨opened, unopened, closing, live.elim, bounded⟩ (passes_leave .user rfl inside positive)
    empty.symm (by simp [Pc.place]) s.flags

theorem leave_opened (opened : (s.boxes id).state = .opened) (ret : Int) :
    leave s id ret = .ok (setBox s id { s.boxes id with inuse := (s.boxes id).inuse - 1 }) := by
  simp [leave, setBox, opened, pure, Except.pure]

theorem Inv.leave (inv : Inv strict perPage s) (inside : (s.pc p).inside = some id)
    (empty : (s.pc p).home = none) {ret : Int} (failed : ret ≠ 0) : Ends excused (leave s id ret)
    fun after => Inv strict perPage (setPc after p .user) := by
  obtain ⟨live, positive⟩ := inv.live_inside inside
  have out := inv.out inside empty
  cases state : (s.boxes id).state with
  | closed => exact absurd state live
  | opened => exact .of_ok (leave_opened state ret) out
  | closing =>
    have unopened := (inv.shapes id).unopened (by rw [state]; decide)
    have shut : ((setBox s id { s.boxes id with inuse := (s.boxes id).inuse - 1 }).boxes id).state =
      .closing := by simpa [setBox] using state
    rw [Mbox.leave]
    dsimp only
    rw [if_pos (by rw [shut]; decide), ensure_bind, if_pos ⟨failed, shut⟩]
    split
    · next last => exact .of_ok (mboxFree_ok shut last (by simpa [setBox] using unopened)) (out.freed id shut last)
    · exact out

end Leaving

section Messages

theorem wakeupReceiver_eq (s : State) (id : Nat) : ∃ receivers flags,
    wakeupReceiver s id = { setBox s id { s.boxes id with receivers } with flags } := by
  unfold wakeupReceiver
  split
  · next none => exact ⟨(s.boxes id).receivers, s.flags, by simp [setBox]⟩
  · next q rest _ => exact ⟨rest, _, rfl⟩

theorem wakeupSender_eq (s : State) (id : Nat) : ∃ senders flags,
    wakeupSender s id = { setBox s id { s.boxes id with senders } with flags } := by
  unfold wakeupSender
  split
  · next none => exact ⟨(s.boxes id).senders, s.flags, by simp [setBox]⟩
  · next q rest _ => exact ⟨rest, _, rfl⟩

theorem addMsg_eq (opened : (s.boxes id).state = .opened) (entry : Entry) (append : Bool) :
    ∃ receivers flags, addMsg s id entry append = .ok { setBox s id { s.boxes id with
      slots := (s.boxes id).slots + 1
      queue := if append then (s.boxes id).queue ++ [entry] else entry :: (s.boxes id).queue
      receivers } with flags } := by
  obtain ⟨receivers, flags, woken⟩ := wakeupReceiver_eq (setBox s id { s.boxes id with
    slots := (s.boxes id).slots + 1, queue := if append then (s.boxes id).queue ++
      [entry] else entry :: (s.boxes id).queue }) id
  refine ⟨receivers, flags, ?_⟩
  rw [addMsg]
  dsimp only
  rw [ensure_bind, if_pos opened, woken]
  simp [setBox, pure, Except.pure]

theorem Ledger.numbered_accept (ledger : Ledger s) (e : Nat) (msg : Msg) (k : Nat) (x : Entry)
    (found : ((s.lanes e).accept ⟨msg, e, (s.lanes e).accepted.length⟩).accepted[k]? = some x) :
    x.era = e ∧ x.number = k := by
  rcases Nat.lt_trichotomy k (s.lanes e).accepted.length with early | last | late
  · rw [Lane.accept, getElem?_append_left early] at found
    exact ledger.numbered e k x found
  · rw [Lane.accept, last, getElem?_concat_length] at found
    cases found
    exact ⟨rfl, last.symm⟩
  · rw [Lane.accept, getElem?_eq_none (by simpa using late)] at found
    cases found

theorem Inv.moves (inv : Inv strict perPage s) (opened : (s.boxes id).state = .opened)
    {inuse slots : Nat} (queue : List Entry)
    (senders receivers : List ProcId) {lane : Lane Entry} (waits : queue = lane.waiting) (counted : slots = queue.length)
    (bounded : slots ≤ (s.boxes id).maxSlots) (passes : Passes s p pc id inuse)
      (numbered : ∀ k (x : Entry), lane.accepted[k]? = some x → x.era = (s.boxes id).era ∧
      x.number = k)
    (once : ∀ x, pc.adds x + (s.lanes (s.boxes id).era).gone.count x = (s.pc p).adds x +
      lane.gone.count x) (homed : pc.Homed s) (flags : ProcId → Wake) : Inv strict perPage { s with
      boxes := update s.boxes id { s.boxes id with inuse, slots, queue, senders, receivers }
      lanes := update s.lanes (s.boxes id).era lane
      pc := update s.pc p pc
      flags } := by
  have live : (s.boxes id).state ≠ .closed := by rw [opened]; decide
  refine inv.act { s.boxes id with inuse, slots, queue, senders, receivers } live rfl
    (fun _ => opened) ⟨fun _ => ⟨waits, counted⟩, absurd opened,
    fun _ closing => ?_, live.elim, bounded⟩ passes numbered (absurd opened) (fun x => ?_)
      (fun x member => .inl member) homed flags
  · cases opened.symm.trans closing
  · have moved := once x
    omega

theorem Inv.sendLoop (inv : Inv strict perPage s) (here : s.pc p = .sending id msg)
    (opened : (s.boxes id).state = .opened) : Ends excused (sendLoop s p id msg) fun result =>
      Inv strict perPage result.1 := by
  have live : (s.boxes id).state ≠ .closed := by rw [opened]; decide
  have inside : (s.pc p).inside = some id := here ▸ rfl
  obtain ⟨_, positive⟩ := inv.live_inside inside
  obtain ⟨queue, slots⟩ := (inv.shapes id).opened opened
  rw [Mbox.sendLoop]
  dsimp only
  split
  · rw [ensure_bind, if_pos opened]
    exact inv.arranges live _ _ (absurd opened) _
  · next full =>
    have room : (s.boxes id).slots < (s.boxes id).maxSlots := not_le.mp full
    rw [ensure_bind, if_pos ⟨opened, room⟩]
    obtain ⟨receivers, flags, ran⟩ :=
      addMsg_eq opened ⟨msg, (s.boxes id).era, (s.lanes (s.boxes id).era).accepted.length⟩ true
    refine .bind_ok ran (.bind_ok (leave_opened (by simpa [setBox] using opened) 0) ?_)
    have accepted := inv.moves opened ((s.boxes id).queue ++ [⟨msg, _, _⟩]) (s.boxes id).senders
      receivers (by rw [queue, Lane.waiting_accept]) rfl
      (by simpa [← slots] using room) (passes_leave .user rfl inside positive)
        (inv.ledger.numbered_accept _ msg) (fun x => by rw [Lane.gone_accept, here]; rfl)
        Pc.homed_user flags
    show Inv strict perPage _
    simpa [setPc, setLane, setBox, ← slots] using accepted

theorem Inv.recvLoop (inv : Inv strict perPage s) (here : s.pc p = .receiving id size)
    (opened : (s.boxes id).state = .opened) : Ends excused (recvLoop s p id size) fun result =>
      Inv strict perPage result.1 := by
  have live : (s.boxes id).state ≠ .closed := by rw [opened]; decide
  have inside : (s.pc p).inside = some id := here ▸ rfl
  obtain ⟨_, positive⟩ := inv.live_inside inside
  obtain ⟨waits, slots⟩ := (inv.shapes id).opened opened
  rw [Mbox.recvLoop]
  dsimp only
  split
  · rw [ensure_bind, if_pos opened]
    exact inv.arranges live _ _ (absurd opened) _
  · next some =>
    have present : 0 < (s.boxes id).slots := Nat.pos_of_ne_zero some
    cases queue : (s.boxes id).queue with
    | nil =>
      rw [slots, queue] at present
      cases present
    | cons x rest =>
      rw [ensure_bind, if_pos ⟨opened, present⟩, ensure_bind, if_pos (by simp)]
      have picked : pickMsg s id size = if size < x.msg.bytes then .ok (s, .error (-eTooBig)) else
        .ok (wakeupSender (setBox s id
        { s.boxes id with slots := (s.boxes id).slots - 1, queue := rest }) id, .ok x) := by
        rw [pickMsg]
        dsimp only
        rw [ensure_bind, if_pos ⟨opened, present⟩]
        simp only [queue]
        rfl
      by_cases big : size < x.msg.bytes
      · rw [if_pos big] at picked
        refine .bind_ok picked ?_
        dsimp only
        obtain ⟨receivers, flags, woken⟩ := wakeupReceiver_eq s id
        have arranged := inv.arranges live (s.boxes id).senders receivers (absurd opened) flags
        rw [woken]
        exact (arranged.leave (p := p) inside (here ▸ rfl) (by decide)).bind fun after kept => kept
      rw [if_neg big] at picked
      refine .bind_ok picked ?_
      dsimp only
      obtain ⟨senders, flags, woken⟩ :=
        wakeupSender_eq (setBox s id
        { s.boxes id with slots := (s.boxes id).slots - 1, queue := rest }) id
      rw [woken]
      refine .bind_ok (leave_opened (by simpa [setBox] using opened) 0) ?_
      obtain ⟨waiting, gone⟩ := Lane.leave_head (waits.symm.trans queue)
      have bounded := (inv.shapes id).bounded
      have counted : (s.boxes id).slots = rest.length + 1 := by rw [slots, queue]; rfl
      have taken := inv.moves opened rest senders (s.boxes id).receivers waiting.symm rfl (by omega)
        (passes_leave (.holds id x) rfl inside positive) (inv.ledger.numbered _)
        (fun y => by rw [gone, here, count_append, count_singleton']; simp [Pc.adds, Pc.home, add_comm]) ⟨?_, ?_⟩ flags
      · show Inv strict perPage _
        simpa [setPc, setLane, setBox, counted] using taken
      · -- The box that the message comes from is the only open one with its opening.
        rintro home y held other open' era
        cases held
        have member : x ∈ (s.lanes (s.boxes id).era).accepted := by
          rw [← Lane.gone_append_waiting, ← waits, queue]
          simp
        obtain ⟨k, found⟩ := mem_iff_getElem?.mp member
        rw [(inv.ledger.numbered _ k x found).1] at era
        exact inv.pool.apart other id (by rw [open']; decide) live era
      · rintro place found
        cases found
        exact inv.homes.within p id (here ▸ rfl)

end Messages

section Calls

/-- What a call has seen of a box is still so when it is used, and a message is put back right after
it was taken. -/
def Undisturbed (s : State) : Op → Prop
  | .sendEnter p => ∀ id msg, s.pc p = .sendFound id msg → (s.boxes id).state = .opened
  | .recvEnter p => ∀ id size, s.pc p = .recvFound id size → (s.boxes id).state = .opened
  | .freeEnter p => ∀ id, s.pc p = .freeFound id → (s.boxes id).state ≠ .closed
  | .putBack p => ∀ id entry, s.pc p = .puttingBack id entry → (s.boxes id).state = .opened ∧
      (s.lanes (s.boxes id).era).gone.getLast? = some entry ∧ (s.boxes id).slots < (s.boxes id).maxSlots
  | _ => True

/-- A box with messages is freed only while nobody waits in it. -/
def Unused (s : State) : Op → Prop
  | .freeEnter p => ∀ id, s.pc p = .freeFound id → (s.boxes id).queue = [] ∨ (s.boxes id).inuse = 0
  | _ => True

def Kept (strict : Prop) (perPage : Nat) (result : State × Reply) : Prop := Inv strict perPage result.1

def Steps (strict : Prop) (perPage : Nat) (s : State) (op : Op) : Prop :=
  Allowed s op → Undisturbed s op → (strict → Unused s op) → Ends (fun _ => False) (step perPage s op) (Kept strict perPage)

theorem getMbox_some {number : Int} {found : Nat} (finds : getMbox perPage s number = some found) :
    number = found ∧ found < maxMboxNum ∧ found / perPage < s.pages ∧
    (s.boxes found).state = .opened := by
  unfold getMbox at finds
  split at finds
  · next fits =>
    cases finds
    exact ⟨(Int.toNat_of_nonneg fits.1).symm, fits.2⟩
  · cases finds

theorem getMbox_place {number : Int} {found : Nat} (finds : getMbox perPage s number = some found) :
    ∀ place, some found = some place → place < maxMboxNum := by
  rintro place ⟨⟩
  exact (getMbox_some finds).2.1

theorem getMbox_open (within : id < maxMboxNum) (known : id / perPage < s.pages)
    (opened : (s.boxes id).state = .opened) : getMbox perPage s id = some id :=
    if_pos ⟨Int.natCast_nonneg id, within, known, opened⟩

section
variable (inv : Inv strict perPage s) {number : Int} {copied : Bool} {timedOut : Bool}
include inv

theorem Inv.send {data : CopyIn (List UInt8)} : Steps strict perPage s (.send p number data) := by
  rintro ⟨here, _⟩ _ _
  simp only [step]
  split
  · exact inv
  · exact inv
  · exact inv.goes here rfl rfl (by simp [Pc.place])

theorem Inv.recv {data : CopyIn Nat} : Steps strict perPage s (.recv p number data) := by
  rintro ⟨here, _⟩ _ _
  simp only [step]
  split
  · exact inv
  · exact inv
  · exact inv.goes here rfl rfl (by simp [Pc.place])

theorem Inv.sendLookup : Steps strict perPage s (.sendLookup p) := by
  rintro ⟨number, msg, here⟩ _ _
  simp only [step, here]
  split
  · exact inv.goes here rfl rfl (by simp [Pc.place])
  · next found finds => exact inv.goes here rfl rfl (getMbox_place finds)

theorem Inv.recvLookup : Steps strict perPage s (.recvLookup p) := by
  rintro ⟨number, size, here⟩ _ _
  simp only [step, here]
  split
  · exact inv.goes here rfl rfl (by simp [Pc.place])
  · next found finds => exact inv.goes here rfl rfl (getMbox_place finds)

theorem Inv.free : Steps strict perPage s (.free p number) := by
  intro here _ _
  simp only [step]
  split
  · exact inv
  · next found finds => exact inv.goes here rfl rfl (getMbox_place finds)

theorem Inv.info : Ends excused (step perPage s (.info p number copied)) (Kept strict perPage) := by
  simp only [step]
  split
  · exact inv
  · split <;> exact inv

theorem Inv.enter (opened : (s.boxes id).state = .opened) (outside : (s.pc p).inside = none)
    (inside : pc.inside = some id) (home : pc.home = (s.pc p).home)
    (place : pc.place = (s.pc p).place) : Inv strict perPage (enter s p id pc) := by
  have live : (s.boxes id).state ≠ .closed := by rw [opened]; decide
  obtain ⟨shape, unopened, closing, _, bounded⟩ := inv.shapes id
  refine inv.uses { s.boxes id with inuse := (s.boxes id).inuse + 1 } live rfl rfl ⟨shape, unopened,
    closing, live.elim, bounded⟩ ⟨?_, ?_⟩ home (place ▸ inv.homes.within p) s.flags
  · rw [outside, inside, if_neg (by simp), if_pos rfl]
  · intro other different
    rw [outside, inside]
    simp [Ne.symm different]

theorem Inv.sendEnter : Steps strict perPage s (.sendEnter p) := by
  rintro ⟨id, msg, here⟩ undisturbed _
  have opened := undisturbed id msg here
  simp only [step, here]
  refine Inv.sendLoop (inv.enter opened (here ▸ rfl) rfl (here ▸ rfl) (here ▸ rfl)) ?_ ?_
  · exact update_self ..
  · simpa [Mbox.enter, setPc, setBox] using opened

theorem Inv.recvEnter : Steps strict perPage s (.recvEnter p) := by
  rintro ⟨id, size, here⟩ undisturbed _
  have opened := undisturbed id size here
  simp only [step, here]
  refine Inv.recvLoop (inv.enter opened (here ▸ rfl) rfl (here ▸ rfl) (here ▸ rfl)) ?_ ?_
  · exact update_self ..
  · simpa [Mbox.enter, setPc, setBox] using opened

theorem Inv.giveUp (inside : (s.pc p).inside = some id) (empty : (s.pc p).home = none)
    (timedOut : Bool) : Ends excused (giveUp s p id timedOut) (Kept strict perPage) :=
    (inv.leave inside empty (by decide)).bind fun _ kept => kept

theorem Inv.stopsWaiting (live : (s.boxes id).state ≠ .closed) (senders receivers : List ProcId)
    (fewer : senders ⊆ (s.boxes id).senders) (fewer' : receivers ⊆ (s.boxes id).receivers) :
      Inv strict perPage (setBox s id { s.boxes id with senders, receivers }) := by
  refine inv.arranges live senders receivers (fun shut => ?_) s.flags
  obtain ⟨_, none, none'⟩ := (inv.shapes id).unopened shut
  rw [none] at fewer
  rw [none'] at fewer'
  exact ⟨subset_nil.mp fewer, subset_nil.mp fewer'⟩

theorem Inv.sendResume : Steps strict perPage s (.sendResume p timedOut) := by
  rintro ⟨id, msg, here⟩ _ _
  have inside : (s.pc p).inside = some id := here ▸ rfl
  have stopped := inv.stopsWaiting (inv.live_inside inside).1 ((s.boxes id).senders.erase p) _
    erase_subset (List.Subset.refl _)
  simp only [step, here]
  split
  · exact stopped.giveUp inside (by rw [setBox, here]; rfl) timedOut
  · next woken =>
    refine stopped.sendLoop here ?_
    by_contra shut
    exact woken (.inl shut)

theorem Inv.recvResume : Steps strict perPage s (.recvResume p timedOut) := by
  rintro ⟨id, size, here⟩ _ _
  have inside : (s.pc p).inside = some id := here ▸ rfl
  have stopped := inv.stopsWaiting (inv.live_inside inside).1 _ ((s.boxes id).receivers.erase p)
    (List.Subset.refl _) erase_subset
  simp only [step, here]
  split
  · exact stopped.giveUp inside (by rw [setBox, here]; rfl) timedOut
  · next woken =>
    refine stopped.recvLoop here ?_
    by_contra shut
    exact woken (.inl shut)

theorem Inv.copyOut : Steps strict perPage s (.copyOut p copied) := by
  rintro ⟨id, x, here⟩ _ _
  have held : (s.pc p).home = some (id, x) := here ▸ rfl
  simp only [step, here]
  split
  · refine inv.settles held (here ▸ rfl) (fun y => ?_) fun y member => .inl member
    rw [count_append, count_singleton']
    simp only [Option.some.injEq]
    omega
  · refine inv.goes here rfl rfl ?_
    rintro place same
    cases same
    exact inv.homes.within p id (here ▸ rfl)

theorem Inv.backLookup : Steps strict perPage s (.backLookup p) := by
  rintro ⟨id, x, here⟩ _ _
  have held : (s.pc p).home = some (id, x) := here ▸ rfl
  have within := inv.homes.within p id (here ▸ rfl)
  cases looked : getMbox perPage s id with
  | none =>
    simp only [step, here, looked]
    refine inv.settles held (here ▸ rfl) (fun y => ?_) fun y member => ?_
    · rw [count_append, count_singleton']
      simp only [Option.some.injEq]
      omega
    rcases mem_append.mp member with before | new
    · exact .inl before
    -- Had its box been open still, `get_mbox` would have found it.
    rw [mem_singleton.mp new]
    refine .inr ?_
    rintro ⟨other, opened, era⟩
    have same := inv.homes.home p id x held other opened era
    subst same
    have known := (inv.pool.known other (by rw [opened]; decide)).1
    rw [getMbox_open within known opened] at looked
    cases looked
  | some =>
    have same := (Int.ofNat_inj.mp (getMbox_some looked).1).symm
    simp only [step, here, looked, same]
    refine inv.goes here rfl rfl ?_
    rintro place there
    cases there
    exact within

theorem Inv.putBack : Steps strict perPage s (.putBack p) := by
  rintro ⟨id, x, here⟩ undisturbed _
  obtain ⟨opened, last, room⟩ := undisturbed id x here
  obtain ⟨waits, slots⟩ := (inv.shapes id).opened opened
  obtain ⟨waiting, gone⟩ := Lane.back_last last
  obtain ⟨receivers, flags, ran⟩ := addMsg_eq opened x false
  simp only [step, here]
  refine .bind_ok ran ?_
  have back := inv.moves opened (x :: (s.boxes id).queue) (s.boxes id).senders receivers
    (show _ = (s.lanes (s.boxes id).era).back.waiting by rw [waiting, waits]) rfl
    (by simpa [← slots] using room)
    (passes_stay id .user rfl (by rw [here]; rfl)) (inv.ledger.numbered _)
      (fun y => by
        rw [gone, here, count_append, count_singleton']; simp [Pc.adds, Pc.home, add_comm])
          Pc.homed_user flags
  show Inv strict perPage _
  simpa [setPc, setLane, setBox, ← slots] using back

theorem Inv.closes (here : s.pc p = .freeFound id) (live : (s.boxes id).state ≠ .closed) {slots : Nat}
    (bounded : slots ≤ (s.boxes id).maxSlots) (zero : strict → slots = 0) (flags : ProcId → Wake) :
    Inv strict perPage { s with
      boxes := update s.boxes id { s.boxes id with state := .closing, slots, queue := [], senders := [], receivers := [] }
      lanes := update s.lanes (s.boxes id).era (s.lanes (s.boxes id).era).clear
      pc := update s.pc p .user
      flags
      discarded := s.discarded ++ (s.boxes id).queue } := by
  have waits : (s.boxes id).queue = (s.lanes (s.boxes id).era).waiting := by
    by_cases opened : (s.boxes id).state = .opened
    · exact ((inv.shapes id).opened opened).1
    · rw [((inv.shapes id).unopened opened).1, inv.waiting_shut live opened]
  refine inv.act { s.boxes id with
    state := .closing, slots, queue := [], senders := [], receivers := [] } live rfl (by simp)
    ⟨by simp, fun _ => ⟨rfl, rfl, rfl⟩, fun holds _ => zero holds, by simp, bounded⟩ (passes_stay id .user rfl (here ▸ rfl))
    (show ∀ k (x : Entry), (s.lanes (s.boxes id).era).clear.accepted[k]? = some x →
      _ from inv.ledger.numbered _) (fun _ => Lane.waiting_clear _) (fun y => ?_) (fun y member =>
        ?_) Pc.homed_user flags
  · rw [Lane.gone_clear, count_append, count_append, waits, here]
    have none : Pc.user.adds y = 0 ∧ (Pc.freeFound id).adds y = 0 := ⟨rfl, rfl⟩
    rw [none.1, none.2]
    omega
  · rcases mem_append.mp member with before | new
    · exact .inl before
    refine .inr ⟨by simp, ?_⟩
    rw [waits] at new
    obtain ⟨k, found⟩ := mem_iff_getElem?.mp (mem_of_mem_drop new)
    exact (inv.ledger.numbered _ k y found).1

theorem Inv.freeEnter : Steps strict perPage s (.freeEnter p) := by
  rintro ⟨id, here⟩ undisturbed unused
  have live := undisturbed id here
  simp only [step, here, closeBox]
  rw [if_neg live]
  by_cases nobody : (s.boxes id).inuse = 0
  · -- The box is freed at once, and its count with it.
    have closed := inv.closes here live (Nat.zero_le _) (fun _ => rfl) fun q =>
      if q ∈ (s.boxes id).senders ∨ q ∈ (s.boxes id).receivers then .interrupted else s.flags q
    have freed := closed.freed id (by simp) (by simpa using nobody)
    rw [if_pos (by simpa [setLane, setBox] using nobody)]
    refine .bind_ok (mboxFree_ok ?_ ?_ ?_) ?_
    · simp [setLane, setBox]
    · simpa [setLane, setBox] using nobody
    · simp [setLane, setBox]
    · show Inv strict perPage _
      simpa [Mbox.freed, setPc, setLane, setBox] using freed
  · rw [if_neg (by simpa [setLane, setBox] using nobody)]
    refine inv.closes here live (inv.shapes id).bounded (fun holds => ?_) _
    have empty := (unused holds id here).resolve_right nobody
    cases state : (s.boxes id).state with
    | closed => exact absurd state live
    | opened => rw [((inv.shapes id).opened state).2, empty]; rfl
    | closing => exact (inv.shapes id).closing holds state

end

end Calls

section Opening

theorem Inv.growMap (inv : Inv strict perPage s) (positive : 0 < perPage)
    (grows : growMap perPage s page = some t) : Inv strict perPage t ∧ t.freeList ≠ [] := by
  unfold Mbox.growMap at grows
  split at grows
  · next none =>
    split at grows
    · cases grows
    · cases grows
      have closed : ∀ id, id / perPage = s.pages → (s.boxes id).state = .closed := by
        intro id new
        by_contra live
        exact lt_irrefl _ (new ▸ (inv.pool.known id live).1)
      have page : ∀ id, id ∈ range' (s.pages * perPage) perPage → id / perPage = s.pages := by
        intro id listed
        obtain ⟨least, most⟩ := mem_range'_1.mp listed
        exact Nat.div_eq_of_lt_le least (by rwa [add_mul, one_mul])
      have old : ∀ id, id / perPage ≠ s.pages →
        (if id / perPage = s.pages then Box.blank else s.boxes id) = s.boxes id :=
        fun id new => if_neg new
      have alive : ∀ id, (if id / perPage = s.pages then Box.blank else s.boxes id).state ≠
        .closed → id / perPage ≠ s.pages := by
        intro id live new
        rw [if_pos new] at live
        exact live rfl
      constructor
      · constructor
        case shapes =>
          intro id
          by_cases new : id / perPage = s.pages
          · simp only [if_pos new]
            constructor <;> simp [Box.blank]
          · simp only [old id new]
            exact inv.shapes id
        case users =>
          refine inv.users.same rfl fun id => ?_
          by_cases new : id / perPage = s.pages
          · simp only [if_pos new, ((inv.shapes id).closed (closed id new)).2]
            rfl
          · simp only [old id new]
        case pool =>
          refine ⟨fun id live => ?_, fun one two live₁ live₂ equal => ?_, fun id listed => ?_, nodup_range'⟩
          · have kept := old id (alive id live)
            simp only [kept] at live ⊢
            obtain ⟨known, young⟩ := inv.pool.known id live
            exact ⟨Nat.lt_succ_of_lt known, young⟩
          · simp only [old one (alive one live₁), old two (alive two live₂)] at live₁ live₂ equal
            exact inv.pool.apart one two live₁ live₂ equal
          · have new := page id listed
            exact ⟨by simp only [if_pos new]; rfl, by simp only [new]; exact Nat.lt_succ_self _⟩
        case ledger =>
          refine inv.ledger.same rfl rfl rfl (openAt_of_same fun id opened => old id ?_) rfl rfl
          rcases opened with after | before
          · exact alive id (by rw [after]; decide)
          · intro new
            cases (closed id new).symm.trans before
        case homes =>
          refine ⟨fun q home x held id opened era => ?_, inv.homes.within⟩
          have kept := old id (alive id (by rw [opened]; decide))
          simp only [kept] at opened era
          exact inv.homes.home q home x held id opened era
      · simpa using positive.ne'
  · next some =>
    cases grows
    exact ⟨inv, some⟩

theorem Inv.opens (inv : Inv strict perPage s) {rest : List Nat} (free : s.freeList = id :: rest) :
    Inv strict perPage { setBox s id { s.boxes id with state := .opened, maxSlots, queue := [], era := s.eras } with
      freeList := rest, eras := s.eras + 1 } := by
  obtain ⟨closed, known⟩ := inv.pool.free id (by rw [free]; simp)
  obtain ⟨empty, unused⟩ := (inv.shapes id).closed closed
  have unborn := inv.ledger.unborn s.eras le_rfl
  have distinct := inv.pool.nodup
  rw [free, nodup_cons] at distinct
  have before : ∀ other, other ≠ id →
    (update s.boxes id { s.boxes id with state := .opened, maxSlots, queue := [], era := s.eras })
    other = s.boxes other := fun other different => update_of_ne different _ _
  have opens : ∀ e, State.openAt
    { setBox s id { s.boxes id with state := .opened, maxSlots, queue := [], era := s.eras } with
      freeList := rest, eras := s.eras + 1 } e ↔ e = s.eras ∨ s.openAt e := by
    intro e
    constructor
    · rintro ⟨other, opened, era⟩
      obtain rfl | same := eq_or_ne other id
      · simp only [setBox, update_self] at era
        exact .inl era.symm
      · simp only [setBox, before other same] at opened era
        exact .inr ⟨other, opened, era⟩
    · rintro (rfl | ⟨other, opened, era⟩)
      · exact ⟨id, by simp [setBox], by simp [setBox]⟩
      have different : other ≠ id := by
        rintro rfl
        cases closed.symm.trans opened
      exact ⟨other, by simpa [setBox, different] using opened, by simpa [setBox, different] using era⟩
  constructor
  case shapes =>
    intro other
    obtain rfl | same := eq_or_ne other id
    · simp only [setBox, update_self]
      constructor <;> simp [Lane.waiting, unborn, empty]
    · simp only [setBox, before other same]
      exact inv.shapes other
  case users =>
    refine inv.users.same rfl fun other => ?_
    by_cases same : other = id <;> simp [setBox, same]
  case pool =>
    constructor
    case known =>
      intro other live
      obtain rfl | same := eq_or_ne other id
      · simp only [setBox, update_self]
        exact ⟨known, Nat.lt_succ_self _⟩
      · simp only [setBox, before other same] at live ⊢
        obtain ⟨page, young⟩ := inv.pool.known other live
        exact ⟨page, Nat.lt_succ_of_lt young⟩
    case apart =>
      -- The new opening is younger than those of the other boxes.
      intro one two live₁ live₂ equal
      simp only [setBox] at live₁ live₂ equal
      by_cases first : one = id
      · by_cases second : two = id
        · exact first.trans second.symm
        · rw [first, update_self, before two second] at equal
          rw [before two second] at live₂
          exact absurd equal.symm (Nat.ne_of_lt (inv.pool.known two live₂).2)
      · rw [before one first] at live₁ equal
        by_cases second : two = id
        · rw [second, update_self] at equal
          exact absurd equal (Nat.ne_of_lt (inv.pool.known one live₁).2)
        · rw [before two second] at live₂ equal
          exact inv.pool.apart one two live₁ live₂ equal
    case free =>
      intro other listed
      have different : other ≠ id := by
        rintro rfl
        exact distinct.1 listed
      simp only [setBox, before other different]
      exact inv.pool.free other (by rw [free]; exact mem_cons_of_mem _ listed)
    case nodup => exact distinct.2
  case ledger =>
    refine ⟨inv.ledger.numbered, fun e late => inv.ledger.unborn e (Nat.le_of_succ_le late),
      inv.ledger.finite, inv.ledger.once, fun e shut => ?_, fun x member again => ?_⟩
    · exact inv.ledger.idle e fun opened => shut ((opens e).mpr (.inr opened))
    rcases (opens x.era).mp again with new | opened
    · have once := inv.ledger.once x
      have positive : 0 < s.discarded.count x := count_pos_iff.mpr member
      rw [new, Lane.gone, unborn, take_nil, count_nil] at once
      omega
    · exact inv.ledger.discarded x member opened
  case homes =>
    refine ⟨fun q home x held other opened era => ?_, inv.homes.within⟩
    have young := (inv.ledger.left_of_home held).2
    simp only [setBox] at opened era
    by_cases same : other = id
    · rw [same, update_self] at era
      exact absurd era.symm young.ne
    · rw [before other same] at opened era
      exact inv.homes.home q home x held other opened era

theorem Inv.init (inv : Inv strict perPage s) (positive : 0 < perPage) :
    Ends excused (step perPage s (.init p maxSlots page)) (Kept strict perPage) := by
  simp only [step, ipcMboxInit]
  split
  · exact inv
  unfold newMbox
  split
  · exact inv
  · next grown grows =>
    obtain ⟨kept, some⟩ := inv.growMap positive grows
    split
    · next none => exact absurd none some
    · next id rest free => exact kept.opens free

end Opening

theorem inv_boot (strict : Prop) (perPage : Nat) : Inv strict perPage boot := by
  have hand : boot.hand = fun _ => none := rfl
  have inside : boot.inside = fun _ => none := rfl
  constructor
  case shapes =>
    intro id
    constructor <;> simp [boot, Box.blank]
  case users => exact ⟨fun id => by simp [inside, places], fun id => by rw [inside, tally_none]; rfl⟩
  case pool => constructor <;> simp [boot, Box.blank]
  case ledger =>
    constructor
    case finite => simp [hand, places]
    case once =>
      intro x
      rw [hand, tally_none]
      rfl
    all_goals simp [boot, Lane.empty, Lane.waiting]
  case homes => constructor <;> simp [boot, Pc.home, Pc.place]

theorem Inv.step (inv : Inv strict perPage s) (positive : 0 < perPage) (op : Op) : Steps strict perPage s op := by
  cases op with
  | init => exact fun _ _ _ => inv.init positive
  | send => exact inv.send
  | sendLookup => exact inv.sendLookup
  | sendEnter => exact inv.sendEnter
  | sendResume => exact inv.sendResume
  | recv => exact inv.recv
  | recvLookup => exact inv.recvLookup
  | recvEnter => exact inv.recvEnter
  | recvResume => exact inv.recvResume
  | copyOut => exact inv.copyOut
  | backLookup => exact inv.backLookup
  | putBack => exact inv.putBack
  | free => exact inv.free
  | freeEnter => exact inv.freeEnter
  | info => exact fun _ _ _ => inv.info

theorem Inv.delivers (inv : Inv strict perPage s) : Delivers s := by
  constructor
  case fifo =>
    intro id live
    by_cases opened : (s.boxes id).state = .opened
    · exact ((inv.shapes id).opened opened).1
    · rw [((inv.shapes id).unopened opened).1, inv.waiting_shut live opened]
  case distinct =>
    intro e
    refine ⟨nodup_iff_getElem?_ne_getElem?.mpr fun i j less within same => ?_, fun x member => ?_⟩
    · have found := getElem?_eq_getElem within
      have first := (inv.ledger.numbered e i _ (same.trans found)).2
      have second := (inv.ledger.numbered e j _ found).2
      omega
    · obtain ⟨k, found⟩ := mem_iff_getElem?.mp member
      exact (inv.ledger.numbered e k x found).1
  case once => exact inv.ledger.once
  case idle => exact inv.ledger.idle
  case discarded => exact inv.ledger.discarded

theorem Box.Shape.sound {box : Box} {waiting : List Entry} (shape : box.Shape strict waiting) : box.Sound := by
  refine ⟨shape.bounded, fun other => ?_, fun closed => ?_⟩
  · cases state : box.state with
    | closed => rw [(shape.closed state).1, (shape.unopened (by rw [state]; decide)).1]; rfl
    | opened => exact (shape.opened state).2
    | closing => exact absurd state other
  · obtain ⟨empty, senders, receivers⟩ := shape.unopened (by rw [closed]; decide)
    exact ⟨empty, (shape.closed closed).2, senders, receivers⟩

/-- Everything that is promised of the boxes and of their messages. -/
def Right (s : State) : Prop := Delivers s ∧ ∀ id, (s.boxes id).Sound

theorem right_of_run (strict : Prop) {condition : State → Op → Prop} (undisturbed : ∀ s op, condition s op → Undisturbed s op)
    (unused : strict → ∀ s op, condition s op → Unused s op) (perPage : Nat) :
      ((machine perPage).restrict condition).SafeExcept (fun _ => False) fun s =>
      Right s ∧ (strict → ∀ id, (s.boxes id).slots = (s.boxes id).queue.length) := by
  refine Machine.safeExcept_of_invariant (show ∀ s, _ → Inv strict perPage s ∧ 0 < perPage from ?_) ?_ ?_
  · rintro s ⟨rfl, positive⟩
    exact ⟨inv_boot strict perPage, positive⟩
  · rintro s op ⟨inv, positive⟩ ⟨allowed, meets⟩
    exact (inv.step positive op allowed (undisturbed s op meets) fun holds =>
      unused holds s op meets).mono fun _ kept => ⟨kept, positive⟩
  · rintro s ⟨inv, _⟩
    refine ⟨⟨inv.delivers, fun id => (inv.shapes id).sound⟩, fun holds id => ?_⟩
    by_cases closing : (s.boxes id).state = .closing
    · rw [(inv.shapes id).closing holds closing, ((inv.shapes id).unopened (by rw [closing]; decide)).1]
      rfl
    · exact (inv.shapes id).sound.counted closing

/-- The count of a box that was closed while somebody waited in it goes wrong, but nothing looks at
it any more. -/
theorem messages_delivered_when_undisturbed (perPage : Nat) :
    ((machine perPage).restrict Undisturbed).SafeExcept (fun _ => False) Right ∧
      ((machine perPage).restrict fun s op => Undisturbed s op ∧ Unused s op).SafeExcept (fun _ => False) fun s =>
        Right s ∧ ∀ id, (s.boxes id).slots = (s.boxes id).queue.length := by
  refine ⟨fun s reachable => ?_, fun s reachable => ?_⟩
  · obtain ⟨right, steps⟩ := right_of_run False (fun _ _ meets => meets) (fun impossible =>
      impossible.elim) perPage s reachable
    exact ⟨right.1, fun op allowed => (steps op allowed).mono fun _ kept => kept.1⟩
  · obtain ⟨right, steps⟩ := right_of_run True (fun _ _ meets => meets.1) (fun _ _ _ meets => meets.2) perPage s reachable
    exact ⟨⟨right.1, right.2 trivial⟩, fun op allowed => (steps op allowed).mono fun _ kept => ⟨kept.1, kept.2 trivial⟩⟩

/-- Process 2 takes the message of a box with one slot, process 1 sends another one, and process 2
cannot copy its message out. -/
theorem box_over_full_after_put_back : ∃ s, (machine 46).Reachable s ∧ (s.boxes 0).maxSlots < (s.boxes 0).slots := by
  have start : (machine 46).Run [] boot := .start ⟨rfl, by decide⟩
  have made := start.next (.init 0 1 true) rfl rfl
  have loaded := made.next (.send 1 0 (.reads [7])) ⟨rfl, by simp [maxMsgBytes]⟩ rfl
  have found := loaded.next (.sendLookup 1) ⟨_, _, rfl⟩ rfl
  have sent := found.next (.sendEnter 1) ⟨_, _, rfl⟩ rfl
  have asked := sent.next (.recv 2 0 (.reads 16)) ⟨rfl, by simp⟩ rfl
  have found' := asked.next (.recvLookup 2) ⟨_, _, rfl⟩ rfl
  have taken := found'.next (.recvEnter 2) ⟨_, _, rfl⟩ rfl
  have loaded' := taken.next (.send 1 0 (.reads [8])) ⟨rfl, by simp [maxMsgBytes]⟩ rfl
  have found'' := loaded'.next (.sendLookup 1) ⟨_, _, rfl⟩ rfl
  have again := found''.next (.sendEnter 1) ⟨_, _, rfl⟩ rfl
  have failed := again.next (.copyOut 2 false) ⟨_, _, rfl⟩ rfl
  have looked := failed.next (.backLookup 2) ⟨_, _, rfl⟩ rfl
  have back := looked.next (.putBack 2) ⟨_, _, rfl⟩ rfl
  exact ⟨_, ⟨_, back⟩, by decide⟩

/-- Boxes are only opened and freed, and no page of boxes is added that goes beyond the greatest
number. -/
def Numbers (perPage : Nat) (s : State) : Op → Prop
  | .init .. => s.freeList ≠ [] ∨ (s.pages + 1) * perPage ≤ maxMboxNum
  | .free .. | .freeEnter .. => True
  | _ => False

/-- A new box had not been open, and a box is found under its number from then on until it is freed.
-/
structure Numbered (perPage : Nat) (s : State) (op : Op) (result : State × Reply) : Prop where
  fresh : ∀ p maxSlots page (id : Nat), op = .init p maxSlots page → result.2 = .returns id →
    (s.boxes id).state ≠ .opened ∧ getMbox perPage result.1 id = some id
  kept : ∀ id : Nat, getMbox perPage s id = some id →
    getMbox perPage result.1 id = some id ∨ ∃ p, op = .freeEnter p ∧ s.pc p = .freeFound id

theorem init_numbered (inv : Inv strict perPage s) (positive : 0 < perPage) (fits : s.pages * perPage ≤ maxMboxNum)
    (spare : Numbers perPage s (.init p maxSlots page)) :
      Ends (fun _ => True) (step perPage s (.init p maxSlots page)) fun result =>
      result.1.pages * perPage ≤ maxMboxNum ∧ Numbered perPage s (.init p maxSlots page) result := by
  have fails : ∀ ret : Int, ret < 0 → s.pages * perPage ≤ maxMboxNum ∧ Numbered perPage s
    (.init p maxSlots page) (s, .returns ret) := by
    refine fun ret negative => ⟨fits, fun _ _ _ id _ same => ?_, fun _ found => .inl found⟩
    injection same with same
    omega
  simp only [step, ipcMboxInit]
  split
  · exact fails _ (by decide)
  unfold newMbox
  split
  · exact fails _ (by decide)
  · next grown grows =>
    obtain ⟨kept, some⟩ := inv.growMap positive grows
    have grew : grown.pages * perPage ≤ maxMboxNum ∧ s.pages ≤ grown.pages ∧ ∀ id,
      (s.boxes id).state = .opened → grown.boxes id = s.boxes id := by
      unfold growMap at grows
      split at grows
      · next none =>
        split at grows <;> cases grows
        refine ⟨spare.resolve_left (absurd none), Nat.le_succ _, fun id opened => if_neg ?_⟩
        exact Nat.ne_of_lt (inv.pool.known id (by rw [opened]; decide)).1
      · cases grows
        exact ⟨fits, le_rfl, fun _ _ => rfl⟩
    obtain ⟨most, more, old⟩ := grew
    split
    · next none => exact absurd none some
    · next new rest free =>
      obtain ⟨closed, known⟩ := kept.pool.free new (by simp [free])
      have other : ∀ id, (s.boxes id).state = .opened → id ≠ new := by
        rintro id opened rfl
        rw [old id opened, opened] at closed
        cases closed
      refine ⟨most, fun _ _ _ id _ same => ?_, fun id found => .inl ?_⟩
      · injection same with same
        cases Int.ofNat.inj same
        have within : new < maxMboxNum := Nat.lt_of_lt_of_le (Nat.lt_mul_of_div_lt known positive) most
        exact ⟨fun opened => other new opened rfl, getMbox_open within known (by simp [setBox])⟩
      · obtain ⟨_, within, known, opened⟩ := getMbox_some found
        refine getMbox_open within (known.trans_le more) ?_
        simp [setBox, other id opened, old id opened, opened]

theorem closeBox_others (s : State) (id : Nat) : Ends (fun _ => True) (closeBox s id) fun t =>
    t.pages = s.pages ∧ ∀ other, other ≠ id → t.boxes other = s.boxes other := by
  unfold closeBox
  by_cases closed : (s.boxes id).state = .closed
  · simp only [if_pos closed]
    trivial
  dsimp only
  rw [if_neg closed]
  split
  · next last =>
    refine .of_ok (mboxFree_ok ?_ last ?_) ⟨rfl, fun other different => ?_⟩
    all_goals simp [freed, setLane, setBox, *]
  · exact ⟨rfl, fun other different => by simp [setLane, setBox, different]⟩

/-- A free can still find a box that was freed meanwhile, and takes its link in the list of free
boxes for a message. -/
theorem mailboxes_numbered_within_pages (perPage : Nat) :
    ((machine perPage).restrict (Numbers perPage)).ConformsExcept
      (· = .misread "free_msg(le2msg(le, msg_link))") (fun _ => True) (Numbered perPage) := by
  refine Machine.conformsExcept_of_invariant (show ∀ s, _ → Inv False perPage s ∧ 0 < perPage ∧
    s.pages * perPage ≤ maxMboxNum from ?_) ?_ fun _ _ => trivial
  · rintro s ⟨rfl, positive⟩
    exact ⟨inv_boot False perPage, positive, by simp [boot]⟩
  rintro s op ⟨inv, positive, fits⟩ ⟨allowed, numbers⟩
  by_cases undisturbed : Undisturbed s op
  · obtain ⟨result, ran, kept⟩ := (inv.step positive op allowed undisturbed False.elim).exists_ok fun _ => id
    refine .of_ok ran ?_
    cases op with
    | init =>
      obtain ⟨most, does⟩ := (init_numbered inv positive fits numbers).value ran
      exact ⟨⟨kept, positive, most⟩, does⟩
    | free =>
      have same : result.1.boxes = s.boxes ∧ result.1.pages = s.pages := by
        simp only [step] at ran
        split at ran <;> cases ran <;> exact ⟨rfl, rfl⟩
      refine ⟨⟨kept, positive, same.2 ▸ fits⟩, nofun, fun id found => .inl ?_⟩
      simpa only [getMbox, same] using found
    | freeEnter p =>
      obtain ⟨id, here⟩ := allowed
      simp only [step, here] at ran
      obtain ⟨t, closes, ran⟩ := exists_of_bind ran
      cases ran
      obtain ⟨pages, others⟩ := (closeBox_others s id).value closes
      refine ⟨⟨kept, positive, pages ▸ fits⟩, nofun, fun box found => ?_⟩
      by_cases same : box = id
      · exact .inr ⟨p, rfl, same ▸ here⟩
      · left
        simpa only [getMbox, setPc, pages, Int.toNat_natCast, others box same] using found
    | _ => cases numbers
  · cases op with
    | freeEnter p =>
      obtain ⟨id, here⟩ := allowed
      have closed : (s.boxes id).state = .closed := by
        by_contra live
        refine undisturbed fun box found => ?_
        cases here.symm.trans found
        exact live
      show Ends _ (step perPage s (.freeEnter p)) _
      simp only [step, here, closeBox, if_pos closed]
      rfl
    | init | free => exact absurd trivial undisturbed
    | _ => cases numbers

/-- The first `k` boxes have been opened. -/
structure Opened (k : Nat) (s : State) : Prop where
  user : s.pc 0 = .user
  pages : s.pages = (k + 45) / 46
  free : s.freeList = range' k (s.pages * 46 - k)

theorem Opened.next {k : Nat} (opened : Opened k s) (room : k < 8234) :
    ∃ t, step 46 s (.init 0 1 true) = .ok (t, .returns k) ∧ Opened (k + 1) t := by
  obtain ⟨user, pages, free⟩ := opened
  have grows : ∃ t, growMap 46 s true = some t ∧ t.pc = s.pc ∧ t.pages = (k + 46) / 46 ∧
    t.freeList = k :: range' (k + 1) (t.pages * 46 - (k + 1)) := by
    unfold growMap
    by_cases full : s.pages * 46 = k
    · have below : s.pages ≠ maxMboxPages 46 := Nat.ne_of_lt (show s.pages < 179 by omega)
      rw [if_pos (by simp [free, full]), if_neg (by simp [below])]
      refine ⟨_, rfl, rfl, show s.pages + 1 = _ by omega, ?_⟩
      show range' (s.pages * 46) 46 = k :: range' (k + 1) ((s.pages + 1) * 46 - (k + 1))
      rw [full, show (s.pages + 1) * 46 - (k + 1) = 45 by omega]
      rfl
    · rw [show s.pages * 46 - k = s.pages * 46 - (k + 1) + 1 by omega, range'_succ] at free
      rw [if_neg (by simp [free])]
      exact ⟨s, rfl, rfl, by omega, free⟩
  obtain ⟨t, grows, same, more, list⟩ := grows
  refine ⟨{ setBox t k { t.boxes k with state := .opened, maxSlots := 1, queue := [], era := t.eras } with
    freeList := range' (k + 1) (t.pages * 46 - (k + 1)), eras := t.eras + 1 }, ?_, same ▸ user, more, rfl⟩
  simp [ipcMboxInit, newMbox, grows, list, maxMsgSlots]
  rfl

theorem opened_in_order (k : Nat) (room : k ≤ 8234) : ∃ s, (machine 46).Reachable s ∧ Opened k s := by
  induction k with
  | zero => exact ⟨boot, ⟨[], .start ⟨rfl, by decide⟩⟩, rfl, rfl, rfl⟩
  | succ k ih =>
    obtain ⟨s, ⟨trace, run⟩, opened⟩ := ih (Nat.le_of_succ_le room)
    obtain ⟨t, ran, opened'⟩ := opened.next room
    exact ⟨t, ⟨_, run.next (.init 0 1 true) opened.user ran⟩, opened'⟩

/-- A page holds 46 boxes, and the last of 179 pages goes beyond the greatest number. -/
theorem mailbox_opened_out_of_range : ∃ s t, (machine 46).Reachable s ∧ step 46 s (.init 0 1 true) =
    .ok (t, .returns maxMboxNum) ∧ getMbox 46 t maxMboxNum = none := by
  obtain ⟨s, reachable, opened⟩ := opened_in_order maxMboxNum (by decide)
  obtain ⟨t, ran, _⟩ := opened.next (by decide)
  exact ⟨s, t, reachable, ran, by simp [getMbox]⟩

end Ucore.Mbox
