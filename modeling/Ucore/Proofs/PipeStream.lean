import Ucore.Lib.Window
import Ucore.Pipe

/-! A pipe passes its bytes on in order as long as its positions have not gone around: the
buffer size does not divide the range of the positions, so the slot of a byte changes there. -/

namespace Ucore.Pipe
open Lib Function List

variable {s t : State} {id : Nat} {call : Call} {data : List UInt8} {old : Call} {n : Nat}

/-- The positions, the buffer and the bytes that have passed. -/
structure Core (s : State) : Prop where
  behind : s.returned.length ≤ s.accepted.length
  within : s.accepted.length ≤ s.returned.length + pipeBufsize
  rpos : s.rpos = s.returned.length % word
  wpos : s.wpos = s.accepted.length % word
  stream : s.returned.map Prod.snd = (s.accepted.map Prod.snd).take s.returned.length
  window : Window s.buf pipeBufsize (s.accepted.map Prod.snd) s.returned.length
  bound : s.accepted.length ≤ word

section
variable (core : Core s)
include core

theorem Core.occupancy : occupancy s = s.accepted.length - s.returned.length := by
  obtain ⟨behind, within, rpos, wpos, _, _, bound⟩ := core
  simp only [Pipe.occupancy, rpos, wpos]
  simp only [pipeBufsize, word] at within bound ⊢
  omega

theorem Core.isEmpty_iff : isEmpty s = true ↔ s.returned.length = s.accepted.length := by
  obtain ⟨behind, within, rpos, wpos, _, _, bound⟩ := core
  simp only [isEmpty, rpos, wpos, decide_eq_true_eq]
  simp only [pipeBufsize, word] at within bound ⊢
  omega

theorem Core.isFull_iff : isFull s = true ↔ s.accepted.length = s.returned.length + pipeBufsize := by
  have within := core.within
  have behind := core.behind
  rw [isFull, core.occupancy, decide_eq_true_eq]
  omega

theorem Core.readByte (id : Nat) (filled : isEmpty s = false) : Core (readByte s id) := by
  have open_ : s.returned.length < s.accepted.length := by
    refine lt_of_le_of_ne core.behind fun same => ?_
    rw [core.isEmpty_iff.mpr same] at filled
    cases filled
  have length : (Pipe.readByte s id).returned.length = s.returned.length + 1 := by simp [Pipe.readByte]
  have inside : s.returned.length < (s.accepted.map Prod.snd).length := by simpa using open_
  have byte : s.buf (s.rpos % pipeBufsize) = (s.accepted.map Prod.snd)[s.returned.length] := by
    have small : s.returned.length < word := open_.trans_le core.bound
    rw [core.rpos, Nat.mod_eq_of_lt small]
    exact core.window s.returned.length le_rfl _ (getElem?_eq_getElem inside)
  have within := core.within
  refine ⟨?_, ?_, ?_, core.wpos, ?_, ?_, core.bound⟩
  · rwa [length]
  · rw [length]
    exact within.trans (by omega)
  · rw [length]
    simp only [Pipe.readByte, core.rpos, Nat.mod_add_mod]
  · rw [length]
    simp only [Pipe.readByte, map_append, map_cons, map_nil]
    rw [core.stream, byte, take_append_getElem inside]
  · rw [length]
    exact core.window.drop (Nat.le_succ _)

theorem Core.writeByte (id : Nat) (byte : UInt8) (room : isFull s = false)
    (bound : s.accepted.length < word) : Core (writeByte s id byte) := by
  have space : s.accepted.length < s.returned.length + pipeBufsize := by
    refine lt_of_le_of_ne core.within fun same => ?_
    rw [core.isFull_iff.mpr same] at room
    cases room
  have length : (Pipe.writeByte s id byte).accepted.length = s.accepted.length + 1 := by simp [Pipe.writeByte]
  have wpos : s.wpos = (s.accepted.map Prod.snd).length := by rw [core.wpos, Nat.mod_eq_of_lt bound, length_map]
  have behind := core.behind
  refine ⟨?_, ?_, core.rpos, ?_, ?_, ?_, ?_⟩
  · rw [length]
    exact Nat.le_succ_of_le behind
  · rwa [length]
  · rw [length]
    simp only [Pipe.writeByte, core.wpos, Nat.mod_add_mod]
  · simp only [Pipe.writeByte, map_append]
    rw [take_append_of_le_length (by simpa using behind)]
    exact core.stream
  · simp only [Pipe.writeByte, map_append, map_cons, map_nil, wpos]
    exact core.window.push (by simpa using space) byte
  · rwa [length]

end

structure SameCalls (s t : State) : Prop where
  calls : t.calls = s.calls
  count : t.count = s.count
  readers : t.readerQueue = s.readerQueue
  writers : t.writerQueue = s.writerQueue

theorem readLoop_spec (id n : Nat) (core : Core s) : Core (readLoop id n s).1 ∧
    SameCalls s (readLoop id n s).1 ∧ (readLoop id n s).1.accepted = s.accepted ∧
      (readLoop id n s).1.returned = s.returned ++ (readLoop id n s).2.map (Prod.mk id) ∧
        (readLoop id n s).2.length ≤ n := by
  induction n generalizing s with
  | zero => exact ⟨core, ⟨rfl, rfl, rfl, rfl⟩, rfl, by simp [readLoop], le_rfl⟩
  | succ n ih =>
    unfold readLoop
    split
    · exact ⟨core, ⟨rfl, rfl, rfl, rfl⟩, rfl, by simp, Nat.zero_le _⟩
    · next filled =>
      obtain ⟨kept, same, accepted, returned, short⟩ := ih (core.readByte id (by simpa using filled))
      refine ⟨kept, { same with }, accepted, ?_, Nat.succ_le_succ short⟩
      rw [returned]
      simp [readByte]

theorem writeLoop_spec (id : Nat) (data : List UInt8) (core : Core s)
    (bound : s.accepted.length + data.length ≤ word) : Core (writeLoop id data s).1 ∧
    SameCalls s (writeLoop id data s).1 ∧ (writeLoop id data s).1.returned = s.returned ∧
      ∃ written, data = written ++ (writeLoop id data s).2 ∧ (writeLoop id data s).1.accepted =
        s.accepted ++ written.map (Prod.mk id) := by
  induction data generalizing s with
  | nil => exact ⟨core, ⟨rfl, rfl, rfl, rfl⟩, rfl, [], by simp [writeLoop], by simp [writeLoop]⟩
  | cons byte rest ih =>
    rw [length_cons] at bound
    unfold writeLoop
    split
    · exact ⟨core, ⟨rfl, rfl, rfl, rfl⟩, rfl, [], by simp, by simp⟩
    · next room =>
      have length : (writeByte s id byte).accepted.length = s.accepted.length + 1 := by simp [writeByte]
      obtain ⟨kept, same, returned, written, split, accepted⟩ :=
        ih (core.writeByte id byte (by simpa using room) (by omega)) (by omega)
      refine ⟨kept, { same with }, returned, byte :: written, ?_, ?_⟩
      · rw [cons_append, ← split]
      · rw [accepted]
        simp [writeByte]

structure Inv (s : State) : Prop where
  core : Core s
  counts : ∀ id, ∀ call ∈ s.calls id, Counts s id call
  fresh : ∀ id, s.count ≤ id → s.calls id = none ∧ ∀ entry ∈ s.accepted ++ s.returned, entry.1 ≠ id

theorem Inv.fifo (inv : Inv s) : Fifo s := by
  refine ⟨?_, inv.counts, ?_⟩
  · rw [inv.core.stream]
    exact take_prefix ..
  · rw [inv.core.occupancy]
    have within := inv.core.within
    omega

structure SameBytes (s t : State) : Prop where
  rpos : t.rpos = s.rpos
  wpos : t.wpos = s.wpos
  buf : t.buf = s.buf
  accepted : t.accepted = s.accepted
  returned : t.returned = s.returned

theorem Core.congr (core : Core s) (same : SameBytes s t) : Core t := by
  obtain ⟨rpos, wpos, buf, accepted, returned⟩ := same
  constructor <;> simp only [rpos, wpos, buf, accepted, returned]
  · exact core.behind
  · exact core.within
  · exact core.rpos
  · exact core.wpos
  · exact core.stream
  · exact core.window
  · exact core.bound

theorem moved_congr (same : SameBytes s t) (id : Nat) (want : Want) : moved t id want = moved s id want := by
  cases want <;> simp [moved, same.accepted, same.returned]

theorem Counts.congr (counts : Counts s id old) (same : ∀ want, moved t id want = moved s id want)
    (want : call.want = old.want) (ret : call.ret = old.ret) (got : call.got = old.got) :
    Counts t id call := by
  unfold Counts at counts ⊢
  simp only [same, want, ret, got]
  exact counts

def SameCounts (s t : State) : Prop :=
  ∀ id, ∀ call ∈ t.calls id, ∃ old ∈ s.calls id, call.want = old.want ∧ call.ret = old.ret ∧ call.got = old.got

theorem Inv.moveCalls (inv : Inv s) (same : SameBytes s t) (count : t.count = s.count) (calls : SameCounts s t) : Inv t := by
  refine ⟨inv.core.congr same, fun id call held => ?_, fun id beyond => ?_⟩
  · obtain ⟨old, was, want, ret, got⟩ := calls id call held
    exact (inv.counts id old was).congr (moved_congr same id) want ret got
  obtain ⟨none, absent⟩ := inv.fresh id (count ▸ beyond)
  rw [same.accepted, same.returned]
  refine ⟨?_, absent⟩
  cases held : t.calls id with
  | none => rfl
  | some call =>
    obtain ⟨old, was, _⟩ := calls id call held
    cases none.symm.trans was

theorem sameCounts_wake (s : State) (queue : List Nat) (t : State) (calls : t.calls = fun id =>
    if id ∈ queue then (s.calls id).map wake else s.calls id) : SameCounts s t := by
  intro id call held
  rw [calls] at held
  dsimp only at held
  split at held
  · obtain ⟨old, was, rfl⟩ := Option.map_eq_some_iff.mp held
    exact ⟨old, was, rfl, rfl, rfl⟩
  · exact ⟨call, held, rfl, rfl, rfl⟩

theorem Inv.wakeupReader (inv : Inv s) : Inv (wakeupReader s) :=
  inv.moveCalls ⟨rfl, rfl, rfl, rfl, rfl⟩ rfl (sameCounts_wake s s.readerQueue _ rfl)

theorem Inv.wakeupWriter (inv : Inv s) : Inv (wakeupWriter s) :=
  inv.moveCalls ⟨rfl, rfl, rfl, rfl, rfl⟩ rfl (sameCounts_wake s s.writerQueue _ rfl)

theorem Inv.place (inv : Inv s) (held : s.calls id = some call) (place : Place) (same : SameBytes s t)
    (count : t.count = s.count) (calls : t.calls = update s.calls id (some { call with place })) :
    Inv t := by
  refine inv.moveCalls same count fun other changed found => ?_
  rw [calls, update_apply] at found
  split at found
  · next here =>
    cases found
    exact ⟨call, here ▸ held, rfl, rfl, rfl⟩
  · exact ⟨changed, found, rfl, rfl, rfl⟩

theorem SameCounts.refl (s : State) : SameCounts s s := fun _ call held => ⟨call, held, rfl, rfl, rfl⟩

theorem SameCounts.trans {u : State} (first : SameCounts s t) (second : SameCounts t u) : SameCounts s u := by
  intro id call held
  obtain ⟨old, was, want, ret, got⟩ := second id call held
  obtain ⟨older, before, want', ret', got'⟩ := first id old was
  exact ⟨older, before, want.trans want', ret.trans ret', got.trans got'⟩

theorem calls_setCall (s : State) (id other : Nat) (call : Call) :
    (setCall s id call).calls other = if other = id then some call else s.calls other := by
      simp [setCall, update_apply]

theorem Inv.moveBytes (inv : Inv s) (held : s.calls id = some old) (core : Core t)
    (count : t.count = s.count) (calls : SameCounts s t) (accepted : ∃ written : List UInt8,
    t.accepted = s.accepted ++ written.map (Prod.mk id))
    (returned : ∃ read : List UInt8, t.returned = s.returned ++ read.map (Prod.mk id))
      (own : Counts t id call) : Inv (setCall t id call) := by
  obtain ⟨written, acceptedIs⟩ := accepted
  obtain ⟨read, returnedIs⟩ := returned
  have apart : ∀ other, other ≠ id → ∀ bytes : List UInt8, (bytes.map (Prod.mk id)).filter
    (fun entry => entry.1 = other) = [] := by
    intro other away bytes
    rw [filter_eq_nil_iff]
    rintro entry listed
    obtain ⟨byte, _, rfl⟩ := mem_map.mp listed
    simpa using Ne.symm away
  have moves : ∀ other, other ≠ id → ∀ want, moved (setCall t id call) other want = moved s other want := by
    intro other away want
    cases want <;> simp [moved, setCall, acceptedIs, returnedIs, filter_append, apart other away]
  refine ⟨core.congr ⟨rfl, rfl, rfl, rfl, rfl⟩, fun other found here => ?_, fun other beyond => ?_⟩
  · rw [calls_setCall] at here
    split at here
    · next same =>
      cases here
      subst same
      exact own.congr (fun want => by cases want <;> rfl) rfl rfl rfl
    · next away =>
      obtain ⟨before, was, want, ret, got⟩ := calls other found here
      exact (inv.counts other before was).congr (moves other away) want ret got
  have early : ¬ s.count ≤ id := by
    intro late
    rw [(inv.fresh id late).1] at held
    cases held
  have old := count ▸ beyond
  have away : other ≠ id := fun same => early (same ▸ old)
  obtain ⟨none, absent⟩ := inv.fresh other old
  refine ⟨?_, fun entry listed => ?_⟩
  · rw [calls_setCall, if_neg away]
    cases found : t.calls other with
    | none => rfl
    | some call =>
      obtain ⟨before, was, _⟩ := calls other call found
      cases none.symm.trans was
  change entry ∈ t.accepted ++ t.returned at listed
  rw [acceptedIs, returnedIs] at listed
  have mine : ∀ bytes : List UInt8, entry ∈ bytes.map (Prod.mk id) → entry.1 ≠ other := by
    intro bytes moved same
    obtain ⟨byte, _, rfl⟩ := mem_map.mp moved
    exact away same.symm
  simp only [mem_append] at listed
  rcases listed with (before | new) | (before | new)
  · exact absent entry (mem_append_left _ before)
  · exact mine written new
  · exact absent entry (mem_append_right _ before)
  · exact mine read new

theorem moved_own (entries : List (Nat × UInt8)) (id : Nat) (bytes : List UInt8) :
    ((entries ++ bytes.map (Prod.mk id)).filter fun entry => entry.1 = id).map Prod.snd =
    (entries.filter fun entry => entry.1 = id).map Prod.snd ++ bytes := by
  have all : (bytes.map (Prod.mk id)).filter (fun entry => entry.1 = id) = bytes.map (Prod.mk id) := by
    rw [filter_eq_self]
    rintro entry listed
    obtain ⟨byte, _, rfl⟩ := mem_map.mp listed
    simp
  rw [filter_append, all, map_append]
  simp [comp_def]

theorem enterRead_inv (inv : Inv s) (held : s.calls id = some call) (want : call.want = .read n) :
    Inv (enterRead s id call n) := by
  unfold enterRead
  split
  · split
    · exact inv.place held .returned ⟨rfl, rfl, rfl, rfl, rfl⟩ rfl rfl
    · exact inv.place held .parking ⟨rfl, rfl, rfl, rfl, rfl⟩ rfl rfl
  obtain ⟨core, same, accepted, returned, short⟩ := readLoop_spec id (n - call.ret) inv.core
  obtain ⟨⟨after, bytes⟩, loop⟩ : ∃ result, readLoop id (n - call.ret) s = result := ⟨_, rfl⟩
  rw [loop] at core same accepted returned short
  simp only [loop]
  dsimp only at core same accepted returned short
  obtain ⟨counted, most, got⟩ : call.ret = (moved s id call.want).length ∧ call.ret ≤ n ∧
    call.got = moved s id call.want := by
    have counts := inv.counts id call held
    simp only [Counts, want] at counts ⊢
    exact counts
  have own : ∀ t : State, t.returned = after.returned →
    Counts t id { call with
    ret := call.ret + bytes.length, got := call.got ++ bytes, place := .returned } := by
    intro t logs
    have moves : moved t id call.want = moved s id call.want ++ bytes := by
      rw [want]
      simp only [moved, logs, returned]
      exact moved_own s.returned id bytes
    simp only [Counts, moves]
    refine ⟨by rw [counted, length_append], ?_⟩
    rw [want]
    exact ⟨by omega, by rw [got, want]⟩
  split
  · refine inv.moveBytes held (core.congr ⟨rfl, rfl, rfl, rfl, rfl⟩) same.count ?_
      ⟨[], by simp [wakeupWriter, accepted]⟩ ⟨bytes, returned⟩ (own _ rfl)
    exact sameCounts_wake s after.writerQueue _ (by rw [← same.calls]; rfl)
  · exact inv.moveBytes held core same.count (fun id call held =>
      ⟨call, same.calls ▸ held, rfl, rfl, rfl⟩) ⟨[], by simp [accepted]⟩ ⟨bytes, returned⟩
      (own _ rfl)

theorem enterWrite_inv (inv : Inv s) (held : s.calls id = some call) (want : call.want = .write data)
    (bound : s.accepted.length + (data.drop call.ret).length ≤ word) :
    Inv (enterWrite s id call data) := by
  unfold enterWrite
  split
  · exact inv.place held .returned ⟨rfl, rfl, rfl, rfl, rfl⟩ rfl rfl
  obtain ⟨core, same, returned, written, split, accepted⟩ := writeLoop_spec id (data.drop call.ret) inv.core bound
  obtain ⟨⟨after, rest⟩, loop⟩ : ∃ result, writeLoop id (data.drop call.ret) s = result := ⟨_, rfl⟩
  rw [loop] at core same returned accepted split
  simp only [loop]
  dsimp only at core same accepted returned split
  have counts := inv.counts id call held
  simp only [Counts, want] at counts
  obtain ⟨counted, taken⟩ := counts
  have length : (data.drop call.ret).length - rest.length = written.length := by
    rw [split, length_append, Nat.add_sub_cancel]
  have own : ∀ (t : State) (place : Place), t.accepted = after.accepted →
    Counts t id { call with ret := call.ret + ((data.drop call.ret).length - rest.length), place }
    := by
    intro t place logs
    have moves : moved t id (.write data) = moved s id (.write data) ++ written := by
      simp only [moved, logs, accepted]
      exact moved_own s.accepted id written
    simp only [Counts, want, moves, length]
    refine ⟨by rw [counted, length_append], ?_⟩
    rw [taken]
    conv_rhs => rw [take_add, split, take_append_of_le_length le_rfl, take_length]
  have calls : SameCounts s after := fun id call held => ⟨call, same.calls ▸ held, rfl, rfl, rfl⟩
  have woken : SameCounts s (wakeupReader after) := calls.trans (sameCounts_wake after after.readerQueue _ rfl)
  split
  · exact inv.moveBytes held (core.congr ⟨rfl, rfl, rfl, rfl, rfl⟩) same.count woken
      ⟨written, accepted⟩ ⟨[], by simp [wakeupReader, returned]⟩ (own _ _ rfl)
  split
  · exact inv.moveBytes held (core.congr ⟨rfl, rfl, rfl, rfl, rfl⟩) same.count woken
      ⟨written, accepted⟩ ⟨[], by simp [wakeupReader, returned]⟩ (own _ _ rfl)
  · exact inv.moveBytes held core same.count calls ⟨written, accepted⟩ ⟨[], by simp [returned]⟩ (own _ _ rfl)

/-- The bytes written to the pipe so far and those that the call still has to write are not more
than the positions can count. -/
def Countable (s : State) : Op → Prop
  | .enter id =>
    ∀ call ∈ s.calls id, ∀ data, call.want = .write data →
      s.accepted.length + (data.drop call.ret).length ≤ word
  | _ => True

theorem withCall_inv (inv : Inv s) {go : Call → State} (keeps : ∀ call, s.calls id = some call →
    Inv (go call)) : Inv (withCall s id go) := by
  unfold withCall
  split
  · next call held => exact keeps call held
  · exact inv

theorem next_inv (inv : Inv s) (op : Op) (countable : Countable s op) : Inv (next s op) := by
  cases op with
  | begin want =>
    refine ⟨inv.core.congr ⟨rfl, rfl, rfl, rfl, rfl⟩, fun id call held => ?_, fun id beyond => ?_⟩
    · change (setCall s s.count ⟨want, 0, [], .entering⟩).calls id = some call at held
      rw [calls_setCall] at held
      split at held
      · next new =>
        cases held
        have none : ∀ want, moved s id want = [] := by
          intro want
          have absent := (inv.fresh id (Nat.le_of_eq new.symm)).2
          cases want with
          | read =>
            refine map_eq_nil_iff.mpr (filter_eq_nil_iff.mpr fun entry listed => ?_)
            simpa using absent entry (mem_append_right _ listed)
          | write =>
            refine map_eq_nil_iff.mpr (filter_eq_nil_iff.mpr fun entry listed => ?_)
            simpa using absent entry (mem_append_left _ listed)
        have zero : Counts s id ⟨want, 0, [], .entering⟩ := by
          unfold Counts
          rw [none]
          cases want with
          | read n => exact ⟨rfl, Nat.zero_le n, rfl⟩
          | write => exact ⟨rfl, rfl⟩
        exact zero.congr (fun want => by cases want <;> rfl) rfl rfl rfl
      · exact (inv.counts id call held).congr (fun want => by cases want <;> rfl) rfl rfl rfl
    · obtain ⟨none, absent⟩ := inv.fresh id (Nat.le_of_succ_le beyond)
      refine ⟨?_, absent⟩
      change (setCall s s.count ⟨want, 0, [], .entering⟩).calls id = _
      rwa [calls_setCall, if_neg (Nat.ne_of_gt beyond)]
  | enter =>
    refine withCall_inv inv fun call held => ?_
    unfold enter
    cases want : call.want with
    | read => exact enterRead_inv inv held want
    | write data => exact enterWrite_inv inv held want (countable call held data want)
  | park =>
    refine withCall_inv inv fun call held => ?_
    unfold park
    split <;> exact inv.place held .waiting ⟨rfl, rfl, rfl, rfl, rfl⟩ rfl rfl
  | interrupt => exact withCall_inv inv fun call held => inv.place held .interrupted ⟨rfl, rfl, rfl, rfl, rfl⟩ rfl rfl
  | resume =>
    refine withCall_inv inv fun call held => ?_
    unfold resume
    split
    · exact inv.place held .entering ⟨rfl, rfl, rfl, rfl, rfl⟩ rfl rfl
    · exact inv.place held .returned ⟨rfl, rfl, rfl, rfl, rfl⟩ rfl rfl
  | close =>
    have closed : Inv { s with isclosed := true } := inv.moveCalls ⟨rfl, rfl, rfl, rfl, rfl⟩ rfl (SameCounts.refl s)
    exact closed.wakeupReader.wakeupWriter

theorem inv_create : Inv create := by
  refine ⟨⟨le_rfl, Nat.zero_le _, rfl, rfl, rfl, ?_, Nat.zero_le _⟩, ?_, ?_⟩
  · intro i _ value held
    cases held
  · rintro id call ⟨⟩
  · exact fun id _ => ⟨rfl, by simp [create]⟩

/-- A pipe is a queue of bytes as long as its positions do not go around. -/
theorem stream_fifo_when_countable (s : (machine.restrict Countable).Reached) : Fifo s ∧ ∀ op,
    (machine.restrict Countable).allowed s op → machine.Accepts s op := by
  refine Machine.safe_of_invariant (show ∀ s, _ → Inv s from ?_) ?_ (fun s inv => inv.fifo) s s.2
  · intro s begins
    rw [show s = create from begins]
    exact inv_create
  · exact fun s op inv allowed => ⟨next s op, (), rfl, next_inv inv op allowed.2⟩

abbrev writeAll (id : Nat) (data : List UInt8) (s : State) : State := data.foldl (fun s byte => writeByte s id byte) s

theorem writeLoop_all (id : Nat) (data : List UInt8) (inside : s.wpos < word) (behind : s.rpos < word)
    (room : occupancy s + data.length ≤ pipeBufsize) : writeLoop id data s = (writeAll id data s,
    []) := by
  induction data generalizing s with
  | nil => rfl
  | cons byte rest ih =>
    rw [length_cons] at room
    have notFull : isFull s = false := by
      rw [isFull, decide_eq_false_iff_not]
      omega
    have more : occupancy (writeByte s id byte) = occupancy s + 1 := by
      simp only [occupancy, writeByte] at room ⊢
      simp only [word, pipeBufsize] at inside behind room ⊢
      omega
    rw [writeLoop, notFull, writeAll]
    exact ih (Nat.mod_lt _ (by decide)) behind (by omega)

theorem foldl_writeByte (id : Nat) (data : List UInt8) (inside : s.wpos < word) :
    (writeAll id data s).wpos = (s.wpos + data.length) % word ∧ (writeAll id data s).accepted =
    s.accepted ++ data.map (Prod.mk id) ∧
      (writeAll id data s).rpos = s.rpos ∧ (writeAll id data s).returned = s.returned ∧
        (writeAll id data s).isclosed = s.isclosed ∧ (writeAll id data s).count = s.count := by
  induction data generalizing s with
  | nil => simp [Nat.mod_eq_of_lt inside]
  | cons byte rest ih =>
    have next : (writeByte s id byte).wpos < word := Nat.mod_lt _ (by decide)
    obtain ⟨wpos, accepted, rpos, returned, closed, count⟩ := ih next
    rw [writeAll, foldl_cons]
    refine ⟨?_, ?_, rpos, returned, closed, count⟩
    · rw [wpos]
      simp only [writeByte, length_cons, Nat.mod_add_mod]
      congr 1
      omega
    · rw [accepted]
      simp [writeByte]

theorem foldl_writeByte_last (id : Nat) {byte : UInt8} (inside : s.wpos < word)
    (last : data.getLast? = some byte) : (writeAll id data s).buf
    ((s.wpos + data.length - 1) % word % pipeBufsize) = byte := by
  obtain ⟨start, rfl⟩ := getLast?_eq_some_iff.mp last
  obtain ⟨wpos, _⟩ := foldl_writeByte id start inside
  rw [writeAll, foldl_append, foldl_cons, foldl_nil, writeByte]
  rw [wpos, length_append, length_singleton, ← add_assoc]
  exact update_self ..

theorem reachable_next (reachable : machine.Reachable s) (op : Op) (allowed : Allowed s op)
    (steps : next s op = t) : machine.Reachable t := by
  obtain ⟨trace, run⟩ := reachable
  subst steps
  exact ⟨_, run.next op allowed rfl⟩

structure Drained (s : State) (n : Nat) : Prop where
  reachable : machine.Reachable s
  rpos : s.rpos = n % word
  wpos : s.wpos = n % word
  openEnd : s.isclosed = false
  stream : s.returned.map Prod.snd = s.accepted.map Prod.snd

structure Filled (s t : State) (n : Nat) (data : List UInt8) : Prop where
  reachable : machine.Reachable t
  rpos : t.rpos = n % word
  wpos : t.wpos = (n + data.length) % word
  openEnd : t.isclosed = false
  returned : t.returned = s.returned
  accepted : t.accepted.map Prod.snd = s.accepted.map Prod.snd ++ data
  last : ∀ byte ∈ data.getLast?, t.buf ((n + data.length - 1) % word % pipeBufsize) = byte

theorem Drained.fill (drained : Drained s n) (filled : data ≠ []) (room : data.length ≤ pipeBufsize) :
    ∃ t, Filled s t n data := by
  have small : 0 < word := by decide
  obtain ⟨begun, begunIs⟩ := @exists_eq _ (next s (.begin (.write data)))
  have call : begun.calls s.count = some ⟨.write data, 0, [], .entering⟩ := by
    rw [begunIs]
    exact (calls_setCall ..).trans (if_pos rfl)
  have rpos : begun.rpos = n % word := begunIs ▸ drained.rpos
  have wpos : begun.wpos = n % word := begunIs ▸ drained.wpos
  have inside := wpos ▸ Nat.mod_lt n small
  have empty : occupancy begun = 0 := by rw [occupancy, rpos, wpos, Nat.add_sub_cancel_left, Nat.mod_self]
  have loop := writeLoop_all s.count data inside (rpos ▸ Nat.mod_lt n small) (by rwa [empty, zero_add])
  have fields := foldl_writeByte s.count data inside
  have last : ∀ byte ∈ data.getLast?, _ := fun byte held => foldl_writeByte_last s.count inside held
  generalize writtenIs : writeAll s.count data begun = written at loop fields last ⊢
  obtain ⟨wposAfter, accepted, rposAfter, returned, closed, _⟩ := fields
  have openEnd : begun.isclosed = false := begunIs ▸ drained.openEnd
  have entered : next begun (.enter s.count) = setCall (wakeupReader written) s.count
    ⟨.write data, data.length, [], .returned⟩ := by
    simp [next, withCall, call, enter, enterWrite, openEnd, loop, filled]
  have first := reachable_next drained.reachable (.begin _) trivial begunIs.symm
  have at_ : At begun s.count .entering := by rw [At, call]; rfl
  refine ⟨_, reachable_next first (.enter _) at_ entered, ?_, ?_, ?_, ?_, ?_, ?_⟩
  · exact rposAfter.trans rpos
  · refine wposAfter.trans ?_
    rw [wpos, Nat.mod_add_mod]
  · exact closed.trans openEnd
  · refine returned.trans ?_
    rw [begunIs]
    rfl
  · change written.accepted.map Prod.snd = _
    rw [accepted, begunIs]
    simp [next, setCall, comp_def]
  · intro byte held
    have slot := last byte held
    obtain ⟨k, length⟩ : ∃ k, data.length = k + 1 := Nat.exists_eq_succ_of_ne_zero (by simpa using filled)
    rw [wpos, length, ← add_assoc, Nat.add_sub_cancel, Nat.mod_add_mod] at slot
    rwa [length, ← add_assoc]

theorem Filled.drain (filled : Filled s t n data) (apart : n % word ≠ (n + data.length) % word) :
    ∃ u id, machine.Reachable u ∧ u.rpos = (n + 1) % word ∧ u.wpos = t.wpos ∧ u.isclosed = false ∧
      u.returned = s.returned ++ [(id, t.buf (n % word % pipeBufsize))] ∧ u.accepted = t.accepted := by
  obtain ⟨begun, begunIs⟩ := @exists_eq _ (next t (.begin (.read 1)))
  have call : begun.calls t.count = some ⟨.read 1, 0, [], .entering⟩ := by
    rw [begunIs]
    exact (calls_setCall ..).trans (if_pos rfl)
  have rpos : begun.rpos = n % word := begunIs ▸ filled.rpos
  have wpos : begun.wpos = (n + data.length) % word := begunIs ▸ filled.wpos
  have notEmpty : isEmpty begun = false := by simp [isEmpty, rpos, wpos, apart]
  have buf : begun.buf = t.buf := begunIs ▸ rfl
  have entered : next begun (.enter t.count) = setCall (wakeupWriter (readByte begun t.count))
    t.count ⟨.read 1, 1, [t.buf (n % word % pipeBufsize)], .returned⟩ := by
    simp [next, withCall, call, enter, enterRead, notEmpty, readLoop, buf, rpos]
  have first := reachable_next filled.reachable (.begin _) trivial begunIs.symm
  have at_ : At begun t.count .entering := by rw [At, call]; rfl
  refine ⟨_, t.count, reachable_next first (.enter _) at_ entered, ?_, ?_, ?_, ?_, ?_⟩
  · change (begun.rpos + 1) % word = _
    rw [rpos, Nat.mod_add_mod]
  · change begun.wpos = _
    rw [wpos, filled.wpos]
  · rw [begunIs]
    exact filled.openEnd
  · change begun.returned ++ [(t.count, begun.buf (begun.rpos % pipeBufsize))] = _
    rw [rpos, ← filled.returned, begunIs]
    rfl
  · rw [begunIs]
    rfl

theorem drained (n : Nat) : ∃ s, Drained s n := by
  induction n with
  | zero => exact ⟨create, ⟨[], .start rfl⟩, rfl, rfl, rfl, rfl⟩
  | succ n ih =>
    obtain ⟨s, drained⟩ := ih
    obtain ⟨t, filled⟩ := drained.fill (show [(0 : UInt8)] ≠ [] by simp) (by decide)
    obtain ⟨u, id, reachable, rpos, wpos, openEnd, returned, accepted⟩ := filled.drain (by
      simp only [length_singleton, word]
      omega)
    refine ⟨u, reachable, rpos, wpos.trans filled.wpos, openEnd, ?_⟩
    have byte : t.buf (n % word % pipeBufsize) = 0 := filled.last 0 rfl
    rw [returned, accepted, filled.accepted, map_append, drained.stream, byte]
    rfl

/-- When the positions go around, a byte that has not been read is written over. -/
theorem byte_lost_when_positions_wrap : ∃ s, machine.Reachable s ∧ ¬ Fifo s := by
  obtain ⟨s, drained⟩ := drained (word - 1)
  obtain ⟨t, filled⟩ := drained.fill (show (1 : UInt8) :: replicate 16 0 ≠ [] by simp) (by decide)
  obtain ⟨u, id, reachable, _, _, _, returned, accepted⟩ := filled.drain (by decide)
  refine ⟨u, reachable, fun fifo => ?_⟩
  have byte : t.buf ((word - 1) % word % pipeBufsize) = 0 := filled.last 0 rfl
  have stream := fifo.stream
  rw [returned, accepted, filled.accepted, map_append, drained.stream, byte] at stream
  simp at stream

end Ucore.Pipe
