import Ucore.Pid

/-! What `get_pid` returns. A pass over the list either ends at an id that no process
has or moves the cursor to the next candidate; it can run past the last id only when
every id from its start on is taken, and it then goes on at 1 instead of at the
first id that is not an idle process's. -/

namespace Ucore.Pid
open Lib List

variable {procList : List Nat} {low lastPid nextSafe ncpu : Nat}

def Taken (procList : List Nat) (low high : Nat) : Prop := ∀ pid, low ≤ pid → pid < high → pid ∈ procList

/-- No process has an id from `last_pid` up to `next_safe`. -/
structure Clear (procList : List Nat) (lastPid nextSafe : Nat) : Prop where
  below : lastPid < nextSafe
  bound : nextSafe ≤ maxPid
  passed : ∀ pid ∈ procList, pid < lastPid ∨ nextSafe ≤ pid

theorem Clear.notMem (clear : Clear procList lastPid nextSafe) : lastPid ∉ procList := by
  intro member
  rcases clear.passed lastPid member with less | more
  · exact lt_irrefl _ less
  · exact Nat.not_le_of_gt clear.below more

theorem Taken.extend (taken : Taken procList low lastPid) (member : lastPid ∈ procList) :
    Taken procList low (lastPid + 1) := by
  intro pid above below
  rcases Nat.lt_succ_iff_lt_or_eq.mp below with below | rfl
  · exact taken pid above below
  · exact member

theorem Taken.length_le {high : Nat} (taken : Taken procList low high) : high - low ≤ procList.length := by
  have sub : range' low (high - low) ⊆ procList := by
    intro pid member
    obtain ⟨above, below⟩ := mem_range'_1.mp member
    exact taken pid above (by omega)
  have size := (subperm_of_subset nodup_range' sub).length_le
  rwa [length_range'] at size

def Stops (procList : List Nat) (low lastPid : Nat) : Pass → Prop
  | .done found nextSafe => lastPid ≤ found ∧ Taken procList low found ∧ Clear procList found nextSafe
  | .again next =>
    ∃ found, lastPid < found ∧ found ≤ maxPid ∧ Taken procList low found ∧
      next = if found ≥ maxPid then 1 else found

theorem Stops.mono {later : Nat} {pass : Pass} (order : lastPid ≤ later)
    (stops : Stops procList low later pass) : Stops procList low lastPid pass := by
  cases pass with
  | done => exact ⟨order.trans stops.1, stops.2⟩
  | again =>
    obtain ⟨found, above, rest⟩ := stops
    exact ⟨found, order.trans_lt above, rest⟩

theorem scan_stops (front rest : List Nat) (whole : procList = front ++ rest)
    (taken : Taken procList low lastPid) (clear : Clear front lastPid nextSafe) :
    Stops procList low lastPid (scan rest lastPid nextSafe) := by
  induction rest generalizing front lastPid nextSafe with
  | nil =>
    rw [append_nil] at whole
    subst whole
    exact ⟨le_rfl, taken, clear⟩
  | cons pid rest ih =>
    have next : procList = (front ++ [pid]) ++ rest := by
      rw [whole]
      simp
    have member : pid ∈ procList := by
      rw [whole]
      simp
    have bound := clear.bound
    have below := clear.below
    rw [scan]
    split
    · next here =>
      have taken := taken.extend (here ▸ member)
      split
      · exact ⟨lastPid + 1, Nat.lt_succ_self _, by omega, taken, rfl⟩
      · next full =>
        refine (ih (front ++ [pid]) next taken ⟨not_le.mp full, bound, ?_⟩).mono (Nat.le_succ _)
        intro other listed
        rcases mem_append.mp listed with listed | listed
        · have passed := clear.passed other listed
          omega
        · rw [mem_singleton.mp listed, here]
          exact .inl (Nat.lt_succ_self _)
    · split
      · next above =>
        refine ih (front ++ [pid]) next taken ⟨above.1, by omega, ?_⟩
        intro other listed
        rcases mem_append.mp listed with listed | listed
        · have passed := clear.passed other listed
          omega
        · exact .inr (Nat.le_of_eq (mem_singleton.mp listed).symm)
      · refine ih (front ++ [pid]) next taken ⟨below, bound, ?_⟩
        intro other listed
        rcases mem_append.mp listed with listed | listed
        · exact clear.passed other listed
        · rw [mem_singleton.mp listed]
          omega

/-- From a cursor on, the passes end at a free id, or every id up to the last is
taken and they go on from 1. -/
theorem inside_forward (fuel : Nat) (inRange : lastPid < maxPid) (order : low ≤ lastPid)
    (taken : Taken procList low lastPid) (enough : maxPid - lastPid < fuel) :
    (∃ found nextSafe, inside procList fuel lastPid = .ok (found, nextSafe) ∧ low ≤ found ∧ Clear procList found nextSafe) ∨
      (Taken procList low maxPid ∧ ∃ left, fuel ≤ left + (maxPid - lastPid) ∧
        inside procList fuel lastPid = inside procList left 1) := by
  induction fuel generalizing lastPid with
  | zero => omega
  | succ fuel ih =>
    have stops := scan_stops [] procList rfl taken ⟨inRange, le_rfl, by simp⟩
    rw [inside]
    cases pass : scan procList lastPid maxPid with
    | done found nextSafe =>
      rw [pass] at stops
      exact .inl ⟨found, nextSafe, rfl, order.trans stops.1, stops.2.2⟩
    | again =>
      rw [pass] at stops
      obtain ⟨found, above, bound, taken, rfl⟩ := stops
      by_cases last : found ≥ maxPid
      · rw [if_pos last]
        have last := le_antisymm bound last
        exact .inr ⟨last ▸ taken, fuel, by omega, rfl⟩
      · rw [if_neg last]
        rcases ih (not_le.mp last) (by omega) taken (by omega) with ends | ⟨full, left, room, same⟩
        · exact .inl ends
        · exact .inr ⟨full, left, by omega, same⟩

/-- The cursors between two calls. -/
structure Settled (ncpu : Nat) (s : State) : Prop where
  floor : ncpu ≤ s.lastPid
  gap : ∀ pid ∈ s.procList, pid ≤ s.lastPid ∨ s.nextSafe ≤ pid
  bound : s.nextSafe ≤ maxPid
  distinct : s.procList.Nodup
  range : ∀ pid ∈ s.procList, ncpu ≤ pid ∧ pid < maxPid
  counted : s.procList.length < s.nrProcess

/-- An id is free between the cursor and the last id, or the search begins anew. On
a single CPU it makes no difference where a search that runs past the last id goes on. -/
def Roomy (ncpu : Nat) (s : State) : Op → Prop
  | .create => ncpu = 1 ∨ maxPid ≤ s.lastPid + 1 ∨ ∃ pid, s.lastPid < pid ∧ pid < maxPid ∧ pid ∉ s.procList
  | _ => True

variable {s : State}

section
variable (settled : Settled ncpu s)
include settled

theorem Settled.not_full (few : s.nrProcess < maxProcess) (small : low ≤ maxProcess) : ¬ Taken s.procList low maxPid := by
  intro taken
  have size := taken.length_le
  have counted := settled.counted
  simp only [maxPid] at size
  omega

theorem Settled.inside_ends (inRange : low < maxPid) (floor : ncpu ≤ low) (free : ncpu = 1 ∧
    s.nrProcess < maxProcess ∨ ¬ Taken s.procList low maxPid) :
    ∃ found nextSafe, inside s.procList passes low = .ok (found, nextSafe) ∧ ncpu ≤ found ∧
      Clear s.procList found nextSafe := by
  have start : Taken s.procList low low := fun pid above below => absurd below (Nat.not_lt_of_le above)
  rcases inside_forward passes inRange le_rfl start (by rw [passes]; omega) with ends | ⟨full, left, room, same⟩
  · obtain ⟨found, nextSafe, ran, above, clear⟩ := ends
    exact ⟨found, nextSafe, ran, floor.trans above, clear⟩
  rcases free with ⟨rfl, few⟩ | free
  · have start : Taken s.procList 1 1 := fun pid above below => absurd below (Nat.not_lt_of_le above)
    rw [passes] at room
    have left_enough : maxPid - 1 < left := by omega
    rw [same]
    rcases inside_forward left (by decide) le_rfl start left_enough with ends | ⟨full, _⟩
    · exact ends
    · exact absurd full (settled.not_full few (by decide))
  · exact absurd full free

theorem getPid_spec (small : ncpu ≤ maxProcess) (few : s.nrProcess < maxProcess)
    (roomy : Roomy ncpu s .create) : ∃ pid nextSafe, getPid ncpu s = .ok (pid, nextSafe) ∧
    ncpu ≤ pid ∧ Clear s.procList pid nextSafe := by
  have floor := settled.floor
  rw [getPid]
  split
  · exact settled.inside_ends (small.trans_lt (by decide)) le_rfl (.inr (settled.not_full few small))
  · next wraps =>
    split
    · apply settled.inside_ends (not_le.mp wraps) (by omega)
      rcases roomy with single | past | ⟨pid, above, below, absent⟩
      · exact .inl ⟨single, few⟩
      · exact absurd past wraps
      · exact .inr fun taken => absent (taken pid above below)
    · next unsafeNext =>
      refine ⟨s.lastPid + 1, s.nextSafe, rfl, by omega, not_le.mp unsafeNext, settled.bound, ?_⟩
      intro pid member
      have gap := settled.gap pid member
      omega

theorem Settled.create {pid nextSafe : Nat} (floor : ncpu ≤ pid)
    (clear : Clear s.procList pid nextSafe) :
    Settled ncpu (setLinks { s with lastPid := pid, nextSafe } pid) := by
  have below := clear.below.trans_le clear.bound
  refine ⟨floor, ?_, clear.bound, nodup_cons.mpr ⟨clear.notMem, settled.distinct⟩, ?_, Nat.succ_lt_succ settled.counted⟩
  · intro other listed
    rcases mem_cons.mp listed with rfl | listed
    · exact .inl le_rfl
    · rcases clear.passed other listed with less | more
      · exact .inl less.le
      · exact .inr more
  · exact forall_mem_cons.mpr ⟨⟨floor, below⟩, settled.range⟩

theorem Settled.terminate {pid : Nat} (member : pid ∈ s.procList) : Settled ncpu (removeLinks s pid) := by
  have fewer : ∀ other ∈ s.procList.erase pid, other ∈ s.procList := fun _ => mem_of_mem_erase
  refine ⟨settled.floor, fun other listed => settled.gap other (fewer other listed), settled.bound,
    settled.distinct.erase pid, fun other listed => settled.range other (fewer other listed), ?_⟩
  have size := length_erase_of_mem member
  have counted := settled.counted
  have some := length_pos_of_mem member
  simp only [removeLinks]
  omega

end

theorem settled_start (small : ncpu ≤ maxProcess) (begins : (machine ncpu).start s) : Settled ncpu s := by
  cases begins
  exact ⟨small.trans (by decide), by simp, le_rfl, by simp, by simp, by simp⟩

theorem settled_step (small : ncpu ≤ maxProcess) (op : Op) (settled : Settled ncpu s)
    (allowed : Allowed s op) (roomy : Roomy ncpu s op) : ∃ after output, step ncpu s op = .ok
    (after, output) ∧ Settled ncpu after := by
  cases op with
  | idle =>
    exact ⟨_, none, rfl, settled.floor, settled.gap, settled.bound, settled.distinct, settled.range,
      Nat.lt_succ_of_lt settled.counted⟩
  | create =>
    obtain ⟨pid, nextSafe, ran, floor, clear⟩ := getPid_spec settled small allowed roomy
    exact ⟨_, some pid, by rw [step, ran]; rfl, settled.create floor clear⟩
  | terminate => exact ⟨_, none, rfl, settled.terminate allowed⟩

/-- As long as every creation finds a free id before the cursor runs past the last
one, `get_pid` returns an id that no process and no idle process has. -/
theorem pids_unique_with_room (ncpu : Nat) (small : ncpu ≤ maxProcess) (s : State)
    (reachable : ((machine ncpu).restrict (Roomy ncpu)).Reachable s) :
      (s.procList.Nodup ∧ ∀ pid ∈ s.procList, ncpu ≤ pid ∧ pid < maxPid) ∧
      (s.nrProcess < maxProcess → Roomy ncpu s .create → ∃ pid nextSafe, getPid ncpu s = .ok (pid, nextSafe) ∧
        ncpu ≤ pid ∧ pid < maxPid ∧ pid ∉ s.procList ∧ ∀ cpu < ncpu, pid ≠ idlePid cpu) := by
  have settled : Settled ncpu s := by
    have safe : ((machine ncpu).restrict (Roomy ncpu)).Safe (Settled ncpu) :=
      Machine.safe_of_invariant (fun _ => settled_start small)
        (fun _ op settled allowed => settled_step small op settled allowed.1 allowed.2) fun _ => id
    exact (safe s reachable).1
  refine ⟨⟨settled.distinct, settled.range⟩, ?_⟩
  intro few roomy
  obtain ⟨pid, nextSafe, executed, floor, clear⟩ := getPid_spec settled small few roomy
  refine ⟨pid, nextSafe, executed, floor, clear.below.trans_le clear.bound, clear.notMem, ?_⟩
  intro cpu below same
  rw [idlePid] at same
  omega

/-- Both CPUs idle and three processes were made, the second of which is gone. -/
theorem reachable_two_live : ((machine 2).restrict (Roomy 2)).Reachable ⟨4, maxPid, [4, 2], 4⟩ := by
  have idled := (Machine.Run.start (m := (machine 2).restrict (Roomy 2)) rfl).next .idle
    ⟨by decide, trivial⟩ rfl
  have first := idled.next .create ⟨by decide, .inr (.inl (by decide))⟩ rfl
  have second := first.next .create ⟨by decide, .inr (.inr ⟨3, by decide, by decide, by decide⟩)⟩ rfl
  have third := second.next .create ⟨by decide, .inr (.inr ⟨4, by decide, by decide, by decide⟩)⟩ rfl
  exact ⟨_, third.next (.terminate 3) ⟨by decide, trivial⟩ rfl⟩

theorem fourth_pid_unique : ∃ pid nextSafe, getPid 2 ⟨4, maxPid, [4, 2], 4⟩ = .ok (pid, nextSafe) ∧
    2 ≤ pid ∧ pid < maxPid ∧ pid ∉ [4, 2] ∧ ∀ cpu < 2, pid ≠ idlePid cpu :=
  (pids_unique_with_room 2 (by decide) _ reachable_two_live).2 (by decide)
    (.inr (.inr ⟨5, by decide, by decide, by decide⟩))

theorem reachable_turn (reachable : (machine 2).Reachable s) (few : s.nrProcess < maxProcess)
    (below : s.lastPid + 1 < s.nextSafe) (bound : s.nextSafe ≤ maxPid) :
    (machine 2).Reachable { s with lastPid := s.lastPid + 1 } := by
  obtain ⟨trace, run⟩ := reachable
  have taken : step 2 s .create = .ok (setLinks { s with lastPid := s.lastPid + 1 } (s.lastPid + 1),
    some (s.lastPid + 1)) := by
    rw [step, getPid, if_neg (by omega), if_neg (by omega)]
    rfl
  have created := run.next .create few taken
  have ended := created.next (.terminate (s.lastPid + 1)) mem_cons_self rfl
  have restored : removeLinks (setLinks { s with lastPid := s.lastPid + 1 } (s.lastPid + 1))
    (s.lastPid + 1) = { s with lastPid := s.lastPid + 1 } := by simp [removeLinks, setLinks]
  rw [restored] at ended
  exact ⟨_, ended⟩

theorem reachable_turns (turns : Nat) (reachable : (machine 2).Reachable s) (few : s.nrProcess < maxProcess := by decide)
    (below : s.lastPid + turns < s.nextSafe := by decide) (bound : s.nextSafe ≤ maxPid := by
      decide) : (machine 2).Reachable { s with lastPid := s.lastPid + turns } := by
  induction turns with
  | zero => exact reachable
  | succ turns ih => exact reachable_turn (ih (by omega)) few (by dsimp only; omega) bound

/-- On two CPUs a process can get the id of the second idle process: the cursor comes
to the last id while a process of the previous round still has it. -/
theorem pid_of_an_idle_process : ∃ s, (machine 2).Reachable s ∧ Allowed s .create ∧ ∃ nextSafe,
    getPid 2 s = .ok (idlePid 1, nextSafe) := by
  have booted : (machine 2).Reachable ⟨2, 8192, [2], 2⟩ := ⟨_, (Machine.Run.start rfl).next .create (by decide) rfl⟩
  obtain ⟨_, run⟩ := reachable_turns 8188 booted
  have kept := run.next .create (by decide) rfl
  have around : (machine 2).Reachable ⟨3, 8191, [3, 8191, 2], 4⟩ := ⟨_, kept.next .create (by decide) rfl⟩
  have secondRound := reachable_turns 8187 around
  exact ⟨_, secondRound, by decide, 2, rfl⟩

end Ucore.Pid
