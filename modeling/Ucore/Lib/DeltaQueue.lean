import Mathlib

/-! Delta queues. Every entry stores its distance to the entry before it, so the
moment an entry is due is a prefix sum. Insertion, removal and one unit of time
act on these prefix sums the way they act on a table of remaining delays. -/

namespace Ucore.Lib.DeltaQueue
open List Function

variable {α β : Type}

structure Entry (α β : Type) where
  key : α
  payload : β
  delta : Nat

def keys (queue : List (Entry α β)) : List α := queue.map Entry.key

def total (queue : List (Entry α β)) : Nat := (queue.map Entry.delta).sum

/-- The first entry is never due already. -/
def Live : List (Entry α β) → Prop
  | [] => True
  | entry :: _ => entry.delta ≠ 0

def insert (entry : Entry α β) : List (Entry α β) → List (Entry α β)
  | [] => [entry]
  | next :: rest =>
    if entry.delta < next.delta then
      entry :: { next with delta := next.delta - entry.delta } :: rest
    else next :: insert { entry with delta := entry.delta - next.delta } rest

def absorb (delta : Nat) : List (Entry α β) → List (Entry α β)
  | [] => []
  | next :: rest => { next with delta := next.delta + delta } :: rest

def expire : List (Entry α β) → List (Entry α β) × List (α × β)
  | [] => ([], [])
  | entry :: rest =>
    if entry.delta = 0 then ((expire rest).1, (entry.key, entry.payload) :: (expire rest).2)
    else (entry :: rest, [])

def advance : List (Entry α β) → List (Entry α β) × List (α × β)
  | [] => ([], [])
  | entry :: rest => expire ({ entry with delta := entry.delta - 1 } :: rest)

theorem keys_insert (entry : Entry α β) (queue : List (Entry α β)) : (keys (insert entry queue)).Perm
    (entry.key :: keys queue) := by
  induction queue generalizing entry with
  | nil => simp [insert, keys]
  | cons next rest ih =>
    unfold insert
    split
    · simp [keys]
    · have moved := ih { entry with delta := entry.delta - next.delta }
      exact (moved.cons next.key).trans (List.Perm.swap _ _ _)

theorem total_insert (entry : Entry α β) (queue : List (Entry α β)) : total (insert entry queue) = max
    (total queue) entry.delta := by
  induction queue generalizing entry with
  | nil => simp [insert, total]
  | cons next rest ih =>
    unfold insert
    split
    · simp only [total, map_cons, sum_cons]
      omega
    · have moved := ih { entry with delta := entry.delta - next.delta }
      simp only [total, map_cons, sum_cons] at moved ⊢
      omega

variable {queue : List (Entry α β)} {entry : Entry α β}

theorem live_insert (live : Live queue) (positive : entry.delta ≠ 0) : Live (insert entry queue) := by
  cases queue with
  | nil => exact positive
  | cons =>
    unfold insert
    split
    · exact positive
    · exact live

theorem keys_absorb (delta : Nat) (queue : List (Entry α β)) : keys (absorb delta queue) = keys queue := by
  cases queue <;> rfl

theorem total_absorb_le (delta : Nat) (queue : List (Entry α β)) : total (absorb delta queue) ≤ total queue + delta := by
  cases queue with
  | nil => simp [absorb, total]
  | cons =>
    simp only [absorb, total, map_cons, sum_cons]
    omega

section
variable (queue)

theorem live_expire : Live (expire queue).1 := by
  induction queue with
  | nil => trivial
  | cons entry rest ih =>
    unfold expire
    split
    · exact ih
    · assumption

theorem expire_keys : keys queue = (expire queue).2.map Prod.fst ++ keys (expire queue).1 := by
  induction queue with
  | nil => rfl
  | cons entry rest ih =>
    unfold expire
    split
    · simp only [keys, map_cons, cons_append] at ih ⊢
      rw [← ih]
    · simp [keys]

theorem total_expire_le : total (expire queue).1 ≤ total queue := by
  induction queue with
  | nil => rfl
  | cons entry rest ih =>
    unfold expire
    split
    · simp only [total, map_cons, sum_cons] at ih ⊢
      omega
    · rfl

theorem advance_keys : keys queue = (advance queue).2.map Prod.fst ++ keys (advance queue).1 := by
  cases queue with
  | nil => rfl
  | cons entry rest => exact expire_keys ({ entry with delta := entry.delta - 1 } :: rest)

theorem total_advance_le : total (advance queue).1 ≤ total queue := by
  cases queue with
  | nil => rfl
  | cons entry rest =>
    have bound := total_expire_le ({ entry with delta := entry.delta - 1 } :: rest)
    simp only [total, map_cons, sum_cons] at bound ⊢
    simp only [advance]
    omega

end

variable [DecidableEq α] {wanted : α}

def remove (key : α) : List (Entry α β) → List (Entry α β)
  | [] => []
  | entry :: rest => if entry.key = key then absorb entry.delta rest else entry :: remove key rest

/-- The payload of a key with the time left until it is due. -/
def due : List (Entry α β) → α → Option (β × Nat)
  | [], _ => none
  | entry :: rest, wanted =>
    if entry.key = wanted then some (entry.payload, entry.delta)
    else (due rest wanted).map fun found => (found.1, found.2 + entry.delta)

theorem due_isSome (queue : List (Entry α β)) (wanted : α) : (due queue wanted).isSome ↔ wanted ∈ keys queue := by
  induction queue with
  | nil => simp [due, keys]
  | cons entry rest ih =>
    simp only [keys, map_cons, mem_cons] at ih ⊢
    unfold due
    split
    · rename_i same
      simp [same]
    · rename_i different
      simp [ih, Ne.symm different]

theorem due_eq_none (absent : wanted ∉ keys queue) : due queue wanted = none := by
  rwa [← due_isSome, Option.not_isSome_iff_eq_none] at absent

theorem due_pos (live : Live queue) {payload : β} {left : Nat}
    (found : due queue wanted = some (payload, left)) : 0 < left := by
  cases queue with
  | nil => simp [due] at found
  | cons entry =>
    have head : entry.delta ≠ 0 := live
    unfold due at found
    split at found
    · cases found
      omega
    · obtain ⟨_, _, same⟩ := Option.map_eq_some_iff.mp found
      cases same
      omega

theorem due_insert (fresh : entry.key ∉ keys queue) (wanted : α) :
    due (insert entry queue) wanted = if entry.key = wanted then some (entry.payload, entry.delta)
    else due queue wanted := by
  induction queue generalizing entry with
  | nil => simp [insert, due]
  | cons next rest ih =>
    simp only [keys, map_cons, mem_cons, not_or] at fresh
    unfold insert
    split
    · by_cases same : entry.key = wanted
      · simp [due, same]
      by_cases first : next.key = wanted
      · simp [due, same, first]
        omega
      simp only [due, same, first, if_false, Option.map_map]
      congr 1
      funext found
      simp only [comp, Prod.mk.injEq, true_and]
      omega
    · have rest := @ih { entry with delta := entry.delta - next.delta } fresh.2
      by_cases same : entry.key = wanted
      · subst wanted
        simp only [due, rest, Ne.symm fresh.1, if_true, if_false, Option.map_some,
          Option.some.injEq, Prod.mk.injEq, true_and]
        omega
      · simp [due, rest, same]

theorem due_absorb (delta : Nat) (queue : List (Entry α β)) (wanted : α) :
    due (absorb delta queue) wanted = (due queue wanted).map fun found =>
      (found.1, found.2 + delta) := by
  cases queue with
  | nil => rfl
  | cons =>
    simp only [absorb, due]
    split
    · rfl
    · simp [Option.map_map, comp_def, add_assoc]

theorem keys_remove (key : α) (queue : List (Entry α β)) : (keys (remove key queue)) = (keys queue).erase key := by
  induction queue with
  | nil => rfl
  | cons entry rest ih =>
    unfold remove
    split
    · rename_i same
      have kept := keys_absorb entry.delta rest
      simp only [keys] at kept
      simp [keys, same, kept]
    · rename_i different
      simp only [keys, map_cons] at ih ⊢
      rw [erase_cons_tail (by simpa using different), ih]

theorem total_remove_le (key : α) (queue : List (Entry α β)) : total (remove key queue) ≤ total queue := by
  induction queue with
  | nil => rfl
  | cons entry rest ih =>
    unfold remove
    have absorbed := total_absorb_le entry.delta rest
    simp only [total, map_cons, sum_cons] at ih absorbed ⊢
    split
    · omega
    · simp only [map_cons, sum_cons]
      omega

theorem live_remove (live : Live queue) (key : α) : Live (remove key queue) := by
  cases queue with
  | nil => trivial
  | cons entry rest =>
    have head : entry.delta ≠ 0 := live
    unfold remove
    split
    · cases rest with
      | nil => trivial
      | cons next =>
        change next.delta + entry.delta ≠ 0
        omega
    · exact head

theorem due_remove (distinct : (keys queue).Nodup) (key wanted : α) :
    due (remove key queue) wanted = if key = wanted then none else due queue wanted := by
  induction queue with
  | nil => simp [remove, due]
  | cons entry rest ih =>
    simp only [keys, map_cons, nodup_cons] at distinct ih
    unfold remove
    by_cases first : entry.key = key
    · subst key
      simp only [if_true, due_absorb, due]
      by_cases same : entry.key = wanted
      · subst wanted
        simp [due_eq_none distinct.1]
      · simp [same]
    · simp only [first, if_false, due]
      rw [ih distinct.2]
      by_cases same : key = wanted
      · subst wanted
        simp [first]
      · simp [same]

theorem due_expire (distinct : (keys queue).Nodup) (wanted : α) :
    due (expire queue).1 wanted = (due queue wanted).filter fun found => found.2 ≠ 0 := by
  induction queue with
  | nil => simp [expire, due]
  | cons entry rest ih =>
    simp only [keys, map_cons, nodup_cons] at distinct ih
    unfold expire
    by_cases zero : entry.delta = 0
    · simp only [zero, if_true, ih distinct.2, due]
      by_cases same : entry.key = wanted
      · subst wanted
        simp [due_eq_none distinct.1, Option.filter]
      · simp [same]
    · simp only [zero, if_false, due]
      split
      · simp [zero, Option.filter]
      · cases due rest wanted with
        | none => rfl
        | some => simp [zero, Option.filter]

theorem mem_expired (distinct : (keys queue).Nodup) (wanted : α) (payload : β) :
    (wanted, payload) ∈ (expire queue).2 ↔ due queue wanted = some (payload, 0) := by
  induction queue with
  | nil => simp [expire, due]
  | cons entry rest ih =>
    simp only [keys, map_cons, nodup_cons] at distinct ih
    unfold expire
    by_cases zero : entry.delta = 0
    · simp only [zero, if_true, mem_cons, Prod.mk.injEq, ih distinct.2, due]
      by_cases same : entry.key = wanted
      · subst wanted
        simp [due_eq_none distinct.1, eq_comm]
      · simp [same, Ne.symm same]
    · simp only [zero, if_false, not_mem_nil, false_iff, due]
      split
      · simp [zero]
      · cases due rest wanted with
        | none => simp
        | some => simp [zero]

private theorem due_decrement {rest : List (Entry α β)} (live : entry.delta ≠ 0) (wanted : α) :
    due ({ entry with delta := entry.delta - 1 } :: rest) wanted = (due (entry :: rest) wanted).map
    fun found => (found.1, found.2 - 1) := by
  simp only [due]
  split
  · rfl
  simp only [Option.map_map]
  congr 1
  funext found
  simp only [comp, Prod.mk.injEq, true_and]
  omega

theorem due_advance (live : Live queue) (distinct : (keys queue).Nodup) (wanted : α) :
    due (advance queue).1 wanted = ((due queue wanted).map fun found =>
      (found.1, found.2 - 1)).filter fun found => found.2 ≠ 0 := by
  cases queue with
  | nil => simp [advance, due]
  | cons =>
    unfold advance
    rw [due_expire (by simpa [keys] using distinct), due_decrement live]

theorem mem_advanced (live : Live queue) (distinct : (keys queue).Nodup) (wanted : α) (payload : β) :
    (wanted, payload) ∈ (advance queue).2 ↔ due queue wanted = some (payload, 1) := by
  cases queue with
  | nil => simp [advance, due]
  | cons entry rest =>
    unfold advance
    rw [mem_expired (by simpa [keys] using distinct), due_decrement live]
    cases found : due (entry :: rest) wanted with
    | none => simp
    | some answer =>
      obtain ⟨held, left⟩ := answer
      have positive := due_pos live found
      simp only [Option.map_some, Option.some.injEq, Prod.mk.injEq]
      exact and_congr_right fun _ => by omega

end Ucore.Lib.DeltaQueue
