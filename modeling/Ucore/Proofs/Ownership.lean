import Ucore.Resources

/-! The counts of shared objects are the numbers of their owners. A call works on one process
only, so its steps are followed by what that process is entitled to at each of them. -/

namespace Ucore.Resources
open Lib Function List

variable {last : Nat} {s₀ s t : State} {p q child : ProcId} {k : Kind} {held : Kind → Option Nat} {j : Kind}

section Accessors

@[simp] theorem pools_setPtr_self (o : Option Nat) :
    (setPtr k s p o).pools k = { s.pools k with ptr := update (s.pools k).ptr p o } := by
      simp [setPtr, setPool]

@[simp] theorem pools_setRefs_self (refs : RefCounts) :
    (setRefs k s refs).pools k = { s.pools k with refs } := by simp [setRefs, setPool]

theorem pools_setPtr_other (other : j ≠ k) (o : Option Nat) :
    (setPtr k s p o).pools j = s.pools j := by simp [setPtr, setPool, other]

theorem pools_setRefs_other (other : j ≠ k) (refs : RefCounts) :
    (setRefs k s refs).pools j = s.pools j := by simp [setRefs, setPool, other]

end Accessors

/-- In the course of a call of `p`, which is entitled to the objects in `held`. -/
structure Books (s₀ s : State) (p : ProcId) (held : Kind → Option Nat) : Prop where
  life : s.life = s₀.life
  procs : s.procs = s₀.procs
  others : ∀ k q, q ≠ p → (s.pools k).ptr q = (s₀.pools k).ptr q
  counted : ∀ k, (s.pools k).refs.Counted (update (s₀.holds k) p (held k))

namespace Books

theorem start (owned : Owned s) (p : ProcId) : Books s s p fun k => s.holds k p := by
  refine ⟨rfl, rfl, fun _ _ _ => rfl, fun k => ?_⟩
  rw [update_eq_self]
  exact owned k

section
variable (books : Books s₀ s p held)
include books

theorem setPtr (k : Kind) (o : Option Nat) : Books s₀ (setPtr k s p o) p held := by
  refine ⟨books.life, books.procs, fun j q other => ?_, fun j => ?_⟩
  · obtain rfl | same := eq_or_ne j k
    · simp [other, books.others]
    · rw [pools_setPtr_other same]
      exact books.others j q other
  · obtain rfl | same := eq_or_ne j k
    · rw [pools_setPtr_self]
      exact books.counted j
    · rw [pools_setPtr_other same]
      exact books.counted j

theorem setRefs {refs : RefCounts} {o : Option Nat}
    (counted : refs.Counted (update (update (s₀.holds k) p (held k)) p o)) :
    Books s₀ (setRefs k s refs) p (update held k o) := by
  refine ⟨books.life, books.procs, fun j q other => ?_, fun j => ?_⟩
  · obtain rfl | same := eq_or_ne j k
    · simp [books.others j q other]
    · rw [pools_setRefs_other same]
      exact books.others j q other
  · obtain rfl | same := eq_or_ne j k
    · simpa using counted
    · rw [pools_setRefs_other same, update_of_ne same]
      exact books.counted j

theorem own {o : Nat} (owner : update (s₀.holds k) p (held k) q = some o) (absent : held k = none) :
    Books s₀ (own k s p o) p (update held k (some o)) := by
  have counted := (books.counted k).take owner (p := p) (by rw [update_self, absent])
  exact (books.setRefs counted).setPtr k (some o)

theorem ownNew (absent : held k = none) : Books s₀ (ownNew k s p) p (update held k (some (s.pools k).refs.created)) := by
  have counted := (books.counted k).make (p := p) (by rw [update_self, absent])
  have same : Resources.ownNew k s p = Resources.setPtr k
    (Resources.setRefs k s ((s.pools k).refs.create.inc (s.pools k).refs.created)) p
    (some (s.pools k).refs.created) := by
    simp [Resources.ownNew, Resources.own, Resources.setRefs, setPool]
  rw [same]
  exact (books.setRefs counted).setPtr k _

theorem waste (k : Kind) : ∃ t, destroy k (Resources.setRefs k s (s.pools k).refs.create)
    (s.pools k).refs.created = .ok t ∧ Books s₀ t p held ∧ ∀ j,
    (t.pools j).ptr = (s.pools j).ptr := by
  have counted := (books.counted k).waste
  have fresh : (s.pools k).refs.create.count (s.pools k).refs.created = 0 := by simp [RefCounts.create]
  refine ⟨Resources.setRefs k s ((s.pools k).refs.create.destroy (s.pools k).refs.created), ?_, ?_, fun j => ?_⟩
  · simp [destroy, fresh, Resources.setRefs, setPool, pure, Except.pure]
  · have kept := books.setRefs (o := held k) (by simpa using counted)
    rwa [update_eq_self] at kept
  · obtain rfl | same := eq_or_ne j k
    · simp
    · rw [pools_setRefs_other same]

theorem countDec {o : Nat} (own : held k = some o) : ∃ t, countDec k s o = .ok t ∧
    Books s₀ t p (update held k none) ∧ ∀ j, (t.pools j).ptr = (s.pools j).ptr := by
  have counted := (books.counted k).release (p := p) (o := o) (by rw [update_self, own])
  have kept := books.setRefs counted
  refine ⟨_, ?_, kept, fun j => ?_⟩
  · unfold Resources.countDec destroy
    simp only [pools_setRefs_self, ensure_bind]
    split
    · simp [Resources.setRefs, setPool, pure, Except.pure]
    · rfl
  · obtain rfl | same := eq_or_ne j k
    · simp
    · rw [pools_setRefs_other same]

theorem put (own : held k = (s.pools k).ptr p) : ∃ t, put p s k = .ok t ∧
    Books s₀ t p (update held k none) ∧ (∀ j, j ≠ k → (t.pools j).ptr p = (s.pools j).ptr p) ∧
    (t.pools k).ptr p = if k.cleared then none else (s.pools k).ptr p := by
  have given : ∃ t, giveUp k s p = .ok t ∧ Books s₀ t p (update held k none) ∧ ∀ j, (t.pools j).ptr = (s.pools j).ptr := by
    unfold giveUp
    cases pointer : (s.pools k).ptr p with
    | some => exact books.countDec (own.trans pointer)
    | none =>
      refine ⟨s, rfl, ?_, fun _ => rfl⟩
      rwa [← pointer, ← own, update_eq_self]
  obtain ⟨t, ran, kept, same⟩ := given
  refine ⟨if k.cleared then Resources.setPtr k t p none else t, ?_, ?_, fun j other => ?_, ?_⟩
  · rw [Resources.put, ran]
    rfl
  · split
    · exact kept.setPtr k none
    · exact kept
  · split
    · rw [pools_setPtr_other other, same]
    · rw [same]
  · split
    · simp
    · rw [same]

end

theorem putAll {kinds : List Kind} (distinct : kinds.Nodup) (books : Books s₀ s p held)
    (own : ∀ k ∈ kinds, held k = (s.pools k).ptr p) :
    ∃ t, kinds.foldlM (Resources.put p) s = .ok t ∧ Books s₀ t p fun k => if k ∈ kinds then none else held k := by
  induction kinds generalizing s held with
  | nil => exact ⟨s, rfl, by simpa using books⟩
  | cons k rest ih =>
    obtain ⟨absent, distinct⟩ := nodup_cons.mp distinct
    obtain ⟨between, ran, kept, same, _⟩ := books.put (own k mem_cons_self)
    have apart : ∀ j ∈ rest, j ≠ k := fun j listed equal => absent (equal ▸ listed)
    obtain ⟨t, finished, final⟩ := ih distinct kept fun j listed => by
      rw [update_of_ne (apart j listed), same j (apart j listed)]
      exact own j (mem_cons_of_mem _ listed)
    refine ⟨t, ?_, ?_⟩
    · rwa [foldlM_cons, ran]
    · convert final using 2 with j
      by_cases listed : j = k
      all_goals simp [listed]

theorem copy (books : Books s₀ s child held) (apart : p ≠ child) (live : s₀.life p = .live)
    (absent : held k = none) (blank : (s.pools k).ptr p = none → (s.pools k).ptr child = none)
    (share : Bool) (outcome : Made) :
    ∃ t ret, copy k share outcome s p child = .ok (t, ret) ∧ (∀ j, j ≠ k → (t.pools j).ptr child = (s.pools j).ptr child) ∧
      if ret = 0 then Books s₀ t child (update held k ((t.pools k).ptr child)) ∧
        ((s.pools k).ptr p ≠ none → (t.pools k).ptr child ≠ none) else Books s₀ t child held := by
  unfold Resources.copy
  cases pointer : (s.pools k).ptr p with
  | none =>
    refine ⟨s, 0, rfl, fun _ _ => rfl, ?_⟩
    rw [if_pos rfl, blank pointer, ← absent, update_eq_self]
    exact ⟨books, absurd rfl⟩
  | some old =>
    have owner : update (s₀.holds k) child (held k) p = some old := by
      rw [update_of_ne apart, State.holds, if_pos live, ← books.others k p apart, pointer]
    cases share with
    | true =>
      refine ⟨_, 0, rfl, fun j other => ?_, ?_⟩
      · simp [Resources.own, pools_setPtr_other other, pools_setRefs_other other]
      · simpa [Resources.own] using books.own owner absent
    | false =>
      cases outcome with
      | fails => exact ⟨s, -eNoMem, rfl, fun _ _ => rfl, by simpa [eNoMem] using books⟩
      | undone =>
        obtain ⟨t, ran, kept, same⟩ := books.waste k
        refine ⟨t, -eNoMem, ?_, fun j _ => by rw [same], by simpa [eNoMem] using kept⟩
        simp only [Bool.false_eq_true, if_false]
        rw [ran]
        rfl
      | made =>
        refine ⟨_, 0, rfl, fun j other => ?_, ?_⟩
        · simp [Resources.ownNew, Resources.own, pools_setPtr_other other, pools_setRefs_other other]
        · simpa [Resources.ownNew, Resources.own] using books.ownNew absent

theorem finish (books : Books s₀ s p held) (l : Life) (n : Nat)
    (fits : ∀ k, held k = if l = .live then (s.pools k).ptr p else none) :
    Owned { s with life := update s.life p l, procs := n } := by
  intro k
  convert books.counted k using 1
  funext q
  obtain rfl | same := eq_or_ne q p
  · simp [State.holds, fits]
  · simp [State.holds, same, books.life, books.others k q same]

end Books

/-- What holds between calls. Processes are numbered in order, and each has a table of files. -/
structure Inv (s : State) : Prop where
  owned : Owned s
  unused : ∀ q, s.procs ≤ q → s.life q = .free
  tables : ∀ q, s.life q = .live → (s.pools .fs).ptr q ≠ none

/-- Idle processes and `initproc` do not exit, and the interpreter of a dynamic program must be
there. -/
def ExecFaults : Fault → Prop
  | .panic text => text = "idleproc exit.\n" ∨ text = "initproc exit.\n"
  | .assertion text => text = "interp_fd >= 0"
  | _ => False

section Fork
variable {flags : CloneFlags} {memory : ForkMemory} {done : List Kind} {excused : Fault → Prop}

/-- In the course of `do_fork`, when the child owns copies of the kinds in `done`. -/
def Copied (s₀ s : State) (child : ProcId) (done : List Kind) : Prop :=
  Books s₀ s child fun k => if k ∈ done then (s.pools k).ptr child else none

/-- The pointers of the child are null only if those of the parent are; before they are copied it is
the other way round. -/
structure Follows (s₀ s : State) (p child : ProcId) (done : List Kind) : Prop where
  blank : ∀ k, k ∉ done → (s₀.pools k).ptr p = none → (s.pools k).ptr child = none
  given : ∀ k, k ∈ done → (s₀.pools k).ptr p ≠ none → (s.pools k).ptr child ≠ none

/-- The result of a copy: the child owns one object more, or nothing has changed. -/
def Extends (s₀ : State) (p child : ProcId) (k : Kind) (done : List Kind) (result : State × Int) : Prop :=
  if result.2 = 0 then Copied s₀ result.1 child (k :: done) ∧ Follows s₀ result.1 p child
    (k :: done) else Copied s₀ result.1 child done

theorem Copied.copy (copied : Copied s₀ s child done) (follows : Follows s₀ s p child done)
    (apart : p ≠ child) (live : s₀.life p = .live)
    (share : Bool) (outcome : Made) (new : k ∉ done := by decide) :
      Ends excused (copy k share outcome s p child) (Extends s₀ p child k done) := by
  have parent := copied.others k p apart
  obtain ⟨t, ret, ran, same, kept⟩ := Books.copy (k := k) copied apart live (if_neg new)
    (fun none => follows.blank k new (parent ▸ none)) share outcome
  have pointers : ∀ j ∈ done, (t.pools j).ptr child = (s.pools j).ptr child :=
    fun j listed => same j fun equal => new (equal ▸ listed)
  refine .of_ok ran ?_
  unfold Extends
  split
  · next zero =>
    rw [if_pos zero] at kept
    refine ⟨?_, fun j unlisted none => ?_, fun j listed given => ?_⟩
    · unfold Copied
      convert kept.1 using 1
      funext j
      by_cases equal : j = k
      · simp [equal]
      · by_cases listed : j ∈ done
        · simp [equal, listed, pointers]
        · simp [equal, listed]
    · rw [mem_cons, not_or] at unlisted
      rw [same j unlisted.1]
      exact follows.blank j unlisted.2 none
    · rcases mem_cons.mp listed with rfl | listed
      · exact kept.2 (parent ▸ given)
      · rw [pointers j listed]
        exact follows.given j listed given
  · next failed =>
    rw [if_neg failed] at kept
    unfold Copied
    convert kept using 1
    funext j
    by_cases listed : j ∈ done
    · simp [listed, pointers]
    · simp [listed]

theorem Copied.badFork (inv : Inv s₀) (copied : Copied s₀ s child done) (distinct : done.Nodup)
    (free : s₀.life child = .free) : Ends excused (badFork child done s) fun result =>
      Inv result.1 := by
  obtain ⟨t, ran, kept⟩ := Books.putAll distinct copied fun k listed => if_pos listed
  refine .bind_ok ran (show Inv t from ⟨?_, ?_, ?_⟩)
  · have owned := kept.finish .free t.procs fun k => by by_cases listed : k ∈ done <;> simp [listed]
    rwa [← free, ← kept.life, update_eq_self] at owned
  · rw [kept.procs, kept.life]
    exact inv.unused
  · intro q live
    rw [kept.life] at live
    have apart : q ≠ child := by
      rintro rfl
      cases free.symm.trans live
    rw [kept.others _ q apart]
    exact inv.tables q live

/-- The memory that `alloc_proc` gets has no stale pointers where the parent has none. -/
def CleanMemory (s : State) (p : ProcId) (memory : ForkMemory) : Prop :=
  ((s.pools .signal).ptr p = none → memory.oldSignal = none) ∧ ((s.pools .sighand).ptr p = none → memory.oldSighand = none)

theorem copied_allocProc (owned : Owned s) (free : s.life child = .free) : Copied s (allocProc s child memory) child [] := by
  have books := Books.start owned child
  have none : (fun k => s.holds k child) = fun _ => none := by
    funext k
    simp [State.holds, free]
  rw [none] at books
  exact ((((books.setPtr .mm _).setPtr .semQueue _).setPtr .fs _).setPtr .signal _).setPtr .sighand _

theorem follows_allocProc (clean : CleanMemory s p memory) (child : ProcId) :
    Follows s (allocProc s child memory) p child [] := by
  refine ⟨fun k _ none => ?_, fun k listed => absurd listed not_mem_nil⟩
  cases k with
  | signal => simp [allocProc, pools_setPtr_other, clean.1 none]
  | sighand => simp [allocProc, clean.2 none]
  | mm | semQueue | fs => simp [allocProc, pools_setPtr_other]

theorem Copied.copyFs (inv : Inv s₀) (copied : Copied s₀ s child done)
    (follows : Follows s₀ s p child done) (apart : p ≠ child)
    (live : s₀.life p = .live) (new : .fs ∉ done) : Ends excused (copyFs flags memory s p child)
      (Extends s₀ p child .fs done) := by
  have parent := copied.others .fs p apart
  unfold Resources.copyFs
  cases table : (s.pools .fs).ptr p with
  | none => exact absurd (parent ▸ table) (inv.tables p live)
  | some old =>
    have owner : update (s₀.holds .fs) child none p = some old := by
      rw [update_of_ne apart, State.holds, if_pos live, ← parent, table]
    have counted := copied.counted .fs
    rw [if_neg new] at counted
    have positive : 0 < (s.pools .fs).refs.count old := by
      rw [counted.count old (counted.known p old owner)]
      exact_mod_cast tally_pos (counted.finite old) owner
    have copies : Ends excused _ _ := copied.copy follows apart live flags.fs (.of memory.fs) new
    by_cases dup : (!flags.fs && memory.fs) = true
    · simpa only [dup, if_true, ensure_bind, positive] using copies
    · simpa only [dup, Bool.false_eq_true, if_false] using copies

theorem Copied.next (inv : Inv s₀) (free : s₀.life child = .free) {first : Kernel (State × Int)}
    (copies : Ends excused first (Extends s₀ p child k done)) {rest : State × Int →
    Kernel (State × Int)}
    (goes : ∀ x, Copied s₀ x.1 child (k :: done) → Follows s₀ x.1 p child (k :: done) →
      Ends excused (rest x) fun result => Inv result.1)
    (distinct : done.Nodup := by decide) :
    Ends excused (first >>= fun result =>
      if result.2 ≠ 0 then Resources.badFork child done result.1 else rest result) fun result => Inv result.1 := by
  refine copies.bind fun result kept => ?_
  unfold Extends at kept
  split
  · next failed =>
    rw [if_neg failed] at kept
    exact kept.badFork inv distinct free
  · next finished =>
    rw [if_pos (not_not.mp finished)] at kept
    exact goes result kept.1 kept.2

theorem Inv.fork (inv : Inv s) (live : s.life p = .live) (clean : CleanMemory s p memory) :
    Ends excused (doFork s p flags memory) fun result => Inv result.1 := by
  have free := inv.unused s.procs (Nat.le_refl _)
  have apart : p ≠ s.procs := by
    rintro rfl
    cases free.symm.trans live
  have copied : Copied s (allocProc s s.procs memory) s.procs [] := copied_allocProc inv.owned free
  have follows := follows_allocProc clean s.procs
  unfold doFork
  split
  · exact inv
  split
  · exact inv
  split
  · exact show Ends excused _ _ from copied.badFork inv nodup_nil free
  refine Copied.next inv free (copied.copy follows apart live _ _) fun _ copied follows => ?_
  refine Copied.next inv free (copied.copyFs inv follows apart live (by decide)) fun _ copied follows => ?_
  refine Copied.next inv free (copied.copy follows apart live _ _) fun _ copied follows => ?_
  refine Copied.next inv free (copied.copy follows apart live _ _) fun _ copied follows => ?_
  refine Copied.next inv free (copied.copy follows apart live _ _) fun after copied follows => ?_
  refine show Inv _ from ⟨copied.finish .live _ fun k => ?_, fun q late => ?_, fun q alive => ?_⟩
  · cases k <;> simp
  · rw [copied.procs] at late
    have other := Nat.ne_of_gt late
    simp only [update_of_ne other, copied.life]
    exact inv.unused q (Nat.le_of_lt late)
  · obtain rfl | new := eq_or_ne q s.procs
    · exact follows.given .fs (by decide) (inv.tables p live)
    · simp only [update_of_ne new, copied.life] at alive
      rw [copied.others _ q new]
      exact inv.tables q alive

end Fork

section Exec
variable {given : List Kind}

/-- In the course of a call of `p`, which has given up its objects of the kinds in `given` and keeps
stale pointers to them. -/
def Owns (s₀ s : State) (p : ProcId) (given : List Kind) : Prop :=
  ∃ held, Books s₀ s p held ∧ ∀ k, held k = if k ∈ given then none else (s.pools k).ptr p

theorem owns_start (owned : Owned s) (live : s.life p = .live) : Owns s s p [] :=
  ⟨_, Books.start owned p, fun k => by simp [State.holds, live]⟩

theorem Owns.put (owns : Owns s₀ s p given) (kept : k ∉ given) : ∃ t, put p s k = .ok t ∧
    Owns s₀ t p (k :: given) ∧ (∀ j, j ≠ k → (t.pools j).ptr p = (s.pools j).ptr p) ∧
      (t.pools k).ptr p = if k.cleared then none else (s.pools k).ptr p := by
  obtain ⟨held, books, has⟩ := owns
  obtain ⟨t, ran, after, same, own⟩ := books.put ((has k).trans (if_neg kept))
  refine ⟨t, ran, ⟨_, after, fun j => ?_⟩, same, own⟩
  by_cases equal : j = k
  · simp [equal]
  · simp [equal, has j, same j equal]

theorem Owns.settle (owns : Owns s₀ s p (k :: given)) (null : (s.pools k).ptr p = none) : Owns s₀ s p given := by
  obtain ⟨held, books, has⟩ := owns
  refine ⟨held, books, fun j => ?_⟩
  obtain rfl | equal := eq_or_ne j k
  · simp [has j, null]
  · simp [has j, equal]

theorem Owns.renew (owns : Owns s₀ s p (k :: given)) (ok : Bool) (kept : k ∉ given := by decide) :
    Owns s₀ (renew k s p ok) p given := by
  obtain ⟨held, books, has⟩ := owns
  have absent : held k = none := by simp [has k]
  cases ok with
  | true =>
    refine ⟨_, books.ownNew absent, fun j => ?_⟩
    obtain rfl | equal := eq_or_ne j k
    · simp [Resources.renew, Resources.ownNew, Resources.own, kept]
    · simp [Resources.renew, Resources.ownNew, Resources.own, equal, has j,
        pools_setPtr_other equal, pools_setRefs_other equal]
  | false =>
    refine ⟨held, books.setPtr k none, fun j => ?_⟩
    obtain rfl | equal := eq_or_ne j k
    · simp [Resources.renew, absent]
    · simp [Resources.renew, equal, has j, pools_setPtr_other equal]

theorem renew_other (other : j ≠ k) (ok : Bool) : ((renew k s p ok).pools j).ptr = (s.pools j).ptr := by
  cases ok <;> simp [renew, ownNew, own, pools_setPtr_other other, pools_setRefs_other other]

theorem Owns.exit (inv : Inv s₀) (live : s₀.life p = .live) (owns : Owns s₀ s p []) :
    Ends ExecFaults (execveExit last s p) fun result => Inv result.1 := by
  obtain ⟨held, books, has⟩ := owns
  unfold execveExit doExit
  split
  · simp [Ends, Bind.bind, Except.bind, ExecFaults]
  split
  · simp [Ends, Bind.bind, Except.bind, ExecFaults]
  have distinct : [Kind.mm, .sighand, .signal, .fs, .semQueue].Nodup := by decide
  obtain ⟨t, ran, kept⟩ := books.putAll distinct fun k _ => (has k).trans (if_neg not_mem_nil)
  rw [ran]
  refine show Inv _ from ⟨kept.finish .zombie _ fun k => ?_, fun q late => ?_, fun q alive => ?_⟩
  · cases k <;> simp
  · have other : q ≠ p := by
      rintro rfl
      rw [inv.unused q (kept.procs ▸ late)] at live
      cases live
    simp only [update_of_ne other, kept.life]
    exact inv.unused q (kept.procs ▸ late)
  · have other : q ≠ p := by
      rintro rfl
      simp at alive
    simp only [update_of_ne other, kept.life] at alive
    rw [kept.others _ q other]
    exact inv.tables q alive

/-- Once the semaphore queue is given up, there is memory for the signal handlers and the signals.
-/
def SignalMemory (s : State) (p : ProcId) (results : ExecResults) : Prop :=
  (s.pools .semQueue).ptr p ≠ none → results.sighand = true ∧ results.signal = true

section
variable (inv : Inv s₀) (live : s₀.life p = .live) (owns : Owns s₀ s p [])
include inv live owns

theorem Owns.finish (table : (s.pools .fs).ptr p ≠ none) : Inv s := by
  obtain ⟨held, books, has⟩ := owns
  have owned := books.finish .live s.procs fun k => by simp [has k]
  rw [← live, ← books.life, update_eq_self] at owned
  refine ⟨owned, ?_, fun q alive => ?_⟩
  · rw [books.life, books.procs]
    exact inv.unused
  by_cases same : q = p
  · exact same ▸ table
  · rw [books.others _ q same]
    exact inv.tables q (books.life ▸ alive)

theorem Owns.loadIcode (empty : (s.pools .mm).ptr p = none) (table : (s.pools .fs).ptr p ≠ none)
    (load : Load) : Ends ExecFaults (loadIcode s p load) fun result =>
      if result.2 = 0 then Inv result.1 else Owns s₀ result.1 p [] := by
  unfold Resources.loadIcode
  simp only [empty, ne_eq, not_true_eq_false, if_false]
  obtain ⟨held, books, has⟩ := owns
  cases load with
  | interpreterFails => rfl
  | mm outcome =>
    cases outcome with
    | fails => exact ⟨held, books, has⟩
    | undone =>
      obtain ⟨t, ran, kept, same⟩ := books.waste .mm
      refine .bind_ok ran ?_
      exact ⟨held, kept, fun k => by rw [same]; exact has k⟩
    | made =>
      have renewed : Owns s₀ s p [.mm] := ⟨held, books, fun k => by cases k <;> simp [has, empty]⟩
      have kept := renewed.renew true
      have still : ((Resources.renew .mm s p true).pools .fs).ptr p ≠ none := by rwa [renew_other (by decide)]
      exact kept.finish inv live still

end

theorem Inv.execve (inv : Inv s) (live : s.life p = .live) {results : ExecResults}
    (memory : SignalMemory s p results) : Ends ExecFaults (doExecve last s p results) fun result =>
      Inv result.1 := by
  have table := inv.tables p live
  have owns := owns_start inv.owned live
  unfold doExecve
  split
  · exact inv
  split
  · exact owns.exit inv live
  obtain ⟨s₁, ran, owns, same₁, empty⟩ := owns.put (k := .mm) (by simp)
  refine .bind_ok ran ?_
  obtain ⟨s₂, ran, owns, same₂, stale⟩ := (owns.settle empty).put (k := .semQueue) (by simp)
  refine .bind_ok ran ?_
  obtain ⟨s₃, ran, owns, same₃, _⟩ := owns.put (k := .sighand) (by simp)
  refine .bind_ok ran ?_
  have owns := owns.renew results.sighand
  have others : ∀ j, j ≠ .mm → j ≠ .sighand → ((renew .sighand s₃ p results.sighand).pools j).ptr
    p = (s.pools j).ptr p := by
    intro j space handlers
    rw [renew_other handlers, same₃ j handlers]
    obtain rfl | queue := eq_or_ne j .semQueue
    · exact stale.trans (same₁ _ space)
    · rw [same₂ j queue, same₁ j space]
  have space : ((renew .sighand s₃ p results.sighand).pools .mm).ptr p = none := by
    rwa [renew_other (by decide), same₃ _ (by decide), same₂ _ (by decide)]
  dsimp only
  generalize renew .sighand s₃ p results.sighand = s₄ at owns others space ⊢
  split
  · next failed =>
    refine (owns.settle ?_).exit inv live
    rw [others _ (by decide) (by decide)]
    by_contra queue
    simp [(memory queue).1] at failed
  obtain ⟨s₅, ran, owns, same₅, _⟩ := owns.put (k := .signal) (by simp)
  refine .bind_ok ran ?_
  have owns := owns.renew results.signal
  have kept : ∀ j, j ≠ .signal → ((renew .signal s₅ p results.signal).pools j).ptr p = (s₄.pools j).ptr p := by
    intro j signals
    rw [renew_other signals, same₅ j signals]
  generalize renew .signal s₅ p results.signal = s₆ at owns kept ⊢
  split
  · next failed =>
    refine (owns.settle ?_).exit inv live
    rw [kept _ (by decide), others _ (by decide) (by decide)]
    by_contra queue
    simp [(memory queue).2] at failed
  have owns := owns.renew results.semQueue
  have pointers : ∀ j, j ≠ .semQueue → ((renew .semQueue s₆ p results.semQueue).pools j).ptr p =
    (s₆.pools j).ptr p := fun j other => by rw [renew_other other]
  generalize renew .semQueue s₆ p results.semQueue = s₇ at owns pointers ⊢
  split
  · exact owns.exit inv live
  refine (owns.loadIcode inv live ?_ ?_ results.load).bind fun result loaded => ?_
  · rw [pointers _ (by decide), kept _ (by decide), space]
  · rwa [pointers _ (by decide), kept _ (by decide), others _ (by decide) (by decide)]
  split
  · next failed =>
    rw [if_neg failed] at loaded
    exact loaded.exit inv live
  · next finished =>
    rwa [if_pos (not_not.mp finished)] at loaded

end Exec

theorem counted_tables (last : Nat) : ((boot last).pools .fs).refs.Counted ((boot last).holds .fs) := by
  have holds : ∀ p o, (boot last).holds .fs p = some o ↔ p = o ∧ o ≤ last := by
    intro p o
    by_cases early : p ≤ last
    · simp only [State.holds, boot, early, if_true, Option.some.injEq]
      exact ⟨fun same => ⟨same, same ▸ early⟩, And.left⟩
    · simp only [State.holds, boot, early, if_false, reduceCtorEq, false_iff]
      exact fun ⟨same, other⟩ => early (same ▸ other)
  have alone : ∀ o, o ≤ last → places ((boot last).holds .fs) o = {o} := by
    intro o early
    ext p
    simp [mem_places, holds, early]
  refine ⟨fun o => ?_, fun p o held => Nat.lt_succ_of_le ((holds p o).mp held).2, fun o known => ?_, fun o known => ?_⟩
  · by_cases early : o ≤ last
    · simp [alone o early]
    have none : places ((boot last).holds .fs) o = ∅ := by
      ext p
      simp [mem_places, holds, early]
    simp [none]
  · have early := Nat.le_of_lt_succ known
    rw [tally, alone o early]
    simp [boot, early]
  · have early := Nat.le_of_lt_succ known
    rw [tally, alone o early]
    simp [boot]

theorem inv_boot (last : Nat) : Inv (boot last) := by
  refine ⟨fun k => ?_, fun q late => ?_, fun q alive => ?_⟩
  · have none : ∀ k, k ≠ .fs → ((boot last).pools k).refs.Counted ((boot last).holds k) := by
      intro k other
      have empty : (boot last).pools k = ⟨fun _ => none, .empty⟩ := by cases k <;> first | rfl | exact absurd rfl other
      have nothing : (boot last).holds k = fun _ => none := by
        funext p
        simp [State.holds, empty]
      rw [empty, nothing]
      exact RefCounts.counted_empty
    by_cases table : k = .fs
    · exact table ▸ counted_tables last
    · exact none k table
  · simp [boot, not_le.mpr (Nat.lt_of_succ_le late)]
  · have early : q ≤ last := by
      by_contra late
      simp [boot, late] at alive
    simp [boot, early]

/-- There is memory for the signals of a process that has given up its semaphore queue, and no
stale pointer to signals comes into the table of a new process. -/
def SignalsThere (s : State) : Op → Prop
  | .fork p _ memory => CleanMemory s p memory
  | .execve p results => SignalMemory s p results
  | .exit _ => True

theorem counts_are_owners_when_signals_there (last : Nat) :
    ((machine last).restrict SignalsThere).SafeExcept ExecFaults Owned := by
  refine Machine.safeExcept_of_invariant ?_ ?_ fun _ => Inv.owned
  · rintro s rfl
    exact inv_boot last
  rintro s op inv ⟨live, there⟩
  cases op with
  | fork => exact (inv.fork live there).bind fun _ kept => kept
  | execve => exact inv.execve live there
  | exit => exact (owns_start inv.owned live).exit inv live

instance (s : State) (op : Op) : Decidable ((machine last).allowed s op) := inferInstanceAs (Decidable (_ = _))

def sharedQueueRun : List Op :=
  let plenty : ForkMemory := ⟨true, true, true, .made, true, true, true, .made, none, none⟩
  [.fork 0 ⟨true, false, false, false, false⟩ plenty, .fork 1 ⟨true, false, false, false, false⟩ plenty,
    .execve 2 ⟨0, true, true, true, true, .mm .made⟩, .fork 2 ⟨false, false, true, false, false⟩ plenty,
    .execve 3 ⟨0, true, false, true, true, .mm .made⟩]

/-- The semaphore queue of a live process has been destroyed. -/
theorem queue_destroyed_while_owned : ∃ s, (machine 0).Reachable s ∧ ¬ Owned s := by
  have run : ∃ s, (machine 0).Reachable s ∧ s.holds .semQueue 2 = some 0 ∧
    (s.pools .semQueue).refs.count 0 = 0 :=
    Machine.exists_of_replay rfl sharedQueueRun (by decide +kernel)
  obtain ⟨s, reachable, holder, zero⟩ := run
  refine ⟨s, reachable, fun owned => ?_⟩
  have counted := owned .semQueue
  have positive := tally_pos (counted.finite 0) holder
  have count := counted.count 0 (counted.known 2 0 holder)
  omega

end Ucore.Resources
