import Ucore.SfsLocks

/-! Semaphores of SFS are taken in the order mutex, inodes, `fs_sem`, `io_sem`, with
one exception: whoever holds `fs_sem` may write inodes back. Where these are free, no
processes wait for each other in a cycle. -/

namespace Ucore.SfsLocks
open Lib Function List

variable {h : Sem → Prop} {s : State} {sem : Sem} {p q r : ProcId} {ino : Ino} {body : Code} {c : Call}

/-- Which semaphores may be taken with those of `h`. A second inode needs the mutex or `fs_sem`. -/
def May (h : Sem → Prop) : Sem → Prop
  | .mutex => ∀ sem, ¬ h sem
  | .inode ino => ¬ h .io ∧ (h .fs ∨ ¬ h (.inode ino) ∧ (h .mutex ∨ ∀ other, ¬ h (.inode other)))
  | .fs => ¬ h .fs ∧ ¬ h .io
  | .io => ¬ h .io

/-- Semaphores are taken in order and given back by who has them. Whoever waits for a semaphore of
its own stays there. -/
def Orderly (h : Sem → Prop) : List Act → Prop
  | [] => ∀ sem, ¬ h sem
  | .down sem :: rest => May h sem ∧ (h sem ∨ Orderly (fun x => x = sem ∨ h x) rest)
  | .up sem :: rest => h sem ∧ Orderly (fun x => x ≠ sem ∧ h x) rest

/-- Every way through the code is in order, and leaves the semaphores as they were. -/
def Keeps (h : Sem → Prop) (code : Code) : Prop :=
  ∀ path rest, code.rmatch path = true → Orderly h rest → Orderly h (path ++ rest)

namespace Keeps
variable {a b : Code}

theorem one : Keeps h 1 := by
  intro path rest matched orderly
  rwa [(RegularExpression.one_rmatch_iff path).mp matched]

theorem add (first : Keeps h a) (second : Keeps h b) : Keeps h (a + b) := by
  intro path rest matched orderly
  rcases (RegularExpression.add_rmatch_iff a b path).mp matched with left | right
  · exact first path rest left orderly
  · exact second path rest right orderly

theorem mul (first : Keeps h a) (second : Keeps h b) : Keeps h (a * b) := by
  intro path rest matched orderly
  obtain ⟨front, back, rfl, left, right⟩ := (RegularExpression.mul_rmatch_iff a b path).mp matched
  rw [append_assoc]
  exact first front _ left (second back rest right orderly)

theorem star (body : Keeps h a) : Keeps h a.star := by
  intro path rest matched orderly
  obtain ⟨parts, rfl, each⟩ := (RegularExpression.star_rmatch_iff a path).mp matched
  induction parts with
  | nil => exact orderly
  | cons part parts ih =>
    rw [flatten_cons, append_assoc]
    have later := fun t listed => each t (mem_cons_of_mem part listed)
    exact body part _ (each part mem_cons_self).2
      (ih later ((RegularExpression.star_rmatch_iff a _).mpr ⟨parts, rfl, later⟩))

theorem holding (may : May h sem) (body : ¬ h sem → Keeps (fun x => x = sem ∨ h x) a) : Keeps h (SfsLocks.holding sem a) := by
  intro path rest matched orderly
  obtain ⟨front, back, rfl, taken, last⟩ := (RegularExpression.mul_rmatch_iff _ _ path).mp matched
  obtain ⟨first, middle, rfl, down, through⟩ := (RegularExpression.mul_rmatch_iff _ _ front).mp taken
  rw [(RegularExpression.char_rmatch_iff _ _).mp down, (RegularExpression.char_rmatch_iff _ _).mp last, append_assoc]
  refine ⟨may, or_iff_not_imp_left.mpr fun free => body free middle _ through ⟨.inl rfl, ?_⟩⟩
  have back : (fun x => x ≠ sem ∧ (x = sem ∨ h x)) = h := by
    funext x
    by_cases same : x = sem
    · simp [same, free]
    · simp [same]
  exact (congrArg (Orderly · rest) back).mpr orderly

end Keeps

theorem keeps_transfers (free : ¬ h .io) : Keeps h transfers := .star (.holding free fun _ => .one)

theorem keeps_locked (may : May h (.inode ino)) (inside : ¬ h (.inode ino) →
    Keeps (fun x => x = .inode ino ∨ h x) body) : Keeps h (locked ino body) :=
    .add (.add .one (.holding may fun _ => .one)) (.holding may inside)

theorem keeps_fsync (may : May h (.inode ino)) : Keeps h (sfsFsync ino) :=
  .add .one (keeps_locked may fun _ => keeps_transfers (by simpa using may.1))

/-- Neither `fs_sem` nor `io_sem` has been taken. -/
def Low (h : Sem → Prop) : Prop := ¬ h .fs ∧ ¬ h .io

section
variable (low : Low h)
include low

theorem Low.inode (ino : Ino) : Low fun x => x = .inode ino ∨ h x := by simpa [Low] using low

theorem keeps_fs (inside : Keeps (fun x => x = .fs ∨ h x) body) : Keeps h (holding .fs body) := .holding low fun _ => inside

theorem keeps_loadInode : Keeps h sfsLoadInode := keeps_fs low (keeps_transfers (by simpa using low.2))

theorem keeps_fsync_fs (ino : Ino) : Keeps (fun x => x = .fs ∨ h x) (sfsFsync ino) := keeps_fsync (by simpa [May] using low.2)

theorem keeps_reclaim (ino : Ino) : Keeps h (sfsReclaim ino) :=
  .add (.mul (keeps_loadInode low) (keeps_transfers low.2)) (keeps_fs low (keeps_fsync_fs low ino))

theorem keeps_refDec (ino : Ino) : Keeps h (vopRefDec ino) := .add .one (keeps_reclaim low ino)

theorem keeps_sync (inodes : List Ino) : Keeps h (sfsSync inodes) := by
  refine .mul (keeps_fs low ?_) (keeps_transfers low.2)
  induction inodes with
  | nil => exact .one
  | cons ino rest ih => exact .mul (keeps_fsync_fs low ino) ih

end

/-- The entry is not that of the directory itself. -/
def Call.Proper : Call → Prop
  | .unlink dir ino => ino ≠ dir
  | _ => True

theorem Call.keeps (proper : c.Proper) : Keeps (fun _ => False) c.code := by
  have low : Low fun _ => False := ⟨id, id⟩
  have first : ∀ ino, May (fun _ => False) (.inode ino) := by simp [May]
  have mutex : Low fun x => x = .mutex ∨ False := by simp [Low]
  have second : ∀ ino, May (fun x => x = .mutex ∨ False) (.inode ino) := by simp [May]
  cases c with
  | lookup dir =>
    have searched : Keeps (fun _ => False) (holding (.inode dir) transfers) :=
      .holding (first dir) fun _ => keeps_transfers (low.inode dir).2
    have once : Keeps (fun _ => False) (sfsLookupOnce dir) :=
      .add (.add .one (.holding (first dir) fun _ => .one))
      (.mul searched (.add .one (keeps_loadInode low)))
    exact .mul (.add (.add .one (keeps_loadInode low)) once) (keeps_refDec low dir)
  | create dir ino =>
    have low := low.inode dir
    have dropped := Keeps.add .one (keeps_refDec low ino)
    have linked := Keeps.mul (.mul (keeps_fs low .one) (keeps_transfers low.2)) dropped
    exact keeps_locked (first dir) fun _ => .mul (keeps_transfers low.2)
      (.add (.add .one (.mul (keeps_loadInode low) dropped)) linked)
  | mkdir dir ino =>
    have low := low.inode dir
    have linked := Keeps.mul (.mul (keeps_fs low .one) (keeps_transfers low.2)) (keeps_refDec low ino)
    exact keeps_locked (first dir) fun _ => .mul (keeps_transfers low.2) (.add .one linked)
  | link dir => exact keeps_locked (first dir) fun _ => keeps_transfers (low.inode dir).2
  | unlink dir ino =>
    have low := mutex.inode dir
    have may : May (fun x => x = .inode dir ∨ x = .mutex ∨ False) (.inode ino) := by simp [May, show ino ≠ dir from proper]
    have entry := keeps_locked may fun _ => keeps_transfers (low.inode ino).2
    have emptied := Keeps.mul (.add (keeps_transfers low.2) entry) (keeps_refDec low ino)
    exact .holding (fun _ => id) fun _ => keeps_locked (second dir) fun _ =>
      .mul (keeps_transfers low.2) (.add .one (.mul (keeps_loadInode low) (.add .one emptied)))
  | rename dir newDir ino =>
    refine .holding (fun _ => id) fun _ => keeps_locked (second dir) fun _ => ?_
    have low := mutex.inode dir
    split
    · exact keeps_transfers low.2
    · next different =>
      have low := low.inode newDir
      have moved := Keeps.mul (keeps_transfers low.2) (keeps_refDec low ino)
      exact keeps_locked (by simp [May, Ne.symm different]) fun _ =>
        .mul (keeps_transfers low.2) (.add .one (.mul (keeps_loadInode low) (.add .one moved)))
  | io ino | fsync ino => exact keeps_fsync (first ino)
  | reclaim ino => exact keeps_reclaim low ino
  | sync inodes => exact keeps_sync low inodes

/-- What each process still does is in order for the semaphores it holds. -/
def Inv (s : State) : Prop := ∀ p, Orderly (fun sem => s.holder sem = some p) (s.rest p)

def Clear (s : State) : Prop := ∀ p ino, s.holder .fs = some p → s.wants p = some (.inode ino) →
    s.holder (.inode ino) = none

/-- The inode that a process turns to under `fs_sem` is free, or the process gives it back now. -/
def FindsFree (s : State) (p : ProcId) : Prop := ∀ act rest ino, s.rest p = act :: .down (.inode ino) :: rest →
  act = .down .fs ∨ (s.holder .fs = some p ∧ act ≠ .up .fs) →
    act = .up (.inode ino) ∨ (s.holder (.inode ino) = none ∧ act ≠ .down (.inode ino))

/-- No directory is unlinked from itself, write-back under `fs_sem` finds the inodes free, and
nobody takes an inode that the holder of `fs_sem` has turned to. -/
def Condition (s : State) : Op → Prop
  | .call _ c _ => c.Proper
  | .go p => FindsFree s p ∧
    ∀ ino q, q ≠ p → s.wants p = some (.inode ino) → s.holder .fs = some q → s.wants q ≠ some (.inode ino)

section

variable (inv : Inv s)
include inv

theorem Inv.moves {holder : Sem → Option ProcId} {rest : List Act}
    (own : Orderly (fun sem => holder sem = some p) rest) (others : ∀ q ≠ p, ∀ sem,
    holder sem = some q ↔ s.holder sem = some q) : Inv ⟨holder, update s.rest p rest⟩ := by
  intro q
  obtain rfl | here := eq_or_ne q p
  · dsimp only
    rwa [update_self]
  · dsimp only
    rw [update_of_ne here, funext fun sem => propext (others q here sem)]
    exact inv q

theorem Inv.call {path : List Act} (idle : s.rest p = []) (proper : c.Proper)
    (matched : c.code.rmatch path = true) : Inv (next s (.call p c path)) := by
  have free := inv p
  rw [idle] at free
  have none : (fun sem => s.holder sem = some p) = fun _ => False := funext fun sem => eq_false (free sem)
  have orderly := Call.keeps proper path [] matched fun _ => id
  rw [append_nil, ← none] at orderly
  exact inv.moves orderly fun _ _ _ => Iff.rfl

theorem Inv.go (free : ∀ sem ∈ s.wants p, s.holder sem = none) : Inv (next s (.go p)) := by
  have own := inv p
  rw [next]
  split
  · next sem rest is =>
    rw [is] at own
    have free := free sem (by simp [State.wants, is])
    refine inv.moves ?_ fun q other x => ?_
    · have mine := own.2.resolve_left (by simp [free])
      convert mine using 2 with x
      by_cases here : x = sem <;> simp [here]
    · by_cases here : x = sem
      · simp [here, free, Ne.symm other]
      · rw [update_of_ne here]
  · next sem rest is =>
    rw [is] at own
    refine inv.moves ?_ fun q other x => ?_
    · convert own.2 using 2 with x
      by_cases here : x = sem <;> simp [here]
    · by_cases here : x = sem
      · simp [here, own.1, Ne.symm other]
      · rw [update_of_ne here]
  · exact inv

theorem Inv.clear_call {path : List Act} (idle : s.rest p = []) (clear : Clear s) : Clear (next s (.call p c path)) := by
  intro q ino holds wants
  obtain rfl | other := eq_or_ne q p
  · have free := inv q
    rw [idle] at free
    exact absurd holds (free .fs)
  · refine clear q ino holds ?_
    rwa [State.wants, show (next s (.call p c path)).rest q = s.rest q from update_of_ne other ..] at wants

omit inv in
theorem wants_iff {sem : Sem} : s.wants p = some sem ↔ ∃ rest, s.rest p = .down sem :: rest := by
  rw [State.wants]
  split
  · next is => simp [is]
  · next none => exact ⟨nofun, fun ⟨rest, is⟩ => absurd is (none _ _)⟩

omit inv in
/-- One action keeps the order: the process itself finds its next inode free, and takes none from
another. -/
theorem clear_go (clear : Clear s) (condition : Condition s (.go p)) :
    Clear (next s (.go p)) := by
  obtain ⟨finds, leaves⟩ := condition
  intro q ino holds wants
  obtain ⟨later, wants⟩ := wants_iff.mp wants
  match is : s.rest p with
  | [] =>
    simp only [next, is] at holds wants ⊢
    exact clear q ino holds (wants_iff.mpr ⟨later, wants⟩)
  | .down sem :: rest =>
    simp only [next, is] at holds wants ⊢
    obtain rfl | other := eq_or_ne q p
    · rw [update_self] at wants
      have under : Act.down sem = .down .fs ∨ (s.holder .fs = some q ∧ Act.down sem ≠ .up .fs) := by
        by_cases here : sem = .fs
        · exact .inl (here ▸ rfl)
        · exact .inr ⟨by rwa [update_of_ne (Ne.symm here)] at holds, nofun⟩
      obtain ⟨none, different⟩ := (finds _ later ino (wants ▸ is) under).resolve_left nofun
      have kept : Sem.inode ino ≠ sem := fun same => different (congrArg Act.down same.symm)
      rw [update_of_ne kept]
      exact none
    · rw [update_of_ne other] at wants
      have apart : sem ≠ .fs := by
        rintro rfl
        rw [update_self] at holds
        exact other (Option.some_inj.mp holds).symm
      rw [update_of_ne (Ne.symm apart)] at holds
      have wanted := wants_iff.mpr ⟨later, wants⟩
      have kept : Sem.inode ino ≠ sem := by
        rintro rfl
        exact leaves ino q other (wants_iff.mpr ⟨rest, is⟩) holds wanted
      rw [update_of_ne kept]
      exact clear q ino holds wanted
  | .up sem :: rest =>
    simp only [next, is] at holds wants ⊢
    by_cases same : Sem.inode ino = sem
    · rw [same, update_self]
    rw [update_of_ne same]
    have apart : sem ≠ .fs := by
      rintro rfl
      rw [update_self] at holds
      cases holds
    rw [update_of_ne (Ne.symm apart)] at holds
    obtain rfl | other := eq_or_ne q p
    · rw [update_self] at wants
      refine ((finds _ later ino (wants ▸ is) (.inr ⟨holds, fun same => apart (by cases same; rfl)⟩)).resolve_left ?_).1
      exact fun equal => same (by cases equal; rfl)
    · rw [update_of_ne other] at wants
      exact clear q ino holds (wants_iff.mpr ⟨later, wants⟩)

def rank (s : State) (p : ProcId) : Nat :=
  match s.wants p with
  | some .mutex => 0
  | some (.inode _) => if s.holder .mutex = some p then 2 else 1
  | some .fs => 3
  | some .io => 4
  | none => 5

theorem Inv.may (wants : s.wants p = some sem) : May (fun sem => s.holder sem = some p) sem := by
  have own := inv p
  rw [State.wants] at wants
  split at wants
  · next is =>
    cases wants
    rw [is] at own
    exact own.1
  · cases wants

theorem rank_lt (clear : Clear s) (first : Waits s p q) (second : Waits s q r) : rank s p < rank s q := by
  obtain ⟨held, wants, holds⟩ := first
  obtain ⟨wanted, waits, other⟩ := second
  rw [Option.mem_def] at wants waits
  have may := inv.may waits
  have below : ∀ ino, wanted = .inode ino → s.holder .fs ≠ some q := by
    rintro ino rfl holder
    rw [clear q ino holder waits] at other
    cases other
  cases held with
  | mutex =>
    cases wanted with
    | mutex => exact absurd holds (may _)
    | inode => simp [rank, wants, waits, holds]
    | fs | io => simp [rank, wants, waits]
  | inode held =>
    have low : rank s p ≤ 2 := by
      simp only [rank, wants]
      split <;> omega
    cases wanted with
    | mutex => exact absurd holds (may _)
    | inode ino =>
      -- A second inode is only wanted with the mutex, and by one process.
      obtain ⟨new, order⟩ := may.2.resolve_left (below ino rfl)
      have mutex := order.resolve_right fun none => none held holds
      have different : p ≠ q := by
        rintro rfl
        cases wants.symm.trans waits
        exact new holds
      simp [rank, wants, waits, mutex, Ne.symm different]
    | fs => simpa [rank, waits] using Nat.lt_succ_of_le low
    | io => simpa [rank, waits] using low.trans_lt (by decide : 2 < 4)
  | fs =>
    cases wanted with
    | mutex => exact absurd holds (may _)
    | inode ino => exact absurd holds (below ino rfl)
    | fs => exact absurd holds may.1
    | io => simp [rank, wants, waits]
  | io =>
    cases wanted with
    | mutex => exact absurd holds (may _)
    | inode => exact absurd holds may.1
    | fs => exact absurd holds may.2
    | io => exact absurd holds may

theorem no_deadlock (clear : Clear s) : ¬ Deadlock s := by
  rintro ⟨p, cycle⟩
  have climbs : ∀ {q}, Relation.TransGen (Waits s) p q → (∃ r, Waits s q r) → rank s p < rank s q := by
    intro q chain
    induction chain with
    | single first => exact fun ⟨r, second⟩ => rank_lt inv clear first second
    | tail _ last ih => exact fun ⟨r, second⟩ => Nat.lt_trans (ih ⟨_, last⟩) (rank_lt inv clear last second)
  obtain ⟨r, first, _⟩ := Relation.TransGen.head'_iff.mp cycle
  exact lt_irrefl _ (climbs cycle ⟨r, first⟩)

end

/-- As long as write-back under `fs_sem` finds the inodes free, and no directory is unlinked from
itself, no processes wait for each other in a cycle. -/
theorem no_cycle_when_write_back_finds_inodes_free (s : (machine.restrict Condition).Reached) : ¬ Deadlock s := by
  refine Machine.always_of_invariant (show ∀ s, _ → Inv s ∧ Clear s from ?_) ?_
    (fun s both => no_deadlock both.1 both.2) s s.2
  · rintro s rfl
    exact ⟨fun p sem held => (by cases held), fun p ino held => by cases held⟩
  rintro s op after _ ⟨inv, clear⟩ ⟨allowed, condition⟩ executed
  cases executed
  cases op with
  | call p c path => exact ⟨inv.call allowed.1 condition allowed.2, inv.clear_call allowed.1 clear⟩
  | go p => exact ⟨inv.go allowed, clear_go clear condition⟩

/-- A process has found the entry of a directory that is to be written back, and another one runs
`sfs_sync`. -/
theorem sync_waits_for_create : ∃ s, machine.Reachable s ∧ Deadlock s := by
  obtain ⟨s, reachable, first, second⟩ : ∃ s, machine.Reachable s ∧ (s.wants 0 = some .fs ∧ s.holder .fs = some 1) ∧
      s.wants 1 = some (.inode 2) ∧ s.holder (.inode 2) = some 0 :=
        Machine.exists_of_replay rfl [.call 0 (.create 2 3) [.down (.inode 2), .down .fs, .up .fs,
        .up (.inode 2)], .go 0,
      .call 1 (.sync [2]) [.down .fs, .down (.inode 2), .up (.inode 2), .up .fs], .go 1] (by decide)
  exact ⟨s, reachable, 0, .tail (.single ⟨_, first⟩) ⟨_, second⟩⟩

end Ucore.SfsLocks
