import Ucore.Mount

/-! Who can use a device after it was unmounted. Unmounting leaves the inodes of an instance
and its memory as they are: with inodes in memory the instance can still be used when the
device is mounted again, and its memory is never released. -/

namespace Ucore.Mount
open Lib Function

/-- `vfs_unmount` is called only while no inode of the mounted instance is in memory. -/
def Idle (s : State) : Op → Prop
  | .unmount _ => ∀ k ∈ s.fs, s.inodeList k = []
  | _ => True

variable {s after : State} {k : Nat} {op : Op} {ret : Int}

/-- What syncing an instance leaves alone. -/
structure Kept (s after : State) : Prop where
  fs : after.fs = s.fs
  inodeList : after.inodeList = s.inodeList
  resources : after.resources = s.resources
  count : after.count = s.count

private theorem Kept.refl (s : State) : Kept s s := ⟨rfl, rfl, rfl, rfl⟩

private theorem Kept.trans {between : State} (first : Kept s between) (second : Kept between after) : Kept s after :=
  ⟨second.fs.trans first.fs, second.inodeList.trans first.inodeList, second.resources.trans first.resources,
    second.count.trans first.count⟩

private theorem kept_sfsSync (s : State) (k : Nat) (answer : Int) : Kept s (sfsSync s k answer).1 := by
  rw [sfsSync]
  split
  · exact ⟨rfl, rfl, rfl, rfl⟩
  · exact .refl s

private theorem kept_sfsUnmount (k : Nat) (answer : Nat → Int) (tries : Nat) (s : State) :
    Kept s (sfsUnmount k answer tries s).1 := by
  induction tries generalizing s with
  | zero => exact kept_sfsSync ..
  | succ tries ih =>
    rw [sfsUnmount]
    dsimp only
    split
    · exact kept_sfsSync ..
    · exact (kept_sfsSync ..).trans (ih _)

/-- Unmounting fails and changes no instance, or it only forgets what was mounted. -/
theorem vfsUnmount_cases (s : State) (answer : Nat → Int) :
    ((vfsUnmount s answer).2 ≠ 0 ∧ Kept s (vfsUnmount s answer).1) ∨
      ((vfsUnmount s answer).2 = 0 ∧ Kept { s with fs := none } (vfsUnmount s answer).1) := by
  rw [vfsUnmount]
  split
  · exact .inl ⟨show -eInval ≠ 0 by decide, .refl s⟩
  · next k _ =>
    have synced := kept_sfsSync s k (answer 32)
    have unmounted := synced.trans (kept_sfsUnmount k answer 31 (sfsSync s k (answer 32)).1)
    dsimp only
    split
    · next failed => exact .inl ⟨failed, synced⟩
    · split
      · exact .inr ⟨rfl, rfl, unmounted.inodeList, unmounted.resources, unmounted.count⟩
      · next failed => exact .inl ⟨failed, unmounted⟩

/-- Instances that are not mounted keep their memory. -/
structure Leaks (s : State) : Prop where
  numbered : ∀ k ∈ s.fs, k < s.count
  mounted : s.down = false → ∀ k < s.count, s.resources k = .held
  unmounted : ∀ k < s.count, s.fs ≠ some k → s.resources k = .held

private theorem Leaks.vfsMount (leaks : Leaks s) (up : s.down = false) (mounted : Int) :
    Leaks (vfsMount s mounted).1 := by
  rw [Mount.vfsMount]
  split
  · exact leaks
  split
  · have held : ∀ k < s.count + 1, update s.resources s.count .held k = .held := by
      intro k below
      obtain rfl | different := eq_or_ne k s.count
      · exact update_self ..
      · rw [update_of_ne different]
        exact leaks.mounted up k (by omega)
    refine ⟨?_, fun _ => held, fun k below _ => held k below⟩
    intro k same
    cases same
    exact Nat.lt_succ_self s.count
  · exact leaks

private theorem Leaks.vfsUnmount (leaks : Leaks s) (up : s.down = false) (answer : Nat → Int) :
    Leaks (vfsUnmount s answer).1 := by
  rcases vfsUnmount_cases s answer with ⟨_, kept⟩ | ⟨_, kept⟩
  · refine ⟨?_, fun _ => ?_, ?_⟩
    all_goals simp only [kept.fs, kept.count, kept.resources]
    · exact leaks.numbered
    · exact leaks.mounted up
    · exact leaks.unmounted
  · refine ⟨?_, fun _ => ?_, ?_⟩
    all_goals simp only [kept.fs, kept.count, kept.resources]
    · exact nofun
    · exact leaks.mounted up
    · exact fun k below _ => leaks.mounted up k below

private theorem Leaks.vfsCleanup (leaks : Leaks s) (ran : vfsCleanup s = .ok after) : Leaks after := by
  rw [Mount.vfsCleanup] at ran
  split at ran
  · cases ran
    exact ⟨leaks.numbered, nofun, leaks.unmounted⟩
  · next k mounted =>
    obtain ⟨⟨between, ret⟩, cleaned, ran⟩ := exists_of_bind ran
    cases ran
    rw [sfsCleanup] at cleaned
    split at cleaned
    · cases cleaned
      exact ⟨leaks.numbered, nofun, leaks.unmounted⟩
    · rw [ensure_bind] at cleaned
      split at cleaned
      · cases cleaned
        refine ⟨leaks.numbered, nofun, fun j below other => ?_⟩
        have different : j ≠ k := fun same => other (same ▸ mounted)
        exact (update_of_ne different ..).trans (leaks.unmounted j below other)
      · cases cleaned

theorem Leaks.step (leaks : Leaks s) (allowed : machine.allowed s op)
    (ran : step s op = .ok (after, ret)) : Leaks after := by
  cases op with
  | mount mounted =>
    obtain rfl : (Mount.vfsMount s mounted).1 = after := congrArg Prod.fst (Except.ok.inj ran)
    exact leaks.vfsMount allowed.1 mounted
  | unmount answer =>
    obtain rfl : (Mount.vfsUnmount s answer).1 = after := congrArg Prod.fst (Except.ok.inj ran)
    exact leaks.vfsUnmount allowed.1 answer
  | load | reclaim | dirty =>
    cases ran
    exact { leaks with }
  | cleanup =>
    obtain ⟨between, cleaned, ran⟩ := exists_of_bind ran
    cases ran
    exact leaks.vfsCleanup cleaned

/-- Only what is mounted has inodes in memory. -/
def Inv (s : State) : Prop := ∀ k, s.inodeList k ≠ [] → s.fs = some k

private theorem Inv.mounted (inv : Inv s) (uses : Uses s k) : s.fs = some k := uses.elim id (inv k)

private theorem Inv.setList (inv : Inv s) (uses : Uses s k) (list : List Nat) :
    Inv { s with inodeList := update s.inodeList k list } := by
  intro j some
  obtain rfl | different := eq_or_ne j k
  · exact inv.mounted uses
  · refine inv j ?_
    rwa [← update_of_ne different list s.inodeList]

theorem Inv.step (inv : Inv s) (allowed : machine.allowed s op) (idle : Idle s op)
    (ran : step s op = .ok (after, ret)) : Inv after := by
  cases op with
  | mount mounted =>
    obtain rfl : (Mount.vfsMount s mounted).1 = after := congrArg Prod.fst (Except.ok.inj ran)
    rw [vfsMount]
    split
    · exact inv
    · next empty =>
      split
      · intro j some
        obtain rfl | different := eq_or_ne j s.count
        · exact absurd (update_self ..) some
        · refine absurd (inv j ?_) (by simp [not_not.mp empty])
          rwa [← update_of_ne different [] s.inodeList]
      · exact inv
  | unmount answer =>
    obtain rfl : (Mount.vfsUnmount s answer).1 = after := congrArg Prod.fst (Except.ok.inj ran)
    intro j some
    rcases vfsUnmount_cases s answer with ⟨_, kept⟩ | ⟨_, kept⟩
    all_goals
      rw [kept.inodeList] at some
      exact absurd (idle j (inv j some)) some
  | load k ino | reclaim k ino =>
    cases ran
    exact inv.setList allowed.2 _
  | dirty k =>
    cases ran
    exact inv
  | cleanup =>
    obtain ⟨between, cleaned, ran⟩ := exists_of_bind ran
    cases ran
    rw [vfsCleanup] at cleaned
    split at cleaned
    · cases cleaned
      exact inv
    · obtain ⟨⟨middle, ret⟩, released, cleaned⟩ := exists_of_bind cleaned
      cases cleaned
      rw [sfsCleanup] at released
      split at released
      · cases released
        exact inv
      · rw [ensure_bind] at released
        split at released <;> cases released
        exact inv

/-- No instance that was unmounted has ever released anything, and an unmount that fails leaves
the file system mounted with its inodes. At most one instance uses the device as long as it is
unmounted only without inodes in memory. -/
theorem unmounting_releases_nothing (answer : Nat → Int) :
    (machine.Always fun s => (∀ k < s.count, s.fs ≠ some k → s.resources k = .held) ∧
      ((vfsUnmount s answer).2 ≠ 0 →
        (vfsUnmount s answer).1.fs = s.fs ∧ (vfsUnmount s answer).1.inodeList = s.inodeList)) ∧
    (machine.restrict Idle).Always fun s => ∀ j k, Uses s j → Uses s k → j = k := by
  constructor
  · refine Machine.always_of_invariant (show ∀ s, _ → Leaks s from ?_)
      (fun _ _ _ _ leaks allowed ran => leaks.step allowed ran) fun s leaks => ⟨leaks.unmounted, ?_⟩
    · rintro _ rfl
      exact ⟨nofun, fun _ _ never => absurd never (Nat.not_lt_zero _), fun _ never => absurd never (Nat.not_lt_zero _)⟩
    · intro failed
      rcases vfsUnmount_cases s answer with ⟨_, kept⟩ | ⟨done, _⟩
      · exact ⟨kept.fs, kept.inodeList⟩
      · exact absurd done failed
  · refine Machine.always_of_invariant (show ∀ s, _ → Inv s from ?_)
      (fun _ _ _ _ inv allowed ran => inv.step allowed.1 allowed.2 ran) ?_
    · rintro _ rfl k some
      exact absurd rfl some
    · exact fun s inv j k first second => Option.some.inj ((inv.mounted first).symm.trans (inv.mounted second))

/-- The root is in memory when the device is unmounted; it is mounted again, and both instances
use it. Nothing of the first one has been released. -/
theorem unmounted_with_inodes : ∃ s, machine.Reachable s ∧ Uses s 0 ∧ Uses s 1 ∧ s.resources 0 = .held := by
  have start : machine.Run [] _ := .start rfl
  have mounted := start.next (.mount 0) ⟨rfl, trivial⟩ rfl
  have loaded := mounted.next (.load 0 1) ⟨rfl, .inl rfl⟩ rfl
  have unmounted := loaded.next (.unmount fun _ => 0) ⟨rfl, trivial⟩ rfl
  exact ⟨_, ⟨_, unmounted.next (.mount 0) ⟨rfl, trivial⟩ rfl⟩, .inr (by decide), .inl rfl, rfl⟩

end Ucore.Mount
