import Ucore.Frames

/-! Who a frame belongs to, and what the reference counts and the allocator say about
it. Every place that can map a frame maps at most one; the frames of user memory are
free exactly when no place maps them, unless a caller has them. -/

namespace Ucore.Frames
open Lib Vmm Pmm Function

inductive Owner where
  /-- Free or mapped. -/
  | pool
  /-- Taken from the allocator and mapped nowhere. -/
  | caller
  | dir
  | shmn (o start : Nat)
deriving DecidableEq

/-- What the owner of a frame says about its reference count, whether it is free, whether it
is a page for a device, and the number of its mappings. -/
def Account (owner : Owner) (ref : Int) (free io : Bool) (mappings : Nat) : Prop :=
  match owner with
  | .pool => ref = mappings ∧ (free = true ↔ mappings = 0) ∧ io = false
  | .caller => ref = 0 ∧ free = false ∧ mappings = 0
  | .dir | .shmn _ _ => free = false ∧ mappings = 0 ∧ io = false

universe u
variable {κ : Type u} {holds : κ → Option Frame} {place : κ} {own : Frame → Owner} {m after : Memory} {f g : Frame}

structure Accounts (holds : κ → Option Frame) (own : Frame → Owner) (m : Memory) : Prop where
  finite : ∀ f, (places holds f).Finite
  frame : ∀ f, Account (own f) (m.ref f) (m.free f) (m.io f) (tally holds f)
  swap : m.swap.enabled = false ∧ m.swap.pages = []

/-- The last reference takes the frame with it. -/
def release (m : Memory) (f : Frame) : Kernel Memory :=
  if (m.refAdd f (-1)).ref f = 0 then (m.refAdd f (-1)).freePage f else pure (m.refAdd f (-1))

namespace Accounts

section
variable (accounts : Accounts holds own m) {ref : Int} {owner : Owner}
include accounts

theorem congr (ref : after.ref = m.ref) (free : after.free = m.free) (io : after.io = m.io)
    (swap : after.swap = m.swap) : Accounts holds own after := by
  refine ⟨accounts.finite, ?_, swap ▸ accounts.swap⟩
  rw [ref, free, io]
  exact accounts.frame

theorem change {others : κ → Option Frame} {free : Bool} (refs : after.ref = update m.ref f ref)
    (frees : after.free = update m.free f free) (ios : after.io = m.io)
    (swaps : after.swap = m.swap) (finite : ∀ g, (places others g).Finite)
    (apart : ∀ g, g ≠ f → tally others g = tally holds g)
      (here : Account owner ref free (m.io f) (tally others f)) :
      Accounts others (update own f owner) after := by
  refine ⟨finite, ?_, swaps ▸ accounts.swap⟩
  intro g
  rw [refs, frees, ios]
  obtain rfl | same := eq_or_ne g f
  · rwa [update_self, update_self, update_self]
  · rw [update_of_ne same, update_of_ne same, update_of_ne same, apart g same]
    exact accounts.frame g

theorem foreign (owner : own f ≠ .pool) : m.free f = false ∧ tally holds f = 0 := by
  have account := accounts.frame f
  cases held : own f with
  | pool => exact absurd held owner
  | caller => simp only [Account, held] at account; exact account.2
  | dir | shmn => simp only [Account, held] at account; exact ⟨account.1, account.2.1⟩

theorem pool_of_free (free : m.free f = true) : own f = .pool :=
  by_contra fun other => by simp [(accounts.foreign other).1] at free

theorem pool_of_mapped (some : tally holds f ≠ 0) : own f = .pool :=
  by_contra fun other => some (accounts.foreign other).2

theorem pool (owner : own f = .pool) : m.ref f = tally holds f ∧ (m.free f = true ↔ tally holds f = 0) ∧ m.io f = false := by
  have account := accounts.frame f
  rwa [owner] at account

theorem caller (owner : own f = .caller) : m.ref f = 0 ∧ m.free f = false ∧ tally holds f = 0 := by
  have account := accounts.frame f
  rwa [owner] at account

theorem mapped_of_holds (held : holds place = some f) : tally holds f ≠ 0 := Nat.ne_of_gt (tally_pos (accounts.finite f) held)

theorem not_free_of_mapped (some : tally holds f ≠ 0) : m.free f = false := by
  rwa [← Bool.not_eq_true, (accounts.pool (accounts.pool_of_mapped some)).2.1]

theorem allocPage : (∃ after, m.allocPage = (after, none) ∧ after.io = m.io ∧ after.free = m.free ∧
    Accounts holds own after) ∨ ∃ after f, m.allocPage = (after, some f) ∧ m.free f = true ∧
    m.io f = false ∧ after.io = m.io ∧
      after.free = update m.free f false ∧ Accounts holds (update own f .caller) after := by
  rcases allocPage_cases m with ⟨rest, ran⟩ | ⟨rest, f, free, _, ran⟩
  · exact .inl ⟨_, ran, rfl, rfl, accounts.congr rfl rfl rfl rfl⟩
  obtain ⟨counted, freed, plain⟩ := accounts.pool (accounts.pool_of_free free)
  have none := freed.mp free
  refine .inr ⟨_, f, ran, free, plain, rfl, rfl, ?_⟩
  refine accounts.change ((update_eq_self _ _).symm) rfl rfl rfl accounts.finite (fun _ _ => rfl) ⟨?_, rfl, none⟩
  rw [counted, none]
  rfl

theorem freePage (owner : own f ≠ .pool) (plain : m.io f = false) : ∃ after,
    m.freePage f = .ok after ∧ after.io = m.io ∧ after.free = update m.free f true ∧
    Accounts holds (update own f .pool) after := by
  obtain ⟨taken, none⟩ := accounts.foreign owner
  refine ⟨{ m with free := update m.free f true, ref := update m.ref f 0 }, ?_, rfl, rfl, ?_⟩
  · rw [Memory.freePage, ensure_bind, if_pos taken]
    rfl
  refine accounts.change rfl rfl rfl rfl accounts.finite (fun _ _ => rfl) ⟨?_, ?_, plain⟩
  · rw [none]
    rfl
  · simp [none]

theorem table (held : own f = .caller) (plain : m.io f = false) (table : owner = .dir ∨ ∃ o start,
    owner = .shmn o start) : Accounts holds (update own f owner) (m.setRef f ref) := by
  obtain ⟨_, taken, none⟩ := accounts.caller held
  refine accounts.change rfl (update_eq_self f m.free).symm rfl rfl accounts.finite (fun _ _ => rfl) ?_
  rcases table with rfl | ⟨o, start, rfl⟩
  all_goals exact ⟨taken, none, plain⟩

end

variable [DecidableEq κ]

section
variable (accounts : Accounts holds own m)
include accounts

theorem finite_after (place : κ) (new : Option Frame) (f : Frame) :
    (places (update holds place new) f).Finite := finite_update (accounts.finite f)

theorem put (empty : holds place = none) (owner : own f = .caller ∨ own f = .pool)
    (taken : m.free f = false) (plain : m.io f = false) : Accounts (update holds place (some f))
    (update own f .pool) (m.refAdd f 1) := by
  have more : tally (update holds place (some f)) f = tally holds f + 1 := tally_gain (accounts.finite f) (by simp [empty])
  refine accounts.change rfl (update_eq_self f m.free).symm rfl rfl (accounts.finite_after place _) ?_ ⟨?_, ?_, plain⟩
  · intro g other
    exact tally_same (by simp [empty]) (by simpa using other.symm)
  · rw [more]
    rcases owner with held | pool
    · obtain ⟨zero, _, none⟩ := accounts.caller held
      rw [zero, none]
      rfl
    · rw [(accounts.pool pool).1]
      rfl
  · rw [taken, more]
    simp

theorem release_ok (held : holds place = some f) : ∃ after, release m f = .ok after ∧
    after.io = m.io ∧ (∀ g, g ≠ f → after.free g = m.free g ∧ after.ref g = m.ref g) ∧
    Accounts (update holds place none) own after := by
  have mapped := accounts.mapped_of_holds held
  have owner := accounts.pool_of_mapped mapped
  have taken := accounts.not_free_of_mapped mapped
  obtain ⟨counted, freed, plain⟩ := accounts.pool owner
  have fewer : tally (update holds place none) f + 1 = tally holds f := tally_lose (accounts.finite f) held (by simp)
  have apart : ∀ g, g ≠ f → tally (update holds place none) g = tally holds g := by
    intro g other
    refine tally_same ?_ (by simp)
    rw [held]
    simpa using other.symm
  have count : (m.refAdd f (-1)).ref f = tally (update holds place none) f := by
    rw [Memory.refAdd, Memory.setRef]
    simp only [update_self]
    omega
  have same : update own f .pool = own := by rw [← owner, update_eq_self]
  rw [release]
  by_cases last : tally (update holds place none) f = 0
  · rw [if_pos (by rw [count, last]; rfl)]
    refine ⟨{ m with free := update m.free f true, ref := update m.ref f 0 }, ?_, rfl, ?_, ?_⟩
    · rw [Memory.freePage]
      simp [Memory.refAdd, Memory.setRef, taken]
      rfl
    · intro g other
      exact ⟨update_of_ne other .., update_of_ne other ..⟩
    · rw [← same]
      refine accounts.change rfl rfl rfl rfl (accounts.finite_after place _) apart ⟨?_, ?_, plain⟩
      · rw [last]
        rfl
      · simp [last]
  · have some : (m.refAdd f (-1)).ref f ≠ 0 := by
      rw [count]
      exact_mod_cast last
    rw [if_neg some]
    refine ⟨_, rfl, rfl, ?_, ?_⟩
    · intro g other
      exact ⟨rfl, update_of_ne other ..⟩
    rw [← same]
    refine accounts.change rfl (update_eq_self f m.free).symm rfl rfl (accounts.finite_after place _) apart ⟨?_, ?_, plain⟩
    · rw [← count]
      simp [Memory.refAdd, Memory.setRef]
    · rw [taken]
      simp [last]

end

end Accounts

theorem dropRef_eq (plain : m.io f = false) : dropRef m f = release m f := by
  have same : (m.refAdd f (-1)).io f = false := plain
  simp only [dropRef, release, same, and_true]

theorem ref_refAdd_other (different : g ≠ f) (amount : Int) : (m.refAdd f amount).ref g = m.ref g := update_of_ne different ..

theorem release_refAdd (different : g ≠ f) (ran : release m g = .ok after) :
    release (m.refAdd f 1) g = .ok (after.refAdd f 1) := by
  have swapped : (m.refAdd f 1).refAdd g (-1) = (m.refAdd g (-1)).refAdd f 1 := by
    simp only [Memory.refAdd, Memory.setRef, update_of_ne different, update_of_ne different.symm]
    rw [update_comm different]
  rw [release] at ran ⊢
  rw [swapped, ref_refAdd_other different]
  split at ran
  · next last =>
    rw [if_pos last]
    simp only [Memory.freePage, ensure_bind] at ran ⊢
    split at ran
    · next taken =>
      rw [if_pos (show ((m.refAdd g (-1)).refAdd f 1).free g = false from taken)]
      cases ran
      refine congrArg Except.ok ?_
      simp only [Memory.refAdd, Memory.setRef, update_of_ne different.symm, update_idem]
      rw [update_comm different, update_idem, update_comm different]
    · cases ran
  · next more =>
    rw [if_neg more]
    cases ran
    rfl

theorem dropEntry_eq (m : Memory) (pte : Pte) : dropEntry m pte = shmemRemoveEntryPte m pte := by
  rw [dropEntry]
  split
  · rfl
  · next zero =>
    rw [not_not.mp zero, shmemRemoveEntryPte]
    rfl

namespace Accounts

theorem not_pageSwap (accounts : Accounts holds own m) (f : Frame) : ¬ m.PageSwap f := by
  rw [Memory.PageSwap, accounts.swap.2]
  exact List.not_mem_nil

variable [DecidableEq κ] {pte : Pte}

section
variable (accounts : Accounts holds own m) (held : holds place = frameOf pte)
include accounts held

theorem pageRemovePte_ok : ∃ after, pageRemovePte m pte = .ok after ∧ after.io = m.io ∧
    Accounts (update holds place none) own after := by
  rw [pageRemovePte]
  by_cases present : Present pte
  · rw [frameOf_present present] at held
    have plain := (accounts.pool (accounts.pool_of_mapped (accounts.mapped_of_holds held))).2.2
    obtain ⟨after, ran, io, _, kept⟩ := accounts.release_ok held
    refine ⟨after, ?_, io, kept⟩
    simp only [if_pos present, if_pos (accounts.not_pageSwap _), dropRef_eq plain, ran]
  · rw [frameOf_absent present] at held
    refine ⟨m, ?_, rfl, ?_⟩
    · simp only [if_neg present, accounts.swap.1, Bool.false_eq_true, and_false, if_false]
      rfl
    · rwa [← held, update_eq_self]

theorem shmemRemoveEntryPte_ok (clean : pte = 0 ∨ Present pte) : ∃ after, shmemRemoveEntryPte m pte =
    .ok after ∧ after.io = m.io ∧ (∀ g, frameOf pte ≠ some g → after.free g = m.free g) ∧
    Accounts (update holds place none) own after := by
  rw [shmemRemoveEntryPte]
  by_cases present : Present pte
  · rw [frameOf_present present] at held ⊢
    obtain ⟨after, ran, io, spared, kept⟩ := accounts.release_ok held
    refine ⟨after, ?_, io, ?_, kept⟩
    · simp only [if_pos present, if_pos (accounts.not_pageSwap _)]
      exact ran
    · intro g other
      exact (spared g fun same => other (by rw [same])).1
  · rw [frameOf_absent present] at held
    have zero := clean.resolve_right present
    refine ⟨m, ?_, rfl, fun _ _ => rfl, ?_⟩
    · rw [zero]
      rfl
    · rwa [← held, update_eq_self]

theorem displace_ok (owner : own f = .caller ∨ own f = .pool) (taken : m.free f = false) (plain : m.io f = false) :
    ∃ after, displace m f pte = .ok after ∧ after.io = m.io ∧ Accounts (update holds place (some f))
      (update own f .pool) after := by
  by_cases present : Present pte
  · rw [frameOf_present present] at held
    have pool := accounts.pool_of_mapped (accounts.mapped_of_holds held)
    by_cases same : pte2page pte = f
    · rw [same] at held pool
      refine ⟨(m.refAdd f 1).refAdd f (-1), ?_, rfl, ?_⟩
      · simp only [displace, if_pos present.ne_zero, if_pos (And.intro present same)]
        rfl
      · rw [← held, ← pool, update_eq_self, update_eq_self]
        refine accounts.congr ?_ rfl rfl rfl
        simp [Memory.refAdd, Memory.setRef]
    · obtain ⟨between, ran, io, spared, kept⟩ := accounts.release_ok held
      have other : f ≠ pte2page pte := fun equal => same equal.symm
      have still : (m.refAdd f 1).io (pte2page pte) = false := (accounts.pool pool).2.2
      refine ⟨between.refAdd f 1, ?_, io, ?_⟩
      · simp only [displace, if_pos present.ne_zero,
          if_neg (fun both : Present pte ∧ pte2page pte = f => same both.2), pageRemovePte,
          if_pos present]
        rw [if_pos (show ¬ (m.refAdd f 1).PageSwap (pte2page pte) from accounts.not_pageSwap _), dropRef_eq still]
        exact release_refAdd same ran
      · have put := kept.put (update_self ..) owner (by rw [(spared f other).1, taken]) (by rw [io, plain])
        rwa [update_idem] at put
  · rw [frameOf_absent present] at held
    refine ⟨m.refAdd f 1, ?_, rfl, accounts.put held owner taken plain⟩
    simp only [displace, if_neg (fun both : Present pte ∧ pte2page pte = f => present both.1),
      pageRemovePte, if_neg present]
    have off : (m.refAdd f 1).swap.enabled = false := accounts.swap.1
    simp only [off, Bool.false_eq_true, and_false, if_false, ite_self]
    rfl

end

end Accounts

end Ucore.Frames
