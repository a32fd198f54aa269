import Ucore.Proofs.BuddyTiling

/-! The allocator's calls over the tiling. Every call gives back or takes out exactly
the pages it is asked for, and none of its assertions can fail. -/

namespace Ucore.BuddyPmm
open Lib Lib.BuddyBlocks Function

variable {size : Nat} {pmm : Pmm} {base n order : Nat}

/-- The pages of a range lie in the zone and are not free. -/
def Taken (size : Nat) (pmm : Pmm) (span : Span) : Prop := span.stop ≤ size ∧ ∀ i, span.Covers i → ¬ Free pmm i

structure Freed (size : Nat) (pmm after : Pmm) (span : Span) : Prop where
  tiled : Tiled size after
  free : ∀ i, Free after i ↔ Free pmm i ∨ span.Covers i

theorem releasePages_spec (tiled : Tiled size pmm) (count p : Nat)
    (taken : Taken size pmm ⟨p, p + count⟩) : releasePages count p pmm = .ok pmm := by
  induction count generalizing p with
  | zero => rfl
  | succ count ih =>
    obtain ⟨inside, apart⟩ := taken
    dsimp only at inside
    have own : p < size := by omega
    obtain ⟨zoneNum, zone⟩ := tiled.zone
    have open_ := (zone p own).1
    have plain := tiled.not_head own (apart p ⟨le_rfl, by dsimp only; omega⟩)
    have same : pmm.setPage p { pmm.pages p with reserved := false, head := false } = pmm := by
      have page : ({ pmm.pages p with reserved := false, head := false } : Page) = pmm.pages p := by
        generalize pmm.pages p = page at open_ plain
        obtain ⟨reserved, head, property, zoneNum⟩ := page
        dsimp only at open_ plain
        rw [open_, plain]
      rw [page, Pmm.setPage, update_eq_self]
    rw [releasePages, ensure_bind, if_pos ⟨open_, plain⟩, same]
    apply ih
    refine ⟨by dsimp only; omega, ?_⟩
    intro i covered
    apply apart
    simp only [Span.Covers] at covered ⊢
    omega

theorem coalesce_spec (fuel : Nat) {zoneNum idx : Nat} (tiled : Tiled size pmm) (zone : ∀ i < size,
    (pmm.pages i).reserved = false ∧ (pmm.pages i).zoneNum = zoneNum)
    (small : order ≤ maxOrder) (aligned : Aligned idx order)
      (taken : Taken size pmm (block idx order)) (enough : maxOrder < order + fuel) :
    ∃ after final last, coalesce zoneNum fuel pmm idx order = .ok (after, final, last) ∧ Tiled size after ∧
      last ≤ maxOrder ∧ Aligned final last ∧ Taken size after (block final last) ∧
        (last < maxOrder → buddy final last ∉ after.freeList last) ∧
      ∀ i, (Free after i ∨ (block final last).Covers i) ↔ Free pmm i ∨ (block idx order).Covers i := by
  induction fuel generalizing pmm idx order with
  | zero => omega
  | succ fuel ih =>
    rw [coalesce]
    split
    · next less =>
      by_cases found : PageIsBuddy pmm (idx ^^^ 2 ^ order) order zoneNum
      · have member : buddy idx order ∈ pmm.freeList order := (tiled.pageIsBuddy zone).mp found
        have shrunk := tiled.take member
        have fields := zone_update pmm.pages (buddy idx order) { pmm.pages (buddy idx order) with head := false } rfl rfl
        have parts := fun i => covers_parent (i := i) aligned
        have inner : Taken size (pmm.takeBlock (buddy idx order) order) (block (parent idx order) (order + 1)) := by
          constructor
          · have own := taken.1
            have other := tiled.inside order _ member
            rcases halves aligned with ⟨_, upper, whole⟩ | ⟨_, upper, whole⟩
            all_goals
              simp only [block, pow_succ] at own ⊢
              omega
          · intro i covered still
            obtain ⟨before, outside⟩ := (free_takeBlock tiled member).mp still
            rcases (parts i).mp covered with here | there
            · exact taken.2 i here before
            · exact outside there
        obtain ⟨after, final, last, ran, tiledAfter, smallLast, alignedLast, takenLast, alone, pages⟩ :=
          ih shrunk (fun i inside =>
            by rw [pages_takeBlock, (fields i).1, (fields i).2]; exact zone i inside) less (aligned_parent aligned) inner (by omega)
        refine ⟨after, final, last, ?_, tiledAfter, smallLast, alignedLast, takenLast, alone, ?_⟩
        · rwa [if_neg (not_not_intro found)]
        intro i
        rw [pages i, free_takeBlock tiled member, parts i]
        have whole : (block (buddy idx order) order).Covers i → Free pmm i := fun there => ⟨order, _, member, there⟩
        tauto
      · rw [if_pos found]
        refine ⟨pmm, idx, order, rfl, tiled, small, aligned, taken, ?_, fun i => Iff.rfl⟩
        exact fun _ member => found ((tiled.pageIsBuddy zone).mpr member)
    · next less => exact ⟨pmm, idx, order, rfl, tiled, small, aligned, taken, less.elim, fun i => Iff.rfl⟩

theorem freePagesSub_spec (tiled : Tiled size pmm) (small : order ≤ maxOrder)
    (aligned : Aligned base order) (taken : Taken size pmm (block base order)) :
    ∃ after, freePagesSub pmm base order = .ok after ∧ Freed size pmm after (block base order) := by
  have masked := (Nat.and_two_pow_sub_one_eq_mod base order).trans aligned
  have own := Nat.lt_of_lt_of_le (Nat.lt_add_of_pos_right (Nat.two_pow_pos order)) taken.1
  obtain ⟨zoneNum, zone⟩ := tiled.zone
  obtain ⟨after, final, last, ran, tiledAfter, smallLast, alignedLast, takenLast, alone, pages⟩ :=
    coalesce_spec (maxOrder + 1) tiled zone small aligned taken (by omega)
  refine ⟨after.addBlock final last, ?_, tiledAfter.add smallLast alignedLast takenLast.1 takenLast.2 alone, ?_⟩
  · rw [freePagesSub, ensure_bind, if_pos masked, releasePages_spec tiled _ _ taken]
    simp only [bind, Except.bind, (zone base own).2, ran]
    rfl
  · intro i
    rw [free_addBlock]
    exact pages i

theorem Taken.part {first last start stop : Nat} (taken : Taken size pmm ⟨start, stop⟩)
    (lower : start ≤ first) (upper : last ≤ stop) : Taken size pmm ⟨first, last⟩ :=
    ⟨upper.trans taken.1, fun i covered =>
    taken.2 i ⟨lower.trans covered.1, covered.2.trans_le upper⟩⟩

theorem Taken.after {after : Pmm} {start middle stop : Nat} (taken : Taken size pmm ⟨start, stop⟩)
    (order : start ≤ middle) (freed : Freed size pmm after ⟨start, middle⟩) :
    Taken size after ⟨middle, stop⟩ := by
  refine ⟨taken.1, ?_⟩
  intro i covered still
  rcases (freed.free i).mp still with before | inside
  · exact taken.2 i ⟨order.trans covered.1, covered.2⟩ before
  · exact lt_irrefl i (inside.2.trans_le covered.1)

theorem Freed.refl (tiled : Tiled size pmm) (start : Nat) : Freed size pmm pmm ⟨start, start⟩ := by
  refine ⟨tiled, fun i => ⟨.inl, ?_⟩⟩
  intro either
  rcases either with before | empty
  · exact before
  · exact absurd (empty.1.trans_lt empty.2) (lt_irrefl _)

theorem Freed.trans {middle after : Pmm} {start cut stop : Nat}
    (first : Freed size pmm middle ⟨start, cut⟩) (second : Freed size middle after ⟨cut, stop⟩)
    (lower : start ≤ cut) (upper : cut ≤ stop) : Freed size pmm after ⟨start, stop⟩ := by
  refine ⟨second.tiled, ?_⟩
  intro i
  rw [second.free, first.free, or_assoc]
  have split : Span.Covers ⟨start, cut⟩ i ∨ Span.Covers ⟨cut, stop⟩ i ↔ Span.Covers ⟨start, stop⟩ i := by
    simp only [Span.Covers]
    omega
  rw [split]

theorem order_le_of_pow_le (fits : 2 ^ order ≤ n) (small : n ≤ 2 ^ maxOrder) : order ≤ maxOrder :=
  (Nat.pow_le_pow_iff_right (Nat.lt_succ_self 1)).mp (Nat.le_trans fits small)

theorem freeOdd_spec (tiled : Tiled size pmm) (small : order ≤ maxOrder)
    (aligned : Aligned base order) (fits : 2 ^ order ≤ n)
    (taken : Taken size pmm ⟨base, base + n⟩) :
    ∃ after next left, freeOdd pmm base n order = .ok (after, next, left) ∧ Freed size pmm after
      ⟨base, next⟩ ∧ base ≤ next ∧ next + left = base + n ∧ Aligned next (order + 1) := by
  have bit : base % 2 ^ (order + 1) = 2 ^ order * (base / 2 ^ order % 2) := by
    rw [Nat.mod_pow_succ, show base % 2 ^ order = 0 from aligned, zero_add]
  rw [freeOdd, Nat.and_two_pow, Nat.testBit_eq_decide_div_mod_eq]
  by_cases odd : base / 2 ^ order % 2 = 1
  · obtain ⟨after, ran, freed⟩ := freePagesSub_spec tiled small aligned (taken.part le_rfl (by omega))
    refine ⟨after, base + 2 ^ order, n - 2 ^ order, ?_, freed, by omega, by omega, ?_⟩
    · rw [if_pos (by simp [odd]), ran]
      rfl
    · rw [odd, mul_one] at bit
      rw [Aligned, Nat.add_mod, bit, Nat.mod_eq_of_lt (Nat.pow_lt_pow_succ (Nat.lt_succ_self 1)),
        pow_succ, ← Nat.mul_two, Nat.mod_self]
  · have even : base / 2 ^ order % 2 = 0 := by omega
    refine ⟨pmm, base, n, ?_, Freed.refl tiled base, le_rfl, rfl, ?_⟩
    · rw [if_neg (by simp [odd])]
      rfl
    · rw [Aligned, bit, even, mul_zero]

theorem freeRising_spec (fuel : Nat) (tiled : Tiled size pmm) (aligned : Aligned base order)
    (small : n ≤ 2 ^ maxOrder) (taken : Taken size pmm ⟨base, base + n⟩)
    (enough : maxOrder + 2 ≤ order + fuel)
    (reach : order ≤ maxOrder + 1) : ∃ after next left last, freeRising fuel pmm base n order = .ok
      (after, next, left, last) ∧ Freed size pmm after ⟨base, next⟩ ∧ base ≤ next ∧
      next + left = base + n ∧ Aligned next last := by
  induction fuel generalizing pmm base n order with
  | zero => omega
  | succ fuel ih =>
    rw [freeRising]
    by_cases fits : n ≥ 2 ^ order
    · have low := order_le_of_pow_le fits small
      obtain ⟨middle, cut, left, ran, freed, lower, total, alignedNext⟩ := freeOdd_spec tiled low aligned fits taken
      obtain ⟨after, next, rest, last, finished, freedMore, upper, sum, alignedLast⟩ :=
        ih freed.tiled alignedNext (by omega) (total ▸ taken.after lower freed) (by omega)
        (by omega)
      refine ⟨after, next, rest, last, ?_, freed.trans freedMore lower upper, lower.trans upper, by omega, alignedLast⟩
      rwa [if_pos fits, ensure_bind, if_pos low, ran]
    · rw [if_neg fits]
      exact ⟨pmm, base, n, order, rfl, Freed.refl tiled base, le_rfl, rfl, aligned⟩

theorem lowerOrder_spec (positive : 0 < n) (order : Nat) : lowerOrder n order ≤ order ∧ 2 ^ lowerOrder n order ≤ n := by
  induction order with
  | zero => exact ⟨le_rfl, positive⟩
  | succ order ih =>
    rw [lowerOrder]
    split
    · exact ⟨ih.1.trans (Nat.le_succ order), ih.2⟩
    · next large => exact ⟨le_rfl, not_lt.mp large⟩

theorem freeFalling_spec (fuel : Nat) (tiled : Tiled size pmm) (aligned : Aligned base order)
    (small : n ≤ 2 ^ maxOrder) (taken : Taken size pmm ⟨base, base + n⟩) (enough : n < fuel) :
    ∃ after, freeFalling fuel pmm base n order = .ok after ∧ Freed size pmm after ⟨base, base + n⟩ := by
  induction fuel generalizing pmm base n order with
  | zero => omega
  | succ fuel ih =>
    rw [freeFalling]
    by_cases empty : n = 0
    · rw [empty]
      exact ⟨pmm, rfl, Freed.refl tiled base⟩
    obtain ⟨lower, fits⟩ := lowerOrder_spec (Nat.pos_of_ne_zero empty) order
    rw [if_pos empty]
    generalize lowerOrder n order = next at lower fits ⊢
    have positive := Nat.two_pow_pos next
    have alignedNext := aligned.mono lower
    obtain ⟨middle, ran, freed⟩ :=
      freePagesSub_spec tiled (order_le_of_pow_le fits small) alignedNext
      (taken.part le_rfl (by omega))
    have total : base + 2 ^ next + (n - 2 ^ next) = base + n := by omega
    obtain ⟨after, finished, freedMore⟩ :=
      ih freed.tiled alignedNext.next (by omega) (total ▸ taken.after (by omega) freed) (by omega)
    refine ⟨after, ?_, freed.trans (total ▸ freedMore) (by omega) (by omega)⟩
    dsimp only
    rwa [ran]

theorem freePages_spec (tiled : Tiled size pmm) (positive : 0 < n) (small : n ≤ 2 ^ maxOrder)
    (taken : Taken size pmm ⟨base, base + n⟩) : ∃ after, freePages pmm base n = .ok after ∧
    Freed size pmm after ⟨base, base + n⟩ := by
  rw [freePages, ensure_bind, if_pos positive]
  have unaligned : Aligned base 0 := Nat.mod_one base
  obtain rfl | single := eq_or_ne n 1
  · exact freePagesSub_spec tiled (Nat.zero_le _) unaligned taken
  rw [if_neg single]
  obtain ⟨middle, next, left, last, ran, freed, lower, total, aligned⟩ :=
    freeRising_spec (maxOrder + 2) tiled unaligned small taken (by omega) (by omega)
  obtain ⟨after, finished, freedMore⟩ := freeFalling_spec (left + 1) freed.tiled aligned (by omega)
    (total ▸ taken.after lower freed) (by omega)
  refine ⟨after, ?_, freed.trans (total ▸ freedMore) lower (by omega)⟩
  rwa [ran]

theorem splitDown_spec (page order more : Nat) (tiled : Tiled size pmm)
    (small : order + more ≤ maxOrder) (aligned : Aligned page (order + more))
    (taken : Taken size pmm (block page (order + more))) :
    Freed size pmm (splitDown page order more pmm) ⟨page + 2 ^ order, page + 2 ^ (order + more)⟩ := by
  induction more generalizing pmm with
  | zero => exact Freed.refl tiled _
  | succ more ih =>
    have lower : Aligned page (order + more) := aligned.mono (by omega)
    have double : 2 ^ (order + (more + 1)) = 2 ^ (order + more) + 2 ^ (order + more) := by
      rw [← add_assoc, pow_succ, Nat.mul_two]
    have least : 2 ^ order ≤ 2 ^ (order + more) := Nat.pow_le_pow_right Nat.two_pos (by omega)
    have positive := Nat.two_pow_pos order
    obtain ⟨inside, apart⟩ := taken
    simp only [block] at inside
    have upper : Taken size pmm (block (page + 2 ^ (order + more)) (order + more)) := by
      refine ⟨by simp only [block]; omega, ?_⟩
      intro i covered
      apply apart
      simp only [block, Span.Covers] at covered ⊢
      omega
    have alone : order + more < maxOrder → buddy (page + 2 ^ (order + more)) (order + more) ∉
      pmm.freeList (order + more) := by
      intro _ member
      rw [← buddy_of_lower (show Aligned page (order + more + 1) from aligned), buddy_buddy] at member
      exact apart page (covers_start _ _) ⟨_, page, member, covers_start _ _⟩
    have added := tiled.add (by omega) lower.next upper.1 upper.2 alone
    have first : Taken size (pmm.addBlock (page + 2 ^ (order + more)) (order + more)) (block page (order + more)) := by
      refine ⟨by simp only [block]; omega, ?_⟩
      intro i covered still
      rcases free_addBlock.mp still with before | above
      · exact apart i (by simp only [block, Span.Covers] at covered ⊢; omega) before
      · simp only [block, Span.Covers] at covered above
        omega
    have rest := ih added (by omega) lower first
    refine ⟨rest.tiled, ?_⟩
    intro i
    rw [splitDown, rest.free, free_addBlock, or_assoc]
    have parts : (block (page + 2 ^ (order + more)) (order + more)).Covers i ∨
      Span.Covers ⟨page + 2 ^ order, page + 2 ^ (order + more)⟩ i ↔
      Span.Covers ⟨page + 2 ^ order, page + 2 ^ (order + (more + 1))⟩ i := by
      simp only [block, Span.Covers]
      omega
    rw [parts]

theorem clear_addBlock {page p : Nat} (k : Nat) (different : page ≠ p) :
    (pmm.addBlock p k).clearPageProperty page = (pmm.clearPageProperty page).addBlock p k := by
  simp only [Pmm.addBlock, Pmm.clearPageProperty, Pmm.setPage, update_of_ne different,
    update_of_ne different.symm, update_comm different]

/-- The flag of the allocated page might as well be cleared before the block is split. -/
theorem clear_splitDown (page order more : Nat) : (splitDown page order more pmm).clearPageProperty
    page = splitDown page order more (pmm.clearPageProperty page) := by
  induction more generalizing pmm with
  | zero => rfl
  | succ more ih =>
    have different : page ≠ page + 2 ^ (order + more) := Nat.ne_of_lt (Nat.lt_add_of_pos_right (Nat.two_pow_pos _))
    rw [splitDown, splitDown, ih, clear_addBlock _ different]

structure Allocated (size : Nat) (pmm after : Pmm) (span : Span) : Prop where
  tiled : Tiled size after
  inside : span.stop ≤ size
  free : ∀ i, Free after i ↔ Free pmm i ∧ ¬ span.Covers i
  were : ∀ i, span.Covers i → Free pmm i

theorem allocFrom_spec (tiled : Tiled size pmm) (order more cur : Nat) (low : order ≤ cur)
    (high : cur + more ≤ maxOrder + 1) : allocFrom order pmm more cur = (pmm, none) ∨
      ∃ after page, allocFrom order pmm more cur = (after, some page) ∧ Allocated size pmm after (block page order) := by
  induction more generalizing cur with
  | zero => exact .inl rfl
  | succ more ih =>
    rw [allocFrom]
    cases listed : pmm.freeList cur with
    | nil => exact ih (cur + 1) (by omega) (by omega)
    | cons page =>
      right
      have member := listed ▸ List.mem_cons_self
      have whole : order + (cur - order) = cur := by omega
      have shrunk := tiled.take member
      have taken : Taken size (pmm.takeBlock page cur) (block page cur) := by
        refine ⟨tiled.inside cur page member, ?_⟩
        intro i covered still
        exact ((free_takeBlock tiled member).mp still).2 covered
      have freed := splitDown_spec page order (cur - order) shrunk (by omega)
        (whole.symm ▸ tiled.aligned cur page member) (whole.symm ▸ taken)
      rw [whole] at freed
      have least := Nat.pow_le_pow_right Nat.two_pos low
      have positive := Nat.two_pow_pos order
      have inside := tiled.inside cur page member
      refine ⟨_, page, rfl, ?_, ?_, ?_, ?_⟩
      · rw [clear_splitDown]
        exact freed.tiled
      · simp only [block]
        omega
      · intro i
        rw [clear_splitDown]
        change Free (splitDown page order (cur - order) (pmm.takeBlock page cur)) i ↔ _
        rw [freed.free, free_takeBlock tiled member]
        have free : (block page cur).Covers i → Free pmm i := fun covered => ⟨cur, page, member, covered⟩
        simp only [block, Span.Covers] at free ⊢
        by_cases before : Free pmm i
        · simp only [before, true_and]
          omega
        · simp only [before, false_and, false_or, iff_false]
          intro covered
          exact before (free (by omega))
      · intro i covered
        refine ⟨cur, page, member, ?_⟩
        simp only [block, Span.Covers] at covered ⊢
        omega

theorem getorderFrom_spec (small : n ≤ 2 ^ maxOrder) (more order : Nat)
    (total : order + more = maxOrder + 1) (some_ : 0 < more) : ∃ found, getorderFrom n more order =
    .ok found ∧ found ≤ maxOrder ∧ n ≤ 2 ^ found := by
  induction more generalizing order with
  | zero => omega
  | succ more ih =>
    rw [getorderFrom]
    by_cases fits : n ≤ 2 ^ order
    · exact ⟨order, if_pos fits, by omega, fits⟩
    rw [if_neg fits]
    apply ih (order + 1) (by omega)
    by_contra last
    have same : order = maxOrder := by omega
    rw [same] at fits
    exact fits small

/-- `buddy_alloc_pages` either changes nothing or takes exactly the pages it returns. -/
theorem allocPages_spec (tiled : Tiled size pmm) (positive : 0 < n) (small : n ≤ 2 ^ maxOrder) :
    allocPages pmm n = .ok (pmm, none) ∨ ∃ after page, allocPages pmm n = .ok (after, some page) ∧
    Allocated size pmm after ⟨page, page + n⟩ := by
  obtain ⟨order, found, low, fits⟩ := getorderFrom_spec small (maxOrder + 1) 0 (zero_add _) (Nat.succ_pos _)
  have searched := allocFrom_spec tiled order (maxOrder + 1 - order) order le_rfl (by omega)
  rw [allocPages, ensure_bind, if_pos positive, getorder, found]
  simp only [bind, Except.bind, allocPagesSub, ensure, if_pos low, pure, Except.pure]
  rcases searched with none | ⟨middle, page, ran, allocated⟩
  · left
    rw [none]
    rfl
  right
  rw [ran]
  simp only [freeTail]
  by_cases whole : n = 2 ^ order
  · rw [if_neg (not_not_intro whole), whole]
    exact ⟨middle, page, rfl, allocated⟩
  have inside := allocated.inside
  simp only [block] at inside
  have total : page + n + (2 ^ order - n) = page + 2 ^ order := by omega
  have tail : Taken size middle ⟨page + n, page + n + (2 ^ order - n)⟩ := by
    rw [total]
    refine ⟨inside, ?_⟩
    intro i covered still
    apply ((allocated.free i).mp still).2
    simp only [block, Span.Covers] at covered ⊢
    omega
  have bound := Nat.pow_le_pow_right Nat.two_pos low
  obtain ⟨after, finished, freed⟩ := freePages_spec allocated.tiled (by omega) (by omega) tail
  rw [if_pos whole, finished]
  refine ⟨after, page, rfl, freed.tiled, by dsimp only; omega, ?_, ?_⟩
  · intro i
    rw [freed.free, allocated.free]
    have were := allocated.were i
    simp only [block, Span.Covers] at were ⊢
    by_cases before : Free pmm i
    · simp only [before, true_and]
      omega
    · simp only [before, false_and, false_or, iff_false]
      intro covered
      exact before (were (by omega))
  · intro i covered
    apply allocated.were
    simp only [block, Span.Covers] at covered ⊢
    omega

end Ucore.BuddyPmm
