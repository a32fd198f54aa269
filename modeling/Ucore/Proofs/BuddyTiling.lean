import Ucore.BuddyPmm

/-! The free blocks of the zone as a tiling. Taking a block out and putting one in
are the only two changes the allocator makes, and each is specified once. -/

namespace Ucore.BuddyPmm
open Lib Lib.BuddyBlocks Function List

/-- The free blocks, with the flags and counters that describe them. -/
structure Tiled (size : Nat) (pmm : Pmm) : Prop where
  order : ∀ k p, p ∈ pmm.freeList k → k ≤ maxOrder
  aligned : ∀ k p, p ∈ pmm.freeList k → Aligned p k
  inside : ∀ k p, p ∈ pmm.freeList k → p + 2 ^ k ≤ size
  once : ∀ k, (pmm.freeList k).Nodup
  counted : ∀ k, pmm.nrFree k = (pmm.freeList k).length
  apart : ∀ k l p q, p ∈ pmm.freeList k → q ∈ pmm.freeList l → (p ≠ q ∨ k ≠ l) → (block p k).Apart (block q l)
  merged : ∀ k p, k < maxOrder → p ∈ pmm.freeList k → buddy p k ∉ pmm.freeList k
  heads : ∀ i < size, (pmm.pages i).head = true ↔ ∃ k, i ∈ pmm.freeList k
  property : ∀ k p, p ∈ pmm.freeList k → (pmm.pages p).property = k
  zone : ∃ zoneNum, ∀ i < size, (pmm.pages i).reserved = false ∧ (pmm.pages i).zoneNum = zoneNum
  beyond : ∀ i, size ≤ i → i < pmm.limit → (pmm.pages i).reserved = true
  bounded : size ≤ pmm.limit

def Free (pmm : Pmm) (i : Nat) : Prop := ∃ k p, p ∈ pmm.freeList k ∧ (block p k).Covers i

variable {size : Nat} {pmm : Pmm} {p k : Nat} {i l q : Nat}

section

variable (tiled : Tiled size pmm)
include tiled

theorem Tiled.not_head (inside : i < size) (taken : ¬ Free pmm i) : (pmm.pages i).head = false := by
  apply Bool.eq_false_iff.mpr
  intro flagged
  obtain ⟨order, member⟩ := (tiled.heads i inside).mp flagged
  exact taken ⟨order, i, member, covers_start i order⟩

theorem Tiled.unique (first : p ∈ pmm.freeList k) (second : q ∈ pmm.freeList l)
    (here : (block p k).Covers i) (there : (block q l).Covers i) : p = q ∧ k = l := by
  by_contra different
  have apart := tiled.apart k l p q first second (by tauto)
  exact apart.not_covers here there

theorem Tiled.pageIsBuddy {zoneNum : Nat} (zone : ∀ i < size, (pmm.pages i).reserved = false ∧
    (pmm.pages i).zoneNum = zoneNum) : PageIsBuddy pmm p k zoneNum ↔ p ∈ pmm.freeList k := by
  constructor
  · intro ⟨limit, _, open_, flagged, stored⟩
    have inside : p < size := by
      by_contra out
      rw [tiled.beyond p (not_lt.mp out) limit] at open_
      exact Bool.noConfusion open_
    obtain ⟨order, member⟩ := (tiled.heads p inside).mp flagged
    rwa [← stored, tiled.property order p member]
  · intro member
    have inside := Nat.lt_of_lt_of_le (Nat.lt_add_of_pos_right (Nat.two_pow_pos k)) (tiled.inside k p member)
    obtain ⟨open_, same⟩ := zone p inside
    exact ⟨inside.trans_le tiled.bounded, same, open_, (tiled.heads p inside).mpr ⟨k, member⟩, tiled.property k p member⟩

def Pmm.takeBlock (pmm : Pmm) (p order : Nat) : Pmm := (pmm.removeBlock p order).clearPageProperty p

theorem mem_takeBlock : q ∈ (pmm.takeBlock p k).freeList l ↔ q ∈ pmm.freeList l ∧ ¬ (q = p ∧ l = k) := by
  change q ∈ update pmm.freeList k ((pmm.freeList k).erase p) l ↔ _
  rw [update_apply]
  split
  · next same =>
    subst same
    rw [(tiled.once l).mem_erase_iff]
    tauto
  · tauto

end

theorem mem_addBlock : q ∈ (pmm.addBlock p k).freeList l ↔ q ∈ pmm.freeList l ∨ (q = p ∧ l = k) := by
  change q ∈ update pmm.freeList k (p :: pmm.freeList k) l ↔ _
  rw [update_apply]
  split
  · next same =>
    subst same
    rw [mem_cons]
    tauto
  · tauto

theorem free_takeBlock (tiled : Tiled size pmm) (member : p ∈ pmm.freeList k) :
    Free (pmm.takeBlock p k) i ↔ Free pmm i ∧ ¬ (block p k).Covers i := by
  constructor
  · intro ⟨l, q, listed, covered⟩
    obtain ⟨listed, other⟩ := (mem_takeBlock tiled).mp listed
    refine ⟨⟨l, q, listed, covered⟩, ?_⟩
    intro both
    obtain ⟨same, sameOrder⟩ := tiled.unique member listed both covered
    exact other ⟨same.symm, sameOrder.symm⟩
  · intro ⟨⟨l, q, listed, covered⟩, outside⟩
    refine ⟨l, q, (mem_takeBlock tiled).mpr ⟨listed, ?_⟩, covered⟩
    intro ⟨same, sameOrder⟩
    subst same sameOrder
    exact outside covered

theorem free_addBlock : Free (pmm.addBlock p k) i ↔ Free pmm i ∨ (block p k).Covers i := by
  constructor
  · intro ⟨l, q, listed, covered⟩
    rcases mem_addBlock.mp listed with listed | ⟨rfl, rfl⟩
    · exact .inl ⟨l, q, listed, covered⟩
    · exact .inr covered
  · intro either
    rcases either with ⟨l, q, listed, covered⟩ | covered
    · exact ⟨l, q, mem_addBlock.mpr (.inl listed), covered⟩
    · exact ⟨k, p, mem_addBlock.mpr (.inr ⟨rfl, rfl⟩), covered⟩

theorem pages_takeBlock (pmm : Pmm) (p order : Nat) : (pmm.takeBlock p order).pages = update pmm.pages
    p { pmm.pages p with head := false } := rfl

theorem pages_addBlock (pmm : Pmm) (p order : Nat) : (pmm.addBlock p order).pages = update pmm.pages p
    { pmm.pages p with property := order, head := true } := rfl

theorem zone_update (pages : Nat → Page) (p : Nat) (page : Page) (same : page.reserved = (pages p).reserved)
    (sameZone : page.zoneNum = (pages p).zoneNum) (i : Nat) :
      (update pages p page i).reserved = (pages i).reserved ∧ (update pages p page i).zoneNum =
      (pages i).zoneNum := by
  rw [update_apply]
  split
  · next here =>
    rw [here]
    exact ⟨same, sameZone⟩
  · exact ⟨rfl, rfl⟩

theorem Tiled.take (tiled : Tiled size pmm) (member : p ∈ pmm.freeList k) : Tiled size (pmm.takeBlock p k) := by
  have sub : ∀ {l q}, q ∈ (pmm.takeBlock p k).freeList l → q ∈ pmm.freeList l :=
    fun listed => ((mem_takeBlock tiled).mp listed).1
  have fields := zone_update pmm.pages p { pmm.pages p with head := false } rfl rfl
  constructor
  case order => exact fun l q listed => tiled.order l q (sub listed)
  case aligned => exact fun l q listed => tiled.aligned l q (sub listed)
  case inside => exact fun l q listed => tiled.inside l q (sub listed)
  case once =>
    intro l
    change (update pmm.freeList k ((pmm.freeList k).erase p) l).Nodup
    by_cases same : l = k
    · rw [same, update_self]
      exact (tiled.once k).erase p
    · rw [update_of_ne same]
      exact tiled.once l
  case counted =>
    intro l
    change update pmm.nrFree k (pmm.nrFree k - 1) l = (update pmm.freeList k ((pmm.freeList k).erase p) l).length
    by_cases same : l = k
    · rw [same, update_self, update_self, length_erase_of_mem member, tiled.counted]
    · rw [update_of_ne same, update_of_ne same]
      exact tiled.counted l
  case apart => exact fun l m q r first second different => tiled.apart l m q r (sub first) (sub second) different
  case merged => exact fun l q less listed other => tiled.merged l q less (sub listed) (sub other)
  case heads =>
    intro i inside
    rw [pages_takeBlock]
    obtain rfl | here := eq_or_ne i p
    · rw [update_self]
      constructor
      · exact Bool.noConfusion
      · intro ⟨l, listed⟩
        obtain ⟨listed, other⟩ := (mem_takeBlock tiled).mp listed
        exact absurd ⟨rfl, ((tiled.property l i listed).symm.trans (tiled.property k i member))⟩ other
    · rw [update_of_ne here, tiled.heads i inside]
      constructor
      · exact fun ⟨l, listed⟩ => ⟨l, (mem_takeBlock tiled).mpr ⟨listed, fun both => here both.1⟩⟩
      · exact fun ⟨l, listed⟩ => ⟨l, sub listed⟩
  case property =>
    intro l q listed
    obtain ⟨prior, other⟩ := (mem_takeBlock tiled).mp listed
    have different : q ≠ p := by
      intro same
      subst same
      exact other ⟨rfl, (tiled.property l q prior).symm.trans (tiled.property k q member)⟩
    rw [pages_takeBlock, update_of_ne different]
    exact tiled.property l q prior
  case zone =>
    simp only [pages_takeBlock, fields]
    exact tiled.zone
  case beyond =>
    simp only [pages_takeBlock, fields]
    exact tiled.beyond
  case bounded => exact tiled.bounded

/-- A block of pages that are not free, whose buddy is not free either, may be put in. -/
theorem Tiled.add (tiled : Tiled size pmm) (small : k ≤ maxOrder) (aligned : Aligned p k) (inside : p + 2 ^ k ≤ size)
    (taken : ∀ i, (block p k).Covers i → ¬ Free pmm i) (alone : k < maxOrder →
      buddy p k ∉ pmm.freeList k) : Tiled size (pmm.addBlock p k) := by
  have fields := zone_update pmm.pages p { pmm.pages p with property := k, head := true } rfl rfl
  have absent : ∀ l, p ∉ pmm.freeList l := fun l listed => taken p (covers_start p k) ⟨l, p, listed, covers_start p l⟩
  have full : ∀ q l, (block q l).start < (block q l).stop := fun q l => Nat.lt_add_of_pos_right (Nat.two_pow_pos l)
  have clear : ∀ l q, q ∈ pmm.freeList l → (block p k).Apart (block q l) := by
    intro l q listed
    apply Span.apart_of_no_common (full p k) (full q l)
    exact fun i here there => taken i here ⟨l, q, listed, there⟩
  constructor
  case order =>
    intro l q listed
    rcases mem_addBlock.mp listed with listed | ⟨_, rfl⟩
    · exact tiled.order l q listed
    · exact small
  case aligned =>
    intro l q listed
    rcases mem_addBlock.mp listed with listed | ⟨rfl, rfl⟩
    · exact tiled.aligned l q listed
    · exact aligned
  case inside =>
    intro l q listed
    rcases mem_addBlock.mp listed with listed | ⟨rfl, rfl⟩
    · exact tiled.inside l q listed
    · exact inside
  case once =>
    intro l
    change (update pmm.freeList k (p :: pmm.freeList k) l).Nodup
    by_cases same : l = k
    · rw [same, update_self]
      exact nodup_cons.mpr ⟨absent k, tiled.once k⟩
    · rw [update_of_ne same]
      exact tiled.once l
  case counted =>
    intro l
    change update pmm.nrFree k (pmm.nrFree k + 1) l = (update pmm.freeList k (p :: pmm.freeList k) l).length
    by_cases same : l = k
    · rw [same, update_self, update_self, length_cons, tiled.counted]
    · rw [update_of_ne same, update_of_ne same]
      exact tiled.counted l
  case apart =>
    intro l m q r first second different
    rcases mem_addBlock.mp first with prior | ⟨rfl, rfl⟩
    · rcases mem_addBlock.mp second with priorToo | ⟨rfl, rfl⟩
      · exact tiled.apart l m q r prior priorToo different
      · exact (clear l q prior).symm
    · rcases mem_addBlock.mp second with priorToo | ⟨rfl, rfl⟩
      · exact clear m r priorToo
      · exact absurd different (by simp)
  case merged =>
    intro l q less listed other
    rcases mem_addBlock.mp listed with prior | ⟨rfl, rfl⟩
    · rcases mem_addBlock.mp other with priorToo | ⟨same, rfl⟩
      · exact tiled.merged l q less prior priorToo
      · apply alone less
        rwa [← same, buddy_buddy]
    · rcases mem_addBlock.mp other with priorToo | ⟨same, _⟩
      · exact alone less priorToo
      · exact buddy_ne q l same
  case heads =>
    intro i inside
    rw [pages_addBlock]
    obtain rfl | here := eq_or_ne i p
    · rw [update_self]
      exact ⟨fun _ => ⟨k, mem_addBlock.mpr (.inr ⟨rfl, rfl⟩)⟩, fun _ => rfl⟩
    rw [update_of_ne here, tiled.heads i inside]
    constructor
    · exact fun ⟨l, listed⟩ => ⟨l, mem_addBlock.mpr (.inl listed)⟩
    intro ⟨l, listed⟩
    rcases mem_addBlock.mp listed with listed | ⟨same, _⟩
    · exact ⟨l, listed⟩
    · exact absurd same here
  case property =>
    intro l q listed
    rw [pages_addBlock]
    rcases mem_addBlock.mp listed with listed | ⟨rfl, rfl⟩
    · have different : q ≠ p := fun same => absent l (same ▸ listed)
      rw [update_of_ne different]
      exact tiled.property l q listed
    · rw [update_self]
  case zone =>
    simp only [pages_addBlock, fields]
    exact tiled.zone
  case beyond =>
    simp only [pages_addBlock, fields]
    exact tiled.beyond
  case bounded => exact tiled.bounded

end Ucore.BuddyPmm
