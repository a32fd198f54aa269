import Ucore.Pmm
import Ucore.Proofs.VmaCalls

/-! The walks over page tables are loops over the pages of a range. A page without a
table counts as a page whose entry is zero. -/

namespace Ucore.Pmm
open Lib Vmm Function List

variable {dir : PageDir} {m : Memory} {page other : Nat} {pte : Pte} {f : Frame} {base stop : Nat} {off : Nat}
  {after s : PageDir × Memory}

theorem entry_of_tabled (tabled : dir.Tabled page) : dir.entry page = dir.pte page := if_pos tabled

theorem tabled_setPte : (dir.setPte page pte).Tabled other ↔ dir.Tabled other := Iff.rfl

theorem entry_congr {first second : PageDir} (tables : first.Tabled page ↔ second.Tabled page)
    (same : second.Tabled page → first.pte page = second.pte page) :
    first.entry page = second.entry page := by
  by_cases tabled : second.Tabled page
  · rw [entry_of_tabled tabled, entry_of_tabled (tables.mpr tabled), same tabled]
  · rw [PageDir.entry, PageDir.entry, if_neg tabled, if_neg fun both => tabled (tables.mp both)]

theorem entry_setPte (tabled : dir.Tabled page) (pte : Pte) : (dir.setPte page pte).entry = update dir.entry page pte := by
  funext other
  rw [update_apply]
  split
  · next here =>
    rw [here, entry_of_tabled (tabled_setPte.mpr tabled)]
    exact update_self ..
  · next here => exact entry_congr tabled_setPte fun _ => update_of_ne here ..

theorem tabled_addTable (middle : Present (dir.pgd (pgx page))) : (dir.addTable page f).Tabled page :=
  ⟨middle, by simp [PageDir.addTable, present_ptepMap]⟩

theorem entry_addPmd (missing : ¬ Present (dir.pgd (pgx page))) : (dir.addPmd page f).entry = dir.entry := by
  funext other
  refine entry_congr ?_ fun _ => rfl
  simp only [PageDir.Tabled, PageDir.addPmd, update_apply]
  by_cases same : pgx other = pgx page
  · have inside : pmx other / nPteEntry = pgx page := same
    rw [if_pos inside, same]
    exact iff_of_false (fun both => not_present_zero both.2) fun both => missing both.1
  · have outside : ¬ pmx other / nPteEntry = pgx page := same
    rw [if_neg outside, if_neg same]

theorem entry_addTable (missing : ¬ Present (dir.pmd (pmx page))) : (dir.addTable page f).entry = dir.entry := by
  funext other
  by_cases same : pmx other = pmx page
  · have none : dir.entry other = 0 := if_neg fun both => missing (same ▸ both.2)
    rw [none, PageDir.entry]
    simp [PageDir.addTable, same]
  · refine entry_congr ?_ fun _ => if_neg same
    simp only [PageDir.Tabled, PageDir.addTable, update_of_ne same]

theorem getPte_tabled (tabled : dir.Tabled page) (m : Memory) (create : Bool) :
    getPte dir m page create = (dir, m, true) := by
      simp only [getPte, getPmd, if_pos tabled.1, if_pos tabled.2]

theorem getPte_untabled (missing : ¬ dir.Tabled page) (m : Memory) : getPte dir m page false = (dir, m, false) := by
  by_cases first : Present (dir.pgd (pgx page))
  · have second : ¬ Present (dir.pmd (pmx page)) := fun second => missing ⟨first, second⟩
    simp [getPte, getPmd, first, second]
  · simp [getPte, getPmd, first]

theorem removeEntry_spec (ran : removeEntry s page = .ok after) : after.1 = s.1.setPte page 0 ∧
    pageRemovePte s.2 (s.1.pte page) = .ok after.2 := by
  obtain ⟨m, removed, ran⟩ := exists_of_bind ran
  cases ran
  exact ⟨rfl, removed⟩

def clearEntry (s : PageDir × Memory) (page : Nat) : Kernel (PageDir × Memory) :=
  if s.1.entry page ≠ 0 then removeEntry s page else pure s

/-- Losing an entry keeps all tables. -/
structure SameTables (s after : PageDir × Memory) : Prop where
  pgd : after.1.pgd = s.1.pgd
  pmd : after.1.pmd = s.1.pmd

theorem unmapEntry_tables (ran : unmapEntry s page = .ok after) : SameTables s after := by
  rw [unmapEntry] at ran
  split at ran
  · have facts := (removeEntry_spec ran).1
    exact ⟨facts ▸ rfl, facts ▸ rfl⟩
  · cases ran
    exact ⟨rfl, rfl⟩

def clearBelow (s : PageDir × Memory) (page : Nat) : Kernel (PageDir × Memory) :=
  if Present (s.1.pmd (pmx page)) then unmapEntry s page else pure s

theorem clearBelow_tables (ran : clearBelow s page = .ok after) : SameTables s after := by
  rw [clearBelow] at ran
  split at ran
  · exact unmapEntry_tables ran
  · cases ran
    exact ⟨rfl, rfl⟩

theorem clearEntry_eq (s : PageDir × Memory) (page : Nat) : clearEntry s page = if Present
    (s.1.pgd (pgx page)) then clearBelow s page else pure s := by
  simp only [clearEntry, clearBelow, unmapEntry, PageDir.entry, PageDir.Tabled]
  by_cases first : Present (s.1.pgd (pgx page)) <;> by_cases second : Present (s.1.pmd (pmx page)) <;> simp [first, second]

theorem pmx_of_mem (aligned : ptSize ∣ base) (first : pgSize ∣ off) (last : pgSize ∣ stop)
    (short : stop ≤ ptSize) (member : page ∈ granules pgSize (base + off) (base + stop)) :
    pmx page = base / ptSize := by
  have base' := Nat.dvd_trans (Nat.dvd_mul_right pgSize nPteEntry) aligned
  rw [mem_granules (by decide) (dvd_add base' first) (dvd_add base' last)] at member
  obtain ⟨k, rfl⟩ := aligned
  simp only [pmx, ptSize, pgSize, nPteEntry] at *
  omega

theorem pgx_of_mem (aligned : puSize ∣ base) (first : pgSize ∣ off) (last : pgSize ∣ stop)
    (short : stop ≤ puSize) (member : page ∈ granules pgSize (base + off) (base + stop)) :
    pgx page = base / puSize := by
  have base' : pgSize ∣ base := by
    refine Nat.dvd_trans ?_ aligned
    decide
  rw [mem_granules (by decide) (dvd_add base' first) (dvd_add base' last)] at member
  obtain ⟨k, rfl⟩ := aligned
  simp only [pgx, puSize, pmSize, ptSize, pgSize, nPteEntry] at *
  omega

theorem foldlM_congr {α : Type} {σ : Type} {φ : Type} {first second : σ → α → Except φ σ}
    {list : List α} (same : ∀ s, ∀ a ∈ list, first s a = second s a) (s : σ) :
    list.foldlM first s = list.foldlM second s := by
  induction list generalizing s with
  | nil => rfl
  | cons a rest ih =>
    rw [foldlM_cons, same s a mem_cons_self]
    congr 1
    funext after
    exact ih (fun s b member => same s b (mem_cons_of_mem a member)) after

theorem unmapTable_eq (s : PageDir × Memory) (piece : Piece) (baseAligned : ptSize ∣ base)
    (aligned : ptSize ∣ piece.la) (first : pgSize ∣ piece.off) (last : pgSize ∣ piece.stop)
    (full : piece.off < piece.stop) (short : piece.stop ≤ ptSize) :
    unmapTable base s piece = (granules pgSize (base + (piece.la + piece.off))
      (base + (piece.la + piece.stop))).foldlM clearBelow s := by
  have whole := dvd_add baseAligned aligned
  have guarded : ∀ s, ∀ page ∈ granules pgSize (base + piece.la + piece.off)
    (base + piece.la + piece.stop), clearBelow s page = if Present
    (s.1.pmd ((base + piece.la) / ptSize)) then unmapEntry s page else pure s := by
    intro s page member
    rw [clearBelow, pmx_of_mem whole first last short member]
  rw [← add_assoc, ← add_assoc, foldlM_congr guarded, foldlM_guard ?_, unmapTable]
  · split
    · simp only [unmapRangePte, ensure_bind]
      rw [if_pos ⟨full, short⟩, if_pos ⟨Nat.mod_eq_zero_of_dvd first, Nat.mod_eq_zero_of_dvd last⟩]
    · rfl
  · intro s page after ran
    rw [(unmapEntry_tables ran).pmd]

theorem unmapMiddle_eq (s : PageDir × Memory) (piece : Piece) (aligned : puSize ∣ piece.la)
    (first : pgSize ∣ piece.off) (last : pgSize ∣ piece.stop) (full : piece.off < piece.stop)
    (short : piece.stop ≤ puSize) :
    unmapMiddle s piece = (granules pgSize (piece.la + piece.off) (piece.la + piece.stop)).foldlM clearEntry s := by
  have guarded : ∀ s, ∀ page ∈ granules pgSize (piece.la + piece.off) (piece.la + piece.stop),
    clearEntry s page = if Present (s.1.pgd (piece.la / puSize)) then clearBelow s page else pure
    s := by
    intro s page member
    rw [clearEntry_eq, pgx_of_mem aligned first last short member]
  rw [foldlM_congr guarded, foldlM_guard ?_, unmapMiddle]
  · split
    · simp only [unmapRangePmd, ensure_bind]
      rw [if_pos ⟨full, short⟩]
      have less := Nat.mod_lt piece.off (show 0 < ptSize by decide)
      exact foldlM_pieces (by decide) (by decide) piece.la (Nat.dvd_trans (by decide) aligned) (piece.stop - piece.off)
        (piece.off - piece.off % ptSize) piece.off piece.stop (Nat.dvd_sub_mod piece.off)
          (Nat.sub_le _ _) (by omega)
          first last full (by omega) (fun s inner => unmapTable_eq s inner (Nat.dvd_trans (by decide) aligned)) s
    · rfl
  · intro s page after ran
    rw [(clearBelow_tables ran).pgd]

theorem unmapRange_eq {start : Nat} (s : PageDir × Memory) (first : start % pgSize = 0)
    (last : stop % pgSize = 0) (access : UserAccess start stop) :
    Pmm.unmapRange s start stop = (granules pgSize start stop).foldlM clearEntry s := by
  have less := Nat.mod_lt start (show 0 < puSize by decide)
  have full := access.2.1
  have each : ∀ s (piece : Piece), puSize ∣ piece.la → pgSize ∣ piece.off → pgSize ∣ piece.stop → piece.off < piece.stop →
      piece.stop ≤ puSize → unmapMiddle s piece = (granules pgSize (0 + (piece.la + piece.off))
        (0 + (piece.la + piece.stop))).foldlM clearEntry s := by
    intro s piece
    rw [zero_add, zero_add]
    exact unmapMiddle_eq s piece
  have walked := foldlM_pieces (by decide) (by decide) 0 (Nat.dvd_zero pgSize) (stop - start)
    (start - start % puSize) start stop
    (Nat.dvd_sub_mod start) (Nat.sub_le _ _) (by omega) (Nat.dvd_of_mod_eq_zero first)
      (Nat.dvd_of_mod_eq_zero last) full (by omega) each s
  rw [zero_add, zero_add] at walked
  simp only [Pmm.unmapRange, ensure_bind, if_pos (And.intro first last), if_pos access]
  exact walked

theorem pageRemove_eq (s : PageDir × Memory) (page : Nat) : pageRemove s.1 s.2 page = clearEntry s page := by
  rw [clearEntry, PageDir.entry, pageRemove]
  by_cases tabled : s.1.Tabled page
  · rw [getPte_tabled tabled, if_pos tabled]
    show removeEntry s page = _
    split
    · rfl
    · next zero =>
      rw [not_not] at zero
      have same : s.1.setPte page 0 = s.1 := by rw [PageDir.setPte, ← zero, update_eq_self]
      have gone : pageRemovePte s.2 0 = .ok s.2 := by rw [pageRemovePte, if_neg not_present_zero]; rfl
      rw [removeEntry, zero, gone, same]
      rfl
  · rw [getPte_untabled tabled, if_neg tabled, if_neg (by simp)]

theorem clearEntry_others (s : PageDir × Memory) (page : Nat) :
    Ends (fun fault => ∃ m pte, pageRemovePte m pte = .error fault) (clearEntry s page) fun after =>
      ∀ other, other ≠ page → after.1.entry other = s.1.entry other := by
  rw [clearEntry]
  split
  · rw [removeEntry]
    cases removed : pageRemovePte s.2 (s.1.pte page) with
    | error => exact ⟨_, _, removed⟩
    | ok => exact fun other different => entry_congr tabled_setPte fun _ => update_of_ne different ..
  · exact fun _ _ => rfl

end Ucore.Pmm
