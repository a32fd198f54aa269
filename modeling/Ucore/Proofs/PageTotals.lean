import Ucore.PageAccounts
import Ucore.Proofs.BuddyRun
import Ucore.Slab

/-! The blocks in the lists of the allocator hold as many pages as are free, so what an allocation
takes from them is what its CPU counts. -/

namespace Ucore.BuddyPmm
open Lib Lib.BuddyBlocks Function List Finset
variable {size : Nat} {pmm after : Pmm}

def blocksOf (pmm : Pmm) : Finset (Σ _ : Nat, Nat) :=
  (Finset.range (maxOrder + 1)).sigma fun order => (pmm.freeList order).toFinset

def freePagesOf (pmm : Pmm) : Finset Nat := (blocksOf pmm).biUnion fun b => Finset.Ico b.2 (b.2 + 2 ^ b.1)

theorem mem_freePagesOf (tiled : Tiled size pmm) {i : Nat} : i ∈ freePagesOf pmm ↔ Free pmm i := by
  simp only [freePagesOf, blocksOf, Finset.mem_biUnion, Finset.mem_sigma, Finset.mem_range,
    List.mem_toFinset, Finset.mem_Ico, Free, covers_block]
  constructor
  · rintro ⟨b, ⟨_, member⟩, covers⟩
    exact ⟨b.1, b.2, member, covers⟩
  · rintro ⟨k, p, member, covers⟩
    exact ⟨⟨k, p⟩, ⟨Nat.lt_succ_of_le (tiled.order k p member), member⟩, covers⟩

theorem card_freePagesOf (tiled : Tiled size pmm) : (freePagesOf pmm).card = PageAccounts.nrFreePages pmm := by
  rw [freePagesOf, Finset.card_biUnion, blocksOf, Finset.sum_sigma]
  · refine Finset.sum_congr rfl fun order _ => ?_
    simp [List.toFinset_card_of_nodup (tiled.once order), tiled.counted]
  intro b first c second different
  rw [Finset.mem_coe, blocksOf, Finset.mem_sigma, List.mem_toFinset] at first second
  have apart := tiled.apart b.1 c.1 b.2 c.2 first.2 second.2 (by grind [Sigma.ext_iff])
  refine Finset.disjoint_left.mpr fun i here there => ?_
  exact apart.not_covers (Finset.mem_Ico.mp here) (Finset.mem_Ico.mp there)

/-- Pages that become free are counted. -/
theorem Freed.count {base count : Nat} (freed : Freed size pmm after ⟨base, base + count⟩) (tiled : Tiled size pmm)
    (taken : ∀ i, Span.Covers ⟨base, base + count⟩ i → ¬ Free pmm i) :
      PageAccounts.nrFreePages after = PageAccounts.nrFreePages pmm + count := by
  have union : freePagesOf after = freePagesOf pmm ∪ Finset.Ico base (base + count) := by
    ext i
    rw [Finset.mem_union, mem_freePagesOf freed.tiled, mem_freePagesOf tiled, Finset.mem_Ico, freed.free]
    rfl
  have apart : Disjoint (freePagesOf pmm) (Finset.Ico base (base + count)) := by
    rw [Finset.disjoint_right]
    intro i inside
    rw [mem_freePagesOf tiled]
    exact taken i (Finset.mem_Ico.mp inside)
  rw [← card_freePagesOf freed.tiled, ← card_freePagesOf tiled, union,
    Finset.card_union_of_disjoint apart, Nat.card_Ico, Nat.add_sub_cancel_left]

theorem Allocated.freed {span : Span} (allocated : Allocated size pmm after span)
    (tiled : Tiled size pmm) : Freed size after pmm span := by
  refine ⟨tiled, fun i => ?_⟩
  have were := allocated.were i
  rw [allocated.free]
  tauto

end Ucore.BuddyPmm

namespace Ucore.PageAccounts
open Lib BuddyPmm Function
variable {n : Nat}

theorem sum_update (used : Fin n → BitVec 64) (cpu : Fin n) (change : BitVec 64) :
    ∑ c, update used cpu (used cpu + change) c = ∑ c, used c + change := by
  have each : ∀ c, update used cpu (used cpu + change) c = used c + if c = cpu then change else 0 := by
    intro c
    by_cases here : c = cpu
    all_goals simp [here]
  rw [Finset.sum_congr rfl fun c _ => each c, Finset.sum_add_distrib, Finset.sum_ite_eq', if_pos (Finset.mem_univ cpu)]

/-- The call returns pages. -/
theorem Served.alloc {s : State n} {cpu : Fin n} {pages : Nat} (served : Served s (.alloc cpu pages))
    (valid : Valid s.state) (positive : 0 < pages) :
    ∃ t page, step s (.alloc cpu pages) = .ok (t, some page) := by
  obtain ⟨order, fits, some⟩ := served
  obtain ⟨block, listed⟩ := List.exists_mem_of_ne_nil _ some
  obtain ⟨after, page, ran⟩ := allocPages_found valid.tiled positive fits listed
  exact ⟨_, page, by rw [step, Op.request, BuddyPmm.step, ran]; rfl⟩

theorem step_total {s t : State n} {op : Op n} {page : Option Nat} (valid : Valid s.state)
    (allowed : BuddyPmm.Allowed s.state op.request) (served : Served s op)
    (ran : step s op = .ok (t, page)) : Valid t.state ∧ total t = total s := by
  obtain ⟨⟨state, found⟩, called, returned⟩ := exists_of_bind ran
  cases returned
  obtain ⟨_, _, same, kept⟩ := valid_step s.state op.request valid allowed
  cases same.symm.trans called
  refine ⟨kept, ?_⟩
  simp only [total, nrUsedPages]
  cases op with
  | alloc cpu pages =>
    rcases allocPages_spec valid.tiled allowed.1 allowed.2 with failed | ⟨after, p, done, allocated⟩
    · rw [Op.request, BuddyPmm.step, failed] at called
      cases called
      obtain ⟨_, _, returns⟩ := served.alloc valid allowed.1
      cases returns.symm.trans ran
    · rw [Op.request, BuddyPmm.step, done] at called
      cases called
      have count := (allocated.freed valid.tiled).count allocated.tiled fun i inside there =>
        ((allocated.free i).mp there).2 inside
      rw [count, Op.count, sum_update, BitVec.ofNat_add]
      ring
  | free =>
    have taken := valid.taken allowed
    obtain ⟨after, done, freed⟩ := freePages_spec valid.tiled allowed.1 allowed.2.1 taken
    rw [Op.request, BuddyPmm.step, done] at called
    cases called
    rw [freed.count valid.tiled taken.2, Op.count, sub_eq_add_neg, sum_update, BitVec.ofNat_add]
    ring

/-- While some list has a large enough block for every request, no request fails, and the pages
in use and the free pages are always the same number together. -/
theorem pages_accounted_when_served (boot : State n) (ready : BuddyPmm.machine.Reachable boot.state) :
    ((machine boot).restrict Served).Always fun s => total s = total boot ∧
      ∀ cpu pages, (machine boot).allowed s (.alloc cpu pages) → Served s (.alloc cpu pages) →
        ∃ t page, step s (.alloc cpu pages) = .ok (t, some page) := by
  have kept : ((machine boot).restrict Served).Always fun s => Valid s.state ∧ total s = total boot := by
    refine Machine.always_of_invariant ?_ ?_ fun _ => id
    · rintro _ rfl
      exact ⟨valid_reached ⟨_, ready⟩, rfl⟩
    · intro s op t page kept allowed ran
      obtain ⟨valid, same⟩ := step_total kept.1 allowed.1 allowed.2 ran
      exact ⟨valid, same.trans kept.2⟩
  intro s reached
  obtain ⟨valid, same⟩ := kept s reached
  exact ⟨same, fun cpu pages allowed served => served.alloc valid allowed.1⟩

/-- The pages at boot, and a zone of one of them. -/
def reserved : BuddyPmm.State := ⟨⟨fun _ => ⟨true, false, 0, 0⟩, fun _ => [], fun _ => 0, 0, 1⟩, 0, fun _ => false⟩
def onePage : State 1 := ⟨(BuddyPmm.machine.replay reserved [.initMemmap 1]).getD reserved, fun _ => 0⟩

theorem onePage_reachable : BuddyPmm.machine.Reachable onePage.state := by
  have begins : BuddyPmm.machine.start reserved := ⟨rfl, fun _ => rfl, fun _ => rfl, fun _ => rfl, rfl, fun _ _ => rfl⟩
  exact .replay [.initMemmap 1] ⟨[], .start begins⟩ rfl

theorem one_page_accounted : ((machine onePage).restrict Served).Always fun s => total s = total onePage ∧
    ∀ cpu pages, (machine onePage).allowed s (.alloc cpu pages) → Served s (.alloc cpu pages) →
      ∃ t page, step s (.alloc cpu pages) = .ok (t, some page) :=
  pages_accounted_when_served onePage onePage_reachable

instance (boot s : State n) (op : Op n) : Decidable ((machine boot).allowed s op) :=
  inferInstanceAs (Decidable (BuddyPmm.machine.allowed s.state op.request))

/-- The second of two requests for the only page fails, and is counted as another page in use. -/
theorem failed_request_is_counted : BuddyPmm.machine.Reachable onePage.state ∧ total onePage = 1 ∧
    ∃ s, (machine onePage).Reachable s ∧ nrUsedPages s = 2 ∧ nrFreePages s.state.pmm = 0 :=
  ⟨onePage_reachable, by decide, Machine.exists_of_replay rfl [.alloc 0 1, .alloc 0 1] (by decide)⟩

/-- Whatever the answer, a request of the caches is counted as that of a CPU is. -/
theorem slab_request_counted (s : Slab.State) (cpu : Fin n) (pages : Nat) :
    (Slab.allocPages s pages).1.usedPages = (Op.alloc cpu pages).count (fun _ => s.usedPages) cpu := by
  rw [Op.count, Function.update_self, Slab.allocPages]
  split
  · split <;> rfl
  · rfl
  · rfl

end Ucore.PageAccounts
