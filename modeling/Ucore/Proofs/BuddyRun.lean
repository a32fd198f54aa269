import Ucore.Proofs.BuddyCalls

/-! The allocator over whole runs, from the set-up of its zone on. Every page of
the zone is held by a caller or lies in one free block, and free buddies do not
stay apart. -/

namespace Ucore.BuddyPmm
open Lib Lib.BuddyBlocks Function List

variable {size : Nat} {pmm : Pmm} {p n : Nat} {state : State}

theorem resetPages_spec (count p : Nat) (reserved : ∀ i, p ≤ i → i < p + count → (pmm.pages i).reserved = true) :
    ∃ pages, resetPages count p pmm = .ok { pmm with pages } ∧
      (∀ i, p ≤ i → i < p + count → pages i = ⟨false, false, 0, pmm.zoneCount⟩) ∧ ∀ i, i < p ∨
      p + count ≤ i → pages i = pmm.pages i := by
  induction count generalizing p pmm with
  | zero => exact ⟨pmm.pages, rfl, fun i lower upper => by omega, fun _ _ => rfl⟩
  | succ count ih =>
    have later : ∀ i, p + 1 ≤ i → i < p + 1 + count →
      ((pmm.setPage p ⟨false, false, 0, pmm.zoneCount⟩).pages i).reserved = true := by
      intro i lower upper
      simp only [Pmm.setPage, update_of_ne (show i ≠ p by omega)]
      exact reserved i (by omega) (by omega)
    obtain ⟨pages, ran, cleared, same⟩ := ih (p + 1) later
    refine ⟨pages, ?_, ?_, ?_⟩
    · rw [resetPages, ensure_bind, if_pos (reserved p le_rfl (by omega)), ran]
      rfl
    · intro i lower upper
      by_cases here : i = p
      · rw [here, same p (.inl (by omega))]
        simp only [Pmm.setPage, update_self]
      · exact cleared i (by omega) (by omega)
    · intro i outside
      rw [same i (by omega)]
      simp only [Pmm.setPage, update_of_ne (show i ≠ p by omega)]

/-- The zone is tiled up to the page `p`, and `n` pages are left. -/
structure Carving (size p n : Nat) (pmm : Pmm) : Prop where
  tiled : Tiled size pmm
  free : ∀ i, Free pmm i ↔ i < p
  total : p + n = size

theorem Carving.add {order p n : Nat} (carving : Carving size p n pmm) (small : order ≤ maxOrder) (aligned : Aligned p order)
    (fits : 2 ^ order ≤ n) (empty : order < maxOrder → pmm.freeList order = []) :
      Carving size (p + 2 ^ order) (n - 2 ^ order) (pmm.addBlock p order) := by
  have total := carving.total
  have positive := Nat.two_pow_pos order
  refine ⟨?_, ?_, by omega⟩
  · apply carving.tiled.add small aligned (by omega)
    · intro i covered before
      exact absurd ((carving.free i).mp before) (not_lt.mpr covered.1)
    · intro less member
      rw [empty less] at member
      exact not_mem_nil member
  · intro i
    rw [free_addBlock, carving.free]
    simp only [covers_block]
    omega

theorem carveOrder_spec (order fuel : Nat) (carving : Carving size p n pmm) (small : order ≤ maxOrder)
    (aligned : Aligned p order) (lower : ∀ j < order, pmm.freeList j = [])
    (single : n < 2 ^ order ∨ (order < maxOrder → pmm.freeList order = [] ∧ n < 2 ^ (order + 1)))
      (enough : n < fuel) : ∃ left next after, carveOrder order fuel n p pmm = .ok
      (left, next, after) ∧ Carving size next left after ∧
      Aligned next order ∧ left < 2 ^ order ∧ ∀ j < order, after.freeList j = [] := by
  induction fuel generalizing p n pmm with
  | zero => omega
  | succ fuel ih =>
    have positive := Nat.two_pow_pos order
    rw [carveOrder]
    split
    · next fits =>
      have room : order < maxOrder → pmm.freeList order = [] ∧ n < 2 ^ (order + 1) := by
        rcases single with short | room
        · omega
        · exact room
      refine ih (carving.add small aligned fits fun less => (room less).1) aligned.next ?_ ?_ (by omega)
      · intro j less
        change update pmm.freeList order _ j = []
        rw [update_of_ne less.ne]
        exact lower j less
      · by_cases less : order < maxOrder
        · left
          have bound := (room less).2
          omega
        · exact .inr less.elim
    · exact ⟨n, p, pmm, rfl, carving, aligned, by omega, lower⟩

theorem carve_spec (order : Nat) (carving : Carving size p n pmm) (small : order ≤ maxOrder)
    (aligned : Aligned p order) (lower : ∀ j < order, pmm.freeList j = [])
    (single : n < 2 ^ order ∨ (order < maxOrder → pmm.freeList order = [] ∧ n < 2 ^ (order + 1))) :
      ∃ after, carve order n p pmm = .ok after ∧ Carving size size 0 after := by
  have stop : ∀ {next left after}, Carving size next left after → left = 0 → Carving size size 0 after := by
    intro next left after carved none
    have same : next = size := by
      rw [← carved.total, none]
      rfl
    exact ⟨carved.tiled, same ▸ carved.free, rfl⟩
  induction order generalizing p n pmm with
  | zero =>
    obtain ⟨left, next, after, ran, carved, _, short, _⟩ :=
      carveOrder_spec 0 (n + 1) carving small aligned lower single (by omega)
    have none : left = 0 := by omega
    refine ⟨after, ?_, stop carved none⟩
    rw [carve, ran]
    simp only [bind, Except.bind, none]
    rfl
  | succ order ih =>
    obtain ⟨left, next, after, ran, carved, alignedNext, short, empty⟩ :=
      carveOrder_spec (order + 1) (n + 1) carving small aligned lower single (by omega)
    rw [carve, ran]
    simp only [bind, Except.bind]
    by_cases none : left = 0
    · rw [if_neg (not_not_intro none)]
      exact ⟨after, rfl, stop carved none⟩
    · rw [if_pos none]
      exact ih carved (by omega) (alignedNext.mono (Nat.le_succ order))
        (fun j less => empty j (by omega)) (.inr fun _ => ⟨empty order (Nat.lt_succ_self order),
        short⟩)

theorem tiled_empty (zoneNum : Nat) (empty : ∀ k, pmm.freeList k = []) (zero : ∀ k, pmm.nrFree k = 0)
    (plain : ∀ i < size, (pmm.pages i).head = false ∧ (pmm.pages i).reserved = false ∧
    (pmm.pages i).zoneNum = zoneNum)
    (beyond : ∀ i, size ≤ i → i < pmm.limit → (pmm.pages i).reserved = true)
      (bounded : size ≤ pmm.limit) : Tiled size pmm := by
  have vacant : ∀ k p, p ∉ pmm.freeList k := fun k p member => not_mem_nil (empty k ▸ member)
  constructor
  case order => exact fun k p member => absurd member (vacant k p)
  case aligned => exact fun k p member => absurd member (vacant k p)
  case inside => exact fun k p member => absurd member (vacant k p)
  case once => exact fun k => (empty k).symm ▸ nodup_nil
  case counted => exact fun k => (zero k).trans (congrArg length (empty k)).symm
  case apart => exact fun k l p q member => absurd member (vacant k p)
  case merged => exact fun k p _ member => absurd member (vacant k p)
  case heads =>
    intro i inside
    rw [(plain i inside).1]
    exact ⟨Bool.noConfusion, fun ⟨k, member⟩ => absurd member (vacant k i)⟩
  case property => exact fun k p member => absurd member (vacant k p)
  case zone => exact ⟨zoneNum, fun i inside => (plain i inside).2⟩
  case beyond => exact beyond
  case bounded => exact bounded

theorem initMemmap_spec {n : Nat} (positive : 0 < n) (first : pmm.zoneCount = 0) (empty : ∀ order, pmm.freeList order = [])
    (zero : ∀ order, pmm.nrFree order = 0) (reserved : ∀ i < pmm.limit,
      (pmm.pages i).reserved = true) (fits : n ≤ pmm.limit) : ∃ after,
      initMemmap pmm n = .ok after ∧ Tiled n after ∧ ∀ i, Free after i ↔ i < n := by
  obtain ⟨pages, ran, cleared, same⟩ := resetPages_spec n 0 fun i _ upper => reserved i (by omega)
  have tiled : Tiled n { pmm with pages, zoneCount := pmm.zoneCount + 1 } := by
    refine tiled_empty pmm.zoneCount empty zero ?_ ?_ fits
    · intro i inside
      dsimp only
      rw [cleared i (Nat.zero_le _) (by omega)]
      exact ⟨rfl, rfl, rfl⟩
    · intro i out limit
      dsimp only
      rw [same i (.inr (by omega))]
      exact reserved i limit
  have carving : Carving n 0 n { pmm with pages, zoneCount := pmm.zoneCount + 1 } :=
    ⟨tiled, fun i => ⟨fun ⟨k, p, member, _⟩ => absurd (empty k ▸ member) not_mem_nil, fun less =>
      absurd less (Nat.not_lt_zero i)⟩, Nat.zero_add n⟩
  obtain ⟨after, finished, carved⟩ := carve_spec maxOrder carving le_rfl (Nat.zero_mod _)
    (fun j _ => empty j) (.inr fun clash => absurd clash (Nat.lt_irrefl _))
  refine ⟨after, ?_, carved.tiled, carved.free⟩
  rwa [initMemmap, ensure_bind, if_pos ⟨positive, by rw [first]; decide⟩, ran]

/-- The state of the allocator as its callers see it. -/
structure Sound (state : State) : Prop where
  /-- A page of the zone is held, or else in exactly one free block. -/
  partition : ∀ i < state.size,
    (state.allocated i = true ∧ ∀ k, ∀ p ∈ state.pmm.freeList k, ¬ (p ≤ i ∧ i < p + 2 ^ k)) ∨
      (state.allocated i = false ∧ ∃ k, ∃ p ∈ state.pmm.freeList k, p ≤ i ∧ i < p + 2 ^ k ∧
        ∀ l, ∀ q ∈ state.pmm.freeList l, q ≤ i ∧ i < q + 2 ^ l → q = p ∧ l = k)
  blocks : ∀ k, ∀ p ∈ state.pmm.freeList k, k ≤ maxOrder ∧ p % 2 ^ k = 0 ∧ p + 2 ^ k ≤ state.size
  heads : ∀ i < state.size, (state.pmm.pages i).head = true ↔ ∃ k, i ∈ state.pmm.freeList k
  property : ∀ k, ∀ p ∈ state.pmm.freeList k, (state.pmm.pages p).property = k
  once : ∀ k, (state.pmm.freeList k).Nodup
  counted : ∀ k, state.pmm.nrFree k = (state.pmm.freeList k).length
  merged : ∀ k < maxOrder, ∀ p ∈ state.pmm.freeList k, p ^^^ 2 ^ k ∉ state.pmm.freeList k

/-- What every call preserves. Before the set-up of the zone its size is zero. -/
structure Valid (state : State) : Prop where
  tiled : Tiled state.size state.pmm
  held : ∀ i, state.allocated i = true ↔ i < state.size ∧ ¬ Free state.pmm i
  fresh : state.size = 0 → state.pmm.zoneCount = 0

theorem Valid.sound (valid : Valid state) : Sound state := by
  have tiled := valid.tiled
  constructor
  case partition =>
    intro i inside
    by_cases free : Free state.pmm i
    · right
      obtain ⟨k, p, member, covered⟩ := free
      refine ⟨?_, k, p, member, covered.1, covered.2, ?_⟩
      · apply Bool.eq_false_iff.mpr
        intro held
        exact ((valid.held i).mp held).2 ⟨k, p, member, covered⟩
      · intro l q listed there
        exact tiled.unique listed member there covered
    · left
      exact ⟨(valid.held i).mpr ⟨inside, free⟩, fun k p member covered => free ⟨k, p, member, covered⟩⟩
  case blocks => exact fun k p member => ⟨tiled.order k p member, tiled.aligned k p member, tiled.inside k p member⟩
  case heads => exact tiled.heads
  case property => exact tiled.property
  case once => exact tiled.once
  case counted => exact tiled.counted
  case merged => exact fun k less p member => tiled.merged k p less member

theorem valid_start (begins : machine.start state) : Valid state := by
  obtain ⟨none, unheld, empty, zero, first, reserved⟩ := begins
  refine ⟨?_, ?_, fun _ => first⟩
  · rw [none]
    exact tiled_empty 0 empty zero (fun i inside => absurd inside (Nat.not_lt_zero i))
      (fun i _ => reserved i) (Nat.zero_le _)
  · intro i
    rw [unheld, none]
    exact ⟨Bool.noConfusion, fun inside => absurd inside.1 (Nat.not_lt_zero i)⟩

theorem Valid.taken {base n : Nat} (valid : Valid state) (allowed : Allowed state (.free base n)) :
    Taken state.size state.pmm ⟨base, base + n⟩ := by
  obtain ⟨positive, _, held⟩ := allowed
  have pages : ∀ i, base ≤ i → i < base + n → i < state.size ∧ ¬ Free state.pmm i := by
    intro i lower upper
    have own := (valid.held (base + (i - base))).mp (held (i - base) (by omega))
    rwa [Nat.add_sub_cancel' lower] at own
  have last := pages (base + n - 1) (by omega) (by omega)
  exact ⟨by dsimp only; omega, fun i covered => (pages i covered.1 covered.2).2⟩

theorem valid_step (state : State) (op : Op) (valid : Valid state) (allowed : Allowed state op) :
    ∃ after output, step state op = .ok (after, output) ∧ Valid after := by
  have tiled := valid.tiled
  cases op with
  | initMemmap n =>
    obtain ⟨none, positive, fits⟩ := allowed
    have empty : ∀ k, state.pmm.freeList k = [] := by
      intro k
      apply eq_nil_iff_forall_not_mem.mpr
      intro p member
      have inside := tiled.inside k p member
      have size := Nat.two_pow_pos k
      omega
    have zero : ∀ k, state.pmm.nrFree k = 0 := fun k => (tiled.counted k).trans (congrArg length (empty k))
    have reserved : ∀ i < state.pmm.limit, (state.pmm.pages i).reserved = true :=
      fun i limit => tiled.beyond i (none ▸ Nat.zero_le i) limit
    obtain ⟨after, ran, tiledAfter, free⟩ := initMemmap_spec positive (valid.fresh none) empty zero reserved fits
    refine ⟨{ state with pmm := after, size := n }, Option.none, ?_, tiledAfter, ?_, fun clash => absurd clash positive.ne'⟩
    · rw [step, ran]
      rfl
    intro i
    rw [valid.held, free, none]
    constructor
    · exact fun held => absurd held.1 (Nat.not_lt_zero i)
    · exact fun held => absurd held.1 held.2
  | alloc n =>
    obtain ⟨positive, small⟩ := allowed
    rcases allocPages_spec tiled positive small with ran | ⟨after, page, ran, allocated⟩
    · refine ⟨state, none, ?_, valid⟩
      rw [step, ran]
      rfl
    have inside := allocated.inside
    dsimp only at inside
    refine ⟨{ state with pmm := after, allocated := mark state.allocated page n true }, some page,
      ?_, allocated.tiled, ?_, ?_⟩
    · rw [step, ran]
      rfl
    · intro i
      dsimp only
      rw [mark, allocated.free]
      split
      · next here => exact ⟨fun _ => ⟨by omega, fun both => both.2 here⟩, fun _ => rfl⟩
      · next here =>
        rw [valid.held]
        have outside : ¬ Span.Covers ⟨page, page + n⟩ i := here
        tauto
    · intro none
      dsimp only at none
      omega
  | free base n =>
    have taken := valid.taken allowed
    obtain ⟨positive, small, _⟩ := allowed
    have inside := taken.1
    dsimp only at inside
    obtain ⟨after, ran, freed⟩ := freePages_spec tiled positive small taken
    refine ⟨{ state with pmm := after, allocated := mark state.allocated base n false }, none, ?_, freed.tiled, ?_, ?_⟩
    · rw [step, ran]
      rfl
    · intro i
      dsimp only
      rw [mark, freed.free]
      split
      · next here => exact ⟨Bool.noConfusion, fun own => absurd (.inr here) own.2⟩
      · next here =>
        rw [valid.held]
        have outside : ¬ Span.Covers ⟨base, base + n⟩ i := here
        tauto
    · intro none
      dsimp only at none
      omega

/-- After every sequence of calls the free lists tile the pages that are not held,
and no assertion of a further call can fail. -/
theorem buddy_tiling_after_every_call : machine.Safe Sound :=
  Machine.safe_of_invariant (fun _ => valid_start) valid_step fun _ => Valid.sound

section
variable {total : Nat} {other : Pmm} {k i l q : Nat}

/-- An aligned block of free pages lies in a block of the lists: two that it consists of would have
been merged. -/
theorem Tiled.whole (tiled : Tiled size pmm) (small : k ≤ maxOrder) (aligned : Aligned p k)
    (free : ∀ i, (block p k).Covers i → Free pmm i) : ∃ l q, k ≤ l ∧ q ∈ pmm.freeList l ∧
    (block q l).Covers p := by
  induction k generalizing p with
  | zero =>
    obtain ⟨l, q, member, covers⟩ := free p (covers_start p 0)
    exact ⟨l, q, Nat.zero_le l, member, covers⟩
  | succ k ih =>
    have half := aligned.mono (Nat.le_succ k)
    have parts : ∀ i, (block p (k + 1)).Covers i ↔ (block p k).Covers i ∨ (block (p + 2 ^ k) k).Covers i := by
      intro i
      have double := Nat.pow_succ' (m := 2) (n := k)
      simp only [covers_block]
      omega
    obtain ⟨l, q, above, member, covers⟩ := ih (Nat.le_of_lt small) half fun i lower => free i ((parts i).mpr (.inl lower))
    obtain ⟨m, r, high, listed, around⟩ := ih (Nat.le_of_lt small) half.next fun i upper =>
      free i ((parts i).mpr (.inr upper))
    rcases Nat.eq_or_lt_of_le above with rfl | larger
    · rcases Nat.eq_or_lt_of_le high with rfl | larger
      · -- Both halves are in the lists.
        obtain rfl := start_unique half (tiled.aligned k q member) (covers_start p k) covers
        obtain rfl := start_unique half.next (tiled.aligned k r listed) (covers_start _ k) around
        rw [← buddy_of_lower aligned] at listed
        exact absurd listed (tiled.merged k p small member)
      · refine ⟨m, r, larger, listed, covers_of_div (tiled.aligned m r listed) larger around ?_⟩
        exact ((covers_iff_div aligned).mp ((parts _).mpr (.inr (covers_start _ k)))).symm
    · exact ⟨l, q, larger, member, covers⟩

theorem Tiled.listed_of_free (first : Tiled size pmm) (second : Tiled total other)
    (same : ∀ i, Free pmm i ↔ Free other i) (member : p ∈ pmm.freeList k) :
    p ∈ other.freeList k := by
  have aligned := first.aligned k p member
  obtain ⟨l, q, above, listed, covers⟩ :=
    second.whole (first.order k p member) aligned fun i inside => (same i).mp ⟨k, p, member, inside⟩
  have wide := second.aligned l q listed
  obtain ⟨m, r, high, again, around⟩ := first.whole (second.order l q listed) wide fun i inside =>
    (same i).mpr ⟨l, q, listed, inside⟩
  -- The block around both of them is the one we started from.
  have back := covers_of_div (first.aligned m r again) high around ((covers_iff_div wide).mp covers)
  obtain ⟨rfl, rfl⟩ := first.unique member again (covers_start p k) back
  obtain rfl := le_antisymm above high
  rwa [start_unique aligned wide (covers_start p k) covers]

theorem Valid.free_iff {s : State} (valid : Valid s) : Free s.pmm i ↔ i < s.size ∧ s.allocated i = false := by
  have held := valid.held i
  have inside : Free s.pmm i → i < s.size := fun ⟨k, p, member, covers⟩ => covers.2.trans_le (valid.tiled.inside k p member)
  rw [← Bool.not_eq_true, held]
  tauto

def SameBlocks (s t : State) : Prop := ∀ k p, p ∈ s.pmm.freeList k ↔ p ∈ t.pmm.freeList k

theorem valid_reached (s : machine.Reached) : Valid s := by
  refine Machine.always_of_invariant (fun _ => valid_start) ?_ (fun _ valid => valid) s s.2
  intro s op after output valid allowed ran
  obtain ⟨_, _, same, kept⟩ := valid_step s op valid allowed
  cases same.symm.trans ran
  exact kept

instance (s : State) (op : Op) : Decidable (machine.allowed s op) := by
  cases op <;> exact inferInstanceAs (Decidable (_ ∧ _))

def freeAll (pieces : List (Nat × Nat)) : List Op := pieces.map fun piece => .free piece.1 piece.2

/-- The pages that are held when pieces have been freed. -/
def heldAfter (pieces : List (Nat × Nat)) (held : Nat → Bool) : Nat → Bool :=
  pieces.foldl (fun held piece => mark held piece.1 piece.2 false) held

theorem replay_freeAll {s t : State} {pieces : List (Nat × Nat)}
    (freed : machine.replay s (freeAll pieces) = some t) : t.size = s.size ∧
    t.allocated = heldAfter pieces s.allocated := by
  induction pieces generalizing s with
  | nil =>
    cases freed
    exact ⟨rfl, rfl⟩
  | cons piece rest ih =>
    rw [freeAll, map_cons, Machine.replay] at freed
    split at freed
    · split at freed
      · next between output ran =>
        obtain ⟨pmm, _, ran⟩ := exists_of_bind ran
        cases ran
        exact ih freed
      · cases freed
    · cases freed

end

/-- Which pages are free decides which blocks are in the lists. So it does not matter in which order
and in which pieces pages are
freed, and when all are free the blocks are those that `buddy_init_memmap` has made. -/
theorem free_blocks_from_free_pages : (∀ (s : machine.Reached) (op : Op), machine.allowed s op → machine.Accepts s op) ∧
    (∀ s t : machine.Reached, (∀ i, Free s.1.pmm i ↔ Free t.1.pmm i) → SameBlocks s t) ∧
    (∀ (s : machine.Reached) (first second : List (Nat × Nat)) (t u : State), machine.replay s (freeAll first) = some t →
      machine.replay s (freeAll second) = some u →
        heldAfter first s.1.allocated = heldAfter second s.1.allocated → SameBlocks t u) ∧
    ∀ (boot fresh : State) (t : machine.Reached), machine.start boot → machine.allowed boot (.initMemmap t.1.size) →
      machine.step boot (.initMemmap t.1.size) = .ok (fresh, none) →
        (∀ i, t.1.allocated i = false) → SameBlocks t fresh := by
  have blocks : ∀ s t : machine.Reached, (∀ i, Free s.1.pmm i ↔ Free t.1.pmm i) → SameBlocks s t := by
    intro s t same k p
    have first := (valid_reached s).tiled
    have second := (valid_reached t).tiled
    exact ⟨first.listed_of_free second same, second.listed_of_free first fun i => (same i).symm⟩
  have held : ∀ s t : machine.Reached, s.1.size = t.1.size → s.1.allocated = t.1.allocated → SameBlocks s t := by
    intro s t size same
    refine blocks s t fun i => ?_
    rw [(valid_reached s).free_iff, (valid_reached t).free_iff, size, same]
  refine ⟨?_, blocks, ?_, ?_⟩
  · intro s op allowed
    obtain ⟨after, page, ran, _⟩ := valid_step s op (valid_reached s) allowed
    exact ⟨after, page, ran⟩
  · intro s first second t u freed again same
    obtain ⟨size, left⟩ := replay_freeAll freed
    obtain ⟨other, right⟩ := replay_freeAll again
    exact held ⟨t, .replay _ s.2 freed⟩ ⟨u, .replay _ s.2 again⟩ (size.trans other.symm)
      (left.trans (same.trans right.symm))
  · intro boot fresh t begins allowed ran none
    obtain ⟨pmm, _, returned⟩ := exists_of_bind ran
    cases returned
    exact held t ⟨_, _, .step (.start begins) allowed ran⟩ rfl (funext fun i => (none i).trans (begins.2.1 i).symm)

theorem getorderFrom_le {k more order : Nat} (fits : n ≤ 2 ^ k) (low : order ≤ k)
    (high : k < order + more) : ∃ found ≤ k, getorderFrom n more order = .ok found := by
  induction more generalizing order with
  | zero => omega
  | succ more ih =>
    rw [getorderFrom]
    split
    · exact ⟨order, low, rfl⟩
    · next large => exact ih (low.lt_of_ne fun same => large (same ▸ fits)) (by omega)

theorem allocFrom_finds (order : Nat) {more cur l : Nat} (low : cur ≤ l) (high : l < cur + more)
    (listed : p ∈ pmm.freeList l) :
    (allocFrom order pmm more cur).2 ≠ none := by
  induction more generalizing cur with
  | zero => omega
  | succ more ih =>
    rw [allocFrom]
    split
    · next empty => exact ih (low.lt_of_ne fun same => by simp [same ▸ empty] at listed) (by omega)
    · exact Option.some_ne_none _

/-- A request is served as soon as some list has a block that is large enough. -/
theorem allocPages_found {l q : Nat} (tiled : Tiled size pmm) (positive : 0 < n) (fits : n ≤ 2 ^ l)
    (listed : q ∈ pmm.freeList l) : ∃ after page, allocPages pmm n = .ok (after, some page) := by
  have last := tiled.order l q listed
  have bound := Nat.pow_le_pow_right Nat.two_pos last
  obtain failed | ⟨after, page, ran, _⟩ := allocPages_spec tiled positive (fits.trans bound)
  · obtain ⟨order, low, found⟩ := getorderFrom_le fits l.zero_le (show l < 0 + (maxOrder + 1) by omega)
    have inRange : l < order + (maxOrder + 1 - order) := by omega
    have finds := allocFrom_finds order low inRange listed
    rw [allocPages, ensure_bind, if_pos positive, getorder, found] at failed
    simp only [bind, Except.bind, allocPagesSub, ensure, if_pos (low.trans last), pure, Except.pure] at failed
    split at failed
    · cases failed
    · injection failed with same
      exact absurd (congrArg Prod.snd same) finds
  · exact ⟨after, page, ran⟩

/-- Memory is not split up in vain: as long as some aligned block of `2 ^ k` pages is not in use,
a request for that many pages or fewer is served. -/
theorem aligned_space_is_served : machine.Always fun s => ∀ n k p, 0 < n → n ≤ 2 ^ k →
    k ≤ maxOrder → Aligned p k → p + 2 ^ k ≤ s.size →
    (∀ i, (block p k).Covers i → s.allocated i = false) → ∃ after page, allocPages s.pmm n = .ok (after, some page) := by
  intro s reachable n k p positive fits small aligned inside unused
  have valid := valid_reached ⟨s, reachable⟩
  have free (i : Nat) (covers : (block p k).Covers i) : Free s.pmm i :=
    valid.free_iff.mpr ⟨covers.2.trans_le inside, unused i covers⟩
  obtain ⟨l, q, above, listed, _⟩ := valid.tiled.whole small aligned free
  exact allocPages_found valid.tiled positive (fits.trans (Nat.pow_le_pow_right Nat.two_pos above)) listed

end Ucore.BuddyPmm
