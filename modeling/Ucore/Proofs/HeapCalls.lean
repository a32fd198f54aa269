import Ucore.Proofs.HeapLayout

/-! Freeing and allocating keep the layout, and the two loops end. `malloc_locked` may ask
the kernel for memory twice, since after the first time it comes to the new `freep` before
it comes to the new block. -/

namespace Ucore.Malloc
open Lib Function Finset List

variable {base : Nat} {owns : Bool → Nat → Prop} {mem mem' : Nat → Header}
    {nodes nodes' taken : Finset Nat} {h : Heap} {a : Nat}
  {b fuel nu p : Nat}

/-- Neighbours of one kind have been merged. -/
def Separate (base : Nat) (mem : Nat → Header) (nodes : Finset Nat) : Prop :=
  ∀ a ∈ nodes, ∀ c ∈ nodes, a ≠ base → (mem a).type = (mem c).type → stop mem a ≠ c

structure Joined (base : Nat) (owns : Bool → Nat → Prop) (mem mem' : Nat → Header)
    (nodes nodes' taken : Finset Nat) (b p : Nat) : Prop where
  layout : Layout base owns mem' nodes' (taken.erase b)
  place : p ∈ nodes'
  separate : Separate base mem nodes → Separate base mem' nodes'
  card : nodes'.card ≤ nodes.card + 1
  lost : ∀ x ∈ nodes, x ∉ nodes' → x = (mem p).ptr ∧ x = stop mem b ∧ (mem x).type = (mem b).type
  others : ∀ x, x ≠ p → x ≠ b → mem' x = mem x
  grows : (mem' p).type = (mem p).type ∧ (mem p).size ≤ (mem' p).size
  arrives : ((mem' p).type = (mem b).type ∧ (mem b).size ≤ (mem' p).size) ∨
    ((mem' p).ptr = b ∧ (mem' b).type = (mem b).type ∧ (mem b).size ≤ (mem' b).size)

theorem upper_type (mem : Nat → Header) (b p : Nat) : (upper mem b p).type = (mem b).type := by
  rw [upper]
  split <;> rfl

def below (mem : Nat → Header) (b p : Nat) : Header :=
  if Below mem b p then { mem p with size := (mem p).size + (upper mem b p).size, ptr := (upper mem b p).ptr }
  else { mem p with ptr := b }

theorem join_mem (apart : b ≠ p) : (join h b p).mem = update (update h.mem b (upper h.mem b p)) p (below h.mem b p) := by
  have written : lower (update h.mem b (upper h.mem b p)) b p = below h.mem b p := by
    have same : Below (update h.mem b (upper h.mem b p)) b p ↔ Below h.mem b p := by
      rw [Below, Below, stop, stop, update_of_ne apart.symm, update_self, upper_type]
    rw [lower, below, update_of_ne apart.symm, update_self]
    by_cases holds : Below h.mem b p
    · rw [if_pos holds, if_pos (same.mpr holds)]
    · rw [if_neg holds, if_neg fun again => holds (same.mp again)]
  show update (update h.mem b (upper h.mem b p)) p (lower (update h.mem b (upper h.mem b p)) b p) = _
  rw [written]

theorem Layout.nearest (layout : Layout base owns mem nodes taken) (used : b ∈ taken) (node : p ∈ nodes)
    (gap : Between p b (mem p).ptr) (member : a ∈ nodes) (other : a ≠ base) :
      (stop mem a = b → a = p) ∧ (stop mem b = a → a = (mem p).ptr) := by
  have held : ∀ {x}, x ∈ nodes → x ∈ nodes ∪ taken := mem_union_left taken
  have heldB := mem_union_right nodes used
  have awayB : b ≠ base := fun same => layout.free layout.anchor used same.symm
  have passes := layout.ring.passes p node a member
  have more := layout.stop_gt (held member) other
  have moreB := layout.stop_gt heldB awayB
  have neighbour := layout.ring.closed p node
  unfold Between at passes gap
  constructor
  · intro ends
    by_contra apart
    have := layout.apart a (held member) p (held node)
    omega
  · intro ends
    by_contra apart
    have := layout.apart b heldB _ (held neighbour)
    omega

def joinNodes (mem : Nat → Header) (nodes : Finset Nat) (b p : Nat) : Finset Nat :=
  let all := if Above mem b p then (insert b nodes).erase (mem p).ptr else insert b nodes
  if Below mem b p then all.erase b else all

theorem mem_joinNodes {x : Nat} : x ∈ joinNodes mem nodes b p ↔ (x = b ∨ x ∈ nodes) ∧
    (Above mem b p → x ≠ (mem p).ptr) ∧ (Below mem b p → x ≠ b) := by
  rw [joinNodes]
  split
  next below =>
    rw [mem_erase]
    split
    next above =>
      rw [mem_erase, mem_insert]
      tauto
    next above =>
      rw [mem_insert]
      tauto
  next below =>
    split
    next above =>
      rw [mem_erase, mem_insert]
      tauto
    next above =>
      rw [mem_insert]
      tauto

section
variable (layout : Layout base owns h.mem nodes taken)
include layout

section
variable (used : b ∈ taken) (node : p ∈ nodes) (gap : Between p b (h.mem p).ptr)
include used node gap

/-- The block is linked, then absorbs the block above it, then is absorbed by the one below it. -/
theorem join_layout : Layout base owns (join h b p).mem (joinNodes h.mem nodes b p)
    (taken.erase b) ∧ (Above h.mem b p → (h.mem p).ptr ≠ p ∧ (h.mem p).ptr ≠ base) ∧
    (Below h.mem b p → p ≠ base) := by
  obtain ⟨mem, freep, brk, vm⟩ := h
  obtain ⟨q, next⟩ := @exists_eq _ ((mem p).ptr)
  have neighbour := next ▸ layout.ring.closed p node
  have apartP : b ≠ p := fun same => layout.free node used same.symm
  have apartQ : b ≠ q := fun same => layout.free neighbour used same.symm
  have awayB : b ≠ base := fun same => layout.free layout.anchor used same.symm
  have several : Above mem b p → q ≠ p ∧ q ≠ base := by
    intro ⟨type, touch⟩
    rw [← next] at type touch
    have away : q ≠ base := by
      intro same
      rw [same, layout.idle.2] at type
      exact layout.ends_not_at_base (mem_union_right nodes used) awayB type (touch.trans same)
    refine ⟨?_, away⟩
    intro alone
    have passes := layout.ring.passes p node base layout.anchor
    simp only [← next] at passes
    unfold Between at passes
    omega
  have lowest : Below mem b p → p ≠ base := by
    intro ⟨_, touch⟩ same
    rw [same, stop, layout.idle.1] at touch
    exact awayB touch.symm
  refine ⟨?_, next ▸ several, lowest⟩
  rw [joinNodes]
  have linked := layout.link used node gap
  rw [← next] at linked ⊢
  have middle : Layout base owns (update (update mem p { mem p with ptr := b }) b (upper mem b p))
    (if Above mem b p then (insert b nodes).erase q else insert b nodes) (taken.erase b) := by
    rw [update_comm apartP] at linked
    by_cases above : Above mem b p
    · have merged := linked.absorb (a := b) (q := q) (mem_insert_self b nodes) (by simp)
        (by rw [stop, update_self]; exact above.2.trans next.symm) (by
          rw [update_self, update_of_ne apartQ.symm, update_of_ne (several above).1]
          exact next ▸ above.1) awayB
      rw [if_pos above, upper, if_pos above, ← next]
      simpa only [update_self, update_idem, update_of_ne apartQ.symm, update_of_ne (several above).1] using merged
    · rwa [if_neg above, upper, if_neg above, ← next]
  have final : (join ⟨mem, freep, brk, vm⟩ b p).mem = update
    (update (update mem p { mem p with ptr := b }) b (upper mem b p)) p (below mem b p) := by
    rw [join_mem apartP, update_comm apartP.symm, update_idem]
  rw [final]
  by_cases below : Below mem b p
  · have inside : p ∈ if Above mem b p then (insert b nodes).erase q else insert b nodes := by
      split
      next above => exact mem_erase.mpr ⟨(several above).1.symm, mem_insert_of_mem node⟩
      next => exact mem_insert_of_mem node
    have merged := middle.absorb (a := p) (q := b) inside
      (by rw [update_of_ne apartP.symm, update_self])
      (by rw [stop, update_of_ne apartP.symm, update_self]; exact below.2)
      (by rw [update_of_ne apartP.symm, update_self, update_self, upper_type]; exact below.1) (lowest below)
    rw [if_pos below, Malloc.below, if_pos below]
    simpa only [update_self, update_of_ne apartP.symm] using merged
  · rwa [if_neg below, Malloc.below, if_neg below, update_comm apartP.symm, update_idem, update_comm apartP]

theorem join_separate (separate : Separate base h.mem nodes) : Separate base (join h b p).mem
    (joinNodes h.mem nodes b p) := by
  obtain ⟨_, highest, lowest⟩ := join_layout layout used node gap
  have apart : b ≠ p := fun same => layout.free node used same.symm
  have awayB : b ≠ base := fun same => layout.free layout.anchor used same.symm
  have here : (join h b p).mem p = below h.mem b p := by rw [join_mem apart, update_self]
  have there : (join h b p).mem b = upper h.mem b p := by rw [join_mem apart, update_of_ne apart, update_self]
  have elsewhere : ∀ x, x ≠ p → x ≠ b → (join h b p).mem x = h.mem x := by
    intro x other away
    rw [join_mem apart, update_of_ne other, update_of_ne away]
  have neighbour := layout.ring.closed p node
  -- The block that `upper` ends with.
  have ends : ∃ a, (a ∈ nodes ∧ a ≠ base ∨ a = b ∧ ¬ Above h.mem b p) ∧
    b + unit * (upper h.mem b p).size = stop h.mem a ∧ (h.mem b).type = (h.mem a).type ∧ a ≠ p := by
    rw [upper]
    split
    next above =>
      refine ⟨_, .inl ⟨neighbour, (highest above).2⟩, ?_, above.1, (highest above).1⟩
      have touch := above.2
      unfold stop at touch ⊢
      rw [mul_add]
      omega
    next above => exact ⟨b, .inr ⟨rfl, above⟩, rfl, rfl, apart⟩
  have origin : ∀ a ∈ joinNodes h.mem nodes b p, a ≠ base → ∃ a', (a' ∈ nodes ∧ a' ≠ base ∨ a' = b ∧ ¬ Above h.mem b p) ∧
      stop (join h b p).mem a = stop h.mem a' ∧ ((join h b p).mem a).type = (h.mem a').type ∧
        (a' = p → ¬ Below h.mem b p) := by
    intro a member other
    obtain ⟨known, _, out⟩ := mem_joinNodes.mp member
    obtain ⟨last, kind, extent, type, different⟩ := ends
    obtain rfl | atP := eq_or_ne a p
    · rw [stop, here, below]
      split
      next below =>
        refine ⟨last, kind, ?_, below.1.trans type, different.elim⟩
        have touch := below.2
        unfold stop at touch
        rw [mul_add]
        omega
      next below => exact ⟨a, .inl ⟨node, other⟩, rfl, rfl, fun _ => below⟩
    · obtain rfl | atB := eq_or_ne a b
      · rw [stop, there]
        exact ⟨last, kind, extent, (upper_type ..).trans type, different.elim⟩
      · rw [stop, elsewhere a atP atB]
        exact ⟨a, .inl ⟨known.resolve_left atB, other⟩, rfl, rfl, atP.elim⟩
  have types : ∀ c, ((join h b p).mem c).type = (h.mem c).type := by
    intro c
    by_cases atP : c = p
    · rw [atP, here, below]
      split <;> rfl
    · by_cases atB : c = b
      · rw [atB, there, upper_type]
      · rw [elsewhere c atP atB]
  intro a first c second other type touch
  obtain ⟨a', kind, extent, same, lone⟩ := origin a first other
  rw [types c, same] at type
  rw [extent] at touch
  obtain ⟨known, _, out⟩ := mem_joinNodes.mp second
  obtain ⟨old, away⟩ | ⟨rfl, notAbove⟩ := kind
  · obtain rfl | present := known
    · obtain rfl := (layout.nearest used node gap old away).1 touch
      exact lone rfl ⟨type, touch⟩
    · exact separate a' old c present away type touch
  · obtain rfl | present := known
    · exact absurd touch (Nat.ne_of_gt (layout.stop_gt (mem_union_right nodes used) awayB))
    by_cases atBase : c = base
    · rw [atBase, layout.idle.2] at type
      exact layout.ends_not_at_base (mem_union_right nodes used) awayB type (touch.trans atBase)
    · obtain rfl := (layout.nearest used node gap present atBase).2 touch
      exact notAbove ⟨type, touch⟩

theorem join_joined : ∃ nodes', Joined base owns h.mem (join h b p).mem nodes nodes' taken b p := by
  have apart : b ≠ p := fun same => layout.free node used same.symm
  have here : (join h b p).mem p = below h.mem b p := by rw [join_mem apart, update_self]
  have there : (join h b p).mem b = upper h.mem b p := by rw [join_mem apart, update_of_ne apart, update_self]
  obtain ⟨laid, highest, lowest⟩ := join_layout layout used node gap
  refine ⟨_, laid, ?_, join_separate layout used node gap, ?_, ?_, ?_, ?_, ?_⟩
  · exact mem_joinNodes.mpr ⟨.inr node, fun above => (highest above).1.symm, fun _ => apart.symm⟩
  · have subset : joinNodes h.mem nodes b p ⊆ insert b nodes := by
      intro x member
      exact mem_insert.mpr (mem_joinNodes.mp member).1
    exact Nat.le_trans (card_le_card subset) (card_insert_le b nodes)
  · intro x member lost
    have different := layout.free member used
    by_contra other
    refine lost (mem_joinNodes.mpr ⟨.inr member, ?_, fun _ => different⟩)
    intro above same
    exact other ⟨same, same.trans above.2.symm, same ▸ above.1.symm⟩
  · intro x other away
    rw [join_mem apart, update_of_ne other, update_of_ne away]
  · rw [here, below]
    split
    · exact ⟨rfl, Nat.le_add_right ..⟩
    · exact ⟨rfl, le_rfl⟩
  · have bigger : (h.mem b).size ≤ (upper h.mem b p).size := by
      rw [upper]
      split
      · exact Nat.le_add_right ..
      · rfl
    rw [here, there, below]
    split
    next below =>
      refine .inl ⟨below.1, ?_⟩
      exact bigger.trans (Nat.le_add_left ..)
    next => exact .inr ⟨rfl, upper_type .., bigger⟩

end

end

theorem findPlace_ends (layout : Layout base owns mem nodes taken) (used : b ∈ taken)
    (start : a ∈ nodes) (enough : nodes.card < fuel) : ∃ p ∈ nodes, findPlace mem b fuel a = .ok p ∧
    Between p b (mem p).ptr := by
  have fresh : b ∉ nodes := fun node => layout.distinct b node used
  have found : ∀ fuel a, a ∈ nodes → Between a b (mem a).ptr → ∃ p ∈ nodes, findPlace mem b
    (fuel + 1) a = .ok p ∧ Between p b (mem p).ptr := by
    intro fuel a node gap
    refine ⟨a, node, ?_, gap⟩
    rw [findPlace]
    split
    · rfl
    next first => rw [if_pos (gap.resolve_left first)]; rfl
  obtain ⟨target, member, gap⟩ := layout.ring.exists_place start fresh
  refine layout.ring.walk (fun fuel a => ∃ p ∈ nodes, findPlace mem b fuel a = .ok p ∧
    Between p b (mem p).ptr) member (fun fuel => found fuel target member gap) ?_ start enough
  intro a node _ fuel later
  by_cases here : Between a b (mem a).ptr
  · exact found fuel a node here
  · obtain ⟨first, second⟩ := not_or.mp here
    rwa [findPlace, if_neg first, if_neg second]

theorem freeLocked_ends (layout : Layout base owns h.mem nodes taken) (used : b ∈ taken)
    (start : h.freep ∈ nodes) (enough : nodes.card < fuel) : ∃ p ∈ nodes, freeLocked fuel h b = .ok
    (join h b p) ∧
      ∃ nodes', Joined base owns h.mem (join h b p).mem nodes nodes' taken b p := by
  obtain ⟨p, node, found, gap⟩ := findPlace_ends layout used start enough
  refine ⟨p, node, ?_, join_joined layout used node gap⟩
  rw [freeLocked, found]
  rfl

/-- The bytes that the kernel has given to the process for a kind of memory. -/
def Vm.Owns (vm : Vm) (type : Bool) (x : Nat) : Prop :=
  if type then ∃ area ∈ vm.shared, area.Covers x else vm.brkStart ≤ x ∧ x < vm.top

structure Room (base : Nat) (vm : Vm) : Prop where
  positive : 0 < base ∧ ∀ area ∈ vm.shared, 0 < area.start
  inside : vm.image ≤ base ∧ base + unit ≤ vm.brkStart
  order : vm.brkStart ≤ vm.top ∧ vm.top ≤ Vmm.userTop
  aligned : vm.top % Vmm.pgSize = 0

theorem Vm.Free.not_owns {vm : Vm} {start stop x : Nat} (free : vm.Free start stop)
    (room : Room base vm) (reached : start ≤ x) (before : x < stop) (type : Bool) :
    ¬ vm.Owns type x := by
  cases type with
  | false =>
    rintro (inside : vm.brkStart ≤ x ∧ x < vm.top)
    have := room.inside
    have := free.1
    omega
  | true =>
    rintro ⟨area, listed, covers⟩
    have := free.2 area listed
    unfold Span.Covers at covers
    omega

structure Ready (base : Nat) (h : Heap) (nodes taken : Finset Nat) : Prop where
  layout : Layout base h.vm.Owns h.mem nodes taken
  separate : Separate base h.mem nodes
  freep : h.freep ∈ nodes
  room : Room base h.vm
  brk : h.brk = 0 ∨ h.brk = h.vm.top

/-- The number of units is not so large that the requests to the kernel wrap around. -/
def Modest (nu : Nat) : Prop := 0 < nu ∧ nu * unit + Vmm.userTop + Vmm.pgSize ≤ 2 ^ 64

/-- No shared area begins in the given number of bytes behind the heap. -/
def Vm.Clear (vm : Vm) (bytes : Nat) : Prop :=
  ∀ area ∈ vm.shared, area.start ≤ vm.top ∨ vm.top + bytes ≤ area.start

/-- A growth by `nu` units, and the page behind it that `do_brk` asks for as well. -/
def growth (nu : Nat) : Nat := nu * unit + 2 * Vmm.pgSize

/-- A block of at least `nu` units from the kernel has been put into the list behind `p`. -/
structure Supplied (base : Nat) (h h' : Heap) (nodes nodes' taken : Finset Nat) (nu : Nat)
    (type : Bool) (last b p : Nat) : Prop where
  ready : Ready base h' nodes' taken
  place : p ∈ nodes
  freep : h'.freep = p
  card : nodes'.card ≤ nodes.card + 1
  lost : ∀ x ∈ nodes, x ∉ nodes' → x = (h.mem p).ptr ∧ x = last ∧ (h.mem x).type = type
  others : ∀ x ∈ nodes ∪ taken, x ≠ p → h'.mem x = h.mem x
  grows : (h'.mem p).type = (h.mem p).type ∧ (h.mem p).size ≤ (h'.mem p).size
  arrives : ((h'.mem p).type = type ∧ nu ≤ (h'.mem p).size) ∨
    ((h'.mem p).ptr = b ∧ (h'.mem b).type = type ∧ nu ≤ (h'.mem b).size)

theorem supply (vm : Vm) (header : Header) (ready : Ready base h nodes taken) (grows : ∀ type x,
    h.vm.Owns type x → vm.Owns type x) (room : Room base vm) (positive : 0 < nu)
    (large : nu ≤ header.size)
    (fresh : ∀ x, b ≤ x → x < b + unit * header.size → vm.Owns header.type x ∧ ∀ type,
      ¬ h.vm.Owns type x) (clear : base + unit ≤ b ∨ b + unit * header.size ≤ base)
      (enough : nodes.card < fuel) :
    ∃ h' p nodes', freeLocked fuel { h with vm, mem := update h.mem b header } b = .ok h' ∧
      h'.brk = h.brk ∧ ∀ brk, brk = vm.top ∨ brk = 0 →
        Supplied base h { h' with brk } nodes nodes' taken nu header.type (b + unit * header.size) b p := by
  have above : ∀ x, vm.Owns false x → base < x := by
    intro x owned
    have start := owned.1
    have := room.inside.2
    unfold unit at this
    omega
  have size : 0 < header.size := by omega
  have acquired := ready.layout.acquire grows above size fresh clear
  have absent : ∀ x ∈ nodes ∪ taken, x ≠ b := by
    intro x member same
    by_cases here : x = base
    · have : b < b + unit * header.size := by
        unfold unit
        omega
      unfold unit at clear
      omega
    · have owned := ready.layout.owned x member here x le_rfl (ready.layout.stop_gt member here)
      exact (fresh x (by omega) (by unfold unit; omega)).2 _ owned
  have old : ∀ x ∈ nodes, update h.mem b header x = h.mem x := by
    intro x member
    exact update_of_ne (absent x (mem_union_left taken member)) ..
  have back := erase_insert fun used => absent b (mem_union_right nodes used) rfl
  obtain ⟨p, node, freed, nodes', joined⟩ :=
    freeLocked_ends (h := { h with vm, mem := update h.mem b header }) acquired
    (mem_insert_self b taken) ready.freep enough
  refine ⟨_, p, nodes', freed, rfl, ?_⟩
  intro brk known
  have separate : Separate base (update h.mem b header) nodes := by
    intro a first c second other type
    rw [old a first, old c second] at type
    rw [stop, old a first]
    exact ready.separate a first c second other type
  have arrives := joined.arrives
  have bigger := joined.grows
  simp only [old p node] at bigger
  simp only [update_self] at arrives
  constructor
  case ready => exact ⟨back ▸ joined.layout, joined.separate separate, joined.place, room, known.symm⟩
  case place => exact node
  case freep => rfl
  case card => exact joined.card
  case lost =>
    intro x member gone
    obtain ⟨next, last, type⟩ := joined.lost x member gone
    simp only [stop, old p node, old x member, update_self] at next last type
    exact ⟨next, last, type⟩
  case others =>
    intro x member away
    have kept := joined.others x away (absent x member)
    exact kept.trans (update_of_ne (absent x member) ..)
  case grows => exact bigger
  case arrives =>
    refine arrives.imp ?_ ?_
    · rintro ⟨type, fits⟩
      exact ⟨type, large.trans fits⟩
    · rintro ⟨next, type, fits⟩
      exact ⟨next, type, large.trans fits⟩

theorem roundUp_eq (small : a + Vmm.pgSize ≤ 2 ^ 64) : Vmm.roundUp a = (a + 4095) / 4096 * 4096 := by
  unfold Vmm.roundUp Vmm.roundDown Vmm.wrap Vmm.pgSize at *
  omega

theorem freeLocked_vm {h' : Heap} {bp : Nat} (freed : freeLocked fuel h bp = .ok h') : h'.vm = h.vm := by
  obtain ⟨p, _, done⟩ := exists_of_bind freed
  cases done
  rfl

structure Asked (base : Nat) (h : Heap) (nodes taken : Finset Nat) (nu : Nat) (type : Bool)
    (answer : Option Nat) (result : Heap × Bool) : Prop where
  refused : result.2 = false → Ready base result.1 nodes taken ∧ result.1.mem = h.mem ∧ result.1.freep = h.freep
  granted : result.2 = true → ∃ nodes' last b p, Supplied base h result.1 nodes nodes' taken nu type last b p ∧
    (type = false → (∀ x ∈ nodes, x ∈ nodes') ∧ result.1.vm.shared = h.vm.shared ∧ h.vm.top ≤ result.1.vm.top ∧
      result.1.vm.top ≤ h.vm.top + growth nu) ∧ (type = true → ∃ mem, answer = some mem ∧
        last = mem + Vmm.roundUp (nu * unit))

section
variable (ready : Ready base h nodes taken) (modest : Modest nu)
include ready modest

theorem morecoreBrkLocked_ends (answer : Option Nat) (clear : h.vm.Clear (growth nu))
    (enough : nodes.card < fuel) : ∃ result, morecoreBrkLocked fuel h nu answer.isSome =
    .ok result ∧ Asked base h nodes taken nu false answer result := by
  obtain ⟨positive, small⟩ := modest
  obtain ⟨_, ⟨_, below⟩, ⟨ordered, bounded⟩, aligned⟩ := ready.room
  have start : (if h.brk = 0 then { h with brk := h.vm.top } else h) = { h with brk := h.vm.top } := by
    obtain fresh | known := ready.brk
    · rw [if_pos fresh]
    · split
      · rfl
      · rw [← known]
  have settled : Ready base { h with brk := h.vm.top } nodes taken := { ready with brk := .inr rfl }
  generalize named : (h.vm.top + nu * unit + 4095) / 4096 * 4096 = newbrk
  have rounded : Vmm.roundUp (Vmm.wrap (h.vm.top + nu * unit)) = newbrk := by
    have unwrapped : Vmm.wrap (h.vm.top + nu * unit) = h.vm.top + nu * unit := by
      unfold Vmm.wrap
      unfold Vmm.pgSize at small
      omega
    rw [unwrapped, roundUp_eq (by omega), ← named]
  have grows : h.vm.top < newbrk ∧ nu * unit ≤ newbrk - h.vm.top ∧ newbrk % Vmm.pgSize = 0 := by
    rw [← named]
    unfold unit at *
    unfold Vmm.pgSize
    omega
  have near : newbrk + Vmm.pgSize ≤ h.vm.top + growth nu := by
    rw [← named, growth]
    unfold Vmm.pgSize
    omega
  -- No area begins in the range, so seeing the one around its start is enough.
  have seen : (∀ area ∈ h.vm.shared, ¬ area.Covers h.vm.top) ↔ h.vm.Free h.vm.top (newbrk + Vmm.pgSize) := by
    rw [Vm.Free, and_iff_right (.inr le_rfl)]
    refine forall₂_congr fun area member => ?_
    have apart := clear area member
    simp only [Span.Covers]
    omega
  have asked : sysBrk h.vm (Vmm.wrap (h.vm.top + nu * unit)) answer.isSome = if answer.isSome ∧
    newbrk ≤ Vmm.userTop ∧ h.vm.Free h.vm.top (newbrk + Vmm.pgSize) then { h.vm with top := newbrk }
    else h.vm := by
    have above : ¬ Vmm.wrap (h.vm.top + nu * unit) < h.vm.brkStart := by
      unfold Vmm.wrap
      unfold Vmm.pgSize at small
      omega
    simp only [sysBrk, if_neg above, rounded, if_neg (not_lt.mpr grows.1.le), seen]
  simp only [morecoreBrkLocked, start, asked]
  split
  next given =>
    obtain ⟨isGranted, fits, free⟩ := given
    have units : (newbrk - h.vm.top) / unit * unit = newbrk - h.vm.top := by
      have := grows.2.2
      unfold unit
      unfold Vmm.pgSize at this aligned
      omega
    have owns : ∀ type x, h.vm.Owns type x → Vm.Owns { h.vm with top := newbrk } type x := by
      intro type x owned
      cases type with
      | false =>
        have inside : h.vm.brkStart ≤ x ∧ x < h.vm.top := owned
        exact (⟨inside.1, by omega⟩ : h.vm.brkStart ≤ x ∧ x < newbrk)
      | true => exact owned
    have fresh : ∀ x, h.vm.top ≤ x → x < h.vm.top + unit * ((newbrk - h.vm.top) / unit) →
      Vm.Owns { h.vm with top := newbrk } false x ∧ ∀ type, ¬ h.vm.Owns type x := by
      intro x reached before
      simp only [mul_comm unit, units] at before
      exact ⟨(⟨by omega, by omega⟩ : h.vm.brkStart ≤ x ∧ x < newbrk), free.not_owns ready.room reached (by omega)⟩
    obtain ⟨h', p, nodes', freed, _, supplied⟩ :=
      supply { h.vm with top := newbrk }
      { h.mem h.vm.top with size := (newbrk - h.vm.top) / unit, type := false } settled owns
      ⟨ready.room.positive, ready.room.inside, ⟨by simp only; omega, fits⟩, grows.2.2⟩ positive (by
        refine (Nat.le_div_iff_mul_le (by decide)).mpr ?_
        exact grows.2.1) fresh (.inl (by omega)) enough
    rw [if_neg (not_le.mpr grows.1)]
    refine ⟨({ h' with brk := newbrk }, true), ?_, ?_⟩
    · simp only [Heap.set]
      rw [freed]
      rfl
    obtain given := supplied newbrk (.inl rfl)
    refine ⟨fun refused => absurd refused.symm Bool.false_ne_true, fun _ => ⟨nodes', _, _, p,
      { given with }, ?_, fun shared => absurd shared Bool.false_ne_true⟩⟩
    have vm : h'.vm = { h.vm with top := newbrk } := freeLocked_vm freed
    refine fun _ => ⟨fun x member => ?_, by rw [vm], by rw [vm]; exact grows.1.le,
      by rw [vm]; exact Nat.le_of_add_right_le near⟩
    by_contra gone
    obtain ⟨_, last, type⟩ := given.lost x member gone
    have private_ := type
    by_cases here : x = base
    · simp only [mul_comm unit, units] at last
      omega
    · have held := mem_union_left taken member
      have owned := ready.layout.owned x held here x le_rfl (ready.layout.stop_gt held here)
      rw [private_] at owned
      have inside : h.vm.brkStart ≤ x ∧ x < h.vm.top := owned
      omega
  next =>
    rw [if_pos le_rfl]
    exact ⟨_, rfl, fun _ => ⟨settled, rfl, rfl⟩, fun more => absurd more Bool.false_ne_true⟩

theorem morecoreShmemLocked_ends (answer : Option Nat) (enough : nodes.card < fuel) : ∃ result,
    morecoreShmemLocked fuel h nu answer = .ok result ∧ Asked base h nodes taken nu true answer
    result := by
  obtain ⟨positive, small⟩ := modest
  obtain ⟨above, ⟨inside, below⟩, ⟨ordered, _⟩, _⟩ := ready.room
  have unwrapped : Vmm.wrap (nu * unit) = nu * unit := by
    unfold Vmm.wrap
    omega
  generalize named : Vmm.roundUp (nu * unit) = size
  have rounded : nu * unit ≤ size ∧ unit * (size / unit) = size := by
    rw [← named, roundUp_eq (by omega)]
    unfold unit
    omega
  rw [morecoreShmemLocked, unwrapped, named]
  cases answer with
  | none => exact ⟨_, rfl, (fun _ => ⟨ready, rfl, rfl⟩), fun more => nomatch more⟩
  | some mem =>
    by_cases given : size ≠ 0 ∧ Vmm.userBase ≤ mem ∧ mem % Vmm.pgSize = 0 ∧
      mem + size ≤ Vmm.userTop ∧ h.vm.Free mem (mem + size)
    · have ⟨_, place, _, _, free, others⟩ := given
      have started : 0 < mem := Nat.lt_of_lt_of_le (by decide) place
      have fresh : ∀ x, mem ≤ x → x < mem + unit * (size / unit) →
        Vm.Owns { h.vm with shared := ⟨mem, mem + size⟩ :: h.vm.shared } true x ∧ ∀ type,
        ¬ h.vm.Owns type x := by
        intro x reached before
        rw [rounded.2] at before
        exact ⟨⟨_, mem_cons_self, reached, before⟩, given.2.2.2.2.not_owns ready.room reached before⟩
      have owns : ∀ type x, h.vm.Owns type x → Vm.Owns { h.vm with shared := ⟨mem, mem + size⟩ :: h.vm.shared } type x := by
        intro type x owned
        cases type with
        | false => exact owned
        | true =>
          obtain ⟨area, listed, covers⟩ : ∃ area ∈ h.vm.shared, area.Covers x := owned
          exact ⟨area, mem_cons_of_mem _ listed, covers⟩
      have room : Room base { h.vm with shared := ⟨mem, mem + size⟩ :: h.vm.shared } :=
        { ready.room with positive := ⟨above.1, forall_mem_cons.mpr ⟨started, above.2⟩⟩ }
      obtain ⟨h', p, nodes', freed, same, supplied⟩ :=
        supply { h.vm with shared := ⟨mem, mem + size⟩ :: h.vm.shared }
        { h.mem mem with size := size / unit, type := true } ready owns room positive
        ((Nat.le_div_iff_mul_le (by decide)).mpr rounded.1) fresh (by simp only [rounded.2]; omega) enough
      have kept : { h' with brk := h.brk } = h' := by rw [← same]
      refine ⟨(h', true), ?_, (fun refused => nomatch refused), fun _ =>
        ⟨nodes', _, mem, p, kept ▸ supplied h.brk ready.brk.symm, ?_, ?_⟩⟩
      · simp only [sysShmem, if_pos given, Heap.set]
        rw [freed]
        rfl
      · exact fun private_ => nomatch private_
      · exact fun _ => ⟨mem, rfl, by rw [rounded.2, ← named]⟩
    · simp only [sysShmem, if_neg given]
      exact ⟨_, rfl, (fun _ => ⟨ready, rfl, rfl⟩), fun more => nomatch more⟩

theorem morecore_ends (type : Bool) (answer : Option Nat) (clear : type = false → h.vm.Clear (growth nu))
    (enough : nodes.card < fuel) :
    ∃ result, morecore fuel h nu type answer = .ok result ∧ Asked base h nodes taken nu type answer result := by
  cases type with
  | false => exact morecoreBrkLocked_ends ready modest answer (clear rfl) enough
  | true => exact morecoreShmemLocked_ends ready modest answer enough

end

end Ucore.Malloc
