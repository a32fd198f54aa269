import Ucore.Proofs.HeapCalls

/-! Runs of the user heap. The loop of `malloc_locked` comes to `freep` at most twice before
it meets a block from the kernel, and it goes on from a block that is still in the list. -/

namespace Ucore.Malloc
open Lib Function List
open Finset (mem_erase mem_union_left mem_union_right)

variable {base : Nat} {nodes taken : Finset Nat} {n : Nat} {type : Bool} {h : Heap} {fuel fuel' : Nat} {s : Process}

structure Carved (base : Nat) (owns : Bool → Nat → Prop) (mem mem' : Nat → Header)
    (taken : Finset Nat) (prevp p n : Nat) (type : Bool)
    (nodes : Finset Nat) : Prop where
  layout : Layout base owns mem' nodes (insert p taken)
  separate : Separate base mem' nodes
  prev : prevp ∈ nodes
  others : ∀ x ∈ taken, mem' x = mem x
  block : (mem' p).type = type ∧ (mem' p).size = n

section
variable {owns : Bool → Nat → Prop} {mem : Nat → Header} {prevp p : Nat} (layout : Layout base owns mem nodes taken)
  (separate : Separate base mem nodes) (node : prevp ∈ nodes) (next : (mem prevp).ptr = p) (other : p ≠ base)
include layout node next other

theorem Layout.prev_ne : prevp ≠ p := by
  intro same
  have passes := layout.ring.passes prevp node base layout.anchor
  unfold Between at passes
  omega

include separate

theorem carved_whole (kind : (mem p).type = type) (whole : (mem p).size = n) :
    Carved base owns mem (update mem prevp { mem prevp with ptr := (mem p).ptr }) taken prevp p n
    type (nodes.erase p) := by
  have apart := layout.prev_ne node next other
  have stays : ∀ a, (update mem prevp { mem prevp with ptr := (mem p).ptr } a).size = (mem a).size ∧
    (update mem prevp { mem prevp with ptr := (mem p).ptr } a).type = (mem a).type := by
    intro a
    rw [update_apply]
    split
    next here => exact here ▸ ⟨rfl, rfl⟩
    next => exact ⟨rfl, rfl⟩
  constructor
  case layout =>
    apply layout.cut node next other
    · intro a _ _
      rw [update_apply]
      split <;> rfl
    · exact fun a _ => stays a
  case separate =>
    intro a first c second off same
    rw [(stays a).2, (stays c).2] at same
    rw [stop, (stays a).1]
    exact separate a (Finset.mem_of_mem_erase first) c (Finset.mem_of_mem_erase second) off same
  case prev => exact mem_erase.mpr ⟨apart, node⟩
  case others => exact fun x used => update_of_ne (fun same => layout.free node used same.symm) ..
  case block =>
    rw [update_of_ne apart.symm]
    exact ⟨kind, whole⟩

theorem carved_part (positive : 0 < n) (kind : (mem p).type = type) (part : n < (mem p).size) :
    Carved base owns mem (update (update (update mem prevp { mem prevp with ptr := p + unit * n })
      (p + unit * n) ⟨(mem p).ptr, (mem p).size - n, type⟩) p { mem p with size := n }) taken prevp
        p n type ((insert (p + unit * n) nodes).erase p) := by
  have apart := layout.prev_ne node next other
  have neighbour := next ▸ layout.ring.closed prevp node
  have held := mem_union_left taken neighbour
  have divided := layout.split neighbour other positive part
  generalize named : p + unit * n = np at divided ⊢
  have inside : p < np ∧ np < stop mem p ∧ np + unit * ((mem p).size - n) = stop mem p := by
    rw [← named, stop]
    unfold unit
    omega
  have fresh : ∀ x ∈ nodes ∪ taken, x ≠ np := fun x member same => layout.not_inside held member
    (same ▸ inside.1) (same ▸ inside.2.1)
  have apartNp := inside.1.ne.symm
  have awayPrev := fresh prevp (mem_union_left taken node)
  generalize written : update (update (update mem prevp { mem prevp with ptr := np }) np
    ⟨(mem p).ptr, (mem p).size - n, type⟩) p { mem p with size := n } = mem'
  have atP : mem' p = { mem p with size := n } := by rw [← written, update_self]
  have atNp : mem' np = ⟨(mem p).ptr, (mem p).size - n, type⟩ := by rw [← written, update_of_ne apartNp, update_self]
  have atPrev : mem' prevp = { mem prevp with ptr := np } := by
    rw [← written, update_of_ne apart, update_of_ne awayPrev, update_self]
  have elsewhere : ∀ x, x ≠ p → x ≠ np → x ≠ prevp → mem' x = mem x := by
    intro x one two three
    rw [← written, update_of_ne one, update_of_ne two, update_of_ne three]
  have stays : ∀ x, x ≠ p → x ≠ np → (mem' x).size = (mem x).size ∧ (mem' x).type = (mem x).type := by
    intro x one two
    by_cases three : x = prevp
    · rw [three, atPrev]
      exact ⟨rfl, rfl⟩
    · rw [elsewhere x one two three]
      exact ⟨rfl, rfl⟩
  constructor
  case layout =>
    apply divided.cut (Finset.mem_insert_of_mem node) _ other
    · intro a member away
      rw [update_self, update_of_ne away]
      by_cases new : a = np
      · rw [new, atNp, if_neg awayPrev.symm, update_self]
      rw [update_of_ne new]
      split
      next here => rw [here, atPrev]
      next off => rw [elsewhere a away new off]
    · intro a member
      by_cases here : a = p
      · rw [here, atP, update_self]
        exact ⟨rfl, rfl⟩
      rw [update_of_ne here]
      by_cases new : a = np
      · rw [new, atNp, update_self]
        exact ⟨rfl, kind.symm⟩
      · rw [update_of_ne new]
        exact stays a here new
    · rw [update_of_ne apart, update_of_ne awayPrev, next]
  case separate =>
    intro a first c second off same touch
    obtain ⟨notA, first⟩ := mem_erase.mp first
    obtain ⟨notC, second⟩ := mem_erase.mp second
    -- The block of the old list that ends where `a` ends.
    obtain ⟨a', old, offBase, ends, kindA⟩ : ∃ a' ∈ nodes, a' ≠ base ∧ stop mem a' = stop mem' a ∧
      (mem a').type = (mem' a).type := by
      by_cases new : a = np
      · refine ⟨p, neighbour, other, ?_, ?_⟩
        · rw [new, ← inside.2.2, stop, atNp]
        · rw [new, atNp, kind]
      · refine ⟨a, Finset.mem_of_mem_insert_of_ne first new, off, ?_, (stays a notA new).2.symm⟩
        rw [stop, stop, (stays a notA new).1]
    by_cases new : c = np
    · have below := layout.apart a' (mem_union_left taken old) p held
      have beyond := layout.apart p held a' (mem_union_left taken old)
      have more := layout.stop_gt (mem_union_left taken old) offBase
      have different : a' ≠ p := by
        intro same
        rw [same] at ends
        omega
      omega
    · rw [(stays c notC new).2, ← kindA] at same
      exact separate a' old c (Finset.mem_of_mem_insert_of_ne second new) offBase same (ends.trans touch)
  case prev => exact mem_erase.mpr ⟨apart, Finset.mem_insert_of_mem node⟩
  case others =>
    intro x used
    exact elsewhere x (fun same => layout.free neighbour used same.symm)
      (fresh x (mem_union_right nodes used)) fun same => layout.free node used same.symm
  case block =>
    rw [atP]
    exact ⟨kind, rfl⟩

end

structure Served (base : Nat) (h : Heap) (taken : Finset Nat) (n : Nat) (type : Bool)
    (result : Heap × Option Nat) : Prop where
  others : ∀ x ∈ taken, result.1.mem x = h.mem x
  refused : result.2 = none → ∃ nodes, Ready base result.1 nodes taken
  given : ∀ ap, result.2 = some ap → ∃ p nodes, ap = p + unit ∧ p ∉ taken ∧ Ready base result.1 nodes (insert p taken) ∧
    (result.1.mem p).type = type ∧ (result.1.mem p).size = n

theorem Served.of_same {h' : Heap} {result : Heap × Option Nat} (served : Served base h' taken n type result)
    (same : ∀ x ∈ taken, h'.mem x = h.mem x) : Served base h taken n type result :=
      { served with others := fun x used => (served.others x used).trans (same x used) }

theorem Ready.fits_off_base (ready : Ready base h nodes taken) (positive : 0 < n) {p : Nat}
    (fits : Fits h.mem n type p) : p ≠ base := by
  intro same
  have large := fits.2
  rw [same, ready.layout.idle.1] at large
  omega

theorem carve_served {prevp p : Nat} (ready : Ready base h nodes taken) (positive : 0 < n) (node : prevp ∈ nodes)
    (next : (h.mem prevp).ptr = p) (fits : Fits h.mem n type p) : Served base h taken n type
      (carve h prevp p n type, some (p + unit)) := by
  have other := ready.fits_off_base positive fits
  have apart := ready.layout.prev_ne node next other
  have neighbour := next ▸ ready.layout.ring.closed prevp node
  obtain ⟨mem', nodes', result, carved⟩ : ∃ mem' nodes',
    carve h prevp p n type = { h with mem := mem', freep := prevp } ∧
    Carved base h.vm.Owns h.mem mem' taken prevp p n type nodes' := by
    by_cases whole : (h.mem p).size = n
    · refine ⟨_, _, ?_, carved_whole ready.layout ready.separate node next other fits.1 whole⟩
      simp only [carve, if_pos whole, Heap.set]
    have part := lt_of_le_of_ne fits.2 (Ne.symm whole)
    refine ⟨_, _, ?_, carved_part ready.layout ready.separate node next other positive fits.1 part⟩
    have apartNp : p ≠ p + unit * n := by
      unfold unit
      omega
    simp only [carve, if_neg whole, Heap.set, update_of_ne apartNp, update_of_ne apart.symm]
  rw [result]
  refine ⟨carved.others, by rintro ⟨⟩, ?_⟩
  intro ap found
  cases found
  exact ⟨p, nodes', rfl, ready.layout.distinct p neighbour, ⟨carved.layout, carved.separate,
    carved.prev, ready.room, ready.brk⟩, carved.block⟩

section
variable {fuel : Nat} {h : Heap} {answers : List (Option Nat)} {steps : Nat}

/-- The loop goes round until a block fits or it comes to `freep`. Where it has gone on from a
block that was merged away, the next block must not fit. -/
theorem scan (extra : Nat) {prevp p : Nat} (ready : Ready base h nodes taken) (positive : 0 < n)
    (arrived : ¬ Fits h.mem n type h.freep → ∀ prevp steps, extra ≤ steps →
      ∃ result, mallocLoop fuel n type (steps + 1) h prevp h.freep answers = .ok result ∧ Served base h taken n type result)
    (node : p ∈ nodes) (linked : Fits h.mem n type p → prevp ∈ nodes ∧ (h.mem prevp).ptr = p)
      (enough : nodes.card + extra < steps) :
    ∃ result, mallocLoop fuel n type steps h prevp p answers = .ok result ∧ Served base h taken n type result := by
  obtain ⟨more, rfl⟩ : ∃ more, steps = more + extra := ⟨steps - extra, by omega⟩
  have taken_ : ∀ more prevp p, Fits h.mem n type p → prevp ∈ nodes ∧ (h.mem prevp).ptr = p →
    ∃ result, mallocLoop fuel n type (more + 1) h prevp p answers = .ok result ∧
    Served base h taken n type result := by
    intro more prevp p fits linked
    rw [mallocLoop, if_pos fits]
    exact ⟨_, rfl, carve_served ready positive linked.1 linked.2 fits⟩
  refine ready.layout.ring.walk (fun more p => ∀ prevp, (Fits h.mem n type p → prevp ∈ nodes ∧ (h.mem prevp).ptr = p) →
    ∃ result, mallocLoop fuel n type (more + extra) h prevp p answers = .ok result ∧
      Served base h taken n type result) ready.freep ?_ ?_ node (by omega) prevp linked
  · intro more prevp linked
    rw [add_right_comm]
    by_cases fits : Fits h.mem n type h.freep
    · exact taken_ _ prevp _ fits (linked fits)
    · exact arrived fits prevp _ (Nat.le_add_left ..)
  · intro p node away more later prevp linked
    rw [add_right_comm]
    by_cases fits : Fits h.mem n type p
    · exact taken_ _ prevp p fits (linked fits)
    · rw [mallocLoop, if_neg fits, if_neg away]
      exact later p fun _ => ⟨node, rfl⟩

section
variable (ready : Ready base h nodes taken)
include ready

theorem found {prevp p : Nat} (positive : 0 < n) (node : prevp ∈ nodes) (next : (h.mem prevp).ptr = p)
    (either : Fits h.mem n type p ∨ Fits h.mem n type h.freep) (enough : nodes.card < steps) :
    ∃ result, mallocLoop fuel n type steps h prevp p answers = .ok result ∧ Served base h taken n type result := by
  obtain fits | fits := either
  · obtain ⟨steps, rfl⟩ : ∃ less, steps = less + 1 := ⟨steps - 1, by omega⟩
    rw [mallocLoop, if_pos fits]
    exact ⟨_, rfl, carve_served ready positive node next fits⟩
  · exact scan 0 ready positive (absurd fits) (next ▸ ready.layout.ring.closed prevp node) (fun _ => ⟨node, next⟩) enough

theorem ask {prevp : Nat} (modest : Modest n) (clear : type = false → h.vm.Clear (growth n))
    (unfit : ¬ Fits h.mem n type h.freep) (enough : nodes.card < fuel)
    (onward : ∀ h' nodes' last b place, Supplied base h h' nodes nodes' taken n type last b place →
      (type = false → (∀ x ∈ nodes, x ∈ nodes') ∧ h'.vm.shared = h.vm.shared ∧
      h.vm.top ≤ h'.vm.top ∧ h'.vm.top ≤ h.vm.top + growth n) →
      (type = true → ∃ mem, answers.head?.getD none = some mem ∧
      last = mem + Vmm.roundUp (n * unit)) →
      ∃ result, mallocLoop fuel n type steps h' h.freep (h'.mem h.freep).ptr answers.tail =
        .ok result ∧ Served base h' taken n type result) :
    ∃ result, mallocLoop fuel n type (steps + 1) h prevp h.freep answers = .ok result ∧
      Served base h taken n type result := by
  obtain ⟨⟨h', more⟩, asked, refused, granted⟩ := morecore_ends ready modest type (answers.head?.getD none) clear enough
  rw [mallocLoop, if_neg unfit, if_pos rfl, asked]
  cases more with
  | false =>
    obtain ⟨still, same, _⟩ := refused rfl
    exact ⟨_, rfl, fun x _ => by rw [same], (fun _ => ⟨nodes, still⟩), fun ap none_ => nomatch none_⟩
  | true =>
    obtain ⟨nodes', last, b, place, supplied, kept, fresh⟩ := granted rfl
    obtain ⟨result, finished, served⟩ := onward h' nodes' last b place supplied kept fresh
    refine ⟨result, finished, served.of_same ?_⟩
    intro x used
    exact supplied.others x (mem_union_right nodes used) fun same => ready.layout.free supplied.place used same.symm

/-- After the second time the loop meets a fitting block. The block it goes on from must still be in
the list. -/
theorem asked_again {h' : Heap} {last b place : Nat} {nodes' : Finset Nat} (positive : 0 < n)
    (near : Fits h.mem n type (h.mem h.freep).ptr)
    (supplied : Supplied base h h' nodes nodes' taken n type last b place)
      (stays : h.freep ∈ nodes') (enough : nodes'.card < steps) :
    ∃ result, mallocLoop fuel n type steps h' h.freep (h'.mem h.freep).ptr answers = .ok result ∧
      Served base h' taken n type result := by
  apply found supplied.ready positive stays rfl _ enough
  by_cases here : h.freep = place
  · rw [supplied.freep]
    obtain large | ⟨next, large⟩ := supplied.arrives
    · exact .inr large
    · rw [here, next]
      exact .inl large
  · have held := mem_union_left taken ready.freep
    rw [supplied.others _ held here]
    left
    by_cases there : (h.mem h.freep).ptr = place
    · rw [there] at near ⊢
      exact ⟨supplied.grows.1.trans near.1, near.2.trans supplied.grows.2⟩
    · have neighbour := ready.layout.ring.closed _ ready.freep
      rwa [Fits, supplied.others _ (mem_union_left taken neighbour) there]

/-- Where the loop goes on after the first time, also when the block it comes from was merged away.
-/
theorem asked_once {h' : Heap} {last b place : Nat} {nodes' : Finset Nat} (positive : 0 < n)
    (unfit : ¬ Fits h.mem n type (h.mem h.freep).ptr)
    (supplied : Supplied base h h' nodes nodes' taken n type last b place) :
    (h'.mem h.freep).ptr ∈ nodes' ∧ (Fits h'.mem n type (h'.mem h.freep).ptr → h.freep ∈ nodes' ∧
      (h'.mem h.freep).ptr = (h'.mem h.freep).ptr) := by
  by_cases stays : h.freep ∈ nodes'
  · exact ⟨supplied.ready.layout.ring.closed _ stays, fun _ => ⟨stays, rfl⟩⟩
  obtain ⟨next, _, _⟩ := supplied.lost _ ready.freep stays
  have notPlace : h.freep ≠ place := fun same => stays (same ▸ supplied.freep ▸ supplied.ready.freep)
  have neighbour := ready.layout.ring.closed _ ready.freep
  rw [supplied.others _ (mem_union_left taken ready.freep) notPlace]
  have several : (h.mem h.freep).ptr ≠ h.freep := by
    intro alone
    exact notPlace (ready.layout.ring.next_injective ready.freep supplied.place (alone.trans next))
  constructor
  · by_contra gone
    exact several ((supplied.lost _ neighbour gone).1.trans next.symm)
  intro fits
  exfalso
  by_cases here : (h.mem h.freep).ptr = place
  -- The list was `freep` and `place`, and one of them is `base`.
  · have atBase : place = base := by
      have forth := ready.layout.ring.passes _ ready.freep base ready.layout.anchor
      have back := ready.layout.ring.passes place supplied.place base ready.layout.anchor
      have away : h.freep ≠ base := fun same => stays (same ▸ supplied.ready.layout.anchor)
      unfold Between at forth back
      omega
    exact supplied.ready.fits_off_base positive fits (here.trans atBase)
  · rw [Fits, supplied.others _ (mem_union_left taken neighbour) here] at fits
    exact unfit fits

theorem mallocLoop_ends (modest : Modest n) (clear : type = false → h.vm.Clear (2 * growth n))
    (elsewhere : type = true → ∀ mem, answers.tail.head?.getD none = some mem →
    mem + Vmm.roundUp (n * unit) ∉ nodes)
    (enough : 3 * nodes.card + 8 < fuel) : ∃ result, mallocLoop fuel n type fuel h h.freep
      (h.mem h.freep).ptr answers = .ok result ∧ Served base h taken n type result := by
  have positive := modest.1
  by_cases fits : Fits h.mem n type (h.mem h.freep).ptr
  · exact found ready positive ready.freep rfl (.inl fits) (by omega)
  refine scan (2 * nodes.card + 6) ready positive ?_ (ready.layout.ring.closed _ ready.freep)
    (fun _ => ⟨ready.freep, rfl⟩) (by omega)
  intro unfit prevp steps left
  have first (private_ : type = false) : h.vm.Clear (growth n) := fun area member => (clear private_ area member).imp_right (by omega)
  refine ask ready modest first unfit (by omega) ?_
  intro h' nodes' last b place supplied grew _
  have second (private_ : type = false) : h'.vm.Clear (growth n) := by
    obtain ⟨_, shared, above, near⟩ := grew private_
    intro area member
    have apart := clear private_ area (shared ▸ member)
    omega
  have grown := supplied.card
  obtain ⟨onward, linked⟩ := asked_once ready positive fits supplied
  obtain large | ⟨next, large⟩ := supplied.arrives
  · rw [← supplied.freep] at large
    exact scan 0 supplied.ready positive (absurd large) onward linked (by omega)
  refine scan (nodes.card + 3) supplied.ready positive ?_ onward linked (by omega)
  intro unfit' prevp' steps' left'
  refine ask supplied.ready modest second unfit' (by omega) ?_
  intro h'' nodes'' last' b' place' again kept fresh
  have grown' := again.card
  refine asked_again supplied.ready positive ?_ again ?_ (by omega)
  · rwa [supplied.freep, next]
  by_contra gone
  cases type with
  | false => exact gone ((kept rfl).1 _ supplied.ready.freep)
  | true =>
    obtain ⟨mem, answered, ends⟩ := fresh rfl
    refine elsewhere rfl mem answered ?_
    rw [← ends, ← (again.lost _ supplied.ready.freep gone).2.1, supplied.freep]
    exact supplied.place

end

end

theorem initList_vm (base : Nat) (h : Heap) : (initList base h).vm = h.vm := by
  rw [initList]
  split <;> rfl

def Listed (base : Nat) (h : Heap) (a : Nat) : Prop :=
  ∃ k, (fun x => ((initList base h).mem x).ptr)^[k] (initList base h).freep = a

/-- Requests are not so large that they wrap around, no shared area begins where `malloc` may have
to let the heap grow (it may ask twice), and when `shmem_malloc` has to ask the kernel a second
time the new area does not end where a free block begins. -/
def Meets (base : Nat) (s : Process) (input : Nat × Op) : Prop :=
  match input.2 with
  | .malloc size type answers => size < 2 ^ 63 ∧ (type = false → s.heap.vm.Clear (2 * growth (unitsFor size))) ∧
      (type = true → ∀ mem, answers.tail.head?.getD none = some mem →
        ¬ Listed base s.heap (mem + Vmm.roundUp (unitsFor size * unit)))
  | _ => True

def Process.used (s : Process) : Finset Nat := (s.live.map Block.addr).toFinset

structure Inv (base : Nat) (s : Process) : Prop where
  idle : s.heap.freep = 0 → s.live = []
  ready : ∃ nodes, Ready base (initList base s.heap) nodes s.used
  nodup : (s.live.map Block.addr).Nodup
  headers : ∀ block ∈ s.live, ((initList base s.heap).mem block.addr).type = block.type ∧
    block.size + unit ≤ unit * ((initList base s.heap).mem block.addr).size

theorem Ready.freep_ne (ready : Ready base h nodes taken) : h.freep ≠ 0 := by
  intro none_
  have room := ready.room
  by_cases here : h.freep = base
  · have := room.positive.1
    omega
  have held := mem_union_left taken ready.freep
  have owned := ready.layout.owned _ held here _ le_rfl (ready.layout.stop_gt held here)
  cases kind : (h.mem h.freep).type with
  | false =>
    rw [kind] at owned
    have := ready.layout.above _ owned
    omega
  | true =>
    rw [kind] at owned
    obtain ⟨area, listed, covers⟩ : ∃ area ∈ h.vm.shared, area.Covers h.freep := owned
    have := room.positive.2 area listed
    unfold Span.Covers at covers
    omega

theorem initList_of_ne (known : h.freep ≠ 0) : initList base h = h := if_neg known

theorem listed (ready : Ready base (initList base h) nodes taken) {a : Nat} (node : a ∈ nodes) : Listed base h a := by
  refine ready.layout.ring.walk (fun _ x => ∃ k, (fun x => ((initList base h).mem x).ptr)^[k] x = a)
    node ?_ ?_ ready.freep (Nat.lt_succ_self _)
  · exact fun _ => ⟨0, rfl⟩
  · intro x _ _ _ ⟨k, reached⟩
    exact ⟨k + 1, reached⟩

theorem Inv.of_ready (ready : Ready base s.heap nodes s.used) (nodup : (s.live.map Block.addr).Nodup)
    (headers : ∀ block ∈ s.live, (s.heap.mem block.addr).type = block.type ∧
      block.size + unit ≤ unit * (s.heap.mem block.addr).size) : Inv base s := by
  have same := show initList base s.heap = s.heap from initList_of_ne ready.freep_ne
  exact ⟨ready.freep_ne.elim, ⟨nodes, same.symm ▸ ready⟩, nodup, same.symm ▸ headers⟩

theorem inv_start (starts : Starts base s) : Inv base s := by
  have first : initList base s.heap = { s.heap.set base { s.heap.mem base with ptr := base, size := 0 } with freep := base } := if_pos starts.freep
  have none_ : s.used = ∅ := by
    rw [Process.used, starts.live]
    rfl
  refine ⟨fun _ => starts.live, ⟨{base}, ?_⟩, by simp [starts.live], by simp [starts.live]⟩
  rw [first, none_]
  have mine : (s.heap.set base { s.heap.mem base with ptr := base, size := 0 }).mem base =
    { s.heap.mem base with ptr := base, size := 0 } := update_self ..
  have alone : ∀ {a}, a ∈ ({base} : Finset Nat) ∪ ∅ → a = base := fun member => by simpa using member
  constructor
  case layout =>
    constructor
    case ring =>
      constructor
      · intro a member
        rw [Finset.mem_singleton.mp member, mine]
        exact Finset.mem_singleton_self base
      · intro a first c second
        rw [Finset.mem_singleton.mp first, Finset.mem_singleton.mp second]
        unfold Between
        omega
    case anchor => exact Finset.mem_singleton_self base
    case idle =>
      rw [mine]
      exact ⟨rfl, starts.type⟩
    case distinct => exact fun _ _ => Finset.notMem_empty _
    case apart =>
      intro a first b second order
      have := alone first
      have := alone second
      omega
    case room =>
      intro a member order
      have := alone member
      omega
    case sized => exact fun a member other => absurd (alone member) other
    case owned => exact fun a member other => absurd (alone member) other
    case above =>
      intro x owned
      have start : s.heap.vm.brkStart ≤ x := owned.1
      have := starts.inside.2
      unfold unit at this
      omega
  case separate => exact fun a member _ _ other => absurd (Finset.mem_singleton.mp member) other
  case freep => exact Finset.mem_singleton_self base
  case room => exact { starts with }
  case brk => exact .inl starts.brk

structure Done (base : Nat) (s : Process) (op : Op) (result : Process × Option Nat) : Prop where
  inv : Inv base result.1
  block : ∀ size type answers ap, op = .malloc size type answers → result.2 = some ap →
    ∃ addr, ap = addr + unit ∧ result.1.live = ⟨addr, size, type⟩ :: s.live

theorem unitsFor_modest {size : Nat} (small : size < 2 ^ 63) : Modest (unitsFor size) ∧
    size + unit ≤ unit * unitsFor size := by
  have unwrapped : Vmm.wrap (size + unit - 1) = size + 63 := by
    unfold Vmm.wrap unit
    omega
  rw [unitsFor, unwrapped, Modest]
  unfold unit Vmm.userTop Vmm.pgSize
  omega

section
variable (inv : Inv base s) (ready : Ready base (initList base s.heap) nodes s.used)
include inv ready

theorem malloc_done {size : Nat} {answers : List (Option Nat)}
    (meets : Meets base s (fuel, .malloc size type answers)) (enough : 3 * nodes.card + 8 < fuel) :
    ∃ result, step base fuel s (.malloc size type answers) = .ok result ∧
      Done base s (.malloc size type answers) result := by
  obtain ⟨modest, covered⟩ := unitsFor_modest meets.1
  obtain ⟨⟨heap, found⟩, finished, served⟩ := mallocLoop_ends ready modest
    (fun private_ => initList_vm base s.heap ▸ meets.2.1 private_)
    (fun shared mem answered node => meets.2.2 shared mem answered (listed ready node)) enough
  have kept : ∀ block ∈ s.live, (heap.mem block.addr).type = block.type ∧ block.size + unit ≤ unit *
    (heap.mem block.addr).size := by
    intro block member
    have used : block.addr ∈ s.used := mem_toFinset.mpr (mem_map_of_mem member)
    rw [served.others _ used]
    exact inv.headers block member
  refine ⟨_, by rw [step, mallocLocked, finished]; rfl, ?_, ?_⟩
  · cases found with
    | none =>
      obtain ⟨nodes', ready'⟩ := served.refused rfl
      exact Inv.of_ready (s := ⟨heap, s.live⟩) ready' inv.nodup kept
    | some ap =>
      obtain ⟨p, nodes', rfl, new, ready', kind, units⟩ := served.given ap rfl
      have more : Process.used ⟨heap, ⟨p, size, type⟩ :: s.live⟩ = insert p s.used := toFinset_cons
      refine Inv.of_ready (s := ⟨heap, ⟨p, size, type⟩ :: s.live⟩) (more ▸ ready') ?_ ?_
      · exact nodup_cons.mpr ⟨fun listed => new (mem_toFinset.mpr listed), inv.nodup⟩
      · refine forall_mem_cons.mpr ⟨⟨kind, ?_⟩, kept⟩
        rwa [units]
  · intro size' type' answers' ap same given
    cases same
    cases given
    obtain ⟨p, _, rfl, _⟩ := served.given _ rfl
    exact ⟨p, rfl, rfl⟩

theorem free_done {block : Block} (member : block ∈ s.live) (enough : nodes.card < fuel) : ∃ result,
    step base fuel s (.free block) = .ok result ∧ Done base s (.free block) result := by
  have known : s.heap.freep ≠ 0 := by
    intro none_
    rw [inv.idle none_] at member
    exact not_mem_nil member
  have headers := inv.headers
  rw [initList_of_ne known] at ready headers
  have used : block.addr ∈ s.used := mem_toFinset.mpr (mem_map_of_mem member)
  obtain ⟨p, node, freed, nodes', joined⟩ := freeLocked_ends ready.layout used ready.freep enough
  have order : (s.live.map Block.addr).Perm (block.addr :: (s.live.erase block).map Block.addr) :=
    (perm_cons_erase member).map Block.addr
  obtain ⟨gone, nodup⟩ := nodup_cons.mp (order.nodup_iff.mp inv.nodup)
  have rest : s.used.erase block.addr = Process.used ⟨join s.heap block.addr p, s.live.erase block⟩ := by
    rw [Process.used, Process.used, toFinset_eq_of_perm _ _ order, toFinset_cons,
      Finset.erase_insert fun listed => gone (mem_toFinset.mp listed)]
  refine ⟨_, by rw [step, freed]; rfl, ?_, (fun _ _ _ _ other => nomatch other)⟩
  refine Inv.of_ready (s := ⟨join s.heap block.addr p, s.live.erase block⟩) ⟨rest ▸ joined.layout,
    joined.separate ready.separate, joined.place, ready.room, ready.brk⟩ nodup ?_
  intro other listed
  have live := mem_of_mem_erase listed
  have different : other.addr ≠ block.addr := fun same => gone (same ▸ mem_map_of_mem listed)
  rw [joined.others _ (fun same => ready.layout.free node (mem_toFinset.mpr (mem_map_of_mem live)) same.symm) different]
  exact headers other live

theorem Inv.apart (block : Block) (live : block ∈ s.live) {a : Nat} (held : a ∈ nodes ∪ s.used)
    (other : a ≠ block.addr) : a + unit ≤ block.addr ∧ stop (initList base s.heap).mem a ≤
    block.addr ∨ block.addr + unit + block.size ≤ a := by
  have mine := mem_union_right nodes (mem_toFinset.mpr (mem_map_of_mem (f := Block.addr) live))
  have size := (inv.headers block live).2
  rcases Nat.lt_or_gt_of_ne other with before | after
  · left
    have ends := ready.layout.apart a held _ mine before
    refine ⟨?_, ends⟩
    by_cases here : a = base
    · exact here ▸ ready.layout.room _ mine (here ▸ before)
    · have := ready.layout.sized a held here
      unfold stop unit at *
      omega
  · right
    have ends := ready.layout.apart _ mine a held after
    unfold stop at ends
    omega

end

theorem Ready.refill {mem : Nat → Header} (ready : Ready base h nodes taken)
    (same : ∀ a ∈ nodes ∪ taken, mem a = h.mem a) : Ready base { h with mem } nodes taken := by
  refine ⟨?_, ?_, ready.freep, ready.room, ready.brk⟩
  · apply ready.layout.relink _ rfl _ ready.layout.anchor ready.layout.distinct
    · apply ready.layout.ring.congr
      intro a member
      simp only [same a (mem_union_left _ member)]
    · intro a held
      simp only [same a held, and_self]
  · intro a first c second other
    simp only [stop, same a (mem_union_left _ first), same c (mem_union_left _ second)]
    exact ready.separate a first c second other

theorem fill_done {mem : Nat → Header} (inv : Inv base s)
    (ready : Ready base (initList base s.heap) nodes s.used) (allowed : Allowed s (.fill mem)) :
    ∃ result, step base fuel s (.fill mem) = .ok result ∧ Done base s (.fill mem) result := by
  refine ⟨_, rfl, ?_, (fun _ _ _ _ other => nomatch other)⟩
  by_cases known : s.heap.freep = 0
  · have same : mem = s.heap.mem := by
      funext a
      refine allowed a ?_
      rw [inv.idle known]
      exact fun _ none_ => nomatch none_
    rwa [same]
  have apart := inv.apart ready
  have headers := inv.headers
  rw [initList_of_ne known] at ready headers
  have same : ∀ a ∈ nodes ∪ s.used, mem a = s.heap.mem a := by
    intro a held
    refine allowed a ?_
    intro block live
    by_cases here : a = block.addr
    · exact .inl (by omega)
    · rcases apart block live held here with before | after
      · exact .inl (by omega)
      · exact .inr after
  refine Inv.of_ready (s := ⟨{ s.heap with mem }, s.live⟩) (ready.refill same) inv.nodup ?_
  intro block live
  have used := mem_union_right nodes (mem_toFinset.mpr (mem_map_of_mem (f := Block.addr) live))
  simp only [same _ used]
  exact headers block live

/-- What the heap promises, with `nodes` for the free blocks: they form one cycle in the order of
their addresses, neighbours of one kind are merged, and live blocks have all their bytes in memory
of their kind and overlap nothing. -/
structure Sound (base : Nat) (s : Process) (nodes : Finset Nat) : Prop where
  cycle : s.heap.freep ∈ nodes ∧ AddressRing nodes fun a => (s.heap.mem a).ptr
  merged : Separate base s.heap.mem nodes
  usable : ∀ block ∈ s.live, ∀ x, block.addr + unit ≤ x → x < block.addr + unit + block.size → s.heap.vm.Owns block.type x
  apart : s.live.Pairwise fun b c => b.addr + unit + b.size ≤ c.addr ∨ c.addr + unit + c.size ≤ b.addr
  free : ∀ a ∈ nodes, ∀ block ∈ s.live,
    a + unit ≤ block.addr ∧ stop s.heap.mem a ≤ block.addr ∨ block.addr + unit + block.size ≤ a

/-- A call ends, and a result other than NULL is a live block of the size and the kind that were
asked for. -/
def Completes (base : Nat) (s : Process) (op : Op) : Prop :=
  ∃ enough, ∀ fuel, enough < fuel → ∃ after result, step base fuel s op = .ok (after, result) ∧
    ∀ size type answers ap, op = .malloc size type answers → result = some ap →
      ∃ addr, ap = addr + unit ∧ after.live = ⟨addr, size, type⟩ :: s.live

theorem Inv.sound (inv : Inv base s) (known : s.heap.freep ≠ 0) : ∃ nodes, Sound base s nodes := by
  obtain ⟨nodes, ready⟩ := inv.ready
  have apart := inv.apart ready
  have headers := inv.headers
  rw [initList_of_ne known] at ready headers
  simp only [initList_of_ne known] at apart
  have held : ∀ {block}, block ∈ s.live → block.addr ∈ nodes ∪ s.used :=
    fun live => mem_union_right nodes (mem_toFinset.mpr (mem_map_of_mem live))
  have off : ∀ {block}, block ∈ s.live → ∀ a ∈ nodes, a ≠ block.addr :=
    fun live a node => ready.layout.free node (mem_toFinset.mpr (mem_map_of_mem live))
  refine ⟨nodes, ⟨ready.freep, ready.layout.ring⟩, ready.separate, ?_, ?_, ?_⟩
  · intro block live x reached before
    obtain ⟨kind, size⟩ := headers block live
    rw [← kind]
    refine ready.layout.owned _ (held live) (off live base ready.layout.anchor).symm x (by omega) ?_
    unfold stop
    omega
  · have distinct := pairwise_map.mp inv.nodup
    refine distinct.imp_of_mem ?_
    intro b c first second different
    rcases apart c second (held first) different with ⟨_, before⟩ | after
    · have := (headers b first).2
      unfold stop at before
      exact .inl (by omega)
    · exact .inr after
  · intro a node block live
    exact apart block live (mem_union_left _ node) (off live a node)

theorem op_done (inv : Inv base s) {op : Op} (allowed : Allowed s op) (meets : ∀ fuel,
    Meets base s (fuel, op)) : ∃ enough, ∀ fuel, enough < fuel → ∃ result,
    step base fuel s op = .ok result ∧ Done base s op result := by
  obtain ⟨nodes, ready⟩ := inv.ready
  cases op with
  | malloc => exact ⟨_, fun fuel enough => malloc_done inv ready (meets fuel) enough⟩
  | free => exact ⟨_, fun fuel enough => free_done inv ready allowed enough⟩
  | fill => exact ⟨0, fun fuel _ => fill_done inv ready allowed⟩

section
variable (more : fuel ≤ fuel')
include more

theorem findPlace_more {mem : Nat → Header} {b p : Nat} : Extends (findPlace mem b fuel p) (findPlace mem b fuel' p) := by
  induction fuel generalizing fuel' p with
  | zero => exact fun v finished => nomatch finished
  | succ fuel ih =>
    obtain ⟨fuel', rfl⟩ : ∃ less, fuel' = less + 1 := ⟨fuel' - 1, by omega⟩
    rw [findPlace, findPlace]
    split
    · exact .refl _
    · split
      · exact .refl _
      · exact ih (by omega)

theorem freeLocked_more {b : Nat} : Extends (freeLocked fuel h b) (freeLocked fuel' h b) :=
  (findPlace_more more).bind fun _ => .refl _

theorem morecore_more {nu : Nat} {answer : Option Nat} : Extends (morecore fuel h nu type answer)
    (morecore fuel' h nu type answer) := by
  rw [morecore, morecore]
  split
  · simp only [morecoreShmemLocked]
    generalize sysShmem h.vm _ answer = given
    cases given with
    | none => exact .refl _
    | some => exact (freeLocked_more more).bind fun _ => .refl _
  · unfold morecoreBrkLocked
    generalize (if h.brk = 0 then { h with brk := h.vm.top } else h) = h
    simp only
    split
    · exact .refl _
    · exact (freeLocked_more more).bind fun _ => .refl _

theorem mallocLoop_more {steps steps' : Nat} (longer : steps ≤ steps') (h : Heap) (prevp p : Nat)
    (answers : List (Option Nat)) :
    Extends (mallocLoop fuel n type steps h prevp p answers) (mallocLoop fuel' n type steps' h prevp p answers) := by
  induction steps generalizing steps' h prevp p answers with
  | zero => exact fun v finished => nomatch finished
  | succ steps ih =>
    obtain ⟨steps', rfl⟩ : ∃ less, steps' = less + 1 := ⟨steps' - 1, by omega⟩
    rw [mallocLoop, mallocLoop]
    split
    · exact .refl _
    split
    · refine (morecore_more more).bind ?_
      intro ⟨h', got⟩
      cases got with
      | false => exact .refl _
      | true => exact ih (Nat.le_of_succ_le_succ longer) _ _ _ _
    · exact ih (Nat.le_of_succ_le_succ longer) _ _ _ _

theorem step_more (op : Op) : Extends (step base fuel s op) (step base fuel' s op) := by
  cases op with
  | malloc => exact (mallocLoop_more more more _ _ _ _).bind fun _ => .refl _
  | free => exact (freeLocked_more more).bind fun _ => .refl _
  | fill => exact .refl _

end

theorem inv_step {after : Process} {input : Nat × Op} {output : Option Nat} (inv : Inv base s)
    (allowed : Allowed s input.2) (meets : Meets base s input)
    (ran : step base input.1 s input.2 = .ok (after, output)) : Inv base after := by
  obtain ⟨enough, ends⟩ := op_done inv allowed fun _ => meets
  obtain ⟨result, finished, done⟩ := ends (max input.1 (enough + 1)) (by omega)
  rw [step_more (Nat.le_max_left input.1 (enough + 1)) input.2 _ ran] at finished
  cases finished
  exact done.inv

/-- As long as the requests stay below 2^63 bytes, the heap does not grow into a shared area, and no
second area of shared memory in one call ends where a free block begins,
the heap is sound and every call ends. -/
theorem heap_sound_when_modest (base : Nat) : ((machine base).restrict (Meets base)).Always fun s =>
    (s.heap.freep ≠ 0 → ∃ nodes, Sound base s nodes) ∧ (s.heap.freep = 0 → s.live = []) ∧
      ∀ op, Allowed s op → (∀ fuel, Meets base s (fuel, op)) → Completes base s op := by
  refine Machine.always_of_invariant (fun _ starts => inv_start starts) ?_ ?_
  · intro s input after output inv allowed executed
    exact inv_step inv allowed.1 allowed.2 executed
  intro s inv
  refine ⟨inv.sound, inv.idle, ?_⟩
  intro op allowed meets
  obtain ⟨enough, ends⟩ := op_done inv allowed meets
  refine ⟨enough, ?_⟩
  intro fuel more
  obtain ⟨⟨after, result⟩, finished, done⟩ := ends fuel more
  exact ⟨after, result, finished, done.block⟩

def freshHeap : Process := ⟨⟨fun _ => ⟨0, 0, false⟩, 0, 0, ⟨0, 4096, 4096, []⟩⟩, []⟩

/-- The number of units wraps around to one, and the block has no bytes for the caller. -/
theorem huge_request_gets_no_bytes : ∃ s, (machine 64).Reachable s ∧ s.heap.freep ≠ 0 ∧ ∀ nodes, ¬ Sound 64 s nodes := by
  have starts : (machine 64).start freshHeap := by
    refine ⟨rfl, rfl, rfl, rfl, ?_, ?_, ?_, rfl⟩ <;> simp [freshHeap, unit, Vmm.userTop]
  have run := (Machine.Run.start starts).next (10, .malloc (2 ^ 64 - 1) false [some 0])
    (by decide : 2 ^ 64 - 1 < 2 ^ 64) rfl
  refine ⟨_, ⟨_, run⟩, by decide, ?_⟩
  intro nodes sound
  have owned := sound.usable ⟨4096, 2 ^ 64 - 1, false⟩ mem_cons_self 8192 (by decide) (by decide)
  exact absurd owned.2 (by decide)

end Ucore.Malloc
