import Ucore.Malloc
import Ucore.Lib.AddressRing

/-! How the blocks of the heap lie. Free and taken blocks do not overlap and are in memory of
their kind. The elementary changes are: a block is linked into the list, absorbs its
neighbour, is split, or is cut out of the list. -/

namespace Ucore.Malloc
open Lib Function Finset

/-- The blocks in `nodes` are free, those in `taken` are in use; `owns` says which bytes the
kernel has given for which kind of memory. -/
structure Layout (base : Nat) (owns : Bool → Nat → Prop) (mem : Nat → Header) (nodes taken : Finset Nat) : Prop where
  ring : AddressRing nodes fun a => (mem a).ptr
  anchor : base ∈ nodes
  idle : (mem base).size = 0 ∧ (mem base).type = false
  distinct : ∀ a ∈ nodes, a ∉ taken
  apart : ∀ a ∈ nodes ∪ taken, ∀ b ∈ nodes ∪ taken, a < b → stop mem a ≤ b
  room : ∀ a ∈ nodes ∪ taken, base < a → base + unit ≤ a
  sized : ∀ a ∈ nodes ∪ taken, a ≠ base → 0 < (mem a).size
  owned : ∀ a ∈ nodes ∪ taken, a ≠ base → ∀ x, a ≤ x → x < stop mem a → owns (mem a).type x
  above : ∀ x, owns false x → base < x

variable {base : Nat} {owns : Bool → Nat → Prop} {mem : Nat → Header} {nodes taken : Finset Nat}

namespace Layout

section
variable (layout : Layout base owns mem nodes taken) {a b p : Nat} {mem' : Nat → Header}
include layout

theorem free (node : a ∈ nodes) (used : b ∈ taken) : a ≠ b := fun same => layout.distinct a node (same ▸ used)

theorem stop_gt (held : a ∈ nodes ∪ taken) (other : a ≠ base) : a < stop mem a := by
  have positive := layout.sized a held other
  unfold stop unit
  omega

theorem ends_not_at_base (held : a ∈ nodes ∪ taken) (other : a ≠ base) (type : (mem a).type = false) : stop mem a ≠ base := by
  intro ends
  have more := layout.stop_gt held other
  have := layout.above a (type ▸ layout.owned a held other a le_rfl more)
  omega

/-- Links and membership of the list change, but blocks neither move nor change their kind. -/
theorem relink {nodes' taken' : Finset Nat} (ring : AddressRing nodes' fun a => (mem' a).ptr)
    (blocks : nodes' ∪ taken' = nodes ∪ taken) (same : ∀ a ∈ nodes ∪ taken,
    (mem' a).size = (mem a).size ∧ (mem' a).type = (mem a).type)
    (anchor : base ∈ nodes') (distinct : ∀ a ∈ nodes', a ∉ taken') : Layout base owns mem' nodes' taken' := by
  have held := mem_union_left taken layout.anchor
  have ends : ∀ a ∈ nodes ∪ taken, stop mem' a = stop mem a := by
    intro a member
    rw [stop, stop, (same a member).1]
  constructor
  case ring => exact ring
  case anchor => exact anchor
  case idle =>
    rw [(same base held).1, (same base held).2]
    exact layout.idle
  case distinct => exact distinct
  case apart =>
    rw [blocks]
    intro a first b second order
    rw [ends a first]
    exact layout.apart a first b second order
  case room =>
    rw [blocks]
    exact layout.room
  case sized =>
    rw [blocks]
    intro a member other
    rw [(same a member).1]
    exact layout.sized a member other
  case owned =>
    rw [blocks]
    intro a member other
    rw [ends a member, (same a member).2]
    exact layout.owned a member other
  case above => exact layout.above

theorem link (used : b ∈ taken) (node : p ∈ nodes) (gap : Between p b (mem p).ptr) :
    Layout base owns (update (update mem b { mem b with ptr := (mem p).ptr }) p
    { mem p with ptr := b }) (insert b nodes) (taken.erase b) := by
  apply layout.relink
  · apply (layout.ring.insert node gap).congr
    intro a _
    simp only [update_apply]
    split
    · rfl
    · split <;> rfl
  · rw [insert_union, ← union_insert, insert_erase used]
  · intro a _
    simp only [update_apply]
    split
    next here => simp [here]
    next =>
      split
      next here => simp [here]
      next => simp
  · exact mem_insert_of_mem layout.anchor
  · intro a member again
    obtain ⟨other, used⟩ := mem_erase.mp again
    exact layout.distinct a (mem_of_mem_insert_of_ne member other) used

theorem absorb {q : Nat} (node : a ∈ nodes) (next : (mem a).ptr = q) (touch : stop mem a = q)
    (type : (mem a).type = (mem q).type) (other : a ≠ base) :
    Layout base owns (update mem a
      { mem a with size := (mem a).size + (mem q).size, ptr := (mem q).ptr }) (nodes.erase q)
      taken := by
  have held : ∀ {x}, x ∈ nodes → x ∈ nodes ∪ taken := mem_union_left taken
  have more := layout.stop_gt (held node) other
  have neighbour := next ▸ layout.ring.closed a node
  have away : q ≠ base := by
    intro same
    have private_ : (mem a).type = false := by rw [type, same, layout.idle.2]
    exact layout.ends_not_at_base (held node) other private_ (touch.trans same)
  have ends : ∀ x, x ≠ a → stop
    (update mem a { mem a with size := (mem a).size + (mem q).size, ptr := (mem q).ptr }) x = stop
    mem x := by
    intro x different
    rw [stop, update_of_ne different, stop]
  have longer : stop (update mem a
    { mem a with size := (mem a).size + (mem q).size, ptr := (mem q).ptr }) a = stop mem q := by
    rw [stop, update_self, stop, ← touch, stop]
    ring
  have old : ∀ {x}, x ∈ nodes.erase q ∪ taken → x ∈ nodes ∪ taken := by
    intro x member
    exact union_subset_union_left (erase_subset q nodes) member
  have apart : ∀ {x}, x ∈ nodes.erase q ∪ taken → x ≠ q := by
    intro x member
    rcases mem_union.mp member with node | used
    · exact ne_of_mem_erase node
    · exact fun same => layout.distinct q neighbour (same ▸ used)
  constructor
  case ring =>
    have several : (fun x => (mem x).ptr) a ≠ a := by
      simp only [next]
      omega
    have removed := layout.ring.remove node several
    simp only [next] at removed
    apply removed.congr
    intro x _
    simp only [update_apply]
    split <;> rfl
  case anchor => exact mem_erase.mpr ⟨away.symm, layout.anchor⟩
  case idle =>
    rw [update_of_ne other.symm]
    exact layout.idle
  case distinct => exact fun x member => layout.distinct x (mem_of_mem_erase member)
  case apart =>
    intro x first y second order
    obtain rfl | here := eq_or_ne x a
    · rw [longer]
      have beyond := layout.apart x (held node) y (old second) order
      have different := apart second
      exact layout.apart q (held neighbour) y (old second) (by omega)
    · rw [ends x here]
      exact layout.apart x (old first) y (old second) order
  case room => exact fun x member => layout.room x (old member)
  case sized =>
    intro x member off
    rw [update_apply]
    split
    · exact Nat.add_pos_left (layout.sized a (held node) other) _
    · exact layout.sized x (old member) off
  case owned =>
    intro x member off y reached before
    rw [update_apply]
    split
    · next here =>
      subst here
      rw [longer] at before
      by_cases within : y < q
      · exact layout.owned x (held node) other y reached (touch ▸ within)
      · have mine := layout.owned q (held neighbour) away y (by omega) before
        rwa [← type] at mine
    · next here =>
      rw [ends x here] at before
      exact layout.owned x (old member) off y reached before
  case above => exact layout.above

theorem not_inside (first : a ∈ nodes ∪ taken) (second : b ∈ nodes ∪ taken) (after : a < b) :
    ¬ b < stop mem a := Nat.not_lt.mpr (layout.apart a first b second after)

theorem split {n : Nat} (node : p ∈ nodes) (other : p ≠ base) (some_ : 0 < n) (less : n < (mem p).size) : Layout base owns
      (update (update mem (p + unit * n) ⟨(mem p).ptr, (mem p).size - n, (mem p).type⟩) p
        { mem p with size := n, ptr := p + unit * n }) (insert (p + unit * n) nodes) taken := by
  have held := mem_union_left taken node
  generalize named : p + unit * n = np
  have inside : p < np ∧ np < stop mem p ∧ np + unit * ((mem p).size - n) = stop mem p := by
    rw [← named, stop]
    unfold unit
    omega
  have fresh : ∀ x ∈ nodes ∪ taken, x ≠ np := by
    intro x member same
    exact layout.not_inside held member (same ▸ inside.1) (same ▸ inside.2.1)
  have different := inside.1.ne.symm
  generalize written : update (update mem np ⟨(mem p).ptr, (mem p).size - n, (mem p).type⟩) p
    { mem p with size := n, ptr := np } = mem'
  have size : ∀ x, (mem' x).size = if x = p then n else if x = np then (mem p).size - n else (mem x).size := by
    intro x
    simp only [← written, update_apply]
    split
    · rfl
    · split <;> rfl
  have type : ∀ x, x ≠ np → (mem' x).type = (mem x).type := by
    intro x away
    simp only [← written, update_apply, if_neg away]
    split
    next here => rw [here]
    next => rfl
  have known : ∀ {x}, x ∈ insert np nodes ∪ taken → x ≠ np → x ∈ nodes ∪ taken := by
    intro x member away
    rw [insert_union] at member
    exact mem_of_mem_insert_of_ne member away
  constructor
  case ring =>
    have gap : Between p np (mem p).ptr := by
      by_cases turns : (mem p).ptr ≤ p
      · exact .inr ⟨turns, .inl inside.1⟩
      · have beyond := layout.apart p held _ (mem_union_left taken (layout.ring.closed p node)) (by omega)
        exact .inl ⟨inside.1, by omega⟩
    apply (layout.ring.insert node gap).congr
    intro a _
    simp only [← written, update_apply]
    split
    · rfl
    · split <;> rfl
  case anchor => exact mem_insert_of_mem layout.anchor
  case idle =>
    have away := fresh base (mem_union_left taken layout.anchor)
    rw [size, type base away, if_neg other.symm, if_neg away]
    exact layout.idle
  case distinct =>
    intro a member used
    by_cases here : a = np
    · exact fresh a (mem_union_right nodes used) here
    · exact layout.distinct a (mem_of_mem_insert_of_ne member here) used
  case apart =>
    intro x first y second order
    rw [stop, size]
    by_cases newY : y = np
    · have newX : x ≠ np := by omega
      have old := known first newX
      split
      next here => omega
      next away =>
        by_cases below : x < p
        · have ends := layout.apart x old p held below
          unfold stop at ends
          omega
        · exact absurd (show x < stop mem p by omega) (layout.not_inside held old (by omega))
    · have target := known second newY
      split
      next here =>
        have ends := layout.apart p held y target (by omega)
        omega
      next away =>
        split
        next new =>
          have ends := layout.apart p held y target (by omega)
          omega
        next => exact layout.apart x (known first (by assumption)) y target order
  case room =>
    intro a member behind
    by_cases here : a = np
    · rcases Nat.lt_or_ge base p with above | below
      · have := layout.room p held above
        omega
      · have := layout.apart p held base (mem_union_left taken layout.anchor) (by omega)
        omega
    · exact layout.room a (known member here) behind
  case sized =>
    intro a member away
    rw [size]
    split
    · exact some_
    next =>
      split
      · omega
      next old => exact layout.sized a (known member old) away
  case owned =>
    intro a member away x reached before
    by_cases here : a = np
    · have kind : (mem' a).type = (mem p).type := by rw [← written, here, update_of_ne different, update_self]
      rw [stop, size, if_neg (by omega), if_pos here] at before
      rw [kind]
      exact layout.owned p held other x (by omega) (by omega)
    · rw [type a here]
      rw [stop, size] at before
      split at before
      next same =>
        subst same
        exact layout.owned a held other x reached (by omega)
      next => exact layout.owned a (known member here) away x reached before
  case above => exact layout.above

theorem cut {prevp : Nat} (node : prevp ∈ nodes) (next : (mem prevp).ptr = p) (other : p ≠ base)
    (links : ∀ a ∈ nodes, a ≠ p → (mem' a).ptr = if a = prevp then (mem p).ptr else (mem a).ptr)
    (same : ∀ a ∈ nodes ∪ taken, (mem' a).size = (mem a).size ∧ (mem' a).type = (mem a).type) :
      Layout base owns mem' (nodes.erase p) (insert p taken) := by
  have neighbour := next ▸ layout.ring.closed prevp node
  have several : (fun a => (mem a).ptr) prevp ≠ prevp := by
    intro alone
    have passes := layout.ring.passes prevp node base layout.anchor
    simp only [next] at alone passes
    unfold Between at passes
    omega
  apply layout.relink
  · have removed := layout.ring.remove node several
    simp only [next] at removed
    apply removed.congr
    intro a member
    obtain ⟨away, old⟩ := mem_erase.mp member
    rw [links a old away, update_apply]
  · rw [union_insert, ← insert_union, insert_erase neighbour]
  · exact same
  · exact mem_erase.mpr ⟨other.symm, layout.anchor⟩
  · intro a member used
    obtain ⟨away, old⟩ := mem_erase.mp member
    exact layout.distinct a old (mem_of_mem_insert_of_ne used away)

theorem acquire {owns' : Bool → Nat → Prop} {header : Header} (grows : ∀ type x, owns type x →
    owns' type x) (above : ∀ x, owns' false x → base < x) (positive : 0 < header.size)
    (fresh : ∀ x, b ≤ x → x < b + unit * header.size → owns' header.type x ∧ ∀ type, ¬ owns type x)
      (clear : base + unit ≤ b ∨ b + unit * header.size ≤ base) :
      Layout base owns' (update mem b header) nodes (insert b taken) := by
  have size : b < b + unit * header.size := by
    unfold unit
    omega
  have away : b ≠ base := by
    unfold unit at clear
    omega
  have new : ∀ a ∈ nodes ∪ taken, a ≠ b := by
    intro a member same
    by_cases here : a = base
    · omega
    · exact (fresh b le_rfl size).2 _ (layout.owned a member here b (by omega) (same ▸ layout.stop_gt member here))
  have old : ∀ {a}, a ∈ nodes ∪ insert b taken → a ≠ b → a ∈ nodes ∪ taken := by
    intro a member other
    rw [union_insert] at member
    exact mem_of_mem_insert_of_ne member other
  have ends : ∀ a, a ≠ b → stop (update mem b header) a = stop mem a := by
    intro a other
    rw [stop, update_of_ne other, stop]
  have here : stop (update mem b header) b = b + unit * header.size := by rw [stop, update_self]
  constructor
  case ring =>
    apply layout.ring.congr
    intro a member
    rw [update_of_ne (new a (mem_union_left taken member))]
  case anchor => exact layout.anchor
  case idle =>
    rw [update_of_ne away.symm]
    exact layout.idle
  case distinct =>
    intro a member used
    exact layout.distinct a member (mem_of_mem_insert_of_ne used (new a (mem_union_left taken member)))
  case apart =>
    intro x first y second order
    obtain rfl | newX := eq_or_ne x b
    · have target := old second (by omega)
      by_contra inside
      by_cases same : y = base
      · omega
      · exact (fresh y (by omega) (by omega)).2 _ (layout.owned y target same y le_rfl (layout.stop_gt target same))
    · have source := old first newX
      rw [ends x newX]
      obtain rfl | newY := eq_or_ne y b
      · by_contra inside
        by_cases same : x = base
        · rw [same, stop, layout.idle.1] at inside
          omega
        · exact (fresh y le_rfl size).2 _ (layout.owned x source same y (by omega) (by omega))
      · exact layout.apart x source y (old second newY) order
  case room =>
    intro a member behind
    by_cases same : a = b
    · omega
    · exact layout.room a (old member same) behind
  case sized =>
    intro a member other
    rw [update_apply]
    split
    · exact positive
    next same => exact layout.sized a (old member same) other
  case owned =>
    intro a member other x reached before
    rw [update_apply]
    split
    · next same =>
      subst same
      rw [here] at before
      exact (fresh x reached before).1
    · next same =>
      rw [ends a same] at before
      exact grows _ x (layout.owned a (old member same) other x reached before)
  case above => exact above

end

end Layout

end Ucore.Malloc
