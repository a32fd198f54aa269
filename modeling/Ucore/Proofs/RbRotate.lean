import Ucore.RbTree

/-! Local writes of the red-black tree as local changes of the tree they hold.
Recolouring touches one node; a rotation touches two nodes, the subtree between
them and the link from above. -/

namespace Ucore.RbTree
open Lib.LinkedTree Function List

@[simp] theorem setChild_same (heap : Heap) (p : Ptr) (side : Side) (child : Ptr) :
    setChild heap p side child p = (heap p).withChild side child := update_self ..

variable {p q : Ptr} {side : Side}

section
variable (heap : Heap)
include heap

@[simp] theorem setChild_other (side : Side) (child : Ptr) (different : q ≠ p) :
    setChild heap p side child q = heap q := update_of_ne different ..

@[simp] theorem setParent_same (p parent : Ptr) : setParent heap p parent p = { heap p with parent } := update_self ..

@[simp] theorem setParent_other (parent : Ptr) (different : q ≠ p) :
    setParent heap p parent q = heap q := update_of_ne different ..

@[simp] theorem setRed_same (p : Ptr) (red : Bool) : setRed heap p red p = { heap p with red } := update_self ..

@[simp] theorem setRed_other (red : Bool) (different : q ≠ p) : setRed heap p red q = heap q := update_of_ne different ..

theorem setRed_parent (p q : Ptr) (red : Bool) : (setRed heap p red q).parent = (heap q).parent := by
  obtain rfl | same := eq_or_ne q p
  · rw [setRed_same]
  · rw [setRed_other _ _ same]

theorem setRed_child (p q : Ptr) (red : Bool) (side : Side) : (setRed heap p red q).child side = (heap q).child side := by
  obtain rfl | same := eq_or_ne q p
  · rw [setRed_same, Node.child_mk_red]
  · rw [setRed_other _ _ same]

theorem setRed_idle {red : Bool} (same : (heap p).red = red) : setRed heap p red = heap := by
  subst same
  exact update_eq_self p heap

end

variable {heap : Heap} {nil root : Ptr} {frames : List (Frame Ptr)}

theorem recolor_spec {color : Bool} {near far : Tree Ptr}
    (focus : Focus heap nil root frames (.branch side color near p far)) (red : Bool) :
    Focus (setRed heap p red) nil root frames (.branch side red near p far) ∧ setRed heap p red nil = heap nil := by
  have own : p ∈ (Tree.branch side color near p far).toList := Tree.mem_branch.mpr (.inl rfl)
  have nilSame : setRed heap p red nil = heap nil := setRed_other _ _ (focus.ne_nil own).symm
  have order := Tree.branch_perm side color near p far
  have parts := order.nodup_iff.mp (nodup_append.mp focus.nodup).1
  simp only [nodup_cons, mem_append, not_or] at parts
  obtain ⟨_, up, first, second, below, beside⟩ := linked_branch.mp focus.linked
  refine ⟨focus.replace ?_ ?_ (fun q member _ => setRed_other _ _ fun same =>
    focus.outside own (same ▸ member)) (nilSame ▸ focus.nilBlack) ?_, nilSame⟩
  · refine linked_branch.mpr ⟨by simp, by simpa using up, by simpa using first,
      by simpa using second, below.congr ?_, beside.congr ?_⟩
    · exact fun q member => setRed_other _ _ fun same => parts.1.1 (same ▸ member)
    · exact fun q member => setRed_other _ _ fun same => parts.1.2 (same ▸ member)
  · have here := focus.here
    rw [Tree.ptr_branch] at here ⊢
    rw [setRed_other _ _ (focus.ne_above own).symm, ← here, Node.withChild_child]
  · have reorder := (Tree.branch_perm side red near p far).trans order.symm
    exact (((reorder.append_right (ptrs frames)).cons root).cons nil).nodup_iff.mpr focus.distinct

/-- The node above a position has the position on one side only, so testing
either side first finds the right link. -/
theorem replaceChild_eq {old new : Ptr} {tree : Tree Ptr} (focus : Focus heap nil root frames tree)
    (here : tree.ptr nil = old) (present : old ≠ nil) {other : Heap}
    (same : other (above root frames) = heap (above root frames)) :
    replaceChild other side (above root frames) old new = setChild other (above root frames) (hangs frames) new := by
  subst here
  have near := focus.here
  have far := focus.elsewhere present
  unfold replaceChild
  rw [same]
  rcases Side.eq_or_flip (hangs frames) side with rfl | rfl
  · rw [if_pos near.symm]
  · rw [if_neg (Ne.symm far), Side.flip_flip]

theorem rotateLinks_at {x y up middle : Ptr} {hangs : Side} (far : (heap x).child side.flip = y)
    (near : (heap y).child side = middle)
    (parent : (heap x).parent = up) (replaced : ∀ other : Heap, other up = heap up →
      replaceChild other side up x y = setChild other up hangs y)
    (xy : x ≠ y) (xUp : x ≠ up) (xMiddle : x ≠ middle) (yUp : y ≠ up) (yMiddle : y ≠ middle)
      (upMiddle : up ≠ middle) (nil p : Ptr) : rotateLinks side nil x heap p =
      if p = x then { (heap x).withChild side.flip middle with parent := y } else if p = y then
        ({ heap y with parent := up } : Node Ptr).withChild side x else if p = up then
        (heap p).withChild hangs y
      else if p = middle ∧ p ≠ nil then { heap p with parent := x } else heap p := by
  have above : ((if middle ≠ nil then setParent (setChild heap x side.flip middle) middle x else
    setChild heap x side.flip middle) x).parent = up := by
    split
    · rw [setParent_other _ _ xMiddle, setChild_same, Node.withChild_parent, parent]
    · rw [setChild_same, Node.withChild_parent, parent]
  simp only [rotateLinks, far, near, setChild_other _ _ _ (Ne.symm xy), above, setParent_other _ _ xy]
  rw [replaced]
  all_goals
    simp only [setChild, setParent, ite_apply, update_apply]
    grind

theorem rotate_spec {colorX colorY : Bool} {a b d : Tree Ptr} {x y : Ptr}
    (focus : Focus heap nil root frames (.branch side colorX a x (.branch side colorY b y d))) :
    ∃ after, rotate side ⟨nil, root⟩ x heap = .ok after ∧ after nil = heap nil ∧
      Focus after nil root frames (.branch side colorY (.branch side colorX a x b) y d) := by
  -- Distinctness of everything the rotation touches.
  have order : (Tree.branch side colorX a x (.branch side colorY b y d)).toList.Perm
    (x :: y :: (a.toList ++ b.toList ++ d.toList)) := by
    refine (Tree.branch_perm _ _ _ _ _).trans (List.Perm.cons x ?_)
    refine ((Tree.branch_perm side colorY b y d).append_left a.toList).trans ?_
    rw [append_assoc]
    exact perm_middle
  have parts := order.nodup_iff.mp (nodup_append.mp focus.nodup).1
  simp only [nodup_cons, mem_cons, mem_append, not_or] at parts
  obtain ⟨⟨xy, ⟨xa, xb⟩, xd⟩, ⟨⟨ya, yb⟩, yd⟩, rest⟩ := parts
  obtain ⟨abNodup, dNodup, abd⟩ := nodup_append.mp rest
  obtain ⟨aNodup, bNodup, ab⟩ := nodup_append.mp abNodup
  have member : ∀ p, p = x ∨ p = y ∨ p ∈ a.toList ∨ p ∈ b.toList ∨ p ∈ d.toList →
    p ∈ (Tree.branch side colorX a x (.branch side colorY b y d)).toList := by
    intro p cases
    rw [order.mem_iff]
    simp only [mem_cons, mem_append]
    tauto
  have inner : ∀ p, p = x ∨ p = y ∨ p ∈ a.toList ∨ p ∈ b.toList ∨ p ∈ d.toList → p ≠ nil ∧
    p ≠ above root frames := fun p cases => ⟨focus.ne_nil (member p cases),
    focus.ne_above (member p cases)⟩
  obtain ⟨xNil, xUp⟩ := inner x (by simp)
  obtain ⟨yNil, yUp⟩ := inner y (by simp)
  have xRoot : x ≠ root := fun same => focus.outside (member x (by simp)) (by simp [same])
  obtain ⟨redX, upX, nearX, farX, linkA, linkY⟩ := linked_branch.mp focus.linked
  obtain ⟨redY, upY, nearY, farY, linkB, linkD⟩ := linked_branch.mp linkY
  rw [Tree.ptr_branch] at farX
  -- The subtree in the middle may be absent, and then its parent is not written.
  have topX := Tree.ne_ptr xb xNil
  have topY := Tree.ne_ptr yb yNil
  have topUp : above root frames ≠ b.ptr nil :=
    Tree.ne_ptr (fun inside => (inner _ (by simp [inside])).2 rfl) focus.above_ne_nil
  generalize afterIs : rotateLinks side nil x heap = after
  have written := rotateLinks_at farX nearY upX
    (fun _ => replaceChild_eq focus (Tree.ptr_branch ..) xNil) xy xUp topX yUp topY topUp nil
  rw [afterIs] at written
  have other : ∀ p, p ≠ x → p ≠ y → p ≠ above root frames → p ≠ b.ptr nil ∨ p = nil → after p = heap p := by
    intro p notX notY notUp free
    rw [written, if_neg notX, if_neg notY, if_neg notUp, if_neg (by tauto)]
  have otherTree : ∀ p, p ∈ a.toList ∨ p ∈ d.toList → after p = heap p := by
    intro p inside
    have apart : p ∉ b.toList := inside.elim (fun left both => ab p left p both rfl)
      fun right both => abd p (by simp [both]) p right rfl
    refine other p ?_ ?_ (inner p (by tauto)).2 (.inl (Tree.ne_ptr apart (inner p (by tauto)).1))
    · rintro rfl
      exact inside.elim xa xd
    · rintro rfl
      exact inside.elim ya yd
  have afterNil := other nil (Ne.symm xNil) (Ne.symm yNil) (Ne.symm focus.above_ne_nil) (.inr rfl)
  have outer : ∀ p ∈ root :: ptrs frames, p ≠ above root frames → after p = heap p := by
    intro p elsewhere notUp
    have free : ∀ q, q ∈ (Tree.branch side colorX a x (.branch side colorY b y d)).toList → p ≠ q :=
      fun q inside same => focus.outside inside (same ▸ elsewhere)
    have notTop : p ≠ b.ptr nil :=
      Tree.ne_ptr (fun inside => free p (member p (by simp [inside])) rfl)
      (focus.outer_ne_nil elsewhere)
    exact other p (free x (member x (by simp))) (free y (member y (by simp))) notUp (.inl notTop)
  refine ⟨after, ?_, afterNil, focus.replace ?_ ?_ outer (afterNil ▸ focus.nilBlack) ?_⟩
  · simp only [rotate, ensure_bind, farX, ne_eq, xRoot, xNil, yNil, not_false_eq_true, and_self,
      if_true, afterIs, afterNil, focus.nilBlack]
    rfl
  · rw [linked_branch, linked_branch, written x, written y, if_pos rfl, if_neg (Ne.symm xy), if_pos rfl]
    refine ⟨by simpa using redY, by simp, by simp, by simpa using farY,
      ⟨by simpa using redX, rfl, by rw [Node.child_mk_parent, Node.child_flip_withChild, nearX],
      by rw [Node.child_mk_parent, Node.child_withChild], ?_, ?_⟩, ?_⟩
    · exact linkA.congr fun p inside => otherTree p (.inl inside)
    · refine linkB.reparent bNodup (fun inside => ?_) fun p inside notTop => ?_
      · rw [written, if_neg topX.symm, if_neg topY.symm, if_neg topUp.symm, if_pos ⟨rfl, (inner _ (by simp [inside])).1⟩]
      · exact other p (fun same => xb (same ▸ inside)) (fun same => yb (same ▸ inside))
          (inner p (by simp [inside])).2 (.inl notTop)
    · exact linkD.congr fun p inside => otherTree p (.inr inside)
  · rw [written, if_neg (Ne.symm xUp), if_neg (Ne.symm yUp), if_pos rfl, Tree.ptr_branch]
  · have reorder : (Tree.branch side colorY (.branch side colorX a x b) y d).toList.Perm
      (Tree.branch side colorX a x (.branch side colorY b y d)).toList := by
      refine ((Tree.branch_perm _ _ _ _ _).trans ?_).trans order.symm
      refine List.Perm.trans (List.Perm.cons y ((Tree.branch_perm side colorX a x b).append_right d.toList)) ?_
      exact List.Perm.swap ..
    exact (((reorder.append_right (ptrs frames)).cons root).cons nil).nodup_iff.mpr focus.distinct

end Ucore.RbTree
