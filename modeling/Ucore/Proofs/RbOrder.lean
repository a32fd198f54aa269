import Ucore.Proofs.RbDelete

/-! The tree over whole runs. Insertion keeps the in-order sequence sorted,
deletion removes one node from it, and the kernel's own checker accepts the
result after every call. -/

namespace Ucore.RbTree
open Lib Lib.LinkedTree List

/-- A comparison that orders the nodes by a total preorder. -/
structure Lawful (compare : Ptr → Ptr → Int) : Prop where
  sign : ∀ a b, compare a b > 0 ↔ compare b a < 0
  trans : ∀ a b c, compare a b ≤ 0 → compare b c ≤ 0 → compare a c ≤ 0

def Sorted (compare : Ptr → Ptr → Int) (nodes : List Ptr) : Prop := nodes.Pairwise fun a b => compare a b ≤ 0

variable {compare : Ptr → Ptr → Int} {heap : Heap} {nil root : Ptr} {frames : List (Frame Ptr)}
    {tree : Tree Ptr} {node : Ptr} {height : Nat} {state : State}

section
variable (lawful : Lawful compare) {a b : Ptr}
include lawful

theorem Lawful.le_of_gt (greater : compare a b > 0) : compare b a ≤ 0 := Int.le_of_lt ((lawful.sign a b).mp greater)

theorem Lawful.ge_of_le (below : compare a b ≤ 0) : compare b a ≥ 0 := by
  apply Int.not_lt.mp
  intro less
  exact absurd ((lawful.sign a b).mpr less) (Int.not_lt.mpr below)

theorem searched_bounds (searched : Searched compare node frames)
    (sorted : Sorted compare (plug frames tree).toList) : (∀ p ∈ lefts frames, compare p node ≤ 0) ∧
    ∀ p ∈ rights frames, compare node p ≤ 0 := by
  induction frames generalizing tree with
  | nil => simp [lefts, rights]
  | cons frame rest ih =>
    obtain ⟨before, later⟩ := ih (fun other member => searched other (by simp [member])) sorted
    have turn := searched frame (by simp)
    obtain ⟨side, color, p, sibling⟩ := frame
    have part : Sorted compare (Frame.fill ⟨side, color, p, sibling⟩ tree).toList := by
      have whole : Sorted compare (plug rest (Frame.fill ⟨side, color, p, sibling⟩ tree)).toList := sorted
      rw [toList_plug] at whole
      exact (pairwise_append.mp (pairwise_append.mp whole).2.1).1
    cases side with
    | left =>
      have greater := turn.mp rfl
      have beside := (pairwise_cons.mp (pairwise_append.mp part).2.1).1
      refine ⟨fun q member => before q (by simpa [lefts] using member), ?_⟩
      intro q member
      simp only [rights, mem_append, mem_cons] at member
      rcases member with (rfl | member) | member
      · exact lawful.le_of_gt greater
      · exact lawful.trans node p q (lawful.le_of_gt greater) (beside q member)
      · exact later q member
    | right =>
      have below : compare p node ≤ 0 := by
        apply Int.not_lt.mp
        intro greater
        exact absurd (turn.mpr greater) (by simp)
      have beside : ∀ q ∈ sibling.toList, compare q p ≤ 0 :=
        fun q member => (pairwise_append.mp part).2.2 q member p (by simp)
      refine ⟨?_, fun q member => later q (by simpa [rights] using member)⟩
      intro q member
      simp only [lefts, mem_append, mem_singleton] at member
      rcases member with member | member | rfl
      · exact before q member
      · exact lawful.trans q p node (beside q member) below
      · exact below

theorem sorted_insert (searched : Searched compare node frames)
    (sorted : Sorted compare (plug frames .leaf).toList) :
    Sorted compare (lefts frames ++ node :: rights frames) := by
  obtain ⟨before, later⟩ := searched_bounds lawful searched sorted
  rw [Sorted, toList_plug, pairwise_append] at sorted
  obtain ⟨first, second, across⟩ := sorted
  refine pairwise_append.mpr ⟨first, pairwise_cons.mpr ⟨later, second⟩, ?_⟩
  intro a memberA b memberB
  rcases mem_cons.mp memberB with rfl | memberB
  · exact before a memberA
  · exact across a memberA b memberB

end

theorem climbLeft_spec (fuel : Nat) (focus : Focus heap nil root frames tree)
    (present : tree.ptr nil ≠ nil) (enough : frames.length < fuel) :
    climbLeft ⟨nil, root⟩ heap fuel (tree.ptr nil) (above root frames) = .ok ((lefts frames).getLast?.getD nil) := by
  induction frames generalizing fuel tree with
  | nil =>
    cases fuel with
    | zero => omega
    | succ =>
      have here : (heap root).left = tree.ptr nil := focus.here
      simp [climbLeft, above, here, lefts, pure, Except.pure]
  | cons frame rest ih =>
    cases fuel with
    | zero => omega
    | succ fuel =>
      obtain ⟨side, color, p, sibling⟩ := frame
      have notRoot : p ≠ root := fun same => focus.root_notMem (by simp [same])
      cases side with
      | left =>
        have here : (heap p).left = tree.ptr nil := focus.here
        have up := focus.around.2.1
        have notNil : p ≠ nil := fun same => focus.nil_notMem (by simp [same])
        have climbed := ih fuel focus.up (by rwa [Frame.fill, Tree.ptr_branch]) (by simpa using enough)
        rw [Frame.fill, Tree.ptr_branch] at climbed
        have same : lefts (⟨.left, color, p, sibling⟩ :: rest) = lefts rest := append_nil _
        rw [above, climbLeft, here, if_pos rfl, if_neg notRoot, up, climbed, same]
      | right =>
        have elsewhere : (heap p).left ≠ tree.ptr nil := focus.elsewhere present
        have same : lefts (⟨.right, color, p, sibling⟩ :: rest) = lefts rest ++ sibling.toList ++
          [p] := (append_assoc _ _ _).symm
        rw [above, climbLeft, if_neg (Ne.symm elsewhere), same, getLast?_concat]
        rfl

theorem predecessor_spec {fuel : Nat} {before later : List Ptr} (holds : Holds heap nil root tree)
    (listed : tree.toList = before ++ node :: later) (enough : tree.toList.length < fuel) :
    predecessor ⟨nil, root⟩ fuel heap node = .ok (before.getLast?.getD nil) := by
  obtain ⟨path, color, left, right, rfl⟩ := exists_position (show node ∈ tree.toList by simp [listed])
  have focus := holds_plug.mp holds
  have split : lefts path ++ left.toList = before := by
    have distinct := (nodup_cons.mp (nodup_cons.mp holds.distinct).2).2
    rw [listed] at distinct
    have alone := nodup_middle.mp distinct
    rw [nodup_cons, mem_append, not_or] at alone
    rw [toList_plug, Tree.branch, Tree.toList, append_assoc, ← append_assoc] at listed
    exact ((append_cons_inj_of_notMem alone.1.1 alone.1.2).mp listed.symm).1.symm
  have short := length_frames_le path (.branch .left color left node right)
  have near : (heap node).left = left.ptr nil := (linked_branch.mp focus.linked).2.2.1
  have up := focus.parent
  have inner : Focus heap nil root (⟨.left, color, node, right⟩ :: path) left := focus.down
  have leftNil := Tree.ptr_eq_nil fun member => inner.nil_notMem (mem_append_left _ member)
  rw [predecessor, near]
  obtain rfl | empty := eq_or_ne left .leaf
  · have notNil : (Tree.branch .left color .leaf node right).ptr nil ≠ nil := by
      rw [Tree.ptr_branch]
      exact fun same => focus.nil_notMem (by simp [same, Tree.branch, Tree.toList])
    have climbed := climbLeft_spec fuel focus notNil (by omega)
    rw [Tree.ptr_branch] at climbed
    rw [if_neg (by simp), up, climbed, ← split, Tree.toList, append_nil]
  · have size : left.toList.length ≤ fuel := by
      rw [listed, ← split] at enough
      simp only [length_append, length_cons] at enough
      omega
    obtain ⟨inside, other, y, below, ran, shape, turns⟩ := extreme_spec .right fuel inner empty size
    have last : left.toList = lefts inside ++ below.toList ++ [y] := by
      rw [shape, toList_plug, rights_of_right turns, append_nil, append_assoc]
      rfl
    rw [if_pos fun same => empty (leftNil.mp same), ran, ← split, last, ← append_assoc, getLast?_concat]
    rfl

theorem checkTree_spec (lawful : Lawful compare) (fuel : Nat) {color : Bool}
    (focus : Focus heap nil root frames tree) (balanced : Balanced color height tree)
    (sorted : Sorted compare tree.toList) (enough : tree.toList.length < fuel) :
      checkTree compare ⟨nil, root⟩ heap fuel (tree.ptr nil) = .ok (height + 1) := by
  induction fuel generalizing frames tree color height with
  | zero => omega
  | succ fuel ih =>
    cases tree with
    | leaf =>
      cases balanced
      simp [checkTree, ensure, focus.nilBlack, bind, Except.bind, pure, Except.pure]
    | node red left p right =>
      have present : p ≠ nil := fun same => focus.nil_notMem (by simp [same, Tree.toList])
      have atLeft : Focus heap nil root (⟨.left, red, p, right⟩ :: frames) left := focus.refocus rfl
      have atRight : Focus heap nil root (⟨.right, red, p, left⟩ :: frames) right := focus.refocus rfl
      obtain ⟨color, _, near, far, _, _⟩ := focus.linked
      simp only [Tree.toList, length_append, length_cons] at enough
      obtain ⟨sortedLeft, sortedRest, across⟩ := pairwise_append.mp sorted
      obtain ⟨above, sortedRight⟩ := pairwise_cons.mp sortedRest
      have orderLeft : left.ptr nil ≠ nil → compare p (left.ptr nil) ≥ 0 :=
        fun here => lawful.ge_of_le (across _ (Tree.ptr_mem here) p (by simp))
      have orderRight : right.ptr nil ≠ nil → compare p (right.ptr nil) ≤ 0 := fun here => above _ (Tree.ptr_mem here)
      have parentLeft : left.ptr nil ≠ nil → (heap (left.ptr nil)).parent = p := by
        cases left with
        | leaf => exact absurd rfl
        | node => exact fun _ => atLeft.linked.2.1
      have parentRight : right.ptr nil ≠ nil → (heap (right.ptr nil)).parent = p := by
        cases right with
        | leaf => exact absurd rfl
        | node => exact fun _ => atRight.linked.2.1
      have redLeft := atLeft.red_ptr
      have redRight := atRight.red_ptr
      rw [Tree.ptr, checkTree, if_neg present]
      simp only [near, far, ensure_bind]
      rw [if_pos orderLeft, if_pos parentLeft, if_pos orderRight, if_pos parentRight]
      cases balanced with
      | red first second =>
        rw [if_pos fun _ => ⟨redLeft.trans first.color, redRight.trans second.color⟩,
          ih atLeft first sortedLeft (by omega), ih atRight second sortedRight (by omega)]
        simp [bind, Except.bind, color, pure, Except.pure]
      | black first second =>
        rw [if_pos fun clash => Bool.noConfusion (color.symm.trans clash),
          ih atLeft first sortedLeft (by omega), ih atRight second sortedRight (by omega)]
        simp [bind, Except.bind, color, pure, Except.pure]

/-- The memory holds a sorted red-black tree of exactly the inserted and not
deleted nodes, and the kernel's checker agrees. -/
structure WellFormed (compare : Ptr → Ptr → Int) (state : State) : Prop where
  tree : ∃ tree height, Holds state.heap state.tree.nil state.tree.root tree ∧ Balanced false height tree ∧
    Sorted compare tree.toList ∧ tree.toList.Perm state.nodes ∧
    checkTree compare state.tree state.heap (state.nodes.length + 1) (state.heap state.tree.root).left = .ok (height + 1)

theorem WellFormed.of_holds (lawful : Lawful compare)
    (holds : Holds state.heap state.tree.nil state.tree.root tree)
    (balanced : Balanced false height tree)
    (sorted : Sorted compare tree.toList) (same : tree.toList.Perm state.nodes) : WellFormed compare state := by
  refine ⟨tree, height, holds, balanced, sorted, same, ?_⟩
  have focus : Focus state.heap state.tree.nil state.tree.root [] tree := holds_plug.mp holds
  rw [holds.top]
  exact checkTree_spec lawful _ focus balanced sorted (by rw [same.length_eq]; omega)

theorem holds_create (different : nil ≠ root) : Holds (treeCreate heap nil root) nil root .leaf := by
  refine ⟨trivial, ?_, ?_, ?_, ?_, ?_⟩
  · simp [treeCreate]
  · simp [treeCreate]
  · simp [treeCreate, different]
  · simp [treeCreate]
  · simp [Tree.toList, different]

theorem wellFormed_start (lawful : Lawful compare) (begins : (machine compare).start state) : WellFormed compare state := by
  obtain ⟨different, empty, heap, created⟩ := begins
  have holds := created ▸ holds_create different
  exact .of_holds lawful holds .leaf .nil (empty ▸ .nil)

theorem wellFormed_step (lawful : Lawful compare) (state : State) (op : Op)
    (formed : WellFormed compare state) (allowed : Allowed state op) : ∃ after output,
    step compare state op = .ok (after, output) ∧ WellFormed compare after := by
  obtain ⟨tree, height, holds, balanced, sorted, same, _⟩ := formed.tree
  have size := same.length_eq
  cases op with
  | insert node =>
    obtain ⟨notNil, notRoot, absent⟩ := allowed
    have fresh : node ∉ state.tree.nil :: state.tree.root :: tree.toList := by
      simp only [mem_cons, not_or]
      exact ⟨notNil, notRoot, fun member => absent (same.mem_iff.mp member)⟩
    obtain ⟨after, final, found, total, ran, held, whole, rfl, searched, order⟩ :=
      insert_spec compare holds balanced fresh (show _ < state.nodes.length + 2 by omega)
    refine ⟨{ state with heap := after, nodes := node :: state.nodes }, (), ?_, ?_⟩
    · simp only [step, ran, bind, Except.bind]
      rfl
    refine .of_holds lawful held whole (by rw [order]; exact sorted_insert lawful searched sorted) ?_
    rw [order]
    refine perm_middle.trans (List.Perm.cons node ?_)
    rwa [toList_plug] at same
  | delete node =>
    have present := same.mem_iff.mpr allowed
    obtain ⟨after, final, total, before, later, ran, held, whole, listed, order⟩ :=
      delete_spec holds balanced present (show _ < state.nodes.length + 2 by omega)
    refine ⟨{ state with heap := after, nodes := state.nodes.erase node }, (), ?_, ?_⟩
    · simp only [step, ran, bind, Except.bind]
      rfl
    rw [listed] at sorted same
    refine .of_holds lawful held whole ?_ ?_
    · rw [order]
      exact sorted.sublist (List.Sublist.append (.refl before) (sublist_cons_self node later))
    · rw [order]
      have shifted := (perm_middle.symm.trans same).erase node
      rwa [erase_cons_head] at shifted

/-- After every sequence of insertions and deletions the tree satisfies the
checker, and no rotation or other assertion of a further call can fail. -/
theorem red_black_after_every_call (lawful : Lawful compare) : (machine compare).Safe (WellFormed compare) :=
  Machine.safe_of_invariant (fun _ begins => wellFormed_start lawful begins) (wellFormed_step lawful) fun _ formed => formed

theorem red_black_by_address : ∃ state, (machine fun a b => a - b).Reachable state ∧
    state.nodes = [2] ∧ WellFormed (fun a b => a - b) state := by
  have lawful : Lawful fun a b => (a : Int) - b := ⟨fun a b => by omega, fun a b c first second => by omega⟩
  have created : (machine fun a b => a - b).Run [] ⟨treeCreate (fun _ => ⟨false, 0, 0, 0⟩) 0 1,
    ⟨0, 1⟩, []⟩ := .start ⟨by decide, rfl, _, rfl⟩
  have first := created.next (.insert 3) ⟨by decide, by decide, by decide⟩ rfl
  have second := first.next (.insert 2) ⟨by decide, by decide, by decide⟩ rfl
  have third := second.next (.delete 3) (show 3 ∈ [2, 3] by decide) rfl
  exact ⟨_, ⟨_, third⟩, rfl, (red_black_after_every_call lawful _ ⟨_, third⟩).1⟩

end Ucore.RbTree
