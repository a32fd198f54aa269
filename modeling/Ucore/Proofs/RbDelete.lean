import Ucore.Proofs.RbInsert

/-! Deletion. A node with at most one child is unlinked; its successor may take
its place first. If a black node is gone, the repair loop moves the missing black
up until a red node or a rotation can supply it. The sentinel `nil` may be the
node under repair, so its parent link is tracked like any other. -/

namespace Ucore.RbTree
open Lib.LinkedTree List Function

variable {heap : Heap} {nil root : Ptr} {frames : List (Frame Ptr)} {accepts color : Bool}
    {height : Nat} {p : Ptr} {view : Side} {near far : Tree Ptr} {w : Ptr}
  {top y : Ptr} {sibling : Tree Ptr}
  {side : Side} {tree : Tree Ptr}

/-- The parent link of a position is right even when the position is empty. -/
def Hung (heap : Heap) (nil root : Ptr) (frames : List (Frame Ptr)) (tree : Tree Ptr) : Prop :=
  (heap (tree.ptr nil)).parent = above root frames

theorem splice_spec (focus : Focus heap nil root frames (.branch view color .leaf y tree)) :
    let after := replaceChild (setParent heap (tree.ptr nil) (above root frames)) .left (above root frames) y (tree.ptr nil)
    Focus after nil root frames tree ∧ Hung after nil root frames tree ∧ after y = heap y := by
  obtain ⟨_, _, _, _, _, below⟩ := linked_branch.mp focus.linked
  have own : y ∈ (Tree.branch view color .leaf y tree).toList := Tree.mem_branch.mpr (.inl rfl)
  have parts := (Tree.branch_perm view color .leaf y tree).nodup_iff.mp (nodup_append.mp focus.nodup).1
  simp only [Tree.toList, nil_append, nodup_cons] at parts
  have yNil := focus.ne_nil own
  have inside : ∀ p ∈ tree.toList, p ∈ (Tree.branch view color .leaf y tree).toList :=
    fun p member => Tree.mem_branch.mpr (.inr (.inr member))
  have upTop := Tree.ne_ptr (fun member => focus.above_notMem (inside _ member)) focus.above_ne_nil
  have replaced : replaceChild (setParent heap (tree.ptr nil) (above root frames)) .left
    (above root frames) y (tree.ptr nil) = _ := replaceChild_eq focus (Tree.ptr_branch ..) yNil
    (setParent_other _ _ upTop)
  generalize afterIs : setChild (setParent heap (tree.ptr nil) (above root frames))
    (above root frames) (hangs frames) (tree.ptr nil) = after
  rw [replaced, afterIs]
  have written : ∀ p, after p = if p = above root frames then (heap p).withChild (hangs frames)
    (tree.ptr nil) else if p = tree.ptr nil then { heap p with parent := above root frames } else
    heap p := by
    intro p
    simp only [← afterIs, setChild, setParent, update_apply, if_neg upTop]
    grind
  have afterTop : after (tree.ptr nil) = { heap (tree.ptr nil) with parent := above root frames }
    := by rw [written, if_neg (Ne.symm upTop), if_pos rfl]
  have other : ∀ p, p ≠ tree.ptr nil → p ≠ above root frames → after p = heap p := by
    intro p notTop notUp
    rw [written, if_neg notUp, if_neg notTop]
  have outer : ∀ p ∈ root :: ptrs frames, p ≠ above root frames → after p = heap p :=
    fun p member => other p (Tree.ne_ptr (fun clash => focus.outside (inside p clash) member)
    (focus.outer_ne_nil member))
  refine ⟨focus.replace ?_ (by rw [written, if_pos rfl]) outer ?_ ?_, by rw [Hung, afterTop],
    other y (Tree.ne_ptr parts.1 yNil) (focus.ne_above own)⟩
  · exact below.reparent parts.2 (fun _ => afterTop) fun p member notTop =>
      other p notTop (focus.ne_above (inside p member))
  · rw [written, if_neg focus.above_ne_nil.symm]
    split <;> exact focus.nilBlack
  · have order := (((Tree.branch_perm view color .leaf y tree).append_right (ptrs frames)).cons root).cons nil
    have distinct := order.nodup_iff.mp focus.distinct
    simp only [Tree.toList, nil_append, cons_append, nodup_cons, mem_cons, not_or] at distinct ⊢
    exact ⟨⟨distinct.1.1, distinct.1.2.2⟩, distinct.2.1.2, distinct.2.2.2⟩

theorem takePlace_at {z up left right : Ptr} {hangs : Side} (parent : (heap z).parent = up)
    (near : (heap z).left = left) (far : (heap z).right = right)
    (replaced : replaceChild heap .left up z y = setChild heap up hangs y)
    (free : z ≠ up ∧ z ≠ left ∧ z ≠ right) (tops : left ≠ right ∧ left ≠ up ∧ right ≠ up) (q : Ptr) : takePlace heap y z q =
      if q = y then heap z else if q = left ∨ q = right then { heap q with parent := y } else if q =
        up then (heap q).withChild hangs y else heap q := by
  simp only [takePlace, parent, replaced, setChild_other _ _ _ free.1, far, setParent_other _ _ free.2.2, near]
  simp only [setChild, setParent, update_apply]
  grind

theorem takePlace_spec {left right : Tree Ptr} {z : Ptr}
    (focus : Focus heap nil root frames (.branch .left color left z right))
    (fresh : y ∉ nil :: root :: ((Tree.branch .left color left z right).toList ++ ptrs frames)) (child : left ≠ .leaf) :
    Focus (takePlace heap y z) nil root frames (.branch .left color left y right) ∧
      (takePlace heap y z nil).parent = if right.ptr nil = nil then y else (heap nil).parent := by
  obtain ⟨red, up, near, far, belowLeft, belowRight⟩ := linked_branch.mp focus.linked
  have order := Tree.branch_perm .left color left z right
  have parts := order.nodup_iff.mp (nodup_append.mp focus.nodup).1
  simp only [nodup_cons, mem_append, not_or, nodup_append] at parts
  obtain ⟨⟨zLeft, zRight⟩, leftNodup, rightNodup, apart⟩ := parts
  simp only [mem_cons, mem_append, Tree.mem_branch, not_or] at fresh
  obtain ⟨yNil, yRoot, ⟨yz, yLeft, yRight⟩, yFrames⟩ := fresh
  have member : ∀ p, p = z ∨ p ∈ left.toList ∨ p ∈ right.toList →
    p ∈ (Tree.branch .left color left z right).toList := fun p cases => Tree.mem_branch.mpr cases
  have inner : ∀ p, p = z ∨ p ∈ left.toList ∨ p ∈ right.toList → p ≠ nil ∧ p ≠ above root frames :=
    fun p cases => ⟨focus.ne_nil (member p cases), focus.ne_above (member p cases)⟩
  obtain ⟨zNil, zUp⟩ := inner z (.inl rfl)
  have leftIn : left.ptr nil ∈ left.toList := by
    cases left with
    | leaf => exact absurd rfl child
    | node => simp [Tree.ptr, Tree.toList]
  obtain ⟨leftNil, leftUp⟩ := inner _ (.inr (.inl leftIn))
  have leftTop : ∀ p ∉ left.toList, p ≠ left.ptr nil := fun p absent same => absent (same ▸ leftIn)
  have tops := Tree.ne_ptr (fun clash => apart _ leftIn _ clash rfl) leftNil
  have upRight := Tree.ne_ptr (fun clash => (inner _ (.inr (.inr clash))).2 rfl) focus.above_ne_nil
  have written := takePlace_at (y := y) up near far
    (replaceChild_eq focus (Tree.ptr_branch ..) zNil rfl) ⟨zUp, leftTop z zLeft,
    Tree.ne_ptr zRight zNil⟩ ⟨tops, leftUp, upRight.symm⟩
  generalize afterIs : takePlace heap y z = after at written ⊢
  have yFree : y ≠ above root frames ∧ y ≠ left.ptr nil ∧ y ≠ right.ptr nil := by
    refine ⟨?_, leftTop y yLeft, Tree.ne_ptr yRight yNil⟩
    cases frames with
    | nil => exact yRoot
    | cons => exact fun same => yFrames (by simp [same, above])
  have top : ∀ p, p = left.ptr nil ∨ p = right.ptr nil → after p = { heap p with parent := y } := by
    intro p here
    rw [written, if_neg (by rintro rfl; exact here.elim yFree.2.1 yFree.2.2), if_pos here]
  have other : ∀ p, p ≠ y → p ≠ left.ptr nil → p ≠ right.ptr nil → p ≠ above root frames → after p = heap p := by
    intro p notY notLeft notRight notUp
    rw [written, if_neg notY, if_neg (not_or.mpr ⟨notLeft, notRight⟩), if_neg notUp]
  have outer : ∀ p ∈ root :: ptrs frames, p ≠ above root frames → after p = heap p := by
    intro p elsewhere notUp
    have free : ∀ q, q = z ∨ q ∈ left.toList ∨ q ∈ right.toList → p ≠ q :=
      fun q cases same => focus.outside (member q cases) (same ▸ elsewhere)
    refine other p ?_ (leftTop p fun clash => free p (.inr (.inl clash)) rfl)
      (Tree.ne_ptr (fun clash => free p (.inr (.inr clash)) rfl) (focus.outer_ne_nil elsewhere))
      notUp
    rintro rfl
    exact (mem_cons.mp elsewhere).elim yRoot yFrames
  have afterNil : (after nil).red = false ∧ (after nil).parent = if right.ptr nil = nil then y else (heap nil).parent := by
    by_cases empty : right.ptr nil = nil
    · rw [top nil (.inr empty.symm), if_pos empty]
      exact ⟨focus.nilBlack, rfl⟩
    · rw [other nil (Ne.symm yNil) (Ne.symm leftNil) (Ne.symm empty) focus.above_ne_nil.symm, if_neg empty]
      exact ⟨focus.nilBlack, rfl⟩
  refine ⟨focus.replace ?_ ?_ outer afterNil.1 ?_, afterNil.2⟩
  · have own : after y = heap z := by rw [written, if_pos rfl]
    rw [linked_branch, own]
    refine ⟨red, up, near, far, belowLeft.reparent leftNodup (fun _ => top _ (.inl rfl)) ?_,
      belowRight.reparent rightNodup (fun _ => top _ (.inr rfl)) ?_⟩
    · intro p inside notTop
      obtain ⟨notNil, notUp⟩ := inner p (.inr (.inl inside))
      exact other p (fun same => yLeft (same ▸ inside)) notTop
        (Tree.ne_ptr (fun clash => apart p inside p clash rfl) notNil) notUp
    · intro p inside notTop
      exact other p (fun same => yRight (same ▸ inside)) (leftTop p fun clash =>
        apart p clash p inside rfl) notTop (inner p (.inr (.inr inside))).2
  · rw [written, if_neg yFree.1.symm, if_neg (not_or.mpr ⟨leftUp.symm, upRight⟩), if_pos rfl, Tree.ptr_branch]
  · have outside := focus.distinct
    rw [((((order.append_right (ptrs frames)).cons root).cons nil).nodup_iff)] at outside
    rw [(((((Tree.branch_perm .left color left y right).append_right (ptrs frames)).cons root).cons nil).nodup_iff)]
    simp only [cons_append, nodup_cons, mem_cons, mem_append, not_or] at outside ⊢
    tauto

theorem Hung.keep {after : Heap} {others : List (Frame Ptr)} (hung : Hung heap nil root frames tree)
    (focus : Focus after nil root others tree) (same : (after nil).parent = (heap nil).parent)
      (up : above root others = above root frames) : Hung after nil root others tree := by
  cases tree with
  | leaf =>
    change (after nil).parent = _
    rwa [same, up]
  | node => exact focus.linked.2.1

theorem children_red (focus : Focus heap nil root frames (.branch side color near w far)) :
    (heap ((heap w).child side)).red = near.red ∧ (heap ((heap w).child side.flip)).red =
    far.red := by
  obtain ⟨_, _, first, second, _, _⟩ := linked_branch.mp focus.linked
  have inner : Focus heap nil root (⟨side, color, w, far⟩ :: frames) near := focus.down
  rw [first, second]
  exact ⟨inner.red_ptr, inner.across.red_ptr⟩

/-- After the first step the sibling is black. If it was red, the parent is red
now and has moved down by one. -/
theorem deleteSibling_spec (focus : Focus heap nil root (⟨side, color, p, sibling⟩ :: frames) tree)
    (hung : Hung heap nil root (⟨side, color, p, sibling⟩ :: frames) tree)
      (fits : Fits accepts (height + 1) (⟨side, color, p, sibling⟩ :: frames)) :
    ∃ after above other rest accepts, deleteSibling ⟨nil, root⟩ side heap (tree.ptr nil) = .ok (after, other.ptr nil) ∧
      Focus after nil root (⟨side, above, p, other⟩ :: rest) tree ∧ Hung after nil root
        (⟨side, above, p, other⟩ :: rest) tree ∧ Fits accepts (height + 1)
        (⟨side, above, p, other⟩ :: rest) ∧ Balanced false (height + 1) other ∧
      (plug (⟨side, above, p, other⟩ :: rest) tree).toList =
        (plug (⟨side, color, p, sibling⟩ :: frames) tree).toList ∧
        ((rest = frames ∧ above = color ∧ other = sibling) ∨
        (above = true ∧ ∃ frame, rest = frame :: frames)) := by
  have upX : (heap (tree.ptr nil)).parent = p := hung
  have beside := focus.sibling
  have redW := focus.across.red_ptr
  have unchanged : Balanced false (height + 1) sibling → deleteSibling ⟨nil, root⟩ side heap
    (tree.ptr nil) = .ok (heap, sibling.ptr nil) := by
    intro balanced
    simp only [deleteSibling, upX, beside, redW, balanced.color, Bool.false_eq_true, if_false]
    rfl
  cases fits with
  | red balanced outer =>
    exact ⟨heap, true, sibling, frames, false, unchanged balanced, focus, hung, .red balanced outer,
      balanced, rfl, .inl ⟨rfl, rfl, rfl⟩⟩
  | @black _ colorW accepts _ _ _ _ balanced outer =>
    cases colorW with
    | false =>
      exact ⟨heap, false, sibling, frames, true, unchanged balanced, focus, hung,
        .black balanced outer, balanced, rfl, .inl ⟨rfl, rfl, rfl⟩⟩
    | true =>
      obtain ⟨near, w, far, rfl, first, second⟩ := balanced.as_red side
      rw [Tree.ptr_branch] at beside redW
      rw [Tree.red_branch] at redW
      obtain ⟨black, nilFirst⟩ := recolor_spec focus.across false
      obtain ⟨red, nilSecond⟩ := recolor_spec black.across.up true
      rw [Side.flip_flip] at red
      obtain ⟨after, rotated, nilThird, turned⟩ := rotate_spec red
      have moved : Focus after nil root (⟨side, true, p, near⟩ :: ⟨side, false, w, far⟩ :: frames)
        tree := turned.refocus rfl
      have nilSame := nilThird.trans (nilSecond.trans nilFirst)
      have hungAfter := hung.keep moved (congrArg Node.parent nilSame) rfl
      refine ⟨after, true, near, ⟨side, false, w, far⟩ :: frames, false, ?_, moved, hungAfter,
        .red first (.black second outer), first, ?_, .inr ⟨rfl, _, rfl⟩⟩
      · have upAfter : (after (tree.ptr nil)).parent = p := hungAfter
        have nearAfter := moved.sibling
        simp only [deleteSibling, upX, beside, redW, if_true, setRed_parent, rotated, bind, Except.bind, upAfter, nearAfter]
        rfl
      · apply toList_plug_congr frames
        refine (toList_rotate side true false tree near far p w).trans ?_
        cases side <;> rfl

theorem deleteAlign_spec {colorNear colorFar : Bool}
    (focus : Focus heap nil root (⟨side, color, p, .branch side false near w far⟩ :: frames) tree)
    (hung : Hung heap nil root (⟨side, color, p, .branch side false near w far⟩ :: frames) tree)
      (first : Balanced colorNear height near) (second : Balanced colorFar height far)
      (some : ¬ (near.red = false ∧ far.red = false)) :
    ∃ after other inner outer colorInner, deleteAlign ⟨nil, root⟩ side heap (tree.ptr nil) w = .ok
      (after, other) ∧ Focus after nil root
      (⟨side, color, p, .branch side false inner other outer⟩ :: frames) tree ∧
      Hung after nil root (⟨side, color, p, .branch side false inner other outer⟩ :: frames) tree ∧
        Balanced colorInner height inner ∧ Balanced true height outer ∧
      (Tree.branch side false inner other outer).toList = (Tree.branch side false near w far).toList := by
  obtain ⟨redNear, redFar⟩ := children_red focus.across
  obtain ⟨_, _, nearIs, _, _, _⟩ := linked_branch.mp focus.across.linked
  cases colorFar with
  | true =>
    refine ⟨heap, w, near, far, colorNear, ?_, focus, hung, first, second, rfl⟩
    simp only [deleteAlign, redFar, second.color, Bool.true_eq_false, if_false]
    rfl
  | false =>
    have nearRed : colorNear = true := by
      rw [first.color, second.color] at some
      cases colorNear
      · exact absurd ⟨rfl, rfl⟩ some
      · rfl
    subst nearRed
    obtain ⟨a, q, b, rfl, balancedA, balancedB⟩ := first.as_red side
    rw [Tree.ptr_branch] at nearIs
    have atNear : Focus heap nil root (⟨side, false, w, far⟩ :: ⟨side.flip, color, p, tree⟩ ::
      frames) (.branch side true a q b) := focus.across.down
    obtain ⟨black, nilFirst⟩ := recolor_spec atNear false
    obtain ⟨red, nilSecond⟩ := recolor_spec black.up true
    rw [← Tree.branch_flip side true far, ← Tree.branch_flip side false b] at red
    obtain ⟨after, rotated, nilThird, turned⟩ := rotate_spec red
    rw [Tree.branch_flip, Tree.branch_flip] at turned
    have moved := turned.across
    rw [Side.flip_flip] at moved
    have nilSame := nilThird.trans (nilSecond.trans nilFirst)
    have hungAfter := hung.keep moved (congrArg Node.parent nilSame) rfl
    refine ⟨after, q, a, .branch side true b w far, false, ?_, moved, hungAfter, balancedA,
      balanced_red.mpr ⟨rfl, balancedB, second⟩, ?_⟩
    · have upAfter : (after (tree.ptr nil)).parent = p := hungAfter
      have other : (after p).child side.flip = q := by
        have sibling := moved.sibling
        rwa [Tree.ptr_branch] at sibling
      simp only [deleteAlign, redFar, second.color, if_true, nearIs, rotated, bind, Except.bind, upAfter, other]
      rfl
    · cases side <;> simp [Tree.branch, Tree.toList]

/-- One turn of the repair loop. Either the missing black moves up to a black
parent, or it reaches a red parent, or rotations end the repair and the loop
returns to the recorded top node. -/
inductive Repaired (before : List Ptr) (nil root top p : Ptr) (frames : List (Frame Ptr)) (height : Nat) (after : Heap)
    (next : Ptr) : Prop where
  | up {tree : Tree Ptr} {accepts : Bool} (here : next = p) (ptr : tree.ptr nil = p)
      (focus : Focus after nil root frames tree) (balanced : Balanced false (height + 1) tree)
      (fits : Fits accepts (height + 2) frames) (same : (plug frames tree).toList = before)
  | red {side : Side} {near far : Tree Ptr} {rest : List (Frame Ptr)} (here : next = p)
      (focus : Focus after nil root rest (.branch side true near p far))
      (balanced : Balanced false (height + 1) (.branch side false near p far))
      (fits : Fits true (height + 1) rest)
      (same : (plug rest (.branch side true near p far)).toList = before)
  | done {tree : Tree Ptr} {total : Nat} (here : next = top) (holds : Holds after nil root tree)
      (balanced : Balanced false total tree) (black : (after top).red = false) (same : tree.toList = before)

theorem deleteSub_spec (focus : Focus heap nil root (⟨side, color, p, sibling⟩ :: frames) tree)
    (hung : Hung heap nil root (⟨side, color, p, sibling⟩ :: frames) tree)
    (balanced : Balanced false height tree)
    (fits : Fits accepts (height + 1) (⟨side, color, p, sibling⟩ :: frames))
      (first : top = (plug (⟨side, color, p, sibling⟩ :: frames) tree).ptr nil) :
    ∃ after next, deleteSub ⟨nil, root⟩ side top heap (tree.ptr nil) = .ok (after, next) ∧
      Repaired (plug (⟨side, color, p, sibling⟩ :: frames) tree).toList nil root top p frames height
      after next := by
  obtain ⟨middle, above, other, rest, takes, ran, focusMiddle, hungMiddle, fitsMiddle,
    balancedOther, order, moved⟩ := deleteSibling_spec focus hung fits
  obtain ⟨near, w, far, colorNear, colorFar, rfl, balancedNear, balancedFar⟩ := balancedOther.as_black side
  rw [Tree.ptr_branch] at ran
  have upX : (middle (tree.ptr nil)).parent = p := hungMiddle
  obtain ⟨redNear, redFar⟩ := children_red focusMiddle.across
  by_cases black : near.red = false ∧ far.red = false
  · -- Both children of the sibling are black: the sibling turns red.
    obtain ⟨recolored, _⟩ := recolor_spec focusMiddle.across true
    have result := recolored.across.up
    rw [Side.flip_flip] at result
    rw [balancedNear.color, balancedFar.color] at black
    obtain ⟨rfl, rfl⟩ := black
    have redSibling : Balanced true height (.branch side true near w far) :=
      balanced_red.mpr ⟨rfl, balancedNear, balancedFar⟩
    have whole : Balanced false (height + 1)
      (.branch side false tree p (.branch side true near w far)) :=
      balanced_black.mpr ⟨rfl, _, _, _, rfl, balanced, redSibling⟩
    have same : (plug rest (Tree.branch side above tree p (.branch side true near w far))).toList =
      (plug (⟨side, color, p, sibling⟩ :: frames) tree).toList := by
      rw [← order]
      apply toList_plug_congr rest
      cases side <;> rfl
    refine ⟨setRed middle w true, p, ?_, ?_⟩
    · simp only [deleteSub, ran, bind, Except.bind, redNear, redFar, balancedNear.color,
        balancedFar.color, and_self, if_true, setRed_parent, upX]
      rfl
    · cases fitsMiddle with
      | red _ outer => exact .red rfl result whole outer same
      | black _ outer =>
        obtain ⟨rfl, _, _⟩ | ⟨impossible, _⟩ := moved
        · exact .up rfl (Tree.ptr_branch ..) result whole outer same
        · cases impossible
  obtain ⟨last, next, inner, outer, colorInner, aligned, focusLast, hungLast, balancedInner,
    balancedOuter, sameOther⟩ := deleteAlign_spec focusMiddle hungMiddle balancedNear balancedFar
    black
  have upLast : (last (tree.ptr nil)).parent = p := hungLast
  obtain ⟨a, q, b, rfl, balancedA, balancedB⟩ := balancedOuter.as_red side
  have abovep := focusLast.red_above
  obtain ⟨_, _, _, farIs, _, _⟩ := linked_branch.mp focusLast.across.linked
  rw [Tree.ptr_branch] at farIs
  obtain ⟨recolorW, _⟩ := recolor_spec focusLast.across above
  have atP := recolorW.across.up
  obtain ⟨recolorP, _⟩ := recolor_spec atP false
  have atFar : Focus (setRed (setRed last next above) p false) nil root
    (⟨side.flip, above, next, inner⟩ :: ⟨side.flip, false, p, tree⟩ :: rest)
    (.branch side true a q b) := by
    refine recolorP.refocus ?_
    simp only [plug, Frame.fill, Tree.branch_flip]
  obtain ⟨recolorFar, _⟩ := recolor_spec atFar false
  have ready : Focus (setRed (setRed (setRed last next above) p false) q false) nil root rest
    (.branch side false tree p (.branch side above inner next (.branch side false a q b))) := by
    refine recolorFar.refocus ?_
    simp only [plug, Frame.fill, Tree.branch_flip]
  obtain ⟨after, rotated, _, final⟩ := rotate_spec ready
  have lower : Balanced false (height + 1) (.branch side false tree p inner) :=
    balanced_black.mpr ⟨rfl, _, _, _, rfl, balanced, balancedInner⟩
  have upper : Balanced false (height + 1) (.branch side false a q b) :=
    balanced_black.mpr ⟨rfl, _, _, _, rfl, balancedA, balancedB⟩
  obtain ⟨total, balancedAll⟩ : ∃ total, Balanced false total
    (plug rest (.branch side above (.branch side false tree p inner)
    next (.branch side false a q b))) := by
    cases fitsMiddle with
    | red _ outer => exact outer.complete (balanced_red.mpr ⟨rfl, lower, upper⟩) (fun _ => rfl)
    | black _ outer => exact outer.complete (balanced_black.mpr ⟨rfl, _, _, _, rfl, lower, upper⟩) (by simp)
  have blackTop : (after top).red = false := by
    cases frames with
    | nil =>
      -- The recorded top node is the parent, which is black and below the new top.
      have recorded : top = p := by rw [first, plug, plug, Frame.fill, Tree.ptr_branch]
      have atParent : Focus after nil root (⟨side, above, next, .branch side false a q b⟩ :: rest)
        (.branch side false tree p inner) := final.refocus rfl
      have red := atParent.red_ptr
      rw [Tree.ptr_branch, Tree.red_branch] at red
      rwa [recorded]
    | cons frame frames =>
      have whole : Focus after nil root []
        (plug rest (.branch side above (.branch side false tree p inner)
        next (.branch side false a q b))) := final.refocus rfl
      have sameTop : (plug rest (.branch side above (.branch side false tree p inner)
        next (.branch side false a q b))).ptr nil = top := by
        rw [first]
        obtain ⟨rfl, _, _⟩ | ⟨_, extra, rfl⟩ := moved
        all_goals exact ptr_plug_cons nil frame frames _ _
      rw [← sameTop, whole.red_ptr, balancedAll.color]
  refine ⟨after, top, ?_, .done rfl (holds_plug.mpr final) balancedAll blackTop ?_⟩
  · have farChild : (setRed (setRed last next above) p false next).child side.flip = q := by
      rw [setRed_child, setRed_child, farIs]
    simp only [deleteSub, ran, bind, Except.bind, redNear, redFar, black, if_false, aligned, upLast,
      setRed_parent, abovep, farChild, rotated]
    rfl
  · rw [← order]
    apply toList_plug_congr rest
    rw [toList_rotate]
    have recolored : (Tree.branch side above inner next (.branch side false a q b)).toList =
      (Tree.branch side false near w far).toList := by
      rw [← sameOther]
      cases side <;> rfl
    cases side <;> simp only [Tree.branch, Tree.toList, Frame.fill] at recolored ⊢ <;> rw [recolored]

theorem blacken_spec (focus : Focus heap nil root frames tree) :
    Holds (setRed heap (tree.ptr nil) false) nil root (plug frames (blacken tree)) := by
  cases tree with
  | leaf =>
    rw [Tree.ptr_leaf, setRed_idle heap focus.nilBlack]
    exact holds_plug.mpr focus
  | node color left p right =>
    have view : Focus heap nil root frames (.branch .left color left p right) := focus
    exact holds_plug.mpr (recolor_spec view false).1

theorem deleteFixup_stop (fuel : Nat) {x : Ptr} (stops : ¬ (x ≠ top ∧ (heap x).red = false)) :
    deleteFixup ⟨nil, root⟩ top (fuel + 1) heap x = .ok (setRed heap x false) := by
  rw [deleteFixup, if_neg stops]
  rfl

/-- The side test of the loop also works at an empty position, because the
sibling of a missing black is never empty. -/
theorem delete_side_test (focus : Focus heap nil root (⟨side, color, p, sibling⟩ :: frames) tree)
    (full : sibling ≠ .leaf) : (if tree.ptr nil = (heap p).left then Side.left else Side.right) =
    side := by
  by_cases present : tree.ptr nil = nil
  · have near := focus.here
    have far := focus.sibling
    have other : sibling.ptr nil ≠ nil := by
      intro same
      apply full
      refine (Tree.ptr_eq_nil ?_).mp same
      exact fun member => focus.nil_notMem (by simp [member])
    cases side with
    | left => exact if_pos near.symm
    | right =>
      apply if_neg
      intro same
      exact other (far.symm.trans (same.symm.trans present))
  · exact focus.side_test present

theorem deleteFixup_spec (fuel : Nat) (focus : Focus heap nil root frames tree) (hung : Hung heap nil root frames tree)
    (balanced : Balanced color height tree) (fits : Fits accepts (height + 1) frames)
      (first : top = (plug frames tree).ptr nil) (enough : frames.length < fuel) :
    ∃ after final total, deleteFixup ⟨nil, root⟩ top fuel heap (tree.ptr nil) = .ok after ∧
      Holds after nil root final ∧ Balanced false total final ∧
      final.toList = (plug frames tree).toList := by
  induction fuel generalizing heap frames tree color accepts height with
  | zero => omega
  | succ fuel ih =>
    have red := focus.red_ptr.trans balanced.color
    cases frames with
    | nil =>
      obtain ⟨total, whole⟩ := balanced.blackened
      refine ⟨_, _, total, deleteFixup_stop fuel fun both => both.1 first.symm, blacken_spec focus, whole, ?_⟩
      exact toList_plug_congr [] (toList_blacken tree)
    | cons frame frames =>
      cases color with
      | true =>
        obtain ⟨near, x, far, rfl, balancedNear, balancedFar⟩ := balanced.as_red .left
        have whole : Balanced false (height + 1) (.branch .left false near x far) :=
          balanced_black.mpr ⟨rfl, _, _, _, rfl, balancedNear, balancedFar⟩
        obtain ⟨total, all⟩ := fits.complete whole (by simp)
        refine ⟨_, _, total, deleteFixup_stop fuel fun both => ?_, blacken_spec focus, all, ?_⟩
        · rw [red] at both
          exact Bool.noConfusion both.2
        · exact toList_plug_congr _ (toList_blacken _)
      | false =>
        obtain ⟨side, colorP, p, sibling⟩ := frame
        have moves : tree.ptr nil ≠ top := by
          have member := ptr_plug_mem nil ⟨side, colorP, p, sibling⟩ frames tree
          rw [← first] at member
          intro same
          by_cases present : tree.ptr nil = nil
          · exact focus.nil_notMem (mem_append_right _ (present ▸ same ▸ member))
          · exact focus.outside (Tree.ptr_mem present) (mem_cons_of_mem _ (same ▸ member))
        have full : sibling ≠ .leaf := by
          intro empty
          subst empty
          cases fits with
          | red beside | black beside => cases beside
        have side_is := delete_side_test focus full
        have upX : (heap (tree.ptr nil)).parent = p := hung
        obtain ⟨after, next, ran, repaired⟩ := deleteSub_spec focus hung balanced fits first
        have turn : deleteFixup ⟨nil, root⟩ top (fuel + 1) heap (tree.ptr nil) = deleteFixup
          ⟨nil, root⟩ top fuel after next := by
          rw [deleteFixup, if_pos ⟨moves, red⟩]
          simp only [upX, side_is, ran, bind, Except.bind]
        rw [turn]
        simp only [length_cons] at enough
        obtain ⟨less, rfl⟩ : ∃ less, fuel = less + 1 := ⟨fuel - 1, by omega⟩
        cases repaired with
        | @up other accepts here ptr focusNext balancedNext fitsNext same =>
          obtain ⟨near, q, far, _, _, rfl, _, _⟩ := balancedNext.as_black .left
          subst ptr here
          have topNext : top = (plug frames (.branch .left false near next far)).ptr nil := by
            rw [first]
            cases frames with
            | nil => rw [plug, plug, plug, Frame.fill, Tree.ptr_branch, Tree.ptr_branch]
            | cons frame frames => exact ptr_plug_cons nil frame frames _ _
          obtain ⟨last, final, total, continued, holds, all, order⟩ :=
            ih focusNext (by rw [Hung, Tree.ptr_branch]; exact focusNext.parent) balancedNext
            fitsNext topNext (by omega)
          exact ⟨last, final, total, continued, holds, all, order.trans same⟩
        | @red view near far rest here focusNext balancedNext fitsNext same =>
          subst here
          have stays := focusNext.red_ptr
          rw [Tree.ptr_branch, Tree.red_branch] at stays
          obtain ⟨black, _⟩ := recolor_spec focusNext false
          obtain ⟨total, all⟩ := fitsNext.complete balancedNext (by simp)
          refine ⟨_, _, total, deleteFixup_stop less fun both => ?_, holds_plug.mpr black, all, ?_⟩
          · rw [stays] at both
            exact Bool.noConfusion both.2
          · rw [← same]
            exact toList_plug_congr rest (toList_recolor view false true near next far)
        | @done final total here holds all black same =>
          refine ⟨_, final, total, deleteFixup_stop less fun both => both.1 here, ?_, all, same⟩
          rwa [here, setRed_idle after black]

theorem extreme_spec (side : Side) (fuel : Nat) (focus : Focus heap nil root frames tree)
    (full : tree ≠ .leaf) (enough : tree.toList.length ≤ fuel) :
    ∃ path color y below, extreme ⟨nil, root⟩ side heap fuel (tree.ptr nil) = .ok y ∧
      tree = plug path (.branch side color .leaf y below) ∧ ∀ frame ∈ path, frame.side = side := by
  induction fuel generalizing frames tree with
  | zero =>
    cases tree with
    | leaf => exact absurd rfl full
    | node => simp [Tree.toList] at enough
  | succ fuel ih =>
    obtain ⟨color, near, p, far, rfl⟩ : ∃ color near p far, tree = .branch side color near p far := by
      cases tree with
      | leaf => exact absurd rfl full
      | node color left p right =>
        cases side
        · exact ⟨color, left, p, right, rfl⟩
        · exact ⟨color, right, p, left, rfl⟩
    obtain ⟨_, _, first, _, _, _⟩ := linked_branch.mp focus.linked
    have inner : Focus heap nil root (⟨side, color, p, far⟩ :: frames) near := focus.down
    have nearNil := Tree.ptr_eq_nil fun member => inner.nil_notMem (mem_append_left _ member)
    rw [Tree.ptr_branch, extreme, first]
    obtain rfl | empty := eq_or_ne near .leaf
    · refine ⟨[], color, p, far, ?_, rfl, by simp⟩
      rw [if_neg (by simp)]
      rfl
    have size := (Tree.branch_perm side color near p far).length_eq
    simp only [length_cons, length_append] at size
    obtain ⟨path, other, y, below, ran, shape, turns⟩ := ih inner empty (by omega)
    refine ⟨path ++ [⟨side, color, p, far⟩], other, y, below, ?_, ?_, ?_⟩
    · rwa [if_pos fun same => empty (nearNil.mp same)]
    · rw [plug_append, ← shape]
      rfl
    · intro frame member
      rcases mem_append.mp member with member | member
      · exact turns frame member
      · rw [mem_singleton.mp member]

/-- The end of `rb_delete`: once the node is unlinked, only its colour decides
whether the tree has to be repaired. -/
theorem unlink_spec (fuel : Nat) {red : Bool} (focus : Focus heap nil root frames tree)
    (hung : Hung heap nil root frames tree) (fits : Fits accepts height frames)
    (balanced : Balanced red height (.branch view color .leaf y tree))
    (suits : red = true → accepts = true) (enough : frames.length < fuel) : ∃ after final total,
      (if color = false then deleteFixup ⟨nil, root⟩ (heap root).left fuel heap (tree.ptr nil) else
      pure heap) = .ok after ∧
      Holds after nil root final ∧ Balanced false total final ∧ final.toList = (plug frames tree).toList := by
  have holds := holds_plug.mpr focus
  cases color with
  | true =>
    obtain ⟨_, _, below⟩ := balanced_red.mp balanced
    obtain ⟨total, whole⟩ := fits.complete below (by simp)
    exact ⟨heap, _, total, rfl, holds, whole, rfl⟩
  | false =>
    obtain ⟨rfl, less, _, colorBelow, rfl, _, below⟩ := balanced_black.mp balanced
    exact deleteFixup_spec fuel focus hung below fits holds.top enough

/-- What `rb_delete` does once it has found the node that leaves its place. -/
theorem delete_spliced {node : Ptr} {fuel : Nat} (focus : Focus heap nil root frames (.branch view color .leaf y tree))
    (choice : spliced ⟨nil, root⟩ fuel heap node = .ok y) : ∃ after,
      Focus after nil root frames tree ∧ Hung after nil root frames tree ∧
      ∀ last, (if y ≠ node then takePlace after y node else after) = last →
        delete ⟨nil, root⟩ fuel node heap = if color = false then deleteFixup ⟨nil, root⟩
        (last root).left fuel last (tree.ptr nil) else pure last := by
  obtain ⟨red, up, near, far, _, _⟩ := linked_branch.mp focus.linked
  have own : y ∈ (Tree.branch view color .leaf y tree).toList := Tree.mem_branch.mpr (.inl rfl)
  have yRoot : y ≠ root := fun same => focus.outside own (by simp [same])
  have child : (if (heap y).left ≠ nil then (heap y).left else (heap y).right) = tree.ptr nil := by
    cases view with
    | left => exact (if_neg (not_not_intro near)).trans far
    | right =>
      split
      · exact far
      · next empty => exact near.trans ((not_not.mp empty).symm.trans far)
  have upAfter : (setParent heap (tree.ptr nil) (above root frames) y).parent = above root frames := by
    by_cases same : y = tree.ptr nil
    · rw [← same, setParent_same]
    · rwa [setParent_other _ _ same]
  obtain ⟨unlinked, hung, kept⟩ := splice_spec focus
  refine ⟨_, unlinked, hung, ?_⟩
  rintro last rfl
  simp only [delete, choice, bind, Except.bind, child, ensure, ne_eq, yRoot, focus.ne_nil own,
    not_false_eq_true, and_self, if_true, up, upAfter, kept, red]

section
variable {node : Ptr} {left : Tree Ptr} {path : List (Frame Ptr)} {colorY : Bool}

theorem plug_right (path : List (Frame Ptr)) (tree : Tree Ptr) :
    plug (path ++ ⟨.right, color, node, left⟩ :: frames) tree = plug frames
    (.branch .left color left node (plug path tree)) := by
  rw [plug_append]
  rfl

/-- The successor of a node is found nowhere else once it has been unlinked. -/
theorem successor_fresh (focus : Focus heap nil root (path ++ ⟨.right, color, node, left⟩ :: frames)
    (.branch .left colorY .leaf y tree)) :
    y ∉ nil :: root :: ((Tree.branch .left color left node (plug path tree)).toList ++
    ptrs frames) := by
  have own : y ∈ (Tree.branch .left colorY .leaf y tree).toList := Tree.mem_branch.mpr (.inl rfl)
  have parts := (Tree.branch_perm .left colorY .leaf y tree).nodup_iff.mp (nodup_append.mp focus.nodup).1
  simp only [Tree.toList, nil_append, nodup_cons] at parts
  have outside := focus.outside own
  simp only [ptrs_append, ptrs_cons, mem_cons, mem_append, not_or] at outside
  simp only [mem_cons, mem_append, Tree.mem_branch, mem_plug, not_or]
  exact ⟨focus.ne_nil own, outside.1, ⟨outside.2.2.1, outside.2.2.2.1, parts.1, outside.2.1⟩, outside.2.2.2.2⟩

/-- What moved up into the place of the successor points to the node above it. -/
theorem hung_takePlace (atNode : Focus heap nil root frames
    (.branch .left color left node (plug path tree)))
    (hung : Hung heap nil root (path ++ ⟨.right, color, node, left⟩ :: frames) tree)
    (placed : Focus (takePlace heap y node) nil root (path ++ ⟨.right, color, y, left⟩ :: frames)
      tree) (nilParent : (takePlace heap y node nil).parent = if (plug path tree).ptr nil =
      nil then y else (heap nil).parent) :
    Hung (takePlace heap y node) nil root (path ++ ⟨.right, color, y, left⟩ :: frames) tree := by
  cases tree with
  | node => exact placed.linked.2.1
  | leaf =>
    change (takePlace heap y node nil).parent = _
    rw [nilParent]
    cases path with
    | nil => exact if_pos rfl
    | cons frame rest =>
      rw [if_neg]
      · exact hung
      intro same
      apply atNode.nil_notMem
      have top := ptr_plug_mem nil frame rest .leaf
      rw [same] at top
      exact mem_append_left _ (Tree.mem_branch.mpr (.inr (.inr (mem_plug.mpr (.inr top)))))

end

/-- `rb_delete` terminates without a failed assertion and removes exactly the
given node. -/
theorem delete_spec {node : Ptr} {fuel : Nat} (holds : Holds heap nil root tree)
    (balanced : Balanced false height tree) (member : node ∈ tree.toList)
    (enough : tree.toList.length < fuel) :
    ∃ after final total before later, delete ⟨nil, root⟩ fuel node heap = .ok after ∧
      Holds after nil root final ∧ Balanced false total final ∧ tree.toList = before ++
      node :: later ∧ final.toList = before ++ later := by
  obtain ⟨frames, color, left, right, rfl⟩ := exists_position member
  have focus := holds_plug.mp holds
  obtain ⟨_, _, near, far, _, _⟩ := linked_branch.mp focus.linked
  have listed : (plug frames (.branch .left color left node right)).toList = (lefts frames ++
    left.toList) ++ node :: (right.toList ++ rights frames) := by
    rw [toList_plug, Tree.branch, Tree.toList]
    simp only [append_assoc, cons_append]
  have short := length_frames_le frames (.branch .left color left node right)
  have leftNil := Tree.ptr_eq_nil fun inside => focus.nil_notMem
    (mem_append_left _ (Tree.mem_branch.mpr (.inr (.inl inside))))
  have rightNil := Tree.ptr_eq_nil fun inside => focus.nil_notMem
    (mem_append_left _ (Tree.mem_branch.mpr (.inr (.inr inside))))
  have near : (heap node).left = left.ptr nil := near
  have far : (heap node).right = right.ptr nil := far
  by_cases single : left = .leaf ∨ right = .leaf
  · -- The node itself is unlinked.
    obtain ⟨view, tree, shape, sameList⟩ : ∃ view tree, Tree.branch .left color left node right =
      Tree.branch view color .leaf node tree ∧ tree.toList = left.toList ++ right.toList := by
      rcases single with rfl | rfl
      · exact ⟨.left, right, rfl, rfl⟩
      · exact ⟨.right, left, (Tree.branch_flip .left color .leaf node left).symm, by simp [Tree.toList]⟩
    rw [shape] at focus balanced
    obtain ⟨accepts, redY, below, fits, balancedY, suits⟩ := Fits.of_complete balanced
    have choice : spliced ⟨nil, root⟩ fuel heap node = .ok node := by
      have test : (heap node).left = nil ∨ (heap node).right = nil := by rwa [near, far, leftNil, rightNil]
      rw [spliced, if_pos test]
      rfl
    obtain ⟨_, unlinked, hung, deleted⟩ := delete_spliced focus choice
    obtain ⟨after, final, total, ran, held, whole, order⟩ := unlink_spec fuel unlinked hung fits balancedY suits (by omega)
    refine ⟨after, final, total, _, _, (deleted _ (if_neg (not_not_intro rfl))).trans ran, held, whole, listed, ?_⟩
    rw [order, toList_plug, sameList]
    simp only [append_assoc]
  -- The successor leaves its place and takes that of the node.
  simp only [not_or] at single
  have atRight : Focus heap nil root (⟨.right, color, node, left⟩ :: frames) right := focus.refocus rfl
  have size : right.toList.length ≤ fuel := by
    rw [listed] at enough
    simp only [length_append, length_cons] at enough
    omega
  obtain ⟨path, colorY, y, tree, found, rfl, turns⟩ := extreme_spec .left fuel atRight single.2 size
  have focusY : Focus heap nil root (path ++ ⟨.right, color, node, left⟩ :: frames)
    (.branch .left colorY .leaf y tree) := focus.refocus (plug_right ..)
  have choice : spliced ⟨nil, root⟩ fuel heap node = .ok y := by
    have test : ¬ ((heap node).left = nil ∨ (heap node).right = nil) := by
      rw [near, far, leftNil, rightNil]
      exact not_or.mpr single
    have both : (heap node).right ≠ nil := fun same => test (.inr same)
    rwa [spliced, if_neg test, successor, if_pos both, far]
  obtain ⟨spliceHeap, unlinked, hung, deleted⟩ := delete_spliced focusY choice
  have atNode : Focus spliceHeap nil root frames (.branch .left color left node (plug path tree)) :=
    unlinked.refocus (plug_right ..).symm
  have fresh := successor_fresh focusY
  have yNode : y ≠ node := fun same => fresh (by simp [same, Tree.mem_branch])
  obtain ⟨placed, nilParent⟩ := takePlace_spec atNode fresh single.1
  have focusX : Focus (takePlace spliceHeap y node) nil root
    (path ++ ⟨.right, color, y, left⟩ :: frames) tree := placed.refocus (plug_right ..)
  have balancedAt : Balanced false height (plug (path ++ ⟨.right, color, node, left⟩ :: frames)
    (.branch .left colorY .leaf y tree)) := by rwa [plug_right]
  obtain ⟨accepts, redY, below, fits, balancedY, suits⟩ := Fits.of_complete balancedAt
  have length := length_frames_le (path ++ ⟨.right, color, node, left⟩ :: frames) (.branch .left colorY .leaf y tree)
  rw [plug_right] at length
  simp only [length_append, length_cons] at length
  obtain ⟨after, final, total, ran, held, whole, order⟩ :=
    unlink_spec fuel focusX (hung_takePlace atNode hung focusX nilParent) fits.rename balancedY
    suits (by simp only [length_append, length_cons]; omega)
  refine ⟨after, final, total, _, _, (deleted _ (if_pos yNode)).trans ran, held, whole, listed, ?_⟩
  have shifted : (plug path (Tree.branch .left colorY .leaf y tree)).toList = y :: (plug path tree).toList := by
    rw [toList_plug, toList_plug, lefts_of_left turns]
    rfl
  rw [order, plug_right, toList_plug, shifted]
  simp only [Tree.branch, Tree.toList, append_assoc, cons_append]

end Ucore.RbTree
