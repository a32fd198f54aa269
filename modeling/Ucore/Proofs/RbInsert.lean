import Ucore.Proofs.RbRotate
import Ucore.Lib.RedBlack

/-! Insertion. The search ends at the position where the new node keeps the
order, and each turn of the repair loop either moves a red node two levels up or
ends with rotations. -/

namespace Ucore.RbTree
open Lib.LinkedTree List

variable {heap : Heap} {nil root : Ptr} {frames : List (Frame Ptr)} {height : Nat} {p x : Ptr}
    {side turn : Side} {node : Ptr} {tree : Tree Ptr} {fuel : Nat}
  {a b beside : Tree Ptr}

section
variable {compare : Ptr → Ptr → Int}

/-- Every turn of the search for `node` went the way the comparison said. -/
def Searched (compare : Ptr → Ptr → Int) (node : Ptr) (frames : List (Frame Ptr)) : Prop :=
  ∀ frame ∈ frames, (frame.side = .left ↔ compare frame.ptr node > 0)

theorem descend_spec (fuel : Nat) (focus : Focus heap nil root frames tree)
    (searched : Searched compare node frames) (enough : tree.toList.length < fuel) :
    ∃ found, descend compare ⟨nil, root⟩ heap node fuel (above root frames) (tree.ptr nil) = .ok
      (above root found) ∧ plug found .leaf = plug frames tree ∧ Searched compare node found := by
  induction fuel generalizing frames tree with
  | zero => omega
  | succ fuel ih =>
    cases tree with
    | leaf => exact ⟨frames, by simp [descend, pure, Except.pure], rfl, searched⟩
    | node color left p right =>
      have own : p ≠ nil := fun same => focus.nil_notMem (by simp [same, Tree.toList])
      simp only [Tree.toList, length_append, length_cons] at enough
      by_cases greater : compare p node > 0
      · obtain ⟨found, ran, same, correct⟩ :=
          ih (show Focus heap nil root (⟨.left, color, p, right⟩ :: frames) left from focus.refocus
          rfl) (forall_mem_cons.mpr ⟨by simp [greater], searched⟩) (by omega)
        refine ⟨found, ?_, same, correct⟩
        have next := focus.linked.2.2.1
        simpa [descend, own, greater, next, Tree.ptr, above] using ran
      · obtain ⟨found, ran, same, correct⟩ :=
          ih (show Focus heap nil root (⟨.right, color, p, left⟩ :: frames) right from focus.refocus
          rfl) (forall_mem_cons.mpr ⟨by simp [greater], searched⟩) (by omega)
        refine ⟨found, ?_, same, correct⟩
        have next := focus.linked.2.2.2.1
        simpa [descend, own, greater, next, Tree.ptr, above] using ran

/-- The search and the link from above put the new node, red, where it was
searched for. -/
theorem insertBinary_spec (holds : Holds heap nil root tree)
    (fresh : node ∉ nil :: root :: tree.toList) (enough : tree.toList.length < fuel) :
    ∃ after found, insertBinary compare ⟨nil, root⟩ fuel node heap = .ok after ∧
      plug found .leaf = tree ∧ Searched compare node found ∧ Focus (setRed after node true) nil
      root found (.branch .left true .leaf node .leaf) := by
  simp only [mem_cons, not_or] at fresh
  obtain ⟨notNil, notRoot, notIn⟩ := fresh
  generalize clearedIs : setChild (setChild heap node .right nil) node .left nil = cleared
  have kept : ∀ p, p ≠ node → cleared p = heap p := by
    intro p different
    rw [← clearedIs, setChild_other _ _ _ different, setChild_other _ _ _ different]
  have holdsCleared : Holds cleared nil root tree := by
    apply holds.congr
    intro p member
    apply kept
    intro same
    subst same
    simp only [mem_cons] at member
    tauto
  have start : Focus cleared nil root [] tree := holds_plug.mp holdsCleared
  have nothing : Searched compare node [] := forall_mem_nil _
  obtain ⟨found, ran, same, searched⟩ := descend_spec fuel start nothing enough
  have focus := start.refocus same
  have same : plug found .leaf = tree := same
  have nodeFree : node ∉ root :: ptrs found := by
    intro member
    rcases mem_cons.mp member with here | member
    · exact notRoot here
    · apply notIn
      rw [← same]
      exact mem_plug.mpr (.inr member)
  have upFree : above root found ≠ node := by
    intro clash
    apply nodeFree
    cases found with
    | nil => exact mem_cons.mpr (.inl clash.symm)
    | cons => simp [← clash, above]
  generalize linkedIs : setChild (setParent cleared node (above root found)) (above root found) (hangs found) node = linked
  have side : (if above root found = root ∨ compare (above root found) node > 0 then Side.left else
    Side.right) = hangs found := by
    cases found with
    | nil => simp [above, hangs]
    | cons frame =>
      have different : frame.ptr ≠ root := fun clash => focus.root_notMem (by simp [← clash])
      have direction := searched frame (by simp)
      simp only [above, hangs, different, false_or]
      cases turn : frame.side with
      | left => exact if_pos (direction.mp turn)
      | right =>
        apply if_neg
        intro greater
        rw [direction.mpr greater] at turn
        cases turn
  have links : insertBinary compare ⟨nil, root⟩ fuel node heap = .ok linked := by
    have top := holdsCleared.top
    have ran : descend compare ⟨nil, root⟩ cleared node fuel root (tree.ptr nil) = .ok (above root found) := ran
    simp only [insertBinary, clearedIs, top, ran, bind, Except.bind, ← linkedIs, ← side]
    split <;> rfl
  have red : ∀ p, p ≠ node → p ≠ above root found → setRed linked node true p = heap p := by
    intro p different notUp
    rw [setRed_other _ _ different, ← linkedIs, setChild_other _ _ _ notUp, setParent_other _ _ different, kept p different]
  have nilFree := red nil (Ne.symm notNil) focus.above_ne_nil.symm
  have afterUp : setRed linked node true (above root found) = (cleared (above root found)).withChild
    (hangs found) node := by
    rw [setRed_other _ _ upFree, ← linkedIs, setChild_same, setParent_other _ _ upFree]
  have afterNode : setRed linked node true node = ⟨true, above root found, nil, nil⟩ := by
    rw [setRed_same, ← linkedIs, setChild_other _ _ _ (Ne.symm upFree), setParent_same, ← clearedIs,
      setChild_same, setChild_same]
    rfl
  refine ⟨linked, found, links, same, searched, focus.replace ?_ afterUp ?_ (nilFree ▸ holds.nilBlack) ?_⟩
  · refine linked_branch.mpr ⟨?_, ?_, ?_, ?_, trivial, trivial⟩ <;> rw [afterNode] <;> rfl
  · intro p member notUp
    have different : p ≠ node := fun clash => nodeFree (clash ▸ member)
    rw [red p different notUp, kept p different]
  have nodes := holds.distinct
  rw [← same] at nodes
  have order := (plug_perm found .leaf).nodup_iff.mp (nodup_cons.mp (nodup_cons.mp nodes).2).2
  simp only [mem_cons, not_or] at nodeFree
  have outer := focus.distinct
  simp only [Tree.toList, nil_append, nodup_cons, mem_cons, not_or] at order outer
  simp only [Tree.branch, Tree.toList, nil_append, singleton_append, nodup_cons, mem_cons, not_or]
  exact ⟨⟨outer.1.1, Ne.symm notNil, outer.1.2⟩, ⟨Ne.symm notRoot, outer.2.1⟩, nodeFree.2, order⟩

end

/-- Uncle red: the black of the grandparent moves down to both of its children,
and the grandparent is the next red node to look at. -/
theorem insertSub_red {view : Side} {near far : Tree Ptr} {g u : Ptr}
    (focus : Focus heap nil root (⟨turn, true, p, beside⟩ :: ⟨side, false, g,
    .branch view true near u far⟩ :: frames)
      (.branch side true a x b)) : ∃ after, insertSub ⟨nil, root⟩ side heap x = .ok (after, g) ∧
        Focus after nil root frames
        (.branch side true (.branch turn false (.branch side true a x b) p beside) g
        (.branch view false near u far)) := by
  have upX : (heap x).parent = p := focus.parent
  have upP : (heap p).parent = g := focus.around.2.1
  have uncle : (heap g).child side.flip = u := by rw [focus.up.sibling, Tree.ptr_branch]
  have redU : (heap u).red = true := by
    have across := focus.up.across.red_ptr
    rwa [Tree.ptr_branch, Tree.red_branch] at across
  obtain ⟨first, _⟩ := recolor_spec focus.up false
  obtain ⟨second, _⟩ := recolor_spec first.across false
  obtain ⟨third, _⟩ := recolor_spec second.across.up true
  rw [Side.flip_flip] at third
  refine ⟨setRed (setRed (setRed heap p false) u false) g true, ?_, third⟩
  simp only [insertSub, upX, upP, uncle, redU, if_true, setRed_parent]
  rfl

/-- The first rotation, if the new node hangs on the inner side. Afterwards both
red nodes hang on the same side. -/
theorem insertSub_align (focus : Focus heap nil root (⟨turn, true, p, beside⟩ :: frames)
    (.branch side true a x b)) (first : Balanced false height a) (second : Balanced false height b)
    (third : Balanced false height beside) :
    ∃ after next near far upper inner, insertAlign ⟨nil, root⟩ side heap x = .ok (after, next) ∧
      Focus after nil root frames (.branch side true (.branch side true near next far) upper inner)
      ∧
      Balanced false height near ∧ Balanced false height far ∧ Balanced false height inner ∧
        (Tree.branch side true (.branch side true near next far) upper inner).toList =
        (Tree.branch turn true (.branch side true a x b) p beside).toList := by
  have xNil : x ≠ nil := fun same => focus.nil_notMem (by simp [← same, Tree.mem_branch])
  have upX : (heap x).parent = p := focus.parent
  have here := focus.here
  have elsewhere := focus.elsewhere (by rwa [Tree.ptr_branch])
  rw [Tree.ptr_branch] at here elsewhere
  simp only [above, hangs] at here elsewhere
  rcases Side.eq_or_flip side turn with rfl | rfl
  · refine ⟨heap, x, a, b, p, beside, ?_, focus.up, first, second, third, rfl⟩
    rw [insertAlign, upX, if_neg (Ne.symm elsewhere)]
    rfl
  have lower := focus.refocus (congrArg (plug frames) (Tree.branch_flip side true _ p beside).symm)
  obtain ⟨after, ran, _, turned⟩ := rotate_spec lower
  refine ⟨after, p, beside, a, x, b, ?_, turned, third, first, second, ?_⟩
  · rw [insertAlign, upX, if_pos here.symm]
    simp only [ran, bind, Except.bind]
    rfl
  · rw [toList_rotate, Tree.branch_flip]

theorem insertSub_black {uncle : Tree Ptr} {g : Ptr}
    (focus : Focus heap nil root (⟨turn, true, p, beside⟩ :: ⟨side, false, g, uncle⟩ :: frames)
    (.branch side true a x b))
    (first : Balanced false height a) (second : Balanced false height b)
      (third : Balanced false height beside) (last : Balanced false height uncle) :
    ∃ after next tree, insertSub ⟨nil, root⟩ side heap x = .ok (after, next) ∧
      Focus after nil root frames tree ∧ Balanced false (height + 1) tree ∧
      tree.toList = (plug [⟨turn, true, p, beside⟩, ⟨side, false, g, uncle⟩]
        (.branch side true a x b)).toList ∧ (after (after next).parent).red = false := by
  have upX : (heap x).parent = p := focus.parent
  have upP : (heap p).parent = g := focus.around.2.1
  have uncleIs := focus.up.sibling
  have blackU : (heap (uncle.ptr nil)).red = false := by rw [focus.up.across.red_ptr, last.color]
  obtain ⟨middle, next, near, far, upper, inner, ran, red, balancedNear, balancedFar, balancedInner,
    order⟩ := insertSub_align focus first second third
  have lower : Focus middle nil root (⟨side, true, upper, inner⟩ :: ⟨side, false, g, uncle⟩ ::
    frames) (.branch side true near next far) := red.refocus rfl
  have upNext : (middle next).parent = upper := lower.parent
  have upUpper : (middle upper).parent = g := red.parent
  obtain ⟨black, _⟩ := recolor_spec red false
  obtain ⟨swapped, _⟩ := recolor_spec black.up true
  rw [← Tree.branch_flip side true uncle, ← Tree.branch_flip side false inner] at swapped
  obtain ⟨after, rotated, _, final⟩ := rotate_spec swapped
  have bottom : Focus after nil root (⟨side, false, upper, .branch side.flip true uncle g inner⟩ ::
    frames) (.branch side true near next far) :=
    final.refocus (congrArg (plug frames) (Tree.branch_flip side false _ upper _).symm)
  refine ⟨after, next, _, ?_, final, ?_, ?_, ?_⟩
  · simp only [insertSub, upX, upP, uncleIs, blackU, Bool.false_eq_true, if_false]
    simp only [ran, bind, Except.bind, upNext, setRed_parent, upUpper, rotated]
    rfl
  · exact balanced_black.mpr ⟨rfl, height, true, true, rfl,
      balanced_red.mpr ⟨rfl, last, balancedInner⟩, balanced_red.mpr ⟨rfl, balancedNear,
      balancedFar⟩⟩
  · rw [toList_rotate, Tree.branch_flip, Tree.branch_flip]
    have recolored := toList_plug_congr [⟨side, false, g, uncle⟩]
      ((toList_recolor side false true (.branch side true near next far) upper inner).trans order)
    simp only [plug, Frame.fill] at recolored ⊢
    rw [toList_recolor side true false, recolored]
  · have up := bottom.parent
    rw [up]
    exact bottom.red_above

theorem insertFixup_done (fuel : Nat) (black : (heap (heap x).parent).red = false) :
    insertFixup ⟨nil, root⟩ (fuel + 1) heap x = .ok heap := by
  simp only [insertFixup, black, Bool.false_eq_true, if_false]
  rfl

theorem insertFixup_spec (fuel : Nat) {accepts : Bool} (focus : Focus heap nil root frames tree)
    (balanced : Balanced true height tree)
    (fits : Fits accepts height frames) (enough : frames.length < fuel) : ∃ after final,
      insertFixup ⟨nil, root⟩ fuel heap (tree.ptr nil) = .ok after ∧ Holds after nil root final ∧
      final.toList = (plug frames tree).toList ∧ ∃ color total, Balanced color total final := by
  induction fuel using Nat.strongRecOn generalizing heap frames tree accepts height with
  | ind fuel ih =>
  obtain ⟨fuel, rfl⟩ : ∃ less, fuel = less + 1 := ⟨fuel - 1, by omega⟩
  have stop : above root frames = root ∨ (heap (above root frames)).red = false →
    (∃ color total, Balanced color total (plug frames tree)) →
      ∃ after final, insertFixup ⟨nil, root⟩ (fuel + 1) heap (tree.ptr nil) = .ok after ∧
        Holds after nil root final ∧ final.toList = (plug frames tree).toList ∧ ∃ color total,
        Balanced color total final := by
    intro black whole
    obtain ⟨near, x, far, rfl, _, _⟩ := balanced.as_red .left
    refine ⟨heap, _, ?_, holds_plug.mpr focus, rfl, whole⟩
    rw [Tree.ptr_branch]
    apply insertFixup_done
    rw [focus.parent]
    rcases black with top | black
    · rw [top]
      exact focus.rootBlack
    · exact black
  cases fits with
  | top => exact stop (.inl rfl) ⟨true, height, balanced⟩
  | @black _ color accepts side p sibling rest beside outer =>
    have fits : Fits true height (⟨side, false, p, sibling⟩ :: rest) := .black beside outer
    obtain ⟨total, whole⟩ := fits.complete balanced (fun _ => rfl)
    exact stop (.inr focus.red_above) ⟨false, total, whole⟩
  | @red _ turn p beside rest balancedBeside outer =>
    cases outer with
    | @black _ color accepts side g uncle rest balancedUncle outer =>
      obtain ⟨near, x, far, rfl, first, second⟩ := balanced.as_red side
      have upX : (heap x).parent = p := focus.parent
      have upP : (heap p).parent = g := focus.around.2.1
      have redP := focus.red_above
      have test : (if p = (heap g).left then Side.left else Side.right) = side := by
        have pNil : p ≠ nil := fun same => focus.nil_notMem (by simp [same])
        have tested := focus.up.side_test (by rwa [Frame.fill, Tree.ptr_branch])
        rwa [Frame.fill, Tree.ptr_branch] at tested
      simp only [length_cons] at enough
      rw [Tree.ptr_branch]
      cases color with
      | true =>
        obtain ⟨a, u, b, rfl, inner, deep⟩ := balancedUncle.as_red .left
        obtain ⟨after, ran, next⟩ := insertSub_red focus
        have red : Balanced true (height + 1)
          (.branch side true (.branch turn false (.branch side true near x far) p beside) g
            (.branch .left false a u b)) :=
              balanced_red.mpr ⟨rfl, balanced_black.mpr ⟨rfl, _, _, _, rfl, balanced,
              balancedBeside⟩, balanced_black.mpr ⟨rfl, _, _, _, rfl, inner, deep⟩⟩
        obtain ⟨last, final, continued, holds, order, whole⟩ := ih fuel (by omega) next red outer (by omega)
        refine ⟨last, final, ?_, holds, order.trans ?_, whole⟩
        · rw [Tree.ptr_branch] at continued
          simp only [insertFixup, upX, upP, redP, if_true, test, ran, bind, Except.bind, continued]
        · apply toList_plug_congr rest
          cases side <;> cases turn <;> rfl
      | false =>
        obtain ⟨after, next, tree, ran, last, whole, order, black⟩ :=
          insertSub_black focus first second balancedBeside balancedUncle
        obtain ⟨fuel, rfl⟩ : ∃ less, fuel = less + 1 := ⟨fuel - 1, by omega⟩
        obtain ⟨total, balancedAll⟩ := outer.complete whole (by simp)
        refine ⟨after, plug rest tree, ?_, holds_plug.mpr last, toList_plug_congr rest order, false, total, balancedAll⟩
        have stops : insertFixup ⟨nil, root⟩ (fuel + 1) after next = .ok after := insertFixup_done fuel black
        rw [insertFixup]
        simp only [upX, upP, redP, if_true, test, ran, bind, Except.bind, stops]

/-- `rb_insert` terminates without a failed assertion. The new node lands between
the nodes the search passed on its left and those it passed on its right. -/
theorem insert_spec (compare : Ptr → Ptr → Int) (holds : Holds heap nil root tree)
    (balanced : Balanced false height tree) (fresh : node ∉ nil :: root :: tree.toList)
    (enough : tree.toList.length < fuel) :
    ∃ after final found total, insert compare ⟨nil, root⟩ fuel node heap = .ok after ∧ Holds after nil root final ∧
      Balanced false total final ∧ tree = plug found .leaf ∧ Searched compare node found ∧
        final.toList = lefts found ++ node :: rights found := by
  obtain ⟨linked, found, ran, same, searched, focus⟩ := insertBinary_spec holds fresh enough
  rw [← same] at balanced
  obtain ⟨accepts, red, below, fits, empty, _⟩ := Fits.of_complete balanced
  cases empty
  have short := length_frames_le found .leaf
  rw [same] at short
  have new : Balanced true 0 (.branch .left true .leaf node .leaf) := balanced_red.mpr ⟨rfl, .leaf, .leaf⟩
  obtain ⟨after, final, repaired, held, order, color, total, whole⟩ := insertFixup_spec fuel focus new fits (by omega)
  rw [Tree.ptr_branch] at repaired
  have listed : final.toList = lefts found ++ node :: rights found := by
    rw [order, toList_plug]
    rfl
  cases final with
  | leaf => simp [Tree.toList] at listed
  | node topColor left top right =>
    have start : Focus after nil root [] (.branch .left topColor left top right) := holds_plug.mp held
    obtain ⟨black, nilSame⟩ := recolor_spec start false
    obtain ⟨last, balancedLast⟩ := whole.blackened
    refine ⟨setRed after top false, .node false left top right, found, last, ?_,
      holds_plug.mpr black, balancedLast, same.symm, searched, listed⟩
    have topIs : (after root).left = top := held.top
    have nilBlack := black.nilBlack
    have rootBlack := black.rootBlack
    simp only [insert, ran, bind, Except.bind, repaired, topIs]
    simp [ensure, nilBlack, rootBlack, pure, Except.pure]

end Ucore.RbTree
