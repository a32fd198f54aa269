import Mathlib

/-! Binary trees threaded through memory by child and parent pointers. A heap
holds an abstract tree when following the pointers spells it out. Contexts name
a position in the tree, so that a local write is a local change of the tree. -/

namespace Ucore.Lib.LinkedTree
open List (mem_cons mem_append nodup_cons mem_append_left mem_append_right nodup_append perm_middle)

variable {P : Type} {color : Bool}

inductive Side where
  | left
  | right
deriving Repr, DecidableEq

def Side.flip : Side → Side
  | .left => .right
  | .right => .left

@[simp] theorem Side.flip_flip (side : Side) : side.flip.flip = side := by cases side <;> rfl

theorem Side.eq_or_flip (side other : Side) : other = side ∨ other = side.flip := by
  cases side <;> cases other <;> decide

structure Node (P : Type) where
  red : Bool
  parent : P
  left : P
  right : P

def Node.child (node : Node P) : Side → P
  | .left => node.left
  | .right => node.right

def Node.withChild (node : Node P) (side : Side) (child : P) : Node P :=
  match side with
  | .left => { node with left := child }
  | .right => { node with right := child }

section
variable (node : Node P) (side : Side)
include node side

@[simp] theorem Node.withChild_red (child : P) : (node.withChild side child).red = node.red := by cases side <;> rfl

@[simp] theorem Node.withChild_parent (child : P) : (node.withChild side child).parent = node.parent := by cases side <;> rfl

@[simp] theorem Node.child_withChild (child : P) : (node.withChild side child).child side = child := by cases side <;> rfl

theorem Node.withChild_child : node.withChild side (node.child side) = node := by cases side <;> rfl

@[simp] theorem Node.child_withChild_flip (child : P) : (node.withChild side child).child side.flip =
    node.child side.flip := by cases side <;> rfl

@[simp] theorem Node.child_flip_withChild (child : P) : (node.withChild side.flip child).child side =
    node.child side := by cases side <;> rfl

@[simp] theorem Node.child_mk_red (red : Bool) : ({ node with red } : Node P).child side = node.child
    side := by cases side <;> rfl

@[simp] theorem Node.child_mk_parent (parent : P) : ({ node with parent } : Node P).child side =
    node.child side := by cases side <;> rfl

end

inductive Tree (P : Type) where
  | leaf
  | node (red : Bool) (left : Tree P) (ptr : P) (right : Tree P)

namespace Tree

/-- A node seen from one of its sides. -/
def branch (side : Side) (red : Bool) (near : Tree P) (ptr : P) (far : Tree P) : Tree P :=
  match side with
  | .left => .node red near ptr far
  | .right => .node red far ptr near

def ptr (nil : P) : Tree P → P
  | .leaf => nil
  | .node _ _ ptr _ => ptr

def red : Tree P → Bool
  | .leaf => false
  | .node red _ _ _ => red

def toList : Tree P → List P
  | .leaf => []
  | .node _ left ptr right => left.toList ++ ptr :: right.toList

@[simp] theorem ptr_leaf (nil : P) : (leaf : Tree P).ptr nil = nil := rfl

@[simp] theorem ptr_branch (nil : P) (side : Side) (red : Bool) (near : Tree P) (p : P)
    (far : Tree P) : (branch side red near p far).ptr nil = p := by cases side <;> rfl

@[simp] theorem red_branch (side : Side) (color : Bool) (near : Tree P) (p : P) (far : Tree P) :
    (branch side color near p far).red = color := by cases side <;> rfl

theorem mem_branch {side : Side} {p q : P} : q ∈ (branch side color near p far).toList ↔ q = p ∨
    q ∈ near.toList ∨ q ∈ far.toList := by
  cases side <;> simp only [branch, toList, mem_append, mem_cons] <;> tauto

theorem branch_perm (side : Side) (color : Bool) (near : Tree P) (p : P) (far : Tree P) :
    (branch side color near p far).toList.Perm (p :: (near.toList ++ far.toList)) := by
  cases side with
  | left => exact perm_middle
  | right =>
    refine perm_middle.trans (List.Perm.cons p ?_)
    exact List.perm_append_comm

theorem branch_flip (side : Side) (color : Bool) (near : Tree P) (p : P) (far : Tree P) :
    branch side.flip color near p far = branch side color far p near := by cases side <;> rfl

theorem ptr_mem : ∀ {tree : Tree P}, tree.ptr nil ≠ nil → tree.ptr nil ∈ tree.toList
  | .leaf, absent => absurd rfl absent
  | .node _ _ _ _, _ => by simp [ptr, toList]

theorem ne_ptr {nil p : P} {tree : Tree P} (absent : p ∉ tree.toList) (notNil : p ≠ nil) :
    p ≠ tree.ptr nil := fun same => absent (same ▸ ptr_mem (same ▸ notNil))

theorem ptr_eq_nil {tree : Tree P} (absent : nil ∉ tree.toList) : tree.ptr nil = nil ↔ tree = .leaf := by
  cases tree with
  | leaf => simp
  | node =>
    simp only [ptr, reduceCtorEq, iff_false]
    intro same
    apply absent
    simp [toList, same]

end Tree

/-- One step of the way from a position up to the top: the side it hangs on, the
node above it, and the other subtree of that node. -/
structure Frame (P : Type) where
  side : Side
  red : Bool
  ptr : P
  sibling : Tree P

def Frame.fill (frame : Frame P) (tree : Tree P) : Tree P :=
  .branch frame.side frame.red tree frame.ptr frame.sibling

def plug : List (Frame P) → Tree P → Tree P
  | [], tree => tree
  | frame :: rest, tree => plug rest (frame.fill tree)

def ptrs (frames : List (Frame P)) : List P := frames.flatMap fun frame => frame.ptr :: frame.sibling.toList

/-- The pointer just above a position; `root` stands above the top. -/
def above (root : P) : List (Frame P) → P
  | [] => root
  | frame :: _ => frame.ptr

def hangs : List (Frame P) → Side
  | [] => .left
  | frame :: _ => frame.side

theorem plug_append (inner outer : List (Frame P)) (tree : Tree P) :
    plug (inner ++ outer) tree = plug outer (plug inner tree) := by
  induction inner generalizing tree with
  | nil => rfl
  | cons frame rest ih => exact ih (frame.fill tree)

@[simp] theorem ptrs_nil : ptrs ([] : List (Frame P)) = [] := rfl

@[simp] theorem ptrs_cons (frame : Frame P) (rest : List (Frame P)) :
    ptrs (frame :: rest) = frame.ptr :: (frame.sibling.toList ++ ptrs rest) := rfl

@[simp] theorem ptrs_append (inner outer : List (Frame P)) : ptrs (inner ++ outer) = ptrs inner ++
    ptrs outer := List.flatMap_append

theorem plug_perm (frames : List (Frame P)) (tree : Tree P) : (plug frames tree).toList.Perm
    (tree.toList ++ ptrs frames) := by
  induction frames generalizing tree with
  | nil => simp [plug]
  | cons frame rest ih =>
    refine (ih (frame.fill tree)).trans ?_
    have shape := Tree.branch_perm frame.side frame.red tree frame.ptr frame.sibling
    refine (List.Perm.append_right (ptrs rest) shape).trans ?_
    simp only [ptrs_cons, List.cons_append, List.append_assoc]
    exact perm_middle.symm

variable {frames : List (Frame P)} {other : P → Node P} {tree : Tree P} {p : P} {near far : Tree P}

theorem mem_plug : p ∈ (plug frames tree).toList ↔ p ∈ tree.toList ∨ p ∈ ptrs frames := by
  rw [(plug_perm frames tree).mem_iff, mem_append]

variable (heap : P → Node P) (nil root : P)

/-- The heap spells out the tree below `parent`. -/
def Linked (parent : P) : Tree P → Prop
  | .leaf => True
  | .node red left p right =>
    (heap p).red = red ∧ (heap p).parent = parent ∧ (heap p).left = left.ptr nil ∧
      (heap p).right = right.ptr nil ∧ Linked p left ∧ Linked p right

/-- The heap spells out everything around a position at which `hole` hangs. -/
def Around : List (Frame P) → P → Prop
  | [], hole => (heap root).left = hole
  | frame :: rest, hole =>
    (heap frame.ptr).red = frame.red ∧ (heap frame.ptr).parent = above root rest ∧
      (heap frame.ptr).child frame.side = hole ∧
      (heap frame.ptr).child frame.side.flip = frame.sibling.ptr nil ∧
      Linked heap nil frame.ptr frame.sibling ∧ Around rest frame.ptr

/-- A whole tree in memory. `root` is a header above the top; `nil` stands for
every absent child, and its links may hold anything. -/
structure Holds (tree : Tree P) : Prop where
  linked : Linked heap nil root tree
  top : (heap root).left = tree.ptr nil
  header : (heap root).right = nil
  nilBlack : (heap nil).red = false
  rootBlack : (heap root).red = false
  distinct : (nil :: root :: tree.toList).Nodup

variable {heap nil root}

theorem linked_branch {parent p : P} {side : Side} :
    Linked heap nil parent (.branch side color near p far) ↔ (heap p).red = color ∧
    (heap p).parent = parent ∧ (heap p).child side = near.ptr nil ∧
        (heap p).child side.flip = far.ptr nil ∧ Linked heap nil p near ∧ Linked heap nil p far := by
  cases side with
  | left => rfl
  | right =>
    simp only [Tree.branch, Linked, Node.child, Side.flip]
    tauto

theorem Linked.congr {parent : P} (linked : Linked heap nil parent tree) (same : ∀ p ∈ tree.toList,
    other p = heap p) : Linked other nil parent tree := by
  induction tree generalizing parent with
  | leaf => trivial
  | node red left p right ihl ihr =>
    obtain ⟨color, up, first, second, below, beside⟩ := linked
    have own := same p (by simp [Tree.toList])
    refine ⟨own ▸ color, own ▸ up, own ▸ first, own ▸ second, ihl below ?_, ihr beside ?_⟩
    all_goals
      intro q member
      exact same q (by simp [Tree.toList, member])

theorem Linked.reparent {parent above : P} (linked : Linked heap nil parent tree)
    (distinct : tree.toList.Nodup) (top : tree.ptr nil ∈ tree.toList →
    other (tree.ptr nil) = { heap (tree.ptr nil) with parent := above })
    (same : ∀ p ∈ tree.toList, p ≠ tree.ptr nil → other p = heap p) : Linked other nil above tree := by
  cases tree with
  | leaf => trivial
  | node red left p =>
    obtain ⟨color, _, first, second, below, beside⟩ := linked
    have own : other p = { heap p with parent := above } := top (by simp [Tree.toList, Tree.ptr])
    have parts := (List.nodup_middle.mp distinct)
    simp only [nodup_cons, mem_append, not_or] at parts
    refine ⟨by rwa [own], by rw [own], by rwa [own], by rwa [own], below.congr ?_, beside.congr ?_⟩
    · intro q member
      refine same q (by simp [Tree.toList, member]) ?_
      rintro rfl
      exact parts.1.1 member
    · intro q member
      refine same q (by simp [Tree.toList, member]) ?_
      rintro rfl
      exact parts.1.2 member

theorem Around.congr {hole : P} (around : Around heap nil root frames hole)
    (header : other root = heap root) (same : ∀ p ∈ ptrs frames, other p = heap p) :
    Around other nil root frames hole := by
  induction frames generalizing hole with
  | nil => exact (congrArg Node.left header).trans around
  | cons frame rest ih =>
    obtain ⟨color, up, near, far, beside, outer⟩ := around
    have own := same frame.ptr (by simp)
    refine ⟨own ▸ color, own ▸ up, own ▸ near, own ▸ far, beside.congr ?_, ih outer ?_⟩
    all_goals
      intro q member
      exact same q (by simp [member])

theorem plug_linked : (Linked heap nil root (plug frames tree) ∧
    (heap root).left = (plug frames tree).ptr nil) ↔ Linked heap nil (above root frames) tree ∧
    Around heap nil root frames (tree.ptr nil) := by
  induction frames generalizing tree with
  | nil => rfl
  | cons frame rest ih =>
    rw [plug, ih, Frame.fill, linked_branch, Tree.ptr_branch]
    simp only [above, Around]
    tauto

theorem Holds.congr (holds : Holds heap nil root tree) (same : ∀ p ∈ nil :: root :: tree.toList,
    other p = heap p) : Holds other nil root tree := by
  have nilSame := same nil (by simp)
  have rootSame := same root (by simp)
  refine ⟨holds.linked.congr fun p member => same p (by simp [member]), ?_, ?_, ?_, ?_, holds.distinct⟩
  · rw [rootSame]
    exact holds.top
  · rw [rootSame]
    exact holds.header
  · rw [nilSame]
    exact holds.nilBlack
  · rw [rootSame]
    exact holds.rootBlack

theorem Around.rehang {hole new : P} (around : Around heap nil root frames hole)
    (distinct : (root :: ptrs frames).Nodup)
    (write : other (above root frames) = (heap (above root frames)).withChild (hangs frames) new)
    (same : ∀ p ∈ root :: ptrs frames, p ≠ above root frames → other p = heap p) : Around other nil root frames new := by
  cases frames with
  | nil =>
    change (other root).left = new
    change other root = (heap root).withChild .left new at write
    rw [write]
    rfl
  | cons =>
    obtain ⟨color, up, _, far, beside, outer⟩ := around
    simp only [above, hangs] at write same
    simp only [ptrs_cons, nodup_cons, mem_cons, mem_append, not_or] at distinct same
    refine ⟨by rw [write]; simpa using color, by rw [write]; simpa using up, by rw [write]; simp,
      by rw [write]; simpa using far, beside.congr ?_, outer.congr ?_ ?_⟩
    · intro q member
      refine same q (.inr (.inr (.inl member))) ?_
      rintro rfl
      exact distinct.2.1.1 member
    · exact same root (.inl rfl) distinct.1.1
    · intro q member
      refine same q (.inr (.inr (.inr member))) ?_
      rintro rfl
      exact distinct.2.1.2 member

variable (heap nil root) in
/-- A tree in memory seen from one of its positions. -/
structure Focus (frames : List (Frame P)) (tree : Tree P) : Prop where
  linked : Linked heap nil (above root frames) tree
  around : Around heap nil root frames (tree.ptr nil)
  header : (heap root).right = nil
  nilBlack : (heap nil).red = false
  rootBlack : (heap root).red = false
  distinct : (nil :: root :: (tree.toList ++ ptrs frames)).Nodup

theorem holds_plug : Holds heap nil root (plug frames tree) ↔ Focus heap nil root frames tree := by
  have order := ((plug_perm frames tree).cons root).cons nil
  constructor
  · intro holds
    obtain ⟨linked, around⟩ := plug_linked.mp ⟨holds.linked, holds.top⟩
    exact ⟨linked, around, holds.header, holds.nilBlack, holds.rootBlack, order.nodup_iff.mp holds.distinct⟩
  · intro focus
    obtain ⟨linked, top⟩ := plug_linked.mpr ⟨focus.linked, focus.around⟩
    exact ⟨linked, top, focus.header, focus.nilBlack, focus.rootBlack, order.nodup_iff.mpr focus.distinct⟩

namespace Focus
variable {frames : List (Frame P)} {tree : Tree P} {frame : Frame P}

theorem refocus {others : List (Frame P)} {other : Tree P} (focus : Focus heap nil root frames tree)
    (same : plug others other = plug frames tree) : Focus heap nil root others other :=
    holds_plug.mp (same ▸ holds_plug.mpr focus)

theorem up (focus : Focus heap nil root (frame :: frames) tree) : Focus heap nil root frames
    (frame.fill tree) := focus.refocus rfl

theorem down (focus : Focus heap nil root frames (frame.fill tree)) :
    Focus heap nil root (frame :: frames) tree := focus.refocus rfl

theorem across {side : Side} {sibling : Tree P} (focus : Focus heap nil root (⟨side, color, p, sibling⟩ :: frames) tree) :
    Focus heap nil root (⟨side.flip, color, p, tree⟩ :: frames) sibling :=
      focus.refocus (congrArg (plug frames) (Tree.branch_flip side color sibling p tree))

section
variable (focus : Focus heap nil root frames tree)
include focus

theorem nil_ne_root : nil ≠ root := by
  have distinct := focus.distinct
  simp only [nodup_cons, mem_cons, not_or] at distinct
  exact distinct.1.1

theorem nil_notMem : nil ∉ tree.toList ++ ptrs frames := by
  have distinct := focus.distinct
  simp only [nodup_cons, mem_cons, not_or] at distinct
  exact distinct.1.2

theorem root_notMem : root ∉ tree.toList ++ ptrs frames := by
  have distinct := focus.distinct
  simp only [nodup_cons] at distinct
  exact distinct.2.1

theorem nodup : (tree.toList ++ ptrs frames).Nodup := by
  have distinct := focus.distinct
  simp only [nodup_cons] at distinct
  exact distinct.2.2

theorem nodup_frames : (root :: ptrs frames).Nodup := by
  have parts := nodup_append.mp focus.nodup
  exact nodup_cons.mpr ⟨fun member => focus.root_notMem (mem_append_right _ member), parts.2.1⟩

theorem above_ne_nil : above root frames ≠ nil := by
  cases frames with
  | nil => exact focus.nil_ne_root.symm
  | cons =>
    intro same
    apply focus.nil_notMem
    rw [← same]
    simp [above]

theorem above_notMem : above root frames ∉ tree.toList := by
  intro member
  cases frames with
  | nil => exact focus.root_notMem (mem_append_left _ member)
  | cons =>
    exact (nodup_append.mp focus.nodup).2.2 _ member _ (by simp [above]) rfl

theorem outside (member : p ∈ tree.toList) : p ∉ root :: ptrs frames := by
  intro elsewhere
  rcases mem_cons.mp elsewhere with rfl | elsewhere
  · exact focus.root_notMem (mem_append_left _ member)
  · exact (nodup_append.mp focus.nodup).2.2 p member p elsewhere rfl

theorem ne_nil (member : p ∈ tree.toList) : p ≠ nil := fun same => focus.nil_notMem (mem_append_left _ (same ▸ member))

theorem ne_above (member : p ∈ tree.toList) : p ≠ above root frames := fun same => focus.above_notMem (same ▸ member)

theorem outer_ne_nil (member : p ∈ root :: ptrs frames) : p ≠ nil := by
  rintro rfl
  rcases mem_cons.mp member with here | member
  · exact focus.nil_ne_root here
  · exact focus.nil_notMem (mem_append_right _ member)

end

theorem parent {side : Side} (focus : Focus heap nil root frames (.branch side color near p far)) :
    (heap p).parent = above root frames := (linked_branch.mp focus.linked).2.1

theorem red_ptr (focus : Focus heap nil root frames tree) : (heap (tree.ptr nil)).red = tree.red := by
  cases tree with
  | leaf => exact focus.nilBlack
  | node => exact focus.linked.1

theorem red_above (focus : Focus heap nil root (frame :: frames) tree) : (heap frame.ptr).red = frame.red := focus.around.1

theorem sibling (focus : Focus heap nil root (frame :: frames) tree) :
    (heap frame.ptr).child frame.side.flip = frame.sibling.ptr nil := focus.around.2.2.2.1

section
variable (focus : Focus heap nil root frames tree)
include focus

theorem here : (heap (above root frames)).child (hangs frames) = tree.ptr nil := by
  cases frames with
  | nil => exact focus.around
  | cons => exact focus.around.2.2.1

theorem elsewhere (present : tree.ptr nil ≠ nil) : (heap (above root frames)).child (hangs frames).flip ≠ tree.ptr nil := by
  cases frames with
  | nil =>
    change (heap root).right ≠ _
    rw [focus.header]
    exact present.symm
  | cons frame =>
    change (heap frame.ptr).child frame.side.flip ≠ _
    rw [focus.sibling]
    intro clash
    have inSibling := clash ▸ Tree.ptr_mem (by rwa [clash])
    exact focus.outside (Tree.ptr_mem present) (by simp [inSibling])

theorem side_test [DecidableEq P] (present : tree.ptr nil ≠ nil) :
    (if tree.ptr nil = (heap (above root frames)).left then Side.left else Side.right) = hangs
    frames := by
  have near := focus.here
  have far := focus.elsewhere present
  cases side : hangs frames with
  | left =>
    rw [side] at near
    exact if_pos near.symm
  | right =>
    rw [side] at far
    exact if_neg (Ne.symm far)

theorem header_rehang {other : P → Node P} {new : P}
    (write : other (above root frames) = (heap (above root frames)).withChild (hangs frames) new)
    (same : root ≠ above root frames → other root = heap root) : (other root).right = nil ∧ (other root).red = false := by
  cases frames with
  | nil =>
    change other root = (heap root).withChild .left new at write
    rw [write]
    exact ⟨focus.header, focus.rootBlack⟩
  | cons =>
    rw [same fun top => focus.root_notMem (by simp [top, above])]
    exact ⟨focus.header, focus.rootBlack⟩

/-- Another tree hangs at the position, and nothing else but the link from above has changed. -/
theorem replace {other : P → Node P} {new : Tree P}
    (linked : Linked other nil (above root frames) new)
    (write : other (above root frames) = (heap (above root frames)).withChild (hangs frames)
    (new.ptr nil))
    (same : ∀ p ∈ root :: ptrs frames, p ≠ above root frames → other p = heap p)
      (nilBlack : (other nil).red = false)
      (distinct : (nil :: root :: (new.toList ++ ptrs frames)).Nodup) :
      Focus other nil root frames new := by
  obtain ⟨header, rootBlack⟩ := focus.header_rehang write (same root (by simp))
  exact ⟨linked, focus.around.rehang focus.nodup_frames write same, header, nilBlack, rootBlack, distinct⟩

end

end Focus

end Ucore.Lib.LinkedTree
