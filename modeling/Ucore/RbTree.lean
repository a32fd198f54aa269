import Ucore.Fault
import Ucore.Lib.Machine
import Ucore.Lib.LinkedTree

/-! The red-black tree of the kernel library. Nodes live in memory and are linked
in place; the mirrored macro bodies take the side they are expanded for. -/

namespace Ucore.RbTree
open Lib.LinkedTree Function
export Lib.LinkedTree (Tree)

abbrev Ptr := Nat
abbrev Heap := Ptr → Node Ptr

/-- The header of a tree. `root->left` is the top node, `nil` every absent one. -/
structure Header where
  nil : Ptr
  root : Ptr
deriving Repr, DecidableEq

def setChild (heap : Heap) (p : Ptr) (side : Side) (child : Ptr) : Heap :=
  update heap p ((heap p).withChild side child)

def setParent (heap : Heap) (p parent : Ptr) : Heap :=
  update heap p { heap p with parent }

def setRed (heap : Heap) (p : Ptr) (red : Bool) : Heap :=
  update heap p { heap p with red }

/-- `if (old == parent->_left) parent->_left = new; else parent->_right = new;` -/
def replaceChild (heap : Heap) (side : Side) (parent old new : Ptr) : Heap :=
  if old = (heap parent).child side then setChild heap parent side new
  else setChild heap parent side.flip new

def treeCreate (heap : Heap) (nil root : Ptr) : Heap :=
  let heap := update heap nil ⟨false, nil, nil, nil⟩
  update heap root ⟨false, nil, nil, nil⟩

/-- The assignments of `FUNC_ROTATE(_left, _right)` with `side` for `_left`. -/
def rotateLinks (side : Side) (nil x : Ptr) (heap : Heap) : Heap :=
  let y := (heap x).child side.flip
  let heap := setChild heap x side.flip ((heap y).child side)
  let heap := if (heap y).child side ≠ nil then setParent heap ((heap y).child side) x else heap
  let heap := setParent heap y (heap x).parent
  let heap := replaceChild heap side (heap x).parent x y
  let heap := setChild heap y side x
  setParent heap x y

def rotate (side : Side) (tree : Header) (x : Ptr) (heap : Heap) : Kernel Heap := do
  ensure (x ≠ tree.root ∧ x ≠ tree.nil ∧ (heap x).child side.flip ≠ tree.nil)
    "x != tree->root && x != nil && y != nil"
  let heap := rotateLinks side tree.nil x heap
  ensure ((heap tree.nil).red = false) "!(nil->red)"
  pure heap

section
variable (compare : Ptr → Ptr → Int) (tree : Header)

/-- The search loop of `rb_insert_binary`. -/
def descend (heap : Heap) (node : Ptr) : Nat → Ptr → Ptr → Kernel Ptr
  | 0, _, _ => .error .exhausted
  | fuel + 1, y, x =>
    if x ≠ tree.nil then
      descend heap node fuel x (if compare x node > 0 then (heap x).left else (heap x).right)
    else pure y

def insertBinary (fuel : Nat) (node : Ptr) (heap : Heap) : Kernel Heap := do
  let heap := setChild heap node .right tree.nil
  let heap := setChild heap node .left tree.nil
  let y ← descend compare tree heap node fuel tree.root (heap tree.root).left
  let heap := setParent heap node y
  if y = tree.root ∨ compare y node > 0 then pure (setChild heap y .left node)
  else pure (setChild heap y .right node)

/-- The first rotation of `RB_INSERT_SUB(_left, _right)`, with `side` for `_left`. -/
def insertAlign (side : Side) (heap : Heap) (x : Ptr) : Kernel (Heap × Ptr) :=
  if x = (heap (heap x).parent).child side.flip then do
    let x := (heap x).parent
    let heap ← rotate side tree x heap
    pure (heap, x)
  else pure (heap, x)

/-- `RB_INSERT_SUB(_left, _right)` with `side` for `_left`. -/
def insertSub (side : Side) (heap : Heap) (x : Ptr) : Kernel (Heap × Ptr) :=
  let y := (heap (heap (heap x).parent).parent).child side.flip
  if (heap y).red then
    let heap := setRed heap (heap x).parent false
    let heap := setRed heap y false
    let heap := setRed heap (heap (heap x).parent).parent true
    pure (heap, (heap (heap x).parent).parent)
  else do
    let (heap, x) ← insertAlign tree side heap x
    let heap := setRed heap (heap x).parent false
    let heap := setRed heap (heap (heap x).parent).parent true
    let heap ← rotate side.flip tree (heap (heap x).parent).parent heap
    pure (heap, x)

def insertFixup : Nat → Heap → Ptr → Kernel Heap
  | 0, _, _ => .error .exhausted
  | fuel + 1, heap, x =>
    if (heap (heap x).parent).red then do
      let side := if (heap x).parent = (heap (heap (heap x).parent).parent).left then Side.left else Side.right
      let (heap, x) ← insertSub tree side heap x
      insertFixup fuel heap x
    else pure heap

def insert (fuel : Nat) (node : Ptr) (heap : Heap) : Kernel Heap := do
  let heap ← insertBinary compare tree fuel node heap
  let heap := setRed heap node true
  let heap ← insertFixup tree fuel heap node
  let heap := setRed heap (heap tree.root).left false
  ensure ((heap tree.nil).red = false ∧ (heap tree.root).red = false) "!(tree->nil->red) && !(tree->root->red)"
  pure heap

/-- The furthest node on one side below `y`. -/
def extreme (side : Side) (heap : Heap) : Nat → Ptr → Kernel Ptr
  | 0, _ => .error .exhausted
  | fuel + 1, y =>
    if (heap y).child side ≠ tree.nil then extreme side heap fuel ((heap y).child side) else pure y

/-- The upward loop of `rb_tree_successor`. -/
def climbRight (heap : Heap) : Nat → Ptr → Ptr → Kernel Ptr
  | 0, _, _ => .error .exhausted
  | fuel + 1, x, y => if x = (heap y).right then climbRight heap fuel y (heap y).parent else pure y

def successor (fuel : Nat) (heap : Heap) (node : Ptr) : Kernel Ptr := do
  if (heap node).right ≠ tree.nil then extreme tree .left heap fuel (heap node).right
  else
    let y ← climbRight heap fuel node (heap node).parent
    pure (if y = tree.root then tree.nil else y)

/-- The upward loop of `rb_tree_predecessor`, which stops at the header itself. -/
def climbLeft (heap : Heap) : Nat → Ptr → Ptr → Kernel Ptr
  | 0, _, _ => .error .exhausted
  | fuel + 1, x, y =>
    if x = (heap y).left then
      if y = tree.root then pure tree.nil else climbLeft heap fuel y (heap y).parent
    else pure y

def predecessor (fuel : Nat) (heap : Heap) (node : Ptr) : Kernel Ptr :=
  if (heap node).left ≠ tree.nil then extreme tree .right heap fuel (heap node).left
  else climbLeft tree heap fuel node (heap node).parent

/-- The sibling of `x`, rotated to be black first if it is red. This is how
`RB_DELETE_FIXUP_SUB(_left, _right)` starts, with `side` for `_left`. -/
def deleteSibling (side : Side) (heap : Heap) (x : Ptr) : Kernel (Heap × Ptr) :=
  let w := (heap (heap x).parent).child side.flip
  if (heap w).red then do
    let heap := setRed heap w false
    let heap := setRed heap (heap x).parent true
    let heap ← rotate side tree (heap x).parent heap
    pure (heap, (heap (heap x).parent).child side.flip)
  else pure (heap, w)

/-- The sibling of `x`, rotated to have a red child on its far side. -/
def deleteAlign (side : Side) (heap : Heap) (x w : Ptr) : Kernel (Heap × Ptr) :=
  if (heap ((heap w).child side.flip)).red = false then do
    let heap := setRed heap ((heap w).child side) false
    let heap := setRed heap w true
    let heap ← rotate side.flip tree w heap
    pure (heap, (heap (heap x).parent).child side.flip)
  else pure (heap, w)

/-- `RB_DELETE_FIXUP_SUB(_left, _right)` with `side` for `_left`. `root` is the
top node as it was before the first rotation. -/
def deleteSub (side : Side) (root : Ptr) (heap : Heap) (x : Ptr) : Kernel (Heap × Ptr) := do
  let (heap, w) ← deleteSibling tree side heap x
  if (heap ((heap w).child side)).red = false ∧ (heap ((heap w).child side.flip)).red = false then
    let heap := setRed heap w true
    pure (heap, (heap x).parent)
  else
    let (heap, w) ← deleteAlign tree side heap x w
    let heap := setRed heap w (heap (heap x).parent).red
    let heap := setRed heap (heap x).parent false
    let heap := setRed heap ((heap w).child side.flip) false
    let heap ← rotate side tree (heap x).parent heap
    pure (heap, root)

def deleteFixup (root : Ptr) : Nat → Heap → Ptr → Kernel Heap
  | 0, _, _ => .error .exhausted
  | fuel + 1, heap, x =>
    if x ≠ root ∧ (heap x).red = false then do
      let side := if x = (heap (heap x).parent).left then Side.left else Side.right
      let (heap, x) ← deleteSub tree side root heap x
      deleteFixup root fuel heap x
    else pure (setRed heap x false)

/-- The node that leaves its place when `z` is deleted. -/
def spliced (fuel : Nat) (heap : Heap) (z : Ptr) : Kernel Ptr :=
  if (heap z).left = tree.nil ∨ (heap z).right = tree.nil then pure z else successor tree fuel heap z

/-- Put `y` into the place of `z`, with `*y = *z`. -/
def takePlace (heap : Heap) (y z : Ptr) : Heap :=
  let heap := replaceChild heap .left (heap z).parent z y
  let heap := setParent heap (heap z).right y
  let heap := setParent heap (heap z).left y
  update heap y (heap z)

def delete (fuel : Nat) (node : Ptr) (heap : Heap) : Kernel Heap := do
  let z := node
  let y ← spliced tree fuel heap z
  let x := if (heap y).left ≠ tree.nil then (heap y).left else (heap y).right
  ensure (y ≠ tree.root ∧ y ≠ tree.nil) "y != root && y != nil"
  let heap := setParent heap x (heap y).parent
  let heap := replaceChild heap .left (heap y).parent y x
  let needFixup := (heap y).red = false
  let heap := if y ≠ z then takePlace heap y z else heap
  if needFixup then deleteFixup tree (heap tree.root).left fuel heap x else pure heap

/-- `check_tree`, which returns the black height. -/
def checkTree (heap : Heap) : Nat → Ptr → Kernel Nat
  | 0, _ => .error .exhausted
  | fuel + 1, node =>
    if node = tree.nil then do
      ensure ((heap node).red = false) "!node->red"
      pure 1
    else do
      let left := (heap node).left
      let right := (heap node).right
      ensure (left ≠ tree.nil → compare node left ≥ 0) "COMPARE(tree, node, node->left) >= 0"
      ensure (left ≠ tree.nil → (heap left).parent = node) "node->left->parent == node"
      ensure (right ≠ tree.nil → compare node right ≤ 0) "COMPARE(tree, node, node->right) <= 0"
      ensure (right ≠ tree.nil → (heap right).parent = node) "node->right->parent == node"
      ensure ((heap node).red = true → (heap left).red = false ∧ (heap right).red = false)
        "!node->left->red && !node->right->red"
      let hbLeft ← checkTree heap fuel left
      let hbRight ← checkTree heap fuel right
      ensure (hbLeft = hbRight) "hb_left == hb_right"
      pure (if (heap node).red then hbLeft else hbLeft + 1)

end

/-- A tree in memory with the nodes that have been inserted and not deleted. -/
structure State where
  heap : Heap
  tree : Header
  nodes : List Ptr

inductive Op where
  | insert (node : Ptr)
  | delete (node : Ptr)

/-- Every loop may take one turn for each node of the tree and one to stop. -/
def step (compare : Ptr → Ptr → Int) (state : State) : Op → Kernel (State × Unit)
  | .insert node => do
    let heap ← insert compare state.tree (state.nodes.length + 2) node state.heap
    pure ({ state with heap, nodes := node :: state.nodes }, ())
  | .delete node => do
    let heap ← delete state.tree (state.nodes.length + 2) node state.heap
    pure ({ state with heap, nodes := state.nodes.erase node }, ())

def Allowed (state : State) : Op → Prop
  | .insert node => node ≠ state.tree.nil ∧ node ≠ state.tree.root ∧ node ∉ state.nodes
  | .delete node => node ∈ state.nodes

/-- The tree starts as `rb_tree_create` leaves it. -/
def machine (compare : Ptr → Ptr → Int) : Lib.Machine State Op Unit Fault where
  start state := state.tree.nil ≠ state.tree.root ∧ state.nodes = [] ∧
    ∃ heap, state.heap = treeCreate heap state.tree.nil state.tree.root
  allowed := Allowed
  step := step compare

end Ucore.RbTree
