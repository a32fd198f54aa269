import Ucore.Lib.LinkedTree

/-! Balance and order of red-black trees, for whole trees and for positions in
them. A position accepts a subtree of one black height, and a red one only below
a black node. -/

namespace Ucore.Lib.LinkedTree
open List

variable {P : Type} {red : Bool} {frames : List (Frame P)} {height : Nat} {p : P} {tree : Tree P}
    {side : Side} {near far : Tree P} {accepts : Bool}

/-- `Balanced red height tree`: no red node has a red child and every way down
passes `height` black nodes. -/
inductive Balanced : Bool → Nat → Tree P → Prop where
  | leaf : Balanced false 0 .leaf
  | red {height : Nat} {left right : Tree P} {p : P}
      (first : Balanced false height left) (second : Balanced false height right) :
      Balanced true height (.node true left p right)
  | black {height : Nat} {colorLeft colorRight : Bool} {left right : Tree P} {p : P}
      (first : Balanced colorLeft height left) (second : Balanced colorRight height right) :
      Balanced false (height + 1) (.node false left p right)

/-- `Fits red height frames`: the position completes to a balanced tree with a
black top when a tree of this height is put there, red only if `red`. -/
inductive Fits : Bool → Nat → List (Frame P) → Prop where
  | top {height : Nat} : Fits false height []
  | black {height : Nat} {color accepts : Bool} {side : Side} {p : P} {sibling : Tree P} {rest : List (Frame P)}
      (beside : Balanced color height sibling) (outer : Fits accepts (height + 1) rest) :
      Fits true height (⟨side, false, p, sibling⟩ :: rest)
  | red {height : Nat} {side : Side} {p : P} {sibling : Tree P} {rest : List (Frame P)}
      (beside : Balanced false height sibling) (outer : Fits true height rest) :
      Fits false height (⟨side, true, p, sibling⟩ :: rest)

theorem Balanced.color (balanced : Balanced red height tree) : tree.red = red := by
  cases balanced <;> rfl

theorem balanced_red : Balanced red height (.branch side true near p far) ↔ red = true ∧
    Balanced false height near ∧ Balanced false height far := by
  constructor
  · intro balanced
    cases side <;> cases balanced with
    | red => exact ⟨rfl, by assumption, by assumption⟩
  · intro ⟨color, first, second⟩
    subst color
    cases side
    · exact .red first second
    · exact .red second first

theorem balanced_black : Balanced red height (.branch side false near p far) ↔ red = false ∧
    ∃ below colorNear colorFar, height = below + 1 ∧ Balanced colorNear below near ∧
    Balanced colorFar below far := by
  constructor
  · intro balanced
    cases side <;> cases balanced with
    | black => exact ⟨rfl, _, _, _, rfl, by assumption, by assumption⟩
  · intro ⟨color, below, _, _, same, first, second⟩
    subst color same
    cases side
    · exact .black first second
    · exact .black second first

theorem Balanced.as_red (balanced : Balanced true height tree) (side : Side) : ∃ near p far,
    tree = .branch side true near p far ∧ Balanced false height near ∧
    Balanced false height far := by
  cases balanced with
  | @red _ left right p first second =>
    cases side
    · exact ⟨left, p, right, rfl, first, second⟩
    · exact ⟨right, p, left, rfl, second, first⟩

theorem Balanced.as_black (balanced : Balanced false (height + 1) tree) (side : Side) :
    ∃ near p far colorNear colorFar, tree = .branch side false near p far ∧
    Balanced colorNear height near ∧ Balanced colorFar height far := by
  cases balanced with
  | @black _ colorLeft colorRight left right p first second =>
    cases side
    · exact ⟨left, p, right, _, _, rfl, first, second⟩
    · exact ⟨right, p, left, _, _, rfl, second, first⟩

theorem Fits.complete (fits : Fits accepts height frames) (balanced : Balanced red height tree)
    (suits : red = true → accepts = true) : ∃ total, Balanced false total (plug frames tree) := by
  induction fits generalizing red tree with
  | @top height =>
    cases red with
    | false => exact ⟨height, balanced⟩
    | true => exact absurd (suits rfl) (by simp)
  | black beside outer ih =>
    exact ih (balanced_black.mpr ⟨rfl, _, _, _, rfl, balanced, beside⟩) (by simp)
  | red beside outer ih =>
    cases red with
    | false => exact ih (balanced_red.mpr ⟨rfl, balanced, beside⟩) (by simp)
    | true => exact absurd (suits rfl) (by simp)

theorem Fits.of_complete {total : Nat} (balanced : Balanced false total (plug frames tree)) :
    ∃ accepts red height, Fits accepts height frames ∧ Balanced red height tree ∧
    (red = true → accepts = true) := by
  induction frames generalizing tree with
  | nil => exact ⟨false, false, total, .top, balanced, by simp⟩
  | cons frame rest ih =>
    obtain ⟨accepts, red, height, outer, filled, suits⟩ := ih balanced
    obtain ⟨side, color, p, sibling⟩ := frame
    cases color with
    | true =>
      obtain ⟨rfl, inner, beside⟩ := balanced_red.mp filled
      obtain rfl := suits rfl
      exact ⟨false, false, height, .red beside outer, inner, by simp⟩
    | false =>
      obtain ⟨rfl, below, colorNear, colorFar, rfl, inner, beside⟩ := balanced_black.mp filled
      exact ⟨true, colorNear, below, .black beside outer, inner, fun _ => rfl⟩

def blacken : Tree P → Tree P
  | .leaf => .leaf
  | .node _ left p right => .node false left p right

theorem Balanced.blackened (balanced : Balanced red height tree) : ∃ total, Balanced false total (blacken tree) := by
  cases balanced with
  | leaf => exact ⟨0, .leaf⟩
  | red first second | black first second => exact ⟨_, .black first second⟩

@[simp] theorem toList_blacken (tree : Tree P) : (blacken tree).toList = tree.toList := by cases tree <;> rfl

def lefts : List (Frame P) → List P
  | [] => []
  | frame :: rest => lefts rest ++ match frame.side with
    | .left => []
    | .right => frame.sibling.toList ++ [frame.ptr]

def rights : List (Frame P) → List P
  | [] => []
  | frame :: rest => (match frame.side with
    | .left => frame.ptr :: frame.sibling.toList
    | .right => []) ++ rights rest

theorem toList_plug (frames : List (Frame P)) (tree : Tree P) :
    (plug frames tree).toList = lefts frames ++ (tree.toList ++ rights frames) := by
  induction frames generalizing tree with
  | nil => simp [plug, lefts, rights]
  | cons frame rest ih =>
    obtain ⟨side, color, p, sibling⟩ := frame
    rw [plug, ih]
    cases side <;> simp [Frame.fill, Tree.branch, Tree.toList, lefts, rights]

theorem toList_recolor (side : Side) (color other : Bool) (near : Tree P) (p : P) (far : Tree P) :
    (Tree.branch side color near p far).toList = (Tree.branch side other near p far).toList := by
  cases side <;> rfl

theorem toList_rotate (side : Side) (colorX colorY : Bool) (a b d : Tree P) (x y : P) :
    (Tree.branch side colorY (.branch side colorX a x b) y d).toList =
    (Tree.branch side colorX a x (.branch side colorY b y d)).toList := by
  cases side <;> simp [Tree.branch, Tree.toList]

theorem toList_plug_congr (frames : List (Frame P)) {first second : Tree P}
    (same : first.toList = second.toList) :
    (plug frames first).toList = (plug frames second).toList := by
  rw [toList_plug, toList_plug, same]

theorem exists_position (member : p ∈ tree.toList) : ∃ frames color left right, tree = plug frames
    (.branch .left color left p right) := by
  induction tree with
  | leaf => simp [Tree.toList] at member
  | node color left q right ihl ihr =>
    simp only [Tree.toList, mem_append, mem_cons] at member
    rcases member with member | rfl | member
    · obtain ⟨frames, inner, first, second, rfl⟩ := ihl member
      exact ⟨frames ++ [⟨.left, color, q, right⟩], inner, first, second, by rw [plug_append]; rfl⟩
    · exact ⟨[], color, left, right, rfl⟩
    · obtain ⟨frames, inner, first, second, rfl⟩ := ihr member
      exact ⟨frames ++ [⟨.right, color, q, left⟩], inner, first, second, by rw [plug_append]; rfl⟩

theorem ptr_plug_cons (nil : P) (frame : Frame P) (rest : List (Frame P)) (first second : Tree P) :
    (plug (frame :: rest) first).ptr nil = (plug (frame :: rest) second).ptr nil := by
  induction rest generalizing frame first second with
  | nil => rw [plug, plug, plug, plug, Frame.fill, Frame.fill, Tree.ptr_branch, Tree.ptr_branch]
  | cons next rest ih => exact ih next (frame.fill first) (frame.fill second)

theorem ptr_plug_mem (nil : P) (frame : Frame P) (rest : List (Frame P)) (tree : Tree P) :
    (plug (frame :: rest) tree).ptr nil ∈ ptrs (frame :: rest) := by
  induction rest generalizing frame tree with
  | nil =>
    rw [plug, plug, Frame.fill]
    simp
  | cons next rest ih =>
    exact mem_cons_of_mem _ (mem_append_right _ (ih next (frame.fill tree)))

theorem Fits.rename {inner outer : List (Frame P)} {color : Bool} {q : P} {sibling : Tree P}
    (fits : Fits accepts height (inner ++ ⟨side, color, p, sibling⟩ :: outer)) :
    Fits accepts height (inner ++ ⟨side, color, q, sibling⟩ :: outer) := by
  induction inner generalizing accepts height with
  | nil =>
    cases fits with
    | black beside outer => exact .black beside outer
    | red beside outer => exact .red beside outer
  | cons frame rest ih =>
    cases fits with
    | black beside outer => exact .black beside (ih outer)
    | red beside outer => exact .red beside (ih outer)

theorem lefts_of_left (turns : ∀ frame ∈ frames, frame.side = .left) : lefts frames = [] := by
  induction frames with
  | nil => rfl
  | cons frame rest ih =>
    rw [lefts, ih fun other member => turns other (by simp [member]), turns frame (by simp)]
    rfl

theorem rights_of_right (turns : ∀ frame ∈ frames, frame.side = .right) : rights frames = [] := by
  induction frames with
  | nil => rfl
  | cons frame rest ih =>
    rw [rights, ih fun other member => turns other (by simp [member]), turns frame (by simp)]
    rfl

theorem length_frames_le (frames : List (Frame P)) (tree : Tree P) : frames.length ≤ (plug frames tree).toList.length := by
  rw [(plug_perm frames tree).length_eq, length_append]
  have bound : frames.length ≤ (ptrs frames).length := by
    induction frames with
    | nil => simp
    | cons =>
      simp only [length_cons, ptrs_cons, length_append]
      omega
  omega

end Ucore.Lib.LinkedTree
