import Mathlib

/-! Trees in which a node points to its parent, to its youngest child and to its two neighbours
among its siblings. The children of every node stand in a list, youngest first. -/

namespace Ucore.Lib
open List Option
open Function (update update_apply update_of_ne update_self)

variable {ν : Type}

structure Family (ν : Type) where
  parent : ν → Option ν
  first : ν → Option ν
  older : ν → Option ν
  younger : ν → Option ν

namespace Family

section Operations
variable [DecidableEq ν]

def setParent (f : Family ν) (c : ν) (p : Option ν) : Family ν := { f with parent := update f.parent c p }

def setFirst (f : Family ν) (p : ν) (c : Option ν) : Family ν := { f with first := update f.first p c }

def setOlder (f : Family ν) (c : ν) (o : Option ν) : Family ν := { f with older := update f.older c o }

def setYounger (f : Family ν) (c : ν) (y : Option ν) : Family ν := { f with younger := update f.younger c y }

/-- A pointer that is followed only when it is not null. -/
def setYoungerOf (f : Family ν) (c y : Option ν) : Family ν :=
  match c with
  | some c => f.setYounger c y
  | none => f

/-- A node becomes the youngest child. -/
def adopt (f : Family ν) (parent child : ν) : Family ν :=
  let f := f.setYounger child none
  let f := f.setOlder child (f.first parent)
  let f := f.setYoungerOf (f.first parent) (some child)
  (f.setParent child (some parent)).setFirst parent (some child)

def clear (f : Family ν) (c : ν) : Family ν := (((f.setParent c none).setFirst c none).setOlder c none).setYounger c none

/-- A node is taken out from among its siblings. -/
def disown (f : Family ν) (parent child : ν) : Family ν :=
  let f := f.setYoungerOf (f.older child) (f.younger child)
  match f.younger child with
  | some y => f.setOlder y (f.older child)
  | none => f.setFirst parent (f.older child)

/-- All children of a node go over to another one, youngest first; `none` when there are more than
the bound. -/
def handOver (source target : ν) : Nat → Family ν → Option (Family ν)
  | 0, f => if (f.first source).isSome then none else some f
  | bound + 1, f =>
    match f.first source with
    | none => some f
    | some child => handOver source target bound ((f.setFirst source (f.older child)).adopt target child)

end Operations

/-- The nodes from one on along the older siblings, at most as many as the bound. -/
def walk (f : Family ν) : Nat → Option ν → List ν
  | 0, _ => []
  | _ + 1, none => []
  | bound + 1, some c => c :: f.walk bound (f.older c)

/-- Neighbours in the list point to each other, its first node to `y` and its last one to `o`. -/
def Chain (f : Family ν) : Option ν → List ν → Option ν → Prop
  | _, [], _ => True
  | y, c :: rest, o => f.younger c = y ∧ f.older c = rest.head?.or o ∧ f.Chain (some c) rest o

variable {f : Family ν} {y o : Option ν} {before after : List ν} {bound : Nat}

theorem chain_append : f.Chain y (before ++ after) o ↔ f.Chain y before (after.head?.or o) ∧
    f.Chain (before.getLast?.or y) after o := by
  induction before generalizing y with
  | nil => simp [Chain]
  | cons c rest ih =>
    have last : ((c :: rest).getLast?).or y = rest.getLast?.or (some c) := by
      cases h : rest.getLast? <;> simp [getLast?_cons, h]
    have head : (rest ++ after).head?.or o = rest.head?.or (after.head?.or o) := by cases rest <;> simp
    simp only [cons_append, Chain, ih, last, head, and_assoc]

theorem Chain.congr {g : Family ν} {list : List ν} (chain : f.Chain y list o) (older : ∀ c ∈ list,
    g.older c = f.older c) (younger : ∀ c ∈ list, g.younger c = f.younger c) :
    g.Chain y list o := by
  induction list generalizing y with
  | nil => trivial
  | cons c rest ih =>
    obtain ⟨back, on, further⟩ := chain
    refine ⟨(younger c (by simp)).trans back, (older c (by simp)).trans on, ih further ?_ ?_⟩
    · exact fun d listed => older d (mem_cons_of_mem _ listed)
    · exact fun d listed => younger d (mem_cons_of_mem _ listed)

theorem Chain.walk {y : Option ν} {list : List ν} (chain : f.Chain y list none)
    (enough : list.length ≤ bound) : f.walk bound list.head? = list := by
  induction list generalizing y bound with
  | nil => cases bound <;> rfl
  | cons c rest ih =>
    cases bound with
    | zero => cases enough
    | succ =>
      obtain ⟨_, on, further⟩ := chain
      rw [head?_cons, Family.walk, on, or_none, ih further (Nat.le_of_succ_le_succ enough)]

/-- The children of a node. The younger neighbour of the first one may be left over from before. -/
structure Holds (f : Family ν) (p : ν) (kids : List ν) (y : Option ν) : Prop where
  first : f.first p = kids.head?
  chain : f.Chain y kids none

structure Represents (f : Family ν) (kids : ν → List ν) : Prop where
  holds : ∀ p, f.Holds p (kids p) none
  distinct : ∀ p, (kids p).Nodup
  parent : ∀ p, ∀ c ∈ kids p, f.parent c = some p

theorem Represents.apart {kids : ν → List ν} (represents : f.Represents kids) {p q c : ν}
    (left : c ∈ kids p) (right : c ∈ kids q) : p = q := by
  have same := (represents.parent p c left).symm.trans (represents.parent q c right)
  injection same

section Operations
variable [DecidableEq ν] {f : Family ν} {kids : ν → List ν} {list : List ν} {c p q source target : ν} {rest : List ν}

@[simp] theorem first_setFirst (p q : ν) (c : Option ν) : (f.setFirst p c).first q = if q = p then
    c else f.first q := by simp [setFirst, update_apply]

@[simp] theorem first_setYoungerOf (c y : Option ν) : (f.setYoungerOf c y).first = f.first := by cases c <;> rfl

@[simp] theorem older_setYoungerOf (c y : Option ν) : (f.setYoungerOf c y).older = f.older := by cases c <;> rfl

theorem younger_setYoungerOf (c y : Option ν) (d : ν) : (f.setYoungerOf c y).younger d = if c = some
    d then y else f.younger d := by
  cases c with
  | none => rfl
  | some => simp [setYoungerOf, setYounger, update_apply, eq_comm]

@[simp] theorem parent_setYoungerOf (c y : Option ν) : (f.setYoungerOf c y).parent = f.parent := by cases c <;> rfl

theorem parent_adopt (p c d : ν) : (f.adopt p c).parent d = if d = c then some p else f.parent d := by
  simp [adopt, setParent, setFirst, setOlder, setYounger, update_apply]

theorem parent_disown (p c : ν) : (f.disown p c).parent = f.parent := by
  simp only [disown]
  split <;> simp [setOlder, setFirst]

theorem first_adopt (p c q : ν) : (f.adopt p c).first q = if q = p then some c else f.first q := by
  simp [adopt, setParent, setFirst, setOlder, setYounger, update_apply]

theorem older_adopt (p c d : ν) : (f.adopt p c).older d = if d = c then f.first p else f.older d := by
  simp [adopt, setParent, setFirst, setOlder, setYounger, update_apply]

theorem younger_adopt (p c d : ν) : (f.adopt p c).younger d = if f.first p = some d then some c else
    if d = c then none else f.younger d := by
  simp only [adopt, setParent, setFirst, younger_setYoungerOf, setOlder, setYounger, update_apply]

theorem Holds.adopt {y : Option ν} (holds : f.Holds q list y) (other : q ≠ p) (new : c ∉ list)
    (away : ∀ d ∈ list, f.first p ≠ some d) : (f.adopt p c).Holds q list y := by
  refine ⟨?_, holds.chain.congr ?_ ?_⟩
  · rw [first_adopt, if_neg other]
    exact holds.first
  · intro d listed
    rw [older_adopt, if_neg]
    rintro rfl
    exact new listed
  · intro d listed
    rw [younger_adopt, if_neg (away d listed), if_neg]
    rintro rfl
    exact new listed

theorem Holds.adopt_own (holds : f.Holds p list none) (distinct : list.Nodup) (new : c ∉ list) :
    (f.adopt p c).Holds p (c :: list) none := by
  obtain ⟨first, chain⟩ := holds
  refine ⟨by rw [first_adopt, if_pos rfl, head?_cons], ?_, ?_, ?_⟩
  · rw [younger_adopt, if_neg, if_pos rfl]
    rw [first]
    exact fun same => new (mem_of_head? same)
  · rw [older_adopt, if_pos rfl, first, or_none]
  · cases list with
    | nil => trivial
    | cons o =>
      obtain ⟨_, on, further⟩ := chain
      simp only [mem_cons, not_or] at new
      refine ⟨?_, ?_, further.congr ?_ ?_⟩
      · rw [younger_adopt, first, head?_cons, if_pos rfl]
      · rw [older_adopt, if_neg (Ne.symm new.1), on]
      · intro d listed
        rw [older_adopt, if_neg]
        rintro rfl
        exact new.2 listed
      · intro d listed
        have later : o ≠ d := fun same => (nodup_cons.mp distinct).1 (same ▸ listed)
        have old : d ≠ c := fun same => new.2 (same ▸ listed)
        rw [younger_adopt, first, if_neg (by simpa using later), if_neg old]

theorem Represents.adopt (represents : f.Represents kids) (p c : ν) (new : ∀ q, c ∉ kids q) :
    (f.adopt p c).Represents (update kids p (c :: kids p)) := by
  have own := (represents.holds p).adopt_own (represents.distinct p) (new p)
  refine ⟨fun q => ?_, fun q => ?_, fun q d listed => ?_⟩
  · obtain rfl | same := eq_or_ne q p
    · rwa [update_self]
    rw [update_of_ne same]
    refine (represents.holds q).adopt same (new q) fun d listed head => ?_
    rw [(represents.holds p).first] at head
    exact same (represents.apart listed (mem_of_head? head))
  · rw [update_apply]
    split
    · next same =>
      subst same
      exact nodup_cons.mpr ⟨new q, represents.distinct q⟩
    · exact represents.distinct q
  · rw [parent_adopt]
    obtain rfl | same := eq_or_ne q p
    · rw [update_self] at listed
      rcases mem_cons.mp listed with rfl | old
      · rw [if_pos rfl]
      · have apart : d ≠ c := fun equal => new q (equal ▸ old)
        rw [if_neg apart]
        exact represents.parent q d old
    · rw [update_of_ne same] at listed
      have apart : d ≠ c := fun equal => new q (equal ▸ listed)
      rw [if_neg apart]
      exact represents.parent q d listed

theorem younger_disown (p c d : ν) : (f.disown p c).younger d = if f.older c = some d then f.younger c else f.younger d := by
  simp only [disown]
  split <;> simp [setOlder, setFirst, younger_setYoungerOf]

theorem disown_eq (p : ν) (alone : f.older c ≠ some c) : f.disown p c = match f.younger c with
      | some y => (f.setYoungerOf (f.older c) (f.younger c)).setOlder y (f.older c)
      | none =>
        (f.setYoungerOf (f.older c) (f.younger c)).setFirst p (f.older c) := by
          simp only [disown, younger_setYoungerOf, if_neg alone, older_setYoungerOf]

theorem Holds.disown {y : Option ν} (holds : f.Holds q list y) (other : q ≠ p)
    (alone : f.older c ≠ some c) (older : ∀ d ∈ list, f.older c ≠ some d) (younger : ∀ d ∈ list,
    f.younger c ≠ some d) : (f.disown p c).Holds q list y := by
  refine ⟨?_, holds.chain.congr ?_ ?_⟩
  · rw [disown_eq p alone]
    split
    · simp [setOlder, holds.first]
    · simp [setFirst, update_of_ne other, holds.first]
  · intro d listed
    rw [disown_eq p alone]
    split
    · next y same =>
      have apart : d ≠ y := fun equal => younger d listed (equal ▸ same)
      simp [setOlder, update_of_ne apart]
    · simp [setFirst]
  · intro d listed
    rw [younger_disown, if_neg (older d listed)]

theorem Holds.disown_own (holds : f.Holds p (before ++ c :: after) none)
    (distinct : (before ++ c :: after).Nodup) : (f.disown p c).Holds p (before ++ after) none := by
  obtain ⟨first, chain⟩ := holds
  obtain ⟨left, back, on, right⟩ := chain_append.mp chain
  rw [or_none] at back on
  have parts := nodup_append.mp distinct
  have fresh := nodup_cons.mp parts.2.1
  have alone : f.older c ≠ some c := by
    rw [on]
    exact fun same => fresh.1 (mem_of_head? same)
  have youngers : ∀ d, (f.disown p c).younger d = if after.head? = some d then before.getLast? else f.younger d := by
    intro d
    rw [younger_disown, on, back]
  have olders : ∀ d, (f.disown p c).older d = if before.getLast? = some d then after.head? else f.older d := by
    intro d
    rw [disown_eq p alone, back, on]
    split
    · next y same =>
      simp [setOlder, update_apply, same, eq_comm]
    · next last => simp [setFirst, last]
  have rest : (f.disown p c).Chain before.getLast? after none := by
    cases after with
    | nil => trivial
    | cons o others =>
      obtain ⟨_, further, chain⟩ := right
      have outside : ∀ d ∈ o :: others, before.getLast? ≠ some d := by
        intro d listed same
        exact parts.2.2 d (mem_of_getLast? same) d (mem_cons_of_mem _ listed) rfl
      refine ⟨by rw [youngers, head?_cons, if_pos rfl], ?_, chain.congr ?_ ?_⟩
      · rw [olders, if_neg (outside o (by simp)), further]
      · exact fun d listed => by rw [olders, if_neg (outside d (mem_cons_of_mem _ listed))]
      · intro d listed
        have later : o ≠ d := fun same => (nodup_cons.mp fresh.2).1 (same ▸ listed)
        rw [youngers, if_neg (by simpa using later)]
  have inside : ∀ d ∈ before, after.head? ≠ some d := by
    intro d listed same
    exact parts.2.2 d listed d (mem_cons_of_mem _ (mem_of_head? same)) rfl
  rcases eq_nil_or_concat before with rfl | ⟨start, last, rfl⟩
  · refine ⟨?_, rest⟩
    rw [disown_eq p alone, back]
    simp [setFirst, on]
  rw [concat_eq_append] at *
  rw [getLast?_append, getLast?_singleton, some_or] at *
  obtain ⟨early, lastBack, lastOn, _⟩ := chain_append.mp left
  refine ⟨?_, chain_append.mpr ⟨chain_append.mpr ⟨early.congr ?_ ?_, ?_, ?_, trivial⟩, ?_⟩⟩
  · rw [disown_eq p alone, back]
    simp only [setOlder, first_setYoungerOf, first]
    cases start <;> rfl
  · intro d listed
    have apart : last ≠ d := fun same => (nodup_append.mp parts.1).2.2 d listed last (by simp) same.symm
    rw [olders, if_neg (by simpa using apart)]
  · exact fun d listed => by rw [youngers, if_neg (inside d (by simp [listed]))]
  · rw [youngers, if_neg (inside last (by simp)), lastBack]
  · rw [olders]
    cases after <;> simp
  · simpa using rest

theorem Represents.clear (represents : f.Represents kids) (alone : ∀ p, c ∉ kids p)
    (childless : kids c = []) : (f.clear c).Represents kids := by
  have others : ∀ p, ∀ d ∈ kids p, d ≠ c := fun p d listed same => alone p (same ▸ listed)
  refine ⟨fun p => ⟨?_, (represents.holds p).chain.congr ?_ ?_⟩, represents.distinct, fun p d listed => ?_⟩
  · obtain rfl | same := eq_or_ne p c
    · simp [Family.clear, setParent, setFirst, setOlder, setYounger, childless]
    · simp [Family.clear, setParent, setFirst, setOlder, setYounger, update_of_ne same, (represents.holds p).first]
  · intro d listed
    simp [Family.clear, setParent, setFirst, setOlder, setYounger, update_of_ne (others p d listed)]
  · intro d listed
    simp [Family.clear, setParent, setFirst, setOlder, setYounger, update_of_ne (others p d listed)]
  · simp only [Family.clear, setParent, setFirst, setOlder, setYounger, update_of_ne (others p d listed)]
    exact represents.parent p d listed

theorem parent_clear (c d : ν) (other : d ≠ c) : (f.clear c).parent d = f.parent d := by
  simp [clear, setParent, setFirst, setOlder, setYounger, update_of_ne other]

theorem Represents.disown (represents : f.Represents kids) (listed : c ∈ kids p) :
    (f.disown p c).Represents (update kids p ((kids p).erase c)) := by
  obtain ⟨before, after, split⟩ := append_of_mem listed
  have holds := represents.holds p
  have distinct := represents.distinct p
  rw [split] at holds distinct
  obtain ⟨_, back, on, _⟩ := chain_append.mp holds.chain
  rw [or_none] at back on
  have older : ∀ d, f.older c = some d → d ∈ kids p := by
    intro d same
    rw [split]
    simp [mem_of_head? (on.symm.trans same)]
  have younger : ∀ d, f.younger c = some d → d ∈ kids p := by
    intro d same
    rw [split]
    exact mem_append_left _ (mem_of_getLast? (back.symm.trans same))
  have alone : f.older c ≠ some c := by
    intro same
    exact (nodup_cons.mp (nodup_append.mp distinct).2.1).1 (mem_of_head? (on.symm.trans same))
  have erased : (kids p).erase c = before ++ after := by
    have absent : c ∉ before := fun inside => (nodup_append.mp distinct).2.2 c inside c (by simp) rfl
    rw [split, erase_append_right _ absent, erase_cons_head]
  have fewer : ∀ q d, d ∈ update kids p ((kids p).erase c) q → d ∈ kids q := by
    intro q d inside
    obtain rfl | same := eq_or_ne q p
    · rw [update_self] at inside
      exact mem_of_mem_erase inside
    · rwa [update_of_ne same] at inside
  refine ⟨fun q => ?_, fun q => ?_, fun q d inside => by rw [parent_disown]; exact represents.parent q d (fewer q d inside)⟩
  · obtain rfl | same := eq_or_ne q p
    · rw [update_self, erased]
      exact holds.disown_own distinct
    rw [update_of_ne same]
    refine (represents.holds q).disown same alone (fun d inside equal => ?_) fun d inside equal => ?_
    · exact same (represents.apart inside (older d equal))
    · exact same (represents.apart inside (younger d equal))
  · rw [update_apply]
    split
    · next same =>
      subst same
      exact (represents.distinct q).erase c
    · exact represents.distinct q

/-- The children of all nodes while those of one are handed over. -/
structure Handing (f : Family ν) (source : ν) (kids : ν → List ν) : Prop where
  holds : ∀ p, p ≠ source → f.Holds p (kids p) none
  rest : ∃ y, f.Holds source (kids source) y
  distinct : ∀ p, (kids p).Nodup
  parent : ∀ p, ∀ c ∈ kids p, f.parent c = some p

omit [DecidableEq ν] in
theorem Handing.apart (handing : f.Handing source kids) (left : c ∈ kids p) (right : c ∈ kids q) : p = q := by
  have same := (handing.parent p c left).symm.trans (handing.parent q c right)
  injection same

def moveOne (kids : ν → List ν) (source target c : ν) (rest : List ν) : ν → List ν :=
  update (update kids source rest) target (c :: kids target)

theorem Holds.setFirst {y : Option ν} (holds : f.Holds q list y) (other : q ≠ p) (c : Option ν) :
    (f.setFirst p c).Holds q list y := by
  refine ⟨?_, holds.chain.congr (fun _ _ => rfl) fun _ _ => rfl⟩
  rw [first_setFirst, if_neg other]
  exact holds.first

theorem Handing.move (handing : f.Handing source kids) (other : source ≠ target)
    (next : kids source = c :: rest) : ((f.setFirst source (f.older c)).adopt target c).Handing
    source (moveOne kids source target c rest) := by
  obtain ⟨y, first, back, on, chain⟩ := next ▸ handing.rest
  rw [or_none] at on
  have distinct := handing.distinct source
  rw [next, nodup_cons] at distinct
  have listed : c ∈ kids source := by simp [next]
  have foreign : ∀ q, q ≠ source → c ∉ kids q := fun q away inside => away (handing.apart inside listed)
  have head : ∀ d, (f.setFirst source (f.older c)).first target = some d → d ∈ kids target := by
    intro d same
    rw [first_setFirst, if_neg (Ne.symm other), (handing.holds target (Ne.symm other)).first] at same
    exact mem_of_head? same
  have within : ∀ q d, q ≠ target → d ∈ moveOne kids source target c rest q → d ∈ kids q ∧ d ≠ c := by
    intro q d away inside
    rw [moveOne, update_of_ne away] at inside
    obtain rfl | same := eq_or_ne q source
    · rw [update_self] at inside
      exact ⟨by simp [next, inside], fun equal => distinct.1 (equal ▸ inside)⟩
    · rw [update_of_ne same] at inside
      exact ⟨inside, fun equal => foreign q same (equal ▸ inside)⟩
  have own : moveOne kids source target c rest target = c :: kids target := by rw [moveOne, update_self]
  have left : moveOne kids source target c rest source = rest := by rw [moveOne, update_of_ne other, update_self]
  refine ⟨fun q away => ?_, ⟨some c, ?_⟩, fun q => ?_, ?_⟩
  · obtain rfl | same := eq_or_ne q target
    · rw [own]
      exact ((handing.holds q away).setFirst away _).adopt_own (handing.distinct q) (foreign q away)
    · rw [moveOne, update_of_ne same, update_of_ne away]
      refine ((handing.holds q away).setFirst away _).adopt same (foreign q away) fun d inside equal => ?_
      exact same (handing.apart inside (head d equal))
  · rw [left]
    have begun : (f.setFirst source (f.older c)).Holds source rest (some c) := by
      refine ⟨?_, chain.congr (fun _ _ => rfl) fun _ _ => rfl⟩
      rw [first_setFirst, if_pos rfl, on]
    refine begun.adopt other distinct.1 fun d inside equal => ?_
    exact other (handing.apart (by simp [next, inside]) (head d equal))
  · obtain rfl | same := eq_or_ne q target
    · rw [own]
      exact nodup_cons.mpr ⟨foreign q (Ne.symm other), handing.distinct q⟩
    rw [moveOne, update_of_ne same]
    rw [update_apply]
    split
    · next here =>
      subst here
      exact distinct.2
    · exact handing.distinct q
  · intro q d inside
    rw [parent_adopt]
    obtain rfl | same := eq_or_ne q target
    · rw [own] at inside
      rcases mem_cons.mp inside with rfl | old
      · rw [if_pos rfl]
      · have apart : d ≠ c := fun equal => foreign q (Ne.symm other) (equal ▸ old)
        rw [if_neg apart]
        exact handing.parent q d old
    · obtain ⟨old, apart⟩ := within q d same inside
      rw [if_neg apart]
      exact handing.parent q d old

/-- All children of the source go to the front of the target's. -/
def handed (kids : ν → List ν) (source target : ν) : ν → List ν :=
  update (update kids source []) target ((kids source).reverse ++ kids target)

theorem handed_moveOne (other : source ≠ target) (next : kids source = c :: rest) :
    handed (moveOne kids source target c rest) source target = handed kids source target := by
  funext q
  obtain rfl | last := eq_or_ne q target
  · simp [handed, moveOne, next, update_of_ne other]
  · obtain rfl | here := eq_or_ne q source
    · simp [handed, moveOne, update_of_ne last]
    · simp [handed, moveOne, update_of_ne last, update_of_ne here]

theorem Handing.handOver (handing : f.Handing source kids) (other : source ≠ target) (enough : (kids source).length ≤ bound) :
    ∃ g, Family.handOver source target bound f = some g ∧ g.Represents (handed kids source target) ∧
      ∀ c, c ∉ kids source → g.parent c = f.parent c := by
  have finished : ∀ {f : Family ν} {kids : ν → List ν}, f.Handing source kids → kids source = [] →
    f.Represents (handed kids source target) := by
    intro f kids handing none
    have same : handed kids source target = kids := by
      funext q
      obtain rfl | last := eq_or_ne q target
      · simp [handed, none]
      · obtain rfl | here := eq_or_ne q source
        · simp [handed, update_of_ne last, none]
        · simp [handed, update_of_ne last, update_of_ne here]
    rw [same]
    refine ⟨fun q => ?_, handing.distinct, handing.parent⟩
    obtain rfl | here := eq_or_ne q source
    · obtain ⟨_, first, _⟩ := handing.rest
      rw [none] at first ⊢
      exact ⟨first, trivial⟩
    · exact handing.holds q here
  have head : ∀ {f : Family ν} {kids : ν → List ν}, f.Handing source kids → f.first source = (kids source).head? := by
    intro f kids handing
    obtain ⟨_, first, _⟩ := handing.rest
    exact first
  induction bound generalizing f kids with
  | zero =>
    have none := length_eq_zero_iff.mp (Nat.le_zero.mp enough)
    refine ⟨f, ?_, finished handing none, fun _ _ => rfl⟩
    rw [Family.handOver, head handing, none]
    rfl
  | succ bound ih =>
    unfold Family.handOver
    rw [head handing]
    cases next : kids source with
    | nil => exact ⟨f, rfl, finished handing next, fun _ _ => rfl⟩
    | cons c rest =>
      have shorter : (moveOne kids source target c rest source).length ≤ bound := by
        rw [moveOne, update_of_ne other, update_self]
        rw [next] at enough
        exact Nat.le_of_succ_le_succ enough
      obtain ⟨g, ran, represents, others⟩ := ih (handing.move other next) shorter
      rw [handed_moveOne other next] at represents
      refine ⟨g, ran, represents, fun d absent => ?_⟩
      rw [mem_cons, not_or] at absent
      rw [moveOne, update_of_ne other, update_self] at others
      rw [others d absent.2, parent_adopt, if_neg absent.1]
      rfl

theorem Represents.handOver (represents : f.Represents kids) (other : source ≠ target)
    (enough : (kids source).length ≤ bound) :
    ∃ g, Family.handOver source target bound f = some g ∧ g.Represents (handed kids source target) ∧
      ∀ c, c ∉ kids source → g.parent c = f.parent c :=
  Handing.handOver ⟨fun p _ => represents.holds p, ⟨none, represents.holds source⟩,
    represents.distinct, represents.parent⟩ other enough

end Operations

end Family

end Ucore.Lib
