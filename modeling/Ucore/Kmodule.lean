import Ucore.Error
import Ucore.Fault
import Ucore.Lib.Links
import Ucore.Lib.Machine

/-! Kernel modules. `do_init_module` resolves the undefined symbols of an image against the
kernel and the loaded modules and links a use record into the list of each module it takes a
symbol from; `do_cleanup_module` unloads a module when its list is empty. -/

namespace Ucore.Kmodule
open Lib Function

/-- The address of a `struct module`. -/
abbrev ModId := Nat

/-- The address of a `struct module_use`. -/
abbrev UseId := Nat

inductive Addr where
  | outside (value : Nat)
  /-- In the memory of a module. -/
  | inside (m : ModId) (offset : Nat)
deriving Repr, DecidableEq

structure KernelSymbol where
  name : String
  value : Addr
deriving Repr, DecidableEq

/-- An undefined symbol that has been given the value of an exported one. The kernel is the owner of
its own symbols. -/
structure Resolved where
  name : String
  value : Addr
  owner : Option ModId
deriving Repr, DecidableEq

inductive ModuleState where
  | live
  | coming
  | going
deriving Repr, DecidableEq

/-- `init` is what the function returns. `resolved` is remembered for the module's symbol table,
which its
relocations have been applied with. -/
structure Module where
  name : String
  state : ModuleState
  syms : List KernelSymbol
  init : Option Int
  exit : Bool
  resolved : List Resolved
deriving Repr, DecidableEq

/-- The two kinds of list entries: `modules_which_use_me` of a module, and `list` of a use record.
-/
inductive Entry where
  | head (m : ModId)
  | use (u : UseId)
deriving Repr, DecidableEq

/-- `le2moduse` -/
def Entry.record : Entry → Option UseId
  | .use u => some u
  | .head _ => none

structure State where
  /-- The list `modules` from its head on. -/
  modules : List ModId
  module : ModId → Module
  links : Links Entry
  moduleWhichUses : UseId → ModId
  uses : List UseId

inductive Shndx where
  | common
  | abs
  | undef
  | other
deriving Repr, DecidableEq

structure Sym where
  name : String
  shndx : Shndx
  weak : Bool
  value : Nat
deriving Repr, DecidableEq

/-- What a module file contains. An entry of `__ksymtab` is relocated with the value of one symbol.
-/
structure Image where
  /-- The checks of the ELF headers and of `len` pass. -/
  wellFormed : Bool
  name : String
  symtab : List Sym
  ksymtab : List (String × Nat)
  /-- The field `init` before relocation. -/
  initSet : Bool
  /-- All relocations, and `module_finalize`, succeed. -/
  relocates : Bool
  finalizes : Bool
  init : Option Int
  exit : Bool
deriving Repr, DecidableEq

/-- What the allocator returns: for `module_core`, where the module is moved to, for `module_init`,
and for the use
record that a symbol may need. -/
structure Memory where
  core : Option ModId
  init : Bool
  uses : List (Option UseId)
deriving Repr, DecidableEq

variable (kernel : List (String × Nat))

def lookupSymbol (name : String) (syms : List KernelSymbol) : Option KernelSymbol := syms.find? fun sym => sym.name = name

/-- `find_symbol`: the kernel's symbols first, then those of the modules in list order. -/
def findSymbol (s : State) (name : String) : Option (KernelSymbol × Option ModId) :=
  match lookupSymbol name (kernel.map fun sym => ⟨sym.1, .outside sym.2⟩) with
  | some sym => some (sym, none)
  | none => s.modules.findSome? fun m => (lookupSymbol name (s.module m).syms).map fun sym => (sym, some m)

def findModule (s : State) (name : String) : Option ModId := s.modules.find? fun m => (s.module m).name = name

/-- The records that a walk along the list of a module comes to. -/
def usesOf (s : State) (b : ModId) : List UseId :=
  (s.links.walk (.head b) s.uses.length (.head b)).filterMap Entry.record

def alreadyUses (s : State) (a b : ModId) : Bool := (usesOf s b).any fun u => s.moduleWhichUses u = a

/-- The new record comes first in the call of `list_add`, and the list of `b` second. -/
def linkUse (s : State) (a b : ModId) (u : UseId) : State :=
  { s with
    moduleWhichUses := update s.moduleWhichUses u a
    links := (s.links.init (.use u)).addAfter (.use u) (.head b)
    uses := u :: s.uses }

def useModule (s : State) (a : ModId) (b : Option ModId) (kmalloc : Option UseId) : State × Bool :=
  match b with
  | none => (s, true)
  | some b =>
    if alreadyUses s a b then (s, true)
    else match kmalloc with
      | none => (s, false)
      | some u => (linkUse s a b u, true)

def resolveSymbol (s : State) (name : String) (mod : ModId) (kmalloc : Option UseId) :
    State × Option (KernelSymbol × Option ModId) :=
  match findSymbol kernel s name with
  | none => (s, none)
  | some (sym, owner) =>
    let (s, used) := useModule s mod owner kmalloc
    (s, if used then some (sym, owner) else none)

structure Simplified where
  state : State
  values : List Addr
  resolved : List Resolved
  ok : Bool

/-- One round of `simplify_symbols`: the new state, the value of the symbol, what it was resolved
to, and whether
`ret` stays 0. -/
def simplifySymbol (s : State) (mod : ModId) (sym : Sym) (kmalloc : Option UseId) : State × Addr × Option Resolved × Bool :=
  match sym.shndx with
  | .common => (s, .outside sym.value, none, false)
  | .abs => (s, .outside sym.value, none, true)
  | .undef =>
    match resolveSymbol kernel s sym.name mod kmalloc with
    | (s, some (ksym, owner)) => (s, ksym.value, some ⟨sym.name, ksym.value, owner⟩, true)
    | (s, none) => (s, .outside sym.value, none, sym.weak)
  | .other => (s, .inside mod sym.value, none, true)

/-- The loop goes on after a symbol that it cannot resolve. -/
def simplifySymbols (s : State) (mod : ModId) : List Sym → List (Option UseId) → Simplified
  | [], _ => ⟨s, [], [], true⟩
  | sym :: rest, kmallocs =>
    let (s, value, found, ok) := simplifySymbol kernel s mod sym (kmallocs.headD none)
    let after := simplifySymbols s mod rest kmallocs.tail
    { after with values := value :: after.values, resolved := found.toList ++ after.resolved, ok := ok && after.ok }

/-- `list_del` and `kfree` -/
def dropUse (s : State) (u : UseId) : State := { s with links := s.links.del (.use u), uses := s.uses.erase u }

/-- The inner loop of `module_unload_free`, which stops at the first record of the module. -/
def unuse (mod : ModId) (s : State) (i : ModId) : State :=
  match (usesOf s i).find? fun u => s.moduleWhichUses u = mod with
  | some u => dropUse s u
  | none => s

def moduleUnloadFree (s : State) (mod : ModId) : State := s.modules.foldl (unuse mod) s

def freeModule (s : State) (mod : ModId) : State := moduleUnloadFree { s with modules := s.modules.erase mod } mod

def verifyExportSymbols (s : State) (syms : List KernelSymbol) : Bool :=
  syms.all fun sym => (findSymbol kernel s sym.name).isNone

def addModule (s : State) (mod : ModId) (module : Module) : State :=
  { s with modules := mod :: s.modules, module := update s.module mod module }

/-- `load_module` after the module has been moved to its place. -/
def linkModule (s : State) (image : Image) (mod : ModId) (kmallocs : List (Option UseId)) : Kernel (State × Option ModId) :=
  -- `module_unload_init`
  let s := { s with links := s.links.init (.head mod) }
  let done := simplifySymbols kernel s mod image.symtab kmallocs
  if done.ok = false then pure (moduleUnloadFree done.state mod, none)
  else do
    ensure (image.initSet = false) "mod->init == NULL"
    if image.relocates = false then pure (moduleUnloadFree done.state mod, none)
    else
      let syms := image.ksymtab.map fun sym => ⟨sym.1, done.values.getD sym.2 (.outside 0)⟩
      if verifyExportSymbols kernel done.state syms = false then pure (moduleUnloadFree done.state mod, none)
      else if image.finalizes = false then pure (moduleUnloadFree done.state mod, none)
      else pure (addModule done.state mod ⟨image.name, .coming, syms, image.init, image.exit, done.resolved⟩, some mod)

def loadModule (s : State) (image : Image) (memory : Memory) : Kernel (State × Option ModId) :=
  if image.wellFormed = false then pure (s, none)
  else if (findModule s image.name).isSome then pure (s, none)
  else match memory.core with
    | none => pure (s, none)
    | some mod => if memory.init = false then pure (s, none) else linkModule kernel s image mod memory.uses

def setState (s : State) (mod : ModId) (state : ModuleState) : State :=
  { s with module := update s.module mod { s.module mod with state } }

def doInitModule (s : State) (image : Image) (memory : Memory) : Kernel (State × Int) := do
  let (s, loaded) ← loadModule kernel s image memory
  match loaded with
  | none => pure (s, -1)
  | some mod =>
    let ret := (s.module mod).init.getD 0
    if ret < 0 then pure (freeModule (setState s mod .going) mod, ret)
    else pure (setState s mod .live, 0)

/-- A module that is not live, or that has `init` but no `exit`, is unloaded all the same. -/
def doCleanupModule (s : State) (name : String) (readable : Bool) : State × Int :=
  if readable = false then (s, -eInval)
  else match findModule s name with
    | none => (s, -eNoEnt)
    | some mod =>
      if s.links.next (.head mod) ≠ .head mod then (s, -eInval)
      else
        let module := s.module mod
        let ret := if module.init.isSome ∧ module.exit = false ∨ module.state ≠ .live then -eBusy else 0
        (freeModule (setState s mod .going) mod, ret)

inductive Op where
  | init (image : Image) (memory : Memory)
  | cleanup (name : String) (readable : Bool)
deriving Repr

def step (s : State) : Op → Kernel (State × Int)
  | .init image memory => doInitModule kernel s image memory
  | .cleanup name readable => pure (doCleanupModule s name readable)

/-- The allocator returns memory that is not in use. -/
def Allowed (s : State) : Op → Prop
  | .init _ memory =>
    (∀ m ∈ memory.core, m ∉ s.modules) ∧ (memory.uses.filterMap id).Nodup ∧
      ∀ u ∈ memory.uses.filterMap id, u ∉ s.uses
  | .cleanup .. => True

instance (s : State) (op : Op) : Decidable (Allowed s op) :=
  match op with
  | .init .. => inferInstanceAs (Decidable (_ ∧ _))
  | .cleanup .. => inferInstanceAs (Decidable True)

def boot : State := ⟨[], fun _ => ⟨"", .going, [], none, false, []⟩, ⟨id, id⟩, fun _ => 0, []⟩

def machine : Machine State Op Int Fault where
  start s := s = boot
  allowed := Allowed
  step := step kernel

instance (s : State) (op : Op) : Decidable ((machine kernel).allowed s op) := inferInstanceAs (Decidable (Allowed s op))

/-- A symbol of `a` was resolved to an address inside `b`, or to a symbol that `b` exports. -/
def UsesSymbol (s : State) (a b : ModId) : Prop :=
  ∃ r ∈ (s.module a).resolved, r.owner = some b ∨ ∃ offset, r.value = .inside b offset

/-- Every module that a symbol of a loaded module was resolved to is loaded. -/
def Sound (s : State) : Prop := ∀ a ∈ s.modules, ∀ b, UsesSymbol s a b → b ∈ s.modules

/-- `do_cleanup_module` refuses to unload a module that a loaded module uses. -/
def Refuses (s : State) (op : Op) (result : State × Int) : Prop :=
  match op with
  | .init .. => True
  | .cleanup name _ =>
    ∀ b ∈ s.modules, (s.module b).name = name → (∃ a ∈ s.modules, UsesSymbol s a b) →
      result = (s, -eInval)

end Ucore.Kmodule
