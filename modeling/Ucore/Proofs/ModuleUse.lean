import Ucore.Kmodule

/-! The list of use records of a module never holds more than the record of its latest user,
since `use_module` gives the arguments of `list_add` in the wrong order. Unloading is safe as
long as that user is the last one to leave. -/

namespace Ucore.Kmodule
open Lib Function List Option

variable {kernel : List (String × Nat)} {s : State} {a b m : ModId} {u : UseId} {value : Addr} {list : List ModId}
  {image : Image} {kmalloc : Option UseId} {r : Resolved} {done : Simplified} {name : String}
  {c : ModId} {module : ModId → Module} {record : Option UseId} {t : State}

/-- The list of a module holds at most one record. -/
structure Latest (s : State) (b : ModId) (record : Option UseId) : Prop where
  circle : s.links.Circle (.head b) (record.toList.map .use)
  live : ∀ u ∈ record, u ∈ s.uses

def Heads (s : State) : Prop := ∀ b ∈ s.modules, ∃ record, Latest s b record

theorem Heads.congr (heads : Heads s) (links : t.links = s.links) (uses : t.uses = s.uses)
    (within : ∀ b ∈ t.modules, b ∈ s.modules) : Heads t := by
  intro b loaded
  obtain ⟨record, held⟩ := heads b (within b loaded)
  exact ⟨record, links ▸ held.circle, uses ▸ held.live⟩

def latest (s : State) (b : ModId) : Option ModId := (usesOf s b).head?.map s.moduleWhichUses

theorem Latest.usesOf (held : Latest s b record) : usesOf s b = record.toList := by
  have enough : (record.toList.map Entry.use).length ≤ s.uses.length := by
    cases record with
    | none => exact Nat.zero_le _
    | some u => exact length_pos_of_mem (held.live u rfl)
  rw [Kmodule.usesOf, held.circle.walk enough]
  cases record <;> rfl

theorem Latest.latest (held : Latest s b record) : latest s b = record.map s.moduleWhichUses := by
  rw [Kmodule.latest, held.usesOf]
  cases record <;> rfl

theorem Latest.empty_iff (held : Latest s b record) : s.links.next (.head b) = .head b ↔ Kmodule.latest s b = none := by
  rw [held.circle.next_eq_head, held.latest]
  cases record <;> simp

theorem Latest.owner (held : Latest s b (some u)) (other : Latest s c (some u)) : b = c := by
  have back := held.circle.path.2.2.1
  have same := other.circle.path.2.2.1
  injection back.symm.trans same

structure Becomes (s after : State) (users : ModId → Option ModId) : Prop where
  modules : after.modules = s.modules
  module : after.module = s.module
  heads : Heads after
  latest : ∀ b ∈ s.modules, latest after b = users b

theorem linkUse_other (held : Latest s c record) (fresh : u ∉ s.uses) (other : c ≠ b) :
    Latest (linkUse s a b u) c record := by
  have apart : ∀ e ∈ Entry.head c :: record.toList.map Entry.use, e ≠ .head b ∧ e ≠ .use u := by
    intro e listed
    rcases mem_cons.mp listed with rfl | listed
    · exact ⟨fun same => other (Entry.head.inj same), Entry.noConfusion⟩
    · obtain ⟨v, kept, rfl⟩ := mem_map.mp listed
      exact ⟨Entry.noConfusion, fun same => fresh (Entry.use.inj same ▸ held.live v (by simpa using kept))⟩
  refine ⟨held.circle.congr ?_ ?_, fun v kept => mem_cons_of_mem _ (held.live v kept)⟩
  · intro e listed
    simp [linkUse, Links.addAfter, Links.next_insert, Links.init, apart e listed]
  · intro e listed
    simp [linkUse, Links.addAfter, Links.prev_insert, Links.init, apart e listed]

theorem linkUse_same (s : State) (a b : ModId) (u : UseId) : Latest (linkUse s a b u) b (some u) := by
  have alone : (linkUse s a b u).links.Circle (.use u) [.head b] := (s.links.circle_init (.use u)).addAfter (by simp)
  refine ⟨Links.Circle.turn (show Links.Circle _ _ ([] ++ Entry.head b :: []) from alone), ?_⟩
  rintro v ⟨⟩
  exact mem_cons_self ..

theorem linkUse_becomes (heads : Heads s) (a b : ModId) (fresh : u ∉ s.uses) :
    Becomes s (linkUse s a b u) (update (latest s) b (some a)) := by
  refine ⟨rfl, rfl, fun c loaded => ?_, fun c loaded => ?_⟩
  all_goals obtain ⟨record, held⟩ := heads c loaded
  all_goals by_cases same : c = b
  · exact ⟨some u, same ▸ linkUse_same s a b u⟩
  · exact ⟨record, linkUse_other held fresh same⟩
  · subst same
    rw [(linkUse_same s a c u).latest]
    simp [linkUse]
  · rw [update_of_ne same, (linkUse_other held fresh same).latest, held.latest]
    cases record with
    | none => rfl
    | some v =>
      have away : v ≠ u := fun equal => fresh (equal ▸ held.live v rfl)
      simp [linkUse, update_of_ne away]

theorem dropUse_other (first : Latest s b (some u)) (held : Latest s c record) (other : c ≠ b) :
    Latest (dropUse s u) c record := by
  have next := first.circle.path.2.2.1
  have prev := first.circle.path.2.1
  have apart : ∀ e ∈ Entry.head c :: record.toList.map Entry.use, e ≠ .head b := by
    intro e listed
    rcases mem_cons.mp listed with rfl | listed
    · exact fun same => other (Entry.head.inj same)
    · obtain ⟨v, _, rfl⟩ := mem_map.mp listed
      exact Entry.noConfusion
  refine ⟨held.circle.congr ?_ ?_, fun v kept => ?_⟩
  · exact fun e listed => by simp [dropUse, Links.next_del, prev, apart e listed]
  · exact fun e listed => by simp [dropUse, Links.prev_del, next, apart e listed]
  have away : v ≠ u := by
    rintro rfl
    cases kept
    exact other (held.owner first)
  exact (mem_erase_of_ne away).mpr (held.live v kept)

theorem unuse_becomes (heads : Heads s) (loaded : b ∈ s.modules) : Becomes s (unuse m s b) fun c =>
    if c = b ∧ latest s c = some m then none else latest s c := by
  obtain ⟨record, held⟩ := heads b loaded
  have keeps : latest s b ≠ some m → Becomes s s fun c => if c = b ∧ latest s c = some m then none else latest s c := by
    refine fun not => ⟨rfl, rfl, heads, fun c _ => ?_⟩
    rw [if_neg]
    rintro ⟨rfl, recorded⟩
    exact not recorded
  unfold unuse
  rw [held.usesOf]
  cases record with
  | none => exact keeps (by simp [held.latest])
  | some u =>
    by_cases own : s.moduleWhichUses u = m
    · simp only [toList_some, find?_cons, own, decide_true]
      have gone : Latest (dropUse s u) b none := ⟨held.circle.del_first, by simp⟩
      refine ⟨rfl, rfl, fun c listed => ?_, fun c listed => ?_⟩
      all_goals by_cases same : c = b
      · exact ⟨none, same ▸ gone⟩
      · obtain ⟨other, kept⟩ := heads c listed
        exact ⟨other, dropUse_other held kept same⟩
      · rw [if_pos ⟨same, by simp [same, held.latest, own]⟩, same, gone.latest]
        rfl
      · obtain ⟨other, kept⟩ := heads c listed
        rw [if_neg fun both => same both.1, (dropUse_other held kept same).latest, kept.latest]
        rfl
    · simp only [toList_some, find?_cons, own, decide_false, find?_nil]
      exact keeps (by simp [held.latest, own])

theorem foldl_unuse_becomes (m : ModId) (list : List ModId) (s : State) (heads : Heads s)
    (loaded : ∀ b ∈ list, b ∈ s.modules) : Becomes s (list.foldl (unuse m) s) fun c => if c ∈ list ∧
    latest s c = some m then none else latest s c := by
  induction list generalizing s with
  | nil => exact ⟨rfl, rfl, heads, by simp⟩
  | cons b rest ih =>
    have first : Becomes s (unuse m s b) _ := unuse_becomes heads (loaded b (by simp))
    have second := ih (unuse m s b) first.heads (fun c listed => first.modules ▸ loaded c (mem_cons_of_mem _ listed))
    refine ⟨second.modules.trans first.modules, second.module.trans first.module, second.heads, fun c listed => ?_⟩
    rw [foldl_cons, second.latest c (first.modules ▸ listed), first.latest c listed]
    by_cases recorded : latest s c = some m
    · by_cases here : c = b <;> simp [here, recorded]
    · simp [recorded]

theorem moduleUnloadFree_becomes (heads : Heads s) (m : ModId) : Becomes s (moduleUnloadFree s m)
    fun c => if latest s c = some m then none else latest s c := by
  have folded := foldl_unuse_becomes m s.modules s heads fun _ listed => listed
  refine { folded with latest := fun c listed => ?_ }
  rw [moduleUnloadFree, folded.latest c listed]
  simp [listed]

def TakesFrom (s : State) (a b : ModId) : Prop := ∃ r ∈ (s.module a).resolved, r.owner = some b

theorem TakesFrom.congr (takes : TakesFrom t a b)
    (same : (t.module a).resolved = (s.module a).resolved) : TakesFrom s a b := by
      rwa [TakesFrom, same] at takes

/-- An undefined symbol of the table is found among the symbols of `b`. -/
def Wants (kernel : List (String × Nat)) (s : State) (symtab : List Sym) (b : ModId) : Prop :=
  ∃ sym ∈ symtab, sym.shndx = .undef ∧ ∃ ksym, findSymbol kernel s sym.name = some (ksym, some b)

/-- Where a resolved symbol has its value from. -/
def Origin (module : ModId → Module) (older : List ModId) (r : Resolved) : Prop :=
  match r.owner with
  | none => ∃ value, r.value = .outside value
  | some b => b ∈ older ∧ ∃ sym ∈ (module b).syms, sym.value = r.value

/-- A value that a symbol of the module `m` can have. -/
def Own (m : ModId) (resolved : List Resolved) (value : Addr) : Prop :=
  (∃ address, value = .outside address) ∨ (∃ offset, value = .inside m offset) ∨ ∃ r ∈ resolved, r.value = value

/-- Modules take symbols from those that were loaded before them. -/
def Layered (module : ModId → Module) : List ModId → Prop
  | [] => True
  | a :: older =>
    (∀ r ∈ (module a).resolved, Origin module older r) ∧
      (∀ sym ∈ (module a).syms, Own a (module a).resolved sym.value) ∧
      Layered module older

theorem findSymbol_origin {sym : KernelSymbol} {owner : Option ModId}
    (found : findSymbol kernel s name = some (sym, owner)) : Origin s.module s.modules
    ⟨name, sym.value, owner⟩ := by
  unfold findSymbol lookupSymbol at found
  split at found
  · next ksym looked =>
    cases found
    obtain ⟨entry, _, rfl⟩ := mem_map.mp (mem_of_find?_eq_some looked)
    exact ⟨entry.2, rfl⟩
  · obtain ⟨m, listed, looked⟩ := exists_of_findSome?_eq_some found
    obtain ⟨ksym, inside, same⟩ := map_eq_some_iff.mp looked
    cases same
    exact ⟨listed, _, mem_of_find?_eq_some inside, rfl⟩

theorem findSymbol_congr (modules : t.modules = s.modules) (module : t.module = s.module) :
    findSymbol kernel t = findSymbol kernel s := by
  funext name
  simp [findSymbol, modules, module]

structure Took (s : State) (m : ModId) (owner : Option ModId) (kmalloc : Option UseId) (result : State × Bool) : Prop where
  modules : result.1.modules = s.modules
  module : result.1.module = s.module
  heads : Heads result.1
  users : ∀ b ∈ s.modules, latest result.1 b = latest s b ∨ latest result.1 b = some m ∧ owner = some b
  recorded : result.2 = true → ∀ b ∈ owner, latest result.1 b = some m
  uses : ∀ u ∈ result.1.uses, u ∈ s.uses ∨ u ∈ kmalloc
  /-- The list of a module that is not yet loaded stays as it is. -/
  apart : ∀ c ∉ s.modules, ∀ record, Latest s c record → Latest result.1 c record

theorem alreadyUses_iff (heads : Heads s) (loaded : b ∈ s.modules) : alreadyUses s a b = true ↔ latest s b = some a := by
  obtain ⟨record, held⟩ := heads b loaded
  rw [alreadyUses, held.usesOf, held.latest]
  cases record <;> simp

theorem useModule_took (heads : Heads s) (m : ModId) {owner : Option ModId} (loaded : ∀ b ∈ owner,
    b ∈ s.modules) (fresh : ∀ u ∈ kmalloc, u ∉ s.uses) :
    Took s m owner kmalloc (useModule s m owner kmalloc) := by
  have stays : ∀ used, (used = true → ∀ b ∈ owner, latest s b = some m) → Took s m owner kmalloc
    (s, used) := fun used recorded => ⟨rfl, rfl, heads, fun _ _ => .inl rfl, recorded,
    fun _ listed => .inl listed, fun _ _ _ held => held⟩
  unfold useModule
  cases owner with
  | none => exact stays true (by simp)
  | some b =>
    have atHead := loaded b rfl
    dsimp only
    split
    · next recorded =>
      refine stays true fun _ c same => ?_
      cases same
      exact (alreadyUses_iff heads atHead).mp recorded
    · cases kmalloc with
      | none => exact stays false (by simp)
      | some u =>
        have linked := linkUse_becomes heads m b (fresh u rfl)
        refine ⟨linked.modules, linked.module, linked.heads, fun c listed => ?_, fun _ c same => ?_,
          fun v listed => ?_, fun c absent record held => ?_⟩
        · rw [linked.latest c listed]
          obtain rfl | same := eq_or_ne c b
          · exact .inr ⟨update_self .., rfl⟩
          · exact .inl (update_of_ne same ..)
        · cases same
          rw [linked.latest b atHead, update_self]
        · rcases mem_cons.mp listed with rfl | old
          · exact .inr rfl
          · exact .inl old
        · exact linkUse_other held (fresh u rfl) fun same => absent (same ▸ atHead)

structure Connected (kernel : List (String × Nat)) (s : State) (m : ModId) (symtab : List Sym)
    (done : Simplified) : Prop where
  modules : done.state.modules = s.modules
  module : done.state.module = s.module
  heads : Heads done.state
  users : ∀ b ∈ s.modules, latest done.state b = latest s b ∨ latest done.state b = some m ∧ Wants kernel s symtab b
  origin : ∀ r ∈ done.resolved, Origin s.module s.modules r
  recorded : ∀ r ∈ done.resolved, ∀ b, r.owner = some b → latest done.state b = some m
  own : ∀ value ∈ done.values, Own m done.resolved value
  apart : ∀ c ∉ s.modules, ∀ record, Latest s c record → Latest done.state c record

theorem Connected.same (heads : Heads s) (symtab : List Sym) (ok : Bool) (own : Own m [] value) :
    Connected kernel s m symtab ⟨s, [value], [], ok⟩ :=
  ⟨rfl, rfl, heads, fun _ _ => .inl rfl, by simp, by simp, by simpa using own, fun _ _ _ held => held⟩

theorem Connected.ofTook {sym : Sym} {ksym : KernelSymbol} {owner : Option ModId} {used : Bool}
    (undef : sym.shndx = .undef) (found : findSymbol kernel s sym.name = some (ksym, owner))
    (took : Took s m owner kmalloc (t, used)) :
    (used = true → Connected kernel s m [sym] ⟨t, [ksym.value], [⟨sym.name, ksym.value, owner⟩],
      true⟩) ∧ Connected kernel s m [sym] ⟨t, [.outside sym.value], [], sym.weak⟩ := by
  have users : ∀ b ∈ s.modules, latest t b = latest s b ∨ latest t b = some m ∧ Wants kernel s [sym] b := by
    intro b listed
    rcases took.users b listed with same | ⟨taken, rfl⟩
    · exact .inl same
    · exact .inr ⟨taken, sym, by simp, undef, ksym, found⟩
  refine ⟨fun done => ⟨took.modules, took.module, took.heads, users, ?_, ?_, ?_, took.apart⟩,
    took.modules, took.module, took.heads, users, by simp, by simp, ?_, took.apart⟩
  · intro r listed
    rw [mem_singleton.mp listed]
    exact findSymbol_origin found
  · intro r listed b same
    rw [mem_singleton.mp listed] at same
    exact took.recorded done b same
  · intro value listed
    exact .inr (.inr ⟨_, mem_singleton_self _, (mem_singleton.mp listed).symm⟩)
  · intro value listed
    exact .inl ⟨_, mem_singleton.mp listed⟩

theorem simplifySymbol_connected (heads : Heads s) (m : ModId) (sym : Sym) (fresh : ∀ u ∈ kmalloc,
    u ∉ s.uses) {found : Option Resolved} {ok : Bool} (ran : simplifySymbol kernel s m sym kmalloc =
    (t, value, found, ok)) :
    Connected kernel s m [sym] ⟨t, [value], found.toList, ok⟩ ∧ ∀ u ∈ t.uses, u ∈ s.uses ∨ u ∈ kmalloc := by
  unfold simplifySymbol at ran
  split at ran
  · cases ran
    exact ⟨.same heads [sym] false (.inl ⟨_, rfl⟩), fun _ listed => .inl listed⟩
  · cases ran
    exact ⟨.same heads [sym] true (.inl ⟨_, rfl⟩), fun _ listed => .inl listed⟩
  · next undef =>
    unfold resolveSymbol at ran
    cases looked : findSymbol kernel s sym.name with
    | none =>
      simp only [looked] at ran
      cases ran
      exact ⟨.same heads [sym] sym.weak (.inl ⟨_, rfl⟩), fun _ listed => .inl listed⟩
    | some pair =>
      obtain ⟨ksym, owner⟩ := pair
      have loaded : ∀ b ∈ owner, b ∈ s.modules := by
        intro b same
        cases same
        exact (findSymbol_origin looked).1
      have took := useModule_took heads m loaded fresh
      obtain ⟨⟨after, used⟩, outcome⟩ : ∃ result, useModule s m owner kmalloc = result := ⟨_, rfl⟩
      rw [outcome] at took
      have both := Connected.ofTook undef looked took
      simp only [looked, outcome] at ran
      cases used with
      | true =>
        cases ran
        exact ⟨both.1 rfl, took.uses⟩
      | false =>
        cases ran
        exact ⟨both.2, took.uses⟩
  · cases ran
    exact ⟨.same heads [sym] true (.inr (.inl ⟨_, rfl⟩)), fun _ listed => .inl listed⟩

theorem Origin.listed {older : List ModId} (origin : Origin module older r) (owner : r.owner = some b) : b ∈ older := by
  unfold Origin at origin
  rw [owner] at origin
  exact origin.1

theorem Origin.mono {older newer : List ModId} {changed : ModId → Module}
    (origin : Origin module older r) (keeps : ∀ b ∈ older, r.owner = some b → b ∈ newer ∧
    (changed b).syms = (module b).syms) : Origin changed newer r := by
  unfold Origin at origin ⊢
  cases owner : r.owner with
  | none => simpa only [owner] using origin
  | some b =>
    simp only [owner] at origin ⊢
    obtain ⟨stays, same⟩ := keeps b origin.1 owner
    rw [same]
    exact ⟨stays, origin.2⟩

theorem Own.mono {fewer more : List Resolved} (own : Own m fewer value) (within : ∀ r ∈ fewer,
    r ∈ more) : Own m more value := by
  rcases own with outside | inside | ⟨r, listed, same⟩
  · exact .inl outside
  · exact .inr (.inl inside)
  · exact .inr (.inr ⟨r, within r listed, same⟩)

theorem Connected.cons {sym : Sym} {rest : List Sym} {found : List Resolved} {ok : Bool} {after : Simplified}
    (first : Connected kernel s m [sym] ⟨t, [value], found, ok⟩)
      (second : Connected kernel t m rest after) : Connected kernel s m (sym :: rest)
      { after with values := value :: after.values, resolved := found ++ after.resolved, ok := ok && after.ok } := by
  have modules := first.modules
  have module := first.module
  refine ⟨second.modules.trans modules, second.module.trans module, second.heads, fun b listed =>
    ?_, fun r listed => ?_, fun r listed b owner => ?_, fun held listed => ?_,
    fun c absent record held => ?_⟩
  · rcases second.users b (modules ▸ listed) with same | ⟨taken, wanted, inside, undef, ksym, looked⟩
    · rcases first.users b listed with before | ⟨taken, wanted, inside, undef, ksym, looked⟩
      · exact .inl (same.trans before)
      · refine .inr ⟨same.trans taken, wanted, ?_, undef, ksym, looked⟩
        rw [mem_singleton.mp inside]
        exact mem_cons_self ..
    · rw [findSymbol_congr modules module] at looked
      exact .inr ⟨taken, wanted, mem_cons_of_mem _ inside, undef, ksym, looked⟩
  · rcases mem_append.mp listed with early | late
    · exact first.origin r early
    · have origin := second.origin r late
      rwa [modules, module] at origin
  · rcases mem_append.mp listed with early | late
    · have before := first.recorded r early b owner
      have loaded := modules ▸ (first.origin r early).listed owner
      rcases second.users b loaded with same | taken
      · exact same.trans before
      · exact taken.1
    · exact second.recorded r late b owner
  · rcases mem_cons.mp listed with rfl | late
    · exact (first.own held (by simp)).mono fun r early => mem_append_left _ early
    · exact (second.own held late).mono fun r late => mem_append_right _ late
  · exact second.apart c (modules ▸ absent) record (first.apart c absent record held)

theorem simplifySymbols_connected (heads : Heads s) (m : ModId) (symtab : List Sym) (kmallocs : List (Option UseId))
    (distinct : (kmallocs.filterMap id).Nodup) (fresh : ∀ u ∈ kmallocs.filterMap id, u ∉ s.uses) :
      Connected kernel s m symtab (simplifySymbols kernel s m symtab kmallocs) := by
  induction symtab generalizing s kmallocs with
  | nil =>
    refine ⟨rfl, rfl, heads, fun _ _ => .inl rfl, ?_, ?_, ?_, fun _ _ _ held => held⟩
    all_goals simp [simplifySymbols]
  | cons sym rest ih =>
    obtain ⟨⟨t, value, found, ok⟩, ran⟩ : ∃ result, simplifySymbol kernel s m sym (kmallocs.headD none) = result := ⟨_, rfl⟩
    have split : kmallocs.filterMap id = (kmallocs.headD none).toList ++ kmallocs.tail.filterMap id := by
      cases kmallocs with
      | nil => rfl
      | cons first => cases first <;> rfl
    rw [split] at distinct fresh
    obtain ⟨first, uses⟩ := simplifySymbol_connected heads m sym (fun u taken =>
      fresh u (mem_append_left _ (mem_toList.mpr taken))) ran
    have second := ih (s := t) first.heads kmallocs.tail (nodup_append.mp distinct).2.1 (by
      intro u listed held
      rcases uses u held with old | now
      · exact fresh u (mem_append_right _ listed) old
      · exact (nodup_append.mp distinct).2.2 u (mem_toList.mpr now) u listed rfl)
    simp only [simplifySymbols, ran]
    exact first.cons second

theorem Layered.congr {changed : ModId → Module} (layered : Layered module list) (syms : ∀ m ∈ list,
    (changed m).syms = (module m).syms) (resolved : ∀ m ∈ list,
    (changed m).resolved = (module m).resolved) : Layered changed list := by
  induction list with
  | nil => trivial
  | cons a older ih =>
    obtain ⟨origins, owns, rest⟩ := layered
    refine ⟨fun r listed => ?_, fun sym listed => ?_, ih rest ?_ ?_⟩
    · rw [resolved a (by simp)] at listed
      exact (origins r listed).mono fun b inside _ => ⟨inside, syms b (mem_cons_of_mem _ inside)⟩
    · rw [syms a (by simp)] at listed
      rw [resolved a (by simp)]
      exact owns sym listed
    · exact fun m listed => syms m (mem_cons_of_mem _ listed)
    · exact fun m listed => resolved m (mem_cons_of_mem _ listed)

theorem Layered.erase (layered : Layered module list) (unused : ∀ a ∈ list, ∀ r ∈ (module a).resolved,
    r.owner ≠ some m) : Layered module (list.erase m) := by
  induction list with
  | nil => trivial
  | cons a older ih =>
    obtain ⟨origins, owns, rest⟩ := layered
    have shorter := ih rest fun b listed => unused b (mem_cons_of_mem _ listed)
    by_cases same : a = m
    · rwa [same, erase_cons_head]
    rw [erase_cons_tail (by simpa using same)]
    refine ⟨fun r listed => (origins r listed).mono fun b inside owner => ⟨?_, rfl⟩, owns, shorter⟩
    have away : b ≠ m := fun equal => unused a (by simp) r listed (equal ▸ owner)
    exact (mem_erase_of_ne away).mpr inside

/-- An address inside a module reaches another module only through one that takes a symbol from it.
-/
theorem Layered.taken (layered : Layered module list) {offset : Nat} (listed : a ∈ list) :
    (∀ sym ∈ (module a).syms, sym.value = .inside c offset → c = a ∨ ∃ d ∈ list,
    ∃ r ∈ (module d).resolved, r.owner = some c) ∧
      ∀ r ∈ (module a).resolved, r.value = .inside c offset → ∃ d ∈ list, ∃ r ∈ (module d).resolved, r.owner = some c := by
  induction list generalizing a with
  | nil => cases listed
  | cons first older ih =>
    obtain ⟨origins, owns, rest⟩ := layered
    have widen : (∃ d ∈ older, ∃ r ∈ (module d).resolved, r.owner = some c) →
      ∃ d ∈ first :: older, ∃ r ∈ (module d).resolved, r.owner = some c := fun ⟨d, inside, taken⟩ => ⟨d, mem_cons_of_mem _ inside, taken⟩
    rcases mem_cons.mp listed with rfl | late
    · have resolved : ∀ r ∈ (module a).resolved, r.value = .inside c offset → ∃ d ∈ a :: older,
        ∃ r ∈ (module d).resolved, r.owner = some c := by
        intro r held value
        have origin := origins r held
        unfold Origin at origin
        split at origin
        · obtain ⟨address, outside⟩ := origin
          cases outside.symm.trans value
        · next b owner =>
          obtain ⟨loaded, sym, exported, same⟩ := origin
          rcases (ih rest loaded).1 sym exported (same.trans value) with rfl | taken
          · exact ⟨a, by simp, r, held, owner⟩
          · exact widen taken
      refine ⟨fun sym exported value => ?_, resolved⟩
      rcases owns sym exported with ⟨address, outside⟩ | ⟨own, inside⟩ | ⟨r, held, same⟩
      · cases outside.symm.trans value
      · cases inside.symm.trans value
        exact .inl rfl
      · exact .inr (resolved r held (same.trans value))
    · refine ⟨fun sym exported value => ?_, fun r held value => widen ((ih rest late).2 r held value)⟩
      exact ((ih rest late).1 sym exported value).imp id widen

structure Inv (s : State) : Prop where
  heads : Heads s
  names : (s.modules.map fun m => (s.module m).name).Nodup
  known : ∀ b ∈ s.modules, ∀ a, latest s b = some a → a ∈ s.modules
  used : ∀ a ∈ s.modules, ∀ b, TakesFrom s a b → latest s b ≠ none
  layered : Layered s.module s.modules

theorem Inv.taken (inv : Inv s) (loaded : a ∈ s.modules) (uses : UsesSymbol s a b) : ∃ d ∈ s.modules, TakesFrom s d b := by
  obtain ⟨r, held, owner | ⟨offset, value⟩⟩ := uses
  · exact ⟨a, loaded, r, held, owner⟩
  · exact (inv.layered.taken loaded).2 r held value

theorem Layered.loaded (layered : Layered module list) (listed : a ∈ list)
    (held : r ∈ (module a).resolved) (owner : r.owner = some b) : b ∈ list := by
  induction list with
  | nil => cases listed
  | cons first older ih =>
    obtain ⟨origins, _, rest⟩ := layered
    rcases mem_cons.mp listed with rfl | late
    · exact mem_cons_of_mem _ ((origins r held).listed owner)
    · exact mem_cons_of_mem _ (ih rest late)

theorem Inv.loaded (inv : Inv s) (listed : a ∈ s.modules) (takes : TakesFrom s a b) : b ∈ s.modules := by
  obtain ⟨r, held, owner⟩ := takes
  exact inv.layered.loaded listed held owner

theorem Inv.sound (inv : Inv s) : Sound s := by
  intro a listed b uses
  obtain ⟨d, loaded, takes⟩ := inv.taken listed uses
  exact inv.loaded loaded takes

theorem Inv.nodup (inv : Inv s) : s.modules.Nodup := List.Nodup.of_map _ inv.names

theorem setState_field {α : Type} (field : Module → α) (s : State) (m c : ModId) (state : ModuleState)
    (blind : ∀ module, field { module with state } = field module) :
    field ((setState s m state).module c) = field (s.module c) := by
  obtain rfl | same := eq_or_ne c m
  · simp [setState, blind]
  · simp [setState, update_of_ne same]

theorem Inv.setState (inv : Inv s) (m : ModId) (state : ModuleState) : Inv (setState s m state) := by
  refine ⟨inv.heads.congr rfl rfl fun _ listed => listed, ?_, inv.known, fun a listed b takes => ?_,
    inv.layered.congr ?_ ?_⟩
  · simp only [setState_field Module.name s m _ state fun _ => rfl]
    exact inv.names
  · replace takes : TakesFrom s a b := takes.congr (setState_field _ s m a state fun _ => rfl)
    exact inv.used a listed b takes
  all_goals exact fun c _ => setState_field _ s m c state fun _ => rfl

/-- A module that nothing takes symbols from leaves, and no other user of a module is left
unrecorded. -/
theorem Inv.freeModule (inv : Inv s) (m : ModId) (unused : ∀ a ∈ s.modules, ¬ TakesFrom s a m)
    (last : ∀ b ∈ s.modules, latest s b = some m → ∀ a ∈ s.modules, a ≠ m → ¬ TakesFrom s a b) :
    Inv (freeModule s m) := by
  obtain ⟨shorter, shorterIs⟩ : ∃ t : State, t = { s with modules := s.modules.erase m } := ⟨_, rfl⟩
  have heads : Heads shorter := by
    rw [shorterIs]
    exact inv.heads.congr rfl rfl fun _ listed => mem_of_mem_erase listed
  have freed := moduleUnloadFree_becomes heads m
  have modules : (moduleUnloadFree shorter m).modules = s.modules.erase m := by rw [freed.modules, shorterIs]
  have module : (moduleUnloadFree shorter m).module = s.module := by rw [freed.module, shorterIs]
  have users : ∀ b ∈ s.modules.erase m, latest (moduleUnloadFree shorter m) b = if latest s b = some
    m then none else latest s b := by
    intro b listed
    rw [freed.latest b (by rwa [shorterIs]), shorterIs]
    rfl
  unfold Kmodule.freeModule
  rw [← shorterIs]
  refine ⟨freed.heads, ?_, fun b listed a recorded => ?_, fun a listed b takes => ?_, ?_⟩
  · rw [modules, module]
    exact inv.names.sublist (erase_sublist.map _)
  · rw [modules] at listed ⊢
    rw [users b listed] at recorded
    split at recorded
    · cases recorded
    · next other =>
      refine (mem_erase_of_ne ?_).mpr (inv.known b (mem_of_mem_erase listed) a recorded)
      rintro rfl
      exact other recorded
  · rw [modules] at listed
    replace takes : TakesFrom s a b := takes.congr (by rw [module])
    obtain ⟨away, loaded⟩ := (inv.nodup.mem_erase_iff).mp listed
    have kept := inv.loaded loaded takes
    have stays : b ≠ m := by
      rintro rfl
      exact unused a loaded takes
    rw [users b ((inv.nodup.mem_erase_iff).mpr ⟨stays, kept⟩), if_neg]
    · exact inv.used a loaded b takes
    · exact fun recorded => last b kept recorded a loaded away takes
  · rw [modules, module]
    exact inv.layered.erase fun a listed r held owner => unused a listed ⟨r, held, owner⟩

section
variable (inv : Inv s) (away : m ∉ s.modules)
include inv away

theorem Inv.undo {symtab : List Sym} (connected : Connected kernel s m symtab done)
    (unused : ∀ b, Wants kernel s symtab b → ∀ a ∈ s.modules, ¬ TakesFrom s a b) :
    Inv (moduleUnloadFree done.state m) := by
  have freed := moduleUnloadFree_becomes connected.heads m
  have modules := freed.modules.trans connected.modules
  have module := freed.module.trans connected.module
  have users : ∀ b ∈ s.modules, latest (moduleUnloadFree done.state m) b = latest s b ∨
    latest (moduleUnloadFree done.state m) b = none ∧ Wants kernel s symtab b := by
    intro b listed
    rw [freed.latest b (connected.modules ▸ listed)]
    rcases connected.users b listed with same | ⟨taken, wanted⟩
    · have other : latest s b ≠ some m := fun recorded => away (inv.known b listed m recorded)
      rw [same, if_neg other]
      exact .inl rfl
    · rw [if_pos taken]
      exact .inr ⟨rfl, wanted⟩
  refine ⟨freed.heads, ?_, fun b listed a recorded => ?_, fun a listed b takes => ?_, ?_⟩
  · rw [modules, module]
    exact inv.names
  · rw [modules] at listed ⊢
    rcases users b listed with same | ⟨gone, _⟩
    · exact inv.known b listed a (same ▸ recorded)
    · cases gone.symm.trans recorded
  · rw [modules] at listed
    replace takes : TakesFrom s a b := takes.congr (by rw [module])
    rcases users b (inv.loaded listed takes) with same | ⟨_, wanted⟩
    · rw [same]
      exact inv.used a listed b takes
    · exact absurd takes (unused b wanted a listed)
  · rw [modules, module]
    exact inv.layered

/-- A module that has been loaded is recorded with every module it takes symbols from. -/
theorem Inv.addModule {symtab : List Sym} {module : Module} (alone : Latest s m none)
    (connected : Connected kernel s m symtab done) (resolved : module.resolved = done.resolved)
    (syms : ∀ sym ∈ module.syms, Own m done.resolved sym.value)
      (new : module.name ∉ s.modules.map fun b => (s.module b).name) :
      Inv (addModule done.state m module) := by
  have modules : (Kmodule.addModule done.state m module).modules = m :: s.modules := by
    rw [Kmodule.addModule, connected.modules]
  have self : (Kmodule.addModule done.state m module).module m = module := update_self ..
  have others : ∀ b ∈ s.modules, (Kmodule.addModule done.state m module).module b = s.module b := by
    intro b listed
    have apart : b ≠ m := fun same => away (same ▸ listed)
    rw [← connected.module]
    exact update_of_ne apart ..
  have takesOld : ∀ a ∈ s.modules, ∀ b, TakesFrom (Kmodule.addModule done.state m module) a b → TakesFrom s a b := by
    intro a listed b takes
    exact takes.congr (by rw [others a listed])
  have stays : ∀ b ∈ s.modules, latest s b ≠ none → latest done.state b ≠ none := by
    intro b listed recorded
    rcases connected.users b listed with same | ⟨taken, _⟩
    · rwa [same]
    · simp [taken]
  have empty : Latest done.state m none := connected.apart m away none alone
  refine ⟨fun b listed => ?_, ?_, fun b listed a recorded => ?_, fun a listed b takes => ?_, ?_⟩
  · rw [modules] at listed
    rcases mem_cons.mp listed with rfl | old
    · exact ⟨none, empty.circle, empty.live⟩
    · obtain ⟨record, held⟩ := connected.heads b (connected.modules ▸ old)
      exact ⟨record, held.circle, held.live⟩
  · rw [modules, map_cons, self]
    refine nodup_cons.mpr ⟨?_, ?_⟩
    · rwa [map_congr_left fun b listed => by rw [others b listed]]
    · rw [map_congr_left fun b listed => by rw [others b listed]]
      exact inv.names
  · replace recorded : latest done.state b = some a := recorded
    rw [modules] at listed ⊢
    rcases mem_cons.mp listed with rfl | old
    · rw [empty.latest] at recorded
      cases recorded
    rcases connected.users b old with same | ⟨taken, _⟩
    · exact mem_cons_of_mem _ (inv.known b old a (same ▸ recorded))
    · cases taken.symm.trans recorded
      exact mem_cons_self ..
  · change latest done.state b ≠ none
    rw [modules] at listed
    rcases mem_cons.mp listed with rfl | old
    · obtain ⟨r, held, owner⟩ := takes
      rw [self, resolved] at held
      rw [connected.recorded r held b owner]
      exact some_ne_none _
    · have before := takesOld a old b takes
      exact stays b (inv.loaded old before) (inv.used a old b before)
  · rw [modules]
    refine ⟨fun r held => ?_, fun sym exported => ?_, inv.layered.congr ?_ ?_⟩
    · rw [self, resolved] at held
      exact (connected.origin r held).mono fun b listed _ => ⟨listed, by rw [others b listed]⟩
    · rw [self] at exported ⊢
      rw [resolved]
      exact syms sym exported
    all_goals exact fun b listed => by rw [others b listed]

theorem Inv.unloadInit : Inv { s with links := s.links.init (.head m) } ∧
    Latest { s with links := s.links.init (.head m) } m none := by
  obtain ⟨fresh, freshIs⟩ : ∃ t : State, t = { s with links := s.links.init (.head m) } := ⟨_, rfl⟩
  have kept : ∀ b ∈ s.modules, ∀ record, Latest s b record → Latest fresh b record := by
    intro b listed record held
    have apart : ∀ e ∈ Entry.head b :: record.toList.map Entry.use, e ≠ .head m := by
      intro e entry
      rcases mem_cons.mp entry with rfl | entry
      · exact fun same => away (Entry.head.inj same ▸ listed)
      · obtain ⟨u, _, rfl⟩ := mem_map.mp entry
        exact Entry.noConfusion
    rw [freshIs]
    refine ⟨held.circle.congr ?_ ?_, held.live⟩
    all_goals exact fun e entry => by simp [Links.init, apart e entry]
  have users : ∀ b ∈ s.modules, latest fresh b = latest s b := by
    intro b listed
    obtain ⟨record, held⟩ := inv.heads b listed
    rw [(kept b listed record held).latest, held.latest, freshIs]
  have modules : fresh.modules = s.modules := by rw [freshIs]
  have module : fresh.module = s.module := by rw [freshIs]
  rw [← freshIs]
  refine ⟨⟨fun b listed => ?_, ?_, fun b listed a recorded => ?_, fun a listed b takes => ?_, ?_⟩, ?_, ?_⟩
  · obtain ⟨record, held⟩ := inv.heads b (modules ▸ listed)
    exact ⟨record, kept b (modules ▸ listed) record held⟩
  · rw [modules, module]
    exact inv.names
  · rw [modules] at listed ⊢
    exact inv.known b listed a (users b listed ▸ recorded)
  · rw [modules] at listed
    replace takes : TakesFrom s a b := takes.congr (by rw [module])
    rw [users b (inv.loaded listed takes)]
    exact inv.used a listed b takes
  · rw [modules, module]
    exact inv.layered
  · rw [freshIs]
    exact s.links.circle_init (.head m)
  · simp

end

/-- No loaded module takes symbols from a module that the image wants symbols of. -/
def Unshared (kernel : List (String × Nat)) (s : State) (image : Image) : Prop :=
  ∀ b, Wants kernel s image.symtab b → ∀ a ∈ s.modules, ¬ TakesFrom s a b

inductive Loaded (kernel : List (String × Nat)) (s : State) (image : Image) : State × Option ModId → Prop where
  | failed {after : State} (inv : Unshared kernel s image → Inv after) : Loaded kernel s image (after, none)
  | done {after : State} {m : ModId} (away : m ∉ s.modules) (inv : Inv after) (modules : after.modules = m :: s.modules)
      (module : ∀ a ∈ s.modules, after.module a = s.module a)
        (older : ∀ r ∈ (after.module m).resolved, ∀ b, r.owner = some b → b ∈ s.modules)
      (users : ∀ b ∈ after.modules, latest after b = some m → Wants kernel s image.symtab b) :
        Loaded kernel s image (after, some m)

def InitSet (fault : Fault) : Prop := fault = .assertion "mod->init == NULL"

theorem findModule_none (absent : ¬ (findModule s name).isSome = true) : name ∉ s.modules.map fun m => (s.module m).name := by
  intro listed
  obtain ⟨m, loaded, same⟩ := mem_map.mp listed
  rw [not_isSome_iff_eq_none, findModule, find?_eq_none] at absent
  exact absent m loaded (by simpa using same)

theorem Loaded.ofConnected {fresh : State} {module : Module} (modules : fresh.modules = s.modules)
    (same : fresh.module = s.module) (begun : Inv fresh) (away : m ∉ s.modules)
    (alone : Latest fresh m none)
    (connected : Connected kernel fresh m image.symtab done)
      (resolved : module.resolved = done.resolved) (syms : ∀ sym ∈ module.syms,
      Own m done.resolved sym.value) (new : module.name ∉ s.modules.map fun b =>
        (s.module b).name) :
    Loaded kernel s image (addModule done.state m module, some m) := by
  have outside := modules ▸ away
  have added := begun.addModule outside alone connected resolved syms (by rwa [modules, same])
  have listed : (addModule done.state m module).modules = m :: s.modules := by rw [addModule, connected.modules, modules]
  have self : (addModule done.state m module).module m = module := update_self ..
  refine .done away added listed (fun a old => ?_) (fun r held b owner => ?_) fun b loaded recorded => ?_
  · have apart : a ≠ m := fun equal => away (equal ▸ old)
    rw [← same, ← connected.module]
    exact update_of_ne apart ..
  · rw [self, resolved] at held
    rw [← modules]
    exact (connected.origin r held).listed owner
  · replace recorded : latest done.state b = some m := recorded
    rw [listed] at loaded
    rcases mem_cons.mp loaded with rfl | old
    · rw [(connected.apart b outside none alone).latest] at recorded
      cases recorded
    rcases connected.users b (modules ▸ old) with unchanged | ⟨_, sym, inside, undef, ksym, found⟩
    · exact absurd (begun.known b (modules ▸ old) m (unchanged ▸ recorded)) outside
    · rw [findSymbol_congr modules same] at found
      exact ⟨sym, inside, undef, ksym, found⟩

theorem linkModule_ends (kernel : List (String × Nat)) (inv : Inv s) (image : Image)
    (away : m ∉ s.modules) {kmallocs : List (Option UseId)}
    (distinct : (kmallocs.filterMap id).Nodup) (fresh : ∀ u ∈ kmallocs.filterMap id, u ∉ s.uses)
    (new : image.name ∉ s.modules.map fun b => (s.module b).name) :
      Ends InitSet (linkModule kernel s image m kmallocs) (Loaded kernel s image) := by
  obtain ⟨begun, alone⟩ := inv.unloadInit away
  have connected : Connected kernel _ m image.symtab _ :=
    simplifySymbols_connected begun.heads m image.symtab kmallocs distinct fresh
  unfold linkModule
  dsimp only
  obtain ⟨opened, openedIs⟩ : ∃ t : State, t = { s with links := s.links.init (.head m) } := ⟨_, rfl⟩
  have modules : opened.modules = s.modules := by rw [openedIs]
  have module : opened.module = s.module := by rw [openedIs]
  rw [← openedIs] at begun alone connected ⊢
  generalize doneIs : simplifySymbols kernel opened m image.symtab kmallocs = done at connected ⊢
  have undone : Loaded kernel s image (moduleUnloadFree done.state m, none) := by
    refine .failed fun unshared => begun.undo (modules ▸ away) connected fun b wanted a listed takes => ?_
    unfold Wants at wanted
    rw [findSymbol_congr modules module] at wanted
    replace takes : TakesFrom s a b := takes.congr (by rw [module])
    exact unshared b wanted a (modules ▸ listed) takes
  split
  · exact undone
  simp only [ensure_bind]
  split
  · split
    · exact undone
    split
    · exact undone
    split
    · exact undone
    refine .ofConnected modules module begun away alone connected rfl (fun sym listed => ?_) new
    obtain ⟨entry, _, rfl⟩ := mem_map.mp listed
    rw [getD_eq_getElem?_getD]
    cases held : done.values[entry.2]? with
    | some value => exact connected.own value (mem_of_getElem? held)
    | none => exact .inl ⟨0, rfl⟩
  · rfl

theorem loadModule_ends (kernel : List (String × Nat)) (inv : Inv s) {memory : Memory}
    (allowed : Allowed s (.init image memory)) : Ends InitSet (loadModule kernel s image memory)
    (Loaded kernel s image) := by
  obtain ⟨unloaded, distinct, fresh⟩ := allowed
  have unchanged : Loaded kernel s image (s, none) := .failed fun _ => inv
  unfold loadModule
  split
  · exact unchanged
  split
  · exact unchanged
  · next absent =>
    split
    · exact unchanged
    · next m core =>
      split
      · exact unchanged
      · exact linkModule_ends kernel inv image (unloaded m core) distinct fresh (findModule_none absent)

/-- The loader gives up before it looks at the symbols. -/
def Refused (s : State) (image : Image) (memory : Memory) : Prop :=
  image.wellFormed = false ∨ (findModule s image.name).isSome ∨ memory.core = none ∨ memory.init = false

/-- The symbol table, the exports and the functions of the image are in order, and there is
memory for the use records. -/
structure Loads (kernel : List (String × Nat)) (s : State) (image : Image) (memory : Memory) : Prop where
  placed : ∀ sym ∈ image.symtab, sym.shndx ≠ .common
  found : ∀ sym ∈ image.symtab, sym.shndx = .undef →
    sym.weak = true ∨ (findSymbol kernel s sym.name).isSome
  supplied : image.symtab.length ≤ memory.uses.length ∧ none ∉ memory.uses
  relocates : image.relocates = true
  exported : ∀ sym ∈ image.ksymtab, findSymbol kernel s sym.1 = none
  finalizes : image.finalizes = true
  starts : 0 ≤ image.init.getD 0

/-- A module is unloaded, or fails to load, only when no other loaded module takes symbols from a
module whose latest user it is. -/
def LatestLast (kernel : List (String × Nat)) (s : State) : Op → Prop
  | .init image memory => Refused s image memory ∨ Loads kernel s image memory ∨ Unshared kernel s image
  | .cleanup name _ =>
    ∀ m ∈ findModule s name, ∀ b ∈ s.modules, latest s b = some m → ∀ a ∈ s.modules, a ≠ m →
      ¬ TakesFrom s a b

private theorem Refused.loadModule {memory : Memory} (refused : Refused s image memory) :
    loadModule kernel s image memory = .ok (s, none) := by
  rw [Kmodule.loadModule]
  split
  · rfl
  split
  · rfl
  next formed new =>
    rcases refused with never | never | core | init
    · exact absurd never formed
    · exact absurd never new
    · rw [core]
      rfl
    · split
      · rfl
      · exact if_pos init

private theorem useModule_supplied (s : State) (a : ModId) (b : Option ModId) (u : UseId) :
    (useModule s a b (some u)).2 = true ∧ (useModule s a b (some u)).1.modules = s.modules ∧
      (useModule s a b (some u)).1.module = s.module := by
  cases b with
  | none => exact ⟨rfl, rfl, rfl⟩
  | some b =>
    rw [useModule]
    split <;> exact ⟨rfl, rfl, rfl⟩

private theorem simplifySymbol_supplied {sym : Sym} (placed : sym.shndx ≠ .common)
    (found : sym.shndx = .undef → sym.weak = true ∨ (findSymbol kernel s sym.name).isSome)
    (m : ModId) (u : UseId) :
    (simplifySymbol kernel s m sym (some u)).1.modules = s.modules ∧
      (simplifySymbol kernel s m sym (some u)).1.module = s.module ∧
      (simplifySymbol kernel s m sym (some u)).2.2.2 = true := by
  rw [simplifySymbol]
  cases at_ : sym.shndx with
  | common => exact absurd at_ placed
  | abs | other => exact ⟨rfl, rfl, rfl⟩
  | undef =>
    dsimp only
    rw [resolveSymbol]
    cases outcome : findSymbol kernel s sym.name with
    | none =>
      refine ⟨rfl, rfl, ?_⟩
      simpa [outcome] using found at_
    | some pair =>
      obtain ⟨used, modules, module⟩ := useModule_supplied s m pair.2 u
      simp only [used, if_true]
      exact ⟨modules, module, trivial⟩

private theorem simplifySymbols_supplied {symtab : List Sym} {kmallocs : List (Option UseId)}
    (placed : ∀ sym ∈ symtab, sym.shndx ≠ .common)
    (found : ∀ sym ∈ symtab, sym.shndx = .undef →
      sym.weak = true ∨ (findSymbol kernel s sym.name).isSome)
    (enough : symtab.length ≤ kmallocs.length) (given : none ∉ kmallocs) (m : ModId) :
    (simplifySymbols kernel s m symtab kmallocs).state.modules = s.modules ∧
      (simplifySymbols kernel s m symtab kmallocs).state.module = s.module ∧
      (simplifySymbols kernel s m symtab kmallocs).ok = true := by
  induction symtab generalizing s kmallocs with
  | nil => exact ⟨rfl, rfl, rfl⟩
  | cons sym rest ih =>
    obtain _ | ⟨first, more⟩ := kmallocs
    · simp at enough
    rw [mem_cons, not_or] at given
    rw [forall_mem_cons] at placed found
    obtain ⟨u, rfl⟩ := Option.ne_none_iff_exists'.mp (Ne.symm given.1)
    obtain ⟨modules, module, fine⟩ := simplifySymbol_supplied placed.1 found.1 m u
    have resolvable : ∀ other ∈ rest, other.shndx = .undef → other.weak = true ∨
        (findSymbol kernel (simplifySymbol kernel s m sym (some u)).1 other.name).isSome := by
      intro other listed undef
      rw [findSymbol_congr modules module]
      exact found.2 other listed undef
    have later := ih placed.2 resolvable (Nat.le_of_succ_le_succ enough) given.2
    rw [simplifySymbols]
    simp only [headD_cons, tail_cons, fine, Bool.true_and]
    exact ⟨later.1.trans modules, later.2.1.trans module, later.2.2⟩

/-- An image that is in order is loaded, and its `init` function succeeds. -/
theorem Loads.succeeds {memory : Memory} {after : State} {ret : Int}
    (loads : Loads kernel s image memory) (early : ¬ Refused s image memory)
    (ran : doInitModule kernel s image memory = .ok (after, ret)) : ret = 0 := by
  simp only [Refused, not_or, Bool.not_eq_false] at early
  obtain ⟨formed, new, core, init⟩ := early
  obtain ⟨m, placed⟩ := Option.ne_none_iff_exists'.mp core
  have resolvable : ∀ sym ∈ image.symtab, sym.shndx = .undef → sym.weak = true ∨
      (findSymbol kernel { s with links := s.links.init (.head m) } sym.name).isSome := loads.found
  obtain ⟨modules, module, fine⟩ := simplifySymbols_supplied loads.placed resolvable loads.supplied.1
    loads.supplied.2 m
  obtain ⟨⟨between, loaded⟩, linked, ran⟩ := exists_of_bind ran
  rw [loadModule, if_neg (by simp [formed]), if_neg new, placed] at linked
  dsimp only at linked
  rw [if_neg (by simp [init]), linkModule] at linked
  dsimp only at linked
  rw [if_neg (by simp [fine]), ensure_bind] at linked
  split at linked
  · rw [if_neg (by simp [loads.relocates]), if_neg, if_neg (by simp [loads.finalizes])] at linked
    · cases linked
      simp only [addModule, update_self] at ran
      rw [if_neg (Int.not_lt.mpr loads.starts)] at ran
      cases ran
      rfl
    · rw [verifyExportSymbols, Bool.not_eq_false, List.all_eq_true]
      intro sym listed
      obtain ⟨entry, held, rfl⟩ := mem_map.mp listed
      rw [findSymbol_congr modules module]
      exact Option.isNone_iff_eq_none.mpr (loads.exported entry held)
  · cases linked

theorem doInitModule_ends (inv : Inv s) {memory : Memory} (allowed : Allowed s (.init image memory))
    (last : LatestLast kernel s (.init image memory)) :
    Ends InitSet (doInitModule kernel s image memory) fun result => Inv result.1 := by
  have ends := loadModule_ends kernel inv allowed
  by_cases early : Refused s image memory
  · rw [doInitModule, early.loadModule]
    exact inv
  replace last : (∃ after ret, doInitModule kernel s image memory = .ok (after, ret) ∧ ret ≠ 0) →
    Unshared kernel s image := by
    rintro ⟨after, ret, ran, failed⟩
    rcases last with refused | loads | unshared
    · exact absurd refused early
    · exact absurd (loads.succeeds early ran) failed
    · exact unshared
  unfold doInitModule at last ⊢
  cases outcome : loadModule kernel s image memory with
  | error => exact ends.fault outcome
  | ok =>
    rw [outcome] at last
    cases ends.value outcome with
    | failed keeps => exact keeps (last ⟨_, -1, rfl, by decide⟩)
    | @done after m away loaded modules module older users =>
      change Ends InitSet (if ((after.module m).init.getD 0) < 0 then _ else _) _
      split
      · next negative =>
        have unshared := last ⟨_, _, if_pos negative, Int.ne_of_lt negative⟩
        have before : ∀ a ∈ s.modules, ∀ b, TakesFrom after a b → TakesFrom s a b := by
          intro a listed b takes
          exact takes.congr (by rw [module a listed])
        refine Inv.freeModule (loaded.setState m .going) m (fun a listed takes => ?_)
          fun b listed recorded a other apart takes => ?_
        · replace takes : TakesFrom after a _ := takes.congr (setState_field _ after m a .going fun _ => rfl)
          rcases mem_cons.mp (modules ▸ listed) with rfl | old
          · obtain ⟨r, held, owner⟩ := takes
            exact away (older r held a owner)
          · exact away (inv.loaded old (before a old m takes))
        · replace takes : TakesFrom after a _ := takes.congr (setState_field _ after m a .going fun _ => rfl)
          have old := mem_of_ne_of_mem apart (modules ▸ other)
          exact unshared b (users b listed recorded) a old (before a old b takes)
      · exact loaded.setState m .live

theorem findModule_eq (inv : Inv s) (listed : b ∈ s.modules) : findModule s (s.module b).name = some b := by
  unfold findModule
  cases found : s.modules.find? fun m => (s.module m).name = (s.module b).name with
  | none => exact absurd (decide_eq_true rfl) (find?_eq_none.mp found b listed)
  | some m =>
    have same : (s.module m).name = (s.module b).name := by simpa using find?_some found
    rw [inj_on_of_nodup_map inv.names (mem_of_find?_eq_some found) listed same]

theorem doCleanupModule_inv (inv : Inv s) (readable : Bool)
    (last : LatestLast kernel s (.cleanup name readable)) :
    Inv (doCleanupModule s name readable).1 := by
  unfold doCleanupModule
  split
  · exact inv
  · cases found : findModule s name with
    | none => exact inv
    | some m =>
      dsimp only
      split
      · exact inv
      · next empty =>
        have listed := mem_of_find?_eq_some found
        obtain ⟨record, held⟩ := inv.heads m listed
        have unrecorded := held.empty_iff.mp (Classical.not_not.mp empty)
        refine Inv.freeModule (inv.setState m .going) m (fun a loaded takes => ?_)
          fun b loaded recorded a other apart takes => ?_
        · replace takes : TakesFrom s a _ := takes.congr (setState_field _ s m a .going fun _ => rfl)
          exact inv.used a loaded m takes unrecorded
        · replace takes : TakesFrom s a _ := takes.congr (setState_field _ s m a .going fun _ => rfl)
          exact last m found b loaded recorded a other apart takes

theorem inv_boot : Inv boot := ⟨by simp [Heads, boot], by simp [boot], by simp [boot], by simp [boot], trivial⟩

/-- A loaded module's symbols lie in loaded modules, and a module that is in use cannot be
unloaded, when the latest user of a module is the last one to leave. -/
theorem dependencies_loaded_when_latest_last (kernel : List (String × Nat)) :
    ((machine kernel).restrict (LatestLast kernel)).ConformsExcept InitSet Sound Refuses := by
  refine Machine.conformsExcept_of_invariant (show ∀ s, _ → Inv s from ?_) ?_ fun s inv => inv.sound
  · intro s begins
    rw [show s = boot from begins]
    exact inv_boot
  rintro s op inv ⟨allowed, last⟩
  cases op with
  | init => exact (doInitModule_ends inv allowed last).mono fun result kept => ⟨kept, trivial⟩
  | cleanup name readable =>
    refine ⟨doCleanupModule_inv inv readable last, ?_⟩
    rintro b listed rfl used
    obtain ⟨a, loaded, uses⟩ := used
    obtain ⟨d, user, takes⟩ := inv.taken loaded uses
    obtain ⟨record, held⟩ := inv.heads b listed
    have linked : s.links.next (.head b) ≠ .head b := fun empty => inv.used d user b takes (held.empty_iff.mp empty)
    unfold doCleanupModule
    rw [findModule_eq inv listed]
    split
    · rfl
    · exact if_pos linked

/-- Two modules use a third; when the later one has left, the third can be unloaded. -/
theorem unloaded_while_in_use : ∃ s, (machine []).Reachable s ∧ ¬ Sound s := by
  obtain ⟨s, reachable, loaded, gone, r, held, value⟩ : ∃ s, (machine []).Reachable s ∧ 2 ∈ s.modules ∧ 1 ∉ s.modules ∧
      ∃ r ∈ (s.module 2).resolved, r.value = .inside 1 0 := Machine.exists_of_replay rfl
      [.init ⟨true, "lib", [⟨"f", .other, false, 0⟩], [("f", 0)], false, true, true, none, false⟩ ⟨some 1, true, []⟩,
        .init ⟨true, "old", [⟨"f", .undef, false, 0⟩], [], false, true, true, none, false⟩ ⟨some 2, true, [some 1]⟩,
        .init ⟨true, "new", [⟨"f", .undef, false, 0⟩], [], false, true, true, none, false⟩
          ⟨some 3, true, [some 2]⟩, .cleanup "new" true, .cleanup "lib" true] (by decide +kernel)
  exact ⟨s, reachable, fun sound => gone (sound 2 loaded 1 ⟨r, held, .inr ⟨0, value⟩⟩)⟩

end Ucore.Kmodule
