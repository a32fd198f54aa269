import Ucore.Proofs.SlabMoves

/-! The calls of the slab allocator. A request is served or leaves everything as it was;
a returned object may take its slab with it, and the slab's descriptor in turn is an
object that is returned to another cache. -/

namespace Ucore.Slab
open Lib List
open Function (update update_of_ne update_self)

variable {L : CacheId → CacheLayout} {s t : State} {live : List Block} {c : CacheId} {q : Addr} {i n page : Nat} {b : Block}
  {supplied : State → CacheId → Prop} {release : State → CacheId → Addr → Kernel State}
    {allocate : State → CacheId → Kernel (State × Option Addr)}

def Grows (s t : State) : Prop := ∀ p, s.used p = true → t.used p = true ∧ t.pages p = s.pages p

theorem Grows.trans {u : State} (first : Grows s t) (second : Grows t u) : Grows s u := by
  intro p used
  obtain ⟨still, info⟩ := first p used
  obtain ⟨used, same⟩ := second p still
  exact ⟨used, same.trans info⟩

/-- An object of the cache has been taken, and every size up to the cache's fits in it. -/
def Obtains (L : CacheId → CacheLayout) (s : State) (live : List Block) (c : CacheId) (t : State) (addr : Addr) : Prop :=
  Grows s t ∧ (∃ q i, At L t c q i addr) ∧ ∀ size ≤ (L c).objsize, Valid L t (⟨addr, size⟩ :: live)

theorem allocOne_spec (fits : Fits L) (valid : Valid L s live)
    (member : q ∈ (s.slabCache c).slabsNotfull) : Obtains L s live c (kmemCacheAllocOne s c q).1
    (kmemCacheAllocOne s c q).2 := by
  have on : OnList s c q := .inr member
  obtain ⟨page, free, ok⟩ := valid.slab c q on
  have open_ := valid.notfull c q member
  cases free with
  | nil =>
    have count := ok.count
    rw [length_nil] at count
    omega
  | cons i rest =>
    obtain ⟨first, chain⟩ := ok.chain
    have proper : ∀ j ∈ rest, j ≠ bufctlEnd := by
      intro j later
      have bound := ok.bound j (mem_cons_of_mem _ later)
      exact Nat.ne_of_lt (bound.trans (fits.num_lt c))
    have ends := chain.ends_iff proper
    have size := congrArg CacheLayout.objsize (valid.layout c)
    have object : (kmemCacheAllocOne s c q).2 = objAddr L s c q i := by rw [kmemCacheAllocOne, objAddr, first, size]
    have closed : q ∉ (s.slabCache c).slabsFull := by
      intro full
      have all := valid.full c q full
      omega
    let taken := s.setSlab q { s.slabs q with inuse := (s.slabs q).inuse + 1, free := (s.slabs q).bufctl i }
    have besides : Besides s taken c q := valid.besides_setSlab on _
    have here : taken.slabs q =
      { s.slabs q with inuse := (s.slabs q).inuse + 1, free := (s.slabs q).bufctl i } :=
      update_self ..
    have state : (kmemCacheAllocOne s c q).1 = if rest = [] then (taken.unlink q).addFull c q else taken := by
      simp only [kmemCacheAllocOne, first, ends]
      rfl
    have bound := ok.bound i (mem_cons_self ..)
    have mem : (taken.slabs q).sMem = (s.slabs q).sMem := by rw [here]
    have address : objAddr L s c q i = objAddr L taken c q i := by rw [objAddr, objAddr, mem]
    rw [object, state]
    split
    next none =>
      have off := besides.not_on_unlink c
      have front := slabCache_addFull (taken.unlink q) c q
      have filed : q ∈ (((taken.unlink q).addFull c q).slabCache c).slabsFull := front ▸ mem_cons_self ..
      refine ⟨fun p used => ⟨used, rfl⟩, ⟨q, i, .inl filed, bound, address⟩, fun size enough => ?_⟩
      refine valid.take fits on ok (besides.unlink.addFull off) here ?_ rfl rfl enough
      rw [if_pos none]
      refine ⟨filed, ?_⟩
      rw [front]
      exact fun member => off (.inr member)
    next some =>
      refine ⟨fun p used => ⟨used, rfl⟩, ⟨q, i, .inr member, bound, address⟩, fun size enough => ?_⟩
      refine valid.take fits on ok besides here ?_ rfl rfl enough
      rw [if_neg some]
      exact ⟨member, closed⟩

def withSlabPages (s : State) (page n : Nat) (info : PageInfo) : State :=
  { s with pages := fun p : Nat => if page ≤ p ∧ p < page + n then info else s.pages p }

theorem setSlabPages_eq (n page : Nat) (s : State) : setSlabPages c q n page s = withSlabPages s page n ⟨true, c, q⟩ := by
  induction n generalizing page s with
  | zero =>
    have none : ∀ p : Nat, ¬ (page ≤ p ∧ p < page + 0) := by omega
    simp only [setSlabPages, withSlabPages, none, if_false]
  | succ n ih =>
    rw [setSlabPages, ih, withSlabPages, withSlabPages]
    simp only [State.setPage, State.mk.injEq, true_and, and_true]
    funext p
    obtain rfl | here := eq_or_ne p page
    · rw [update_self, ite_self, if_pos ⟨le_rfl, Nat.lt_add_of_pos_right (Nat.succ_pos n)⟩]
    have range : (page + 1 ≤ p ∧ p < page + 1 + n) ↔ (page ≤ p ∧ p < page + (n + 1)) := by omega
    rw [update_of_ne here]
    simp only [range]

theorem fillBufctl_lt (bufctl : Nat → Nat) (bound : i < n) : fillBufctl n bufctl i = i + 1 := by
  induction n with
  | zero => exact absurd bound (Nat.not_lt_zero i)
  | succ n ih =>
    rw [fillBufctl]
    by_cases here : i = n
    · rw [here, update_self]
    · rw [update_of_ne here]
      exact ih (by omega)

theorem chain_range {num : Nat} (positive : 0 < num) (bufctl : Nat → Nat) :
    Chain (update (fillBufctl num bufctl) (num - 1) bufctlEnd) bufctlEnd 0 (range num) := by
  apply Chain.range num positive
  · intro i inside
    rw [update_of_ne (by omega)]
    exact fillBufctl_lt bufctl (by omega)
  · exact update_self ..

def Reserved (s : State) (page : PageId) (n : Nat) : Prop :=
  ∀ i < n, (s.pages (page + i)).slab = false ∧ s.used (page + i) = true

def freshSlab (L : CacheId → CacheLayout) (s : State) (c : CacheId) (page : PageId) (q : Addr) : SlabT where
  sMem := page2kva page + (L c).offset
  inuse := 0
  offset := (L c).offset
  free := 0
  bufctl := update (fillBufctl (L c).num (s.slabs q).bufctl) ((L c).num - 1) bufctlEnd

theorem linkSlab_eq (valid : Valid L s live) (page : Nat) : linkSlab (startSlab s c page q) c page q =
    ((withSlabPages s page (1 <<< (L c).pageOrder) ⟨true, c, q⟩).setSlab q
    (freshSlab L s c page q)).addNotfull c q := by
  have layout := valid.layout c
  have order := congrArg CacheLayout.pageOrder layout
  have num := congrArg CacheLayout.num layout
  have offset := congrArg CacheLayout.offset layout
  simp [linkSlab, startSlab, setSlabPages_eq, withSlabPages, State.setSlab, State.addNotfull,
    State.setCache, freshSlab, order, num, offset]

theorem linkSlab_spec (fits : Fits L) {before : List Block} (valid : Valid L s before)
    (fresh : Reserved s page (1 <<< (L c).pageOrder)) (off : ∀ d, ¬ OnList s d q)
    (held : live.Sublist before)
    (place : (L c).offSlab = false → q = page2kva page ∧ before = live)
      (moved : (L c).offSlab = true → ∃ size, before = ⟨q, size⟩ :: live)
    (header : (L c).offSlab = true → ∃ d r j, (L c).slabCachep = some d ∧ At L s d r j q) :
      Valid L (linkSlab (startSlab s c page q) c page q) live := by
  rw [linkSlab_eq valid]
  generalize uIs : (withSlabPages s page (1 <<< (L c).pageOrder) ⟨true, c, q⟩).setSlab q (freshSlab L s c page q) = u
  have caches : u.slabCache = s.slabCache := uIs ▸ rfl
  have used : u.used = s.used := uIs ▸ rfl
  have self : u.slabs q = freshSlab L s c page q := uIs ▸ update_self ..
  have others : ∀ r, r ≠ q → u.slabs r = s.slabs r := fun r other => uIs ▸ update_of_ne other ..
  have pages : ∀ p : Nat, u.pages p = if page ≤ p ∧ p < page + 1 <<< (L c).pageOrder then
    ⟨true, c, q⟩ else s.pages p := fun p => uIs ▸ rfl
  have unlisted : ∀ d, ¬ OnList u d q := by
    intro d
    rw [OnList, caches]
    exact off d
  have besides : Besides s u c q := by
    constructor
    case layout => exact fun d => caches ▸ rfl
    case full => exact fun d r _ => caches ▸ Iff.rfl
    case notfull => exact fun d r _ => caches ▸ Iff.rfl
    case once => exact fun d => caches ▸ valid.once d
    case only => exact fun d listed => absurd listed (unlisted d)
    case slabs => exact others
    case pages =>
      intro p d r _ info inUse
      refine ⟨(pages p).trans (if_neg fun range => ?_), used ▸ inUse⟩
      obtain ⟨i, rfl⟩ := Nat.exists_eq_add_of_le range.1
      have free := (fresh i (Nat.add_lt_add_iff_left.mp range.2)).1
      rw [info] at free
      cases free
  have linked := besides.addNotfull (unlisted c)
  have here := slabCache_addNotfull u c q
  have taken : ∀ addr, Taken L (u.addNotfull c q) live addr ↔ Taken L s before addr := by
    intro addr
    have listed : ∀ d, OnList (u.addNotfull c q) d addr ↔ OnList s d addr ∨ (d = c ∧ addr = q) := by
      intro d
      obtain rfl | same := eq_or_ne addr q
      · refine ⟨fun on => .inr ⟨linked.only d on, rfl⟩, ?_⟩
        rintro (on | ⟨rfl, _⟩)
        · exact absurd on (off d)
        · exact .inr (here ▸ mem_cons_self ..)
      · simp [linked.on same, same]
    cases kind : (L c).offSlab with
    | false =>
      obtain ⟨_, rfl⟩ := place kind
      have headers : ∀ d, Header L (u.addNotfull c q) d addr ↔ Header L s d addr := by
        intro d
        rw [Header, listed]
        refine ⟨?_, fun header => ⟨.inl header.1, header.2⟩⟩
        rintro ⟨on | ⟨rfl, _⟩, out⟩
        · exact ⟨on, out⟩
        · exact absurd (kind.symm.trans out) Bool.false_ne_true
      simp only [Taken, headers]
    | true =>
      obtain ⟨size, rfl⟩ := moved kind
      rw [taken_cons (fun _ _ => Iff.rfl)]
      constructor
      · rintro (⟨b, member, rfl⟩ | ⟨d, header⟩)
        · exact .inr (.inl ⟨b, member, rfl⟩)
        · obtain on | ⟨_, equal⟩ := (listed d).mp header.1
          · exact .inr (.inr ⟨d, on, header.2⟩)
          · exact .inl equal.symm
      · rintro (rfl | ⟨b, member, rfl⟩ | ⟨d, header⟩)
        · exact .inr ⟨c, (listed c).mpr (.inr ⟨rfl, rfl⟩), kind⟩
        · exact .inl ⟨b, member, rfl⟩
        · exact .inr ⟨d, (listed d).mpr (.inl header.1), header.2⟩
  apply valid.link fits fresh linked off (here ▸ mem_cons_self ..) _ _ _ _ _ pages used
    (fun kind => (place kind).1) taken held header
  · intro kind b member
    obtain ⟨size, rfl⟩ := moved kind
    intro clash
    exact (nodup_cons.mp valid.distinct).1 (mem_map.mpr ⟨b, member, clash⟩)
  · rw [here]
    exact fun member => unlisted c (.inl member)
  · show (u.slabs q).sMem = _
    rw [self, freshSlab]
  · show (u.slabs q).offset = _
    rw [self, freshSlab]
  · show (u.slabs q).inuse = _
    rw [self, freshSlab]
  · show Chain (u.slabs q).bufctl bufctlEnd (u.slabs q).free _
    rw [self]
    exact chain_range (fits.num_pos c) _

/-- Only the count of pages has changed, by those of a request that was refused. -/
def Refused (s t : State) : Prop := ∃ order < 64, ∃ answers, t = s.count (1 <<< order) answers

/-- What a request for an object of a cache comes to: it was not supplied and nothing else has
changed, or an object has been taken. -/
def Served (L : CacheId → CacheLayout) (supplied : Prop) (s : State) (live : List Block) (c : CacheId) :
    State × Option Addr → Prop
  | (t, none) => ¬ supplied ∧ Refused s t
  | (t, some addr) => supplied ∧ Obtains L s live c t addr

def Serves (L : CacheId → CacheLayout) (supplied : State → CacheId → Prop)
    (allocate : State → CacheId → Kernel (State × Option Addr)) (c : CacheId) : Prop :=
  ∀ s live, Valid L s live → Ends (fun _ => False) (allocate s c) (Served L (supplied s c) s live c)

def Grown (L : CacheId → CacheLayout) (supplied : Prop) (s : State) (live : List Block) (c : CacheId) :
    State × Bool → Prop
  | (t, false) => ¬ supplied ∧ Refused s t
  | (t, true) => supplied ∧ Grows s t ∧ Valid L t live ∧ ∃ q rest, (t.slabCache c).slabsNotfull = q :: rest

theorem linkSlab_grows (valid : Valid L t live) (available : Available s page (1 <<< (L c).pageOrder))
    (grows : Grows s t) : Grows s (linkSlab (startSlab t c page q) c page q) := by
  intro p inUse
  obtain ⟨still, same⟩ := grows p inUse
  rw [linkSlab_eq valid]
  refine ⟨still, (if_neg fun range => ?_ : (withSlabPages t page _ _).pages p = t.pages p).trans same⟩
  obtain ⟨i, rfl⟩ := Nat.exists_eq_add_of_le range.1
  rw [available i (Nat.add_lt_add_iff_left.mp range.2)] at inUse
  cases inUse

theorem linkSlab_front (valid : Valid L s live) (page : Nat) :
    ((linkSlab (startSlab s c page q) c page q).slabCache c).slabsNotfull = q ::
    (s.slabCache c).slabsNotfull := by
  rw [linkSlab_eq valid]
  simp [State.addNotfull, State.setCache, State.setSlab, withSlabPages]

theorem freePages_count (available : Available s page n) (rest later : List (Option PageId)) (m : Nat) :
    freePages (((s.mark page n true).count n rest).count m later) page n = s.count m later := by
  simp only [freePages, State.mark, State.count, State.mk.injEq, true_and]
  constructor
  · funext p
    split
    next range =>
      obtain ⟨i, rfl⟩ := Nat.exists_eq_add_of_le range.1
      exact (available i (Nat.add_lt_add_iff_left.mp range.2)).symm
    next => rfl
  · rw [add_right_comm, add_sub_cancel_right]

theorem Reserved.grows (reserved : Reserved s page n) (grows : Grows s t) : Reserved t page n := by
  intro i bound
  obtain ⟨plain, used⟩ := reserved i bound
  obtain ⟨still, same⟩ := grows _ used
  exact ⟨same ▸ plain, still⟩

section
variable (fits : Fits L) (valid : Valid L s live)
include fits valid

theorem growFrom_ends {rest : List (Option PageId)} (available : Available s page (1 <<< (L c).pageOrder))
    (serves : (L c).offSlab = true → ∀ d, (L c).slabCachep = some d → Serves L supplied allocate d) :
    Ends (fun _ => False)
      (growFrom allocate c ((s.mark page (1 <<< (L c).pageOrder) true).count (1 <<< (L c).pageOrder) rest, some page))
      (Grown L (∀ d, (L c).offSlab = true → (L c).slabCachep = some d →
        supplied ((s.mark page (1 <<< (L c).pageOrder) true).count (1 <<< (L c).pageOrder) rest) d) s live c) := by
  obtain ⟨u, uIs⟩ : ∃ u : State, u = (s.mark page (1 <<< (L c).pageOrder) true).count
    (1 <<< (L c).pageOrder) rest := ⟨_, rfl⟩
  rw [← uIs]
  have layout : (u.slabCache c).toCacheLayout = L c := uIs ▸ valid.layout c
  have pages : u.pages = s.pages := uIs ▸ rfl
  have used : ∀ p : Nat, u.used p = if page ≤ p ∧ p < page + 1 <<< (L c).pageOrder then true else
    s.used p := fun p => uIs ▸ rfl
  have more : Grows s u := by
    intro p inUse
    rw [used, inUse, ite_self, pages]
    exact ⟨rfl, rfl⟩
  have marked : Valid L u live := by
    apply valid.same (uIs ▸ rfl) (uIs ▸ rfl) pages
    exact fun p slab => (more p (valid.marked p slab)).1
  have reserved : Reserved u page (1 <<< (L c).pageOrder) := by
    intro i bound
    refine ⟨?_, by rw [used, if_pos ⟨Nat.le_add_right _ _, Nat.add_lt_add_left bound _⟩]⟩
    rw [pages]
    by_contra slab
    exact absurd (valid.marked _ (Bool.of_not_eq_false slab)) (by rw [available i bound]; exact Bool.false_ne_true)
  cases kind : (L c).offSlab with
  | false =>
    have onSlab := (congrArg CacheLayout.offSlab layout).trans kind
    simp only [growFrom, kmemCacheSlabmgmt, mgmtAddr, onSlab]
    refine ⟨fun _ out => (nomatch out),
      linkSlab_grows marked available more, ?_, _, _, linkSlab_front marked page⟩
    refine linkSlab_spec fits marked reserved ?_ (List.Sublist.refl _) (fun _ => ⟨rfl, rfl⟩)
      (fun out => absurd (kind.symm.trans out) Bool.false_ne_true) fun out =>
        absurd (kind.symm.trans out) Bool.false_ne_true
    intro d on
    have slab := marked.descriptor_page fits on
    have plain := (reserved 0 (shiftLeft_pos _)).1
    rw [Nat.add_zero] at plain
    rw [kva2page_page2kva, plain] at slab
    cases slab
  | true =>
    obtain ⟨d, cachep, _⟩ := fits.off_slab c kind
    have offSlab := (congrArg CacheLayout.offSlab layout).trans kind
    have descriptors := (congrArg CacheLayout.slabCachep layout).trans cachep
    have mgmt : mgmtAddr allocate u c page = allocate u d := by simp only [mgmtAddr, offSlab, descriptors, if_true]
    have started : Ends (fun _ => False) (kmemCacheSlabmgmt allocate u c page) fun result =>
        (¬ supplied u d ∧ ∃ order < 64, ∃ later, result = (u.count (1 <<< order) later, none)) ∨
          ∃ w q, result = (startSlab w c page q, some q) ∧ supplied u d ∧ Obtains L u live d w q := by
      rw [kmemCacheSlabmgmt, mgmt]
      apply (serves kind d cachep u live marked).bind
      rintro ⟨w, slabp⟩ served
      cases slabp with
      | none =>
        obtain ⟨short, order, bound, later, rfl⟩ := served
        exact .inl ⟨short, order, bound, later, rfl⟩
      | some q => exact .inr ⟨w, q, rfl, served⟩
    apply started.bind
    rintro result (⟨short, size, bound, later, rfl⟩ | ⟨w, q, rfl, enough, grows, ⟨r, j, located⟩, valid⟩)
    · have order := congrArg CacheLayout.pageOrder layout
      refine ⟨fun supply => short (supply d rfl cachep), size, bound, later, ?_⟩
      show freePages (u.count _ later) page (1 <<< (u.slabCache c).pageOrder) = _
      rw [order, uIs]
      exact freePages_count available rest later _
    · have linked := valid 0 (Nat.zero_le _)
      refine ⟨fun e _ same => Option.some.inj (cachep.symm.trans same) ▸ enough,
        linkSlab_grows linked available (more.trans grows), ?_, _, _, linkSlab_front linked page⟩
      exact linkSlab_spec fits linked (reserved.grows grows) (linked.held_not_on fits (mem_cons_self ..))
        (sublist_cons_self _ _) (fun out => absurd (out.symm.trans kind) Bool.false_ne_true) (fun _ => ⟨0, rfl⟩)
        fun _ => ⟨d, r, j, cachep, located⟩

theorem kmemCacheGrow_ends (empty : (s.slabCache c).slabsNotfull = [])
    (serves : (L c).offSlab = true → ∀ d, (L c).slabCachep = some d → Serves L supplied allocate d) :
    Ends (fun _ => False) (kmemCacheGrow allocate s c) (Grown L (Supplied supplied s c) s live c) := by
  have layout := valid.layout c
  have order := congrArg CacheLayout.pageOrder layout
  have bound := fits.order_lt c
  rw [kmemCacheGrow, order, allocPages]
  split
  next page rest offered =>
    split
    next available =>
      apply (growFrom_ends fits valid available serves).mono
      rintro ⟨t, grown⟩ outcome
      have same : Supplied supplied s c ↔ ∀ d, (L c).offSlab = true → (L c).slabCachep = some d →
          supplied ((s.mark page (1 <<< (L c).pageOrder) true).count (1 <<< (L c).pageOrder) rest) d := by
        have kind := congrArg CacheLayout.offSlab layout
        have cachep := congrArg CacheLayout.slabCachep layout
        simp [Supplied, empty, offered, order, kind, cachep, available]
      cases grown with
      | false => exact ⟨mt same.mp outcome.1, outcome.2⟩
      | true => exact ⟨same.mpr outcome.1, outcome.2⟩
    next short => exact ⟨by simp [Supplied, empty, offered, order, short], _, bound, rest, rfl⟩
  next rest offered => exact ⟨by simp [Supplied, empty, offered], _, bound, rest, rfl⟩
  next offered => exact ⟨by simp [Supplied, empty, offered], _, bound, [], rfl⟩

theorem kmemCacheAlloc_cons {rest : List Addr} (fuel : Nat)
    (front : (s.slabCache c).slabsNotfull = q :: rest) : ∃ t addr, kmemCacheAlloc (fuel + 1) s c =
    .ok (t, some addr) ∧ Obtains L s live c t addr := by
  refine ⟨_, _, ?_, allocOne_spec fits valid (front ▸ mem_cons_self ..)⟩
  rw [kmemCacheAlloc, front]
  rfl

end

theorem kmemCacheAlloc_serves (fits : Fits L) (fuel : Nat)
    (serves : (L c).offSlab = true → ∀ d, (L c).slabCachep = some d → Serves L supplied (kmemCacheAlloc (fuel + 1)) d) :
    Serves L (Supplied supplied) (kmemCacheAlloc (fuel + 2)) c := by
  intro s live valid
  cases front : (s.slabCache c).slabsNotfull with
  | cons =>
    obtain ⟨t, addr, ran, obtains⟩ := kmemCacheAlloc_cons fits valid (fuel + 1) front
    exact .of_ok ran ⟨.inl (front ▸ List.cons_ne_nil _ _), obtains⟩
  | nil =>
    rw [kmemCacheAlloc, front]
    apply (kmemCacheGrow_ends fits valid front serves).bind
    rintro ⟨t, grown⟩ outcome
    cases grown with
    | false => exact outcome
    | true =>
      obtain ⟨enough, grows, valid, q, rest, front⟩ := outcome
      obtain ⟨u, addr, ran, more, obtained⟩ := kmemCacheAlloc_cons fits valid fuel front
      exact .of_ok ran ⟨enough, grows.trans more, obtained⟩

theorem kmemCacheAlloc_four (fits : Fits L) (c : CacheId) : Serves L Ready (kmemCacheAlloc 4) c := by
  apply kmemCacheAlloc_serves fits 2
  intro out d cachep
  apply kmemCacheAlloc_serves fits 1
  intro again
  obtain ⟨e, same, inside, _⟩ := fits.off_slab c out
  obtain rfl := Option.some.inj (cachep.symm.trans same)
  exact absurd (inside.symm.trans again) Bool.false_ne_true

theorem clearSlabPages_eq (n page : Nat) (s : State) (slab : ∀ i < n, (s.pages (page + i)).slab = true) :
    clearSlabPages n page s = .ok { s with pages := fun p : Nat =>
      if page ≤ p ∧ p < page + n then { s.pages p with slab := false } else s.pages p } := by
  induction n generalizing page s with
  | zero =>
    have none : ∀ p : Nat, ¬ (page ≤ p ∧ p < page + 0) := by omega
    simp only [clearSlabPages, none, if_false]
    rfl
  | succ n ih =>
    have first : (s.pages page).slab = true := slab 0 (Nat.succ_pos n)
    rw [clearSlabPages, ensure_bind, if_pos first, ih]
    · simp only [State.setPage, Except.ok.injEq, State.mk.injEq, true_and, and_true]
      funext p
      obtain rfl | here := eq_or_ne p page
      · rw [update_self, if_neg (fun range => Nat.lt_irrefl _ range.1),
          if_pos ⟨le_rfl, Nat.lt_add_of_pos_right (Nat.succ_pos n)⟩]
      have range : (page + 1 ≤ p ∧ p < page + 1 + n) ↔ (page ≤ p ∧ p < page + (n + 1)) := by
        omega
      rw [update_of_ne here]
      simp only [range]
    · intro i bound
      have other : page + 1 + i ≠ page := by omega
      have kept : (s.setPage page { s.pages page with slab := false }).pages (page + 1 + i) =
        s.pages (page + 1 + i) := update_of_ne other ..
      rw [kept, Nat.add_assoc]
      exact slab (1 + i) (by omega)

/-- An object of this cache is returned, whoever holds it. -/
def Releases (L : CacheId → CacheLayout) (release : State → CacheId → Addr → Kernel State) (c : CacheId) : Prop :=
  ∀ s b live q i, Valid L s (b :: live) → At L s c q i b.addr → ∃ t, release s c b.addr = .ok t ∧ Valid L t live

section
variable (fits : Fits L)
include fits

theorem Valid.descriptor_elsewhere (valid : Valid L s live) (header : Header L s c q) : ∃ d r j,
    (L c).slabCachep = some d ∧ At L s d r j q ∧ r ≠ q := by
  obtain ⟨d, r, j, cachep, located⟩ := valid.header c q header
  refine ⟨d, r, j, cachep, located, ?_⟩
  rintro rfl
  obtain ⟨e, same, inside, _⟩ := fits.off_slab c header.2
  obtain rfl := Option.some.inj (cachep.symm.trans same)
  obtain rfl := valid.one_cache located.on header.1
  exact absurd (inside.symm.trans header.2) Bool.false_ne_true

theorem kmemSlabDestroy_spec {slab : SlabT} (valid : Valid L s (b :: live))
    (located : At L s c q i b.addr) (single : (s.slabs q).inuse = 1)
    (mem : slab.sMem = (s.slabs q).sMem) (offset : slab.offset = (s.slabs q).offset)
      (releases : (L c).offSlab = true → ∀ d, (L c).slabCachep = some d → Releases L release d) :
    ∃ t, kmemSlabDestroy release ((s.setSlab q slab).unlink q) c q = .ok t ∧ Valid L t live := by
  obtain ⟨page, free, ok⟩ := valid.slab c q located.on
  generalize uIs : (s.setSlab q slab).unlink q = u
  have layout : (u.slabCache c).toCacheLayout = L c := uIs ▸ valid.layout c
  have order := congrArg CacheLayout.pageOrder layout
  have pages : u.pages = s.pages := uIs ▸ rfl
  have used : u.used = s.used := uIs ▸ rfl
  have start : kva2page ((u.slabs q).sMem - (u.slabs q).offset) = page := by
    have self : u.slabs q = slab := uIs ▸ update_self ..
    rw [self, mem, offset, ok.mem, ok.offset, Nat.add_sub_cancel]
    exact kva2page_page2kva page
  -- The pages lose their mark and are given back.
  obtain ⟨w, wIs⟩ : ∃ w : State, w = freePages { u with pages := fun p : Nat =>
      if page ≤ p ∧ p < page + 1 <<< (L c).pageOrder then { u.pages p with slab := false } else u.pages p }
      page (1 <<< (L c).pageOrder) := ⟨_, rfl⟩
  have cleared : kmemSlabDestroy release u c q = releaseMgmt release w c q := by
    rw [kmemSlabDestroy, start, order, clearSlabPages_eq, wIs]
    · rfl
    · intro j bound
      rw [pages, (ok.pages j bound).1]
  have inside : ∀ p : Nat, page ≤ p ∧ p < page + 1 <<< (L c).pageOrder → s.pages p = ⟨true, c, q⟩ := by
    intro p range
    obtain ⟨j, rfl⟩ := Nat.exists_eq_add_of_le range.1
    exact (ok.pages j (Nat.add_lt_add_iff_left.mp range.2)).1
  have outside : ∀ p : Nat, ¬ (page ≤ p ∧ p < page + 1 <<< (L c).pageOrder) →
    w.pages p = s.pages p ∧ w.used p = s.used p := by
    intro p away
    rw [wIs, ← pages, ← used]
    exact ⟨if_neg away, if_neg away⟩
  have listed := uIs ▸ (valid.besides_setSlab located.on slab).unlink
  have caches : w.slabCache = u.slabCache := wIs ▸ rfl
  have off : ∀ d, ¬ OnList w d q := by
    intro d
    rw [OnList, caches, ← uIs]
    exact (valid.besides_setSlab located.on slab).not_on_unlink d
  have besides : Besides s w c q := by
    constructor
    case layout => exact caches ▸ listed.layout
    case full => exact caches ▸ listed.full
    case notfull => exact caches ▸ listed.notfull
    case once => exact caches ▸ listed.once
    case only => exact fun d on => absurd on (off d)
    case slabs => exact wIs ▸ listed.slabs
    case pages =>
      intro p d r other info inUse
      have away : ¬ (page ≤ p ∧ p < page + 1 <<< (L c).pageOrder) := by
        intro range
        have clash := info.symm.trans (inside p range)
        exact other (PageInfo.mk.inj clash).2.2
      obtain ⟨same, still⟩ := outside p away
      exact ⟨same, still.trans inUse⟩
  have removed : Valid L w (if (L c).offSlab then ⟨q, 0⟩ :: live else live) := by
    apply valid.remove fits located ok single besides off
    intro p marked
    by_cases range : page ≤ p ∧ p < page + 1 <<< (L c).pageOrder
    · have plain : (w.pages p).slab = false := by
        rw [wIs]
        exact congrArg PageInfo.slab (if_pos range)
      cases plain.symm.trans marked
    · obtain ⟨same, still⟩ := outside p range
      rw [still]
      exact valid.marked p (same ▸ marked)
  have sameLayout := caches ▸ layout
  rw [cleared, releaseMgmt]
  cases kind : (L c).offSlab with
  | false =>
    rw [if_neg (by rw [congrArg CacheLayout.offSlab sameLayout, kind]; exact Bool.false_ne_true)]
    rw [kind] at removed
    exact ⟨w, rfl, removed⟩
  | true =>
    rw [kind] at removed
    obtain ⟨d, r, j, cachep, at_, different⟩ := valid.descriptor_elsewhere fits ⟨located.on, kind⟩
    have descriptors := (congrArg CacheLayout.slabCachep sameLayout).trans cachep
    rw [if_pos ((congrArg CacheLayout.offSlab sameLayout).trans kind), descriptors]
    exact releases kind d cachep w ⟨q, 0⟩ live r j removed (besides.located different at_)

theorem kmemCacheFreeOne_spec (valid : Valid L s (b :: live)) (located : At L s c q i b.addr)
    (releases : (L c).offSlab = true → ∀ d, (L c).slabCachep = some d → Releases L release d) :
      ∃ t, kmemCacheFreeOne release s c q b.addr = .ok t ∧ Valid L t live := by
  obtain ⟨page, free, ok⟩ := valid.slab c q located.on
  have layout := valid.layout c
  have size := congrArg CacheLayout.objsize layout
  have num := congrArg CacheLayout.num layout
  have index : (b.addr - (s.slabs q).sMem) / (s.slabCache c).objsize = i := by
    rw [located.here, objAddr, Nat.add_sub_cancel_left, size]
    exact Nat.mul_div_cancel i (fits.objsize_pos c)
  have busy := (ok.taken i located.bound).mpr (.inl ⟨b, mem_cons_self .., located.here⟩)
  have room := ok.room located.bound busy
  have count := ok.count
  have besides := valid.besides_setSlab located.on ((s.slabs q).returned i)
  have self : (s.setSlab q ((s.slabs q).returned i)).slabs q = (s.slabs q).returned i := update_self ..
  have fewer : ((s.slabs q).returned i).inuse = (s.slabs q).inuse - 1 := rfl
  rw [kmemCacheFreeOne, index]
  split
  next last =>
    exact kmemSlabDestroy_spec fits valid located (by omega) rfl rfl releases
  next more =>
    split
    next wasFull =>
      have off := besides.not_on_unlink c
      refine ⟨_, rfl, ?_⟩
      have front := slabCache_addNotfull ((s.setSlab q ((s.slabs q).returned i)).unlink q) c q
      apply valid.give fits located ok (besides.unlink.addNotfull off) self
      · exact front ▸ mem_cons_self ..
      · rw [front]
        exact fun member => off (.inl member)
      all_goals rfl
    next wasOpen =>
      have num' : ((s.setSlab q ((s.slabs q).returned i)).slabCache c).num = (L c).num := num
      have closed : q ∉ (s.slabCache c).slabsFull := by
        intro full
        have all := valid.full c q full
        omega
      exact ⟨_, rfl, valid.give fits located ok besides self (located.on.resolve_left closed) closed rfl rfl⟩

theorem kmemCacheFree_releases (fuel : Nat) (releases : (L c).offSlab = true → ∀ d,
    (L c).slabCachep = some d → Releases L (kmemCacheFree fuel) d) :
    Releases L (kmemCacheFree (fuel + 1)) c := by
  intro s b live q i valid located
  have info := valid.page_of fits located (fits.objsize_pos c)
  rw [add_zero] at info
  rw [kmemCacheFree, info]
  exact kmemCacheFreeOne_spec fits valid located releases

theorem kmemCacheFree_two (c : CacheId) : Releases L (kmemCacheFree 2) c := by
  apply kmemCacheFree_releases fits 1
  intro out d cachep
  apply kmemCacheFree_releases fits 0
  intro again
  obtain ⟨e, same, inside, _⟩ := fits.off_slab c out
  obtain rfl := Option.some.inj (cachep.symm.trans same)
  exact absurd (inside.symm.trans again) Bool.false_ne_true

end

end Ucore.Slab
