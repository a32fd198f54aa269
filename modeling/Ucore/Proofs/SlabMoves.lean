import Ucore.Proofs.SlabHeap

/-! The four things that happen to a slab: an object is taken from it or returned to
it, it is linked with all objects free, and it is removed when its last object is
returned. Each is proved once, for clients' objects and descriptors alike. -/

namespace Ucore.Slab
open Lib List

variable {L : CacheId → CacheLayout} {s t : State} {live : List Block} {c : CacheId} {q : Addr} {free : List Nat} {i : Nat}
  {addr : Addr} {b : Block}
  {page : PageId}

theorem taken_cons (same : ∀ d r, OnList t d r ↔ OnList s d r) (b : Block) (addr : Addr) :
    Taken L t (b :: live) addr ↔ b.addr = addr ∨ Taken L s live addr := by
  simp only [Taken, Header, same, mem_cons, exists_eq_or_imp, or_assoc]

section
variable (ok : SlabOk L s live c q page free)
include ok

theorem SlabOk.not_taken (unused : i ∈ free) : ¬ Taken L s live (objAddr L s c q i) :=
  fun taken => (ok.taken i (ok.bound i unused)).mpr taken unused

theorem SlabOk.length_le {others : List Nat} (once : (others ++ free).Nodup) (bound : ∀ i ∈ others,
    i < (L c).num) : others.length + free.length ≤ (L c).num := by
  have sub : (others ++ free).length ≤ (range (L c).num).length := by
    apply (subperm_of_subset once _).length_le
    intro i member
    obtain member | member := mem_append.mp member
    · exact mem_range.mpr (bound i member)
    · exact mem_range.mpr (ok.bound i member)
  rwa [length_append, length_range] at sub

theorem SlabOk.room (bound : i < (L c).num) (busy : i ∉ free) : free.length < (L c).num := by
  have one : [i].length + free.length ≤ (L c).num := ok.length_le (by simp [busy, ok.once]) (by simp [bound])
  rw [length_singleton] at one
  omega

theorem SlabOk.last (single : (s.slabs q).inuse = 1) {j : Nat} (bound : i < (L c).num)
    (small : j < (L c).num) (busy : i ∉ free) (also : j ∉ free) : j = i := by
  by_contra different
  have two : [i, j].length + free.length ≤ (L c).num := by
    apply ok.length_le
    · simp [busy, also, ok.once, Ne.symm different]
    · simp [bound, small]
  have count := ok.count
  simp at two
  omega

end

theorem Valid.same_lists (valid : Valid L s live) (besides : Besides s t c q) (on : OnList s c q)
    (stays : OnList t c q) (d : CacheId) (r : Addr) : OnList t d r ↔ OnList s d r := by
  obtain rfl | here := eq_or_ne r q
  · constructor
    · exact fun listed => besides.only d listed ▸ on
    · exact fun listed => valid.one_cache listed on ▸ stays
  · exact besides.on here

/-- Objects stay where they are when the slab stays on a list and its objects do not move. -/
theorem At.keep {d : CacheId} {r : Addr} (located : At L s d r i addr) (same : ∀ d r, OnList t d r ↔
    OnList s d r) (besides : Besides s t c q) (mem : (t.slabs q).sMem = (s.slabs q).sMem) :
    At L t d r i addr := by
  obtain rfl | here := eq_or_ne r q
  · refine ⟨(same d r).mpr located.on, located.bound, ?_⟩
    rw [objAddr, mem]
    exact located.here
  · exact besides.located here located

theorem Valid.take (fits : Fits L) (valid : Valid L s live) {rest : List Nat} {size : Nat}
    (on : OnList s c q) (ok : SlabOk L s live c q page (i :: rest)) (besides : Besides s t c q)
    (slab : t.slabs q = { s.slabs q with inuse := (s.slabs q).inuse + 1, free := (s.slabs q).bufctl i })
    (lists : if rest = [] then q ∈ (t.slabCache c).slabsFull ∧
      q ∉ (t.slabCache c).slabsNotfull else q ∈ (t.slabCache c).slabsNotfull ∧
      q ∉ (t.slabCache c).slabsFull)
    (pages : t.pages = s.pages) (used : t.used = s.used) (enough : size ≤ (L c).objsize) :
      Valid L t (⟨objAddr L s c q i, size⟩ :: live) := by
  have stays : OnList t c q := by
    split at lists
    · exact .inl lists.1
    · exact .inr lists.1
  have same := valid.same_lists besides on stays
  have mem : (t.slabs q).sMem = (s.slabs q).sMem := by rw [slab]
  have inuse : (t.slabs q).inuse = (s.slabs q).inuse + 1 := by rw [slab]
  have bound := ok.bound i (mem_cons_self ..)
  have fresh := ok.not_taken (mem_cons_self ..)
  have count := ok.count
  rw [length_cons] at count
  obtain ⟨notRest, onceRest⟩ := nodup_cons.mp ok.once
  refine valid.change besides ?_ (fun _ => ⟨page, rest, ?_⟩) ?_ ?_ ?_ ?_ ?_ ?_ ?_
  · intro d r j other located
    rw [taken_cons same]
    refine ⟨fun taken => taken.resolve_left fun clash => ?_, .inr⟩
    exact other (valid.unique fits located ⟨on, bound, clash.symm⟩).2.1
  · constructor
    case mem => exact mem.trans ok.mem
    case offset => exact slab ▸ ok.offset
    case pages => exact pages ▸ used ▸ ok.pages
    case place => exact ok.place
    case chain =>
      rw [slab]
      exact ok.chain.2
    case once => exact onceRest
    case bound => exact fun j member => ok.bound j (mem_cons_of_mem _ member)
    case count => omega
    case taken =>
      intro j small
      have address : objAddr L t c q j = objAddr L s c q j := by rw [objAddr, objAddr, mem]
      have clash : objAddr L s c q i = objAddr L s c q j ↔ j = i := by
        constructor
        · exact fun equal => (valid.unique fits ⟨on, small, rfl⟩ ⟨on, bound, equal.symm⟩).2.2
        · exact fun equal => equal ▸ rfl
      rw [address, taken_cons same, ← ok.taken j small, clash]
      by_cases first : j = i
      · simp [first, notRest]
      · simp [first]
  · intro member
    split at lists
    next none =>
      rw [none, length_nil] at count
      omega
    next => exact absurd member lists.2
  · intro member
    split at lists
    next => exact absurd member lists.2
    next some =>
      have positive := length_pos_iff.mpr some
      omega
  · intro b member
    obtain rfl | member := mem_cons.mp member
    · exact ⟨c, q, i, At.keep ⟨on, bound, rfl⟩ same besides mem, enough⟩
    · obtain ⟨d, r, j, located, fit⟩ := valid.object b member
      exact ⟨d, r, j, located.keep same besides mem, fit⟩
  · refine nodup_cons.mpr ⟨?_, valid.distinct⟩
    intro member
    obtain ⟨b, held, clash⟩ := mem_map.mp member
    exact fresh (.inl ⟨b, held, clash⟩)
  · intro d r header
    obtain ⟨e, p, j, cachep, located⟩ := valid.header d r ⟨(same d r).mp header.1, header.2⟩
    exact ⟨e, p, j, cachep, located.keep same besides mem⟩
  · intro d r header b member
    have before : Header L s d r := ⟨(same d r).mp header.1, header.2⟩
    obtain rfl | member := mem_cons.mp member
    · rintro rfl
      exact fresh (.inr ⟨d, before⟩)
    · exact valid.internal d r before b member
  · exact pages ▸ used ▸ valid.marked

theorem Valid.give (fits : Fits L) (valid : Valid L s (b :: live)) (located : At L s c q i b.addr)
    (ok : SlabOk L s (b :: live) c q page free) (besides : Besides s t c q)
    (slab : t.slabs q = (s.slabs q).returned i) (here : q ∈ (t.slabCache c).slabsNotfull)
      (gone : q ∉ (t.slabCache c).slabsFull) (pages : t.pages = s.pages) (used : t.used = s.used) :
      Valid L t live := by
  have on := located.on
  have bound := located.bound
  have same := valid.same_lists besides on (.inr here)
  have mem : (t.slabs q).sMem = (s.slabs q).sMem := by rw [slab, SlabT.returned]
  have inuse : (t.slabs q).inuse = (s.slabs q).inuse - 1 := by rw [slab, SlabT.returned]
  have busy := (ok.taken i bound).mpr (.inl ⟨b, mem_cons_self .., located.here⟩)
  have split : ∀ addr, Taken L s (b :: live) addr ↔ b.addr = addr ∨ Taken L t live addr :=
    taken_cons (fun d r => (same d r).symm) b
  obtain ⟨single, distinct⟩ := nodup_cons.mp valid.distinct
  have freed : ¬ Taken L t live b.addr := by
    rintro (⟨other, held, clash⟩ | ⟨d, header⟩)
    · exact single (mem_map.mpr ⟨other, held, clash⟩)
    · exact valid.internal d b.addr ⟨(same d _).mp header.1, header.2⟩ b (mem_cons_self ..) rfl
  have room := ok.room bound busy
  have count := ok.count
  refine valid.change besides ?_ (fun _ => ⟨page, i :: free, ?_⟩) ?_ ?_ ?_ distinct ?_ ?_ ?_
  · intro d r j other at_
    rw [split]
    refine ⟨.inr, fun taken => taken.resolve_left fun clash => ?_⟩
    exact other (valid.unique fits at_ (clash ▸ located)).2.1
  · constructor
    case mem => exact mem.trans ok.mem
    case offset =>
      rw [slab]
      exact ok.offset
    case pages => exact pages ▸ used ▸ ok.pages
    case place => exact ok.place
    case chain =>
      rw [slab]
      exact ok.chain.push busy
    case once => exact nodup_cons.mpr ⟨busy, ok.once⟩
    case bound =>
      intro j member
      obtain rfl | member := mem_cons.mp member
      · exact bound
      · exact ok.bound j member
    case count =>
      rw [length_cons]
      omega
    case taken =>
      intro j small
      have address : objAddr L t c q j = objAddr L s c q j := by rw [objAddr, objAddr, mem]
      have before := ok.taken j small
      rw [split] at before
      rw [address, mem_cons, not_or, before]
      obtain rfl | first := eq_or_ne j i
      · rw [← located.here]
        simp [freed]
      · have different : b.addr ≠ objAddr L s c q j :=
          fun clash => first (valid.unique fits ⟨on, small, rfl⟩ (clash ▸ located)).2.2
        simp [first, different]
  · exact gone.elim
  · intro _
    omega
  · intro other member
    obtain ⟨d, r, j, at_, fit⟩ := valid.object other (mem_cons_of_mem _ member)
    exact ⟨d, r, j, at_.keep same besides mem, fit⟩
  · intro d r header
    obtain ⟨e, p, j, cachep, at_⟩ := valid.header d r ⟨(same d r).mp header.1, header.2⟩
    exact ⟨e, p, j, cachep, at_.keep same besides mem⟩
  · intro d r header other member
    exact valid.internal d r ⟨(same d r).mp header.1, header.2⟩ other (mem_cons_of_mem _ member)
  · exact pages ▸ used ▸ valid.marked

theorem Valid.taken_object (valid : Valid L s live) (taken : Taken L s live addr) : ∃ d r j, At L s d r j addr := by
  obtain ⟨b, held, rfl⟩ | ⟨d, header⟩ := taken
  · obtain ⟨d, r, j, located, _⟩ := valid.object b held
    exact ⟨d, r, j, located⟩
  · obtain ⟨e, r, j, _, located⟩ := valid.header d addr header
    exact ⟨e, r, j, located⟩

theorem Valid.taken_page (fits : Fits L) (valid : Valid L s live) (taken : Taken L s live addr) :
    (s.pages (kva2page addr)).slab = true := by
  obtain ⟨d, r, j, located⟩ := valid.taken_object taken
  have info := valid.page_of fits located (fits.objsize_pos d)
  rw [add_zero] at info
  rw [info]

theorem Valid.link (fits : Fits L) {before : List Block} (valid : Valid L s before)
    (fresh : ∀ i < 1 <<< (L c).pageOrder, (s.pages (page + i)).slab = false ∧
    s.used (page + i) = true)
    (besides : Besides s t c q) (off : ∀ d, ¬ OnList s d q)
      (here : q ∈ (t.slabCache c).slabsNotfull) (gone : q ∉ (t.slabCache c).slabsFull)
    (mem : (t.slabs q).sMem = page2kva page + (L c).offset)
      (offset : (t.slabs q).offset = (L c).offset) (inuse : (t.slabs q).inuse = 0)
      (chain : Chain (t.slabs q).bufctl bufctlEnd (t.slabs q).free (range (L c).num))
    (pages : ∀ p, t.pages p = if page ≤ p ∧ p < page + 1 <<< (L c).pageOrder then ⟨true, c, q⟩ else s.pages p)
    (used : t.used = s.used) (place : (L c).offSlab = false → q = page2kva page) (taken : ∀ addr,
      Taken L t live addr ↔ Taken L s before addr) (held : live.Sublist before)
    (header : (L c).offSlab = true → ∃ d r j, (L c).slabCachep = some d ∧ At L s d r j q)
      (internal : (L c).offSlab = true → ∀ b ∈ live, b.addr ≠ q) : Valid L t live := by
  have keep : ∀ {d r j addr}, At L s d r j addr → At L t d r j addr := by
    intro d r j addr located
    have other : r ≠ q := by
      rintro rfl
      exact off d located.on
    exact besides.located other located
  refine valid.change besides (fun _ _ _ _ _ => taken _) (fun _ => ⟨page, range (L c).num, ?_⟩) ?_ ?_ ?_ ?_ ?_ ?_ ?_
  · constructor
    case mem => exact mem
    case offset => exact offset
    case pages =>
      intro i bound
      rw [pages, used, if_pos ⟨Nat.le_add_right _ _, Nat.add_lt_add_left bound _⟩]
      exact ⟨rfl, (fresh i bound).2⟩
    case place => exact place
    case chain => exact chain
    case once => exact nodup_range
    case bound => exact fun i member => mem_range.mp member
    case count => rw [length_range, inuse, add_zero]
    case taken =>
      -- A taken object would lie on a page that is already a slab page.
      intro i bound
      refine ⟨fun absent => absurd (mem_range.mpr bound) absent, fun busy => ?_⟩
      have slab := valid.taken_page fits ((taken _).mp busy)
      have inside := object_room fits bound (fits.objsize_pos c)
      rw [objAddr, mem, add_assoc, kva2page_add] at slab
      rw [add_zero] at inside
      rw [(fresh _ (Nat.div_lt_of_lt_mul inside)).1] at slab
      cases slab
  · exact gone.elim
  · intro _
    rw [inuse]
    exact fits.num_pos c
  · intro b member
    obtain ⟨d, r, j, located, fit⟩ := valid.object b (held.subset member)
    exact ⟨d, r, j, keep located, fit⟩
  · exact valid.distinct.sublist (held.map _)
  · intro d r listed
    obtain rfl | same := eq_or_ne r q
    · obtain rfl := besides.only d listed.1
      obtain ⟨e, p, j, cachep, located⟩ := header listed.2
      exact ⟨e, p, j, cachep, keep located⟩
    · obtain ⟨e, p, j, cachep, located⟩ := valid.header d r ⟨(besides.on same).mp listed.1, listed.2⟩
      exact ⟨e, p, j, cachep, keep located⟩
  · intro d r listed b member
    obtain rfl | same := eq_or_ne r q
    · obtain rfl := besides.only d listed.1
      exact internal listed.2 b member
    · exact valid.internal d r ⟨(besides.on same).mp listed.1, listed.2⟩ b (held.subset member)
  · intro p slab
    rw [pages] at slab
    rw [used]
    split at slab
    next range =>
      obtain ⟨i, rfl⟩ := Nat.exists_eq_add_of_le range.1
      exact (fresh i (Nat.add_lt_add_iff_left.mp range.2)).2
    next => exact valid.marked p slab

theorem shiftLeft_pos (order : Nat) : 0 < 1 <<< order := by
  rw [Nat.one_shiftLeft]
  exact Nat.two_pow_pos _

theorem Valid.descriptor_page (fits : Fits L) (valid : Valid L s live) (on : OnList s c q) :
    (s.pages (kva2page q)).slab = true := by
  cases kind : (L c).offSlab with
  | true => exact valid.taken_page fits (.inr ⟨c, on, kind⟩)
  | false =>
    obtain ⟨page, free, ok⟩ := valid.slab c q on
    have info := (ok.page_of (k := 0) (Nat.mul_pos (by decide) (shiftLeft_pos _))).1
    rw [add_zero, ← ok.place kind] at info
    rw [info]

theorem Valid.held_not_on (fits : Fits L) (valid : Valid L s live) (held : b ∈ live) (d : CacheId) : ¬ OnList s d b.addr := by
  intro on
  cases kind : (L d).offSlab with
  | true => exact valid.internal d b.addr ⟨on, kind⟩ b held rfl
  | false =>
    -- The object would start where its slab starts, but the descriptor is there.
    obtain ⟨e, r, j, located, _⟩ := valid.object b held
    obtain ⟨page, free, ok⟩ := valid.slab d b.addr on
    have start := ok.place kind
    have info := (ok.page_of (k := 0) (Nat.mul_pos (by decide) (shiftLeft_pos _))).1
    have other := valid.page_of fits located (fits.objsize_pos e)
    rw [start, info] at other
    obtain ⟨rfl, rfl⟩ : d = e ∧ b.addr = r := by simpa using other
    have behind := located.here
    rw [objAddr, ok.mem, ← start, add_assoc] at behind
    have nothing := (Nat.add_eq_zero_iff.mp (Nat.left_eq_add.mp behind)).1
    have room := fits.on_slab d kind
    have size : sizeofSlab = 48 := rfl
    omega

/-- Removing a slab with its last object. A descriptor kept elsewhere becomes an ordinary
object that is still to be returned. -/
theorem Valid.remove (fits : Fits L) (valid : Valid L s (b :: live)) (located : At L s c q i b.addr)
    (ok : SlabOk L s (b :: live) c q page free) (single : (s.slabs q).inuse = 1)
    (besides : Besides s t c q) (off : ∀ d, ¬ OnList t d q) (marked : ∀ p, (t.pages p).slab = true →
      t.used p = true) : Valid L t (if (L c).offSlab then ⟨q, 0⟩ :: live else live) := by
  have on := located.on
  have busy := (ok.taken i located.bound).mpr (.inl ⟨b, mem_cons_self .., located.here⟩)
  obtain ⟨first, distinct⟩ := nodup_cons.mp valid.distinct
  -- Every other taken object lies in another slab.
  have elsewhere : ∀ {d r j addr}, At L s d r j addr → Taken L s (b :: live) addr → addr ≠ b.addr → r ≠ q := by
    rintro d r j addr at_ taken different rfl
    obtain rfl := valid.one_cache at_.on on
    have also := (ok.taken j at_.bound).mpr (at_.here ▸ taken)
    obtain rfl := ok.last single located.bound at_.bound busy also
    exact different (at_.here.trans located.here.symm)
  have headers : ∀ {d r}, Header L t d r → r ≠ q ∧ Header L s d r := by
    intro d r header
    have other : r ≠ q := fun same => off d (same ▸ header.1)
    exact ⟨other, (besides.on other).mp header.1, header.2⟩
  have held : ∀ other ∈ live, other.addr ≠ b.addr := fun other member clash => first (mem_map.mpr ⟨other, member, clash⟩)
  have object : ∀ other ∈ live, ∃ d r j, At L t d r j other.addr ∧ other.size ≤ (L d).objsize := by
    intro other member
    obtain ⟨d, r, j, at_, fit⟩ := valid.object other (mem_cons_of_mem _ member)
    have away := elsewhere at_ (.inl ⟨other, mem_cons_of_mem _ member, rfl⟩) (held other member)
    exact ⟨d, r, j, besides.located away at_, fit⟩
  have header : ∀ d r, Header L t d r → ∃ e p j, (L d).slabCachep = some e ∧ At L t e p j r := by
    intro d r listed
    obtain ⟨_, listed⟩ := headers listed
    obtain ⟨e, p, j, cachep, at_⟩ := valid.header d r listed
    have away := elsewhere at_ (.inr ⟨d, listed⟩) (valid.internal d r listed b (mem_cons_self ..)).symm
    exact ⟨e, p, j, cachep, besides.located away at_⟩
  have internal : ∀ d r, Header L t d r → ∀ other ∈ live, other.addr ≠ r :=
    fun d r listed other member => valid.internal d r (headers listed).2 other
    (mem_cons_of_mem _ member)
  have split : ∀ addr, addr ≠ b.addr → (Taken L s (b :: live) addr ↔ Header L s c addr ∧ addr = q ∨
    Taken L t live addr) := by
    intro addr different
    constructor
    · rintro (⟨other, member, rfl⟩ | ⟨d, listed⟩)
      · obtain rfl | member := mem_cons.mp member
        · exact absurd rfl different
        · exact .inr (.inl ⟨other, member, rfl⟩)
      · obtain rfl | same := eq_or_ne addr q
        · obtain rfl := valid.one_cache listed.1 on
          exact .inl ⟨listed, rfl⟩
        · exact .inr (.inr ⟨d, (besides.on same).mpr listed.1, listed.2⟩)
    · rintro (⟨listed, _⟩ | ⟨other, member, rfl⟩ | ⟨d, listed⟩)
      · exact .inr ⟨c, listed⟩
      · exact .inl ⟨other, mem_cons_of_mem _ member, rfl⟩
      · exact .inr ⟨d, (headers listed).2⟩
  have apart : ∀ d r j, r ≠ q → At L s d r j (objAddr L s d r j) → objAddr L s d r j ≠ b.addr :=
    fun d r j other at_ clash => other (valid.unique fits at_ (clash ▸ located)).2.1
  have unlisted : OnList t c q → ∃ page free,
    SlabOk L t (if (L c).offSlab then ⟨q, 0⟩ :: live else live) c q page free :=
    fun listed => absurd listed (off c)
  cases kind : (L c).offSlab with
  | false =>
    rw [kind] at unlisted
    refine valid.change besides ?_ unlisted (fun member => absurd (.inl member) (off c))
      (fun member => absurd (.inr member) (off c)) object distinct header internal marked
    intro d r j other at_
    rw [split _ (apart d r j other at_)]
    simp [Header, kind]
  | true =>
    rw [if_pos rfl]
    have self : Header L s c q := ⟨on, kind⟩
    have notB := (valid.internal c q self b (mem_cons_self ..)).symm
    rw [kind] at unlisted
    refine valid.change besides ?_ unlisted (fun member => absurd (.inl member) (off c))
      (fun member => absurd (.inr member) (off c)) ?_ ?_ header ?_ marked
    · intro d r j other at_
      rw [split _ (apart d r j other at_), taken_cons (fun _ _ => Iff.rfl)]
      constructor
      · rintro (rfl | taken)
        · exact .inl ⟨self, rfl⟩
        · exact .inr taken
      · rintro (⟨_, equal⟩ | taken)
        · exact .inl equal.symm
        · exact .inr taken
    · intro other member
      obtain rfl | member := mem_cons.mp member
      · obtain ⟨e, r, j, _, at_⟩ := valid.header c q self
        have away := elsewhere at_ (.inr ⟨c, self⟩) notB
        exact ⟨e, r, j, besides.located away at_, Nat.zero_le _⟩
      · exact object other member
    · refine nodup_cons.mpr ⟨?_, distinct⟩
      intro member
      obtain ⟨other, member, clash⟩ := mem_map.mp member
      exact valid.internal c q self other (mem_cons_of_mem _ member) clash
    · intro d r listed other member
      obtain rfl | member := mem_cons.mp member
      · exact (headers listed).1.symm
      · exact internal d r listed other member

end Ucore.Slab
