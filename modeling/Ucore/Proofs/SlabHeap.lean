import Ucore.Lib.IndexChain
import Ucore.Proofs.SlabLayout

/-! What the slabs hold. Every object of a slab is in the free chain or taken, and it is
taken by a client or by the descriptor of another slab. The page of an address leads
back to its slab, which keeps objects of different slabs apart. -/

namespace Ucore.Slab
open Lib List

variable {L : CacheId → CacheLayout} {s t : State} {live : List Block} {q : Addr} {c : CacheId}
    {more : List Block} {page : PageId} {free : List Nat} {addr : Addr} {d : CacheId} {r : Addr}
  {i k : Nat}

def OnList (s : State) (c : CacheId) (q : Addr) : Prop := q ∈ (s.slabCache c).slabsFull ∨ q ∈ (s.slabCache c).slabsNotfull

def objAddr (L : CacheId → CacheLayout) (s : State) (c : CacheId) (q : Addr) (i : Nat) : Addr :=
  (s.slabs q).sMem + i * (L c).objsize

structure At (L : CacheId → CacheLayout) (s : State) (c : CacheId) (q : Addr) (i : Nat) (addr : Addr) : Prop where
  on : OnList s c q
  bound : i < (L c).num
  here : addr = objAddr L s c q i

def Header (L : CacheId → CacheLayout) (s : State) (c : CacheId) (q : Addr) : Prop := OnList s c q ∧ (L c).offSlab = true

def Taken (L : CacheId → CacheLayout) (s : State) (live : List Block) (addr : Addr) : Prop :=
  (∃ b ∈ live, b.addr = addr) ∨ ∃ c, Header L s c addr

/-- Slab `q` lies on the pages from `page` on, and these of its objects are free. -/
structure SlabOk (L : CacheId → CacheLayout) (s : State) (live : List Block) (c : CacheId) (q : Addr) (page : PageId)
    (free : List Nat) : Prop where
  mem : (s.slabs q).sMem = page2kva page + (L c).offset
  offset : (s.slabs q).offset = (L c).offset
  pages : ∀ i < 1 <<< (L c).pageOrder, s.pages (page + i) = ⟨true, c, q⟩ ∧ s.used (page + i) = true
  place : (L c).offSlab = false → q = page2kva page
  chain : Chain (s.slabs q).bufctl bufctlEnd (s.slabs q).free free
  once : free.Nodup
  bound : ∀ i ∈ free, i < (L c).num
  count : free.length + (s.slabs q).inuse = (L c).num
  taken : ∀ i < (L c).num, i ∉ free ↔ Taken L s live (objAddr L s c q i)

structure Valid (L : CacheId → CacheLayout) (s : State) (live : List Block) : Prop where
  layout : ∀ c, (s.slabCache c).toCacheLayout = L c
  slab : ∀ c q, OnList s c q → ∃ page free, SlabOk L s live c q page free
  full : ∀ c, ∀ q ∈ (s.slabCache c).slabsFull, (s.slabs q).inuse = (L c).num
  notfull : ∀ c, ∀ q ∈ (s.slabCache c).slabsNotfull, (s.slabs q).inuse < (L c).num
  once : ∀ c, (s.slabCache c).slabsFull.Nodup ∧ (s.slabCache c).slabsNotfull.Nodup
  object : ∀ b ∈ live, ∃ c q i, At L s c q i b.addr ∧ b.size ≤ (L c).objsize
  distinct : (live.map (·.addr)).Nodup
  header : ∀ c q, Header L s c q → ∃ d r j, (L c).slabCachep = some d ∧ At L s d r j q
  internal : ∀ c q, Header L s c q → ∀ b ∈ live, b.addr ≠ q
  marked : ∀ p, (s.pages p).slab = true → s.used p = true

theorem kva2page_add (page k : Nat) : kva2page (page2kva page + k) = page + k / pgSize := by
  have positive : 0 < pgSize := by decide
  rw [kva2page, page2kva, add_right_comm, Nat.add_sub_cancel, add_comm, Nat.add_mul_div_right _ _ positive, add_comm]

theorem kva2page_page2kva (page : Nat) : kva2page (page2kva page) = page := by
  have start := kva2page_add page 0
  rwa [add_zero, Nat.zero_div, add_zero] at start

theorem object_room (fits : Fits L) (bound : i < (L c).num) (inside : k < (L c).objsize) :
    (L c).offset + i * (L c).objsize + k < pgSize * 1 <<< (L c).pageOrder := by
  have room := fits.room c
  have whole : (i + 1) * (L c).objsize ≤ (L c).num * (L c).objsize := Nat.mul_le_mul_right _ bound
  rw [Nat.succ_mul] at whole
  omega

theorem SlabOk.page_of (ok : SlabOk L s live c q page free)
    (inside : k < pgSize * 1 <<< (L c).pageOrder) : s.pages (kva2page (page2kva page + k)) = ⟨true,
    c, q⟩ ∧ s.used (kva2page (page2kva page + k)) = true := by
  rw [kva2page_add]
  apply ok.pages
  exact Nat.div_lt_of_lt_mul inside

theorem Valid.page_of (fits : Fits L) (valid : Valid L s live) (located : At L s c q i addr)
    (inside : k < (L c).objsize) : s.pages (kva2page (addr + k)) = ⟨true, c, q⟩ := by
  obtain ⟨page, free, ok⟩ := valid.slab c q located.on
  have byte : addr + k = page2kva page + ((L c).offset + i * (L c).objsize + k) := by
    rw [located.here, objAddr, ok.mem]
    simp only [add_assoc]
  rw [byte]
  exact (ok.page_of (object_room fits located.bound inside)).1

theorem Valid.unique (fits : Fits L) (valid : Valid L s live) {j : Nat} (first : At L s c q i addr)
    (second : At L s d r j addr) : c = d ∧ q = r ∧ i = j := by
  have here := valid.page_of fits first (fits.objsize_pos c)
  have there := valid.page_of fits second (fits.objsize_pos d)
  rw [here] at there
  obtain ⟨rfl, rfl⟩ : c = d ∧ q = r := by simpa using there
  refine ⟨rfl, rfl, ?_⟩
  have same := first.here.symm.trans second.here
  rw [objAddr, objAddr, Nat.add_left_cancel_iff] at same
  exact Nat.eq_of_mul_eq_mul_right (fits.objsize_pos c) same

theorem Valid.one_cache (valid : Valid L s live) (first : OnList s c q) (second : OnList s d q) : c = d := by
  obtain ⟨page, free, ok⟩ := valid.slab c q first
  obtain ⟨other, _, also⟩ := valid.slab d q second
  have same : page = other := by
    have mem := ok.mem.symm.trans also.mem
    rw [← ok.offset, ← also.offset, Nat.add_right_cancel_iff, page2kva, page2kva, Nat.add_right_cancel_iff] at mem
    exact Nat.eq_of_mul_eq_mul_right (by decide) mem
  have positive : ∀ e : CacheId, 0 < 1 <<< (L e).pageOrder := by
    intro e
    rw [Nat.one_shiftLeft]
    exact Nat.two_pow_pos _
  have here := (ok.pages 0 (positive c)).1
  have there := (also.pages 0 (positive d)).1
  rw [same] at here
  rw [here] at there
  exact (PageInfo.mk.inj there).2.1

/-- A slab whose descriptor and pages are untouched, and whose objects are taken as before. -/
theorem SlabOk.frame (ok : SlabOk L s live c q page free) (slabs : t.slabs q = s.slabs q)
    (pages : ∀ p, s.pages p = ⟨true, c, q⟩ → s.used p = true → t.pages p = s.pages p ∧
    t.used p = true)
    (taken : ∀ i < (L c).num, Taken L t more (objAddr L s c q i) ↔
      Taken L s live (objAddr L s c q i)) : SlabOk L t more c q page free := by
  have same : ∀ i, objAddr L t c q i = objAddr L s c q i := by
    intro i
    rw [objAddr, objAddr, slabs]
  constructor
  case mem => exact slabs ▸ ok.mem
  case offset => exact slabs ▸ ok.offset
  case pages =>
    intro i bound
    obtain ⟨info, used⟩ := ok.pages i bound
    obtain ⟨kept, still⟩ := pages (page + i) info used
    exact ⟨kept.trans info, still⟩
  case place => exact ok.place
  case chain => exact slabs ▸ ok.chain
  case once => exact ok.once
  case bound => exact ok.bound
  case count => exact slabs ▸ ok.count
  case taken =>
    intro i bound
    rw [same, taken i bound]
    exact ok.taken i bound

structure Besides (s t : State) (c : CacheId) (q : Addr) : Prop where
  layout : ∀ d, (t.slabCache d).toCacheLayout = (s.slabCache d).toCacheLayout
  full : ∀ d r, r ≠ q → (r ∈ (t.slabCache d).slabsFull ↔ r ∈ (s.slabCache d).slabsFull)
  notfull : ∀ d r, r ≠ q → (r ∈ (t.slabCache d).slabsNotfull ↔ r ∈ (s.slabCache d).slabsNotfull)
  once : ∀ d, (t.slabCache d).slabsFull.Nodup ∧ (t.slabCache d).slabsNotfull.Nodup
  only : ∀ d, OnList t d q → d = c
  slabs : ∀ r, r ≠ q → t.slabs r = s.slabs r
  pages : ∀ p d r, r ≠ q → s.pages p = ⟨true, d, r⟩ → s.used p = true → t.pages p = s.pages p ∧ t.used p = true

namespace Besides
variable {c : CacheId} {q : Addr}

theorem on (besides : Besides s t c q) (other : r ≠ q) : OnList t d r ↔ OnList s d r := by
  rw [OnList, OnList, besides.full d r other, besides.notfull d r other]

theorem located (besides : Besides s t c q) {i : Nat} (other : r ≠ q) (located : At L s d r i addr) : At L t d r i addr := by
  refine ⟨(besides.on other).mpr located.on, located.bound, ?_⟩
  rw [objAddr, besides.slabs r other]
  exact located.here

end Besides

theorem Valid.change (valid : Valid L s live) (besides : Besides s t c q) (taken : ∀ d r i, r ≠ q →
    At L s d r i (objAddr L s d r i) →
      (Taken L t more (objAddr L s d r i) ↔ Taken L s live (objAddr L s d r i)))
        (this : OnList t c q → ∃ page free, SlabOk L t more c q page free)
    (full : q ∈ (t.slabCache c).slabsFull → (t.slabs q).inuse = (L c).num)
      (notfull : q ∈ (t.slabCache c).slabsNotfull → (t.slabs q).inuse < (L c).num)
    (object : ∀ b ∈ more, ∃ d r i, At L t d r i b.addr ∧ b.size ≤ (L d).objsize) (distinct : (more.map (·.addr)).Nodup)
    (header : ∀ d r, Header L t d r → ∃ e p j, (L d).slabCachep = some e ∧ At L t e p j r)
      (internal : ∀ d r, Header L t d r → ∀ b ∈ more, b.addr ≠ r)
      (marked : ∀ p, (t.pages p).slab = true → t.used p = true) : Valid L t more := by
  constructor
  case layout => exact fun d => (besides.layout d).trans (valid.layout d)
  case slab =>
    intro d r on
    obtain rfl | here := eq_or_ne r q
    · obtain rfl := besides.only d on
      exact this on
    have before := (besides.on here).mp on
    obtain ⟨page, free, ok⟩ := valid.slab d r before
    refine ⟨page, free, ok.frame (besides.slabs r here) (fun p => besides.pages p d r here) ?_⟩
    intro i bound
    exact taken d r i here ⟨before, bound, rfl⟩
  case full =>
    intro d r member
    obtain rfl | here := eq_or_ne r q
    · obtain rfl := besides.only d (.inl member)
      exact full member
    · rw [besides.slabs r here]
      exact valid.full d r ((besides.full d r here).mp member)
  case notfull =>
    intro d r member
    obtain rfl | here := eq_or_ne r q
    · obtain rfl := besides.only d (.inr member)
      exact notfull member
    · rw [besides.slabs r here]
      exact valid.notfull d r ((besides.notfull d r here).mp member)
  case once => exact besides.once
  case object => exact object
  case distinct => exact distinct
  case header => exact header
  case internal => exact internal
  case marked => exact marked

theorem Valid.same (valid : Valid L s live) (caches : t.slabCache = s.slabCache)
    (slabs : t.slabs = s.slabs) (pages : t.pages = s.pages) (used : ∀ p, (s.pages p).slab = true →
    t.used p = true) : Valid L t live := by
  have on : ∀ c q, OnList t c q ↔ OnList s c q := by
    intro c q
    rw [OnList, OnList, caches]
  have located : ∀ {c q i addr}, At L s c q i addr → At L t c q i addr := by
    intro c q i addr located
    refine ⟨(on c q).mpr located.on, located.bound, ?_⟩
    rw [objAddr, slabs]
    exact located.here
  have headers : ∀ {c q}, Header L t c q → Header L s c q := fun header => ⟨(on _ _).mp header.1, header.2⟩
  constructor
  case layout => exact fun c => caches ▸ valid.layout c
  case slab =>
    intro c q listed
    obtain ⟨page, free, ok⟩ := valid.slab c q ((on c q).mp listed)
    refine ⟨page, free, ok.frame (slabs ▸ rfl) ?_ ?_⟩
    · intro p info _
      exact ⟨pages ▸ rfl, used p (info ▸ rfl)⟩
    · intro i _
      simp only [Taken, Header, on]
  case full => exact fun c q member => slabs ▸ valid.full c q (caches ▸ member)
  case notfull => exact fun c q member => slabs ▸ valid.notfull c q (caches ▸ member)
  case once => exact fun c => caches ▸ valid.once c
  case object =>
    intro b member
    obtain ⟨c, q, i, place, size⟩ := valid.object b member
    exact ⟨c, q, i, located place, size⟩
  case distinct => exact valid.distinct
  case header =>
    intro c q header
    obtain ⟨d, r, j, cachep, place⟩ := valid.header c q (headers header)
    exact ⟨d, r, j, cachep, located place⟩
  case internal => exact fun c q header => valid.internal c q (headers header)
  case marked => exact fun p slab => used p (pages ▸ slab)

theorem Valid.perm (valid : Valid L s live) (perm : more.Perm live) : Valid L s more := by
  have taken : ∀ addr, Taken L s more addr ↔ Taken L s live addr := by
    intro addr
    simp only [Taken, perm.mem_iff]
  constructor
  case layout => exact valid.layout
  case slab =>
    intro c q on
    obtain ⟨page, free, ok⟩ := valid.slab c q on
    exact ⟨page, free, ok.frame rfl (fun _ _ used => ⟨rfl, used⟩) fun _ _ => taken _⟩
  case full => exact valid.full
  case notfull => exact valid.notfull
  case once => exact valid.once
  case object => exact fun b member => valid.object b (perm.mem_iff.mp member)
  case distinct => exact (perm.map _).nodup_iff.mpr valid.distinct
  case header => exact valid.header
  case internal => exact fun c q header b member => valid.internal c q header b (perm.mem_iff.mp member)
  case marked => exact valid.marked

section
variable {c : CacheId} {q : Addr}

theorem Valid.besides_setSlab (valid : Valid L s live) (on : OnList s c q) (slab : SlabT) :
    Besides s (s.setSlab q slab) c q where
  layout _ := rfl
  full _ _ _ := Iff.rfl
  notfull _ _ _ := Iff.rfl
  once := valid.once
  only _ other := valid.one_cache other on
  slabs _ other := Function.update_of_ne other ..
  pages _ _ _ _ _ used := ⟨rfl, used⟩

section
variable (besides : Besides s t c q)
include besides

theorem Besides.not_on_unlink (d : CacheId) : ¬ OnList (t.unlink q) d q := by
  intro on
  obtain member | member := on
  · exact ((besides.once d).1.mem_erase_iff.mp member).1 rfl
  · exact ((besides.once d).2.mem_erase_iff.mp member).1 rfl

theorem Besides.unlink : Besides s (t.unlink q) c q where
  layout := besides.layout
  full d r other := (mem_erase_of_ne other).trans (besides.full d r other)
  notfull d r other := (mem_erase_of_ne other).trans (besides.notfull d r other)
  once d := ⟨(besides.once d).1.erase q, (besides.once d).2.erase q⟩
  only d on := absurd on (besides.not_on_unlink d)
  slabs := besides.slabs
  pages := besides.pages

variable (off : ¬ OnList t c q)
include off

theorem Besides.setCache {cache : KmemCache}
    (layout : cache.toCacheLayout = (t.slabCache c).toCacheLayout)
    (lists : (cache.slabsFull = q :: (t.slabCache c).slabsFull ∧
    cache.slabsNotfull = (t.slabCache c).slabsNotfull) ∨
      (cache.slabsFull = (t.slabCache c).slabsFull ∧
        cache.slabsNotfull = q :: (t.slabCache c).slabsNotfull)) :
        Besides s (t.setCache c cache) c q := by
  have here : (t.setCache c cache).slabCache c = cache := Function.update_self ..
  have there : ∀ d, d ≠ c → (t.setCache c cache).slabCache d = t.slabCache d :=
    fun d other => Function.update_of_ne other ..
  have absent := not_or.mp off
  constructor
  case layout =>
    intro d
    by_cases same : d = c
    · rw [same, here, layout]
      exact besides.layout c
    · rw [there d same]
      exact besides.layout d
  case full =>
    intro d r other
    obtain rfl | same := eq_or_ne d c
    · rw [here, ← besides.full d r other]
      obtain ⟨front, _⟩ | ⟨kept, _⟩ := lists
      · simp [front, other]
      · rw [kept]
    · rw [there d same]
      exact besides.full d r other
  case notfull =>
    intro d r other
    obtain rfl | same := eq_or_ne d c
    · rw [here, ← besides.notfull d r other]
      obtain ⟨_, kept⟩ | ⟨_, front⟩ := lists
      · rw [kept]
      · simp [front, other]
    · rw [there d same]
      exact besides.notfull d r other
  case once =>
    intro d
    obtain rfl | same := eq_or_ne d c
    · rw [here]
      obtain ⟨first, second⟩ := besides.once d
      obtain ⟨front, kept⟩ | ⟨kept, front⟩ := lists
      · exact ⟨front ▸ nodup_cons.mpr ⟨absent.1, first⟩, kept ▸ second⟩
      · exact ⟨kept ▸ first, front ▸ nodup_cons.mpr ⟨absent.2, second⟩⟩
    · rw [there d same]
      exact besides.once d
  case only =>
    intro d on
    by_contra different
    rw [OnList, there d different] at on
    exact different (besides.only d on)
  case slabs => exact besides.slabs
  case pages => exact besides.pages

theorem Besides.addFull : Besides s (t.addFull c q) c q := besides.setCache off rfl (.inl ⟨rfl, rfl⟩)

theorem Besides.addNotfull : Besides s (t.addNotfull c q) c q := besides.setCache off rfl (.inr ⟨rfl, rfl⟩)

end

theorem slabCache_addFull (s : State) (c : CacheId) (q : Addr) :
    (s.addFull c q).slabCache c = { s.slabCache c with slabsFull := q :: (s.slabCache c).slabsFull }
    := Function.update_self ..

theorem slabCache_addNotfull (s : State) (c : CacheId) (q : Addr) :
    (s.addNotfull c q).slabCache c =
    { s.slabCache c with slabsNotfull := q :: (s.slabCache c).slabsNotfull } :=
    Function.update_self ..

end

end Ucore.Slab
