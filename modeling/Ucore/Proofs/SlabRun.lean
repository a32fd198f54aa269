import Ucore.Lib.Spans
import Ucore.Proofs.SlabCalls

/-! The slab allocator over whole runs: where objects lie, how slabs account for them,
and that a request that fails has changed nothing. -/

namespace Ucore.Slab
open Lib List

variable {L : CacheId → CacheLayout} {s : State} {live : List Block} {c : CacheId} {q : Addr}
    {a b r : Addr} {d : CacheId} {size : Nat}
  {heap : Heap} {i j : Nat}

def extent (s : State) (addr : Addr) : Span := ⟨addr, addr + (s.slabCache (s.pages (kva2page addr)).cache).objsize⟩

def slabExtent (s : State) (c : CacheId) (q : Addr) : Span :=
  ⟨(s.slabs q).sMem - (s.slabs q).offset, (s.slabs q).sMem - (s.slabs q).offset + pgSize * 1 <<< (s.slabCache c).pageOrder⟩

def mgmtExtent (s : State) (c : CacheId) (q : Addr) : Span := ⟨q, q + (sizeofSlab + (s.slabCache c).num * sizeofBufctl)⟩

def descriptors (s : State) : List Addr :=
  (finRange slabCacheNum).flatMap fun c =>
    if (s.slabCache c).offSlab then (s.slabCache c).slabsFull ++ (s.slabCache c).slabsNotfull else []

def liveAddrs (heap : Heap) : List Addr := heap.live.map (·.addr) ++ descriptors heap.state

def objectAddr (s : State) (c : CacheId) (q : Addr) (i : Nat) : Addr := (s.slabs q).sMem + i * (s.slabCache c).objsize

structure SlabSound (heap : Heap) (c : CacheId) (q : Addr) : Prop where
  inuse : (heap.state.slabs q).inuse =
    (range (heap.state.slabCache c).num).countP fun i => decide (objectAddr heap.state c q i ∈ liveAddrs heap)
  chain : ∃ free, Chain (heap.state.slabs q).bufctl bufctlEnd (heap.state.slabs q).free free ∧ free.Nodup ∧
    free.length = (heap.state.slabCache c).num - (heap.state.slabs q).inuse ∧
    ∀ i, i ∈ free ↔ i < (heap.state.slabCache c).num ∧ objectAddr heap.state c q i ∉ liveAddrs heap
  full : q ∈ (heap.state.slabCache c).slabsFull ↔ (heap.state.slabs q).inuse = (heap.state.slabCache c).num

structure Sound (heap : Heap) : Prop where
  inside : ∀ b ∈ heap.live, ∃ c q, OnList heap.state c q ∧ (extent heap.state b.addr).Within (slabExtent heap.state c q) ∧
    b.addr + b.size ≤ (extent heap.state b.addr).stop
  apart : heap.live.Pairwise fun a b => (extent heap.state a.addr).Apart (extent heap.state b.addr)
  mgmt : ∀ b ∈ heap.live, ∀ c q, OnList heap.state c q → (extent heap.state b.addr).Apart (mgmtExtent heap.state c q)
  slab : ∀ c q, OnList heap.state c q → SlabSound heap c q

section
variable (fits : Fits L) (valid : Valid L s live)
include fits valid

theorem Valid.extent_eq {addr : Addr} (located : At L s c q i addr) : extent s addr = ⟨addr, addr + (L c).objsize⟩ := by
  have info := valid.page_of fits located (fits.objsize_pos c)
  rw [add_zero] at info
  have size := congrArg CacheLayout.objsize (valid.layout c)
  rw [extent, info, size]

theorem Valid.common_byte {k l : Nat} (first : At L s c q i a) (second : At L s d r j b)
    (inside : k < (L c).objsize) (also : l < (L d).objsize) (same : a + k = b + l) : a = b := by
  have here := valid.page_of fits first inside
  have there := valid.page_of fits second also
  rw [same, there] at here
  obtain ⟨rfl, rfl⟩ : d = c ∧ r = q := by simpa using here
  have positive := fits.objsize_pos d
  rw [first.here, second.here, objAddr, objAddr, add_assoc, add_assoc, Nat.add_left_cancel_iff] at same
  have quotient : ∀ m n : Nat, n < (L d).objsize → (m * (L d).objsize + n) / (L d).objsize = m := by
    intro m n small
    rw [add_comm, Nat.add_mul_div_right _ _ positive, Nat.div_eq_of_lt small, zero_add]
  have index : i = j := by
    rw [← quotient i k inside, same]
    exact quotient j l also
  rw [first.here, second.here, index]

theorem Valid.extents_apart (first : At L s c q i a) (second : At L s d r j b) (different : a ≠ b) :
    (extent s a).Apart (extent s b) := by
  rw [valid.extent_eq fits first, valid.extent_eq fits second]
  apply Span.apart_of_no_common
  · exact Nat.lt_add_of_pos_right (fits.objsize_pos c)
  · exact Nat.lt_add_of_pos_right (fits.objsize_pos d)
  intro addr here there
  obtain ⟨k, rfl⟩ := Nat.exists_eq_add_of_le here.1
  obtain ⟨l, same⟩ := Nat.exists_eq_add_of_le there.1
  have inside := Nat.add_lt_add_iff_left.mp here.2
  have also := Nat.add_lt_add_iff_left.mp (same ▸ there.2)
  exact different (valid.common_byte fits first second inside also same)

theorem Valid.mgmt_apart {b : Block} (held : b ∈ live) (on : OnList s c q) : (extent s b.addr).Apart (mgmtExtent s c q) := by
  obtain ⟨d, r, j, located, _⟩ := valid.object b held
  have num := congrArg CacheLayout.num (valid.layout c)
  have some : 0 < sizeofSlab + (L c).num * sizeofBufctl := Nat.add_pos_left (by decide) _
  rw [valid.extent_eq fits located, mgmtExtent, num]
  apply Span.apart_of_no_common
  · exact Nat.lt_add_of_pos_right (fits.objsize_pos d)
  · exact Nat.lt_add_of_pos_right some
  intro addr here there
  obtain ⟨k, rfl⟩ := Nat.exists_eq_add_of_le here.1
  obtain ⟨l, same⟩ := Nat.exists_eq_add_of_le there.1
  have inside := Nat.add_lt_add_iff_left.mp here.2
  have also := Nat.add_lt_add_iff_left.mp (same ▸ there.2)
  cases kind : (L c).offSlab with
  | true =>
    -- The descriptor is in an object of its own.
    obtain ⟨e, p, i, cachep, at_⟩ := valid.header c q ⟨on, kind⟩
    obtain ⟨e', same', _, enough⟩ := fits.off_slab c kind
    obtain rfl := Option.some.inj (cachep.symm.trans same')
    exact valid.internal c q ⟨on, kind⟩ b held (valid.common_byte fits located at_ inside (also.trans_le enough) same)
  | false =>
    -- The descriptor is in front of the objects of its slab.
    obtain ⟨page, free, ok⟩ := valid.slab c q on
    have before := also.trans_le (fits.on_slab c kind)
    have room := fits.room c
    have byPage := (ok.page_of (k := l) (by omega)).1
    rw [← ok.place kind, ← same, valid.page_of fits located inside] at byPage
    obtain ⟨rfl, rfl⟩ : d = c ∧ r = q := by simpa using byPage
    rw [located.here, objAddr, ok.mem, ← ok.place kind, add_assoc, add_assoc, Nat.add_left_cancel_iff] at same
    omega

end

theorem mem_descriptors (valid : Valid L s live) (addr : Addr) : addr ∈ descriptors s ↔ ∃ c, Header L s c addr := by
  have kind : ∀ c, (s.slabCache c).offSlab = (L c).offSlab := fun c => congrArg CacheLayout.offSlab (valid.layout c)
  simp only [descriptors, mem_flatMap, mem_finRange, true_and, kind, Header, OnList]
  apply exists_congr
  intro c
  cases (L c).offSlab <;> simp

theorem Valid.taken_iff (valid : Valid L s live) (addr : Addr) : Taken L s live addr ↔
    addr ∈ liveAddrs ⟨s, live⟩ := by
      rw [liveAddrs, mem_append, mem_descriptors valid, Taken, mem_map]

theorem countP_absent {num : Nat} {free : List Nat} (once : free.Nodup) (bound : ∀ i ∈ free,
    i < num) : (range num).countP (fun i => decide (i ∉ free)) + free.length = num := by
  have present : (range num).countP (fun i => decide (i ∈ free)) = free.length := by
    rw [countP_eq_length_filter]
    apply List.Perm.length_eq
    apply (perm_ext_iff_of_nodup (nodup_range.filter _) once).mpr
    intro i
    simp only [mem_filter, mem_range, decide_eq_true_eq]
    exact ⟨fun both => both.2, fun member => ⟨bound i member, member⟩⟩
  have total : (range num).length = _ := length_eq_countP_add_countP fun i => decide (i ∈ free)
  rw [length_range] at total
  have same : (range num).countP (fun i => decide (i ∉ free)) = (range num).countP fun i =>
    decide ¬ decide (i ∈ free) = true := by simp
  omega

theorem Valid.slab_sound (valid : Valid L s live) (on : OnList s c q) : SlabSound ⟨s, live⟩ c q := by
  obtain ⟨page, free, ok⟩ := valid.slab c q on
  have layout := valid.layout c
  have num := congrArg CacheLayout.num layout
  have size := congrArg CacheLayout.objsize layout
  have taken : ∀ i < (L c).num, i ∉ free ↔ objectAddr s c q i ∈ liveAddrs ⟨s, live⟩ := by
    intro i bound
    rw [objectAddr, size]
    exact (ok.taken i bound).trans (valid.taken_iff _)
  have count := ok.count
  constructor
  case inuse =>
    have absent := countP_absent ok.once ok.bound
    have same : (range (L c).num).countP
      (fun i => decide (objectAddr s c q i ∈ liveAddrs ⟨s, live⟩)) = (range (L c).num).countP
      fun i => decide (i ∉ free) := by
      apply countP_congr
      intro i member
      simp only [decide_eq_true_eq]
      exact (taken i (mem_range.mp member)).symm
    rw [num, same]
    show (s.slabs q).inuse = _
    omega
  case chain =>
    refine ⟨free, ok.chain, ok.once, ?_, ?_⟩
    · show _ = (s.slabCache c).num - (s.slabs q).inuse
      omega
    intro i
    rw [num]
    constructor
    · exact fun member => ⟨ok.bound i member, fun busy => (taken i (ok.bound i member)).mpr busy member⟩
    · exact fun ⟨bound, unused⟩ => by_contra fun absent => unused ((taken i bound).mp absent)
  case full =>
    rw [num]
    refine ⟨valid.full c q, fun all => on.resolve_right fun member => ?_⟩
    exact Nat.ne_of_lt (valid.notfull c q member) all

theorem Valid.sound (fits : Fits L) (valid : Valid L s live) : Sound ⟨s, live⟩ := by
  constructor
  case inside =>
    intro b held
    obtain ⟨c, q, i, located, enough⟩ := valid.object b held
    obtain ⟨page, free, ok⟩ := valid.slab c q located.on
    have order := congrArg CacheLayout.pageOrder (valid.layout c)
    refine ⟨c, q, located.on, ?_, ?_⟩
    · have room := fits.room c
      have whole : (i + 1) * (L c).objsize ≤ (L c).num * (L c).objsize := Nat.mul_le_mul_right _ located.bound
      rw [Nat.succ_mul] at whole
      rw [valid.extent_eq fits located, slabExtent, order, ok.mem, ok.offset, Nat.add_sub_cancel]
      have start : b.addr = page2kva page + ((L c).offset + i * (L c).objsize) := by
        rw [located.here, objAddr, ok.mem, add_assoc]
      refine ⟨?_, Nat.lt_add_of_pos_right (fits.objsize_pos c), ?_⟩
      · rw [start]
        exact Nat.le_add_right _ _
      · rw [start, add_assoc]
        apply Nat.add_le_add_left
        omega
    · rw [valid.extent_eq fits located]
      exact Nat.add_le_add_left enough _
  case apart =>
    have distinct := pairwise_map.mp valid.distinct
    apply distinct.imp_of_mem
    intro a b first second different
    obtain ⟨_, _, _, here, _⟩ := valid.object a first
    obtain ⟨_, _, _, there, _⟩ := valid.object b second
    exact valid.extents_apart fits here there different
  case mgmt => exact fun b held c q on => valid.mgmt_apart fits held on
  case slab => exact fun c q on => valid.slab_sound on

structure Settled (heap : Heap) : Prop where
  valid : Valid layouts heap.state heap.live
  idle : heap.state.answers = []

/-- The pages that a request of this size needs are there. -/
def Supplies (s : State) (size : Nat) : Prop := ∀ order, getorder size = .ok order → Ready s (cacheOfOrder order)

theorem kmalloc_ends (valid : Valid layouts s live) (positive : 1 ≤ size) (small : size ≤ 128 * 1024) :
    Ends (fun _ => False) (kmalloc s size) fun
      | (t, none) => ¬ Supplies s size ∧ Refused s t
      | (t, some addr) => Supplies s size ∧ Valid layouts t (⟨addr, size⟩ :: live) := by
  obtain ⟨order, ran, within, enough⟩ := getorder_spec small
  have cache : Supplies s size ↔ Ready s (cacheOfOrder order) :=
    ⟨fun supplies => supplies order ran, fun ready found same => Except.ok.inj (ran.symm.trans same) ▸ ready⟩
  have positive : size > 0 := positive
  rw [kmalloc, ensure_bind, if_pos positive]
  apply Ends.bind_ok ran
  rw [if_neg (not_lt.mpr within)]
  apply (kmemCacheAlloc_four layouts_fit (cacheOfOrder order) s live valid).mono
  rintro ⟨t, objp⟩ served
  cases objp with
  | none => exact ⟨mt cache.mp served.1, served.2⟩
  | some => exact ⟨cache.mpr served.1, served.2.2.2 size enough⟩

theorem kfree_spec {b : Block} (valid : Valid layouts s (b :: live)) :
    ∃ t, kfree s (some b.addr) = .ok t ∧ Valid layouts t live := by
  obtain ⟨c, q, i, located, _⟩ := valid.object b (mem_cons_self ..)
  have info := valid.page_of layouts_fit located (layouts_fit.objsize_pos c)
  rw [add_zero] at info
  rw [kfree, info]
  exact kmemCacheFree_two layouts_fit c s b live q i valid located

theorem Valid.settle (valid : Valid L s live) (answers : List (Option PageId)) :
    Valid L { s with answers } live := valid.same rfl rfl rfl valid.marked

theorem settled_start (begins : machine.start heap) : Settled heap := by
  obtain ⟨caches, plain, idle, nothing⟩ := begins
  have cache : ∀ c, heap.state.slabCache c = { layouts c with slabsFull := [], slabsNotfull := [] }
    := fun c => Except.ok.inj ((caches c).symm.trans (initKmemCache_layouts c))
  have none : ∀ c q, ¬ OnList heap.state c q := by
    intro c q
    simp [OnList, cache]
  refine ⟨?_, idle⟩
  constructor
  case layout => exact fun c => by rw [cache]
  case slab => exact fun c q on => absurd on (none c q)
  case full => exact fun c q member => absurd (.inl member) (none c q)
  case notfull => exact fun c q member => absurd (.inr member) (none c q)
  case once => exact fun c => by simp [cache]
  case object => exact fun b member => by simp [nothing] at member
  case distinct => simp [nothing]
  case header => exact fun c q header => absurd header.1 (none c q)
  case internal => exact fun c q header => absurd header.1 (none c q)
  case marked => exact fun p slab => absurd (slab.symm.trans (plain p)) Bool.false_ne_true.symm

/-- What a failed request leaves: the caches, the slabs and the free pages as they were. -/
def SameButCount (heap after : Heap) : Prop :=
  ∃ usedPages, after = ⟨{ heap.state with usedPages }, heap.live⟩

theorem Refused.differs {answers : List (Option PageId)} {t : State} (idle : heap.state.answers = [])
    (refused : Refused { heap.state with answers } t) :
    SameButCount heap ⟨{ t with answers := [] }, heap.live⟩ ∧
      (⟨{ t with answers := [] }, heap.live⟩ : Heap) ≠ heap := by
  obtain ⟨order, bound, later, rfl⟩ := refused
  obtain ⟨state, live⟩ := heap
  refine ⟨⟨_, by rw [← idle]; rfl⟩, fun same => ?_⟩
  have count : state.usedPages + BitVec.ofNat 64 (1 <<< order) = state.usedPages :=
    congrArg (fun heap : Heap => heap.state.usedPages) same
  have none := congrArg BitVec.toNat (add_eq_left.mp count)
  rw [BitVec.toNat_ofNat, Nat.one_shiftLeft, Nat.mod_eq_of_lt (Nat.pow_lt_pow_right one_lt_two bound)] at none
  exact absurd none (Nat.two_pow_pos order).ne'

theorem step_ends {op : Op} (settled : Settled heap) (allowed : Allowed heap op) :
    Ends (fun _ => False) (step heap op) fun result => Settled result.1 ∧ ∀ size answers, op = .kmalloc size answers →
      (Supplies { heap.state with answers } size → result.2.isSome = true) ∧
        (¬ Supplies { heap.state with answers } size → result.2 = none ∧ SameButCount heap result.1 ∧ result.1 ≠ heap) := by
  obtain ⟨valid, idle⟩ := settled
  cases op with
  | kmalloc size answers =>
    apply (kmalloc_ends (valid.settle answers) allowed.1 allowed.2).bind
    rintro ⟨t, objp⟩ outcome
    cases objp with
    | none =>
      obtain ⟨short, refused⟩ := outcome
      have left := refused.differs idle
      have kept : Valid layouts { t with answers := [] } heap.live := by
        obtain ⟨_, same⟩ := left.1
        rw [(Heap.mk.inj same).1]
        exact valid.same rfl rfl rfl valid.marked
      refine ⟨⟨kept, rfl⟩, fun _ _ same => ?_⟩
      cases same
      exact ⟨fun enough => absurd enough short, fun _ => ⟨rfl, left⟩⟩
    | some =>
      refine ⟨⟨outcome.2.settle [], rfl⟩, fun _ _ same => ?_⟩
      cases same
      exact ⟨fun _ => rfl, fun short => absurd outcome.1 short⟩
  | kfree =>
    have held := valid.perm (perm_cons_erase allowed).symm
    obtain ⟨t, ran, kept⟩ := kfree_spec held
    exact .bind_ok ran ⟨⟨kept.settle [], rfl⟩, fun _ _ clash => nomatch clash⟩
  | page page =>
    refine ⟨⟨valid.same rfl rfl rfl fun p slab => ?_, idle⟩, fun _ _ clash => nomatch clash⟩
    have different : ¬ (page ≤ p ∧ p < page + 1) := by
      intro range
      obtain rfl : p = page := le_antisymm (Nat.lt_succ_iff.mp range.2) range.1
      exact absurd (slab.symm.trans allowed) Bool.false_ne_true.symm
    exact (if_neg different).trans (valid.marked p slab)

/-- If this request fails, it leaves the caches, the slabs and the page allocator with its count
of used pages unchanged. -/
def FailsCleanly (heap : Heap) (size : Nat) (answers : List (Option PageId)) : Prop :=
  ∀ after, step heap (.kmalloc size answers) = .ok (after, none) → after = heap

theorem Settled.failsCleanly {answers : List (Option PageId)} (settled : Settled heap)
    (allowed : Allowed heap (.kmalloc size answers)) :
    (∀ after, step heap (.kmalloc size answers) = .ok (after, none) → SameButCount heap after) ∧
      (FailsCleanly heap size answers ↔ Supplies { heap.state with answers } size) := by
  have ends := step_ends settled allowed
  by_cases supplied : Supplies { heap.state with answers } size
  · have served (after) (ran : step heap (.kmalloc size answers) = .ok (after, none)) : False := by
      have some := ((ends.value ran).2 size answers rfl).1 supplied
      cases some
    exact ⟨fun after ran => (served after ran).elim, fun _ => supplied, fun _ after ran => (served after ran).elim⟩
  · cases executed : step heap (.kmalloc size answers) with
    | error => exact (ends.fault executed).elim
    | ok result =>
      obtain ⟨left, block⟩ := result
      obtain ⟨rfl, same, differs⟩ := ((ends.value executed).2 size answers rfl).2 supplied
      refine ⟨fun after ran => ?_, fun cleanly => absurd (cleanly left executed) differs,
        fun enough => absurd enough supplied⟩
      cases ran
      exact same

/-- After every call the objects and the slabs are as they should be, no call panics, and a failed
`kmalloc` changes nothing but the count of used pages. That count it changes always: nothing is
changed exactly if the page allocator has the pages that the caches have to grow by. -/
theorem slabs_sound_after_every_call (size : Nat) (answers : List (Option PageId)) :
    machine.Safe fun heap => Sound heap ∧ (Allowed heap (.kmalloc size answers) →
      (∀ after, step heap (.kmalloc size answers) = .ok (after, none) → SameButCount heap after) ∧
        (FailsCleanly heap size answers ↔ Supplies { heap.state with answers } size)) := by
  apply Machine.safe_of_invariant (fun _ => settled_start)
  · intro heap op settled allowed
    have ends := step_ends settled allowed
    cases executed : step heap op with
    | ok result => exact ⟨result.1, result.2, executed, (ends.value executed).1⟩
    | error => exact (ends.fault executed).elim
  · exact fun heap settled => ⟨settled.valid.sound layouts_fit, settled.failsCleanly⟩

/-- The heap right after `slab_init`. -/
def initialHeap : Heap :=
  ⟨⟨fun c => { layouts c with slabsFull := [], slabsNotfull := [] }, fun _ => ⟨0, 0, 0, 0, fun _ => 0⟩,
    fun _ => ⟨false, 0, 0⟩, fun _ => false, [], 0⟩, []⟩

theorem initialHeap_starts : machine.start initialHeap := ⟨initKmemCache_layouts, fun _ => rfl, rfl, rfl⟩

/-- The first `kmalloc` gets no page. -/
theorem refused_pages_are_counted : ¬ machine.Always fun heap =>
    ∀ size answers, Allowed heap (.kmalloc size answers) → FailsCleanly heap size answers := by
  intro always
  have clean := always _ ⟨[], .start initialHeap_starts⟩ 1 [none] ⟨le_rfl, by decide⟩ _ rfl
  have count := congrArg (fun heap : Heap => heap.state.usedPages) clean
  exact absurd count (by decide)

/-- Whatever pages it gets, a request of this size returns no block or one that is large enough. -/
def Answered (heap : Heap) (size : Nat) : Prop :=
  ∀ answers, ∃ after block, step heap (.kmalloc size answers) = .ok (after, block) ∧
    ∀ addr, block = some addr → addr + size ≤ (extent after.state addr).stop

theorem Settled.answered (settled : Settled heap) (positive : 1 ≤ size) (small : size ≤ 128 * 1024) : Answered heap size := by
  intro answers
  have ends := kmalloc_ends (settled.valid.settle answers) positive small
  cases ran : kmalloc { heap.state with answers } size with
  | error => exact (ends.fault ran).elim
  | ok result =>
    obtain ⟨t, objp⟩ := result
    rw [step, ran]
    cases objp with
    | none => exact ⟨_, _, rfl, nofun⟩
    | some addr =>
      have sound := ((ends.value ran).2.settle []).sound layouts_fit
      obtain ⟨_, _, _, _, enough⟩ := sound.inside ⟨addr, size⟩ mem_cons_self
      exact ⟨_, _, rfl, fun _ same => Option.some.inj same ▸ enough⟩

theorem not_answered_large (large : 128 * 1024 < size) : ¬ Answered heap size := by
  intro answered
  obtain ⟨after, block, executed, _⟩ := answered []
  have positive : size > 0 := Nat.zero_lt_of_lt large
  rw [step, kmalloc, ensure_bind, if_pos positive, getorder_large large] at executed
  cases executed

/-- A request is served or returns `NULL` exactly up to the size of the largest cache. -/
theorem answered_by_the_caches (size : Nat) :
    machine.Always fun heap => 1 ≤ size → (Answered heap size ↔ size ≤ 128 * 1024) := by
  refine Machine.always_of_invariant (fun _ => settled_start) ?_ fun heap settled positive => ?_
  · intro heap op after output settled allowed executed
    exact ((step_ends settled allowed).value executed).1
  · exact ⟨fun answered => not_lt.mp fun large => not_answered_large large answered, settled.answered positive⟩

/-- `getorder` panics above it, so the branch for `NULL` is not reached. -/
theorem larger_requests_panic : ¬ machine.Always fun heap => ∀ size, 1 ≤ size → Answered heap size := by
  intro always
  exact not_answered_large (by decide) (always _ ⟨[], .start initialHeap_starts⟩ (128 * 1024 + 1) (by decide))

end Ucore.Slab
