import Ucore.Slab

/-! The layouts that `slab_init` computes for the caches, and what the rest of the
development needs to know about them. -/

namespace Ucore.Slab

/-- Objects and management areas have the room they need. -/
structure Fits (L : CacheId → CacheLayout) : Prop where
  num_pos : ∀ c, 0 < (L c).num
  num_lt : ∀ c, (L c).num < bufctlEnd
  objsize_pos : ∀ c, 0 < (L c).objsize
  room : ∀ c, (L c).offset + (L c).num * (L c).objsize ≤ pgSize * 1 <<< (L c).pageOrder
  on_slab : ∀ c, (L c).offSlab = false → sizeofSlab + (L c).num * sizeofBufctl ≤ (L c).offset
  off_slab : ∀ c, (L c).offSlab = true → ∃ d, (L c).slabCachep = some d ∧ (L d).offSlab = false ∧
    sizeofSlab + (L c).num * sizeofBufctl ≤ (L d).objsize
  order_lt : ∀ c, (L c).pageOrder < 64

def layouts : CacheId → CacheLayout := ![
  ⟨32, 101, 864, false, 0, none⟩,
  ⟨64, 56, 496, false, 0, none⟩,
  ⟨128, 29, 288, false, 0, none⟩,
  ⟨256, 15, 176, false, 0, none⟩,
  ⟨512, 8, 0, true, 0, some 2⟩,
  ⟨1024, 4, 0, true, 0, some 2⟩,
  ⟨2048, 2, 0, true, 0, some 1⟩,
  ⟨4096, 1, 0, true, 0, some 1⟩,
  ⟨8192, 1, 0, true, 1, some 1⟩,
  ⟨16384, 1, 0, true, 2, some 1⟩,
  ⟨32768, 1, 0, true, 3, some 1⟩,
  ⟨65536, 1, 0, true, 4, some 1⟩,
  ⟨131072, 1, 0, true, 5, some 1⟩]

theorem initKmemCache_layouts (c : CacheId) : initKmemCache (1 <<< (c + minSizeOrder)) 16 = .ok
    { layouts c with slabsFull := [], slabsNotfull := [] } := by fin_cases c <;> rfl

theorem layouts_fit : Fits layouts where
  num_pos := by decide
  num_lt := by decide
  objsize_pos := by decide
  room := by decide
  on_slab := by decide
  off_slab := by decide
  order_lt := by decide

theorem objsize_layouts : ∀ c : CacheId, (layouts c).objsize = 1 <<< (c + minSizeOrder) := by decide

theorem orderFrom_spec (n remaining order : Nat) (small : n ≤ 1 <<< (order + remaining - 1))
    (some : 0 < remaining) : ∃ found, orderFrom n remaining order = .ok found ∧ order ≤ found ∧
    found < order + remaining ∧ n ≤ 1 <<< found := by
  induction remaining generalizing order with
  | zero => exact absurd some (lt_irrefl 0)
  | succ remaining ih =>
    by_cases fits : n ≤ 1 <<< order
    · exact ⟨order, by rw [orderFrom, if_pos fits]; rfl, le_rfl, by omega, fits⟩
    have more : 0 < remaining := by
      rcases Nat.eq_zero_or_pos remaining with rfl | more
      · exact absurd small fits
      · exact more
    obtain ⟨found, ran, above, below, enough⟩ := ih (order + 1) (by convert small using 2; omega) more
    exact ⟨found, by rwa [orderFrom, if_neg fits], by omega, by omega, enough⟩

theorem getorder_spec {size : Nat} (small : size ≤ 128 * 1024) : ∃ order, getorder size = .ok order ∧
    order ≤ maxSizeOrder ∧ size ≤ (layouts (cacheOfOrder order)).objsize := by
  obtain ⟨order, ran, above, below, enough⟩ := orderFrom_spec size slabCacheNum minSizeOrder small (by decide)
  refine ⟨order, ran, Nat.le_of_lt_succ below, ?_⟩
  have index : (cacheOfOrder order : Nat) = order - minSizeOrder := Nat.mod_eq_of_lt (by omega)
  rwa [objsize_layouts, index, Nat.sub_add_cancel above]

theorem orderFrom_large {n remaining order : Nat} (large : ∀ k < order + remaining, 1 <<< k < n) :
    orderFrom n remaining order = .error (.panic "getorder failed. %d\n") := by
  induction remaining generalizing order with
  | zero => rfl
  | succ remaining ih =>
    have above := large order (by omega)
    rw [orderFrom, if_neg (not_le.mpr above)]
    exact ih fun k bound => large k (by omega)

theorem getorder_large {size : Nat} (large : 128 * 1024 < size) :
    getorder size = .error (.panic "getorder failed. %d\n") := by
  refine orderFrom_large fun k bound => lt_of_le_of_lt ?_ large
  have last : k ≤ 17 := Nat.le_of_lt_succ bound
  simpa only [Nat.one_shiftLeft] using Nat.pow_le_pow_right Nat.two_pos last

/-- The objects have the size that was asked for, rounded up to the alignment. They fit in the slab
beside their management area, or the area fits in an object of a cache that keeps its own areas
in its slabs. -/
def LaidOut (size : Nat) (cache : KmemCache) : Prop :=
  (size ≤ cache.objsize ∧ cache.objsize < size + 16 ∧ 16 ∣ cache.objsize) ∧
    0 < cache.num ∧ cache.offset + cache.num * cache.objsize ≤ pgSize <<< cache.pageOrder ∧
    if cache.offSlab then
      ∃ d ∈ cache.slabCachep, sizeofSlab + cache.num * sizeofBufctl ≤ (layouts d).objsize ∧
        (layouts d).slabCachep = none
    else sizeofSlab + cache.num * sizeofBufctl ≤ cache.offset ∧ cache.slabCachep = none
deriving Decidable

def isLaidOut (size : Nat) : Kernel KmemCache → Bool
  | .ok cache => LaidOut size cache
  | .error _ => false

theorem isLaidOut_multiple (a : Fin 64) :
    ∀ b < 128, isLaidOut (16 * (128 * a + b + 1)) (initKmemCache (16 * (128 * a + b + 1)) 16) = true := by
  fin_cases a <;> decide +kernel

theorem LaidOut.smaller {size m : Nat} {cache : KmemCache} (laid : LaidOut (16 * m) cache)
    (below : size ≤ 16 * m) (above : 16 * m < size + 16) : LaidOut size cache := by
  obtain ⟨⟨enough, tight, aligned⟩, rest⟩ := laid
  exact ⟨⟨by omega, by omega, aligned⟩, rest⟩

/-- `slab_cachep` leads to a cache from which it leads no further. -/
theorem slabCachep_ends : ∀ c d : CacheId, (layouts c).slabCachep = some d →
    d ≠ c ∧ (layouts d).slabCachep = none := by
  decide

theorem allocLocks_apart {c : CacheId} {acts : List LockAct} (locks : AllocLocks layouts c acts) :
    neverReacquires [] acts = true := by
  cases locks with
  | once => simp [neverReacquires]
  | grow => simp [neverReacquires]
  | refused cachep inner =>
    have last := (slabCachep_ends _ _ cachep).2
    cases inner with
    | once => simp [neverReacquires]
    | grow => simp [neverReacquires]
    | refused again | growOff again => exact nomatch last.symm.trans again
  | growOff cachep inner =>
    have last := (slabCachep_ends _ _ cachep).2
    cases inner with
    | once => simp [neverReacquires]
    | grow => simp [neverReacquires]
    | refused again | growOff again => exact nomatch last.symm.trans again

theorem freeLocks_apart {c : CacheId} {acts : List LockAct} (locks : FreeLocks layouts c acts) :
    neverReacquires [] acts = true := by
  cases locks with
  | once => simp [neverReacquires]
  | destroy cachep inner =>
    obtain ⟨other, last⟩ := slabCachep_ends _ _ cachep
    cases inner with
    | once => simp [neverReacquires, other]
    | destroy again => exact nomatch last.symm.trans again

end Ucore.Slab
