import Ucore.ForkedSpaces
import Ucore.Proofs.FaultOutcome

/-! What `copy_range` makes of the pages of a parent. The child gets frames of its own for
private pages and the frames of the parent for shared ones. -/

namespace Ucore.Pmm
open Lib Vmm RbTree List Function

variable {source dir next : PageDir} {first m between after : Memory} {shared visited : Nat → Prop}
    {f : Frame} {page : Nat} {pte : Pte} {share : Bool} {a b : Vma} {areas : List Vma}
  {start : Nat} {base : Nat → Prop}

/-- The references that the entries of an address space stand for. -/
noncomputable def restOf (entries : Nat → Pte) : Rest := ⟨tally (frameOf ∘ entries), tally (swapOf ∘ entries)⟩

theorem Books.rest_used {entries others : Nat → Pte} (books : Books (restOf others) entries m)
    (finite : ∀ f, (places (frameOf ∘ others) f).Finite) (maps : frameOf (others page) = some f) :
    m.free f = false := by
  have some := tally_pos (finite f) maps
  have enough := books.frames f
  cases free : m.free f with
  | false => rfl
  | true =>
    have none := (books.unused f free).1
    simp only [restOf] at enough
    omega

/-- The permissions that `copy_range` gives a page. -/
def copyPerm (pte : Pte) : Perm := (pte &&& pteUser).setWidth 10

theorem getLsbD_copyPerm {i : Nat} (low : i < 5) (pte : Pte) : (copyPerm pte).getLsbD i = pte.getLsbD i := by
  have user : pteUser.getLsbD i = true := by
    revert i
    decide
  rw [copyPerm, BitVec.getLsbD_setWidth, BitVec.getLsbD_and, user]
  simp
  omega

/-- What the child has once some pages have been visited; `first` is memory before. -/
structure Copying (source : PageDir) (first : Memory) (shared visited : Nat → Prop) (dir : PageDir)
    (m : Memory) : Prop where
  later : Later first m
  enabled : m.swap.enabled = first.swap.enabled
  maxOffset : m.swap.maxOffset = first.swap.maxOffset
  books : Books (restOf source.entry) dir.entry m
  unvisited : ∀ page, ¬ visited page → dir.entry page = 0
  absent : ∀ page, ¬ Present (source.entry page) → dir.entry page = 0
  own : ∀ page f, visited page → ¬ shared page → frameOf (source.entry page) = some f →
    ∃ g, frameOf (dir.entry page) = some g ∧ first.free g = true ∧ m.data g = first.data f
  same : ∀ page f, visited page → shared page → frameOf (source.entry page) = some f → frameOf (dir.entry page) = some f
  read : ∀ page, visited page → Present (source.entry page) → URead (source.entry page) → URead (dir.entry page)
  write : ∀ page, visited page → Present (source.entry page) → (UWrite (dir.entry page) ↔ UWrite (source.entry page))

theorem Copying.skip {more : Nat → Prop} (copying : Copying source first shared visited dir m)
    (absent : ∀ page, more page → ¬ visited page → ¬ Present (source.entry page)) (wider : ∀ page,
      visited page → more page) : Copying source first shared more dir m := by
  have visit : ∀ page, more page → Present (source.entry page) → visited page := by
    intro page listed present
    by_contra out
    exact absent page listed out present
  have maps : ∀ page f, frameOf (source.entry page) = some f → Present (source.entry page) := by
    intro page f held
    by_contra out
    rw [frameOf_absent out] at held
    cases held
  exact { copying with
    unvisited := fun page out => copying.unvisited page fun inside => out (wider page inside)
    own := fun page f listed plain held => copying.own page f (visit page listed (maps page f held)) plain held
    same := fun page f listed common held => copying.same page f (visit page listed (maps page f held)) common held
    read := fun page listed present => copying.read page (visit page listed present) present
    write := fun page listed present => copying.write page (visit page listed present) present }

theorem Copying.walked {ok : Bool} (copying : Copying source first shared visited dir m)
    (walk : Walk dir m page next after ok) : Copying source first shared visited next after := by
  refine ⟨copying.later.trans walk.drew.later, ?_, ?_, ?_, ?_, ?_, ?_, ?_, ?_, ?_⟩
  · rw [walk.drew.swap, copying.enabled]
  · rw [walk.drew.swap, copying.maxOffset]
  · rw [walk.entries]
    exact copying.books.took walk.drew.toTook
  · rw [walk.entries]
    exact copying.unvisited
  · rw [walk.entries]
    exact copying.absent
  · intro page f listed plain held
    obtain ⟨g, maps, free, data⟩ := copying.own page f listed plain held
    refine ⟨g, by rw [walk.entries, maps], free, ?_⟩
    rw [walk.drew.data g (copying.books.mapped maps).2, data]
  · rw [walk.entries]
    exact copying.same
  · rw [walk.entries]
    exact copying.read
  · rw [walk.entries]
    exact copying.write

theorem uRead_copied (read : URead pte) : URead (mapping f (copyPerm pte)) := by
  rw [uRead_iff] at read ⊢
  rw [getLsbD_mapping_low, getLsbD_mapping_low, getLsbD_copyPerm (show 4 < 5 by decide),
    getLsbD_copyPerm (show 1 < 5 by decide), read.1, read.2]
  simp

theorem uWrite_copied (f : Frame) (pte : Pte) : UWrite (mapping f (copyPerm pte)) ↔ UWrite pte := by
  rw [uWrite_mapping, uWrite_iff, getLsbD_copyPerm (show 4 < 5 by decide), getLsbD_copyPerm (show 2 < 5 by decide)]

theorem Copying.copied {filled : Memory} (copying : Copying source first shared visited dir m)
    (present : Present (source.entry page))
    (later : Later m filled) (swap : filled.swap = m.swap) (displaced : Displaced filled f (dir.entry page) after)
    (entry : next.entry = update dir.entry page (mapping f (copyPerm (source.entry page))))
      (books : Books (restOf source.entry) next.entry after)
    (own : ¬ shared page → first.free f = true ∧ filled.data f = first.data (pte2page (source.entry page)))
    (same : shared page → f = pte2page (source.entry page)) :
      Copying source first shared (fun other => visited other ∨ other = page) next after := by
  have here : next.entry page = mapping f (copyPerm (source.entry page)) := by rw [entry, update_self]
  have there : ∀ other, other ≠ page → next.entry other = dir.entry other :=
    fun other apart => by rw [entry, update_of_ne apart]
  refine ⟨copying.later.trans (later.trans displaced.later), ?_, ?_, books, ?_, ?_, ?_, ?_, ?_, ?_⟩
  · rw [displaced.enabled, swap, copying.enabled]
  · rw [displaced.maxOffset, swap, copying.maxOffset]
  · intro other out
    rw [there other fun equal => out (.inr equal)]
    exact copying.unvisited other fun inside => out (.inl inside)
  · intro other missing
    rw [there other (by rintro rfl; exact missing present)]
    exact copying.absent other missing
  · intro other g listed plain held
    obtain rfl | equal := eq_or_ne other page
    · rw [frameOf_present present, Option.some_inj] at held
      obtain ⟨free, data⟩ := own plain
      exact ⟨f, by rw [here, frameOf_mapping], free, by rw [displaced.data, data, held]⟩
    · obtain ⟨h, maps, free, data⟩ := copying.own other g (listed.resolve_right equal) plain held
      refine ⟨h, by rw [there other equal, maps], free, ?_⟩
      rw [displaced.data, later.data h (copying.books.mapped maps).2, data]
  · intro other g listed common held
    obtain rfl | equal := eq_or_ne other page
    · rw [frameOf_present present] at held
      rw [here, frameOf_mapping, same common, held]
    · rw [there other equal]
      exact copying.same other g (listed.resolve_right equal) common held
  · intro other listed mapped
    obtain rfl | equal := eq_or_ne other page
    · rw [here]
      exact uRead_copied
    · rw [there other equal]
      exact copying.read other (listed.resolve_right equal) mapped
  · intro other listed mapped
    obtain rfl | equal := eq_or_ne other page
    · rw [here]
      exact uWrite_copied f _
    · rw [there other equal]
      exact copying.write other (listed.resolve_right equal) mapped

theorem copyEntry_copies (copying : Copying source first shared visited dir m)
    (finite : ∀ f, (places (frameOf ∘ source.entry) f).Finite)
    (used : ∀ page f, frameOf (source.entry page) = some f → first.free f = false)
      (tabled : dir.Tabled page) (new : ¬ visited page)
    (present : Present (source.entry page)) (kind : shared page ↔ share = true) :
      Ends (fun _ => True) (copyEntry dir m page (source.entry page) share) fun result =>
      Copying source first shared (fun other => visited other ∨ other = page) result.1 result.2 := by
  have maps := frameOf_present present
  have empty := copying.unvisited page new
  unfold copyEntry
  cases share with
  | true =>
    obtain ⟨after, ran, displaced, books⟩ :=
      pageInsert_books tabled copying.books (copying.books.rest_used finite maps)
      (empty ▸ stays_zero m _) (copyPerm (source.entry page))
    refine .bind_ok ran ?_
    dsimp only
    exact copying.copied present (.refl m) rfl displaced (entry_setPte tabled _) books
      (fun plain => absurd (kind.mpr rfl) plain) fun _ => rfl
  | false =>
    obtain ⟨between, given, taken⟩ : ∃ between given, m.allocPage = (between, given) := ⟨_, _, rfl⟩
    have reserved := reserved_allocPage taken
    rw [taken]
    cases given with
    | none => trivial
    | some f =>
      have spare := copying.books.spare taken
      have free := (allocPage_some taken).1
      generalize filledIs : between.setData f (between.data (pte2page (source.entry page))) = filled
      have kept := copying.books.took reserved.toTook
      have filledBooks : Books (restOf source.entry) dir.entry filled := filledIs ▸ kept.of_swap rfl kept.frames kept.unused
      obtain ⟨after, ran, displaced, books⟩ :=
        pageInsert_books tabled filledBooks (filledIs ▸ spare.taken) (empty ▸ stays_zero filled f)
        (copyPerm (source.entry page))
      dsimp only
      rw [filledIs]
      refine .bind_ok ran ?_
      refine copying.copied present (filledIs ▸ later_setData free reserved.later _)
        (filledIs ▸ reserved.swap) displaced (entry_setPte tabled _) books
        (fun _ => ⟨copying.later.free f free, ?_⟩) fun common => absurd (kind.mp common) Bool.false_ne_true
      have usedNow := copying.books.rest_used finite maps
      rw [← filledIs]
      refine (update_self ..).trans ?_
      rw [reserved.data _ usedNow, copying.later.data _ (used page _ maps)]

def PageIn (start stop page : Nat) : Prop := start / pgSize ≤ page ∧ page < stop / pgSize

/-- What is fixed while `copy_range` goes through an area. -/
structure Walks (source : PageDir) (first : Memory) (shared base : Nat → Prop) (share : Bool)
    (begin stop : Nat) : Prop where
  finite : ∀ f, (places (frameOf ∘ source.entry) f).Finite
  used : ∀ page f, frameOf (source.entry page) = some f → first.free f = false
  aligned : begin % pgSize = 0 ∧ stop % pgSize = 0
  high : stop ≤ userTop
  kind : ∀ page, PageIn begin stop page → (shared page ↔ share = true)
  new : ∀ page, PageIn begin stop page → ¬ base page

def Reached (source : PageDir) (first : Memory) (shared base : Nat → Prop) (begin start : Nat)
    (dir : PageDir) (m : Memory) : Prop :=
  Copying source first shared (fun page => base page ∨ PageIn begin start page) dir m

theorem vpn_of_low (low : start < userTop) : vpn start = start / pgSize := by
  simp only [vpn, pgSize, userTop] at *
  omega

theorem Reached.skip {begin stop : Nat} (reached : Reached source first shared base begin start dir m)
    (further : start ≤ stop)
    (absent : ∀ page, PageIn start stop page → ¬ Present (source.entry page)) :
      Reached source first shared base begin stop dir m := by
  refine Copying.skip reached ?_ ?_
  · rintro page (old | ⟨low, high⟩) out
    · exact absurd (.inl old) out
    · refine absent page ⟨?_, high⟩
      by_contra below
      exact out (.inr ⟨low, by omega⟩)
  · rintro page (old | ⟨low, high⟩)
    · exact .inl old
    · exact .inr ⟨low, high.trans_le (Nat.div_le_div_right further)⟩

theorem copyRangeFrom_copies {begin stop fuel : Nat}
    (walks : Walks source first shared base share begin stop)
    (reached : Reached source first shared base begin start dir m)
    (aligned : start % pgSize = 0) (inside : begin ≤ start ∧ start < stop) :
      Ends (fun _ => True) (copyRangeFrom source share stop fuel dir m start) fun result =>
      result.2.2 = 0 → Reached source first shared base begin stop result.1 result.2.1 := by
  induction fuel generalizing dir m start with
  | zero =>
    unfold copyRangeFrom
    trivial
  | succ fuel ih =>
    have below := inside.2.trans_le walks.high
    have page := vpn_of_low below
    -- The rest of the walk, from any later address up to which all pages have been visited.
    have following : ∀ {dir : PageDir} {m : Memory} {address : Nat}, address % pgSize = 0 →
      start < address → (∀ stop, stop % pgSize = 0 → start < stop → stop ≤ address →
      Reached source first shared base begin stop dir m) →
        Ends (fun _ => True) (copyRangeFrom.next source share stop fuel dir m address) fun result =>
          result.2.2 = 0 → Reached source first shared base begin stop result.1 result.2.1 := by
      intro dir m address whole further reached
      unfold copyRangeFrom.next
      split
      · next more => exact ih (reached address whole further le_rfl) whole ⟨by omega, more.2⟩
      · next done =>
        have beyond : stop ≤ address := by omega
        exact fun _ => reached stop walks.aligned.2 inside.2 beyond
    unfold copyRangeFrom
    dsimp only
    split
    · next untabled =>
      refine following ?_ ?_ ?_
      · simp only [ptSize, nPteEntry, pgSize] at *
        omega
      · simp only [ptSize, nPteEntry, pgSize] at *
        omega
      intro stop _ further high
      refine reached.skip further.le ?_
      rintro other ⟨low, top⟩ present
      have table : pmx other = pmx (vpn start) := by
        simp only [pmx, ptSize, nPteEntry, pgSize] at *
        omega
      have tabled : source.Tabled other := by
        by_contra missing
        rw [PageDir.entry, if_neg missing] at present
        exact not_present_zero present
      have above : pgx other = pgx (vpn start) := congrArg (· / nPteEntry) table
      rw [PageDir.Tabled, table, above] at tabled
      exact untabled tabled
    · next tabled =>
      have tabled := not_not.mp tabled
      have entry := entry_of_tabled tabled
      rw [← entry]
      split
      · next present =>
        obtain ⟨between, middle, ok, found, walk⟩ := getPte_walk dir m (vpn start)
        rw [found]
        cases ok with
        | false => exact fun zero => absurd zero (show -eNoMem ≠ 0 by decide)
        | true =>
          have here : PageIn begin stop (vpn start) := by
            simp only [PageIn, pgSize] at *
            have bounds := walks.aligned
            simp only [pgSize] at bounds
            omega
          have new : ¬ (base (vpn start) ∨ PageIn begin start (vpn start)) := by
            rintro (old | ⟨_, high⟩)
            · exact walks.new _ here old
            · omega
          refine (copyEntry_copies (Copying.walked reached walk) walks.finite walks.used
            (walk.tabled rfl) new present (walks.kind _ here)).bind ?_
          rintro ⟨next, after⟩ copied
          refine following ?_ ?_ ?_
          · rw [Nat.add_mod_right, aligned]
          · simp only [pgSize]
            omega
          intro stop whole further high
          refine Copying.skip copied ?_ ?_
          · rintro other (old | ⟨low, top⟩) out
            · exact absurd (.inl (.inl old)) out
            · refine absurd ?_ out
              simp only [PageIn, pgSize] at *
              omega
          · rintro other ((old | ⟨low, top⟩) | rfl)
            · exact .inl old
            · exact .inr ⟨low, top.trans_le (Nat.div_le_div_right further.le)⟩
            · refine .inr ⟨here.1, ?_⟩
              simp only [pgSize] at *
              omega
      · next absent =>
        refine following ?_ ?_ ?_
        · rw [Nat.add_mod_right, aligned]
        · simp only [pgSize]
          omega
        intro stop whole further high
        refine reached.skip further.le ?_
        rintro other ⟨low, top⟩
        have equal : other = vpn start := by
          simp only [pgSize] at *
          omega
        rwa [equal]

theorem copyArea_copies {vma : Vma} (copying : Copying source first shared base dir m)
    (walks : Walks source first shared base (decide (vma.vmFlags &&& vmShare ≠ 0)) vma.vmStart vma.vmEnd) :
    Ends (fun _ => True) (copyArea source (dir, m) vma) fun result =>
      result.2 = 0 → Copying source first shared
        (fun page => base page ∨ PageIn vma.vmStart vma.vmEnd page) result.1.1 result.1.2 := by
  have reached : Reached source first shared base vma.vmStart vma.vmStart dir m := by
    refine Copying.skip copying ?_ fun page => .inl
    rintro page (old | ⟨low, high⟩) out
    · exact absurd old out
    · omega
  have walked : Ends (fun _ => True)
    (copyRange dir source m vma.vmStart vma.vmEnd (decide (vma.vmFlags &&& vmShare ≠ 0)))
    fun result =>
      result.2.2 = 0 → Reached source first shared base vma.vmStart vma.vmEnd result.1 result.2.1 := by
    rw [copyRange, ensure_bind, ensure_bind]
    split
    · split
      · next access => exact copyRangeFrom_copies walks reached walks.aligned.1 ⟨le_rfl, access.2.1⟩
      · trivial
    · trivial
  exact walked.bind fun result copied => copied

theorem ends_trivial {α : Type} (result : Kernel α) : Ends (fun _ => True) result fun _ => True := by
  cases result with
  | error | ok => trivial

theorem dupVmas_state {σ : Type} {copy : σ → Vma → Kernel (σ × Int)} {inv : List Vma → σ → Prop} {all : List Vma}
    (steps : ∀ done vma later s, all = done ++ vma :: later → inv done s →
      Ends (fun _ => True) (copy s vma) fun result => result.2 = 0 → inv (done ++ [vma]) result.1)
    (areas done : List Vma) (allocs : List Alloc) (mm : MmStruct) (s : σ) (parts : all = done ++
      areas) (holds : inv done s) : Ends (fun _ => True) (dupVmas copy areas allocs mm s)
      fun result => result.2.2 = 0 → inv all result.2.1 := by
  have stopped : ∀ (mm : MmStruct) (s : σ), Ends (fun _ => True)
    (pure (mm, s, -eNoMem) : Kernel (MmStruct × σ × Int)) fun result =>
      result.2.2 = 0 → inv all result.2.1 := fun _ _ zero => absurd zero (show -eNoMem ≠ 0 by decide)
  induction areas generalizing done allocs mm s with
  | nil =>
    rw [append_nil] at parts
    exact fun _ => parts ▸ holds
  | cons vma rest ih =>
    cases allocs with
    | nil => exact stopped mm s
    | cons alloc allocs =>
      unfold dupVmas
      cases alloc.vma with
      | none => exact stopped mm s
      | some =>
        refine (ends_trivial _).bind fun made _ => (ends_trivial _).bind fun inserted _ => ?_
        refine (steps done vma rest s parts holds).bind ?_
        rintro ⟨s, ret⟩ copied
        dsimp only
        split
        · exact stopped _ _
        · next failed =>
          refine ih (done ++ [vma]) allocs inserted s ?_ (copied (not_not.mp failed))
          rw [parts, append_assoc]
          rfl

def PagesOf (areas : List Vma) (page : Nat) : Prop := ∃ vma ∈ areas, PageIn vma.vmStart vma.vmEnd page

theorem PageIn.apart (left : Fine a.span) (right : Fine b.span) (apart : a.span.Apart b.span)
    (inside : PageIn a.vmStart a.vmEnd page) : ¬ PageIn b.vmStart b.vmEnd page := by
  simp only [Fine, Span.Apart, Vma.span, PageIn, pgSize] at *
  omega

theorem PageIn.unique (fine : ∀ vma ∈ areas, Fine vma.span) (apart : areas.Pairwise fun a b => a.span.Apart b.span)
    (left : a ∈ areas) (right : b ∈ areas) (first : PageIn a.vmStart a.vmEnd page)
      (second : PageIn b.vmStart b.vmEnd page) : a = b := by
  by_contra different
  have symmetric : Std.Symm fun a b : Vma => a.span.Apart b.span := ⟨fun _ _ => Span.Apart.symm⟩
  exact first.apart (fine a left) (fine b right) (apart.forall left right different) second

theorem dupVmas_copies (finite : ∀ f, (places (frameOf ∘ source.entry) f).Finite) (used : ∀ page f,
    frameOf (source.entry page) = some f → m.free f = false)
    (fine : ∀ vma ∈ areas, Fine vma.span) (apart : areas.Pairwise fun a b => a.span.Apart b.span)
      (books : Books (restOf source.entry) dir.entry m) (blank : ∀ page, dir.entry page = 0)
      (allocs : List Alloc) (mm : MmStruct) :
    Ends (fun _ => True) (dupVmas (copyArea source) areas allocs mm (dir, m)) fun result =>
      result.2.2 = 0 → Copying source m
      (PagesOf (areas.filter fun vma => vma.vmFlags &&& vmShare ≠ 0)) (PagesOf areas) result.2.1.1
      result.2.1.2 := by
  refine @dupVmas_state _ (copyArea source)
    (fun done s => Copying source m (PagesOf (areas.filter fun vma => vma.vmFlags &&& vmShare ≠ 0))
    (PagesOf done) s.1 s.2) areas ?_ areas [] allocs mm (dir, m) rfl ?_
  · rintro done vma later ⟨dir, between⟩ parts copying
    have member : vma ∈ areas := by simp [parts]
    obtain ⟨first, last, _, _, high⟩ := fine vma member
    have walks : Walks source m (PagesOf (areas.filter fun vma => vma.vmFlags &&& vmShare ≠ 0))
      (PagesOf done) (decide (vma.vmFlags &&& vmShare ≠ 0)) vma.vmStart vma.vmEnd := by
      refine ⟨finite, used, ⟨first, last⟩, high, ?_, ?_⟩
      · intro page inside
        constructor
        · rintro ⟨other, listed, there⟩
          obtain ⟨among, shares⟩ := mem_filter.mp listed
          rwa [PageIn.unique fine apart member among inside there]
        · exact fun shares => ⟨vma, mem_filter.mpr ⟨member, shares⟩, inside⟩
      · rintro page inside ⟨other, listed, there⟩
        have among := parts ▸ mem_append_left _ listed
        have away : other.span.Apart vma.span := by
          rw [parts, pairwise_append] at apart
          exact apart.2.2 other listed vma mem_cons_self
        exact there.apart (fine other among) (fine vma member) away inside
    refine (copyArea_copies copying walks).mono fun result copied zero => (copied zero).skip ?_ ?_
    · rintro page ⟨other, listed, inside⟩ out
      rcases mem_append.mp listed with old | new
      · exact absurd (.inl ⟨other, old, inside⟩) out
      · cases mem_singleton.mp new
        exact absurd (.inr inside) out
    · rintro page (⟨other, listed, inside⟩ | inside)
      · exact ⟨other, mem_append_left _ listed, inside⟩
      · exact ⟨vma, by simp, inside⟩
  · have nothing : ∀ page, ¬ PagesOf [] page := by
      rintro page ⟨vma, never, _⟩
      cases never
    exact ⟨.refl m, rfl, rfl, books, fun page _ => blank page, fun page _ => blank page,
      fun page _ never => absurd never (nothing page),
      fun page _ never => absurd never (nothing page), fun page never =>
        absurd never (nothing page), fun page never => absurd never (nothing page)⟩

end Ucore.Pmm
