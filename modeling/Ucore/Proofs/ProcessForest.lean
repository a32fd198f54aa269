import Ucore.Proofs.ThreadRings

/-! The structures that processes are linked into agree after every call. What they hold is
given by lists, and every operation on the pointers is the obvious one on the lists. -/

namespace Ucore.Forest
open Lib Pid Function

variable {last : Nat} {s t : State} {p q : ProcId}

/-- The children of each process, the list of all processes and the buckets of the hash table. -/
structure View where
  kids : ProcId → List ProcId
  procs : List ProcId
  bucket : Nat → List HashEntry

structure Shows (last : Nat) (s : State) (v : View) : Prop where
  family : s.family.Represents v.kids
  kin : ∀ q, q ∈ v.procs ↔ ∃ p, q ∈ v.kids p
  living : ∀ p, v.kids p ≠ [] → Alive s p
  list : s.procList.Circle none (v.procs.map some)
  listed : ∀ q, q ∈ v.procs ↔ last < q ∧ (s.tasks q).life ≠ .free
  hash : s.hashList.Table .bucket v.bucket
  hashed : ∀ b e, e ∈ v.bucket b ↔ ∃ q ∈ v.procs, e = .link q ∧ pidHashfn (s.tasks q).pid = b
  pids : ∀ q ∈ v.procs, 0 < (s.tasks q).pid ∧ (s.tasks q).pid < maxPid
  unique : ∀ q ∈ v.procs, ∀ r ∈ v.procs, (s.tasks q).pid = (s.tasks r).pid → q = r
  idle : ∀ q, q ≤ last → Alive s q ∧ s.family.parent q = none
  count : s.nrProcess = v.procs.length + (last + 1)
  rings : Rings s
  groups : ∀ q, (s.tasks q).life ≠ .free → (s.tasks q).group < s.groups

namespace Shows
variable {v : View} (shows : Shows last s v)
include shows

theorem distinct : v.procs.Nodup := (List.nodup_cons.mp shows.list.distinct).2.of_map

theorem few_kids (p : ProcId) : (v.kids p).length ≤ s.nrProcess := by
  have inside : v.kids p ⊆ v.procs := fun q kid => (shows.kin q).mpr ⟨p, kid⟩
  have short := (List.subperm_of_subset (shows.family.distinct p) inside).length_le
  rw [shows.count]
  omega

theorem childList_eq (p : ProcId) : childList s p = v.kids p := by
  rw [childList, (shows.family.holds p).first, (shows.family.holds p).chain.walk (shows.few_kids p)]

theorem walk_bucket (b : Nat) : s.hashList.walk (.bucket b) s.nrProcess (.bucket b) = v.bucket b := by
  have circle := shows.hash.circle b
  refine circle.walk ?_
  have inside : v.bucket b ⊆ v.procs.map HashEntry.link := by
    intro e listed
    obtain ⟨q, known, rfl, _⟩ := (shows.hashed b e).mp listed
    exact List.mem_map_of_mem known
  have short := (List.subperm_of_subset (List.nodup_cons.mp circle.distinct).2 inside).length_le
  rw [List.length_map] at short
  rw [shows.count]
  omega

theorem findProc_iff (pid : Nat) (q : ProcId) : findProc s pid = some q ↔ q ∈ v.procs ∧ (s.tasks q).pid = pid := by
  have members : ∀ b r, r ∈ (v.bucket b).filterMap HashEntry.proc ↔ r ∈ v.procs ∧ pidHashfn (s.tasks r).pid = b := by
    intro b r
    rw [List.mem_filterMap]
    constructor
    · rintro ⟨e, listed, names⟩
      obtain ⟨q, known, rfl, place⟩ := (shows.hashed b e).mp listed
      cases names
      exact ⟨known, place⟩
    · rintro ⟨known, place⟩
      exact ⟨.link r, (shows.hashed b _).mpr ⟨r, known, rfl, place⟩, rfl⟩
  unfold findProc
  simp only [shows.walk_bucket]
  constructor
  · intro found
    split at found
    · have listed := (members _ q).mp (List.mem_of_find?_eq_some found)
      exact ⟨listed.1, by simpa using List.find?_some found⟩
    · cases found
  · rintro ⟨known, rfl⟩
    rw [if_pos (shows.pids q known)]
    cases found : ((v.bucket (pidHashfn (s.tasks q).pid)).filterMap HashEntry.proc).find? fun r =>
      (s.tasks r).pid = (s.tasks q).pid with
    | none =>
      have missed := List.find?_eq_none.mp found q ((members _ q).mpr ⟨known, rfl⟩)
      simp at missed
    | some r =>
      have listed := (members _ r).mp (List.mem_of_find?_eq_some found)
      rw [shows.unique r listed.1 q known (by simpa using List.find?_some found)]

theorem linked : Linked s (last + 1) := by
  refine ⟨fun p _ => ⟨v.kids p, shows.family.holds p, shows.family.distinct p, fun q =>
    ⟨fun kid => ?_, ?_⟩⟩, ?_, shows.rings⟩
  · have known := (shows.listed q).mp ((shows.kin q).mpr ⟨p, kid⟩)
    exact ⟨known.2, shows.family.parent p q kid⟩
  · rintro ⟨taken, isParent⟩
    by_cases early : q ≤ last
    · rw [(shows.idle q early).2] at isParent
      cases isParent
    obtain ⟨r, kid⟩ := (shows.kin q).mp ((shows.listed q).mpr ⟨not_le.mp early, taken⟩)
    rw [shows.family.parent r q kid] at isParent
    cases isParent
    exact kid
  · exact ⟨v.procs, shows.list, shows.findProc_iff, shows.count⟩

theorem absent {child : ProcId} (free : (s.tasks child).life = .free) : child ∉ v.procs ∧
    (∀ p, child ∉ v.kids p) ∧ v.kids child = [] ∧ last < child ∧ ∀ b,
    HashEntry.link child ∉ HashEntry.bucket b :: v.bucket b := by
  have unlisted : child ∉ v.procs := fun known => ((shows.listed child).mp known).2 free
  refine ⟨unlisted, fun p kid => unlisted ((shows.kin child).mpr ⟨p, kid⟩), ?_, ?_, fun b listed => ?_⟩
  · by_contra some
    have alive := shows.living child some
    rw [Alive, free] at alive
    cases alive
  · by_contra early
    have alive := (shows.idle child (not_lt.mp early)).1
    rw [Alive, free] at alive
    cases alive
  · rcases List.mem_cons.mp listed with wrong | listed
    · cases wrong
    · obtain ⟨q, known, same, _⟩ := (shows.hashed b _).mp listed
      cases same
      exact unlisted known

end Shows

section Fork
variable {child : ProcId} {pid : Nat} {thread : Bool}

def View.fork (v : View) (p child : ProcId) (pid : Nat) : View where
  kids := update v.kids p (child :: v.kids p)
  procs := child :: v.procs
  bucket := update v.bucket (pidHashfn pid) (.link child :: v.bucket (pidHashfn pid))

def forked (s : State) (p child : ProcId) (pid : Nat) (thread : Bool) : State where
  tasks := update s.tasks child ⟨.alive, pid, if thread then (s.tasks p).group else s.groups⟩
  family := (s.family.clear child).adopt p child
  procList := s.procList.addAfter none (some child)
  hashList := s.hashList.addAfter (.bucket (pidHashfn pid)) (.link child)
  threadGroup := if thread then (s.threadGroup.init child).addBefore p child else s.threadGroup.init child
  nrProcess := s.nrProcess + 1
  groups := s.groups + 1

theorem doFork_eq (room : s.nrProcess < maxProcess) :
    doFork s p child pid thread = (forked s p child pid thread, (pid : Int)) := by
  rw [doFork, if_neg (by omega)]
  cases thread <;> simp [forked, Forest.allocProc, setLinks, hashProc]

@[simp] theorem forked_tasks_child : (forked s p child pid thread).tasks child = ⟨.alive, pid,
    if thread then (s.tasks p).group else s.groups⟩ := update_self ..

theorem forked_tasks_other (other : q ≠ child) : (forked s p child pid thread).tasks q = s.tasks q := update_of_ne other ..

theorem View.mem_kids_fork {v : View} (r q : ProcId) : q ∈ (v.fork p child pid).kids r ↔ q = child ∧
    r = p ∨ q ∈ v.kids r := by
  obtain rfl | same := eq_or_ne r p
  · simp [View.fork]
  · simp [View.fork, same]

theorem View.mem_bucket_fork {v : View} (b : Nat) (e : HashEntry) :
    e ∈ (v.fork p child pid).bucket b ↔ e = .link child ∧ b = pidHashfn pid ∨ e ∈ v.bucket b := by
  by_cases same : b = pidHashfn pid
  · subst same
    simp [View.fork]
  · simp [View.fork, same]

theorem Alive.fork (alive : Alive s q) : Alive (doFork s p child pid thread).1 q := by
  by_cases room : s.nrProcess < maxProcess
  · rw [doFork_eq room]
    by_cases new : q = child
    · simp [Alive, new]
    · rwa [Alive, forked_tasks_other new]
  · rwa [doFork, if_pos (not_lt.mp room)]

theorem Shows.fork {v : View} (shows : Shows last s v)
    (allowed : Allowed last s (.fork p child pid thread)) :
    ∃ w, Shows last (doFork s p child pid thread).1 w := by
  obtain ⟨alive, free, positive, small, fresh⟩ := allowed
  by_cases room : s.nrProcess < maxProcess
  · obtain ⟨unlisted, foreign, childless, late, unhashed⟩ := shows.absent free
    have dead : ¬ Alive s child := by simp [Alive, free]
    have apart : ∀ {q}, q ∈ v.procs → q ≠ child := fun known same => unlisted (same ▸ known)
    have represents := shows.family.clear foreign childless
    refine ⟨v.fork p child pid, ?_⟩
    rw [doFork_eq room]
    constructor
    case family => exact represents.adopt p child foreign
    case kin =>
      intro q
      simp only [View.mem_kids_fork]
      rw [View.fork, List.mem_cons, shows.kin q]
      constructor
      · rintro (rfl | ⟨r, kid⟩)
        · exact ⟨p, .inl ⟨rfl, rfl⟩⟩
        · exact ⟨r, .inr kid⟩
      · rintro ⟨r, ⟨rfl, _⟩ | kid⟩
        · exact .inl rfl
        · exact .inr ⟨r, kid⟩
    case living =>
      intro r some
      by_cases new : r = child
      · simp [Alive, new]
      rw [Alive, forked_tasks_other new]
      by_cases same : r = p
      · exact same ▸ alive
      · refine shows.living r fun none => some ?_
        simp [View.fork, same, none]
    case list => exact shows.list.addAfter (by simpa using unlisted)
    case listed =>
      intro q
      by_cases new : q = child
      · simp [View.fork, new, late]
      · simp [View.fork, new, forked_tasks_other new, shows.listed q]
    case hash => exact shows.hash.addAfter (pidHashfn pid) unhashed
    case hashed =>
      intro b e
      rw [View.mem_bucket_fork, shows.hashed b e]
      constructor
      · rintro (⟨rfl, rfl⟩ | ⟨q, known, rfl, place⟩)
        · exact ⟨child, List.mem_cons_self, rfl, by simp⟩
        · exact ⟨q, List.mem_cons_of_mem _ known, rfl, by simpa [forked_tasks_other (apart known)] using place⟩
      · rintro ⟨q, known, rfl, place⟩
        rcases List.mem_cons.mp known with rfl | known
        · exact .inl ⟨rfl, by simpa using place.symm⟩
        · exact .inr ⟨q, known, rfl, by simpa [forked_tasks_other (apart known)] using place⟩
    case pids =>
      intro q known
      rcases List.mem_cons.mp known with rfl | known
      · simpa using ⟨positive, small⟩
      · simpa [forked_tasks_other (apart known)] using shows.pids q known
    case unique =>
      have other : ∀ q ∈ v.procs, (s.tasks q).pid ≠ pid :=
        fun q known => fresh q ((shows.listed q).mp known).1 ((shows.listed q).mp known).2
      intro q left r right same
      rcases List.mem_cons.mp left with rfl | here <;> rcases List.mem_cons.mp right with rfl | there
      · rfl
      · exact absurd (by simpa [forked_tasks_other (apart there)] using same.symm) (other r there)
      · exact absurd (by simpa [forked_tasks_other (apart here)] using same) (other q here)
      · exact shows.unique q here r there
          (by simpa [forked_tasks_other (apart here), forked_tasks_other (apart there)] using same)
    case idle =>
      intro q early
      have old : q ≠ child := fun same => not_lt.mpr early (same ▸ late)
      rw [Alive, forked_tasks_other old, forked, Family.parent_adopt, if_neg old, Family.parent_clear _ _ old]
      exact shows.idle q early
    case count =>
      have count := shows.count
      simp only [View.fork, forked, List.length_cons]
      omega
    case rings =>
      cases thread with
      | true => exact shows.rings.newThread rfl (fun q => forked_tasks_other) forked_tasks_child dead alive
      | false =>
        refine shows.rings.newGroup rfl (fun q => forked_tasks_other) forked_tasks_child dead fun q also => ?_
        exact Nat.ne_of_lt (shows.groups q (by rw [also]; decide))
    case groups =>
      intro q taken
      obtain rfl | new := eq_or_ne q child
      · have own := shows.groups p (by rw [alive]; decide)
        cases thread
        · simp [forked]
        · simpa [forked] using Nat.lt_succ_of_lt own
      · rw [forked_tasks_other new] at taken ⊢
        exact Nat.lt_succ_of_lt (shows.groups q taken)
  · refine ⟨v, ?_⟩
    rwa [doFork, if_pos (not_lt.mp room)]

end Fork

section Exit

def heir (last : Nat) (s : State) (p : ProcId) : ProcId :=
  if s.threadGroup.next p = p then initproc last else s.threadGroup.next p

theorem Rings.heir (rings : Rings s) (alive : Alive s p) (init : Alive s (initproc last))
    (other : p ≠ initproc last) : Alive s (heir last s p) ∧ p ≠ heir last s p := by
  unfold Forest.heir
  split
  · exact ⟨init, other⟩
  · next company =>
    obtain ⟨ring, circle, members⟩ := rings p alive
    exact ⟨((members _).mp circle.neighbours.1).1, Ne.symm company⟩

theorem mem_handed {kids : ProcId → List ProcId} {source target : ProcId} (other : source ≠ target)
    (r q : ProcId) : q ∈ Family.handed kids source target r ↔ r ≠ source ∧ q ∈ kids r ∨ r = target ∧
    q ∈ kids source := by
  obtain rfl | here := eq_or_ne r target
  · simp [Family.handed, Ne.symm other, or_comm]
  · obtain rfl | there := eq_or_ne r source
    · simp [Family.handed, here]
    · simp [Family.handed, here, there]

variable {v : View} {family : Family ProcId}

def exited (s : State) (p : ProcId) (family : Family ProcId) : State :=
  { s with
    tasks := update s.tasks p { s.tasks p with life := .zombie }
    threadGroup := (deThread s p).threadGroup
    family }

@[simp] theorem exited_tasks_self : (exited s p family).tasks p = { s.tasks p with life := .zombie } := update_self ..

theorem exited_tasks_other (other : q ≠ p) : (exited s p family).tasks q = s.tasks q := update_of_ne other ..

@[simp] theorem exited_pid (q : ProcId) : ((exited s p family).tasks q).pid = (s.tasks q).pid := by
  obtain rfl | same := eq_or_ne q p
  · simp
  · rw [exited_tasks_other same]

@[simp] theorem exited_group (q : ProcId) : ((exited s p family).tasks q).group = (s.tasks q).group := by
  obtain rfl | same := eq_or_ne q p
  · simp
  · rw [exited_tasks_other same]

theorem exited_free (alive : Alive s p) (q : ProcId) : ((exited s p family).tasks q).life = .free ↔
    (s.tasks q).life = .free := by
  obtain rfl | same := eq_or_ne q p
  · rw [alive]
    simp
  · rw [exited_tasks_other same]

theorem doExit_eq (late : last < p) (other : p ≠ initproc last)
    (handed : s.family.handOver p (heir last s p) s.nrProcess = some family) :
    doExit last s p = .ok (exited s p family) := by
  rw [doExit, if_neg (not_le.mpr late), if_neg other]
  unfold heir at handed
  by_cases alone : s.threadGroup.next p = p
  · rw [if_pos alone] at handed
    simp only [exited, setTask, deThread, alone, if_true, handed]
    rfl
  · rw [if_neg alone] at handed
    simp only [exited, setTask, deThread, alone, if_false, handed]
    rfl

theorem Shows.exit (shows : Shows last s v) (alive : Alive s p) (init : Alive s (initproc last))
    (late : last < p) (other : p ≠ initproc last) : ∃ t w, doExit last s p = .ok t ∧
    Shows last t w ∧ Alive t (initproc last) := by
  obtain ⟨lives, apart⟩ := shows.rings.heir alive init other
  obtain ⟨family, handed, represents, parents⟩ := shows.family.handOver apart (shows.few_kids p)
  refine ⟨exited s p family, ⟨Family.handed v.kids p (heir last s p), v.procs, v.bucket⟩,
    doExit_eq late other handed, ?_, ?_⟩
  · constructor
    case family => exact represents
    case kin =>
      intro q
      simp only [mem_handed apart, shows.kin q]
      constructor
      · rintro ⟨r, kid⟩
        by_cases same : r = p
        · exact ⟨heir last s p, .inr ⟨rfl, same ▸ kid⟩⟩
        · exact ⟨r, .inl ⟨same, kid⟩⟩
      · rintro ⟨r, ⟨_, kid⟩ | ⟨_, kid⟩⟩
        · exact ⟨r, kid⟩
        · exact ⟨p, kid⟩
    case living =>
      intro r some
      obtain ⟨q, kid⟩ := List.exists_mem_of_ne_nil _ some
      rcases (mem_handed apart r q).mp kid with ⟨away, kid⟩ | ⟨rfl, _⟩
      · rw [Alive, exited_tasks_other away]
        exact shows.living r (List.ne_nil_of_mem kid)
      · rwa [Alive, exited_tasks_other (Ne.symm apart)]
    case list => exact shows.list
    case listed => simpa [exited_free alive] using shows.listed
    case hash => exact shows.hash
    case hashed => simpa using shows.hashed
    case pids => simpa using shows.pids
    case unique => simpa using shows.unique
    case idle =>
      intro q early
      have before : q ≠ p := fun same => not_lt.mpr early (same ▸ late)
      rw [Alive, exited_tasks_other before, exited, parents q fun kid =>
        not_lt.mpr early ((shows.listed q).mp ((shows.kin q).mpr ⟨p, kid⟩)).1]
      exact shows.idle q early
    case count => exact shows.count
    case rings => exact shows.rings.leave alive rfl (fun q => exited_tasks_other) (by simp [Alive])
    case groups =>
      intro q taken
      rw [exited_group]
      exact shows.groups q fun free => taken ((exited_free alive q).mpr free)
  · rwa [Alive, exited_tasks_other (Ne.symm other)]

end Exit

section Wait
variable {v : View}

theorem Shows.search_found (shows : Shows last s v) {pid : Nat} (found : search s p pid = .found q) :
    q ∈ v.procs ∧ (s.tasks q).life = .zombie := by
  unfold search at found
  split at found
  · split at found
    · cases found
    · next r known =>
      split at found
      · split at found
        · next zombie =>
          cases found
          exact ⟨((shows.findProc_iff pid q).mp known).1, zombie⟩
        · cases found
      · cases found
  · simp only at found
    split at found
    · next r first =>
      cases found
      have listed := List.mem_of_find?_eq_some first
      obtain ⟨thread, _, kid⟩ := List.mem_flatMap.mp listed
      rw [shows.childList_eq] at kid
      exact ⟨(shows.kin q).mpr ⟨thread, kid⟩, by simpa using List.find?_some first⟩
    · split at found <;> cases found

def reaped (s : State) (parent q : ProcId) : State :=
  { s with
    tasks := update s.tasks q { s.tasks q with life := .free }
    hashList := s.hashList.del (.link q)
    procList := s.procList.del (some q)
    family := s.family.disown parent q
    nrProcess := s.nrProcess - 1 }

theorem reaped_tasks_other {parent r : ProcId} (other : r ≠ q) :
    (reaped s parent q).tasks r = s.tasks r := update_of_ne other ..

def View.reap (v : View) (parent q : ProcId) (pid : Nat) : View where
  kids := update v.kids parent ((v.kids parent).erase q)
  procs := v.procs.erase q
  bucket := update v.bucket (pidHashfn pid) ((v.bucket (pidHashfn pid)).erase (.link q))

theorem mem_update_erase {α β : Type} [DecidableEq α] [DecidableEq β] {lists : β → List α} {b : β}
    {e : α} (distinct : (lists b).Nodup)
    (only : ∀ c, e ∈ lists c → c = b) (c : β) (d : α) : d ∈ update lists b ((lists b).erase e) c ↔ d ≠ e ∧ d ∈ lists c := by
  obtain rfl | same := eq_or_ne c b
  · rw [update_self, distinct.mem_erase_iff]
  rw [update_of_ne same]
  refine ⟨fun listed => ⟨?_, listed⟩, And.right⟩
  rintro rfl
  exact same (only c listed)

theorem erase_map_some (list : List ProcId) (q : ProcId) : @List.erase _ instBEqOfDecidableEq
    (list.map some) (some q) = (list.erase q).map some := by
  induction list with
  | nil => rfl
  | cons first rest ih =>
    by_cases same : first = q
    · simp [same]
    · simp [same, ih]

theorem Shows.reap (shows : Shows last s v) (zombie : (s.tasks q).life = .zombie) {parent : ProcId}
    (kid : q ∈ v.kids parent) : Shows last (reaped s parent q)
    (v.reap parent q (s.tasks q).pid) := by
  have known := (shows.kin q).mpr ⟨parent, kid⟩
  have late := ((shows.listed q).mp known).1
  have mem : ∀ r, r ∈ (v.reap parent q (s.tasks q).pid).procs ↔ r ≠ q ∧ r ∈ v.procs := fun r => shows.distinct.mem_erase_iff
  have kids : ∀ p r, r ∈ (v.reap parent q (s.tasks q).pid).kids p ↔ r ≠ q ∧ r ∈ v.kids p :=
    mem_update_erase (shows.family.distinct parent) fun p also => shows.family.apart also kid
  have place := (shows.hashed _ _).mpr ⟨q, known, rfl, rfl⟩
  have entries : ∀ b e, e ∈ (v.reap parent q (s.tasks q).pid).bucket b ↔ e ≠ .link q ∧ e ∈ v.bucket b := by
    refine mem_update_erase (List.nodup_cons.mp (shows.hash.circle _).distinct).2 fun b also => ?_
    exact shows.hash.apart b _ _ (List.mem_cons_of_mem _ also) (List.mem_cons_of_mem _ place)
  have gone : ¬ Alive s q := by simp [Alive, zombie]
  constructor
  case family => exact shows.family.disown kid
  case kin => simp [mem, kids, shows.kin]
  case living =>
    intro p some
    obtain ⟨r, left⟩ := List.exists_mem_of_ne_nil _ some
    have alive := shows.living p (List.ne_nil_of_mem ((kids p r).mp left).2)
    have apart : p ≠ q := fun same => gone (same ▸ alive)
    rwa [Alive, reaped_tasks_other apart]
  case list =>
    have short := shows.list.del (List.mem_map_of_mem known)
    rwa [erase_map_some] at short
  case listed =>
    intro r
    rw [mem, shows.listed]
    by_cases same : r = q
    · simp [same, reaped]
    · simp [same, reaped_tasks_other same]
  case hash => exact shows.hash.del place
  case hashed =>
    intro b e
    rw [entries, shows.hashed]
    constructor
    · rintro ⟨other, r, inside, rfl, bucket⟩
      have apart : r ≠ q := fun same => other (congrArg _ same)
      exact ⟨r, (mem r).mpr ⟨apart, inside⟩, rfl, by rwa [reaped_tasks_other apart]⟩
    · rintro ⟨r, inside, rfl, bucket⟩
      obtain ⟨apart, inside⟩ := (mem r).mp inside
      rw [reaped_tasks_other apart] at bucket
      exact ⟨by simpa using apart, r, inside, rfl, bucket⟩
  case pids =>
    intro r inside
    obtain ⟨apart, inside⟩ := (mem r).mp inside
    rw [reaped_tasks_other apart]
    exact shows.pids r inside
  case unique =>
    intro r left u right
    obtain ⟨apart, left⟩ := (mem r).mp left
    obtain ⟨away, right⟩ := (mem u).mp right
    rw [reaped_tasks_other apart, reaped_tasks_other away]
    exact shows.unique r left u right
  case idle =>
    intro r early
    have before : r ≠ q := fun same => not_lt.mpr early (same ▸ late)
    rw [Alive, reaped_tasks_other before, reaped, Family.parent_disown]
    exact shows.idle r early
  case count =>
    have positive := List.length_pos_of_mem known
    have count := shows.count
    simp only [reaped, View.reap, List.length_erase_of_mem known]
    omega
  case rings => exact shows.rings.bury rfl (fun r => reaped_tasks_other) gone (by simp [Alive, reaped])
  case groups =>
    intro r taken
    have apart : r ≠ q := by
      rintro rfl
      simp [reaped] at taken
    rw [reaped_tasks_other apart] at taken ⊢
    exact shows.groups r taken

theorem Shows.wait (shows : Shows last s v) (init : Alive s (initproc last)) (p : ProcId)
    (pid : Nat) : ∃ t reply, doWait last s p pid = .ok (t, reply) ∧ (∃ w, Shows last t w) ∧
    Alive t (initproc last) := by
  unfold doWait
  split
  · next q found =>
    obtain ⟨known, zombie⟩ := shows.search_found found
    obtain ⟨parent, kid⟩ := (shows.kin q).mp known
    have other : q ≠ initproc last := by
      rintro rfl
      cases init.symm.trans zombie
    have proper := not_or.mpr ⟨not_le.mpr ((shows.listed q).mp known).1, other⟩
    refine ⟨reaped s parent q, .reaped (s.tasks q).pid, ?_, ⟨_, shows.reap zombie kid⟩, ?_⟩
    · rw [if_neg proper]
      simp only [removeLinks, unhashProc, shows.family.parent parent q kid]
      rfl
    · rwa [Alive, reaped_tasks_other (Ne.symm other)]
  all_goals exact ⟨s, _, rfl, ⟨v, shows⟩, init⟩

end Wait

section Start

theorem shows_idle (last : Nat) : Shows last (idle last) ⟨fun _ => [], [], fun _ => []⟩ := by
  have alive : ∀ q, Alive (idle last) q ↔ q ≤ last := by
    intro q
    by_cases early : q ≤ last <;> simp [Alive, idle, early]
  constructor
  case family => exact ⟨fun p => ⟨rfl, trivial⟩, fun p => List.nodup_nil, by simp⟩
  case list => exact ⟨⟨rfl, rfl⟩, by simp⟩
  case listed =>
    intro q
    by_cases early : q ≤ last <;> simp [idle, early]
  case hash =>
    refine ⟨fun b => ⟨⟨rfl, rfl⟩, by simp⟩, fun b c e left right => ?_⟩
    rw [List.mem_singleton] at left right
    injection left.symm.trans right
  case idle => exact fun q early => ⟨(alive q).mpr early, rfl⟩
  case count => simp [idle]
  case rings =>
    intro p here
    refine ⟨[], ⟨⟨rfl, rfl⟩, by simp⟩, fun q => ?_⟩
    rw [SameGroup, alive, List.mem_singleton]
    by_cases early : q ≤ last
    · simp [idle, early, (alive p).mp here]
    · simp only [early, false_and, iff_false]
      rintro rfl
      exact early ((alive q).mp here)
  case groups =>
    intro q taken
    by_cases early : q ≤ last
    · simpa only [idle, early, if_true] using Nat.lt_succ_of_le early
    · simp [idle, early] at taken
  all_goals simp

theorem shows_boot (few : last + 2 < maxProcess) : (∃ v, Shows last (boot last) v) ∧ Alive (boot last) (initproc last) := by
  have room : (idle last).nrProcess < maxProcess := by
    simp only [idle]
    omega
  refine ⟨(shows_idle last).fork ⟨?_, ?_, ?_, ?_, ?_⟩, ?_⟩
  · simp [idle]
  · simp [idle, initproc, not_le.mpr (Nat.lt_succ_self last)]
  · simp [initproc]
  · simp only [initproc, maxPid]
    omega
  · intro q late taken
    simp [idle, not_le.mpr late] at taken
  · rw [boot, doFork_eq room]
    simp [Alive]

end Start

/-- Idle processes and `initproc` do not exit. -/
def ExitPanics : Fault → Prop
  | .panic text => text = "idleproc exit.\n" ∨ text = "initproc exit.\n"
  | _ => False

/-- In every reachable state the four structures agree. The list and the hash table leave out the
idle processes, which are counted. -/
theorem linked_with_idle_counted (last : Nat) : (machine last).SafeExcept ExitPanics fun s => Linked s (last + 1) := by
  refine Machine.safeExcept_of_invariant (show ∀ s, _ → (∃ v, Shows last s v) ∧ Alive s (initproc last) from ?_) ?_ ?_
  · rintro s ⟨rfl, few⟩
    exact shows_boot few
  · rintro s input ⟨⟨v, shows⟩, init⟩ allowed
    cases input with
    | fork => exact ⟨shows.fork allowed, init.fork⟩
    | exit p =>
      by_cases early : p ≤ last
      · simp [Ends, machine, step, doExit, early, ExitPanics]
      by_cases same : p = initproc last
      · subst same
        simp [Ends, machine, step, doExit, early, ExitPanics]
      · obtain ⟨t, w, executed, kept, still⟩ := shows.exit allowed init (not_le.mp early) same
        exact .bind_ok executed ⟨⟨w, kept⟩, still⟩
    | wait p pid =>
      obtain ⟨t, reply, executed, kept⟩ := shows.wait init p pid
      exact .of_ok executed kept
  · rintro s ⟨⟨v, shows⟩, _⟩
    exact shows.linked

/-- The idle process of a single CPU is counted in `nr_process` when only `initproc` is in
`proc_list`. -/
theorem idle_counted_but_unlisted : ∃ s, (machine 0).Reachable s ∧ ¬ Linked s 0 := by
  refine ⟨boot 0, ⟨[], .start ⟨rfl, by decide⟩⟩, fun linked => ?_⟩
  obtain ⟨procs, circle, _, count⟩ := linked.listed
  have first : (boot 0).procList.next none = some 1 := by decide
  have second : (boot 0).procList.next (some 1) = none := by decide
  have two : (boot 0).nrProcess = 2 := by decide
  cases procs with
  | nil => cases first.symm.trans circle.path.1
  | cons p rest =>
    cases first.symm.trans circle.path.1
    cases rest with
    | nil => cases two.symm.trans count
    | cons => cases second.symm.trans circle.path.2.2.1

end Ucore.Forest
