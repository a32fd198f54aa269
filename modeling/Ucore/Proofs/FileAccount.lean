import Ucore.FileIo
import Ucore.Lib.Outcome

/-! The position, the buffer and the return value of `sysfile_read` and `sysfile_write`. What
has been moved after any number of pieces is one copy, from the old position on. -/

namespace Ucore.FileIo
open Lib Function

theorem copy_zero (dst : Memory) (d : Nat) (src : Memory) (s : Nat) : copy dst d src s 0 = dst := by
  funext a
  exact if_neg (by omega)

theorem copy_append (dst : Memory) (d : Nat) (src : Memory) (s n m : Nat) : copy (copy dst d src s n)
    (d + n) src (s + n) m = copy dst d src s (n + m) := by
  funext a
  simp only [copy]
  split
  · rw [if_pos (by omega)]
    congr 1
    omega
  · split
    · rw [if_pos (by omega)]
    · rw [if_neg (by omega)]

variable {fd n : Nat} {s : State}

theorem copy_congr {dst src src' : Memory} {d s s' : Nat} (same : ∀ i < n,
    src (s + i) = src' (s' + i)) : copy dst d src s n = copy dst d src' s' n := by
  funext a
  simp only [copy]
  split
  next inside => exact same (a - d) (by omega)
  next => rfl

theorem copy_inside (dst : Memory) (d : Nat) (src : Memory) (s : Nat) {i : Nat} (inside : i < n) :
    copy dst d src s n (d + i) = src (s + i) := by
      rw [copy, if_pos (by omega), Nat.add_sub_cancel_left]

/-- A block behind the end of the file is asked for. -/
def Sparse (fault : Fault) : Prop := fault = .assertion "index <= din->blocks"

/-- So far `alen` bytes from `offset` on have been moved. -/
structure Moved (write : Bool) (bytes buf : Memory) (offset limit : Nat) (t : Transfer) : Prop where
  bounded : t.alen ≤ limit
  file : t.bytes = if write then copy bytes offset buf 0 t.alen else bytes
  kernel : t.buf = if write then buf else copy buf 0 bytes offset t.alen

section
variable {dev : Device} {write : Bool} {bytes buf : Memory} {offset limit : Nat} {t : Transfer} {node : Inode}
  {endpos len : Nat}

theorem part_moved (dev : Device) (blkoff size : Nat) (moved : Moved write bytes buf offset limit t)
    (next : t.err = 0 → t.blkno * blkSize + blkoff = offset + t.alen ∧ t.alen + size ≤ limit) :
    Ends Sparse (t.part dev write blkoff size) fun t' => Moved write bytes buf offset limit t' ∧
      (t'.err = 0 → t.err = 0 ∧ t'.blkno = t.blkno + 1 ∧ t'.alen = t.alen + size) := by
  rw [Transfer.part]
  split
  next failed => exact ⟨moved, failed.elim⟩
  next going =>
    obtain ⟨place, fits⟩ := next (not_not.mp going)
    rw [ensure_bind]
    split
    next =>
      simp only
      split
      next failed => exact ⟨{ moved with }, failed.elim⟩
      next =>
        split
        next failed => exact ⟨{ moved with }, failed.elim⟩
        next =>
          refine ⟨⟨fits, ?_, ?_⟩, fun _ => ⟨not_not.mp going, rfl, rfl⟩⟩
          all_goals cases write <;> simp [place, moved.file, moved.kernel, ← copy_append]
    next => rfl

theorem whole_moved (n : Nat) (moved : Moved write bytes buf offset limit t) (next : t.err = 0 →
    t.blkno * blkSize = offset + t.alen ∧ t.alen + n * blkSize ≤ limit) :
    Ends Sparse (t.whole dev write n) fun t' => Moved write bytes buf offset limit t' ∧
      (t'.err = 0 → t.err = 0 ∧ t'.blkno = t.blkno + n ∧ t'.alen = t.alen + n * blkSize) := by
  induction n generalizing t with
  | zero => exact ⟨moved, fun fine => ⟨fine, rfl, by simp⟩⟩
  | succ n ih =>
    have first := part_moved dev 0 blkSize moved (by
      intro fine
      have := next fine
      rw [Nat.succ_mul] at this
      omega)
    refine first.bind ?_
    intro t' ⟨moved', onward⟩
    refine (ih moved' ?_).mono ?_
    · intro fine
      obtain ⟨before, blkno, alen⟩ := onward fine
      rw [blkno]
      rw [Nat.succ_mul] at *
      omega
    · intro t'' ⟨moved'', rest⟩
      refine ⟨moved'', fun fine => ?_⟩
      obtain ⟨before, blkno, alen⟩ := rest fine
      obtain ⟨start, blkno', alen'⟩ := onward before
      rw [Nat.succ_mul]
      omega

/-- Where the whole blocks begin. -/
def Aligned (offset endpos : Nat) (t : Transfer) : Prop :=
  t.err = 0 → ¬ (offset % blkSize ≠ 0 ∧ endpos / blkSize - offset / blkSize = 0) →
    t.blkno * blkSize = offset + t.alen ∧ t.blkno = if offset % blkSize ≠ 0 then offset / blkSize + 1 else offset / blkSize

section
variable (some_ : offset < endpos) (moved : Moved write bytes buf offset (endpos - offset) t)
include some_ moved

theorem first_moved (blkno : t.blkno = offset / blkSize) (alen : t.alen = 0) :
    Ends Sparse (t.first dev write (offset % blkSize) (endpos / blkSize - offset / blkSize)
    (endpos - offset)) fun t' =>
      Moved write bytes buf offset (endpos - offset) t' ∧ Aligned offset endpos t' := by
  rw [Transfer.first]
  split
  next inner =>
    refine (part_moved _ _ _ moved ?_).mono ?_
    · intro _
      unfold blkSize at *
      split <;> omega
    intro t' ⟨moved', onward⟩
    refine ⟨moved', fun fine more => ?_⟩
    obtain ⟨_, blkno', alen'⟩ := onward fine
    rw [if_pos fun none_ => more ⟨inner, none_⟩] at alen'
    rw [if_pos inner, blkno', alen', alen]
    unfold blkSize at *
    omega
  next aligned =>
    refine ⟨moved, fun _ _ => ?_⟩
    rw [if_neg aligned, alen]
    unfold blkSize at *
    omega

theorem rest_moved (aligned : Aligned offset endpos t) :
    Ends Sparse (t.rest dev write (offset % blkSize) (endpos / blkSize - offset / blkSize)
    (endpos % blkSize)) (Moved write bytes buf offset (endpos - offset)) := by
  rw [Transfer.rest]
  split
  next => exact moved
  next more =>
    refine (whole_moved _ moved ?_).bind ?_
    · intro fine
      obtain ⟨place, blkno⟩ := aligned fine more
      refine ⟨place, ?_⟩
      unfold blkSize at *
      split at blkno <;> split <;> omega
    intro t' ⟨moved', behind⟩
    split
    next =>
      refine (part_moved _ _ _ moved' ?_).mono fun t facts => facts.1
      intro fine
      obtain ⟨before, blkno', alen'⟩ := behind fine
      obtain ⟨place, blkno⟩ := aligned before more
      rw [blkno', alen']
      unfold blkSize at *
      split at blkno
      next inner => simp only [if_pos inner]; omega
      next outer => simp only [if_neg outer]; omega
    next => exact moved'

end

structure Io (write : Bool) (node : Inode) (buf : Memory) (offset len : Nat)
    (result : Inode × Memory × Nat × Int) : Prop where
  bounded : result.2.2.1 ≤ len ∧ (result.2.2.1 ≠ 0 → offset + result.2.2.1 ≤ maxFileSize)
  error : result.2.2.2 ≤ 0
  file : result.1.bytes = if write then copy node.bytes offset buf 0 result.2.2.1 else node.bytes
  kernel : result.2.1 = if write then buf else copy buf 0 node.bytes offset result.2.2.1

theorem Io.none {ret : Int} (error : ret ≤ 0) : Io write node buf offset len (node, buf, 0, ret) := by
  refine ⟨⟨Nat.zero_le len, absurd rfl⟩, error, ?_, ?_⟩ <;> simp [copy_zero]

theorem sfsIoNolock_ends : Ends Sparse (sfsIoNolock dev write node buf offset len) (Io write node buf offset len) := by
  rw [sfsIoNolock]
  split
  next => exact Io.none (by decide)
  next small =>
    split
    next => exact Io.none (Int.le_refl 0)
    next some_ =>
      obtain ⟨endpos, named⟩ : ∃ endpos, endpos = if write then min (offset + len) maxFileSize else
        min (min (offset + len) maxFileSize) node.size := ⟨_, rfl⟩
      have limits : offset < endpos ∧ endpos ≤ offset + len ∧ endpos ≤ maxFileSize := by
        rw [named]
        cases write
        · simp only [Bool.false_eq_true, if_false, true_and, not_or] at some_ ⊢
          omega
        · simp only [if_true]
          omega
      simp only [← named]
      have start : Moved write node.bytes buf offset (endpos - offset) ⟨node.bytes, buf,
        node.blocks, offset / blkSize, 0, 0⟩ := by
        constructor <;> simp [copy_zero]
      refine (first_moved limits.1 start rfl rfl).bind ?_
      intro t ⟨moved, onward⟩
      refine (rest_moved limits.1 moved onward).bind ?_
      intro t' moved'
      have bounded := moved'.bounded
      exact ⟨⟨bounded.trans (by omega), fun _ => Nat.le_trans (Nat.add_le_add_left bounded offset)
        (by omega)⟩, by simp, moved'.file, moved'.kernel⟩

structure Call (write : Bool) (s : State) (fd : Nat) (file : File) (buf : Memory) (len : Nat)
    (result : State × Memory × Nat × Int) : Prop where
  io : Io write (s.nodes file.node) buf file.pos len (result.1.nodes file.node, result.2.1, result.2.2.1, result.2.2.2)
  pos : result.1.files fd = some { file with pos := file.pos + result.2.2.1 }
  user : result.1.user = s.user

theorem fileIo_ends {s : State} {fd : Nat} {file : File} (known : s.files fd = some file) :
    Ends Sparse (fileIo dev write s fd buf len) (Call write s fd file buf len) := by
  simp only [fileIo, known]
  split
  next => exact ⟨Io.none (Int.neg_nonpos_of_nonneg (by decide)), known, rfl⟩
  next =>
    split
    next => exact ⟨Io.none (by simp), known, rfl⟩
    next =>
      refine sfsIoNolock_ends.bind ?_
      intro ⟨node, buf', copied, ret⟩ io
      refine ⟨?_, update_self .., rfl⟩
      simp only [update_self]
      exact io

end

section
variable {access : Nat → Nat → Bool} {devs : Nat → Device} {fd : Nat} {file : File} {buf : Memory} {base copied len : Nat}
  {s : State}

/-- After `n` further bytes the position is behind them. -/
structure Advanced (s : State) (fd : Nat) (file : File) (copied n : Nat) (result : State × Nat × Int) : Prop where
  copied : result.2.1 = copied + n
  pos : result.1.files fd = some { file with pos := file.pos + n }
  bounded : n ≠ 0 → file.pos + n ≤ maxFileSize
  error : result.2.2 ≤ 0

theorem Advanced.step {s' : State} {alen n : Nat} {result : State × Nat × Int}
    (advanced : Advanced s' fd { file with pos := file.pos + alen } (copied + alen) n result)
    (bounded : alen ≠ 0 → file.pos + alen ≤ maxFileSize) :
    Advanced s fd file copied (alen + n) result := by
  obtain ⟨total, pos, limit, error⟩ := advanced
  simp only at limit
  exact ⟨by omega, by rw [pos, add_assoc], by omega, error⟩

/-- The parts of the buffer that one `file_read` after the other fills. -/
def pieces (devs : Nat → Device) (fd : Nat) : Nat → Nat → State → Memory → Nat → Nat → List (Nat × Nat)
  | 0, _, _, _, _, _ => []
  | fuel + 1, k, s, buf, base, len =>
    if len = 0 then []
    else match fileRead (devs k) s fd buf (min iobufSize len) with
      | .error _ => []
      | .ok (s, buf, alen, ret) =>
        if alen = 0 then []
        else (base, alen) :: if ret ≠ 0 then []
          else pieces devs fd fuel (k + 1) { s with user := copy s.user base buf 0 alen } buf (base + alen) (len - alen)

/-- A part of the buffer was refused: the position is behind bytes that are not accounted for. -/
def Overrun (fd : Nat) (file : File) (copied : Nat) (result : State × Nat × Int) : Prop :=
  ∃ n extra, extra ≠ 0 ∧ result.2.1 = copied + n ∧ result.1.files fd = some { file with pos := file.pos + n + extra } ∧
    file.pos + n + extra ≤ maxFileSize ∧ result.2.2 < 0

theorem Overrun.step {alen : Nat} {result : State × Nat × Int}
    (overrun : Overrun fd { file with pos := file.pos + alen } (copied + alen) result) : Overrun fd file copied result := by
  obtain ⟨n, extra, more, total, pos, bounded, error⟩ := overrun
  refine ⟨alen + n, extra, more, by omega, ?_, by simp only at bounded; omega, error⟩
  rw [pos, ← add_assoc]

theorem readLoop_ends (fuel k : Nat) (known : s.files fd = some file) (enough : len < fuel) :
    Ends Sparse (readLoop access devs fd fuel k s buf base len copied) fun result =>
      ((∀ piece ∈ pieces devs fd fuel k s buf base len, access piece.1 piece.2 = true) →
        ∃ n, Advanced s fd file copied n result ∧ result.1.user = copy s.user base (s.nodes file.node).bytes file.pos n) ∧
      (¬ (∀ piece ∈ pieces devs fd fuel k s buf base len, access piece.1 piece.2 = true) →
        Overrun fd file copied result) := by
  induction fuel generalizing k s buf base len copied file with
  | zero => omega
  | succ fuel ih =>
    rw [readLoop, pieces]
    split
    next =>
      exact ⟨fun _ => ⟨0, ⟨rfl, known, absurd rfl, Int.le_refl 0⟩, (copy_zero ..).symm⟩,
        fun some_ => absurd nofun some_⟩
    next some_ =>
      cases ran : fileRead (devs k) s fd buf (min iobufSize len) with
      | error => exact (show Ends Sparse (fileRead (devs k) s fd buf _) _ from fileIo_ends known).fault ran
      | ok answer =>
      obtain ⟨s', buf', alen, ret⟩ := answer
      obtain ⟨io, pos, user⟩ := (show Ends Sparse (fileRead (devs k) s fd buf _) _ from fileIo_ends known).value ran
      obtain ⟨⟨within, bounded⟩, error, bytes, kernel⟩ := io
      simp only [Bool.false_eq_true, if_false] at within bounded error bytes kernel pos user
      have moved : copy s'.user base buf' 0 alen = copy s.user base (s.nodes file.node).bytes file.pos alen := by
        rw [user]
        apply copy_congr
        intro i inside
        rw [kernel]
        exact copy_inside buf 0 _ _ inside
      by_cases nothing : alen = 0
      · subst nothing
        refine ⟨fun _ => ⟨0, ⟨rfl, pos, bounded, ?_⟩, user.trans (copy_zero ..).symm⟩, fun some_ => absurd (by simp) some_⟩
        simpa using error
      simp only [bind, Except.bind, if_neg nothing, List.forall_mem_cons]
      by_cases given : access base alen = true
      · rw [if_pos ⟨nothing, given⟩]
        simp only [ensure, if_pos (show len ≥ alen by omega), given, true_and]
        have once : Advanced s fd file copied alen
          ({ s' with user := copy s'.user base buf' 0 alen }, copied + alen, ret) :=
          ⟨rfl, pos, bounded, error⟩
        by_cases failed : ret ≠ 0
        · simp only [if_pos failed]
          exact ⟨fun _ => ⟨alen, once, moved⟩, fun some_ => absurd (by simp) some_⟩
        simp only [if_neg failed]
        refine (ih (k + 1) (s := { s' with user := copy s'.user base buf' 0 alen }) pos (by omega)).mono ?_
        rintro result ⟨served, refused⟩
        refine ⟨fun passes => ?_, fun fails => (refused fails).step⟩
        obtain ⟨n, advanced, data⟩ := served passes
        refine ⟨alen + n, advanced.step bounded, ?_⟩
        simp only [moved, bytes] at data
        rw [data, copy_append]
      · rw [if_neg fun both => given both.2]
        refine ⟨fun passes => absurd passes.1 given, fun _ => ⟨0, alen, nothing, rfl, pos, bounded nothing, ?_⟩⟩
        show (if alen ≠ 0 ∧ ret = 0 then -eInval else ret) < 0
        split
        · decide
        · omega

theorem writeLoop_ends (fuel k : Nat) (known : s.files fd = some file) (enough : len < fuel) :
    Ends Sparse (writeLoop access devs fd fuel k s buf base len copied) fun result => ∃ n,
    Advanced s fd file copied n result ∧
      (result.1.nodes file.node).bytes = copy (s.nodes file.node).bytes file.pos s.user base n := by
  induction fuel generalizing k s buf base len copied file with
  | zero => omega
  | succ fuel ih =>
    rw [writeLoop]
    split
    next => exact ⟨0, ⟨rfl, known, absurd rfl, Int.le_refl 0⟩, (copy_zero ..).symm⟩
    next some_ =>
      split
      next => exact ⟨0, ⟨rfl, known, absurd rfl, Int.neg_nonpos_of_nonneg (by decide)⟩, (copy_zero ..).symm⟩
      next =>
        refine (fileIo_ends known).bind ?_
        intro ⟨s', buf', alen, ret⟩ ⟨io, pos, user⟩
        obtain ⟨⟨within, bounded⟩, error, bytes, _⟩ := io
        simp only [if_true] at within bounded error bytes pos user ⊢
        have moved : (s'.nodes file.node).bytes = copy (s.nodes file.node).bytes file.pos s.user base alen := by
          rw [bytes]
          apply copy_congr
          intro i inside
          exact copy_inside buf 0 _ _ (by omega)
        rw [ensure_bind, if_pos (by omega)]
        split
        next => exact ⟨alen, ⟨rfl, pos, bounded, error⟩, moved⟩
        next going =>
          refine (ih (k + 1) pos (by omega)).mono ?_
          intro result ⟨n, advanced, data⟩
          refine ⟨alen + n, advanced.step bounded, ?_⟩
          simp only [moved, user] at data
          rw [data, copy_append]

end

/-- A result that is not negative is the number of bytes that the position has advanced by and that
were `moved`. -/
def Accounts (s s' : State) (fd : Nat) (r : Int) (moved : File → Nat → Prop) : Prop :=
  ∀ file, s.files fd = some file →
    (0 ≤ r → s'.files fd = some { file with pos := file.pos + r.toNat } ∧ moved file r.toNat) ∧
      (r < 0 → s'.files fd = some file)

/-- The number of bytes is at most the size of the largest file, so that it is an `int`. -/
theorem Advanced.accounts {file : File} {final : State × Nat × Int} {moved : File → Nat → Prop}
    (advanced : Advanced s fd file 0 n final) (known : s.files fd = some file)
      (data : moved file n) : Accounts s final.1 fd (result final.2.1 final.2.2) moved := by
  obtain ⟨copied, pos, bounded, error⟩ := advanced
  rw [zero_add] at copied
  intro other same
  obtain rfl : file = other := Option.some.inj (known.symm.trans same)
  rw [copied, result]
  split
  next more =>
    have limit := bounded more
    unfold maxFileSize at limit
    have whole : (BitVec.ofNat 32 n).toInt = n := by
      rw [BitVec.toInt_eq_toNat_cond, BitVec.toNat_ofNat]
      omega
    rw [whole]
    exact ⟨fun _ => ⟨pos, data⟩, by omega⟩
  next none_ =>
    obtain rfl : n = 0 := not_not.mp none_
    refine ⟨fun positive => ?_, fun _ => pos⟩
    have zero : final.2.2 = 0 := by omega
    rw [zero]
    exact ⟨pos, data⟩

theorem result_toNat {n : Nat} {ret : Int} (positive : n ≠ 0) (bounded : n ≤ maxFileSize) : result n ret = n := by
  unfold maxFileSize at bounded
  rw [result, if_pos positive, BitVec.toInt_eq_toNat_cond, BitVec.toNat_ofNat]
  omega

/-- Bytes that the position has passed and that were not delivered cannot be accounted for. -/
theorem Overrun.not_accounts {file : File} {final : State × Nat × Int} {moved : File → Nat → Prop}
    (overrun : Overrun fd file 0 final) (known : s.files fd = some file) :
    ¬ Accounts s final.1 fd (result final.2.1 final.2.2) moved := by
  obtain ⟨n, extra, more, total, pos, bounded, error⟩ := overrun
  intro accounts
  obtain ⟨advanced, unchanged⟩ := accounts file known
  rw [zero_add] at total
  by_cases none_ : n = 0
  · rw [total, none_, result, if_neg (not_not_intro rfl)] at unchanged
    have same := congrArg File.pos (Option.some.inj (pos.symm.trans (unchanged error)))
    simp only at same
    omega
  · rw [total, result_toNat none_ (by omega)] at advanced
    have same := congrArg File.pos (Option.some.inj (pos.symm.trans (advanced (by omega)).1))
    simp only [Int.toNat_natCast] at same
    omega

theorem accounts_early {moved : File → Nat → Prop} (still : ∀ file, moved file 0) {r : Int} (none_ : r ≤ 0) :
    Accounts s s fd r moved := by
  intro file known
  refine ⟨fun positive => ?_, fun _ => known⟩
  obtain rfl : r = 0 := by omega
  exact ⟨known, still file⟩

theorem sysfileIo_accounts (moved : State → File → Nat → Prop) {len : Nat} {write memory : Bool}
    {loop : Kernel (State × Nat × Int)} (still : ∀ file, moved s file 0)
    (ends : ∀ file, s.files fd = some file →
      Ends Sparse loop fun final => ∃ n, Advanced s fd file 0 n final ∧ moved final.1 file n) :
    Ends Sparse (sysfileIo fd write memory loop s len) fun final => Accounts s final.1 fd final.2 (moved final.1) := by
  rw [sysfileIo]
  split
  next => exact accounts_early still le_rfl
  next =>
    split
    next => exact accounts_early still (show -eInval ≤ 0 by decide)
    next open_ =>
      split
      next => exact accounts_early still (show -eNoMem ≤ 0 by decide)
      next =>
        cases known : s.files fd with
        | none => simp [fileTestfd, known] at open_
        | some file =>
          refine (ends file known).bind ?_
          intro final ⟨n, advanced, data⟩
          exact advanced.accounts known data

/-- The parts of the buffer that a call comes to. -/
def delivered (devs : Nat → Device) (fd : Nat) (memory : Bool) (buf : Memory) (s : State)
    (base len : Nat) : List (Nat × Nat) :=
  if fileTestfd fd s false = true ∧ memory = true then pieces devs fd (len + 1) 0 s buf base len else []

/-- A read accounts for what it has done exactly if every part of the buffer that bytes of the
file come to can be written, a write always does. -/
theorem accounting_when_buffer_writable (access : Nat → Nat → Bool) (devs : Nat → Device)
    (memory : Bool) (buf : Memory) (s : State)
    (fd base len : Nat) :
    (Ends Sparse (sysfileRead access devs fd memory buf s base len) fun final =>
      (Accounts s final.1 fd final.2 fun file n => ∀ i < n,
        final.1.user (base + i) = (s.nodes file.node).bytes (file.pos + i)) ↔
        ∀ piece ∈ delivered devs fd memory buf s base len, access piece.1 piece.2 = true) ∧
    Ends Sparse (sysfileWrite access devs fd memory buf s base len) fun final =>
      Accounts s final.1 fd final.2 fun file n => ∀ i < n, (final.1.nodes file.node).bytes
        (file.pos + i) = s.user (base + i) := by
  have none_ (i : Nat) (never : i < 0) : False := Nat.not_lt_zero i never
  constructor
  · rw [sysfileRead, sysfileIo]
    split
    next empty =>
      subst empty
      refine iff_of_true (accounts_early (fun _ i never => (none_ i never).elim) le_rfl) ?_
      intro piece member
      rw [delivered] at member
      split at member <;> simp [pieces] at member
    split
    next closed =>
      refine iff_of_true (accounts_early (fun _ i never => (none_ i never).elim) (show -eInval ≤ 0 by decide)) ?_
      simp [delivered, closed]
    next open_ =>
    split
    next short =>
      refine iff_of_true (accounts_early (fun _ i never => (none_ i never).elim) (show -eNoMem ≤ 0 by decide)) ?_
      simp [delivered, short]
    next enough =>
    rw [Bool.not_eq_false] at open_ enough
    rw [delivered, if_pos ⟨open_, enough⟩]
    cases known : s.files fd with
    | none => simp [fileTestfd, known] at open_
    | some file =>
      refine (readLoop_ends (len + 1) 0 known (Nat.lt_succ_self len)).bind ?_
      rintro final ⟨served, refused⟩
      refine ⟨fun accounts => ?_, fun passes => ?_⟩
      · by_contra fails
        exact (refused fails).not_accounts known accounts
      · obtain ⟨n, advanced, data⟩ := served passes
        exact advanced.accounts known fun i inside => by rw [data]; exact copy_inside _ _ _ _ inside
  · refine sysfileIo_accounts (fun s' file n => ∀ i < n, (s'.nodes file.node).bytes (file.pos + i) = s.user (base + i))
      (fun _ i never => (none_ i never).elim) ?_
    intro file known
    refine (writeLoop_ends (len + 1) 0 known (Nat.lt_succ_self len)).mono ?_
    intro final ⟨n, advanced, data⟩
    exact ⟨n, advanced, fun i inside => by rw [data]; exact copy_inside _ _ _ _ inside⟩

/-- A file of ten bytes, open as descriptor 0. -/
def tenBytes : State := ⟨fun _ => some ⟨0, 0, true, false⟩, fun _ => ⟨10, 1, fun a => a.toUInt8⟩, fun _ => 0⟩

/-- The buffer cannot be written: the call fails, and the ten bytes are lost to the next one. -/
theorem failed_read_moves_the_position : ∃ s', sysfileRead (fun _ _ => false)
    (fun _ => ⟨0, fun _ => 0, fun _ => 0⟩) 0 true (fun _ => 0) tenBytes 0 10 =
    .ok (s', -eInval) ∧ s'.files 0 = some ⟨0, 10, true, false⟩ ∧ ¬ Accounts tenBytes s' 0 (-eInval) fun _ _ => True := by
  refine ⟨_, rfl, rfl, ?_⟩
  intro accounts
  have unchanged := (accounts _ rfl).2 (by decide)
  cases unchanged

end Ucore.FileIo
