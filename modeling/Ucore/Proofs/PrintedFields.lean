import Ucore.Printfmt

/-! When the conversions of `vprintfmt` do what their callers expect. -/

namespace Ucore.Printfmt
open List Nat

variable {base w : Nat} {width : Int} {padc : Char}

theorem Conversion.base_bounds (c : Conversion) : 1 < c.base ∧ c.base ≤ 16 := by
  cases c <;> decide

private theorem parse_toDigits (bounds : 1 < base ∧ base ≤ 16) (num : Nat) :
    parse base (toDigits base num) = num := by
  have digit : ∀ d < 16, "0123456789abcdef".toList.idxOf d.digitChar = d := by decide
  induction num using Nat.strong_induction_on with
  | _ num ih =>
    rw [toDigits_eq_if bounds.1]
    split
    · simpa [parse] using digit num (by omega)
    · have last := mod_lt num (zero_lt_of_lt bounds.1)
      have smaller := div_lt_self (by omega : 0 < num) bounds.1
      rw [parse, foldl_append, ← parse, ih (num / base) smaller, foldl_cons, digit _ (by omega)]
      exact div_add_mod' num base

private theorem dash_not_mem_toDigits (bounds : 1 < base ∧ base ≤ 16) (num : Nat) :
    '-' ∉ toDigits base num := by
  induction num using Nat.strong_induction_on with
  | _ num ih =>
    rw [toDigits_eq_if bounds.1]
    split
    · simp
    · have earlier := ih (num / base) (div_lt_self (by omega) bounds.1)
      simp [earlier]

private theorem printnum_eq (above : 1 < base) (num : Nat) (width : Int) (padc : Char) :
    printnum num base width padc =
      replicate (width.toNat - (toDigits base num).length) padc ++ toDigits base num := by
  induction num using Nat.strong_induction_on generalizing width with
  | _ num ih =>
    rw [printnum, toDigits_eq_if above]
    by_cases small : num < base
    · have less : (width - 1).toNat = width.toNat - 1 := by omega
      rw [if_neg (by omega), if_pos small, mod_eq_of_lt small, length_singleton, less]
    · have smaller := div_lt_self (by omega : 0 < num) above
      rw [if_pos ⟨above, not_lt.mp small⟩, if_neg small, ih _ smaller, append_assoc,
        length_append, length_singleton]
      congr 2
      omega

/-- A field is as wide as it should be, and its digits stand for the value. -/
theorem length_field (value : Int) (bounds : 1 < base ∧ base ≤ 16) :
    (field value base width padc).length =
        max width.toNat (sign value ++ toDigits base value.natAbs).length ∧
      parse base (toDigits base value.natAbs) = value.natAbs := by
  refine ⟨?_, parse_toDigits bounds _⟩
  unfold field
  split_ifs <;> simp <;> omega

/-- No padding is needed, or there is no sign and no flag `-`. -/
def Plain (value : Int) (base : Nat) (width : Int) (padc : Char) : Prop :=
  width ≤ (toDigits base value.natAbs).length ∨ 0 ≤ value ∧ padc ≠ '-'

private theorem Conversion.print_eq (c : Conversion) (arg : BitVec w)
    (plain : Plain (c.value arg) c.base width padc) :
    c.print arg width padc = field (c.value arg) c.base width padc := by
  rw [print, printnum_eq c.base_bounds.1, field]
  obtain short | ⟨positive, left⟩ := plain
  · rw [length_append, Nat.sub_eq_zero_of_le (by omega), Nat.sub_eq_zero_of_le (by omega)]
    split_ifs <;> simp
  · rw [if_neg left, sign, if_neg (by omega)]
    split_ifs with zero <;> simp [zero]

/-- A sign makes the field one character too long, and the flag `-` puts dashes into it. -/
private theorem Conversion.print_ne (c : Conversion) (arg : BitVec w)
    (padded : ¬ Plain (c.value arg) c.base width padc) :
    c.print arg width padc ≠ field (c.value arg) c.base width padc := by
  have bounds := c.base_bounds
  intro same
  simp only [Plain, not_or, not_le, not_and, not_not] at padded
  obtain ⟨wide, flagged⟩ := padded
  rw [print, printnum_eq bounds.1] at same
  by_cases positive : 0 ≤ c.value arg
  · have none : sign (c.value arg) = [] := if_neg (not_lt.mpr positive)
    have dashes : '-' ∈ replicate (width.toNat - (toDigits c.base (c.value arg).natAbs).length) '-' :=
      mem_replicate.mpr ⟨by omega, rfl⟩
    rw [flagged positive, none, nil_append, field, if_pos rfl, none, nil_append] at same
    have member := same ▸ mem_append_left (toDigits c.base (c.value arg).natAbs) dashes
    simp [dash_not_mem_toDigits bounds] at member
  · have lengths := congrArg List.length same
    rw [(length_field _ bounds).1] at lengths
    simp [sign, not_le.mp positive] at lengths
    omega

private theorem bytesRead_le {p : Nat → Char} {i j : Nat} (ends : p j = '\x00') (after : i ≤ j)
    (precision : Nat) : ∀ k ∈ bytesRead p i precision, k ≤ j := by
  induction precision generalizing i with
  | zero => simpa [bytesRead] using after
  | succ precision ih =>
    unfold bytesRead
    split
    · simpa using after
    · next more =>
      have further := after.lt_of_ne fun same => more (same ▸ ends)
      exact forall_mem_cons.mpr ⟨after, ih further⟩

private theorem mem_bytesRead {p : Nat → Char} {i precision : Nat}
    (open_ : ∀ j, i ≤ j → j < i + precision → p j ≠ '\x00') :
    i + precision ∈ bytesRead p i precision := by
  induction precision generalizing i with
  | zero => exact mem_singleton_self i
  | succ precision ih =>
    have later := ih (i := i + 1) fun j low high => open_ j (by omega) (by omega)
    rw [bytesRead, if_neg (open_ i le_rfl (by omega))]
    exact mem_cons_of_mem i (by rwa [show i + (precision + 1) = i + 1 + precision by omega])

private theorem bytesRead_within_iff (p : Nat → Char) (n : Nat) :
    (∀ k ∈ bytesRead p 0 n, k < n) ↔ ∃ j < n, p j = '\x00' := by
  constructor
  · intro within
    by_contra open_
    push Not at open_
    have last := within (0 + n) (mem_bytesRead fun j _ high => open_ j (by omega))
    omega
  · rintro ⟨j, before, ends⟩ k read
    exact (bytesRead_le ends j.zero_le n k read).trans_lt before

private theorem errorIndex_within_iff (err : BitVec 32) :
    (∀ i ∈ errorIndex err, 0 ≤ i ∧ i ≤ 39) ↔ err ≠ .intMin 32 := by
  constructor
  · rintro within rfl
    have least := within (-2147483648) (by decide)
    omega
  · intro regular
    have negated := BitVec.toInt_neg_of_ne_intMin regular
    unfold errorIndex
    split_ifs <;> simp <;> omega

/-- The field is right exactly if it needs no padding or has neither sign nor flag `-`; a string
is read within its precision exactly if it ends there; and `%e` stays in its table for every code
but the least. -/
theorem conversions_when_unsigned (c : Conversion) (arg : BitVec w) (width : Int) (padc : Char)
    (p : Nat → Char) (n : Nat) (err : BitVec 32) :
    (c.print arg width padc = field (c.value arg) c.base width padc ↔
      Plain (c.value arg) c.base width padc) ∧
    ((∀ k ∈ bytesRead p 0 n, k < n) ↔ ∃ j < n, p j = '\x00') ∧
    ((∀ i ∈ errorIndex err, 0 ≤ i ∧ i ≤ 39) ↔ err ≠ .intMin 32) := by
  refine ⟨⟨fun same => ?_, c.print_eq arg⟩, bytesRead_within_iff p n, errorIndex_within_iff err⟩
  by_contra padded
  exact c.print_ne arg padded same

theorem sign_beyond_width :
    Conversion.d.print (-3 : BitVec 32) 5 ' ' = "-    3".toList ∧
    Conversion.d.print (3 : BitVec 32) 5 '-' = "----3".toList ∧
    bytesRead (fun _ => 'a') 0 3 = [0, 1, 2, 3] ∧ errorIndex (.intMin 32) = some (-2147483648) := by
  simp [Conversion.print, printnum, Conversion.value, Conversion.base, sign, bytesRead, errorIndex]
  decide

end Ucore.Printfmt
