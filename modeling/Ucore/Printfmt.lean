import Mathlib

/-! The conversions of `vprintfmt`: `%d`, `%u`, `%o` and `%x` with a width and a padding
character, the loop of `%s` with a precision, and the index of `%e`. -/

namespace Ucore.Printfmt
open List Nat

/-- What `printnum` puts out; its digits are those of `Nat.digitChar`. -/
def printnum (num base : Nat) (width : Int) (padc : Char) : List Char :=
  if 1 < base ∧ base ≤ num then
    printnum (num / base) base (width - 1) padc ++ [(num % base).digitChar]
  else replicate (width - 1).toNat padc ++ [(num % base).digitChar]
termination_by num
decreasing_by exact div_lt_self (by omega) (by omega)

inductive Conversion where
  | d
  | u
  | o
  | x

def Conversion.base : Conversion → Nat
  | .d | .u => 10
  | .o => 8
  | .x => 16

/-- `getint` or `getuint` of an argument of `w` bits. -/
def Conversion.value {w : Nat} (c : Conversion) (arg : BitVec w) : Int :=
  match c with
  | .d => arg.toInt
  | _ => arg.toNat

def sign (value : Int) : List Char := if value < 0 then ['-'] else []

/-- The sign comes before the padding, which does not count it. -/
def Conversion.print {w : Nat} (c : Conversion) (arg : BitVec w) (width : Int) (padc : Char) : List Char :=
  sign (c.value arg) ++ printnum (c.value arg).natAbs c.base width padc

/-- The bytes that the loop of `%s` reads from byte `i` on, when `precision` characters may
still be put out. -/
def bytesRead (p : Nat → Char) (i : Nat) : Nat → List Nat
  | 0 => [i]
  | precision + 1 => i :: if p i = '\x00' then [] else bytesRead p (i + 1) precision

/-- The entry of `error_string` that `%e` reads. A code above `MAXERROR` is printed as a number. -/
def errorIndex (err : BitVec 32) : Option Int :=
  let err := if err.toInt < 0 then -err else err
  if 39 < err.toInt then none else some err.toInt

/-- The field of a value: padded on the right for the flag `-`, with zeros after the sign for
`0`, else on the left. -/
def field (value : Int) (base : Nat) (width : Int) (padc : Char) : List Char :=
  let digits := toDigits base value.natAbs
  let pad := replicate (width.toNat - (sign value ++ digits).length)
  if padc = '-' then sign value ++ digits ++ pad ' '
  else if padc = '0' then sign value ++ pad '0' ++ digits
  else pad padc ++ (sign value ++ digits)

/-- The number that digits stand for. -/
def parse (base : Nat) (digits : List Char) : Nat :=
  digits.foldl (fun value c => value * base + "0123456789abcdef".toList.idxOf c) 0

end Ucore.Printfmt
