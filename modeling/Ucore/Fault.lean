/-! A kernel path either completes or stops the machine. Assertions keep the text
of the expression they test. -/

namespace Ucore

inductive Fault where
  | assertion (text : String)
  | panic (text : String)
  /-- A null pointer was followed by the named call. -/
  | nullPointer (text : String)
  /-- A loop of the model ran past its bound. -/
  | exhausted
  /-- A process waits for a lock that it holds itself. -/
  | deadlock (text : String)
  /-- A disk block or a link was read as something that it does not hold. -/
  | misread (text : String)
deriving Repr, DecidableEq

abbrev Kernel := Except Fault

def ensure (condition : Prop) [Decidable condition] (text : String) : Kernel Unit :=
  if condition then .ok () else .error (.assertion text)

@[simp] theorem ensure_bind {α : Type} (condition : Prop) [Decidable condition] (text : String)
    (next : Unit → Kernel α) : (ensure condition text >>= next) = if condition then next () else
    .error (.assertion text) := by
  unfold ensure
  split <;> rfl

end Ucore
