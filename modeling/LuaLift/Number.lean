import LuaLift.Text.Decimal

/-! # Numbers of a dump

A numeric constant is an integer of any size or a double. Doubles are kept as
their 64 bits, so that every pattern survives; `Number.same` compares values. -/
namespace LuaLift

/-- An integer, or a double given by its bits. -/
inductive Number where
  | int (value : Int)
  | double (bits : UInt64)
deriving DecidableEq, Repr, Inhabited

/-- Doubles are written with the fewest digits that read back, positionally from
`0.0001` up to sixteen digits before the point, else with an exponent of at
least two digits. -/
def Number.layout : Text.Layout := ⟨-4, 16, 2, "inf", "nan"⟩

def Number.text : Number → String
  | .int v => toString v
  | .double bits => Number.layout.write bits

/-- The value of a finite double as a numerator and a denominator. -/
def doubleValue (bits : UInt64) : Option (Int × Nat) :=
  match Text.Parts.ofBits bits with
  | .nan | .infinite _ => none
  | .zero _ => some (0, 1)
  | .finite negative m q _ =>
    let r := Text.Ratio.binary m q
    some (if negative then -(r.num : Int) else r.num, r.den)

/-- Equality of values: the zeros are equal, a NaN equals nothing, and an integer
equals a double of the same exact value. -/
def Number.same : Number → Number → Bool
  | .int a, .int b => a == b
  | .int a, .double b | .double b, .int a =>
    match doubleValue b with
    | some (n, d) => a * d == n
    | none => false
  | .double a, .double b =>
    match Text.Parts.ofBits a, Text.Parts.ofBits b with
    | .nan, _ | _, .nan => false
    | .zero _, .zero _ => true
    | _, _ => a == b

def Number.isZero (n : Number) : Bool := n.same (.int 0)

end LuaLift
