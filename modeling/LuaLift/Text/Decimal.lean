/-! # Decimal text of binary floating point numbers

A finite number other than zero is `m · 2 ^ q`. The reals that round to it form
an interval around it, and `shortest` finds the decimal with the fewest digits in
that interval; of several with that many digits it takes the nearest. The layout
of the digits is a separate record, `Layout`. -/
namespace LuaLift.Text

inductive Parts where
  | nan
  | infinite (negative : Bool)
  | zero (negative : Bool)
  /-- the value `m · 2 ^ q`; `edge` tells that the number below is nearer than the one above -/
  | finite (negative : Bool) (m : Nat) (q : Int) (edge : Bool)
deriving DecidableEq, Repr

def Parts.ofBits (bits : UInt64) : Parts :=
  let b := bits.toNat
  let negative := b / 0x8000000000000000 % 2 == 1
  let exponent : Nat := b / 0x10000000000000 % 0x800
  let fraction : Nat := b % 0x10000000000000
  if exponent == 2047 then
    if fraction == 0 then .infinite negative else .nan
  else if exponent == 0 then
    if fraction == 0 then .zero negative else .finite negative fraction (-1074) false
  else
    .finite negative (0x10000000000000 + fraction) ((exponent : Int) - 1075) (fraction == 0 && exponent > 1)

structure Ratio where
  num : Nat
  den : Nat
deriving DecidableEq, Repr

/-- The value `m · 2 ^ q`. -/
def Ratio.binary (m : Nat) (q : Int) : Ratio :=
  if 0 ≤ q then ⟨m * Nat.pow 2 q.toNat, 1⟩ else ⟨m, Nat.pow 2 (-q).toNat⟩

/-- The value `d · 10 ^ k`. -/
def Ratio.decimal (d : Nat) (k : Int) : Ratio :=
  if 0 ≤ k then ⟨d * Nat.pow 10 k.toNat, 1⟩ else ⟨d, Nat.pow 10 (-k).toNat⟩

def Ratio.lt (a b : Ratio) : Bool := a.num * b.den < b.num * a.den

def Ratio.le (a b : Ratio) : Bool := a.num * b.den ≤ b.num * a.den

def Ratio.dist (a b : Ratio) : Ratio :=
  let x := a.num * b.den
  let y := b.num * a.den
  ⟨if x ≤ y then y - x else x - y, a.den * b.den⟩

def digitCount (n : Nat) : Nat := (Nat.toDigits 10 n).length

/-- The `k` with `10 ^ (k - 1) ≤ r < 10 ^ k`, for `r` in the range of doubles. -/
def magnitude (r : Ratio) : Int :=
  if r.den ≤ r.num then digitCount (r.num / r.den)
  else match (List.range 400).find? fun j => r.den ≤ r.num * Nat.pow 10 j with
    | some j => 1 - (j : Int)
    | none => 0

/-- A decimal number `0.d₁d₂… · 10 ^ point`, given by its digits. -/
structure Digits where
  digits : List Char
  point : Int
deriving DecidableEq, Repr

def dropZeros (ds : List Char) : List Char := (ds.reverse.dropWhile (· == '0')).reverse

/-- The candidates with `n` digits: the value's two neighbours on the grid of
step `10 ^ (magnitude - n)` that round to the value, the nearer first. -/
def candidates (value low high : Ratio) (closed : Bool) (k : Int) (n : Nat) : List Nat :=
  let unit := Ratio.decimal 1 (k - n)
  let d := value.num * unit.den / (value.den * unit.num)
  let fits := fun c =>
    let r := Ratio.decimal c (k - n)
    if closed then low.le r && r.le high else low.lt r && r.lt high
  let near := fun c => (Ratio.decimal c (k - n)).dist value
  match [d, d + 1].filter fits with
  | [a, b] =>
    if (near a).lt (near b) then [a] else if (near b).lt (near a) then [b]
    else [if a % 2 == 0 then a else b]
  | cs => cs

/-- The fewest digits that read back as `m · 2 ^ q`, which is positive. Seventeen
digits always suffice. -/
def shortest (m : Nat) (q : Int) (edge : Bool) : Digits :=
  let value := Ratio.binary (4 * m) (q - 2)
  let low := Ratio.binary (4 * m - if edge then 1 else 2) (q - 2)
  let high := Ratio.binary (4 * m + 2) (q - 2)
  let k := magnitude value
  let found := (List.range 18).findSome? fun n =>
    if n == 0 then none
    else (candidates value low high (m % 2 == 0) k n).head?.map fun d => (n, d)
  match found with
  | some (n, d) =>
    let ds := Nat.toDigits 10 d
    ⟨dropZeros ds, k + ((ds.length : Int) - n)⟩
  | none => ⟨['0'], 1⟩

structure Layout where
  /-- positional text is used for points greater than this … -/
  low : Int
  /-- … and up to this -/
  high : Int
  /-- least number of digits of an exponent -/
  exponentDigits : Nat
  infinite : String
  nan : String
deriving DecidableEq, Repr

def zeros (n : Nat) : String := String.ofList (List.replicate n '0')

def Layout.place (l : Layout) (x : Digits) : String :=
  let n := x.digits.length
  if l.low < x.point && x.point ≤ l.high then
    if x.point ≤ 0 then "0." ++ zeros (-x.point).toNat ++ String.ofList x.digits
    else
      let p := x.point.toNat
      if p < n then String.ofList (x.digits.take p) ++ "." ++ String.ofList (x.digits.drop p)
      else String.ofList x.digits ++ zeros (p - n) ++ ".0"
  else
    let e := x.point - 1
    let digits := toString e.natAbs
    let padded := zeros (l.exponentDigits - digits.length) ++ digits
    let mantissa := match x.digits with
      | [d] => String.ofList [d]
      | d :: ds => String.ofList (d :: '.' :: ds)
      | [] => ""
    mantissa ++ "e" ++ (if e < 0 then "-" else "+") ++ padded

def Layout.write (l : Layout) (bits : UInt64) : String :=
  let sign := fun (negative : Bool) => if negative then "-" else ""
  match Parts.ofBits bits with
  | .nan => l.nan
  | .infinite negative => sign negative ++ l.infinite
  | .zero negative => sign negative ++ "0.0"
  | .finite negative m q edge => sign negative ++ l.place (shortest m q edge)

end LuaLift.Text
