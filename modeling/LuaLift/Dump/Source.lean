import LuaLift.Fault
import LuaLift.Bytecode.Prototype

/-! # Reading from a dump

`Source` is what is left of a dump together with what the reader remembers; `Read`
is the monad of readers. A reader that fails leaves the source where it stopped. -/
namespace LuaLift.Dump
open Bytecode

inductive ByteOrder where
  | little
  | big
deriving DecidableEq, Repr, Inhabited

/-- The unread bytes of a dump, and the state of its reader. -/
structure Source where
  size : Nat
  rest : List UInt8
  order : ByteOrder := .little
  /-- functions that no other function has taken as a child yet, newest first -/
  pending : List Prototype := []
  /-- messages about the dump, oldest first -/
  log : List String := []
deriving Inhabited

def Source.ofBytes (bytes : List UInt8) : Source := { size := bytes.length, rest := bytes }

def Source.offset (s : Source) : Nat := s.size - s.rest.length

abbrev Read := EStateM Fault Source

/-- The first `n` elements and the others, if there are that many. -/
def splitExactly {α : Type} : Nat → List α → Option (List α × List α)
  | 0, xs => some ([], xs)
  | _ + 1, [] => none
  | n + 1, x :: xs => (splitExactly n xs).map fun (a, b) => (x :: a, b)

/-- The number written in base 128, lowest digit first; every byte but the last
has its high bit set. -/
def uleb128 : List UInt8 → Option (Nat × List UInt8)
  | [] => none
  | b :: r =>
    if b < 0x80 then some (b.toNat, r)
    else (uleb128 r).map fun (v, r') => (b.toNat % 128 + 128 * v, r')

/-- A flag bit followed by a number: as `uleb128`, but the lowest bit of the first
byte is split off. -/
def uleb128WithBit : List UInt8 → Option ((Nat × Nat) × List UInt8)
  | [] => none
  | b :: r =>
    let v := b.toNat / 2
    if v < 0x40 then some ((b.toNat % 2, v), r)
    else (uleb128 r).map fun (w, r') => ((b.toNat % 2, v % 64 + 64 * w), r')

/-- The number whose digits in base 256 are given, lowest first. -/
def littleEndian : List UInt8 → Nat
  | [] => 0
  | b :: bs => b.toNat + 256 * littleEndian bs

def ByteOrder.decode : ByteOrder → List UInt8 → Nat
  | .little, bs => littleEndian bs
  | .big, bs => littleEndian bs.reverse

namespace Read

def note (line : String) : Read Unit := modify fun s => { s with log := s.log ++ [line] }

def atEnd : Read Bool := return (← get).rest.isEmpty

def available (n : Nat) : Read Bool := return (splitExactly n (← get).rest).isSome

def byte : Read Nat := do
  match (← get).rest with
  | [] => throw .endOfByte
  | b :: r =>
    modify fun s => { s with rest := r }
    return b.toNat

def bytes (n : Nat) : Read (List UInt8) := do
  match splitExactly n (← get).rest with
  | none => throw (.endOfInput n)
  | some (bs, r) =>
    modify fun s => { s with rest := r }
    return bs

/-- The bytes up to the next zero byte, which is read too, or up to the end. -/
def zeroTerminated : Read (List UInt8) := do
  let (bs, r) := (← get).rest.span (· != 0)
  modify fun s => { s with rest := r.drop 1 }
  return bs

/-- Runs a decoder that fails only when the bytes run out. -/
def decoded {α : Type} (decode : List UInt8 → Option (α × List UInt8)) : Read α := do
  match decode (← get).rest with
  | some (v, r) =>
    modify fun s => { s with rest := r }
    return v
  | none =>
    modify fun s => { s with rest := [] }
    throw .endOfByte

def uleb : Read Nat := decoded uleb128

def ulebWithBit : Read (Nat × Nat) := decoded uleb128WithBit

/-- An unsigned number of `n` bytes in the byte order of the dump. -/
def uint (n : Nat) : Read Nat := do
  let bs ← bytes n
  return (← get).order.decode bs

def text (n : Nat) : Read String := do
  let bs ← bytes n
  match String.fromUTF8? ⟨bs.toArray⟩ with
  | some s => return s
  | none => throw .badText

/-- The text of bytes that are all below 128. -/
def asciiText (bs : List UInt8) : Read String :=
  if bs.all (· < 0x80) then return String.ofList (bs.map fun b => Char.ofNat b.toNat)
  else throw .badText

def times {α : Type} : Nat → Read α → Read (List α)
  | 0, _ => return []
  | n + 1, r => do
    let x ← r
    let xs ← times n r
    return x :: xs

end Read

end LuaLift.Dump
