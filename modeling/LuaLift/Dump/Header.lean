import LuaLift.Dump.Source

/-! # The header of a dump

A magic number, a version, flags and, unless the dump is stripped, the name of
the source file. -/
namespace LuaLift.Dump

structure HeaderFlags where
  bigEndian : Bool := false
  stripped : Bool := false
  ffi : Bool := false
deriving DecidableEq, Repr, Inhabited

structure Header where
  version : Nat
  flags : HeaderFlags
  /-- name of the file that was read -/
  origin : String
  /-- name of the source file -/
  name : String
deriving DecidableEq, Repr, Inhabited

def Header.magic : List UInt8 := [0x1b, 0x4c, 0x4a]

def Header.lastVersion : Nat := 0x80

def binaryText (width n : Nat) : String :=
  let ds := Nat.toDigits 2 n
  String.ofList (List.replicate (width - ds.length) '0' ++ ds)

/-- Reads the header; `none` if the dump is refused. -/
def readHeader (origin : String) : Read (Option Header) := do
  if (← Read.bytes 3) != Header.magic then
    Read.note "Invalid magic, not a LuaJIT format"
    return none
  let version ← Read.byte
  if version > Header.lastVersion then
    Read.note s!"Version {version}: propritary modifications"
    return none
  let bits ← Read.uleb
  let flags : HeaderFlags := ⟨bits % 2 == 1, bits / 2 % 2 == 1, bits / 4 % 2 == 1⟩
  let others := bits / 8 * 8
  if others != 0 then
    let digits := binaryText 8 others
    Read.note s!"Unknown flags set: {digits}"
    return none
  let name ← if flags.stripped then pure origin else Read.text (← Read.uleb)
  return some ⟨version, flags, origin, name⟩

end LuaLift.Dump
