import LuaLift.Dump.Record

/-! # Whole dumps

A dump is a header and the records of its functions, ended by an empty record or
by the end of the file. Children stand before their parents, so the one function
that is left at the end is the main function. -/
namespace LuaLift.Dump
open Bytecode

/-- Reads records to the end of the dump. Every record takes a byte, so as much
`fuel` as there are bytes suffices. `false` if the dump is refused. -/
def readRecords (numbering : Numbering) (stripped : Bool) : Nat → Read Bool
  | 0 => return true
  | fuel + 1 => do
    if ← Read.atEnd then return true
    match ← readRecord numbering stripped with
    | some p =>
      modify fun s => { s with pending := p :: s.pending }
      readRecords numbering stripped fuel
    | none =>
      if ← Read.atEnd then return true
      Read.note "Failed to read prototype"
      return false

/-- Reads header and records; `none` if the dump is refused. -/
def readParts (numbering : Numbering) (origin : String) : Read (Option Header) := do
  match ← readHeader origin with
  | none =>
    Read.note "Failed to read raw-dump header"
    return none
  | some header =>
    modify fun s => { s with order := if header.flags.bigEndian then .big else .little }
    if ← readRecords numbering header.flags.stripped (← get).rest.length then return some header
    else return none

/-- What a dump holds, or `none` if it is refused; and the messages about it. -/
structure Reading where
  result : Except Fault (Option (Header × Prototype))
  log : List String

def finish (header : Header) (s : Source) : Reading :=
  if !s.rest.isEmpty then
    ⟨.ok none, s.log ++ ["Stopped before whole file was read, something wrong"]⟩
  else match s.pending with
    | [p] => ⟨.ok (some (header, p)), s.log⟩
    | _ => ⟨.ok none, s.log ++ ["Invalid prototypes stack order"]⟩

/-- Reads a dump. One that ends too early is refused, other faults are passed on. -/
def read (numbering : Numbering) (origin : String) (bytes : List UInt8) : Reading :=
  match (readParts numbering origin).run (Source.ofBytes bytes) with
  | .ok (some header) s => finish header s
  | .ok none s => ⟨.ok none, s.log⟩
  | .error e s =>
    match e, e.message with
    | .endOfInput _, some m | .endOfByte, some m =>
      ⟨.ok none, s.log ++ [s!"I/O error while reading dump: {m}"]⟩
    | _, _ => ⟨.error e, s.log⟩

end LuaLift.Dump
