import Sdbusplus.Message.ObjectPath

namespace Sdbusplus.Message.Filename
open ObjectPath (slash underscore rfindSlash byteOf unhex)

/-- A read outside of the characters or of the table, with its index. -/
inductive Fault
  | segment (index : Nat)
  | unhex (index : Nat)
  deriving DecidableEq, Repr

/-- A character of the segment. -/
def charAt (filename : Bytes) (i : Nat) : Except Fault UInt8 :=
  match filename[i]? with
  | some c => .ok c
  | none => .error (.segment i)

/-- A char as an index, which is a size_t. The char is signed. -/
def charIndex (c : UInt8) : Nat := (c.toBitVec.signExtend 64).toNat

/-- An entry of the table, which has 256 of them. -/
def unhexEntry (c : UInt8) : Except Fault Int :=
  if charIndex c < 256 then .ok (unhex (charIndex c)) else .error (.unhex (charIndex c))

/-- The loop of filename() from an index on. -/
def unescapeFrom (filename out : Bytes) (i : Nat) : Except Fault Bytes :=
  if i < filename.length then do
    let c ← charAt filename i
    if c ≠ underscore then unescapeFrom filename (out ++ [c]) (i + 1)
    else if i + 2 ≥ filename.length then pure []
    else do
      let ch ← charAt filename (i + 1) >>= unhexEntry
      let cl ← charAt filename (i + 2) >>= unhexEntry
      if ch = -1 ∨ cl = -1 then pure []
      else unescapeFrom filename (out ++ [byteOf ch cl]) (i + 3)
  else pure out
termination_by filename.length - i

/-- string_path_wrapper::filename with every read checked. -/
def filename (str : Bytes) : Except Fault Bytes :=
  match rfindSlash str with
  | none => pure []
  | some firstIndex => do
    let filename := str.drop (firstIndex + 1)
    if filename.isEmpty then pure filename
    else do
      let first ← charAt filename 0
      if first ≠ underscore then pure filename else unescapeFrom filename [] 0

end Sdbusplus.Message.Filename
