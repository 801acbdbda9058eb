import Sdbusplus.Base.SortedMap

namespace Sdbusplus.Tools

/-- A nlohmann::json. The entries of an object are in the order of their keys. -/
inductive Json
  | null
  | boolean (b : Bool)
  | integer (i : Int64)
  | unsigned (n : UInt64)
  /-- A double as its bits. -/
  | double (bits : UInt64)
  | string (s : String)
  | array (elements : List Json)
  | object (entries : List (String × Json))

inductive JsonError
  | parseError
  | typeError
  | outOfRange (key : String)
  deriving DecidableEq, Repr

/-- What of nlohmann::json stays outside: texts, and the casts of doubles. -/
structure Nlohmann where
  dump : Json → String
  parse : String → Except JsonError Json
  toSizeT : UInt64 → UInt64
  toPid : UInt64 → Int32
  parses : ∀ j, ∃ j', parse (dump j) = .ok j'

namespace Json

/-- at() with a key. -/
def at_ (j : Json) (key : String) : Except JsonError Json :=
  match j with
  | .object entries =>
    match SortedMap.find? key entries with
    | some v => .ok v
    | none => .error (.outOfRange key)
  | _ => .error .typeError

def contains (j : Json) (key : String) : Bool :=
  match j with
  | .object entries => (SortedMap.find? key entries).isSome
  | _ => false

def getString : Json → Except JsonError String
  | .string s => .ok s
  | _ => .error .typeError

/-- The conversion to size_t. -/
def getSizeT (lib : Nlohmann) : Json → Except JsonError UInt64
  | .unsigned n => .ok n
  | .integer i => .ok i.toUInt64
  | .double bits => .ok (lib.toSizeT bits)
  | _ => .error .typeError

/-- The conversion to pid_t. -/
def getPid (lib : Nlohmann) : Json → Except JsonError Int32
  | .unsigned n => .ok n.toInt64.toInt32
  | .integer i => .ok i.toInt32
  | .double bits => .ok (lib.toPid bits)
  | .boolean b => .ok (if b then 1 else 0)
  | _ => .error .typeError

end Json

end Sdbusplus.Tools
