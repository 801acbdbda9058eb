import Sdbusplus.Message.Bus

namespace Sdbusplus.Message.ObjectPath

/-- The characters '/' and '_'. -/
def slash : UInt8 := 47

def underscore : UInt8 := 95

/-- std::isalnum, taken to be true of the ASCII letters and digits only. -/
def isalnum (c : UInt8) : Bool :=
  (48 ≤ c && c ≤ 57) || (65 ≤ c && c ≤ 90) || (97 ≤ c && c ≤ 122)

/-- "0123456789abcdef" -/
def hex : List UInt8 := [48, 49, 50, 51, 52, 53, 54, 55, 56, 57, 97, 98, 99, 100, 101, 102]

/-- The entries of the unhex table. -/
def unhex (i : Nat) : Int :=
  if 48 ≤ i ∧ i < 58 then i - 48
  else if 65 ≤ i ∧ i < 71 then i - 65 + 10
  else if 97 ≤ i ∧ i < 103 then i - 97 + 10
  else -1

/-- The table indexed by a char. A char is signed, so the index of a byte from 0x80
on lies outside. -/
def unhexAt (c : UInt8) : Option Int := if c < 128 then some (unhex c.toNat) else none

def pathShouldEscape (c : UInt8) : Bool := !isalnum c

def pathRequiresEscape (c : UInt8) : Bool := pathShouldEscape c && c != underscore

/-- A char in an expression is an int. -/
def promote (c : UInt8) : BitVec 32 := c.toBitVec.signExtend 32

def pathAppendEscape (s : Bytes) (c : UInt8) : Bytes :=
  s ++ [underscore] ++ [hex.getD (((promote c).sshiftRight 4) &&& 0xf#32).toNat 0] ++
    [hex.getD (promote c &&& 0xf#32).toNat 0]

/-- std::string::rfind('/'). -/
def rfindSlash : Bytes → Option Nat
  | [] => none
  | c :: s =>
    match rfindSlash s with
    | some i => some (i + 1)
    | none => if c = slash then some 0 else none

/-- `static_cast<char>((ch << 4) | cl)` of two digits. -/
def byteOf (ch cl : Int) : UInt8 := UInt8.ofNat ((ch.toNat <<< 4) ||| cl.toNat)

/-- The loop of filename(). An ill-formed escape makes the whole name empty; no
result means a read outside of the table. -/
def unescape (out : Bytes) : Bytes → Option Bytes
  | [] => some out
  | c :: rest =>
    if c ≠ underscore then unescape (out ++ [c]) rest
    else
      match rest with
      | hi :: lo :: rest =>
        match unhexAt hi, unhexAt lo with
        | some ch, some cl =>
          if ch = -1 ∨ cl = -1 then some [] else unescape (out ++ [byteOf ch cl]) rest
        | _, _ => none
      | _ => some []

/-- string_path_wrapper::filename. -/
def filename (str : Bytes) : Option Bytes :=
  match rfindSlash str with
  | none => some []
  | some firstIndex =>
    let filename := str.drop (firstIndex + 1)
    if filename.isEmpty ∨ filename.head? ≠ some underscore then some filename
    else unescape [] filename

/-- string_path_wrapper::parent_path. -/
def parentPath (str : Bytes) : Bytes :=
  match rfindSlash str with
  | none => [slash]
  | some index => if index ≤ 1 then [slash] else str.take index

def separate (str : Bytes) : Bytes :=
  if !str.isEmpty && str.getLast? != some slash then str ++ [slash] else str

/-- string_path_wrapper::operator/=. -/
def appendAssign (str : Bytes) : Bytes → Except String Bytes
  | [] => .error "string_path_wrapper: empty string append"
  | first :: rest =>
    let str := separate str
    if !pathShouldEscape first && rest.all (fun c => !pathRequiresEscape c) then
      .ok (str ++ first :: rest)
    else
      .ok (rest.foldl (fun str c => if pathShouldEscape c then pathAppendEscape str c
        else str ++ [c]) (pathAppendEscape str first))

/-- operator/= as a change of the characters of the object, which stay as they are at
that point when it throws. -/
def assignAppend (extId : Bytes) : ExceptT String (StateM Bytes) Unit :=
  match extId with
  | [] => throw "string_path_wrapper: empty string append"
  | first :: rest => do
    modify separate
    if !pathShouldEscape first && rest.all (fun c => !pathRequiresEscape c) then
      modify (fun str => str ++ first :: rest)
    else
      modify (fun str => pathAppendEscape str first)
      for c in rest do
        if pathShouldEscape c then modify (fun str => pathAppendEscape str c)
        else modify (fun str => str ++ [c])

/-- string_path_wrapper::operator/. -/
def append (str extId : Bytes) : Except String Bytes := appendAssign ([] ++ str) extId

/-- The constructor from a base and further elements. -/
def objectPath (base : Bytes) (args : List Bytes) : Except String Bytes :=
  args.foldlM appendAssign base

end Sdbusplus.Message.ObjectPath
