namespace Sdbusplus.Message

/-- The bytes of a std::string, or of a string on the bus. -/
abbrev Bytes := List UInt8

/-- The basic types of the bus. -/
inductive BusType
  | byte
  | boolean
  | int16
  | uint16
  | int32
  | uint32
  | int64
  | uint64
  | double
  | string
  | objectPath
  | signature
  | unixFd
  deriving DecidableEq, Repr

/-- SD_BUS_TYPE_* of the type. -/
def BusType.code : BusType → Char
  | .byte => 'y'
  | .boolean => 'b'
  | .int16 => 'n'
  | .uint16 => 'q'
  | .int32 => 'i'
  | .uint32 => 'u'
  | .int64 => 'x'
  | .uint64 => 't'
  | .double => 'd'
  | .string => 's'
  | .objectPath => 'o'
  | .signature => 'g'
  | .unixFd => 'h'

/-- What an element of the type holds. Doubles are kept as their bits. -/
def BusType.Data : BusType → Type
  | .boolean => Bool
  | .byte => BitVec 8
  | .int16 | .uint16 => BitVec 16
  | .int32 | .uint32 | .unixFd => BitVec 32
  | .int64 | .uint64 | .double => BitVec 64
  | .string | .objectPath | .signature => Bytes

instance (t : BusType) : DecidableEq t.Data := by
  cases t <;> simp only [BusType.Data] <;> infer_instance

/-- Size in bytes of an element that append_array and read_array copy. -/
def BusType.size : BusType → Nat
  | .byte => 1
  | .int16 | .uint16 => 2
  | .boolean | .int32 | .uint32 | .unixFd => 4
  | .int64 | .uint64 | .double => 8
  | .string | .objectPath | .signature => 0

/-- SD_BUS_TYPE_ARRAY, STRUCT, DICT_ENTRY and VARIANT. -/
inductive Kind
  | array
  | struct
  | dictEntry
  | variant
  deriving DecidableEq, Repr

/-- An element of a message. A container carries the signature of its contents. -/
inductive Wire
  | basic (t : BusType) (d : t.Data)
  | container (k : Kind) (contents : List Char) (items : List Wire)

/-- The type id of a container with these contents. -/
def Kind.typeId : Kind → List Char → List Char
  | .array, sig => 'a' :: sig
  | .struct, sig => '(' :: sig ++ [')']
  | .dictEntry, sig => '{' :: sig ++ ['}']
  | .variant, _ => ['v']

def Wire.typeId : Wire → List Char
  | .basic t _ => [t.code]
  | .container k sig _ => k.typeId sig

/-- The signature of elements. -/
def signature (items : List Wire) : List Char := items.flatMap Wire.typeId

@[simp] theorem signature_one {item : Wire} : signature [item] = item.typeId :=
  List.flatMap_singleton ..

theorem signature_append {items items' : List Wire} :
    signature (items ++ items') = signature items ++ signature items' :=
  List.flatMap_append

theorem signature_cons {item : Wire} {items : List Wire} :
    signature (item :: items) = item.typeId ++ signature items :=
  List.flatMap_cons

/-- What the libsystemd in use accepts as text. -/
structure LibSystemd where
  validUtf8 : Bytes → Bool
  validObjectPath : Bytes → Bool
  validSignature : Bytes → Bool

/-- append_basic refuses a text that is not valid for its type. -/
def LibSystemd.accepts (lib : LibSystemd) : (t : BusType) → t.Data → Bool
  | .string, s => lib.validUtf8 s
  | .objectPath, s => lib.validObjectPath s
  | .signature, s => lib.validSignature s
  | _, _ => true

/-- A C string ends at its first NUL. -/
def cString (s : Bytes) : Bytes := s.takeWhile (fun b => b ≠ 0)

def einval : Int := 22
def enxio : Int := 6
def ebusy : Int := 16
def ebadmsg : Int := 74

/-- The calls into libsystemd that message::append makes. -/
inductive AppendCall
  | appendBasic (t : BusType) (d : t.Data)
  | appendStringIovec (s : Bytes)
  | appendArray (t : BusType) (p : List t.Data) (size : Nat)
  | openContainer (k : Kind) (contents : List Char)
  | closeContainer

/-- A message being written: the elements of the innermost open container and,
for every open container from the inside out, what it is and what precedes it. -/
structure Writer where
  items : List Wire
  opened : List (Kind × List Char × List Wire)

def Writer.empty : Writer := ⟨[], []⟩

def Writer.push (w : Writer) (item : Wire) : Writer := { w with items := w.items ++ [item] }

/-- The return value of a call and the message after it. Containers are opened and closed
wherever they stand; Limits says which ones libsystemd refuses. -/
def LibSystemd.perform (lib : LibSystemd) (w : Writer) : AppendCall → Int × Writer
  | .appendBasic t d => if lib.accepts t d then (1, w.push (.basic t d)) else (-einval, w)
  | .appendStringIovec s =>
    if lib.validUtf8 s then (1, w.push (.basic .string s)) else (-einval, w)
  | .appendArray t p size =>
    (1, w.push (.container .array [t.code] ((p.take (size / t.size)).map (.basic t))))
  | .openContainer k contents => (1, ⟨[], (k, contents, w.items) :: w.opened⟩)
  | .closeContainer =>
    match w.opened with
    | [] => (-einval, w)
    | (k, contents, items) :: opened =>
      (1, Writer.push ⟨items, opened⟩ (.container k contents w.items))

/-- The message after calls whose return values nobody looks at. -/
def LibSystemd.performAll (lib : LibSystemd) (w : Writer) (calls : List AppendCall) : Writer :=
  calls.foldl (fun w call => (lib.perform w call).2) w

/-- The read position: the container the cursor is in (none for the message
itself), what is left of it, and the same for the containers around it. -/
structure Cursor where
  kind : Option Kind
  rest : List Wire
  outer : List (Option Kind × List Wire)

/-- The cursor at the first element of a message. -/
def Cursor.start (items : List Wire) : Cursor := ⟨none, items, []⟩

namespace Cursor

/-- Reading past the last element: not an error in an array. -/
def pastEnd (c : Cursor) : Int := if c.kind = some .array then 0 else -enxio

def readBasic (t : BusType) (c : Cursor) : Int × Option t.Data × Cursor :=
  match c.rest with
  | [] => (c.pastEnd, none, c)
  | .basic u d :: rest =>
    if h : u = t then (1, some (h ▸ d), { c with rest := rest }) else (-enxio, none, c)
  | .container .. :: _ => (-enxio, none, c)

def enterContainer (k : Kind) (contents : List Char) (c : Cursor) : Int × Unit × Cursor :=
  match c.rest with
  | [] => (c.pastEnd, (), c)
  | .basic .. :: _ => (-enxio, (), c)
  | .container l sig items :: rest =>
    if l = k ∧ sig = contents then (1, (), ⟨some k, items, (c.kind, rest) :: c.outer⟩)
    else (-enxio, (), c)

/-- A container that was not read to its end is busy. -/
def exitContainer (c : Cursor) : Int × Unit × Cursor :=
  match c.outer with
  | [] => (-enxio, (), c)
  | (k, rest) :: outer => if c.rest.isEmpty then (1, (), ⟨k, rest, outer⟩) else (-ebusy, (), c)

def atEnd (c : Cursor) : Int × Unit × Cursor := (if c.rest.isEmpty then 1 else 0, (), c)

/-- Whether the next element is such a container with just these contents. -/
def verifyType (k : Kind) (contents : List Char) (c : Cursor) : Int × Unit × Cursor :=
  match c.rest with
  | .container l sig _ :: _ => (if l = k ∧ sig = contents then 1 else 0, (), c)
  | .basic .. :: _ | [] => (0, (), c)

/-- sd_bus_message_skip with the types "v". -/
def skipVariant (c : Cursor) : Int × Unit × Cursor :=
  match c.rest with
  | .container .variant _ _ :: rest => (1, (), { c with rest := rest })
  | _ => (-enxio, (), c)

/-- The data of elements that are all of one basic type. -/
def basics (t : BusType) : List Wire → Option (List t.Data)
  | [] => some []
  | .basic u d :: items => if h : u = t then (basics t items).map (h ▸ d :: ·) else none
  | .container .. :: _ => none

/-- The elements of an array at once, and their size in bytes. -/
def readArray (t : BusType) (c : Cursor) : Int × (List t.Data × Nat) × Cursor :=
  match c.rest with
  | [] => (c.pastEnd, ([], 0), c)
  | .container .array sig items :: rest =>
    if sig = [t.code] then
      match basics t items with
      | some p => (1, (p, p.length * t.size), { c with rest := rest })
      | none => (-ebadmsg, ([], 0), c)
    else (-enxio, ([], 0), c)
  | _ => (-enxio, ([], 0), c)

end Cursor

end Sdbusplus.Message
