import Sdbusplus.Message.Append
import Sdbusplus.Message.Limits
import Sdbusplus.Message.Read

namespace Sdbusplus.Message

inductive Qualifier
  | const
  | volatile
  | lvalueReference
  | rvalueReference
  deriving DecidableEq, Repr

/-- The C++ types that append and read are both instantiated with, whatever the elements
of their containers are. -/
inductive CppType
  /-- char[N] is downcast to char*. -/
  | basic (b : Basic)
  /-- The names of an enum are identifiers, so no NUL is in them. -/
  | enum (e : GeneratedEnum) (plain : ∀ v, 0 ∉ e.toString v)
  | sequence (q : Sequence) (t : CppType)
  /-- std::array of n + 1 elements: an empty one cannot be read. -/
  | array (n : Nat) (t : CppType)
  /-- The sets and maps, given their value_type. -/
  | associative (t : CppType)
  | pair (t u : CppType)
  | tuple (t : CppType) (ts : List CppType)
  | variant (t : CppType) (ts : List CppType)
  | qualified (q : Qualifier) (t : CppType)

/-- A container that is opened or entered: what it is, and its contents. -/
abbrev Entry := Kind × List Char

/-- The container that a call opens. append_array opens and closes one itself. -/
def opens : AppendCall → List Entry
  | .openContainer k sig => [(k, sig)]
  | .appendArray t _ _ => [(.array, [t.code])]
  | _ => []

/-- The containers that are opened for calls on a message: by those that are granted. -/
def Limits.opened (lim : Limits) : Writer → List AppendCall → List Entry
  | _, [] => []
  | w, call :: calls =>
    (if lim.grants w call then Message.opens call else []) ++ lim.opened (lim.perform w call) calls

/-- utility::strip_ends. -/
def stripEnds (s : List Char) : List Char := s.tail.dropLast

namespace CppType

mutual

/-- The values of a type. Those of a set or map are its elements in iteration order. -/
def Val : CppType → Type
  | .basic b => b.Val
  | .enum e _ => e.Val
  | .sequence _ t => List t.Val
  | .array n t => { xs : List t.Val // xs.length = n + 1 }
  | .associative t => List t.Val
  | .pair t u => t.Val × u.Val
  | .tuple t ts => t.Val × Members ts
  | .variant t ts => t.Val ⊕ Alternatives ts
  | .qualified _ t => t.Val

def Members : List CppType → Type
  | [] => Unit
  | t :: ts => t.Val × Members ts

/-- The alternative held, by its position. -/
def Alternatives : List CppType → Type
  | [] => Empty
  | t :: ts => t.Val ⊕ Alternatives ts

end

/-- type_id_downcast_t. That of the members of pairs and tuples is left to type_id. -/
def downcast : CppType → CppType
  | .qualified _ t => t.downcast
  | t => t

mutual

/-- type_id of the downcast type, without the terminator. -/
def typeId : CppType → List Char
  | .basic b => [b.busType.code]
  | .enum _ _ => [BusType.string.code]
  | .sequence _ t => 'a' :: t.typeId
  | .array _ t => 'a' :: t.typeId
  | .associative t => 'a' :: t.typeId
  | .pair t u => pairId t.typeId u.typeId
  | .tuple t ts => '(' :: (t.typeId ++ typeIds ts) ++ [')']
  | .variant _ _ => ['v']
  | .qualified _ t => t.typeId

def typeIds : List CppType → List Char
  | [] => []
  | t :: ts => t.typeId ++ typeIds ts

end

section Append

/-- append_single for a type with contiguous iterators. -/
def appendContiguous (t : CppType) (append : t.Val → List AppendCall) (xs : List t.Val) :
    List AppendCall :=
  match t, append, xs with
  | .basic b, append, xs =>
    if b.canAppendArray then appendArray b xs
    else appendEach (contents (typeId (.basic b))) append xs
  | t, append, xs => appendEach (contents t.typeId) append xs

mutual

/-- message::append of one argument. -/
def append : (t : CppType) → t.Val → List AppendCall
  | .basic b, v => appendBasic b v
  | .enum e _, v => appendEnum e v
  | .sequence .vector t, xs => appendContiguous t (append t) xs
  | .sequence _ t, xs => appendEach (contents t.typeId) (append t) xs
  | .array _ t, xs => appendContiguous t (append t) xs.val
  | .associative t, xs => appendEach (contents t.typeId) (append t) xs
  | .pair t u, p => appendPair t.typeId u.typeId (append t) (append u) p
  | .tuple t ts, vs =>
    appendContainer .struct (contents (t.typeId ++ typeIds ts))
      (append t vs.1 ++ appendMembers ts vs.2)
  | .variant t _, .inl v => appendContainer .variant (contents t.typeId) (append t v)
  | .variant _ ts, .inr v => appendAlternative ts v
  | .qualified _ t, v => append t v

def appendMembers : (ts : List CppType) → Members ts → List AppendCall
  | [], _ => []
  | t :: ts, (v, vs) => append t v ++ appendMembers ts vs

/-- What std::visit does with the alternative held. -/
def appendAlternative : (ts : List CppType) → Alternatives ts → List AppendCall
  | t :: _, .inl v => appendContainer .variant (contents t.typeId) (append t v)
  | _ :: ts, .inr v => appendAlternative ts v

end

end Append

/-- The alternatives whose string on the bus is left to convert_from_string. -/
def isEnumOrString (t : CppType) : Bool :=
  match t.downcast with
  | .enum _ _ | .basic .string => true
  | _ => false

/-- Whether remove_cv_t makes it a std::string. -/
def isString : CppType → Bool
  | .basic .string => true
  | .qualified .const t | .qualified .volatile t => t.isString
  | _ => false

mutual

/-- Whether convert_from_string has a result. -/
def convertFromString : CppType → Bytes → Bool
  | .enum e _, str => (e.fromString str).isSome
  | .variant t ts, str => convertFromString t str || process ts str || t.isString
  | _, _ => false

/-- convert_from_string<std::variant>::process. -/
def process : List CppType → Bytes → Bool
  | [], _ => false
  | t :: ts, str => convertFromString t str || process ts str || t.isString

end

section Read

/-- A call that libsystemd refuses for its limits throws. -/
def granted (ok : Bool) (what : String) : ReadM Unit :=
  if ok then pure () else raise (.sdBusError einval what)

/-- A container that is read inside of these, and the containers that were entered then. -/
def entering (lim : Limits) (around : List Kind) (what : String) (k : Kind) (sig : List Char)
    (inside : ReadM (List Entry)) : ReadM (List Entry) := do
  granted (lim.enters around k sig) ("sd_bus_message_enter_container " ++ what)
  let es ← readContainer what k sig inside
  pure ((k, sig) :: es)

/-- The loops of read_single over the elements of an array. -/
def readElements (lim : Limits) (around : List Kind) (what : String) (id : List Char)
    (element : ReadM (List Entry)) : ReadM (List Entry) :=
  entering lim around what .array (arrayContents id)
    (readUntilEnd what (fun es => do
      let s ← element
      pure (es ++ s)) [])

/-- read_single for a type with contiguous iterators. read_array enters and exits the
array itself. -/
def readContiguous (lim : Limits) (around : List Kind) (t : CppType)
    (element : ReadM (List Entry)) : ReadM (List Entry) :=
  match t with
  | .basic b =>
    if b.canAppendArray then do
      granted (lim.enters around .array [b.busType.code]) "sd_bus_message_read_array"
      let _ ← readArrayOneShot b []
      pure [(.array, [b.busType.code])]
    else readElements lim around "emplace_back_container" ('a' :: typeId (.basic b)) element
  | t => readElements lim around "emplace_back_container" ('a' :: t.typeId) element

/-- message::read of several arguments. -/
def readBoth (first second : ReadM (List Entry)) : ReadM (List Entry) := do
  let es ← first
  let fs ← second
  pure (es ++ fs)

def readTimes (member : ReadM (List Entry)) : Nat → ReadM (List Entry)
  | 0 => pure []
  | n + 1 => readBoth member (readTimes member n)

/-- A string that convert_from_string has to have a result for. -/
def readConverted (convert : Bytes → Bool) : ReadM (List Entry) := do
  let str ← readBasic .string []
  if convert str then pure [] else raise .invalidEnumString

/-- One alternative T1 of the recursion over the alternatives of a std::variant. -/
def readAlternative (lim : Limits) (around : List Kind) (t : CppType)
    (content : ReadM (List Entry)) (convert : Bytes → Bool) (others : ReadM (List Entry)) :
    ReadM (List Entry) := do
  granted (lim.verifies (contents t.typeId)) "sd_bus_message_verify_type variant"
  let (r, _) ← callBus "sd_bus_message_verify_type variant"
    (Cursor.verifyType .variant (contents t.typeId))
  if r = 0 then others
  else
    entering lim around "variant" .variant (contents t.typeId)
      (if t.isEnumOrString then readConverted convert else content)

mutual

/-- message::read of one argument inside of these containers, with the containers that it
enters for its result. -/
def read (lim : Limits) : CppType → List Kind → ReadM (List Entry)
  | .basic b, _ => do
    let _ ← readBasic b b.busType.default
    pure []
  | .enum e _, _ => do
    let _ ← readEnum e
    pure []
  | .sequence .vector t, around => readContiguous lim around t (t.read lim (.array :: around))
  | .sequence _ t, around =>
    readElements lim around "emplace_back_container" ('a' :: t.typeId)
      (t.read lim (.array :: around))
  -- A std::array has neither emplace_back nor emplace, but it has std::get<0>.
  | .array n t, around =>
    entering lim around "tuple" .struct (contents (List.replicate (n + 1) t.typeId).flatten)
      (readTimes (t.read lim (.struct :: around)) (n + 1))
  | .associative t, around =>
    readElements lim around "emplace_container" ('a' :: t.typeId) (t.read lim (.array :: around))
  | .pair t u, around =>
    entering lim around "tuple" .dictEntry (contents (t.typeId ++ u.typeId))
      (readBoth (t.read lim (.dictEntry :: around)) (u.read lim (.dictEntry :: around)))
  | .tuple t ts, around =>
    entering lim around "tuple" .struct (contents (t.typeId ++ typeIds ts))
      (readBoth (t.read lim (.struct :: around)) (readMembers lim ts (.struct :: around)))
  | .variant t ts, around =>
    readAlternative lim around t (t.read lim (.variant :: around)) (process (t :: ts))
      (readAlternatives lim (process (t :: ts)) ts around)
  | .qualified _ t, around => t.read lim around

def readMembers (lim : Limits) : List CppType → List Kind → ReadM (List Entry)
  | [], _ => pure []
  | t :: ts, around => readBoth (t.read lim around) (readMembers lim ts around)

def readAlternatives (lim : Limits) (convert : Bytes → Bool) :
    List CppType → List Kind → ReadM (List Entry)
  | [], _ => skipVariant []
  | t :: ts, around =>
    readAlternative lim around t (t.read lim (.variant :: around)) convert
      (readAlternatives lim convert ts around)

end

end Read

section Agreement

mutual

/-- The containers that the type id announces for a value. -/
def announced : (t : CppType) → t.Val → List Entry
  | .basic _, _ => []
  | .enum _ _, _ => []
  | .sequence q t, xs => (.array, (typeId (.sequence q t)).tail) :: xs.flatMap (announced t)
  | .array n t, xs => (.array, (typeId (.array n t)).tail) :: xs.val.flatMap (announced t)
  | .associative t, xs => (.array, (typeId (.associative t)).tail) :: xs.flatMap (announced t)
  | .pair t u, p =>
    (.dictEntry, stripEnds (typeId (.pair t u))) :: (announced t p.1 ++ announced u p.2)
  | .tuple t ts, vs =>
    (.struct, stripEnds (typeId (.tuple t ts))) :: (announced t vs.1 ++ announcedMembers ts vs.2)
  | .variant t _, .inl v => (.variant, t.typeId) :: announced t v
  | .variant _ ts, .inr v => announcedAlternative ts v
  | .qualified _ t, v => announced t v

def announcedMembers : (ts : List CppType) → Members ts → List Entry
  | [], _ => []
  | t :: ts, (v, vs) => announced t v ++ announcedMembers ts vs

def announcedAlternative : (ts : List CppType) → Alternatives ts → List Entry
  | t :: _, .inl v => (.variant, t.typeId) :: announced t v
  | _ :: ts, .inr v => announcedAlternative ts v

end

/-- The containers that append opens for a value. -/
def opened (lim : Limits) (t : CppType) (v : t.Val) : List Entry :=
  lim.opened Writer.empty (t.append v)

/-- The message that append makes for a value, where the bus takes it. -/
def message (lim : Limits) (t : CppType) (v : t.Val) : Option (List Wire) :=
  let w := lim.performAll Writer.empty (t.append v)
  if w.opened.isEmpty ∧ lim.carries (signature w.items) then some w.items else none

/-- The containers that read enters when it decodes that message, unless it throws. -/
def entered (lim : Limits) (t : CppType) (v : t.Val) : Option (List Entry) :=
  (t.message lim v).bind fun items => ((t.read lim [] (Cursor.start items)).map Prod.fst).toOption

/-- append opens the containers that the type id announces, and read enters them. -/
def Agrees (lim : Limits) (t : CppType) : Prop :=
  ∀ v, t.opened lim v = t.announced v ∧ t.entered lim v = some (t.announced v)

end Agreement

end CppType

end Sdbusplus.Message
