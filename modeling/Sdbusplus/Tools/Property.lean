import Sdbusplus.Base.FlowSequence

namespace Sdbusplus.Tools.Property
open FlowSequence

abbrev Text := List Char

/-- What yaml.safe_load makes of an entry: a str, a list, or anything else. -/
inductive Value
  | str (s : Text)
  | other
  | list (values : List Value)

mutual

/-- An entry whose scalars are strs if this says so. -/
def Value.ofNode (isStr : Text → Bool) : Node → Value
  | .scalar s => if isStr s then .str s else .other
  | .list nodes => .list (valuesOf isStr nodes)

def valuesOf (isStr : Text → Bool) : List Node → List Value
  | [] => []
  | n :: ns => Value.ofNode isStr n :: valuesOf isStr ns

end

/-- The characters of type names. None of them has another meaning in YAML. -/
def plainChar (c : Char) : Bool := c.isAlphanum || c ∈ ['_', '.', ' ', ',', '[', ']']

def Plain (text : Text) : Prop := ∀ c ∈ text, plainChar c = true

/-- An identifier, as a part of a dotted name. -/
def Identifier (part : Text) : Prop :=
  ∃ c cs, part = c :: cs ∧ (c.isAlpha || c = '_') = true ∧
    ∀ d ∈ cs, (d.isAlphanum || d = '_') = true

/-- The name of an enumeration with its interface, or with "self". -/
structure DottedName where
  first : Text
  others : List Text
  dotted : others ≠ []
  identifiers : ∀ part ∈ first :: others, Identifier part

def DottedName.text (n : DottedName) : Text := ['.'].intercalate (n.first :: n.others)

structure Entry where
  cppName : String
  params : Int
  deriving DecidableEq, Repr

def propertyMap : List (String × Entry) :=
  [("byte", ⟨"uint8_t", 0⟩), ("boolean", ⟨"bool", 0⟩), ("int16", ⟨"int16_t", 0⟩),
   ("uint16", ⟨"uint16_t", 0⟩), ("int32", ⟨"int32_t", 0⟩), ("uint32", ⟨"uint32_t", 0⟩),
   ("int64", ⟨"int64_t", 0⟩), ("uint64", ⟨"uint64_t", 0⟩), ("size", ⟨"size_t", 0⟩),
   ("ssize", ⟨"ssize_t", 0⟩), ("double", ⟨"double", 0⟩),
   ("unixfd", ⟨"sdbusplus::message::unix_fd", 0⟩), ("string", ⟨"std::string", 0⟩),
   ("object_path", ⟨"sdbusplus::object_path", 0⟩),
   ("signature", ⟨"sdbusplus::message::signature", 0⟩), ("array", ⟨"std::vector", 1⟩),
   ("set", ⟨"std::set", 1⟩), ("struct", ⟨"std::tuple", -1⟩), ("variant", ⟨"std::variant", -1⟩),
   ("dict", ⟨"std::map", 2⟩), ("enum", ⟨"enum", 1⟩)]

/-- yaml.safe_load of a text in brackets, none if it raises or gives no list. -/
structure PyYaml where
  safeLoad : Text → Option (List Value)
  /-- Whether a plain scalar is a str, and not a number, a bool or null. -/
  isStr : Text → Bool
  /-- A sequence of plain scalars is a list of its entries. -/
  loads : ∀ text nodes, Plain text → (∀ x, Token.scalar x ∈ lex text → isStr x = true) →
    parse (lex text) = some nodes → safeLoad text = some (valuesOf isStr nodes)
  only : ∀ text values, Plain text → safeLoad text = some values →
    ∃ nodes, parse (lex text) = some nodes ∧ values = valuesOf isStr nodes
  keys : ∀ e ∈ propertyMap, isStr e.1.toList = true
  dotted : ∀ n : DottedName, isStr n.text = true

/-- The functions of inflection. -/
structure Inflection where
  underscore : Text → Text
  camelize : Text → Text

/-- A type name with its details. The name is None here if it is no str. -/
inductive TypeTuple
  | mk (first : Option Text) (rest : List TypeTuple)

/-- What is raised. -/
inductive PyError
  | yamlError
  | indexError
  | keyError (name : Option Text)
  /-- "Invalid typeTuple %s" has one place for the two entries of a tuple. -/
  | typeError
  | attributeError
  /-- "Invalid entry count for %s : %s". -/
  | invalidEntryCount (first : Option Text) (rest : List TypeTuple)

mutual

/-- A list is merged with the name before it. -/
def preprocess : List Value → List TypeTuple
  | [] => []
  | .list _ :: rest => preprocess rest
  | .str s :: rest => .mk (some s) (details rest) :: preprocess rest
  | .other :: rest => .mk none (details rest) :: preprocess rest

/-- The next entry, if it is a list. -/
def details : List Value → List TypeTuple
  | [] => []
  | next :: _ => next.merged

def Value.merged : Value → List TypeTuple
  | .list values => preprocess values
  | .str _ | .other => []

end

def join (sep : String) (parts : List Text) : Text := sep.toList.intercalate parts

/-- A comma before each bracket, and brackets around it all. -/
def yamlText (typeName : Text) : Text :=
  '[' :: (join ",[" (typeName.splitOn '[') ++ [']'])

/-- str.replace, with the number of characters that were replaced and are still to skip. -/
def replaceFrom (old new : Text) : Nat → Text → Text
  | _, [] => []
  | skip + 1, _ :: cs => replaceFrom old new skip cs
  | 0, c :: cs =>
    if old.isPrefixOf (c :: cs) then new ++ replaceFrom old new (old.length - 1) cs
    else c :: replaceFrom old new 0 cs

def localEnumMagic : String := "<LOCAL_ENUM>"

def nonlocalEnumMagic : String := "<NONLOCAL_ENUM>"

variable (yaml : PyYaml) (inflection : Inflection)

/-- __type_tuple of a name that is not empty. -/
def typeTuple (typeName : Text) : Except PyError TypeTuple :=
  match yaml.safeLoad (yamlText typeName) with
  | none => .error .yamlError
  | some typeArray =>
    match preprocess typeArray with
    | [] => .error .indexError
    | t :: _ => .ok t

namespace NamedElement

def namespaces (name : Text) : List Text :=
  (name.splitOn '.').dropLast.map inflection.underscore

def classname (name : Text) : Text :=
  inflection.camelize ((name.splitOn '.').getLast?.getD [])

def cppNamespacedClass (name : Text) : Text :=
  join "::" (namespaces inflection name) ++ "::".toList ++ classname inflection name

end NamedElement

def getItem (name : Option Text) : Except PyError Entry :=
  match propertyMap.find? (fun e => some e.1.toList = name) with
  | some e => .ok e.2
  | none => .error (.keyError name)

/-- The C++ name of an enumeration, with place-holders for what is not known yet. -/
def enumName (name : Text) : Text :=
  if "self.".toList.isPrefixOf name then
    replaceFrom "self.".toList (localEnumMagic ++ "::").toList 0 name
  else
    let result := name.splitOn '.'
    join "::" ["sdbusplus".toList, nonlocalEnumMagic.toList,
      NamedElement.cppNamespacedClass inflection (join "." result.dropLast),
      NamedElement.classname inflection (result.getLast?.getD [])]

/-- The branch for enumerations, of which only the name of the first entry counts. -/
def enumType : List TypeTuple → Except PyError Text
  | [] => .error .indexError
  | .mk none _ :: _ => .error .attributeError
  | .mk (some name) _ :: _ => .ok (enumName inflection name)

mutual

/-- __parse_cpp_type__. -/
def parseTypeTuple : TypeTuple → Except PyError Text
  | .mk first rest => do
    let entry ← getItem first
    if entry.params = 0 then
      if rest.length ≠ 0 then throw .typeError
      else pure entry.cppName.toList
    else if entry.params ≠ -1 ∧ entry.params ≠ rest.length then
      throw (.invalidEntryCount first rest)
    else if entry.cppName = "enum" then enumType inflection rest
    else do
      let parts ← parseTypeTuples rest
      pure (entry.cppName.toList ++ "<".toList ++ join ", " parts ++ ">".toList)

def parseTypeTuples : List TypeTuple → Except PyError (List Text)
  | [] => pure []
  | e :: rest => do
    let part ← parseTypeTuple e
    let parts ← parseTypeTuples rest
    pure (part :: parts)

end

/-- A property without a type has no C++ type either. -/
def parseCppType (typeName : Option Text) : Except PyError (Option Text) :=
  match typeName with
  | none | some [] => .ok none
  | some typeName => do
    let t ← typeTuple yaml typeName
    let cppTypeName ← parseTypeTuple inflection t
    pure (some cppTypeName)

end Sdbusplus.Tools.Property
