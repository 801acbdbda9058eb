import Mathlib.Data.Char
import Mathlib.Data.List.Dedup
import Mathlib.Data.List.Infix
import Mathlib.Data.List.Lex
import Sdbusplus.Tools.Property

namespace Sdbusplus.Tools.Property

/-- `part in text` of two strs. -/
def contains (text part : Text) : Bool := decide (part <:+: text)

/-- str.replace. -/
def replace (old new text : Text) : Text := replaceFrom old new 0 text

/-- sorted(set(...)) of strs. -/
def sortedSet (texts : List Text) : List Text :=
  texts.dedup.mergeSort (fun a b => decide (a ≤ b))

theorem mem_sortedSet {text : Text} {texts : List Text} :
    text ∈ sortedSet texts ↔ text ∈ texts := by
  rw [sortedSet, List.mem_mergeSort, List.mem_dedup]

/-- `".".join(name.split(".")[0:-1])`. -/
def parentName (name : Text) : Text := join "." (name.splitOn '.').dropLast

def NamedElement.headerFile (name : Text) (typename : String) : Text :=
  replace ".".toList "/".toList name ++ "/".toList ++ typename.toList ++ ".hpp".toList

/-- What an enumeration contributes to __enum_headers. -/
def enumHeader (interface : Option Text) (enumType : Text) : List Text :=
  if contains enumType "self.".toList then
    match interface with
    | none | some [] => []
    | some interface =>
      let enumType := replace "self.".toList (interface ++ ".".toList) enumType
      [NamedElement.headerFile (parentName enumType) "common"]
  else [NamedElement.headerFile (parentName enumType) "common"]

mutual

/-- __enum_headers. -/
def tupleHeaders (interface : Option Text) : TypeTuple → Except PyError (List Text)
  | .mk first rest =>
    if first = some "enum".toList then
      match rest with
      | [] => .error .indexError
      -- `in` needs a str.
      | .mk none _ :: _ => .error .typeError
      | .mk (some enumType) _ :: _ => .ok (enumHeader interface enumType)
    else tuplesHeaders interface rest

def tuplesHeaders (interface : Option Text) : List TypeTuple → Except PyError (List Text)
  | [] => pure []
  | t :: rest => do
    let r ← tupleHeaders interface t
    let rs ← tuplesHeaders interface rest
    pure (r ++ rs)

end

variable (yaml : PyYaml)

/-- enum_headers. There is no type tuple of a property without a type. -/
def enumHeaders (typeName : Option Text) (interface : Option Text) :
    Except PyError (List Text) :=
  match typeName with
  | none | some [] => .error .typeError
  | some typeName => do
    let typeTuple ← typeTuple yaml typeName
    tupleHeaders interface typeTuple

namespace Interface

/-- enum_includes of properties with these types. -/
def enumIncludes (incList : List (Option Text)) : Except PyError (List Text) := do
  let includes ← incList.mapM (fun e => enumHeaders yaml e none)
  pure (sortedSet includes.flatten)

variable (name : Text)

/-- The expansion of an error, which error_includes and errorNamespacedClass both make. -/
def expandSelf (e : Text) : Text := replace "self.".toList (name ++ ".".toList) e

/-- The header that error_includes has for an error. -/
def errorInclude (e : Text) : Text :=
  let e := expandSelf name e
  if contains e ".Error.".toList then
    -- The Error.Name at the end is left out.
    let n := join "/" ((e.splitOn '.').dropLast.dropLast)
    n ++ "/error.hpp".toList
  else
    let n := join "/" (e.splitOn '.').dropLast
    n ++ "/event.hpp".toList

def errorIncludes (incList : List Text) : List Text := sortedSet (incList.map (errorInclude name))

def errorNamespacedClass (error : Text) : Text :=
  let error := expandSelf name error
  let error := if contains error ".Error".toList then error else "error.".toList ++ error
  "sdbusplus::".toList ++ join "::" (error.splitOn '.')

end Interface

end Sdbusplus.Tools.Property
