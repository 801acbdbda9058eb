import Sdbusplus.Tools.NamedElement

namespace Sdbusplus.Tools.Property

/-- What a YAML file has for a path or a segment. -/
inductive PathDefinition
  | mk (namespacePath instancePath value name : Option Text) (segments : List PathDefinition)

/-- Path. -/
inductive Path
  | mk (value name : Text) (segments : List Path)

/-- What constructing a path raises. -/
inductive PathError
  | valueError (text : Text)
  | keyError (key : String)
  | indexError
  deriving DecidableEq

namespace PathDefinition

/-- The name and the value that are given, which is empty if none is. -/
def given : PathDefinition → Option Text × Text
  | mk (some value) _ _ _ _ => (some "NamespacePath".toList, value)
  | mk none (some value) _ _ _ => (some "InstancePath".toList, value)
  | mk none none value name _ => (name, value.getD [])

def segments : PathDefinition → List PathDefinition
  | mk _ _ _ _ segments => segments

end PathDefinition

namespace Path

def value : Path → Text
  | mk value _ _ => value

def segments : Path → List Path
  | mk _ _ segments => segments

/-- The pattern is "[^a-zA-Z0-9_]". -/
def illegal (c : Char) : Bool := !(c.isAlphanum || c = '_')

def checkElements (value : Text) : List Text → Except PathError Unit
  | [] => pure ()
  | s :: segments =>
    if s.length = 0 then
      .error (.valueError ("Paths cannot have consecutive /: ".toList ++ value ++ " ".toList ++ s))
    else if s.any illegal then
      .error (.valueError ("Path contains illegal characters: ".toList ++ value))
    else checkElements value segments

variable (inflection : Inflection)

/-- A segment without a value has its name for it. -/
def defaultValue (segment : Bool) (name : Option Text) (value : Text) : Except PathError Text :=
  if value.length = 0 then
    if segment then
      match name with
      | none => .error (.keyError "name")
      | some name => pure (NamedElement.snakeCase inflection name)
    else .error (.valueError "Invalid empty path.".toList)
  else pure value

/-- The validation in Path.__init__. -/
def validate (segment : Bool) (value : Text) : Except PathError Unit :=
  match value with
  | [] => .error .indexError
  | first :: _ =>
    if !segment && first ≠ '/' then
      .error (.valueError ("Paths must start with /: ".toList ++ value))
    else if segment && first = '/' then
      .error (.valueError ("Segments cannot start with /: ".toList ++ value))
    else
      let segments := value.splitOn '/'
      let segments := if segment then segments else segments.drop 1
      checkElements value segments

mutual

/-- Path.__init__. -/
def construct (segment : Bool) : PathDefinition → Except PathError Path
  | .mk namespacePath instancePath value name segments => do
    let (name, value) := (PathDefinition.mk namespacePath instancePath value name segments).given
    let value ← defaultValue inflection segment name value
    validate segment value
    let segments ← constructAll segments
    pure (.mk value (name.getD "unnamed".toList) segments)

def constructAll : List PathDefinition → Except PathError (List Path)
  | [] => pure []
  | s :: segments => do
    let p ← construct true s
    let ps ← constructAll segments
    pure (p :: ps)

end

end Path

end Sdbusplus.Tools.Property
