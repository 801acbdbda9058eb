import Sdbusplus.Message.Structure

namespace Sdbusplus.Message

/-- The single complete types of the D-Bus signature grammar. -/
inductive Complete : List Char → Prop
  | basic (b : BusType) : Complete [b.code]
  | variant : Complete ['v']
  | array (s : List Char) (contents : Complete s) : Complete ('a' :: s)
  /-- Dictionary entries are elements of arrays only, and have basic keys. -/
  | dict (k : BusType) (s : List Char) (value : Complete s) :
    Complete ('a' :: '{' :: k.code :: s ++ ['}'])
  | struct (ss : List (List Char)) (nonempty : ss ≠ []) (members : ∀ s ∈ ss, Complete s) :
    Complete ('(' :: ss.flatten ++ [')'])

namespace CppType

/-- types::type_id, the tuple of its characters. Of no types it is a special case. -/
def typeIdOf : List CppType → List Char
  | [] => [nul]
  | t :: ts => typeIds (t :: ts) ++ [nul]

/-- The type id of a std::tuple, which here may be empty. -/
def tupleTypeId (args : List CppType) : List Char := '(' :: typeIds args ++ [')']

/-- utility::strip_ends of a std::array. The index sequence has N - 3 elements, so there is
none for fewer than three. -/
def stripEndsArray (s : List Char) : Option (List Char) :=
  if s.length < 3 then none
  else some ((List.range (s.length - 3)).map (fun i => s.getD (1 + i) nul) ++ [nul])

/-- The signature that register_method gives sd-bus for arguments of these types. -/
def argType (args : List CppType) : Option (List Char) :=
  stripEndsArray (tupleTypeId args ++ [nul])

/-- The basic types and the enums, which may be keys. -/
def isKey (t : CppType) : Bool :=
  match t.downcast with
  | .basic _ | .enum _ _ => true
  | _ => false

mutual

/-- The types of which type_id makes a signature, by whether they are elements of an array:
only there a std::pair stands. -/
def Supported (element : Bool) : CppType → Prop
  | .basic _ | .enum _ _ | .variant _ _ => True
  | .sequence _ t | .array _ t | .associative t => Supported true t
  | .pair t u => element = true ∧ t.isKey = true ∧ Supported false u
  | .tuple t ts => Supported false t ∧ SupportedAll ts
  | .qualified _ t => Supported element t

def SupportedAll : List CppType → Prop
  | [] => True
  | t :: ts => Supported false t ∧ SupportedAll ts

end

end CppType

end Sdbusplus.Message
