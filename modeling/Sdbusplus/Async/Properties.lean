import Sdbusplus.Async.Proxy
import Sdbusplus.Server.PropertyCallback

namespace Sdbusplus.Async.Properties
open Message
open Asio (BusError ErrnoTable Reply)
open Server.PropertyCallback (Index Interface)

/-- Where a type is among the alternatives of a std::variant. -/
inductive Place (t : Ty) : List Ty → Type
  | here (ts : List Ty) : Place t (t :: ts)
  | later (u : Ty) (ts : List Ty) (p : Place t ts) : Place t (u :: ts)

variable {t : Ty}

/-- A variant that holds a value. -/
def Place.put : (ts : List Ty) → Place t ts → t.Val → VariantVal ts
  | _ :: _, .here _, v => .inl v
  | _ :: _, .later _ ts p, v => .inr (p.put ts v)

/-- What a variant holds if it is of this type. -/
def Place.get : (ts : List Ty) → Place t ts → VariantVal ts → Option t.Val
  | _ :: _, .here _, .inl v => some v
  | _ :: _, .later _ ts p, .inr w => p.get ts w
  | _ :: _, .here _, .inr _ | _ :: _, .later _ _ _, .inl _ => none

variable {I : Interface}

/-- The PropertiesVariant of the generated class. It has the types of the properties, and
each type once. -/
structure PropertiesVariant (I : Interface) where
  first : Ty
  rest : List Ty
  place : (i : Index I) → Place (I.property i).type (first :: rest)
  only : ∀ t ∈ first :: rest, ∃ i, (I.property i).type = t
  distinct : (first :: rest).Nodup

namespace PropertiesVariant

def alternatives (V : PropertiesVariant I) : List Ty := V.first :: V.rest

def type (V : PropertiesVariant I) : Ty := .variant V.first V.rest

end PropertiesVariant

/-- properties_t. -/
abbrev Fields (I : Interface) := (i : Index I) → I.Val i

/-- exception::UnpackPropertyError of a value of another type. -/
structure WrongType where
  propertyName : Bytes
  deriving DecidableEq, Repr

/-- The loop of properties_t::unpack. A name that no property has is passed over. -/
def unpackInto (V : PropertiesVariant I) (result : Fields I) :
    List (Bytes × V.type.Val) → Except WrongType (Fields I)
  | [] => .ok result
  | (property, value) :: m =>
    match I.find property with
    | none => unpackInto V result m
    | some i =>
      match (V.place i).get _ value with
      | some v => unpackInto V (Function.update result i v) m
      | none => .error ⟨property⟩

/-- How properties() of the generated client ends. -/
inductive Aborted
  | call (e : Asio.Abort)
  | unpack (e : WrongType)

/-- What it completes with. The fields of properties_t have `defaults` at first. -/
def completes (h : HashOrder) (errnos : ErrnoTable) (V : PropertiesVariant I)
    (defaults : Fields I) (m : Reply) (e : Option BusError) : Except Aborted (Fields I) :=
  match Proxy.getAllCompletes h errnos V.type m e with
  | .ok v => (unpackInto V defaults v.val).mapError .unpack
  | .error x => .error (.call x)

end Sdbusplus.Async.Properties
