import Mathlib.Logic.Function.Basic
import Sdbusplus.Proofs.MergeVariants
import Sdbusplus.Tools.Interface

namespace Sdbusplus.Server.Properties
open Tools.Property (Text sortedSet mem_sortedSet)

/-- The C++ types, each with its values and operator==. Several names can be one type. -/
structure CppTypes where
  T : Type
  decT : DecidableEq T
  denotes : Text → T
  Val : T → Type
  decVal : ∀ t, DecidableEq (Val t)
  default : ∀ t, Val t

attribute [instance] CppTypes.decT CppTypes.decVal

/-- A property with its cppTypeParam. -/
structure Property where
  name : String
  cppType : Text
  deriving DecidableEq

abbrev Property.type (lib : CppTypes) (p : Property) : lib.T := lib.denotes p.cppType

/-- An interface definition with properties. -/
structure Interface where
  name : String
  properties : List Property
  nonempty : properties ≠ []
  distinct : (properties.map Property.name).Nodup

structure Emission where
  path : String
  interface : String
  properties : List String
  deriving DecidableEq, Repr

/-- An object of the generated class: a member for each property, and the calls of
sd_bus_emit_properties_changed_strv. -/
structure Object (lib : CppTypes) where
  path : String
  fields : (p : Property) → lib.Val (p.type lib)
  emitted : List Emission

inductive BadVariantAccess
  | badVariantAccess
  deriving DecidableEq, Repr

variable (lib : CppTypes) (I : Interface)

theorem mem_types {p : Property} (h : p ∈ I.properties) :
    p.cppType ∈ sortedSet (I.properties.map Property.cppType) :=
  mem_sortedSet.mpr (List.mem_map_of_mem h)

theorem types_ne_nil : sortedSet (I.properties.map Property.cppType) ≠ [] := by
  obtain ⟨p, hp⟩ := List.exists_mem_of_ne_nil _ I.nonempty
  exact List.ne_nil_of_mem (mem_types I hp)

/-- PropertiesVariant. -/
def propertiesVariant : Utility.Variant lib.T :=
  let types := sortedSet (I.properties.map Property.cppType)
  Utility.dedupVariant (lib.denotes (types.head (types_ne_nil I))) (types.tail.map lib.denotes)

theorem alternatives_eq : (propertiesVariant lib I).alternatives =
    ((sortedSet (I.properties.map Property.cppType)).map lib.denotes).eraseDups := by
  rw [propertiesVariant, Proofs.MergeVariants.dedup_alternatives, ← List.map_cons,
    List.cons_head_tail]

variable {I} in
/-- The type of every property is an alternative. -/
theorem type_mem {p : Property} (h : p ∈ I.properties) :
    p.type lib ∈ (propertiesVariant lib I).alternatives := by
  rw [alternatives_eq, List.mem_eraseDups]
  exact List.mem_map_of_mem (mem_types I h)

/-- A value of the PropertiesVariant, with the alternative that it holds. -/
structure PropertiesVariant where
  type : lib.T
  alternative : type ∈ (propertiesVariant lib I).alternatives
  value : lib.Val type

variable {lib I}

/-- std::get. -/
def PropertiesVariant.get (val : PropertiesVariant lib I) (t : lib.T) :
    Except BadVariantAccess (lib.Val t) :=
  if h : val.type = t then .ok (h ▸ val.value) else .error .badVariantAccess

/-- A variant by default, which is one of the first alternative. -/
def PropertiesVariant.default : PropertiesVariant lib I :=
  ⟨(propertiesVariant lib I).d, List.mem_cons_self, lib.default _⟩

/-- What a call leaves behind, and what it returns or throws. -/
abbrev Call (lib : CppTypes) := ExceptT BadVariantAccess (StateM (Object lib))

/-- server::interface::property_changed. -/
def propertyChanged (I : Interface) (property : String) : Call lib Unit :=
  modify (fun o => { o with emitted := o.emitted ++ [⟨o.path, I.name, [property]⟩] })

/-- The setter of a property with skipSignal, which returns what it has then. -/
def setProperty (I : Interface) (p : Property) (value : lib.Val (p.type lib))
    (skipSignal : Bool) : Call lib (lib.Val (p.type lib)) := do
  if (← get).fields p ≠ value then
    modify (fun o => { o with fields := Function.update o.fields p value })
    if !skipSignal then propertyChanged I p.name
  return (← get).fields p

/-- The tests of setPropertyByName, one after the other. -/
def setByName (I : Interface) (name : String) (val : PropertiesVariant lib I)
    (skipSignal : Bool) : List Property → Call lib Unit
  | [] => return
  | p :: properties => do
    if name = p.name then
      let v ← liftM (val.get (p.type lib))
      let _ ← setProperty I p v skipSignal
      return
    else setByName I name val skipSignal properties

def setPropertyByName (name : String) (val : PropertiesVariant lib I) (skipSignal : Bool) :
    Call lib Unit :=
  setByName I name val skipSignal I.properties

/-- The tests of getPropertyByName. -/
def getByName (o : Object lib) (name : String) :
    (properties : List Property) → (∀ p ∈ properties, p ∈ I.properties) →
      PropertiesVariant lib I
  | [], _ => .default
  | p :: properties, h =>
    if name = p.name then ⟨p.type lib, type_mem lib (h p List.mem_cons_self), o.fields p⟩
    else getByName o name properties (fun q hq => h q (List.mem_cons_of_mem p hq))

def getPropertyByName (I : Interface) (o : Object lib) (name : String) :
    PropertiesVariant lib I :=
  getByName o name I.properties (fun _ hp => hp)

end Sdbusplus.Server.Properties
