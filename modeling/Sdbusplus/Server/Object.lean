import Mathlib.Data.List.Nodup

namespace Sdbusplus.Server

/-- server::object::object::action. -/
inductive Action
  | emitObjectAdded
  | emitInterfaceAdded
  | deferEmit
  | emitNoSignals
  deriving DecidableEq, Repr

/-- A template argument of an object. `ι` names the subobjects of class server::interface:
`type (some i)` is a class whose own emit_added() is that of its interface `i`, and
`type none` a class without one. -/
inductive Arg (ι : Type)
  | type (interface : Option ι)
  | object (args : List (Arg ι))

inductive Signal (ι : Type)
  | objectAdded
  | objectRemoved
  | interfacesAdded (i : ι)
  | interfacesRemoved (i : ι)
  deriving DecidableEq, Repr

/-- What the language finds for the name emit_added in a class. -/
inductive Lookup (ι : Type)
  | nothing
  | found (i : ι)
  | ambiguous
  deriving DecidableEq, Repr

def Lookup.merge {ι : Type} : Lookup ι → Lookup ι → Lookup ι
  | .nothing, l => l
  | l, .nothing => l
  | _, _ => .ambiguous

mutual
/-- A composed class declares no emit_added, so the sets found in its bases are merged. -/
def Arg.lookup {ι : Type} : Arg ι → Lookup ι
  | .type (some i) => .found i
  | .type none => .nothing
  | .object args => lookupBases args
def lookupBases {ι : Type} : List (Arg ι) → Lookup ι
  | [] => .nothing
  | a :: as => a.lookup.merge (lookupBases as)
end

mutual
/-- The interfaces among the base classes, in the order they are constructed in. -/
def Arg.interfaces {ι : Type} : Arg ι → List ι
  | .type interface => interface.toList
  | .object args => interfacesOf args
def interfacesOf {ι : Type} : List (Arg ι) → List ι
  | [] => []
  | a :: as => a.interfaces ++ interfacesOf as
end

/-- A tree of nested objects. Two places of the tree are two subobjects. -/
structure ObjectType (ι : Type) where
  args : List (Arg ι)
  distinct : (interfacesOf args).Nodup

def ObjectType.interfaces {ι : Type} (o : ObjectType ι) : List ι := interfacesOf o.args

/-- An object that is being built or lives, with the signals sent so far. -/
structure Object (ι : Type) where
  interfaceAdded : ι → Bool
  signalstate : Action
  emitted : List (Signal ι)

namespace Object

variable {ι : Type} [DecidableEq ι]

/-- All bases are constructed. -/
def composed : Object ι := ⟨fun _ => false, .deferEmit, []⟩

/-- server::interface::interface::emit_added. -/
def emitAdded (s : Object ι) (i : ι) : Object ι :=
  if s.interfaceAdded i then s
  else { s with
    emitted := s.emitted ++ [.interfacesAdded i]
    interfaceAdded := Function.update s.interfaceAdded i true }

/-- server::interface::interface::emit_removed. -/
def emitRemoved (s : Object ι) (i : ι) : Object ι :=
  if s.interfaceAdded i then { s with
    emitted := s.emitted ++ [.interfacesRemoved i]
    interfaceAdded := Function.update s.interfaceAdded i false }
  else s

def emitObjectAdded (s : Object ι) : Object ι :=
  if s.signalstate = .deferEmit then { s with
    emitted := s.emitted ++ [.objectAdded]
    signalstate := .emitObjectAdded }
  else s

mutual
/-- compose::try_emit. Both tests are made, one after the other: a composed class may
have an emit_added() that it inherits. -/
def tryEmit (s : Object ι) (a : Arg ι) : Object ι :=
  let s := match a.lookup with
    | .found i => s.emitAdded i
    | .nothing | .ambiguous => s
  match a with
  | .type _ => s
  | .object args => s.maybeEmitIfaceAdded args
def maybeEmitIfaceAdded (s : Object ι) : List (Arg ι) → Object ι
  | [] => s
  | a :: as => (s.tryEmit a).maybeEmitIfaceAdded as
end

def checkAction (s : Object ι) (args : List (Arg ι)) : Action → Object ι
  | .emitObjectAdded => { s with signalstate := .deferEmit }.emitObjectAdded
  | .emitInterfaceAdded => { s.maybeEmitIfaceAdded args with signalstate := .emitNoSignals }
  | .deferEmit => { s with signalstate := .deferEmit }
  | .emitNoSignals => { s with signalstate := .emitNoSignals }

/-- The constructor; `r i` is what sd_bus_add_object_vtable returns for the interface `i`. -/
def construct (o : ObjectType ι) (r : ι → Int) (act : Action) : Except (Int × String) (Object ι) :=
  match o.interfaces.find? (fun i => r i < 0) with
  | some i => .error (-r i, "sd_bus_add_object_vtable")
  | none => .ok (composed.checkAction o.args act)

/-- ~object, then the destructors of the bases, the last one first. -/
def destroy (o : ObjectType ι) (s : Object ι) : Object ι :=
  let s := if s.signalstate = .emitNoSignals then s
    else { s with emitted := s.emitted ++ [.objectRemoved] }
  o.interfaces.reverse.foldl emitRemoved s

inductive Call (o : ObjectType ι)
  | emitAdded (i : ι) (base : i ∈ o.interfaces)
  | emitRemoved (i : ι) (base : i ∈ o.interfaces)
  | emitObjectAdded

def perform {o : ObjectType ι} (s : Object ι) : Call o → Object ι
  | .emitAdded i _ => s.emitAdded i
  | .emitRemoved i _ => s.emitRemoved i
  | .emitObjectAdded => s.emitObjectAdded

def performAll {o : ObjectType ι} (s : Object ι) (calls : List (Call o)) : Object ι :=
  calls.foldl perform s

end Object

end Sdbusplus.Server
