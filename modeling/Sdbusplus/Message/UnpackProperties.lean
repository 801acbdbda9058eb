import Mathlib.Logic.Function.Basic

namespace Sdbusplus.UnpackProperties

inductive UnpackErrorReason
  | missingProperty
  | wrongType
  deriving DecidableEq, Repr

def unpackErrorReasonToString : UnpackErrorReason → String
  | .missingProperty => "Missing property"
  | .wrongType => "Type not matched"

def errWhat : String :=
  "xyz.openbmc_project.sdbusplus.Error.UnpackPropertyError: unpackProperties failed to unpack " ++
    "one of requested properties."

/-- exception::UnpackPropertyError. -/
structure UnpackPropertyError where
  propertyName : String
  reason : UnpackErrorReason
  errWhatDetailed : String
  deriving DecidableEq, Repr

def UnpackPropertyError.of (propertyName : String) (reason : UnpackErrorReason) :
    UnpackPropertyError where
  propertyName := propertyName
  reason := reason
  errWhatDetailed := errWhat ++ " PropertyName: '" ++ propertyName ++ "', Reason: '" ++
    unpackErrorReasonToString reason ++ "'."

/-- What a value is read to: a T, a std::optional<T> or a const T*. -/
inductive Kind
  | plain
  | optional
  | pointer
  deriving DecidableEq, Repr

/-- A pointer to the value of an element of the container, or to anything else. -/
inductive Pointer
  | null
  | element (place : Nat)
  | other (address : Nat)
  deriving DecidableEq, Repr

structure Output (ι : Type) where
  kind : Kind
  type : ι
  deriving DecidableEq, Repr

/-- A std::variant with an alternative for each `ι`, none if it is valueless. -/
abbrev Variant {ι : Type} (Val : ι → Type) := Option ((i : ι) × Val i)

/-- std::get_if. -/
def getIf {ι : Type} [DecidableEq ι] {Val : ι → Type} (i : ι) : Variant Val → Option (Val i)
  | some ⟨j, x⟩ => if h : j = i then some (h ▸ x) else none
  | none => none

abbrev Container {ι : Type} (Val : ι → Type) := List (String × Variant Val)

namespace Output

variable {ι : Type}

def Stored (Val : ι → Type) (o : Output ι) : Type :=
  match o.kind with
  | .plain => Val o.type
  | .optional => Option (Val o.type)
  | .pointer => Pointer

/-- What the output gets from a value at a place of the container. -/
def store {Val : ι → Type} (place : Nat) : (o : Output ι) → Val o.type → o.Stored Val
  | ⟨.plain, _⟩, value => value
  | ⟨.optional, _⟩, value => some value
  | ⟨.pointer, _⟩, _ => Pointer.element place

end Output

/-- A key with the variable that its value goes to. No key is itself such a variable. -/
structure Request (Loc : Type) where
  key : String
  output : Loc

/-- The variables at their locations, and what a callback was told. -/
structure State {ι Loc : Type} (Val : ι → Type) (decl : Loc → Output ι) where
  container : Container Val
  memory : (l : Loc) → (decl l).Stored Val
  calls : List (UnpackErrorReason × String)

variable {ι Loc : Type} [DecidableEq ι] [DecidableEq Loc] {Val : ι → Type} {decl : Loc → Output ι}
  {ε : Type}

/-- std::find_if, whose result is the end if there is no such key. -/
def findProperty (container : Container Val) (key : String) : Nat :=
  container.findIdx (fun keyValue => keyValue.1 = key)

/-- A callback that may throw an ε. -/
abbrev OnError (ε : Type) (Val : ι → Type) (decl : Loc → Output ι) :=
  UnpackErrorReason → String → State Val decl → Except ε Unit × State Val decl

def reportError (onError : OnError ε Val decl) (reason : UnpackErrorReason) (key : String)
    (s : State Val decl) : Except ε Bool × State Val decl :=
  match onError reason key s with
  | (.ok (), s) => (.ok false, s)
  | (.error e, s) => (.error e, s)

def readProperty (onError : OnError ε Val decl) (r : Request Loc) (s : State Val decl) :
    Except ε Bool × State Val decl :=
  let it := findProperty s.container r.key
  match s.container[it]? with
  | some (_, v) =>
    match getIf (decl r.output).type v with
    | some value =>
      (.ok true, { s with
        memory := Function.update s.memory r.output ((decl r.output).store it value) })
    | none => reportError onError .wrongType r.key s
  | none =>
    if (decl r.output).kind = .plain then reportError onError .missingProperty r.key s
    else (.ok true, s)

/-- It takes one request at least. -/
def readProperties (onError : OnError ε Val decl) : Request Loc → List (Request Loc) →
    State Val decl → Except ε Bool × State Val decl
  | r, [], s => readProperty onError r s
  | r, q :: rs, s =>
    match readProperty onError r s with
    | (.ok true, s) => readProperties onError q rs s
    | (.ok false, s) => (.ok false, s)
    | (.error e, s) => (.error e, s)

def raiseError : OnError UnpackPropertyError Val decl :=
  fun reason property s => (.error (.of property reason), s)

/-- A callback that returns. -/
def noteError : OnError Empty Val decl :=
  fun reason property s => (.ok (), { s with calls := s.calls ++ [(reason, property)] })

def unpackProperties (r : Request Loc) (rs : List (Request Loc)) (s : State Val decl) :
    Except UnpackPropertyError Unit × State Val decl :=
  match readProperties raiseError r rs s with
  | (.ok _, s) => (.ok (), s)
  | (.error e, s) => (.error e, s)

def unpackPropertiesNoThrow (r : Request Loc) (rs : List (Request Loc)) (s : State Val decl) :
    Except Empty Bool × State Val decl :=
  readProperties noteError r rs s

end Sdbusplus.UnpackProperties
