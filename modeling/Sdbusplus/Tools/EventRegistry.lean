import Sdbusplus.Tools.Event
import Sdbusplus.Tools.Interface
import Sdbusplus.Tools.NamedElement

namespace Sdbusplus.Tools.Property

/-- The registryName of those entries of propertyMap that have one. -/
def registryNames : List (String × String) :=
  [("int64", "number"), ("uint64", "number"), ("size", "number"), ("double", "number"),
   ("string", "string"), ("object_path", "string"), ("enum", "string")]

/-- registry_type. There is no type tuple of a property without a type. -/
def registryType (yaml : PyYaml) (typeName : Option Text) : Except PyError String :=
  match typeName with
  | none | some [] => .error .typeError
  | some typeName => do
    let .mk first _ ← typeTuple yaml typeName
    let _ ← getItem first
    match registryNames.find? (fun e => some e.1.toList = first) with
    | some e => pure e.2
    | none => .error (.keyError (some "registryName".toList))

/-- cppTypeParam. None has no method replace. -/
def cppTypeParam (inflection : Inflection) (interface : Text) (cppTypeName : Option Text)
    (full : Bool) (typename : String) : Except PyError Text :=
  match cppTypeName with
  | none => .error .attributeError
  | some r =>
    let iface := NamedElement.cppNamespacedClass inflection interface
    let r :=
      if full then replace localEnumMagic.toList ("sdbusplus::common::".toList ++ iface) r
      else replace (localEnumMagic ++ "::").toList [] r
    .ok (replace nonlocalEnumMagic.toList typename.toList r)

def NamedElement.registryPrefix (inflection : Inflection) (root name : Text) : Text :=
  let name := replace "xyz.openbmc_project.".toList [] name
  let name := replace ".".toList "_".toList (replace "com.".toList [] name)
  root ++ "_".toList ++ inflection.camelize name

/-- What going through the flags gives. Format makes a text of one that is no str. -/
inductive Flag
  | str (text : Text)
  | other (text : Text)
  | unhashable

inductive Flags
  | items (flags : List Flag)
  | notIterable

inductive EventError
  | property (e : PyError)
  | valueError (text : Text)

/-- Nothing is or-ed for readonly. -/
def flagsDict : List (String × Option String) :=
  [("const", some "vtable::property_::const_"), ("deprecated", some "vtable::common_::deprecated"),
   ("emits_change", some "vtable::property_::emits_change"),
   ("emits_invalidation", some "vtable::property_::emits_invalidation"),
   ("explicit", some "vtable::property_::explicit_"), ("hidden", some "vtable::common_::hidden"),
   ("readonly", none), ("unprivileged", some "vtable::common_::unprivileged")]

def invalidFlag (flag : Text) : EventError :=
  .valueError ("Invalid flag \"".toList ++ flag ++ "\"".toList)

def cppFlag : Flag → Except EventError (Option String)
  | .str text =>
    match flagsDict.find? (fun e => e.1.toList = text) with
    | some e => .ok e.2
    | none => .error (invalidFlag text)
  | .other text => .error (invalidFlag text)
  | .unhashable => .error (.property .typeError)

def orCppFlags : Flags → Except EventError Text
  | .items flags => do
    let cppFlags ← flags.mapM cppFlag
    pure (join " | " (cppFlags.filterMap (Option.map String.toList)))
  | .notIterable => .error (.property .typeError)

end Sdbusplus.Tools.Property

namespace Sdbusplus.Tools.EventRegistry
open Property

/-! ## What the schema accepts -/

/-- `^[A-Z][A-Z0-9a-z]*$`, where `$` also stands before a line feed at the end. -/
def SchemaName (name : Text) : Prop :=
  ∃ valid, ValidName valid ∧ (name = valid ∨ name = valid ++ ['\n'])

/-- The names in `(string)|(size)|(u?int64)|(double)|(object_path)|(enum\[.*\])`. -/
def schemaWords : List String := ["string", "size", "int64", "uint64", "double", "object_path"]

/-- This pattern is found anywhere in a type. -/
def SchemaType (type : Text) : Prop :=
  (∃ word ∈ schemaWords, word.toList <:+: type) ∨
    ∃ inside, '\n' ∉ inside ∧ "enum[".toList ++ inside ++ "]".toList <:+: type

structure MetadataDefinition where
  name : Text
  type : Text
  primary : Bool
  flags : Flags
  /-- The keys that neither the schema nor a constructor knows. -/
  others : List Text
  validName : SchemaName name
  schemaType : SchemaType type

structure LanguageDefinition where
  description : Option Text
  message : Text
  resolution : Option Text
  others : List Text

inductive Severity
  | emergency
  | alert
  | critical
  | error
  | warning
  | notice
  | informational
  | debug
  deriving DecidableEq, Repr

/-- An error or an event. -/
structure ElementDefinition where
  name : Text
  severity : Option Severity
  redfishMapping : Option Text
  en : Option LanguageDefinition
  metadata : List MetadataDefinition
  /-- The pattern of a mapping takes no empty text. -/
  oneOf : (redfishMapping = none ∧ en ≠ none) ∨ ∃ c cs, redfishMapping = some (c :: cs) ∧ en = none

structure EventsDefinition where
  version : Text
  errors : List ElementDefinition
  events : List ElementDefinition
  others : List Text

/-! ## Construction -/

structure EventMetadata where
  name : Text
  typeName : Option Text
  cppTypeName : Option Text
  cppFlags : Text
  primary : Bool

structure EventLanguage where
  description : Option Text
  message : Text
  resolution : Option Text

structure EventElement where
  name : Text
  redfishMap : Option Text
  /-- The one for "en", which is the only one. -/
  language : EventLanguage
  metadata : List EventMetadata
  registrySev : String

structure Event where
  name : Text
  version : Text
  errors : List EventElement
  events : List EventElement

def registrySeverity : Severity → String
  | .emergency | .alert | .critical => "Critical"
  | .error | .warning | .notice => "Warning"
  | .informational | .debug => "OK"

/-- A constructor is called with the keys, and has a parameter self already. -/
def callWith (keys : List Text) : Except EventError Unit :=
  if "self".toList ∈ keys then .error (.property .typeError) else .ok ()

variable (yaml : PyYaml) (inflection : Inflection)

def constructMetadata (n : MetadataDefinition) : Except EventError EventMetadata := do
  callWith n.others
  let cppTypeName ← (parseCppType yaml inflection (some n.type)).mapError .property
  let cppFlags ← orCppFlags n.flags
  -- A default or errors among the keys make nothing fail.
  pure ⟨n.name, some n.type, cppTypeName, cppFlags, n.primary⟩

/-- The keys are none if there is no "en". -/
def constructLanguage : Option LanguageDefinition → Except EventError EventLanguage
  | none => .error (.property (.keyError (some "message".toList)))
  | some n => do
    callWith n.others
    pure ⟨n.description, n.message, n.resolution⟩

def constructLanguages (n : ElementDefinition) : Except EventError EventLanguage :=
  match n.redfishMapping with
  | none | some [] => constructLanguage n.en
  | some redfishMap => .ok ⟨none, "Redfish(".toList ++ redfishMap ++ ")".toList, none⟩

def constructElement (n : ElementDefinition) : Except EventError EventElement := do
  let language ← constructLanguages n
  let metadata ← n.metadata.mapM (constructMetadata yaml inflection)
  let severity := n.severity.getD .informational
  pure ⟨n.name, n.redfishMapping, language, metadata, registrySeverity severity⟩

/-- Event of a document with this name, which Event.load has validated. -/
def construct (name : Text) (y : EventsDefinition) : Except EventError Event := do
  callWith y.others
  let errors ← y.errors.mapM (constructElement yaml inflection)
  let events ← y.events.mapM (constructElement yaml inflection)
  pure ⟨name, y.version, errors, events⟩

/-! ## The registry -/

structure RegistryEvent where
  description : Option Text
  message : Text
  resolution : Text
  messageSeverity : String
  numberOfArgs : Nat
  paramTypes : List String
  event : Text
  /-- The Name and the Type of each. -/
  args : List (Text × Text)

structure RegistryMapping where
  redfishEvent : Text
  args : List (Text × Text)

def registryArgs (e : EventElement) : List EventMetadata := e.metadata.filter EventMetadata.primary

def placeholder (name : Text) : Text := '{' :: (name ++ ['}'])

def argument (i : Nat) : Text := '%' :: Nat.toDigits 10 (i + 1)

/-- The loop over the arguments. The language keeps this message. -/
def registryMessage (args : List EventMetadata) (message : Text) : Text :=
  args.zipIdx.foldl (fun message arg => replace (placeholder arg.1.name) (argument arg.2) message)
    message

def registryArgsMapping (interface : Text) (e : EventElement) :
    Except PyError (List (Text × Text)) :=
  (registryArgs e).mapM (fun x => do
    let type ← cppTypeParam inflection interface x.cppTypeName true "common"
    pure (NamedElement.upperSnakeCase inflection x.name, type))

def registryResolution (language : EventLanguage) : Text :=
  match language.resolution with
  | none | some [] => "None.".toList
  | some resolution => resolution

def registryEvent (interface : Text) (e : EventElement) : Except PyError RegistryEvent := do
  let args := registryArgs e
  let message := registryMessage args e.language.message
  let resolution := registryResolution e.language
  let paramTypes ← args.mapM (fun x => registryType yaml x.typeName)
  let mapping ← registryArgsMapping inflection interface e
  pure ⟨e.language.description.filter (fun d => d ≠ []), message, resolution, e.registrySev,
    args.length, paramTypes, interface ++ ".".toList ++ e.name, mapping⟩

def registryMapping (redfishMap interface : Text) (e : EventElement) :
    Except PyError RegistryMapping := do
  let args ← registryArgsMapping inflection interface e
  pure ⟨redfishMap, args⟩

/-- Assigning to a key of a dict. -/
def setItem {α : Type} (key : Text) (value : α) : List (Text × α) → List (Text × α)
  | [] => [(key, value)]
  | item :: items => if item.1 = key then (key, value) :: items else item :: setItem key value items

structure Tables where
  messages : List (Text × RegistryEvent)
  mappings : List (Text × RegistryMapping)

def addElement (interface : Text) (t : Tables) (e : EventElement) : Except PyError Tables :=
  match e.redfishMap with
  | none | some [] => do
    let message ← registryEvent yaml inflection interface e
    pure { t with messages := setItem e.name message t.messages }
  | some redfishMap => do
    let mapping ← registryMapping inflection redfishMap interface e
    pure { t with mappings := setItem (interface ++ ".".toList ++ e.name) mapping t.mappings }

structure Registry where
  copyright : Text
  odataType : String
  id : Text
  language : String
  messages : List (Text × RegistryEvent)
  name : Text
  description : Text
  owningEntity : String
  registryPrefix : Text
  registryVersion : Text
  /-- The OpenBMC_Mapping, if there is one. -/
  oem : Option (List (Text × RegistryMapping))

/-- exception_registry, up to the output as JSON. -/
def exceptionRegistry (year : Nat) (event : Event) : Except PyError Registry := do
  let registryName := NamedElement.registryPrefix inflection "OpenBMC".toList event.name
  let elements := event.errors ++ event.events
  let tables ← elements.foldlM (addElement yaml inflection event.name) ⟨[], []⟩
  let name := "OpenBMC Message Registry for ".toList ++ event.name
  pure {
    copyright := "Copyright 2024-".toList ++ Nat.toDigits 10 year ++ " OpenBMC.".toList
    odataType := "#MessageRegistry.v1_6_3.MessageRegistry"
    id := registryName ++ ".".toList ++ event.version
    language := "en"
    messages := tables.messages
    name := name
    description := name
    owningEntity := "OpenBMC"
    registryPrefix := registryName
    registryVersion := event.version
    oem := if tables.mappings.length ≠ 0 then some tables.mappings else none }

end Sdbusplus.Tools.EventRegistry
