import Sdbusplus.Tools.Json
import Sdbusplus.Tools.NamedElement

namespace Sdbusplus.Tools
open Property (Inflection)

/-- A type of metadata. Its values are those that nlohmann::json represents. -/
structure MetadataType where
  Val : Type
  toJson : Val → Json
  getTo : Json → Except JsonError Val
  roundTrip : ∀ v, getTo (toJson v) = .ok v

/-- The names that the schema allows: `^[A-Z][A-Z0-9a-z]*$`. -/
def ValidName (name : List Char) : Prop :=
  ∃ c cs, name = c :: cs ∧ c.isUpper = true ∧ ∀ d ∈ cs, d.isAlphanum = true

/-- EventMetadata, by its name in CamelCase. -/
structure Metadata where
  name : List Char
  type : MetadataType
  valid : ValidName name

/-- The name in SNAKE_CASE. -/
def Metadata.snakeCase (inflection : Inflection) (m : Metadata) : String :=
  String.ofList (Property.NamedElement.upperSnakeCase inflection m.name)

/-- EventElement: what the generator makes an event class of. -/
structure Definition where
  errName : String
  metadata : List Metadata
  distinct : (metadata.map Metadata.name).Nodup

/-- A value for each metadata. -/
def Values : List Metadata → Type
  | [] => Unit
  | m :: ms => m.type.Val × Values ms

structure SourceLocation where
  fileName : String
  functionName : String
  line : UInt64
  column : UInt64
  deriving DecidableEq, Repr

/-- An object of the generated class. -/
structure Event (d : Definition) where
  values : Values d.metadata
  sourceFile : String
  sourceFunc : String
  sourceLine : UInt64
  sourceColumn : UInt64
  pid : Int32
  /-- Dumps by the name of their interface. -/
  extensions : List (String × String)

/-- The constructor from metadata; `pid` is what getpid() returns. -/
def construct (d : Definition) (values : Values d.metadata) (source : SourceLocation)
    (pid : Int32) : Event d :=
  ⟨values, source.fileName, source.functionName, source.line, source.column, pid, []⟩

namespace Event

variable {d : Definition} (inflection : Inflection) (lib : Nlohmann)

/-- extend() with an interface's properties as their JSON. -/
def extend (e : Event d) (interface : String) (v : Json) : Event d :=
  { e with extensions := SortedMap.insert interface (lib.dump v) e.extensions }

/-- The assignments to `j` for the metadata, in order. -/
def assignments : (ms : List Metadata) → Values ms → List (String × Json)
  | [], _ => []
  | m :: ms, (v, vs) => (m.snakeCase inflection, m.type.toJson v) :: assignments ms vs

def sourceInfo (e : Event d) : Json :=
  .object (SortedMap.insertAll [] [("FILE", .string e.sourceFile),
    ("FUNCTION", .string e.sourceFunc), ("LINE", .unsigned e.sourceLine),
    ("COLUMN", .unsigned e.sourceColumn), ("PID", .integer e.pid.toInt64)])

/-- `j["_EXTENSIONS"][interface] = nlohmann::json::parse(dump)` for each extension. -/
def addExtensions (j : List (String × Json)) :
    List (String × String) → Except JsonError (List (String × Json))
  | [] => .ok j
  | (interface, dump) :: extensions => do
    let v ← lib.parse dump
    let inner := match SortedMap.find? "_EXTENSIONS" j with
      | some (.object entries) => entries
      | _ => []
    addExtensions (SortedMap.insert "_EXTENSIONS" (.object (SortedMap.insert interface v inner)) j)
      extensions

def toJson (e : Event d) : Except JsonError Json := do
  let j := SortedMap.insertAll [] (assignments inflection d.metadata e.values)
  let j := SortedMap.insert "_SOURCE" e.sourceInfo j
  let j ← addExtensions lib j e.extensions
  pure (.object [(d.errName, .object j)])

/-- `self.at(..).get_to(..)` for the metadata, in order. -/
def readMetadata (self : Json) : (ms : List Metadata) → Except JsonError (Values ms)
  | [] => .ok ()
  | m :: ms => do
    let j ← self.at_ (m.snakeCase inflection)
    let v ← m.type.getTo j
    let vs ← readMetadata self ms
    pure (v, vs)

/-- The constructor from JSON; `pid` is what getpid() returns if it is called. -/
def ofJson (d : Definition) (j : Json) (s : SourceLocation) (pid : Int32) :
    Except JsonError (Event d) := do
  let self ← j.at_ d.errName
  let values ← readMetadata inflection self d.metadata
  if !self.contains "_SOURCE" then pure (construct d values s pid)
  else
    let src ← self.at_ "_SOURCE"
    let file ← src.at_ "FILE" >>= Json.getString
    let func ← src.at_ "FUNCTION" >>= Json.getString
    let line ← src.at_ "LINE" >>= Json.getSizeT lib
    let column ← src.at_ "COLUMN" >>= Json.getSizeT lib
    let pid ← src.at_ "PID" >>= Json.getPid lib
    pure ⟨values, file, func, line, column, pid, []⟩

end Event

/-- An event that was thrown. -/
structure ThrownEvent where
  definition : Definition
  event : Event definition

/-- event_hooks: emplace() keeps the hook that is there. -/
def registerEvent (hooks : List (String × Definition)) (d : Definition) :
    List (String × Definition) :=
  if hooks.any (fun hook => hook.1 = d.errName) then hooks else hooks ++ [(d.errName, d)]

/-- The hooks when the constructors of the generated files have run. -/
def registerAll (ds : List Definition) : List (String × Definition) := ds.foldl registerEvent []

/-- register_event_helper::throw_event. -/
def throwEvent (inflection : Inflection) (lib : Nlohmann) (d : Definition) (j : Json)
    (s : SourceLocation) (pid : Int32) : Except JsonError ThrownEvent :=
  (Event.ofJson inflection lib d j s pid).map (fun e => ⟨d, e⟩)

/-- exception::throw_via_json: what it throws, nothing if no key is an event's. The keys
of what is not an object are numbers or none. -/
def throwViaJson (inflection : Inflection) (lib : Nlohmann) (hooks : List (String × Definition))
    (j : Json) (s : SourceLocation) (pid : Int32) : Option (Except JsonError ThrownEvent) :=
  match j with
  | .object entries =>
    entries.findSome? (fun item =>
      (hooks.find? (fun hook => hook.1 = item.1)).map
        (fun hook => throwEvent inflection lib hook.2 j s pid))
  | _ => none

end Sdbusplus.Tools
