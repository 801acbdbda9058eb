import Sdbusplus.Base.Machine
import Sdbusplus.Message.Bus

namespace Sdbusplus.Server.Transaction
open Message (Bytes)

/-- What set_id of a message can throw. -/
inductive Thrown
  | sdBusError (error : Int) (what : String)
  | runtimeError (what : String)
  deriving DecidableEq, Repr

/-- SD_BUS_MESSAGE_METHOD_CALL, METHOD_RETURN, METHOD_ERROR and SIGNAL. -/
inductive MessageType
  | methodCall
  | methodReturn
  | methodError
  | signal
  | unknown
  deriving DecidableEq, Repr

/-- What libsystemd says of a message, or the error numbers it gives instead. -/
structure Header where
  type : Except Int MessageType
  cookie : Except Int UInt64
  replyCookie : Except Int UInt64

/-- What is not the message's: the standard library's hash of the unique name of the
bus and the ticks of its steady clock. -/
structure Surroundings where
  uniqueName : Bytes
  hashString : Bytes → UInt64
  now : UInt64

def orThrow {α : Type} (what : String) : Except Int α → Except Thrown α
  | .ok a => .ok a
  | .error e => .error (.sdBusError e what)

/-- std::hash<message_t>. That of a number is the number itself. -/
def hashMessage (now : UInt64) (m : Header) : Except Thrown UInt64 := do
  match ← orThrow "sd_bus_message_get_type" m.type with
  | .methodReturn | .methodError => orThrow "sd_bus_message_get_reply_cookie" m.replyCookie
  | .methodCall => orThrow "sd_bus_message_get_cookie" m.cookie
  | .signal => pure now
  | .unknown => throw (.runtimeError "hash message: Unknown message type")

/-- The boost::hash_combine() algorithm. -/
def combine (hash1 hash2 : UInt64) : UInt64 :=
  hash1 ^^^ (hash2 + 0x9e3779b9 + hash1 <<< (6 : UInt64) + hash1 >>> (2 : UInt64))

/-- std::hash<Transaction>. -/
def hashTransaction (u : Surroundings) (m : Header) : Except Thrown UInt64 := do
  let hash2 ← hashMessage u.now m
  pure (combine (u.hashString u.uniqueName) hash2)

/-- get_id, given the hashes of the time and of the thread: what it returns, and the
id of the thread then. -/
def getId (id time thread : UInt64) : UInt64 × UInt64 :=
  let id := if id = 0 then combine time thread else id
  (id, id)

/-- set_id of a message. A throw leaves the id as it is. -/
def setId (id : UInt64) (u : Surroundings) (m : Header) : Except Thrown Unit × UInt64 :=
  match hashTransaction u m with
  | .ok value => (.ok (), value)
  | .error e => (.error e, id)

/-- The cookie that the call of a call, or of a reply to it, has. -/
def Header.callCookie (m : Header) : Option UInt64 :=
  match m.type with
  | .ok .methodCall => m.cookie.toOption
  | .ok .methodReturn | .ok .methodError => m.replyCookie.toOption
  | .ok .signal | .ok .unknown | .error _ => none

/-- What the id of a thread was set from. -/
inductive Origin
  | unknown
  /-- A call with this cookie, or a reply to it. Cookies are those of one sender. -/
  | cookie (c : UInt64)
  | value (v : UInt64)
  deriving DecidableEq, Repr

/-- A thread that runs callbacks: its id with its origin, and what each get_id returned
with the origin that the id then had. -/
structure Thread where
  id : UInt64
  origin : Origin
  observed : List (Origin × UInt64)

inductive Event
  /-- A callback begins, which sets the id from its message. -/
  | callback (m : Header) (now : UInt64)
  /-- set_id of a value. -/
  | setId (value : UInt64)
  | getId (time thread : UInt64)

def Header.origin (m : Header) : Origin :=
  match m.callCookie with
  | some c => .cookie c
  | none => .unknown

/-- The callbacks are those of one bus. -/
def step (name : Bytes) (hashString : Bytes → UInt64) (s : Thread) : Event → Option Thread
  | .callback m now =>
    match setId s.id ⟨name, hashString, now⟩ m with
    | (.ok (), id) => some { s with id := id, origin := m.origin }
    -- The callback ends here, with the id as it was.
    | (.error _, id) => some { s with id := id }
  | .setId value => some { s with id := value, origin := .value value }
  | .getId time thread =>
    let (value, id) := getId s.id time thread
    some { s with id := id, observed := s.observed ++ [(s.origin, value)] }

def machine (name : Bytes) (hashString : Bytes → UInt64) : Machine Thread Event :=
  ⟨⟨0, .unknown, []⟩, step name hashString⟩

end Sdbusplus.Server.Transaction
