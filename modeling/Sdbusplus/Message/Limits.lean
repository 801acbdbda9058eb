import Sdbusplus.Message.Bus

namespace Sdbusplus.Message

/-- What libsystemd grants of containers and of signatures. The containers around one are
listed from the inside out. -/
structure Limits where
  /-- Whether sd_bus_message_open_container opens such a container inside of these. -/
  opens : List Kind → Kind → List Char → Bool
  /-- Whether sd_bus_message_enter_container enters it there. -/
  enters : List Kind → Kind → List Char → Bool
  /-- Whether sd_bus_message_verify_type looks for such contents. -/
  verifies : List Char → Bool
  /-- Whether a message with this signature can be sealed, and is taken where it arrives. -/
  carries : List Char → Bool

section Writing

/-- The containers that are open, from the inside out. -/
def Writer.around (w : Writer) : List Kind := w.opened.map Prod.fst

/-- Whether such an element is the next one of the container that is open. -/
def Writer.fits (w : Writer) (id : List Char) : Bool :=
  match w.opened with
  | [] => true
  | (.array, sig, _) :: _ => id = sig
  | (_, sig, _) :: _ => (signature w.items ++ id).isPrefixOf sig

/-- Only an array is closed before it holds all that its signature announces. -/
def Writer.complete (w : Writer) : Bool :=
  match w.opened with
  | [] => false
  | (.array, _, _) :: _ => true
  | (_, sig, _) :: _ => signature w.items = sig

/-- The texts of a message do not matter here, so all of them are taken. -/
def anyText : LibSystemd := ⟨fun _ => true, fun _ => true, fun _ => true⟩

namespace Limits
variable (lim : Limits)

def grants (w : Writer) : AppendCall → Bool
  | .appendBasic t _ => w.fits [t.code]
  | .appendStringIovec _ => w.fits [BusType.string.code]
  | .appendArray t _ _ =>
    lim.opens w.around .array [t.code] && w.fits (Kind.typeId .array [t.code])
  | .openContainer k sig => lim.opens w.around k sig && w.fits (k.typeId sig)
  | .closeContainer => w.complete

/-- A call that is not granted leaves the message alone. -/
def perform (w : Writer) (call : AppendCall) : Writer :=
  if lim.grants w call then (anyText.perform w call).2 else w

def performAll (w : Writer) (calls : List AppendCall) : Writer := calls.foldl lim.perform w

end Limits

end Writing


section Specification

def isBasicCode (c : Char) : Bool :=
  ['y', 'b', 'n', 'q', 'i', 'u', 'x', 't', 'd', 's', 'o', 'g', 'h'].contains c

mutual

/-- What follows the single complete type in front, with so many arrays and structures left
to nest. A dictionary entry is one only in an array. The first number is fuel. -/
def afterType : Nat → Nat → Nat → Bool → List Char → Option (List Char)
  | n + 1, arrays, structs, entry, c :: s =>
    if isBasicCode c || c = 'v' then some s
    else if c = 'a' && 0 < arrays then afterType n (arrays - 1) structs true s
    else if c = '(' && 0 < structs then afterMembers n arrays (structs - 1) s
    else if c = '{' && entry && 0 < structs then
      match s with
      | key :: s =>
        match afterType n arrays (structs - 1) false s with
        | some ('}' :: rest) => if isBasicCode key then some rest else none
        | _ => none
      | [] => none
    else none
  | _, _, _, _, _ => none

/-- What follows the types up to the end of a structure, of which there is one at least. -/
def afterMembers : Nat → Nat → Nat → List Char → Option (List Char)
  | n + 1, arrays, structs, s =>
    match afterType n arrays structs false s with
    | some (')' :: rest) => some rest
    | some rest => afterMembers n arrays structs rest
    | none => none
  | 0, _, _, _ => none

end

/-- Each round takes a character or goes on from a member to its type. -/
def roundsFor (s : List Char) : Nat := 2 * s.length + 1

/-- signature_is_single. -/
def signatureIsSingle (s : List Char) (entry : Bool) : Bool :=
  afterType (roundsFor s) 32 32 entry s = some []

def areTypes (entry : Bool) : Nat → List Char → Bool
  | _, [] => true
  | n + 1, s =>
    match afterType (roundsFor s) 32 32 entry s with
    | some rest => areTypes entry n rest
    | none => false
  | 0, _ => false

/-- signature_is_valid. -/
def signatureIsValid (s : List Char) (entry : Bool) : Bool :=
  s.length ≤ 255 && areTypes entry s.length s

/-- signature_is_pair. -/
def signatureIsPair : List Char → Bool
  | key :: s => isBasicCode key && signatureIsSingle s false
  | [] => false

def isContainer (around : List Kind) : Kind → List Char → Bool
  | .array, sig => signatureIsSingle sig true
  | .variant, sig => signatureIsSingle sig false
  | .struct, sig => signatureIsValid sig false
  | .dictEntry, sig => around.head? = some .array && signatureIsPair sig

def sdBus : Limits where
  opens := isContainer
  enters around k sig := around.length < 128 && isContainer around k sig
  verifies sig := signatureIsValid sig true
  carries sig := signatureIsValid sig false

end Specification

end Sdbusplus.Message
