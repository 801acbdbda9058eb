import Sdbusplus.Message.Containers
import Sdbusplus.Message.NativeTypes

namespace Sdbusplus.Message

inductive Exception
  | sdBusError (error : Int) (what : String)
  | invalidEnumString
  /-- A string is constructed from a null pointer, which the language leaves open. -/
  | nullString
  /-- A loop whose body never moves the cursor. -/
  | diverges
  deriving DecidableEq, Repr

/-- Reading moves the cursor of the message or throws. -/
abbrev ReadM (α : Type) := StateT Cursor (Except Exception) α

def raise {α : Type} (e : Exception) : ReadM α := fun _ => .error e

/-- A call into libsystemd whose negative results are thrown. -/
def callBus {α : Type} (what : String) (f : Cursor → Int × α × Cursor) : ReadM (Int × α) :=
  fun c =>
    let (r, a, c') := f c
    if r < 0 then .error (.sdBusError (-r) what) else .ok ((r, a), c')

def Basic.what : Basic → String
  | .bool => "sd_bus_message_read_basic bool"
  | .string | .stringView | .objectPath | .signature => "sd_bus_message_read_basic string"
  | .uint8 | .uint16 | .int16 | .uint32 | .int32 | .uint64 | .int64 | .double | .cString
  | .unixFd => "sd_bus_message_read_basic fundamental"

/-- The output when read_basic leaves its argument alone, at the end of an array. -/
def Basic.untouched : (b : Basic) → b.Val → ReadM b.Val
  | .bool, _ => pure false
  | .string, _ | .stringView, _ | .objectPath, _ | .signature, _ => raise .nullString
  | .uint8, out | .uint16, out | .int16, out | .uint32, out | .int32, out | .uint64, out
  | .int64, out | .double, out | .cString, out | .unixFd, out => pure out

/-- read_single for the basic types. -/
def readBasic (b : Basic) (out : b.Val) : ReadM b.Val := do
  let (_, d) ← callBus b.what (Cursor.readBasic b.busType)
  match d with
  | some d => pure d
  | none => b.untouched out

/-- The result of convert_from_string, which has to be there. -/
def orInvalidEnum {α : Type} : Option α → ReadM α
  | some v => pure v
  | none => raise .invalidEnumString

/-- read_single for enums. -/
def readEnum (e : GeneratedEnum) : ReadM e.Val := do
  let value ← readBasic .string []
  orInvalidEnum (e.fromString value)

def readKey : (k : Key) → k.Val → ReadM k.Val
  | .basic b _, out => readBasic b out
  | .enum e, _ => readEnum e

/-- What every read_single of a container does around its contents. -/
def readContainer {α : Type} (what : String) (k : Kind) (sig : List Char) (inside : ReadM α) :
    ReadM α := do
  let _ ← callBus ("sd_bus_message_enter_container " ++ what) (Cursor.enterContainer k sig)
  let a ← inside
  let _ ← callBus ("sd_bus_message_exit_container " ++ what) Cursor.exitContainer
  pure a

/-- The loop until sd_bus_message_at_end, for so many rounds at most. -/
def readWhile {α : Type} (what : String) (step : α → ReadM α) : Nat → α → ReadM α
  | 0, _ => raise .diverges
  | n + 1, a => do
    let (r, _) ← callBus ("sd_bus_message_at_end " ++ what) Cursor.atEnd
    if r = 0 then
      let a ← step a
      readWhile what step n a
    else pure a

/-- A loop that has not ended when every element left was read once never ends. -/
def readUntilEnd {α : Type} (what : String) (step : α → ReadM α) (a : α) : ReadM α :=
  fun c => readWhile what step (c.rest.length + 1) a c

/-- The type id of an array without its leading 'a', as a C string. -/
def arrayContents (id : List Char) : List Char := asCString ((id ++ [nul]).drop 1)

/-- read_single for the types with emplace_back. -/
def readEmplaceBack {α : Type} (id : List Char) (element : ReadM α) (out : List α) :
    ReadM (List α) :=
  readContainer "emplace_back_container" .array (arrayContents id)
    (readUntilEnd "emplace_back_container" (fun xs => do
      let s ← element
      pure (xs ++ [s])) out)

/-- read_single for contiguous elements of the types that can be copied at once. -/
def readArrayOneShot (b : Basic) (out : List b.Val) : ReadM (List b.Val) := do
  let (_, p, sizeInBytes) ← callBus "sd_bus_message_read_array" (Cursor.readArray b.busType)
  pure (out ++ p.take (sizeInBytes / b.busType.size))

/-- The choice between the two, for a type with contiguous iterators. -/
def readContiguous (t : Ty) (element : ReadM t.Val) (out : List t.Val) : ReadM (List t.Val) :=
  match t, element, out with
  | .basic b, element, out =>
    if b.canAppendArray then readArrayOneShot b out
    else readEmplaceBack ('a' :: typeId (.basic b)) element out
  | t, element, out => readEmplaceBack ('a' :: typeId t) element out

/-- read_single for the types with emplace. -/
def readEmplace {α : Type} {P : List α → Prop} (id : List Char) (element : ReadM α)
    (put : { xs : List α // P xs } → α → { xs : List α // P xs }) (out : { xs : List α // P xs }) :
    ReadM { xs : List α // P xs } :=
  readContainer "emplace_container" .array (arrayContents id)
    (readUntilEnd "emplace_container" (fun xs => do
      let s ← element
      pure (put xs s)) out)

/-- read_single for std::pair, given the type ids of its members. -/
def readPair {α β : Type} (id id' : List Char) (first : ReadM α) (second : ReadM β) :
    ReadM (α × β) :=
  readContainer "tuple" .dictEntry (contents (id ++ id')) (do
    let a ← first
    let b ← second
    pure (a, b))

/-- The members of a std::array, which is read as a tuple, one after the other. -/
def readMembers {α : Type} (member : α → ReadM α) : (xs : List α) →
    ReadM { ys : List α // ys.length = xs.length }
  | [] => pure ⟨[], rfl⟩
  | x :: xs => do
    let y ← member x
    let ys ← readMembers member xs
    pure ⟨y :: ys.val, by rw [List.length_cons, List.length_cons, ys.property]⟩

/-- One alternative T1 of the recursion over the alternatives of a std::variant. -/
def readAlternative {β : Type} (t : Ty) (content : ReadM t.Val) (fromString : Bytes → Option β)
    (inj : t.Val → β) (others : ReadM β) : ReadM β := do
  let (r, _) ← callBus "sd_bus_message_verify_type variant"
    (Cursor.verifyType .variant (contents (typeId t)))
  if r = 0 then others
  else readContainer "variant" .variant (contents (typeId t)) (do
    -- A string is read as what the whole variant makes of it.
    if t.isEnumOrString then
      let str ← readBasic .string []
      orInvalidEnum (fromString str)
    else
      let t1 ← content
      pure (inj t1))

/-- The end of that recursion: the contents are of no known type. -/
def skipVariant {β : Type} (value : β) : ReadM β := do
  let _ ← callBus "sd_bus_message_skip variant" Cursor.skipVariant
  pure value

mutual

/-- message::read of one argument, given its value before. -/
def read (h : HashOrder) : (t : Ty) → t.Val → ReadM t.Val
  | .basic b, out => readBasic b out
  | .enum e, _ => readEnum e
  | .monostate, out => pure out
  | .sequence .vector t, out => readContiguous t (read h t t.default) out
  | .sequence _ t, out => readEmplaceBack ('a' :: typeId t) (read h t t.default) out
  | .array n t, out =>
    readContainer "tuple" .struct (contents (List.replicate n (typeId t)).flatten) (do
      let xs ← readMembers (read h t) out.val
      pure ⟨xs.val, xs.property.trans out.property⟩)
  | .set o k, out =>
    readEmplace ['a', k.code] (readKey k k.default)
      (fun xs x => ⟨emplace h o k id xs.val x, pairwise_emplace xs.property⟩) out
  | .map o k t, out =>
    readEmplace ('a' :: pairId [k.code] (typeId t))
      (readPair [k.code] (typeId t) (readKey k k.default) (read h t t.default))
      (fun xs x => ⟨emplace h o k Prod.fst xs.val x, pairwise_emplace xs.property⟩) out
  | .pair t u, out => readPair (typeId t) (typeId u) (read h t out.1) (read h u out.2)
  | .tuple ts, out => readContainer "tuple" .struct (contents (typeIds ts)) (readTuple h ts out)
  | .variant t ts, _ =>
    readAlternative t (read h t t.default) (process (t :: ts)) .inl
      (readAlternatives h (t :: ts) (.inl t.default) ts .inr)

/-- message::read of several arguments. -/
def readTuple (h : HashOrder) : (ts : List Ty) → TupleVal ts → ReadM (TupleVal ts)
  | [], _ => pure ()
  | t :: ts, (v, vs) => do
    let v ← read h t v
    let vs ← readTuple h ts vs
    pure (v, vs)

/-- The rest of `all`, the alternatives of a variant with such a default value. -/
def readAlternatives (h : HashOrder) (all : List Ty) (value : VariantVal all) :
    (ts : List Ty) → (VariantVal ts → VariantVal all) → ReadM (VariantVal all)
  | [], _ => skipVariant value
  | t :: ts, inj =>
    readAlternative t (read h t t.default) (process all) (fun v => inj (.inl v))
      (readAlternatives h all value ts (fun v => inj (.inr v)))

end

end Sdbusplus.Message
