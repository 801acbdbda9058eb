import Sdbusplus.Message.Append

namespace Sdbusplus.Message.AppendRun

/-- exception::SdBusError, which message::read throws for what a call returns. -/
structure SdBusError where
  errno : Int
  description : String
  deriving DecidableEq, Repr

/-- The calls of SdBusInterface on a message: what each returns and what it leaves. -/
abbrev SdBusInterface (σ : Type) := σ → AppendCall → Int × σ

/-- A function that works on a message, and can throw. -/
abbrev Run (σ : Type) := ExceptT SdBusError (StateM σ)

section functions

variable {σ : Type} (intf : SdBusInterface σ)

def call (c : AppendCall) : Run σ Int := do
  let (r, m) := intf (← get) c
  set m
  return r

/-- A call as a statement. -/
def statement (c : AppendCall) : Run σ Unit := discard (call intf c)

def appendBasic (b : Basic) (v : b.Val) : Run σ Unit :=
  match b, v with
  | .string, s => statement intf (.appendBasic .string (cString s))
  | .objectPath, s => statement intf (.appendBasic .objectPath (cString s))
  | .signature, s => statement intf (.appendBasic .signature (cString s))
  | .cString, s => statement intf (.appendBasic .string (cString s))
  | .stringView, s => statement intf (.appendStringIovec s)
  | b, v => statement intf (.appendBasic b.busType v)

def appendEnum (e : GeneratedEnum) (v : e.Val) : Run σ Unit :=
  appendBasic intf .string (e.toString v)

def appendKey : (k : Key) → k.Val → Run σ Unit
  | .basic b _, v => appendBasic intf b v
  | .enum e, v => appendEnum intf e v

def appendContainer (k : Kind) (sig : List Char) (inside : Run σ Unit) : Run σ Unit := do
  statement intf (.openContainer k sig)
  inside
  statement intf .closeContainer

def appendEach {α : Type} (sig : List Char) (append : α → Run σ Unit) (xs : List α) : Run σ Unit :=
  appendContainer intf .array sig (xs.forM append)

def appendArray (b : Basic) (xs : List b.Val) : Run σ Unit :=
  statement intf (.appendArray b.busType xs (xs.length * b.busType.size))

def appendContiguous (t : Ty) (append : t.Val → Run σ Unit) (xs : List t.Val) : Run σ Unit :=
  match t, append, xs with
  | .basic b, append, xs =>
    if b.canAppendArray then appendArray intf b xs
    else appendEach intf (contents (typeId (.basic b))) append xs
  | t, append, xs => appendEach intf (contents (typeId t)) append xs

def appendPair {α β : Type} (id id' : List Char) (first : α → Run σ Unit) (second : β → Run σ Unit)
    (p : α × β) : Run σ Unit :=
  appendContainer intf .dictEntry (contents (id ++ id')) (do first p.1; second p.2)

mutual

/-- message::append of one argument. -/
def append : (t : Ty) → t.Val → Run σ Unit
  | .basic b, v => appendBasic intf b v
  | .enum e, v => appendEnum intf e v
  | .monostate, _ => pure ()
  | .sequence .vector t, xs => appendContiguous intf t (append t) xs
  | .sequence _ t, xs => appendEach intf (contents (typeId t)) (append t) xs
  | .array _ t, xs => appendContiguous intf t (append t) xs.val
  | .set _ k, xs => appendEach intf (contents [k.code]) (appendKey intf k) xs.val
  | .map _ k t, xs =>
    appendEach intf (contents (pairId [k.code] (typeId t)))
      (appendPair intf [k.code] (typeId t) (appendKey intf k) (append t)) xs.val
  | .pair t u, p => appendPair intf (typeId t) (typeId u) (append t) (append u) p
  | .tuple ts, vs => appendContainer intf .struct (contents (typeIds ts)) (appendTuple ts vs)
  | .variant t _, .inl v => appendContainer intf .variant (contents (typeId t)) (append t v)
  | .variant _ ts, .inr v => appendAlternative ts v

/-- message::append of several arguments. -/
def appendTuple : (ts : List Ty) → TupleVal ts → Run σ Unit
  | [], _ => pure ()
  | t :: ts, (v, vs) => do
    append t v
    appendTuple ts vs

def appendAlternative : (ts : List Ty) → VariantVal ts → Run σ Unit
  | t :: _, .inl v => appendContainer intf .variant (contents (typeId t)) (append t v)
  | _ :: ts, .inr v => appendAlternative ts v

end

/-- What async_method_call_timed does: the handler is applied at once, or the message sent. -/
inductive MethodCall (σ : Type)
  | applyHandler (errno : Int)
  | asyncSend (m : σ)

/-- connection::async_method_call_timed, given what new_method_call returns or throws. -/
def asyncMethodCallTimed (newMethodCall : Except SdBusError σ) (ts : List Ty) (a : TupleVal ts) :
    MethodCall σ :=
  match newMethodCall with
  | .error e => .applyHandler e.errno
  | .ok m =>
    match (appendTuple intf ts a).run.run m with
    | (.error e, _) => .applyHandler e.errno
    | (.ok (), m) => .asyncSend m

end functions

end Sdbusplus.Message.AppendRun
