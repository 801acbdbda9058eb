import Sdbusplus.Message.NativeTypes

namespace Sdbusplus.Message

/-- append_single for basic types. The strings go as C strings, a std::string_view
with its size. -/
def appendBasic (b : Basic) (v : b.Val) : List AppendCall :=
  match b, v with
  | .string, s => [.appendBasic .string (cString s)]
  | .objectPath, s => [.appendBasic .objectPath (cString s)]
  | .signature, s => [.appendBasic .signature (cString s)]
  | .cString, s => [.appendBasic .string (cString s)]
  | .stringView, s => [.appendStringIovec s]
  | b, v => [.appendBasic b.busType v]

/-- append_single for enums, as the std::string they convert to. -/
def appendEnum (e : GeneratedEnum) (v : e.Val) : List AppendCall :=
  appendBasic .string (e.toString v)

def appendKey : (k : Key) → k.Val → List AppendCall
  | .basic b _, v => appendBasic b v
  | .enum e, v => appendEnum e v

/-- A container with its contents: nothing depends on what the calls return. -/
def appendContainer (k : Kind) (sig : List Char) (inside : List AppendCall) : List AppendCall :=
  .openContainer k sig :: inside ++ [.closeContainer]

/-- append_single for iterable types whose elements are appended one by one. -/
def appendEach {α : Type} (sig : List Char) (append : α → List AppendCall) (xs : List α) :
    List AppendCall :=
  appendContainer .array sig (xs.flatMap append)

/-- append_single for contiguous elements of the types that can be copied at once. -/
def appendArray (b : Basic) (xs : List b.Val) : List AppendCall :=
  [.appendArray b.busType xs (xs.length * b.busType.size)]

/-- The choice between the two, for a type with contiguous iterators. -/
def appendContiguous (t : Ty) (append : t.Val → List AppendCall) (xs : List t.Val) :
    List AppendCall :=
  match t, append, xs with
  | .basic b, append, xs =>
    if b.canAppendArray then appendArray b xs
    else appendEach (contents (typeId (.basic b))) append xs
  | t, append, xs => appendEach (contents (typeId t)) append xs

/-- append_single for std::pair, given the type ids of its members. -/
def appendPair {α β : Type} (id id' : List Char) (first : α → List AppendCall)
    (second : β → List AppendCall) (p : α × β) : List AppendCall :=
  appendContainer .dictEntry (contents (id ++ id')) (first p.1 ++ second p.2)

mutual

/-- message::append of one argument, as the calls it makes in order. There is no
append_single for std::monostate. -/
def append : (t : Ty) → t.Val → List AppendCall
  | .basic b, v => appendBasic b v
  | .enum e, v => appendEnum e v
  | .monostate, _ => []
  | .sequence .vector t, xs => appendContiguous t (append t) xs
  | .sequence _ t, xs => appendEach (contents (typeId t)) (append t) xs
  | .array _ t, xs => appendContiguous t (append t) xs.val
  | .set _ k, xs => appendEach (contents [k.code]) (appendKey k) xs.val
  | .map _ k t, xs =>
    appendEach (contents (pairId [k.code] (typeId t)))
      (appendPair [k.code] (typeId t) (appendKey k) (append t)) xs.val
  | .pair t u, p => appendPair (typeId t) (typeId u) (append t) (append u) p
  | .tuple ts, vs => appendContainer .struct (contents (typeIds ts)) (appendTuple ts vs)
  | .variant t _, .inl v => appendContainer .variant (contents (typeId t)) (append t v)
  | .variant _ ts, .inr v => appendAlternative ts v

/-- message::append of several arguments. -/
def appendTuple : (ts : List Ty) → TupleVal ts → List AppendCall
  | [], _ => []
  | t :: ts, (v, vs) => append t v ++ appendTuple ts vs

/-- What std::visit does with the alternative held. -/
def appendAlternative : (ts : List Ty) → VariantVal ts → List AppendCall
  | t :: _, .inl v => appendContainer .variant (contents (typeId t)) (append t v)
  | _ :: ts, .inr v => appendAlternative ts v

end

end Sdbusplus.Message
