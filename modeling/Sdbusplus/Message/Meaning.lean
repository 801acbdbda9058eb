import Mathlib.Data.List.Forall2
import Sdbusplus.Message.Containers
import Sdbusplus.Message.NativeTypes

namespace Sdbusplus.Message

/-- Which elements stand for which value, whatever surrounds them in the message. -/
abbrev Meaning (α : Type) := List Wire → α → Prop

/-- The same for a variant, given its signature and its contents. -/
abbrev VariantMeaning (α : Type) := List Char → List Wire → α → Prop

section parts

variable {α β : Type}

/-- One container with such contents. -/
def Inside (k : Kind) (sig : List Char) (D : Meaning α) : Meaning α :=
  fun is a => ∃ body, is = [.container k sig body] ∧ D body a

/-- Elements of an array, each of which stands for one value. -/
def Each (D : Meaning α) (is : List Wire) (as : List α) : Prop :=
  List.Forall₂ (fun i a => D [i] a) is as

/-- Elements whose values are taken in one after the other. -/
def TakenIn (D : Meaning α) (push : β → α → β) (out : β) : Meaning β :=
  fun is b => ∃ as, Each D is as ∧ b = as.foldl push out

/-- Some elements followed by others. -/
def Both (D : Meaning α) (E : Meaning β) : Meaning (α × β) :=
  fun is p => ∃ i j, is = i ++ j ∧ D i p.1 ∧ E j p.2

def Basic.Denotes (b : Basic) : Meaning b.Val := fun is v => is = [.basic b.busType v]

/-- A string that names a value. -/
def GeneratedEnum.Denotes (e : GeneratedEnum) : Meaning e.Val :=
  fun is v => ∃ s, is = [.basic .string s] ∧ e.fromString s = some v

def Key.Denotes : (k : Key) → Meaning k.Val
  | .basic b _ => b.Denotes
  | .enum e => e.Denotes

def DenotesPair (id id' : List Char) (D : Meaning α) (E : Meaning β) : Meaning (α × β) :=
  Inside .dictEntry (contents (id ++ id')) (Both D E)

/-- The members of a std::array, given their values before. -/
def DenotesMembers (D : α → Meaning α) : List α → Meaning (List α)
  | [], is, ys => is = [] ∧ ys = []
  | x :: xs, is, ys =>
    ∃ i j y zs, is = i ++ j ∧ ys = y :: zs ∧ D x i y ∧ DenotesMembers D xs j zs

/-- The contents of a variant for an alternative: its value, or a string that the
variant makes something of. -/
def DenotesHeld (t : Ty) (content : Meaning t.Val) (fromString : Bytes → Option β)
    (inj : t.Val → β) : Meaning β :=
  fun body b =>
    if t.isEnumOrString then ∃ str, body = [.basic .string str] ∧ fromString str = some b
    else ∃ x, content body x ∧ b = inj x

/-- Contents of another signature than that of T1 are up to the others. -/
def DenotesAlternative (t : Ty) (content : Meaning t.Val) (fromString : Bytes → Option β)
    (inj : t.Val → β) (others : VariantMeaning β) : VariantMeaning β :=
  fun sig body b =>
    if sig = contents (typeId t) then DenotesHeld t content fromString inj body b
    else others sig body b

def InVariant (V : VariantMeaning β) : Meaning β :=
  fun is b => ∃ sig body, is = [.container .variant sig body] ∧ V sig body b

end parts

mutual

/-- The elements that message::read takes for a value, given the value before. A
std::monostate takes none. -/
def Denotes (h : HashOrder) : (t : Ty) → t.Val → Meaning t.Val
  | .basic b, _ => b.Denotes
  | .enum e, _ => e.Denotes
  | .monostate, _ => fun is _ => is = []
  | .sequence _ t, out => Inside .array (contents (typeId t))
      (TakenIn (Denotes h t t.default) (fun (xs : List t.Val) x => xs ++ [x]) out)
  | .array n t, out => Inside .struct (contents (List.replicate n (typeId t)).flatten)
      (fun body xs => DenotesMembers (Denotes h t) out.val body xs.val)
  | .set o k, out => Inside .array (contents [k.code])
      (fun body xs => TakenIn k.Denotes (emplace h o k id) out.val body xs.val)
  | .map o k t, out => Inside .array (contents (pairId [k.code] (typeId t)))
      (fun body xs => TakenIn (DenotesPair [k.code] (typeId t) k.Denotes (Denotes h t t.default))
        (emplace h o k Prod.fst) out.val body xs.val)
  | .pair t u, out =>
    DenotesPair (typeId t) (typeId u) (Denotes h t out.1) (Denotes h u out.2)
  | .tuple ts, out => Inside .struct (contents (typeIds ts)) (DenotesTuple h ts out)
  | .variant t ts, _ => InVariant
      (DenotesAlternative t (Denotes h t t.default) (process (t :: ts)) .inl
        (DenotesAlternatives h (t :: ts) (.inl t.default) ts .inr))

def DenotesTuple (h : HashOrder) : (ts : List Ty) → TupleVal ts → Meaning (TupleVal ts)
  | [], _ => fun is _ => is = []
  | t :: ts, (v, vs) => Both (Denotes h t v) (DenotesTuple h ts vs)

/-- Contents that no alternative is left for stand for the default value. -/
def DenotesAlternatives (h : HashOrder) (all : List Ty) (value : VariantVal all) :
    (ts : List Ty) → (VariantVal ts → VariantVal all) → VariantMeaning (VariantVal all)
  | [], _ => fun _ _ v => v = value
  | t :: ts, inj =>
    DenotesAlternative t (Denotes h t t.default) (process all) (fun v => inj (.inl v))
      (DenotesAlternatives h all value ts (fun v => inj (.inr v)))

end

/-- A signature of none of these alternatives. -/
def Unknown (ts : List Ty) (sig : List Char) : Prop := ∀ t ∈ ts, contents (typeId t) ≠ sig

/-- The first alternative with a signature, and those before it. -/
def FirstWith (ts : List Ty) (sig : List Char) (before : List Ty) (u : Ty) : Prop :=
  (∃ after, ts = before ++ u :: after) ∧ Unknown before sig ∧ contents (typeId u) = sig

/-- A variant that holds x as its alternative u, which comes after these. -/
inductive Holds : (ts : List Ty) → VariantVal ts → List Ty → (u : Ty) → u.Val → Prop
  | here (t : Ty) (ts : List Ty) (x : t.Val) : Holds (t :: ts) (.inl x) [] t x
  | later (t : Ty) (ts before : List Ty) (v : VariantVal ts) (u : Ty) (x : u.Val) :
    Holds ts v before u x → Holds (t :: ts) (.inr v) (t :: before) u x

/-- What a std::variant should be after a variant with such a signature and
contents: its default value if it has no alternative with that signature, and
otherwise what the first one makes of the contents. -/
def Delivered (h : HashOrder) (t : Ty) (ts : List Ty) : VariantMeaning (VariantVal (t :: ts)) :=
  fun sig body v =>
    (Unknown (t :: ts) sig ∧ v = .inl t.default) ∨
      ∃ before u, FirstWith (t :: ts) sig before u ∧
        if u.isEnumOrString then
          ∃ str, body = [.basic .string str] ∧ process (t :: ts) str = some v
        else ∃ x, Denotes h u u.default body x ∧ Holds (t :: ts) v before u x

/-- An entry of a dictionary with a key of some type and a variant. -/
def DenotesEntry {α : Type} (h : HashOrder) (t : Ty) (ts : List Ty) (id : List Char)
    (D : Meaning α) : Meaning (α × VariantVal (t :: ts)) :=
  DenotesPair id ['v'] D (InVariant (Delivered h t ts))

end Sdbusplus.Message
