import Mathlib.Data.List.Forall2
import Sdbusplus.Message.NativeTypes

namespace Sdbusplus.Message

/-- Induction over types, whose tuples and variants have lists of them. -/
theorem Ty.induct {P : Ty → Prop} (basic : ∀ b, P (.basic b)) (enum : ∀ e, P (.enum e))
    (monostate : P .monostate) (sequence : ∀ q t, P t → P (.sequence q t))
    (array : ∀ n t, P t → P (.array n t)) (set : ∀ o k, P (.set o k))
    (map : ∀ o k t, P t → P (.map o k t)) (pair : ∀ t u, P t → P u → P (.pair t u))
    (tuple : ∀ ts, (∀ t ∈ ts, P t) → P (.tuple ts))
    (variant : ∀ t ts, P t → (∀ u ∈ ts, P u) → P (.variant t ts)) (t : Ty) : P t :=
  @Ty.rec P (fun ts => ∀ t ∈ ts, P t) basic enum monostate sequence array set map pair tuple
    variant (by simp)
    (fun t ts ht hts u hu => by
      rcases List.mem_cons.mp hu with rfl | hu
      · exact ht
      · exact hts u hu) t

/-- Induction over the alternatives in front of the one that is held. -/
theorem variant_induct {P : (ts : List Ty) → VariantVal ts → Prop}
    (first : ∀ t ts v, P (t :: ts) (.inl v)) (later : ∀ t ts v, P ts v → P (t :: ts) (.inr v))
    (ts : List Ty) (v : VariantVal ts) : P ts v := by
  induction ts with
  | nil => cases v
  | cons t ts ih =>
    cases v with
    | inl v => exact first t ts v
    | inr v => exact later t ts v (ih v)

def encodeKey : (k : Key) → k.Val → Wire
  | .basic b _, v => .basic b.busType v
  | .enum e, v => .basic .string (e.toString v)

def encodePair (id id' : List Char) (first second : Wire) : Wire :=
  .container .dictEntry (contents (id ++ id')) [first, second]

mutual

/-- The element of a message that stands for a value. -/
def encode : (t : Ty) → t.Val → Wire
  | .basic b, v => .basic b.busType v
  | .enum e, v => .basic .string (e.toString v)
  | .monostate, _ => .container .struct [] []
  | .sequence _ t, xs => .container .array (contents (typeId t)) (xs.map (encode t))
  | .array _ t, xs => .container .array (contents (typeId t)) (xs.val.map (encode t))
  | .set _ k, xs => .container .array (contents [k.code]) (xs.val.map (encodeKey k))
  | .map _ k t, xs =>
    .container .array (contents (pairId [k.code] (typeId t)))
      (xs.val.map (fun p => encodePair [k.code] (typeId t) (encodeKey k p.1) (encode t p.2)))
  | .pair t u, p => encodePair (typeId t) (typeId u) (encode t p.1) (encode u p.2)
  | .tuple ts, vs => .container .struct (contents (typeIds ts)) (encodeTuple ts vs)
  | .variant t _, .inl v => .container .variant (contents (typeId t)) [encode t v]
  | .variant _ ts, .inr v => encodeAlternative ts v

def encodeTuple : (ts : List Ty) → TupleVal ts → List Wire
  | [], _ => []
  | t :: ts, (v, vs) => encode t v :: encodeTuple ts vs

def encodeAlternative : (ts : List Ty) → VariantVal ts → Wire
  | t :: _, .inl v => .container .variant (contents (typeId t)) [encode t v]
  | _ :: ts, .inr v => encodeAlternative ts v

end

/-- Text without NUL that libsystemd accepts. -/
def Sendable (valid : Bytes → Bool) (s : Bytes) : Prop := 0 ∉ s ∧ valid s = true

def Basic.Storable (lib : LibSystemd) : (b : Basic) → b.Val → Prop
  | .string, s | .cString, s | .stringView, s => Sendable lib.validUtf8 s
  | .objectPath, s => Sendable lib.validObjectPath s
  | .signature, s => Sendable lib.validSignature s
  | _, _ => True

def GeneratedEnum.Storable (lib : LibSystemd) (e : GeneratedEnum) (v : e.Val) : Prop :=
  Basic.Storable lib .string (e.toString v)

def Key.Storable (lib : LibSystemd) : (k : Key) → k.Val → Prop
  | .basic b _, v => b.Storable lib v
  | .enum e, v => e.Storable lib v

/-- A std::string does not hold the name of a value of an enum among these types. -/
def NoEnumName (all : List Ty) : (t : Ty) → t.Val → Prop
  | .basic .string, s => ∀ e, Ty.enum e ∈ all → ∀ v, s ≠ e.toString v
  | _, _ => True

abbrev Every {α : Type} (P : α → Prop) (xs : List α) : Prop := ∀ x ∈ xs, P x

mutual

/-- Every text in the value can be sent, and no string alternative of a variant
holds the name of a value of an enum of that variant. -/
def Storable (lib : LibSystemd) : (t : Ty) → t.Val → Prop
  | .basic b, v => b.Storable lib v
  | .enum e, v => e.Storable lib v
  | .monostate, _ => False
  | .sequence _ t, xs => Every (Storable lib t) xs
  | .array _ t, xs => Every (Storable lib t) xs.val
  | .set _ k, xs => Every (k.Storable lib) xs.val
  | .map _ k t, xs => Every (fun p => k.Storable lib p.1 ∧ Storable lib t p.2) xs.val
  | .pair t u, p => Storable lib t p.1 ∧ Storable lib u p.2
  | .tuple ts, vs => StorableTuple lib ts vs
  | .variant t ts, .inl v => Storable lib t v ∧ NoEnumName (t :: ts) t v
  | .variant t ts, .inr v => StorableAlternative lib (t :: ts) ts v

def StorableTuple (lib : LibSystemd) : (ts : List Ty) → TupleVal ts → Prop
  | [], _ => True
  | t :: ts, (v, vs) => Storable lib t v ∧ StorableTuple lib ts vs

def StorableAlternative (lib : LibSystemd) (all : List Ty) : (ts : List Ty) → VariantVal ts → Prop
  | t :: _, .inl v => Storable lib t v ∧ NoEnumName all t v
  | _ :: ts, .inr v => StorableAlternative lib all ts v

end

/-- Hashed containers are equal whatever their iteration order. -/
def Order.SameElements {α : Type} : Order → List α → List α → Prop
  | .sorted, xs, ys => xs = ys
  | .hashed, xs, ys => xs.Perm ys

mutual

/-- Equality of C++ values. -/
def Equal : (t : Ty) → t.Val → t.Val → Prop
  | .basic _, v, w => v = w
  | .enum _, v, w => v = w
  | .monostate, _, _ => True
  | .sequence _ t, xs, ys => List.Forall₂ (Equal t) xs ys
  | .array _ t, xs, ys => List.Forall₂ (Equal t) xs.val ys.val
  | .set o _, xs, ys => o.SameElements xs.val ys.val
  | .map o _ t, xs, ys => ∃ zs, List.Forall₂ (fun p q => p.1 = q.1 ∧ Equal t p.2 q.2) xs.val zs ∧
      o.SameElements zs ys.val
  | .pair t u, p, q => Equal t p.1 q.1 ∧ Equal u p.2 q.2
  | .tuple ts, vs, ws => EqualTuple ts vs ws
  | .variant t _, .inl v, .inl w => Equal t v w
  | .variant _ ts, .inr v, .inr w => EqualAlternative ts v w
  | .variant _ _, .inl _, .inr _ => False
  | .variant _ _, .inr _, .inl _ => False

def EqualTuple : (ts : List Ty) → TupleVal ts → TupleVal ts → Prop
  | [], _, _ => True
  | t :: ts, (v, vs), (w, ws) => Equal t v w ∧ EqualTuple ts vs ws

def EqualAlternative : (ts : List Ty) → VariantVal ts → VariantVal ts → Prop
  | t :: _, .inl v, .inl w => Equal t v w
  | _ :: ts, .inr v, .inr w => EqualAlternative ts v w
  | _ :: _, .inl _, .inr _ => False
  | _ :: _, .inr _, .inl _ => False

end

/-- The integers, double, bool and the three string classes. -/
def Basic.RoundTrip (b : Basic) : Prop := b ≠ .unixFd ∧ b ≠ .stringView ∧ b ≠ .cString

def Key.RoundTrip : Key → Prop
  | .basic b _ => b.RoundTrip
  | .enum _ => True

/-- Alternatives that may stand in one variant with one signature: different
enums, and an enum and a std::string. -/
def MayShare : Ty → Ty → Prop
  | .enum e, .enum e' => e.interface ≠ e'.interface ∨ e.name ≠ e'.name
  | .enum _, .basic b => b = .string
  | .basic b, .enum _ => b = .string
  | _, _ => False

def Distinguishable (t u : Ty) : Prop := typeId t ≠ typeId u ∨ MayShare t u

def Ty.isVariant : Ty → Bool
  | .variant _ _ => true
  | _ => false

mutual

/-- The types whose values are read back as they were appended. -/
def RoundTrip : Ty → Prop
  | .basic b => b.RoundTrip
  | .enum _ => True
  | .monostate => False
  | .sequence _ t => RoundTrip t
  | .array _ _ => False
  | .set _ k => k.RoundTrip
  | .map _ k t => k.RoundTrip ∧ RoundTrip t
  | .pair _ _ => False
  | .tuple ts => ts ≠ [] ∧ RoundTripAll ts
  | .variant t ts => RoundTripAll ts ∧ RoundTrip t ∧ (∀ u ∈ t :: ts, u.isVariant = false) ∧
      (t :: ts).Pairwise Distinguishable

def RoundTripAll : List Ty → Prop
  | [] => True
  | t :: ts => RoundTrip t ∧ RoundTripAll ts

end

end Sdbusplus.Message
