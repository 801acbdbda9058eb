import Sdbusplus.Message.Encoding
import Sdbusplus.Message.Structure

namespace Sdbusplus.Proofs.SharedTypes
open Message

variable {t : Ty} {ts : List Ty} {k : Key} {u : CppType}

/-- A type with qualifiers and what its values are for those of another type. -/
structure Form (α : Type) where
  type : CppType
  value : α → type.Val

/-- The same for a list of types, whose values are those of a tuple or of a variant. -/
structure Forms (ts : List Ty) where
  types : List CppType
  members : TupleVal ts → CppType.Members types
  alternatives : VariantVal ts → CppType.Alternatives types

/-- The names of an enum have no NUL in them. -/
def NoNul (e : GeneratedEnum) : Prop := ∀ v, 0 ∉ e.toString v

def SharedKey : Key → Prop
  | .basic _ _ => True
  | .enum e => NoNul e

mutual

/-- The types that append and read are both instantiated with. -/
def Shared : Ty → Prop
  | .basic _ => True
  | .enum e => NoNul e
  | .monostate => False
  | .sequence _ t => Shared t
  | .array n t => n ≠ 0 ∧ Shared t
  | .set _ k => SharedKey k
  | .map _ k t => SharedKey k ∧ Shared t
  | .pair t u => Shared t ∧ Shared u
  | .tuple ts => ts ≠ [] ∧ SharedAll ts
  | .variant t ts => Shared t ∧ SharedAll ts

def SharedAll : List Ty → Prop
  | [] => True
  | t :: ts => Shared t ∧ SharedAll ts

end

def keyForm : (k : Key) → SharedKey k → Form k.Val
  | .basic b _, _ => ⟨.basic b, id⟩
  | .enum e, h => ⟨.enum e h, id⟩

mutual

/-- A set or map is given by its value_type, which has a constant key. -/
def form : (t : Ty) → Shared t → Form t.Val
  | .basic b, _ => ⟨.basic b, id⟩
  | .enum e, h => ⟨.enum e h, id⟩
  | .sequence q t, h => ⟨.sequence q (form t h).type, fun xs => xs.map (form t h).value⟩
  | .array n t, h => ⟨.array (n - 1) (form t h.2).type, fun xs =>
      ⟨xs.val.map (form t h.2).value, by
        have hn := h.1
        rw [List.length_map, xs.property]
        omega⟩⟩
  | .set _ k, h => ⟨.associative (keyForm k h).type, fun xs => xs.val.map (keyForm k h).value⟩
  | .map _ k t, h =>
    ⟨.associative (.pair (.qualified .const (keyForm k h.1).type) (form t h.2).type),
      fun xs => xs.val.map (fun p => ((keyForm k h.1).value p.1, (form t h.2).value p.2))⟩
  | .pair t u, h => ⟨.pair (form t h.1).type (form u h.2).type,
      fun p => ((form t h.1).value p.1, (form u h.2).value p.2)⟩
  | .tuple (t :: ts), h => ⟨.tuple (form t h.2.1).type (forms ts h.2.2).types,
      fun vs => ((form t h.2.1).value vs.1, (forms ts h.2.2).members vs.2)⟩
  | .variant t ts, h => ⟨.variant (form t h.1).type (forms ts h.2).types,
      Sum.map (form t h.1).value (forms ts h.2).alternatives⟩

def forms : (ts : List Ty) → SharedAll ts → Forms ts
  | [], _ => ⟨[], id, id⟩
  | t :: ts, h => ⟨(form t h.1).type :: (forms ts h.2).types,
      fun vs => ((form t h.1).value vs.1, (forms ts h.2).members vs.2),
      Sum.map (form t h.1).value (forms ts h.2).alternatives⟩

end

section TypeIds

theorem typeId_keyForm (h : SharedKey k) : (keyForm k h).type.typeId = [k.code] := by
  cases k <;> rfl

theorem typeIds_forms (hts : ∀ t ∈ ts, ∀ h : Shared t, (form t h).type.typeId = typeId t)
    (h : SharedAll ts) : CppType.typeIds (forms ts h).types = typeIds ts := by
  induction ts with
  | nil => rfl
  | cons t ts ih =>
    obtain ⟨ht, hrest⟩ := List.forall_mem_cons.mp hts
    exact congrArg₂ (· ++ ·) (ht h.1) (ih hrest h.2)

/-- Both models give a type the same type id. -/
theorem typeId_form (h : Shared t) : (form t h).type.typeId = typeId t := by
  induction t using Ty.induct with
  | basic b | enum e => rfl
  | monostate => cases h
  | sequence q t ih => exact congrArg (List.cons 'a') (ih h)
  | array n t ih => exact congrArg (List.cons 'a') (ih h.2)
  | set o k => exact congrArg (List.cons 'a') (typeId_keyForm h)
  | map o k t ih =>
    exact congrArg (List.cons 'a') (congrArg₂ pairId (typeId_keyForm h.1) (ih h.2))
  | pair t u iht ihu => exact congrArg₂ pairId (iht h.1) (ihu h.2)
  | tuple ts ih =>
    obtain ⟨hne, hall⟩ := h
    cases ts with
    | nil => exact absurd rfl hne
    | cons t ts =>
      have hids := typeIds_forms ih hall
      exact congrArg (fun ids => '(' :: ids ++ [')']) hids
  | variant t ts iht ihs => rfl

end TypeIds

section Append

theorem append_keyForm (h : SharedKey k) (v : k.Val) :
    (keyForm k h).type.append ((keyForm k h).value v) = appendKey k v := by
  cases k <;> rfl

/-- Elements whose calls are the same. -/
theorem appendEach_map {α β : Type} {sig sig' : List Char} {f : β → List AppendCall}
    {g : α → List AppendCall} {value : α → β} (hsig : sig = sig') (h : ∀ x, f (value x) = g x)
    (xs : List α) : appendEach sig f (xs.map value) = appendEach sig' g xs := by
  rw [appendEach, appendEach, hsig, List.flatMap_map]
  simp only [h]

theorem appendContiguous_form (h : Shared t)
    (ht : ∀ v, (form t h).type.append ((form t h).value v) = append t v) (xs : List t.Val) :
    CppType.appendContiguous (form t h).type (CppType.append (form t h).type)
      (xs.map (form t h).value) = appendContiguous t (append t) xs := by
  have heach := appendEach_map (congrArg contents (typeId_form h)) ht xs
  cases t
  case basic b =>
    have hsame : xs.map (form (.basic b) h).value = xs := List.map_id xs
    rw [hsame] at heach ⊢
    simp only [form, CppType.appendContiguous, appendContiguous]
    split
    · rfl
    · exact heach
  case monostate => cases h
  case tuple ts =>
    cases ts with
    | nil => exact absurd rfl h.1
    | cons t ts => exact heach
  all_goals exact heach

theorem appendMembers_forms
    (hts : ∀ t ∈ ts, ∀ (h : Shared t) v, (form t h).type.append ((form t h).value v) = append t v)
    (h : SharedAll ts) (vs : TupleVal ts) :
    CppType.appendMembers (forms ts h).types ((forms ts h).members vs) = appendTuple ts vs := by
  induction ts with
  | nil => rfl
  | cons t ts ih =>
    obtain ⟨ht, hrest⟩ := List.forall_mem_cons.mp hts
    exact congrArg₂ (· ++ ·) (ht h.1 vs.1) (ih hrest h.2 vs.2)

theorem append_held (h : Shared t)
    (ht : ∀ v, (form t h).type.append ((form t h).value v) = append t v) (v : t.Val) :
    appendContainer .variant (contents (form t h).type.typeId)
      ((form t h).type.append ((form t h).value v)) =
        appendContainer .variant (contents (typeId t)) (append t v) := by
  rw [typeId_form, ht]

theorem appendAlternative_forms
    (hts : ∀ t ∈ ts, ∀ (h : Shared t) v, (form t h).type.append ((form t h).value v) = append t v)
    (h : SharedAll ts) (v : VariantVal ts) :
    CppType.appendAlternative (forms ts h).types ((forms ts h).alternatives v) =
      appendAlternative ts v := by
  induction ts, v using variant_induct with
  | first t ts v => exact append_held h.1 (hts t List.mem_cons_self h.1) v
  | later t ts v ih => exact ih (List.forall_mem_cons.mp hts).2 h.2

/-- Both models have append make the same calls for a value. -/
theorem append_form (h : Shared t) (v : t.Val) :
    (form t h).type.append ((form t h).value v) = append t v := by
  induction t using Ty.induct with
  | basic b | enum e => rfl
  | monostate => cases h
  | sequence q t ih =>
    have ht : Shared t := h
    cases q with
    | vector => exact appendContiguous_form ht (ih ht) v
    | deque | list => exact appendEach_map (congrArg contents (typeId_form ht)) (ih ht) v
  | array n t ih => exact appendContiguous_form h.2 (ih h.2) v.val
  | set o k =>
    exact appendEach_map (congrArg contents (typeId_keyForm h)) (append_keyForm h) v.val
  | map o k t ih =>
    obtain ⟨hkey, ht⟩ := h
    have hpair : ∀ p : k.Val × t.Val,
        appendPair (keyForm k hkey).type.typeId (form t ht).type.typeId
          (keyForm k hkey).type.append (form t ht).type.append
            ((keyForm k hkey).value p.1, (form t ht).value p.2) =
          appendPair [k.code] (typeId t) (appendKey k) (append t) p := by
      intro p
      rw [appendPair, appendPair, typeId_keyForm, typeId_form, append_keyForm, ih ht]
    refine appendEach_map (congrArg contents ?_) hpair v.val
    exact congrArg₂ pairId (typeId_keyForm hkey) (typeId_form ht)
  | pair t u iht ihu =>
    obtain ⟨ht, hu⟩ := h
    change appendPair (form t ht).type.typeId (form u hu).type.typeId (form t ht).type.append
      (form u hu).type.append ((form t ht).value v.1, (form u hu).value v.2) = _
    rw [appendPair, typeId_form, typeId_form, iht ht, ihu hu]
    rfl
  | tuple ts ih =>
    obtain ⟨hne, hall⟩ := h
    cases ts with
    | nil => exact absurd rfl hne
    | cons t ts =>
      have hids := typeIds_forms (fun _ _ ht => typeId_form ht) hall
      have hcalls := appendMembers_forms ih hall v
      exact congrArg₂ (appendContainer .struct) (congrArg contents hids) hcalls
  | variant t ts iht ihs =>
    cases v with
    | inl v => exact append_held h.1 (iht h.1) v
    | inr v => exact appendAlternative_forms ihs h.2 v

end Append

end Sdbusplus.Proofs.SharedTypes
