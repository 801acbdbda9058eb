import Mathlib.Data.List.TakeWhile
import Sdbusplus.Message.Append
import Sdbusplus.Message.Encoding

namespace Sdbusplus.Proofs.Append
open Message

variable {lib : LibSystemd} {w : Writer} {t : Ty} {ts : List Ty} {k : Kind} {sig : List Char}

@[simp] theorem performAll_nil : lib.performAll w [] = w := rfl

theorem performAll_cons {c : AppendCall} {cs : List AppendCall} :
    lib.performAll w (c :: cs) = lib.performAll (lib.perform w c).2 cs := rfl

theorem performAll_append {cs ds : List AppendCall} :
    lib.performAll w (cs ++ ds) = lib.performAll (lib.performAll w cs) ds := by
  simp only [LibSystemd.performAll, List.foldl_append]

def pushAll (w : Writer) (items : List Wire) : Writer := { w with items := w.items ++ items }

/-- The calls write one element, wherever the message stands. -/
def Writes (lib : LibSystemd) (calls : List AppendCall) (item : Wire) : Prop :=
  ∀ w, lib.performAll w calls = w.push item

/-- The calls write these elements. -/
def WritesAll (lib : LibSystemd) (calls : List AppendCall) (items : List Wire) : Prop :=
  ∀ w, lib.performAll w calls = pushAll w items

theorem Writes.writesAll {calls : List AppendCall} {item : Wire} (h : Writes lib calls item) :
    WritesAll lib calls [item] := h

theorem WritesAll.nil : WritesAll lib [] [] := by
  intro w
  simp [pushAll]

theorem WritesAll.append {cs ds : List AppendCall} {is js : List Wire} (h : WritesAll lib cs is)
    (h' : WritesAll lib ds js) : WritesAll lib (cs ++ ds) (is ++ js) := by
  intro w
  rw [performAll_append, h, h']
  simp [pushAll]

theorem WritesAll.flatMap {α : Type} {f : α → List AppendCall} {g : α → Wire} {xs : List α}
    (h : ∀ x ∈ xs, Writes lib (f x) (g x)) : WritesAll lib (xs.flatMap f) (xs.map g) := by
  induction xs with
  | nil => exact .nil
  | cons x xs ih =>
    rw [List.flatMap_cons, List.map_cons, ← List.singleton_append]
    exact (h x List.mem_cons_self).writesAll.append
      (ih (fun y hy => h y (List.mem_cons_of_mem _ hy)))

/-- What is written between open and close becomes the contents of one element. -/
theorem WritesAll.container {inside : List AppendCall} {items : List Wire}
    (h : WritesAll lib inside items) :
    Writes lib (appendContainer k sig inside) (.container k sig items) := by
  intro w
  rw [appendContainer, List.cons_append, performAll_cons, performAll_append, h]
  simp [performAll_cons, LibSystemd.perform, pushAll]

theorem cString_of_noNul {s : Bytes} (h : 0 ∉ s) : cString s = s := by
  rw [cString, List.takeWhile_eq_self_iff]
  intro b hb
  have hne : b ≠ 0 := fun he => h (he ▸ hb)
  simpa using hne

theorem writes_basic {b : Basic} {v : b.Val} (h : b.Storable lib v) :
    Writes lib (appendBasic b v) (.basic b.busType v) := by
  intro w
  cases b
  case string | objectPath | signature | cString =>
    obtain ⟨hn, hv⟩ := h
    simp [appendBasic, cString_of_noNul hn, performAll_cons, LibSystemd.perform,
      LibSystemd.accepts, Basic.busType, hv]
  case stringView =>
    simp [appendBasic, performAll_cons, LibSystemd.perform, Basic.busType, h.2]
  all_goals simp [appendBasic, performAll_cons, LibSystemd.perform, LibSystemd.accepts,
    Basic.busType]

theorem writes_enum {e : GeneratedEnum} {v : e.Val} (h : e.Storable lib v) :
    Writes lib (appendEnum e v) (.basic .string (e.toString v)) :=
  writes_basic (b := .string) h

theorem writes_key {k : Key} {v : k.Val} (h : k.Storable lib v) :
    Writes lib (appendKey k v) (encodeKey k v) := by
  cases k with
  | basic b _ => exact writes_basic h
  | enum e => exact writes_enum h

theorem writes_each {α : Type} {f : α → List AppendCall} {g : α → Wire} {xs : List α}
    (h : ∀ x ∈ xs, Writes lib (f x) (g x)) :
    Writes lib (appendEach sig f xs) (.container .array sig (xs.map g)) :=
  (WritesAll.flatMap h).container

theorem writes_array {b : Basic} {xs : List b.Val} (h : b.canAppendArray = true) :
    Writes lib (appendArray b xs)
      (.container .array (contents (typeId (.basic b))) (xs.map (encode (.basic b)))) := by
  intro w
  rw [appendArray, performAll_cons, performAll_nil, contents_basic]
  simp only [LibSystemd.perform, Nat.mul_div_cancel _ (Basic.size_pos h), List.take_length]
  rfl

theorem writes_contiguous {xs : List t.Val} (h : ∀ x ∈ xs, Writes lib (append t x) (encode t x)) :
    Writes lib (appendContiguous t (append t) xs)
      (.container .array (contents (typeId t)) (xs.map (encode t))) := by
  cases t
  case basic b =>
    simp only [appendContiguous]
    split
    · rename_i hb
      exact writes_array hb
    · exact writes_each h
  all_goals exact writes_each h

theorem writes_pair {α β : Type} {id id' : List Char} {f : α → List AppendCall}
    {g : β → List AppendCall} {p : α × β} {i j : Wire} (hf : Writes lib (f p.1) i)
    (hg : Writes lib (g p.2) j) : Writes lib (appendPair id id' f g p) (encodePair id id' i j) :=
  (hf.writesAll.append hg.writesAll).container

theorem writesAll_tuple
    (h : ∀ t ∈ ts, ∀ v, Storable lib t v → Writes lib (append t v) (encode t v))
    (vs : TupleVal ts) (hv : StorableTuple lib ts vs) :
    WritesAll lib (appendTuple ts vs) (encodeTuple ts vs) := by
  induction ts with
  | nil => exact .nil
  | cons t ts ih =>
    obtain ⟨v, vs⟩ := vs
    obtain ⟨hv, hvs⟩ := hv
    exact (h t List.mem_cons_self v hv).writesAll.append
      (ih (fun u hu => h u (List.mem_cons_of_mem _ hu)) vs hvs)

theorem writes_alternative {all : List Ty}
    (h : ∀ t ∈ ts, ∀ v, Storable lib t v → Writes lib (append t v) (encode t v))
    (v : VariantVal ts) (hv : StorableAlternative lib all ts v) :
    Writes lib (appendAlternative ts v) (encodeAlternative ts v) := by
  induction ts, v using variant_induct with
  | first t ts v => exact (h t List.mem_cons_self v hv.1).writesAll.container
  | later t ts v ih => exact ih (fun u hu => h u (List.mem_cons_of_mem _ hu)) hv

/-- The calls of append write the element that stands for the value. -/
theorem append_writes (v : t.Val) (hv : Storable lib t v) :
    Writes lib (append t v) (encode t v) := by
  induction t using Ty.induct with
  | basic b => exact writes_basic hv
  | enum e => exact writes_enum hv
  | monostate => cases hv
  | sequence q t ih =>
    cases q with
    | vector => exact writes_contiguous (fun x hx => ih x (hv x hx))
    | deque | list => exact writes_each (fun x hx => ih x (hv x hx))
  | array n t ih => exact writes_contiguous (fun x hx => ih x (hv x hx))
  | set o k => exact writes_each (fun x hx => writes_key (hv x hx))
  | map o k t ih =>
    exact writes_each (fun p hp => writes_pair (writes_key (hv p hp).1) (ih p.2 (hv p hp).2))
  | pair t u iht ihu => exact writes_pair (iht v.1 hv.1) (ihu v.2 hv.2)
  | tuple ts ih => exact (writesAll_tuple ih v hv).container
  | variant t ts iht ihs =>
    cases v with
    | inl v => exact (iht v hv.1).writesAll.container
    | inr v => exact writes_alternative ihs v hv

theorem appendTuple_writes (vs : TupleVal ts) (hv : StorableTuple lib ts vs) :
    WritesAll lib (appendTuple ts vs) (encodeTuple ts vs) :=
  writesAll_tuple (fun _ _ => append_writes) vs hv

end Sdbusplus.Proofs.Append
