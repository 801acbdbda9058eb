import Sdbusplus.Base.Traverse
import Sdbusplus.Proofs.Append
import Sdbusplus.Proofs.Containers
import Sdbusplus.Proofs.NativeTypes
import Sdbusplus.Proofs.Read

namespace Sdbusplus.Proofs.RoundTrip
open Message Proofs.Exactness Proofs.Append Proofs.Containers Proofs.NativeTypes Proofs.Read
open Traverse (exists_forall₂)

variable {lib : LibSystemd} {h : HashOrder} {t u : Ty} {ts all : List Ty} {k : Key} {o : Order}

theorem RoundTripAll.mem (hr : RoundTripAll ts) (ht : t ∈ ts) : RoundTrip t := by
  induction ts with
  | nil => cases ht
  | cons u ts ih =>
    rcases List.mem_cons.mp ht with rfl | ht
    · exact hr.1
    · exact ih hr.2 ht

/-- The element that stands for a value stands for an equal one when it is read. -/
abbrev ReadsBack (lib : LibSystemd) (h : HashOrder) (t : Ty) : Prop :=
  ∀ v, Storable lib t v → ∃ v', Denotes h t t.default [encode t v] v' ∧ Equal t v v'

section signatures

theorem code_plain (b : BusType) : nul ≠ b.code := by
  cases b <;> decide

theorem key_plain (k : Key) : nul ≠ k.code := by
  cases k with
  | basic b _ => exact code_plain b.busType
  | enum e => exact code_plain .string

theorem typeIds_plain (hts : ∀ t ∈ ts, nul ∉ typeId t) : nul ∉ typeIds ts := by
  induction ts with
  | nil => exact List.not_mem_nil
  | cons t ts ih =>
    exact plain_append (hts t List.mem_cons_self)
      (ih (fun u hu => hts u (List.mem_cons_of_mem _ hu)))

/-- Only std::monostate has a type id that holds a NUL. -/
theorem typeId_plain (hr : RoundTrip t) : nul ∉ typeId t := by
  induction t using Ty.induct with
  | basic b => simpa [typeId] using code_plain b.busType
  | enum e => exact plain_cons (code_plain .string) List.not_mem_nil
  | monostate => cases hr
  | sequence q t ih => exact plain_cons (by decide) (ih hr)
  | array n t => cases hr
  | set o k => exact plain_cons (by decide) (plain_cons (key_plain k) List.not_mem_nil)
  | map o k t ih =>
    obtain ⟨-, ht⟩ := hr
    have hkey : nul ∉ [k.code] := plain_cons (key_plain k) List.not_mem_nil
    exact plain_cons (by decide) (plain_pairId hkey (ih ht))
  | pair t u => cases hr
  | tuple ts ih =>
    have hts := typeIds_plain (fun t ht => ih t ht (RoundTripAll.mem hr.2 ht))
    exact plain_brackets (by decide) hts (by decide)
  | variant t ts => exact plain_cons (by decide) List.not_mem_nil

/-- The signature of a type without NUL is its whole type id. -/
theorem contents_typeId (hr : RoundTrip t) : contents (typeId t) = typeId t :=
  contents_of_plain (typeId_plain hr)

theorem typeId_text (ht : t.isEnumOrString = true) : typeId t = ['s'] := by
  cases t
  case enum e => rfl
  case basic b => cases b <;> first | rfl | cases ht
  all_goals cases ht

/-- Nothing but enums and std::string is read from a string. -/
theorem isEnumOrString_of_typeId (hr : RoundTrip t) (hs : typeId t = ['s']) :
    t.isEnumOrString = true := by
  cases t
  case basic b =>
    cases b
    case stringView => exact absurd rfl hr.2.1
    case cString => exact absurd rfl hr.2.2
    case string => rfl
    all_goals cases hs
  case enum e => rfl
  case tuple ts => simp [typeId] at hs
  all_goals cases hs

end signatures

section alternatives

/-- An alternative that is neither an enum nor a std::string has its signature alone. -/
theorem contents_ne (hd : Distinguishable t u) (hu : u.isEnumOrString = false)
    (hrt : RoundTrip t) (hru : RoundTrip u) : contents (typeId u) ≠ contents (typeId t) := by
  rw [contents_typeId hrt, contents_typeId hru]
  rcases hd with hne | hshare
  · exact Ne.symm hne
  · cases t <;> cases u
    case enum.enum | basic.enum => cases hu
    case enum.basic e b =>
      rw [show b = .string from hshare] at hu
      cases hu
    all_goals cases hshare

theorem encodeAlternative_held (v : VariantVal ts) :
    encodeAlternative ts v = .container .variant (contents (typeId (heldType ts v)))
      [encode (heldType ts v) (heldVal ts v)] := by
  induction ts, v using variant_induct with
  | first t ts v => rfl
  | later t ts v ih => exact ih

theorem encode_text (ht : t.isEnumOrString = true) (v : t.Val) :
    encode t v = .basic .string (text t v) := by
  cases t
  case enum e => rfl
  case basic b => cases b <;> first | rfl | cases ht
  all_goals cases ht

theorem equal_text (ht : t.isEnumOrString = true) (v : t.Val) : Equal t v v := by
  cases t
  case enum e => exact rfl
  case basic b => exact rfl
  all_goals cases ht

theorem equalAlternative_held {v : VariantVal ts}
    (he : Equal (heldType ts v) (heldVal ts v) (heldVal ts v)) : EqualAlternative ts v v := by
  induction ts, v using variant_induct with
  | first t ts v => exact he
  | later t ts v ih => exact ih he

theorem denotesHeld_string {str : Bytes} {β : Type} {fromString : Bytes → Option β}
    {C : Meaning t.Val} {inj : t.Val → β} {w : β} (ht : t.isEnumOrString = true)
    (hw : fromString str = some w) : DenotesHeld t C fromString inj [.basic .string str] w :=
  (if_pos ht).mpr ⟨str, rfl, hw⟩

theorem denotesHeld_plain {β : Type} {fromString : Bytes → Option β} {C : Meaning t.Val}
    {inj : t.Val → β} {body : List Wire} {x : t.Val} (ht : t.isEnumOrString = false)
    (hx : C body x) : DenotesHeld t C fromString inj body (inj x) :=
  (if_neg (by rw [ht]; decide)).mpr ⟨x, hx, rfl⟩

/-- A string is what the whole variant makes of it, whichever enum or string comes first. -/
theorem alternatives_string {value w : VariantVal all} {inj : VariantVal ts → VariantVal all}
    {str : Bytes} (hr : RoundTripAll ts) (hp : process all str = some w)
    (hu : u ∈ ts) (hs : u.isEnumOrString = true) :
    DenotesAlternatives h all value ts inj ['s'] [.basic .string str] w := by
  induction ts with
  | nil => cases hu
  | cons t ts ih =>
    rw [DenotesAlternatives, DenotesAlternative, contents_typeId hr.1]
    by_cases hid : typeId t = ['s']
    · rw [if_pos hid.symm]
      exact denotesHeld_string (isEnumOrString_of_typeId hr.1 hid) hp
    · rw [if_neg (Ne.symm hid)]
      rcases List.mem_cons.mp hu with rfl | hu
      · exact absurd (typeId_text hs) hid
      · exact ih hr.2 hu

/-- Any other value is read by the one alternative with its signature. -/
theorem alternatives_plain {value : VariantVal all} (inj : VariantVal ts → VariantVal all)
    (hback : ∀ u ∈ ts, ReadsBack lib h u) (hr : RoundTripAll ts)
    (hd : ts.Pairwise Distinguishable) (v : VariantVal ts)
    (hv : Storable lib (heldType ts v) (heldVal ts v))
    (hs : (heldType ts v).isEnumOrString = false) :
    ∃ w, DenotesAlternatives h all value ts inj (contents (typeId (heldType ts v)))
        [encode (heldType ts v) (heldVal ts v)] (inj w) ∧ EqualAlternative ts v w := by
  induction ts with
  | nil => cases v
  | cons t ts ih =>
    obtain ⟨hdt, hdts⟩ := List.pairwise_cons.mp hd
    cases v with
    | inl v =>
      obtain ⟨y, hy, he⟩ := hback t List.mem_cons_self v hv
      exact ⟨.inl y, (if_pos rfl).mpr (denotesHeld_plain hs hy), he⟩
    | inr v =>
      obtain ⟨w, hw, he⟩ := ih (fun v => inj (.inr v))
        (fun u hu => hback u (List.mem_cons_of_mem _ hu)) hr.2 hdts v hv hs
      have hmem := heldType_mem v
      have hne := contents_ne (hdt _ hmem) hs hr.1 (RoundTripAll.mem hr.2 hmem)
      exact ⟨.inr w, (if_neg hne).mpr hw, he⟩

end alternatives

section values

theorem SameElements.symm {α : Type} {xs ys : List α} (hs : o.SameElements xs ys) :
    o.SameElements ys xs := by
  cases o with
  | sorted => exact Eq.symm hs
  | hashed => exact List.Perm.symm hs

theorem denotes_key (v : k.Val) : k.Denotes [encodeKey k v] v := by
  cases k with
  | basic b _ => exact rfl
  | enum e => exact ⟨_, rfl, fromString_toString v⟩

theorem readsBack_sequence {q : Sequence} (ht : ReadsBack lib h t) :
    ReadsBack lib h (.sequence q t) := by
  intro xs hxs
  obtain ⟨ys, hys⟩ := exists_forall₂.mpr (fun x hx => ht x (hxs x hx))
  have heach : Each (Denotes h t t.default) (xs.map (encode t)) ys :=
    List.forall₂_map_left_iff.mpr (hys.imp fun _ _ hxy => hxy.1)
  refine ⟨ys, ⟨_, rfl, ys, heach, ?_⟩, hys.imp fun _ _ hxy => hxy.2⟩
  exact (foldl_snoc [] ys).symm

/-- A set or map that is read takes in what is there. -/
theorem foldl_emplace_empty {α : Type} {key : α → k.Val} {ys : List α}
    (hp : ys.Pairwise (fun a b => k.apart o (key a) (key b) = true)) :
    o.SameElements (ys.foldl (emplace h o k key) []) ys := by
  have hempty : o.SameElements ([] : List α) [] := by cases o <;> exact .refl _
  exact foldl_emplace hempty hp

/-- What is read into a set or map that was empty. -/
theorem takenIn_emplace {α : Type} (key : α → k.Val) {D : Meaning α} {is : List Wire}
    {ys : List α} (hys : Each D is ys)
    (hp : ys.Pairwise (fun a b => k.apart o (key a) (key b) = true)) :
    ∃ xs : { xs : List α // xs.Pairwise (fun a b => k.apart o (key a) (key b) = true) },
      TakenIn D (emplace h o k key) [] is xs.val ∧ o.SameElements ys xs.val := by
  exact ⟨⟨_, pairwise_foldl_emplace .nil⟩, ⟨ys, hys, rfl⟩,
    SameElements.symm (foldl_emplace_empty hp)⟩

theorem readsBack_set : ReadsBack lib h (.set o k) := by
  rintro ⟨xs, hx⟩ hv
  have heach : Each k.Denotes (xs.map (encodeKey k)) xs :=
    List.forall₂_map_left_iff.mpr (List.forall₂_same.mpr fun x _ => denotes_key x)
  obtain ⟨ys, hys, hsame⟩ := takenIn_emplace (h := h) id heach hx
  exact ⟨ys, ⟨_, rfl, hys⟩, hsame⟩

theorem readsBack_map (ht : ReadsBack lib h t) : ReadsBack lib h (.map o k t) := by
  rintro ⟨xs, hx⟩ hv
  have hentry : ∀ p ∈ xs, ∃ q : k.Val × t.Val,
      DenotesPair [k.code] (typeId t) k.Denotes (Denotes h t t.default)
        [encodePair [k.code] (typeId t) (encodeKey k p.1) (encode t p.2)] q ∧
      (p.1 = q.1 ∧ Equal t p.2 q.2) := by
    intro p hp
    obtain ⟨y, hy, he⟩ := ht p.2 (hv p hp).2
    exact ⟨(p.1, y), ⟨_, rfl, [_], [_], rfl, denotes_key p.1, hy⟩, rfl, he⟩
  obtain ⟨zs, hzs⟩ := exists_forall₂.mpr hentry
  have hsame : List.Forall₂ (fun p q : k.Val × t.Val => p.1 = q.1 ∧ Equal t p.2 q.2) xs zs :=
    hzs.imp fun _ _ hpq => hpq.2
  have hkeys : xs.map Prod.fst = zs.map Prod.fst := by
    rw [← List.forall₂_eq_eq_eq, List.forall₂_map_left_iff, List.forall₂_map_right_iff]
    exact hsame.imp fun _ _ hpq => hpq.1
  have hapart : zs.Pairwise (fun p q => k.apart o p.1 q.1 = true) := by
    have hx : (xs.map Prod.fst).Pairwise (fun a b => k.apart o a b = true) :=
      List.pairwise_map.mpr hx
    rw [hkeys] at hx
    exact List.pairwise_map.mp hx
  have heach : Each (DenotesPair [k.code] (typeId t) k.Denotes (Denotes h t t.default))
      (xs.map fun p => encodePair [k.code] (typeId t) (encodeKey k p.1) (encode t p.2)) zs :=
    List.forall₂_map_left_iff.mpr (hzs.imp fun _ _ hpq => hpq.1)
  obtain ⟨ys, hys, hmap⟩ := takenIn_emplace (h := h) Prod.fst heach hapart
  exact ⟨ys, ⟨_, rfl, hys⟩, zs, hsame, hmap⟩

/-- Arguments, or the members of a tuple, one after the other. -/
theorem readsBack_tuple (hts : ∀ t ∈ ts, ReadsBack lib h t) (vs : TupleVal ts)
    (hvs : StorableTuple lib ts vs) :
    ∃ ws, DenotesTuple h ts (tupleDefault ts) (encodeTuple ts vs) ws ∧
      EqualTuple ts vs ws := by
  induction ts with
  | nil => exact ⟨(), rfl, trivial⟩
  | cons t ts ih =>
    obtain ⟨v, vs⟩ := vs
    obtain ⟨w, hw, he⟩ := hts t List.mem_cons_self v hvs.1
    obtain ⟨ws, hws, hes⟩ := ih (fun u hu => hts u (List.mem_cons_of_mem _ hu)) vs hvs.2
    exact ⟨(w, ws), ⟨[_], _, rfl, hw, hws⟩, he, hes⟩

theorem storable_variant {v : (Ty.variant t ts).Val} (hv : Storable lib (.variant t ts) v) :
    StorableAlternative lib (t :: ts) (t :: ts) v := by
  cases v <;> exact hv

theorem encode_variant {v : (Ty.variant t ts).Val} :
    encode (.variant t ts) v = encodeAlternative (t :: ts) v := by
  cases v <;> rfl

theorem equal_variant {v w : (Ty.variant t ts).Val} (he : EqualAlternative (t :: ts) v w) :
    Equal (.variant t ts) v w := by
  cases v <;> cases w <;> exact he

theorem readsBack_alternatives {value : VariantVal ts} (hts : ∀ t ∈ ts, ReadsBack lib h t)
    (hr : RoundTripAll ts) (hflat : ∀ t ∈ ts, t.isVariant = false)
    (hd : ts.Pairwise Distinguishable) (v : VariantVal ts)
    (hv : StorableAlternative lib ts ts v) :
    ∃ w, InVariant (DenotesAlternatives h ts value ts id) [encodeAlternative ts v] w ∧
      EqualAlternative ts v w := by
  obtain ⟨hheld, hname⟩ := storable_held hv
  rw [encodeAlternative_held]
  cases hs : (heldType ts v).isEnumOrString with
  | false =>
    obtain ⟨w, hw, he⟩ := alternatives_plain id hts hr hd v hheld hs
    exact ⟨w, ⟨_, _, rfl, hw⟩, he⟩
  | true =>
    have hid : contents (typeId (heldType ts v)) = ['s'] := by
      rw [contents_typeId (RoundTripAll.mem hr (heldType_mem v)), typeId_text hs]
    refine ⟨v, ⟨_, _, rfl, ?_⟩, equalAlternative_held (equal_text hs _)⟩
    rw [encode_text hs, hid]
    exact alternatives_string hr (process_held hd hflat (fun _ hm => hm) v hs hname)
      (heldType_mem v) hs

theorem readsBack_variant (hts : ∀ u ∈ t :: ts, ReadsBack lib h u) (hr : RoundTripAll (t :: ts))
    (hflat : ∀ u ∈ t :: ts, u.isVariant = false) (hd : (t :: ts).Pairwise Distinguishable) :
    ReadsBack lib h (.variant t ts) := by
  intro v hv
  have hread : ∃ w : VariantVal (t :: ts),
      InVariant (DenotesAlternatives h (t :: ts) (.inl t.default) (t :: ts) id)
        [encodeAlternative (t :: ts) v] w ∧ EqualAlternative (t :: ts) v w :=
    readsBack_alternatives hts hr hflat hd v (storable_variant hv)
  obtain ⟨w, hw, he⟩ := hread
  rw [encode_variant]
  exact ⟨w, hw, equal_variant he⟩

/-- Every value of such a type is read back from the element that stands for it. -/
theorem readsBack (hr : RoundTrip t) : ReadsBack lib h t := by
  induction t using Ty.induct with
  | basic b => exact fun v _ => ⟨v, rfl, rfl⟩
  | enum e => exact fun v _ => ⟨v, ⟨_, rfl, fromString_toString v⟩, rfl⟩
  | monostate => cases hr
  | sequence q t ih => exact readsBack_sequence (ih hr)
  | array n t => cases hr
  | set o k => exact readsBack_set
  | map o k t ih => exact readsBack_map (ih hr.2)
  | pair t u => cases hr
  | tuple ts ih =>
    intro vs hvs
    obtain ⟨ws, hws, he⟩ :=
      readsBack_tuple (fun t ht => ih t ht (RoundTripAll.mem hr.2 ht)) vs hvs
    exact ⟨ws, ⟨_, rfl, hws⟩, he⟩
  | variant t ts iht ihs =>
    obtain ⟨hrs, hrt, hflat, hd⟩ := hr
    have hall : ∀ u ∈ t :: ts, ReadsBack lib h u := by
      intro u hu
      rcases List.mem_cons.mp hu with rfl | hu
      · exact iht hrt
      · exact ihs u hu (RoundTripAll.mem hrs hu)
    exact readsBack_variant hall ⟨hrt, hrs⟩ hflat hd

end values

/-- What message::append wrote for some arguments, message::read reads back with
equal values, and leaves the cursor behind them in the message itself, whatever
follows. -/
theorem read_append (lib : LibSystemd) (h : HashOrder) (ts : List Ty) (hr : RoundTripAll ts)
    (vs : TupleVal ts) (hvs : StorableTuple lib ts vs) (rest : List Wire) :
    ∃ ws, readTuple h ts (tupleDefault ts)
        (Cursor.start ((lib.performAll .empty (appendTuple ts vs)).items ++ rest)) =
          .ok (ws, Cursor.start rest) ∧ EqualTuple ts vs ws := by
  obtain ⟨ws, hws, he⟩ := readsBack_tuple
    (fun t ht => (readsBack (RoundTripAll.mem hr ht) : ReadsBack lib h t)) vs hvs
  refine ⟨ws, ?_, he⟩
  rw [appendTuple_writes vs hvs .empty]
  exact (readTuple_takes (fun t _ out => read_exact h t out) (by simp) (tupleDefault ts) _
    [] ws _).mpr ⟨encodeTuple ts vs, rest, rfl, hws, rfl⟩

/-- The enum a.b with the values c and d. -/
def letters : GeneratedEnum where
  interface := [97]
  name := [98]
  values := [[99], [100]]
  nonempty := by decide
  distinct := by decide
  name_plain := by decide
  values_plain := by decide

/-- The order of a hashed container that shows new elements first. -/
def newestFirst : HashOrder := ⟨fun _ _ _ xs x => x :: xs, fun _ _ _ _ _ => .refl _⟩

/-- Numbers, properties of different types, and a name that is an enum's or any text. -/
def arguments : List Ty :=
  [.sequence .vector (.basic .uint16),
    .map .sorted (.basic .string (by decide)) (.variant (.basic .int32) [.basic .double]),
    .variant (.enum letters) [.basic .string, .basic .bool],
    .variant (.enum letters) [.basic .string, .basic .bool]]

def argumentValues : TupleVal arguments :=
  ([1#16, 2#16], ⟨[([120], .inl 3#32), ([121], .inr (.inl 4#64))], by decide⟩,
    .inl ⟨1, by decide⟩, .inr (.inl [101]), ())

/-- A libsystemd that finds no fault with any text. -/
def lenient : LibSystemd := ⟨fun _ => true, fun _ => true, fun _ => true⟩

theorem basic_roundTrip {b : Basic} (hb : b ≠ .unixFd ∧ b ≠ .stringView ∧ b ≠ .cString) :
    RoundTrip (.basic b) := hb

theorem name_roundTrip : RoundTrip (.variant (.enum letters) [.basic .string, .basic .bool]) := by
  refine ⟨⟨basic_roundTrip (by decide), basic_roundTrip (by decide), trivial⟩, trivial,
    by decide, ?_⟩
  refine .cons ?_ (.cons ?_ (.cons (by simp) .nil))
  · intro u hu
    simp only [List.mem_cons, List.not_mem_nil, or_false] at hu
    rcases hu with rfl | rfl
    · exact .inr rfl
    · exact .inl (by decide)
  · intro u hu
    rw [List.mem_singleton.mp hu]
    exact .inl (by decide)

theorem arguments_roundTrip : RoundTripAll arguments := by
  have hnumber : RoundTrip (.variant (.basic .int32) [.basic .double]) := by
    refine ⟨⟨basic_roundTrip (by decide), trivial⟩, basic_roundTrip (by decide), by decide, ?_⟩
    refine .cons (fun u hu => ?_) (.cons (by simp) .nil)
    rw [List.mem_singleton.mp hu]
    exact .inl (by decide)
  exact ⟨basic_roundTrip (by decide), ⟨basic_roundTrip (by decide), hnumber⟩, name_roundTrip,
    name_roundTrip, trivial⟩

theorem argumentValues_storable : StorableTuple lenient arguments argumentValues := by
  refine ⟨fun _ _ => trivial, ?_, ⟨⟨by decide, rfl⟩, trivial⟩, ⟨⟨by decide, rfl⟩, ?_⟩, trivial⟩
  · intro p hp
    rcases List.mem_cons.mp hp with rfl | hp
    · exact ⟨⟨by decide, rfl⟩, trivial, trivial⟩
    · rw [List.mem_singleton.mp hp]
      exact ⟨⟨by decide, rfl⟩, trivial, trivial⟩
  · intro e he v
    simp only [List.mem_cons, reduceCtorEq, List.not_mem_nil, or_false, Ty.enum.injEq] at he
    subst he
    exact (by decide : ∀ v : letters.Val, [101] ≠ letters.toString v) v

theorem read_append_arguments :
    ∃ ws, readTuple newestFirst arguments (tupleDefault arguments)
        (Cursor.start ((lenient.performAll .empty (appendTuple arguments argumentValues)).items ++
          [])) = .ok (ws, Cursor.start []) ∧ EqualTuple arguments argumentValues ws :=
  read_append lenient newestFirst arguments arguments_roundTrip argumentValues
    argumentValues_storable []

end Sdbusplus.Proofs.RoundTrip
