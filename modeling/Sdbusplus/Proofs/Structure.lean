import Sdbusplus.Message.Structure
import Sdbusplus.Proofs.Append
import Sdbusplus.Proofs.Read

namespace Sdbusplus.Proofs.Structure
open Message Proofs.Append Proofs.Calls Proofs.Exactness Proofs.Read

variable {lim : Limits} {around : List Kind} {t u : CppType} {ts us : List CppType} {k : Kind}
  {sig : List Char} {calls calls' : List AppendCall} {items items' : List Wire} {item : Wire}
  {w : Writer} {es fs : List Entry}

/-- Induction over types, whose tuples and variants have lists of them. -/
theorem induct {P : CppType → Prop} (basic : ∀ b, P (.basic b)) (enum : ∀ e he, P (.enum e he))
    (sequence : ∀ q t, P t → P (.sequence q t)) (array : ∀ n t, P t → P (.array n t))
    (associative : ∀ t, P t → P (.associative t)) (pair : ∀ t u, P t → P u → P (.pair t u))
    (tuple : ∀ t ts, P t → (∀ u ∈ ts, P u) → P (.tuple t ts))
    (variant : ∀ t ts, P t → (∀ u ∈ ts, P u) → P (.variant t ts))
    (qualified : ∀ q t, P t → P (.qualified q t)) (t : CppType) : P t :=
  @CppType.rec P (fun ts => ∀ t ∈ ts, P t) basic enum sequence array associative pair tuple
    variant qualified (by simp)
    (fun t ts ht hts u hu => by
      rcases List.mem_cons.mp hu with rfl | hu
      · exact ht
      · exact hts u hu) t

/-- Induction over the alternatives in front of the one that is held. -/
theorem alternatives_induct {P : (ts : List CppType) → CppType.Alternatives ts → Prop}
    (first : ∀ t ts v, P (t :: ts) (.inl v)) (later : ∀ t ts v, P ts v → P (t :: ts) (.inr v))
    (ts : List CppType) (v : CppType.Alternatives ts) : P ts v := by
  induction ts with
  | nil => cases v
  | cons t ts ih =>
    cases v with
    | inl v => exact first t ts v
    | inr v => exact later t ts v (ih v)

section TypeIds

theorem nul_typeIds (h : ∀ t ∈ ts, nul ∉ t.typeId) : nul ∉ CppType.typeIds ts := by
  induction ts with
  | nil => exact List.not_mem_nil
  | cons t ts ih =>
    exact plain_append (h t List.mem_cons_self) (ih (fun u hu => h u (List.mem_cons_of_mem _ hu)))

/-- A type id ends at its terminator. -/
theorem nul_typeId (t : CppType) : nul ∉ t.typeId := by
  induction t using induct with
  | basic b =>
    rw [CppType.typeId, List.mem_singleton]
    cases b <;> decide
  | enum e he => exact plain_cons (by decide) List.not_mem_nil
  | sequence q t ih | array n t ih | associative t ih => exact plain_cons (by decide) ih
  | pair t u iht ihu => exact plain_pairId iht ihu
  | tuple t ts iht ihs =>
    exact plain_brackets (by decide) (plain_append iht (nul_typeIds ihs)) (by decide)
  | variant t ts iht ihs => exact plain_cons (by decide) List.not_mem_nil
  | qualified q t ih => exact ih

@[simp] theorem contents_typeId : contents t.typeId = t.typeId :=
  contents_of_plain (nul_typeId t)

@[simp] theorem contents_typeIds :
    contents (t.typeId ++ CppType.typeIds ts) = t.typeId ++ CppType.typeIds ts :=
  contents_of_plain (plain_append (nul_typeId t) (nul_typeIds (fun u _ => nul_typeId u)))

@[simp] theorem contents_pair : contents (t.typeId ++ u.typeId) = t.typeId ++ u.typeId :=
  contents_of_plain (plain_append (nul_typeId t) (nul_typeId u))

@[simp] theorem contents_times {n : Nat} : contents (List.replicate n t.typeId).flatten =
    (List.replicate n t.typeId).flatten := by
  apply contents_of_plain
  intro hmem
  obtain ⟨id, hid, hnul⟩ := List.mem_flatten.mp hmem
  rw [List.eq_of_mem_replicate hid] at hnul
  exact nul_typeId t hnul

end TypeIds

section Append

/-- What is sent of a value: a string as a C string. -/
def sent : (b : Basic) → b.Val → b.Val
  | .string, s => cString s
  | .objectPath, s => cString s
  | .signature, s => cString s
  | .cString, s => cString s
  | _, v => v

mutual

/-- The element of a message that append makes of a value. -/
def encode : (t : CppType) → t.Val → Wire
  | .basic b, v => .basic b.busType (sent b v)
  | .enum e _, v => .basic .string (e.toString v)
  | .sequence _ t, xs => .container .array t.typeId (xs.map (encode t))
  | .array _ t, xs => .container .array t.typeId (xs.val.map (encode t))
  | .associative t, xs => .container .array t.typeId (xs.map (encode t))
  | .pair t u, p => .container .dictEntry (t.typeId ++ u.typeId) [encode t p.1, encode u p.2]
  | .tuple t ts, vs =>
    .container .struct (t.typeId ++ CppType.typeIds ts) (encode t vs.1 :: encodeMembers ts vs.2)
  | .variant t _, .inl v => .container .variant t.typeId [encode t v]
  | .variant _ ts, .inr v => encodeAlternative ts v
  | .qualified _ t, v => encode t v

def encodeMembers : (ts : List CppType) → CppType.Members ts → List Wire
  | [], _ => []
  | t :: ts, (v, vs) => encode t v :: encodeMembers ts vs

def encodeAlternative : (ts : List CppType) → CppType.Alternatives ts → Wire
  | t :: _, .inl v => .container .variant t.typeId [encode t v]
  | _ :: ts, .inr v => encodeAlternative ts v

end

mutual

/-- The containers of an element, from the outside in. -/
def entries : Wire → List Entry
  | .basic _ _ => []
  | .container k sig items => (k, sig) :: entriesOf items

def entriesOf : List Wire → List Entry
  | [] => []
  | item :: items => entries item ++ entriesOf items

end

theorem entriesOf_append : entriesOf (items ++ items') = entriesOf items ++ entriesOf items' := by
  induction items with
  | nil => rfl
  | cons item items ih => rw [List.cons_append, entriesOf, entriesOf, ih, List.append_assoc]

theorem entriesOf_map {α : Type} {f : α → Wire} {xs : List α} :
    entriesOf (xs.map f) = xs.flatMap (fun x => entries (f x)) := by
  induction xs with
  | nil => rfl
  | cons x xs ih => rw [List.map_cons, entriesOf, ih, List.flatMap_cons]

mutual

/-- Every container of an element may stand where it does, inside of these. -/
def Placed (may : List Kind → Kind → List Char → Bool) (around : List Kind) : Wire → Prop
  | .basic _ _ => True
  | .container k sig items => may around k sig = true ∧ PlacedAll may (k :: around) items

def PlacedAll (may : List Kind → Kind → List Char → Bool) (around : List Kind) : List Wire → Prop
  | [] => True
  | item :: items => Placed may around item ∧ PlacedAll may around items

end

variable {may : List Kind → Kind → List Char → Bool}

theorem placedAll_append : PlacedAll may around (items ++ items') ↔
    PlacedAll may around items ∧ PlacedAll may around items' := by
  induction items with
  | nil => simp [PlacedAll]
  | cons item items ih => rw [List.cons_append, PlacedAll, PlacedAll, ih, and_assoc]

theorem placedAll_map {α : Type} {f : α → Wire} {xs : List α} :
    PlacedAll may around (xs.map f) ↔ ∀ x ∈ xs, Placed may around (f x) := by
  induction xs with
  | nil => simp [PlacedAll]
  | cons x xs ih => rw [List.map_cons, PlacedAll, ih, List.forall_mem_cons]

theorem placedAll_one : PlacedAll may around [item] ↔ Placed may around item := by
  simp [PlacedAll]

/-- What has no containers may stand anywhere. -/
theorem entries_pos (h : ¬ PlacedAll may around [item]) : 0 < (entriesOf [item]).length := by
  cases item with
  | basic b d => exact absurd ⟨trivial, trivial⟩ h
  | container k sig items => simp [entriesOf, entries]

section Calls

theorem performAll_append : lim.performAll w (calls ++ calls') =
    lim.performAll (lim.performAll w calls) calls' := List.foldl_append

theorem opened_append : lim.opened w (calls ++ calls') =
    lim.opened w calls ++ lim.opened (lim.performAll w calls) calls' := by
  induction calls generalizing w with
  | nil => rfl
  | cons call calls ih =>
    rw [List.cons_append, Limits.opened, Limits.opened, ih, List.append_assoc]
    rfl

/-- No more is opened than the calls are for. -/
theorem opened_length_le :
    (lim.opened w calls).length ≤ (calls.flatMap opens).length := by
  induction calls generalizing w with
  | nil => exact Nat.le_refl 0
  | cons call calls ih =>
    rw [Limits.opened, List.flatMap_cons, List.length_append, List.length_append]
    apply Nat.add_le_add _ ih
    split
    · exact Nat.le_refl _
    · exact Nat.zero_le _

/-- The elements follow on those that the open container holds already. -/
def Follow (w : Writer) (items : List Wire) : Prop :=
  match w.opened with
  | [] => True
  | (.array, sig, _) :: _ => ∀ item ∈ items, item.typeId = sig
  | (_, sig, _) :: _ => signature w.items ++ signature items <+: sig

theorem follow_append : Follow w (items ++ items') ↔
    Follow w items ∧ Follow (pushAll w items) items' := by
  obtain ⟨before, opened⟩ := w
  rcases opened with _ | ⟨⟨k, sig, outer⟩, opened⟩
  · exact ⟨fun _ => ⟨trivial, trivial⟩, fun _ => trivial⟩
  · cases k with
    | array => exact List.forall_mem_append
    | struct | dictEntry | variant =>
      simp only [Follow, pushAll, signature_append, ← List.append_assoc]
      exact ⟨fun h => ⟨(List.prefix_append _ _).trans h, h⟩, And.right⟩

theorem follow_one : Follow w [item] ↔ w.fits item.typeId = true := by
  obtain ⟨before, opened⟩ := w
  rcases opened with _ | ⟨⟨k, sig, outer⟩, opened⟩
  · exact ⟨fun _ => rfl, fun _ => trivial⟩
  · cases k <;> simp [Follow, Writer.fits, signature_one]

/-- What a container with this signature holds in the end. -/
def Holds (k : Kind) (sig : List Char) (items : List Wire) : Prop :=
  if k = .array then ∀ item ∈ items, item.typeId = sig else signature items = sig

theorem Holds.follow {outer : List Wire} {opened : List (Kind × List Char × List Wire)}
    (h : Holds k sig items) : Follow ⟨[], (k, sig, outer) :: opened⟩ items := by
  cases k with
  | array => exact h
  | struct | dictEntry | variant =>
    have hsig : signature items = sig := h
    exact hsig ▸ List.prefix_refl _

theorem Holds.complete {outer : List Wire} {opened : List (Kind × List Char × List Wire)}
    (h : Holds k sig items) : Writer.complete ⟨items, (k, sig, outer) :: opened⟩ = true := by
  cases k with
  | array => rfl
  | struct | dictEntry | variant => exact decide_eq_true h

end Calls

/-- The calls are for these elements and their containers. If all of these may be opened
where they stand they are and the elements are written, and if not then not all of them. -/
structure Appends (lim : Limits) (calls : List AppendCall) (items : List Wire) : Prop where
  asks : calls.flatMap opens = entriesOf items
  writes : ∀ w, Follow w items → PlacedAll lim.opens w.around items →
    lim.performAll w calls = pushAll w items ∧ lim.opened w calls = entriesOf items
  refused : ∀ w, Follow w items → ¬ PlacedAll lim.opens w.around items →
    (lim.opened w calls).length < (entriesOf items).length

theorem Appends.nil : Appends lim [] [] where
  asks := rfl
  writes _ _ _ := ⟨by simp [Limits.performAll, pushAll], rfl⟩
  refused _ _ hno := absurd trivial hno

theorem Appends.append (h : Appends lim calls items) (h' : Appends lim calls' items') :
    Appends lim (calls ++ calls') (items ++ items') where
  asks := by rw [List.flatMap_append, entriesOf_append, h.asks, h'.asks]
  writes w hw hplaced := by
    obtain ⟨hfirst, hsecond⟩ := placedAll_append.mp hplaced
    obtain ⟨hw, hw'⟩ := follow_append.mp hw
    obtain ⟨hdone, hopened⟩ := h.writes w hw hfirst
    obtain ⟨hdone', hopened'⟩ := h'.writes (pushAll w items) hw' hsecond
    rw [performAll_append, opened_append, entriesOf_append, hopened, hdone, hdone', hopened']
    exact ⟨by simp [pushAll], rfl⟩
  refused w hw hno := by
    obtain ⟨hw, hw'⟩ := follow_append.mp hw
    rw [opened_append, entriesOf_append, List.length_append, List.length_append]
    by_cases hfirst : PlacedAll lim.opens w.around items
    · obtain ⟨hdone, hopened⟩ := h.writes w hw hfirst
      rw [hdone, hopened]
      apply Nat.add_lt_add_left
      exact h'.refused _ hw' fun hsecond => hno (placedAll_append.mpr ⟨hfirst, hsecond⟩)
    · have hless := h.refused w hw hfirst
      have hrest := @opened_length_le lim calls' (lim.performAll w calls)
      rw [h'.asks] at hrest
      exact Nat.add_lt_add_of_lt_of_le hless hrest

/-- One call for one element. -/
theorem Appends.call {call : AppendCall} (hasks : opens call = entriesOf [item])
    (hgrants : ∀ w, Follow w [item] →
      (lim.grants w call = true ↔ PlacedAll lim.opens w.around [item]))
    (hwrites : ∀ w, (anyText.perform w call).2 = pushAll w [item]) :
    Appends lim [call] [item] where
  asks := by rw [List.flatMap_singleton, hasks]
  writes w hw hplaced := by
    have hgranted := (hgrants w hw).mpr hplaced
    rw [Limits.opened, if_pos hgranted, hasks, Limits.performAll, List.foldl_cons, Limits.perform,
      if_pos hgranted, hwrites]
    exact ⟨rfl, List.append_nil _⟩
  refused (w : Writer) hw hno := by
    have hrefused : ¬ lim.grants w call = true := fun hg => hno ((hgrants w hw).mp hg)
    rw [Limits.opened, if_neg hrefused]
    exact entries_pos hno

theorem open_granted {contents : List Char} (hw : Follow w [.container k contents items])
    (hmay : lim.opens w.around k contents = true) :
    lim.grants w (.openContainer k contents) = true := by
  have hfits : w.fits (k.typeId contents) = true := follow_one.mp hw
  rw [Limits.grants, hmay, hfits]
  rfl

theorem open_done {contents : List Char}
    (hgranted : lim.grants w (.openContainer k contents) = true) :
    lim.perform w (.openContainer k contents) = ⟨[], (k, contents, w.items) :: w.opened⟩ :=
  if_pos hgranted

theorem container_entries : entriesOf [.container k sig items] = (k, sig) :: entriesOf items := by
  simp [entriesOf, entries]

theorem container_asks (h : Appends lim calls items) :
    (appendContainer k sig calls).flatMap opens = entriesOf [.container k sig items] := by
  rw [appendContainer, List.cons_append, List.flatMap_cons, List.flatMap_append, h.asks,
    container_entries]
  simp [opens]

/-- A container that is opened gets its elements, and is closed when it has them all. -/
theorem container_writes (h : Appends lim calls items) (hholds : Holds k sig items)
    (hw : Follow w [.container k sig items])
    (hplaced : PlacedAll lim.opens w.around [.container k sig items]) :
    lim.performAll w (appendContainer k sig calls) = pushAll w [.container k sig items] ∧
      lim.opened w (appendContainer k sig calls) = entriesOf [.container k sig items] := by
  obtain ⟨hmay, hinside⟩ := placedAll_one.mp hplaced
  have hgranted := open_granted hw hmay
  have hopen := open_done hgranted
  obtain ⟨hdone, hopened⟩ := h.writes ⟨[], (k, sig, w.items) :: w.opened⟩ hholds.follow hinside
  have hclosed : lim.grants ⟨items, (k, sig, w.items) :: w.opened⟩ .closeContainer = true :=
    hholds.complete
  constructor
  · rw [appendContainer, List.cons_append, Limits.performAll, List.foldl_cons, hopen,
      ← Limits.performAll, performAll_append, hdone, pushAll, List.nil_append,
      Limits.performAll, List.foldl_cons, Limits.perform, if_pos hclosed]
    rfl
  · rw [container_entries, appendContainer, List.cons_append, Limits.opened, hopen,
      if_pos hgranted, opened_append, hopened]
    simp [Limits.opened, opens]

/-- Either the container is not opened, or not all of those inside are. -/
theorem container_refused (h : Appends lim calls items) (hholds : Holds k sig items)
    (hw : Follow w [.container k sig items])
    (hno : ¬ PlacedAll lim.opens w.around [.container k sig items]) :
    (lim.opened w (appendContainer k sig calls)).length <
      (entriesOf [.container k sig items]).length := by
  rw [container_entries, appendContainer, List.cons_append, Limits.opened, List.length_cons]
  by_cases hmay : lim.opens w.around k sig = true
  · have hgranted := open_granted hw hmay
    have hless := h.refused ⟨[], (k, sig, w.items) :: w.opened⟩ hholds.follow
      fun hinside => hno (placedAll_one.mpr ⟨hmay, hinside⟩)
    rw [if_pos hgranted, open_done hgranted, opened_append]
    simpa [Limits.opened, opens] using hless
  · have hrefused : ¬ lim.grants w (.openContainer k sig) = true := by
      rw [Limits.grants, Bool.and_eq_true]
      exact fun hboth => hmay hboth.1
    rw [if_neg hrefused, List.nil_append]
    apply Nat.lt_succ_of_le
    have hrest := @opened_length_le lim (calls ++ [.closeContainer])
      (lim.perform w (.openContainer k sig))
    rw [List.flatMap_append, h.asks] at hrest
    simpa [opens] using hrest

theorem Appends.container {sig' : List Char} (h : Appends lim calls items) (hsig : sig' = sig)
    (hholds : Holds k sig items) :
    Appends lim (appendContainer k sig' calls) [.container k sig items] := by
  subst hsig
  exact ⟨container_asks h, fun w => container_writes h hholds, fun w => container_refused h hholds⟩

theorem Appends.flatMap {α : Type} {f : α → List AppendCall} {g : α → Wire}
    (h : ∀ x, Appends lim (f x) [g x]) (xs : List α) :
    Appends lim (xs.flatMap f) (xs.map g) := by
  induction xs with
  | nil => exact .nil
  | cons x xs ih => exact (h x).append ih

theorem appends_basic (b : Basic) (v : b.Val) :
    Appends lim (appendBasic b v) [.basic b.busType (sent b v)] := by
  have hgrants : ∀ w, Follow w [.basic b.busType (sent b v)] →
      (w.fits [b.busType.code] = true ↔
        PlacedAll lim.opens w.around [.basic b.busType (sent b v)]) :=
    fun w hw => iff_of_true (follow_one.mp hw) ⟨trivial, trivial⟩
  cases b <;> exact .call rfl hgrants (fun w => rfl)

theorem appends_enum (e : GeneratedEnum) (he : ∀ v, 0 ∉ e.toString v) (v : e.Val) :
    Appends lim (appendEnum e v) [.basic .string (e.toString v)] := by
  have hsent : sent .string (e.toString v) = e.toString v := cString_of_noNul (he v)
  have h := @appends_basic lim .string (e.toString v)
  rwa [hsent] at h

theorem appends_array {b : Basic} (h : b.canAppendArray = true) (xs : List b.Val) :
    Appends lim (appendArray b xs)
      [.container .array [b.busType.code] (xs.map (fun v => .basic b.busType (sent b v)))] := by
  have hsent : ∀ v, sent b v = v := by
    intro v
    cases b <;> first | rfl | cases h
  have hplain : ∀ around, PlacedAll lim.opens around
      (xs.map (fun v => Wire.basic b.busType (sent b v))) := by
    intro around
    exact placedAll_map.mpr fun _ _ => trivial
  refine .call ?_ (fun w hw => ?_) (fun w => ?_)
  · rw [entriesOf, entries, entriesOf_map]
    simp [opens, entriesOf, entries]
  · have hfits : w.fits (Kind.typeId .array [b.busType.code]) = true := follow_one.mp hw
    rw [Limits.grants, hfits, Bool.and_true, placedAll_one]
    exact ⟨fun hmay => ⟨hmay, hplain _⟩, And.left⟩
  · simp only [LibSystemd.perform, Nat.mul_div_cancel _ (Basic.size_pos h), List.take_length, hsent]
    rfl

/-- The element for a value is of the type that type_id gives. -/
theorem encode_typeId (t : CppType) (v : t.Val) : (encode t v).typeId = t.typeId := by
  induction t using induct with
  | basic b | enum e he | sequence q t ih | array n t ih | associative t ih | tuple t ts iht ihs =>
    rfl
  | pair t u iht ihu => simp [encode, Wire.typeId, Kind.typeId, CppType.typeId, pairId]
  | variant t ts iht ihs =>
    cases v with
    | inl v => rfl
    | inr v =>
      change (encodeAlternative ts v).typeId = ['v']
      induction ts, v using alternatives_induct with
      | first t ts v => rfl
      | later t ts v ih => exact ih (fun u hu => ihs u (List.mem_cons_of_mem _ hu))
  | qualified q t ih => exact ih v

theorem signature_encodeMembers (vs : CppType.Members ts) :
    signature (encodeMembers ts vs) = CppType.typeIds ts := by
  induction ts with
  | nil => rfl
  | cons t ts ih =>
    obtain ⟨v, vs⟩ := vs
    rw [encodeMembers, ← List.singleton_append, signature_append, signature_one, encode_typeId, ih]
    rfl

theorem holds_elements (xs : List t.Val) : Holds .array t.typeId (xs.map (encode t)) := by
  intro item hitem
  obtain ⟨x, -, rfl⟩ := List.mem_map.mp hitem
  exact encode_typeId t x

theorem holds_held (v : t.Val) : Holds .variant t.typeId [encode t v] :=
  signature_one.trans (encode_typeId t v)

theorem appends_each (h : ∀ v, Appends lim (t.append v) [encode t v]) (xs : List t.Val) :
    Appends lim (appendEach (contents t.typeId) t.append xs)
      [.container .array t.typeId (xs.map (encode t))] :=
  (Appends.flatMap h xs).container contents_typeId (holds_elements xs)

theorem appends_contiguous (h : ∀ v, Appends lim (t.append v) [encode t v]) (xs : List t.Val) :
    Appends lim (CppType.appendContiguous t t.append xs)
      [.container .array t.typeId (xs.map (encode t))] := by
  cases t
  case basic b =>
    simp only [CppType.appendContiguous]
    split
    · rename_i hb
      exact appends_array hb xs
    · exact appends_each h xs
  all_goals exact appends_each h xs

theorem appends_members (h : ∀ t ∈ ts, ∀ v, Appends lim (t.append v) [encode t v])
    (vs : CppType.Members ts) :
    Appends lim (CppType.appendMembers ts vs) (encodeMembers ts vs) := by
  induction ts with
  | nil => exact .nil
  | cons t ts ih =>
    obtain ⟨v, vs⟩ := vs
    exact (h t List.mem_cons_self v).append
      (ih (fun u hu => h u (List.mem_cons_of_mem _ hu)) vs)

theorem appends_alternative (h : ∀ t ∈ ts, ∀ v, Appends lim (t.append v) [encode t v])
    (v : CppType.Alternatives ts) :
    Appends lim (CppType.appendAlternative ts v) [encodeAlternative ts v] := by
  induction ts, v using alternatives_induct with
  | first t ts v => exact (h t List.mem_cons_self v).container contents_typeId (holds_held v)
  | later t ts v ih => exact ih (fun u hu => h u (List.mem_cons_of_mem _ hu))

/-- append makes one element of a value and opens its containers. -/
theorem append_appends (t : CppType) (v : t.Val) : Appends lim (t.append v) [encode t v] := by
  induction t using induct with
  | basic b => exact appends_basic b v
  | enum e he => exact appends_enum e he v
  | sequence q t ih =>
    cases q with
    | vector => exact appends_contiguous ih v
    | deque | list => exact appends_each ih v
  | array n t ih => exact appends_contiguous ih v.val
  | associative t ih => exact appends_each ih v
  | pair t u iht ihu =>
    refine ((iht v.1).append (ihu v.2)).container contents_pair ?_
    change signature [encode t v.1, encode u v.2] = t.typeId ++ u.typeId
    simp [signature, encode_typeId]
  | tuple t ts iht ihs =>
    refine ((iht v.1).append (appends_members ihs v.2)).container contents_typeIds ?_
    change signature ([encode t v.1] ++ encodeMembers ts v.2) = t.typeId ++ CppType.typeIds ts
    rw [signature_append, signature_one, encode_typeId, signature_encodeMembers]
  | variant t ts iht ihs =>
    cases v with
    | inl v => exact (iht v).container contents_typeId (holds_held v)
    | inr v => exact appends_alternative ihs v
  | qualified q t ih => exact ih v

/-- All containers of a value are opened just when they may all be opened where they stand. -/
theorem opened_iff (t : CppType) (v : t.Val) :
    t.opened lim v = entries (encode t v) ↔ Placed lim.opens [] (encode t v) := by
  have hempty : Follow Writer.empty [encode t v] := trivial
  have hentries : entriesOf [encode t v] = entries (encode t v) := by simp [entriesOf]
  rw [← hentries, ← placedAll_one]
  constructor
  · intro hall
    by_contra hno
    have hless := (append_appends t v).refused Writer.empty hempty hno
    exact absurd (congrArg List.length hall) (Nat.ne_of_lt hless)
  · exact fun hplaced => ((append_appends t v).writes Writer.empty hempty hplaced).2

/-- Then the message holds the element for the value, if the bus takes it. -/
theorem message_eq {v : t.Val} (h : Placed lim.opens [] (encode t v)) :
    t.message lim v = if lim.carries t.typeId then some [encode t v] else none := by
  have hempty : Follow Writer.empty [encode t v] := trivial
  have hdone := ((append_appends t v).writes Writer.empty hempty (placedAll_one.mpr h)).1
  rw [CppType.message, hdone]
  simp [pushAll, Writer.empty, signature_one, encode_typeId]

end Append

section Meanings

/-- Elements followed by others, and what is entered for them. -/
def Joined (D E : Meaning (List Entry)) : Meaning (List Entry) :=
  fun is es => ∃ i j fs, is = i ++ j ∧ D i fs ∧ ∃ gs, E j gs ∧ es = fs ++ gs

/-- A container with such contents. -/
def Entering (lim : Limits) (around : List Kind) (k : Kind) (sig : List Char)
    (D : Meaning (List Entry)) : Meaning (List Entry) :=
  fun is es => lim.enters around k sig = true ∧ ∃ fs, Inside k sig D is fs ∧ es = (k, sig) :: fs

def Times (D : Meaning (List Entry)) : Nat → Meaning (List Entry)
  | 0 => fun is es => is = [] ∧ es = []
  | n + 1 => Joined D (Times D n)

/-- A string that can be converted. -/
def Converted (convert : Bytes → Bool) : Meaning (List Entry) :=
  fun is es => (∃ s, is = [.basic .string s] ∧ convert s = true) ∧ es = []

def EntersHeld (t : CppType) (content : Meaning (List Entry)) (convert : Bytes → Bool) :
    Meaning (List Entry) :=
  fun is es => if t.isEnumOrString then Converted convert is es else content is es

def EntersAlternative (lim : Limits) (around : List Kind) (t : CppType)
    (content : Meaning (List Entry)) (convert : Bytes → Bool)
    (others : VariantMeaning (List Entry)) : VariantMeaning (List Entry) :=
  fun sig body es => lim.verifies t.typeId = true ∧
    if sig = t.typeId then lim.enters around .variant t.typeId = true ∧
      ∃ fs, EntersHeld t content convert body fs ∧ es = (.variant, t.typeId) :: fs
    else others sig body es

mutual

/-- The elements that read takes for a type, inside of these containers, and the containers it
enters for them. -/
def Enters (lim : Limits) : CppType → List Kind → Meaning (List Entry)
  | .basic b, _ => fun is es => (∃ d, is = [.basic b.busType d]) ∧ es = []
  | .enum e _, _ => Converted (fun s => (e.fromString s).isSome)
  | .sequence _ t, around => Entering lim around .array t.typeId
      (TakenIn (Enters lim t (.array :: around)) (fun es s => es ++ s) [])
  | .array n t, around => Entering lim around .struct (List.replicate (n + 1) t.typeId).flatten
      (Times (Enters lim t (.struct :: around)) (n + 1))
  | .associative t, around => Entering lim around .array t.typeId
      (TakenIn (Enters lim t (.array :: around)) (fun es s => es ++ s) [])
  | .pair t u, around => Entering lim around .dictEntry (t.typeId ++ u.typeId)
      (Joined (Enters lim t (.dictEntry :: around)) (Enters lim u (.dictEntry :: around)))
  | .tuple t ts, around => Entering lim around .struct (t.typeId ++ CppType.typeIds ts)
      (Joined (Enters lim t (.struct :: around)) (EntersMembers lim ts (.struct :: around)))
  | .variant t ts, around => InVariant (EntersAlternative lim around t
      (Enters lim t (.variant :: around)) (CppType.process (t :: ts))
      (EntersAlternatives lim (CppType.process (t :: ts)) ts around))
  | .qualified _ t, around => Enters lim t around

def EntersMembers (lim : Limits) : List CppType → List Kind → Meaning (List Entry)
  | [], _ => fun is es => is = [] ∧ es = []
  | t :: ts, around => Joined (Enters lim t around) (EntersMembers lim ts around)

def EntersAlternatives (lim : Limits) (convert : Bytes → Bool) :
    List CppType → List Kind → VariantMeaning (List Entry)
  | [], _ => fun _ _ es => es = []
  | t :: ts, around => EntersAlternative lim around t (Enters lim t (.variant :: around)) convert
      (EntersAlternatives lim convert ts around)

end

theorem enters_one (t : CppType) {is : List Wire} (h : Enters lim t around is es) :
    ∃ i, is = [i] := by
  induction t using induct with
  | basic b =>
    obtain ⟨⟨d, rfl⟩, -⟩ := h
    exact ⟨_, rfl⟩
  | enum e he =>
    obtain ⟨⟨s, rfl, -⟩, -⟩ := h
    exact ⟨_, rfl⟩
  | variant t ts iht ihs =>
    obtain ⟨sig, body, rfl, -⟩ := h
    exact ⟨_, rfl⟩
  | qualified q t ih => exact ih h
  | sequence q t ih | array n t ih | associative t ih | pair t u iht ihu | tuple t ts iht ihs =>
    obtain ⟨-, fs, ⟨body, rfl, -⟩, -⟩ := h
    exact ⟨_, rfl⟩

end Meanings

section Read

variable {m m' : ReadM (List Entry)} {D E : Meaning (List Entry)} {what : String}
  {l : Option Kind} {convert : Bytes → Bool}

/-- What comes after a call that may be refused is read only if it is not. -/
theorem granted_exact {ok : Bool} (h : Exact m D) :
    Exact (CppType.granted ok what >>= fun _ => m) (fun is es => ok = true ∧ D is es) := by
  intro l items hl
  cases ok with
  | true => exact (h l items hl).congr fun is es => by simp
  | false =>
    intro outer es c'
    rw [bind_iff]
    constructor
    · intro hrun
      obtain ⟨_, _, hraise, -⟩ := hrun
      cases hraise
    · intro hmeans
      obtain ⟨_, _, _, ⟨hno, -⟩, -⟩ := hmeans
      cases hno

theorem entering_exact (h : Fills m D k) :
    Exact (CppType.entering lim around what k sig m) (Entering lim around k sig D) :=
  granted_exact fun l items hl => (Fills.container h l items hl).map

theorem readBoth_takes (h : Takes m D l items) (h' : ∀ rest, Takes m' E l rest) :
    Takes (CppType.readBoth m m') (Joined D E) l items :=
  h.bind fun _ rest => (h' rest).map

theorem readTimes_takes (h : Exact m D) (hl : l ≠ some .array) (n : Nat) (items : List Wire) :
    Takes (CppType.readTimes m n) (Times D n) l items := by
  induction n generalizing items with
  | zero => exact Takes.pure
  | succ n ih => exact readBoth_takes (h.takes hl items) ih

theorem readElements_exact (ht : ∀ around, Exact (t.read lim around) (Enters lim t around)) :
    Exact (CppType.readElements lim around what ('a' :: t.typeId) (t.read lim (.array :: around)))
      (Entering lim around .array t.typeId
        (TakenIn (Enters lim t (.array :: around)) (fun es s => es ++ s) [])) := by
  have hcontents : arrayContents ('a' :: t.typeId) = t.typeId := contents_typeId
  rw [CppType.readElements, hcontents]
  exact entering_exact (readUntilEnd_fills (ht _) (fun is es => enters_one t))

theorem readBasic_enters (b : Basic) :
    Exact ((CppType.basic b).read lim around) (Enters lim (.basic b) around) := by
  intro l items hl
  refine ((readBasic_exact b b.busType.default l items hl).map (g := fun _ => [])).congr ?_
  intro is es
  constructor
  · intro henters
    obtain ⟨d, hd, rfl⟩ := henters
    exact ⟨⟨d, hd⟩, rfl⟩
  · intro henters
    obtain ⟨⟨d, hd⟩, rfl⟩ := henters
    exact ⟨d, hd, rfl⟩

theorem readConverted_exact : Exact (CppType.readConverted convert) (Converted convert) := by
  intro l items hl
  have hraise : ∀ s rest, Takes (if convert s then pure [] else raise .invalidEnumString)
      (fun is (es : List Entry) => is = [] ∧ es = [] ∧ convert s = true) l rest := by
    intro s rest
    cases hs : convert s with
    | true => exact Takes.pure.congr fun is es => by simp
    | false =>
      intro outer es c'
      simp [raise]
  refine ((readBasic_exact .string [] l items hl).bind hraise).congr fun is es => ?_
  constructor
  · intro henters
    obtain ⟨_, _, s, rfl, rfl, rfl, rfl, hs⟩ := henters
    exact ⟨⟨s, rfl, hs⟩, rfl⟩
  · intro henters
    obtain ⟨⟨s, rfl, hs⟩, rfl⟩ := henters
    exact ⟨_, [], s, rfl, rfl, rfl, rfl, hs⟩

theorem readEnum_enters (e : GeneratedEnum) (he : ∀ v, 0 ∉ e.toString v) :
    Exact ((CppType.enum e he).read lim around) (Enters lim (.enum e he) around) := by
  intro l items hl
  refine ((readEnum_exact e l items hl).map (g := fun _ => [])).congr fun is es => ?_
  constructor
  · intro henters
    obtain ⟨v, ⟨s, rfl, hs⟩, rfl⟩ := henters
    exact ⟨⟨s, rfl, Option.isSome_iff_exists.mpr ⟨v, hs⟩⟩, rfl⟩
  · intro henters
    obtain ⟨⟨s, rfl, hs⟩, rfl⟩ := henters
    obtain ⟨v, hv⟩ := Option.isSome_iff_exists.mp hs
    exact ⟨v, ⟨s, rfl, hv⟩, rfl⟩

/-- Copying all elements at once enters what reading them one by one would. -/
theorem readOneShot_enters {b : Basic} (hb : b.canAppendArray = true) :
    Exact (do
      let _ ← readArrayOneShot b []
      pure [(Kind.array, [b.busType.code])])
      (fun is es => ∃ fs, Inside .array [b.busType.code]
        (TakenIn (Enters lim (.basic b) around) (fun es s => es ++ s) []) is fs ∧
          es = (.array, [b.busType.code]) :: fs) := by
  have hnone : ∀ body fs,
      TakenIn (Enters lim (.basic b) around) (fun es s => es ++ s) [] body fs ↔
        (∃ vs, Each b.Denotes body vs) ∧ fs = [] := by
    intro body fs
    constructor
    · intro henters
      obtain ⟨ess, hess, rfl⟩ := henters
      induction hess with
      | nil => exact ⟨⟨[], .nil⟩, rfl⟩
      | cons hitem hitems ih =>
        obtain ⟨⟨d, hd⟩, rfl⟩ := hitem
        obtain ⟨⟨vs, hvs⟩, hfs⟩ := ih
        exact ⟨⟨d :: vs, .cons hd hvs⟩, hfs⟩
    · intro henters
      obtain ⟨⟨vs, hvs⟩, rfl⟩ := henters
      induction hvs with
      | nil => exact ⟨[], .nil, rfl⟩
      | cons hitem hitems ih =>
        obtain ⟨ess, hess, hnil⟩ := ih
        exact ⟨[] :: ess, .cons ⟨⟨_, hitem⟩, rfl⟩ hess, hnil⟩
  intro l items hl
  refine ((readArrayOneShot_exact (Basic.size_pos hb) l items hl).map
    (g := fun _ => [(Kind.array, [b.busType.code])])).congr fun is es => ?_
  constructor
  · intro henters
    obtain ⟨vs, ⟨body, rfl, ds, hds, -⟩, rfl⟩ := henters
    exact ⟨[], ⟨body, rfl, (hnone body []).mpr ⟨⟨ds, hds⟩, rfl⟩⟩, rfl⟩
  · intro henters
    obtain ⟨fs, ⟨body, rfl, hbody⟩, rfl⟩ := henters
    obtain ⟨⟨ds, hds⟩, rfl⟩ := (hnone body fs).mp hbody
    exact ⟨_, ⟨body, rfl, ds, hds, rfl⟩, rfl⟩

theorem readContiguous_enters (ht : ∀ around, Exact (t.read lim around) (Enters lim t around)) :
    Exact (CppType.readContiguous lim around t (t.read lim (.array :: around)))
      (Entering lim around .array t.typeId
        (TakenIn (Enters lim t (.array :: around)) (fun es s => es ++ s) [])) := by
  cases t
  case basic b =>
    simp only [CppType.readContiguous]
    split
    · rename_i hb
      exact granted_exact (readOneShot_enters hb)
    · exact readElements_exact ht
  all_goals exact readElements_exact ht

theorem readMembers_takes (hts : ∀ t ∈ ts, Exact (t.read lim around) (Enters lim t around))
    (hl : l ≠ some .array) (items : List Wire) :
    Takes (CppType.readMembers lim ts around) (EntersMembers lim ts around) l items := by
  induction ts generalizing items with
  | nil => exact Takes.pure
  | cons t ts ih =>
    exact readBoth_takes ((hts t List.mem_cons_self).takes hl items)
      (ih (fun u hu => hts u (List.mem_cons_of_mem _ hu)))

/-- The first alternative with the signature is read, whatever comes after it. -/
theorem readAlternative_enters {V : VariantMeaning (List Entry)} (h : Exact m D)
    (h' : Exact m' (InVariant V)) :
    Exact (CppType.readAlternative lim around t m convert m')
      (InVariant (EntersAlternative lim around t D convert V)) := by
  have hheld : Exact (if t.isEnumOrString then CppType.readConverted convert else m)
      (EntersHeld t D convert) := by
    unfold EntersHeld
    cases t.isEnumOrString with
    | true => exact readConverted_exact
    | false => exact h
  have hentering : Exact (CppType.entering lim around "variant" .variant t.typeId
      (if t.isEnumOrString then CppType.readConverted convert else m))
      (Inside .variant t.typeId (fun body es => lim.enters around .variant t.typeId = true ∧
        ∃ fs, EntersHeld t D convert body fs ∧ es = (.variant, t.typeId) :: fs)) := by
    refine (entering_exact (hheld.fills (by simp))).congr fun is es => ?_
    constructor
    · intro henters
      obtain ⟨hmay, fs, ⟨body, rfl, hfs⟩, rfl⟩ := henters
      exact ⟨body, rfl, hmay, fs, hfs, rfl⟩
    · intro henters
      obtain ⟨body, rfl, hmay, fs, hfs, rfl⟩ := henters
      exact ⟨hmay, fs, ⟨body, rfl, hfs⟩, rfl⟩
  rw [CppType.readAlternative, contents_typeId]
  refine (granted_exact (verified_exact hentering h')).congr fun is es => ?_
  constructor
  · intro henters
    obtain ⟨hverifies, sig, body, rfl, hes⟩ := henters
    exact ⟨sig, body, rfl, hverifies, hes⟩
  · intro henters
    obtain ⟨sig, body, rfl, hverifies, hes⟩ := henters
    exact ⟨hverifies, sig, body, rfl, hes⟩

theorem readAlternatives_enters
    (hts : ∀ t ∈ ts, ∀ around, Exact (t.read lim around) (Enters lim t around)) :
    Exact (CppType.readAlternatives lim convert ts around)
      (InVariant (EntersAlternatives lim convert ts around)) := by
  induction ts with
  | nil => exact skipVariant_exact
  | cons t ts ih =>
    exact readAlternative_enters (hts t List.mem_cons_self _)
      (ih (fun u hu => hts u (List.mem_cons_of_mem _ hu)))

/-- read takes one element of the type and enters just these containers for it. -/
theorem read_enters (t : CppType) (around : List Kind) :
    Exact (t.read lim around) (Enters lim t around) := by
  induction t using induct generalizing around with
  | basic b => exact readBasic_enters b
  | enum e he => exact readEnum_enters e he
  | sequence q t ih =>
    cases q with
    | vector => exact readContiguous_enters ih
    | deque | list => exact readElements_exact ih
  | array n t ih =>
    rw [CppType.read, contents_times]
    exact entering_exact (Takes.fills (readTimes_takes (ih _) (by simp) (n + 1)))
  | associative t ih => exact readElements_exact ih
  | pair t u iht ihu =>
    rw [CppType.read, contents_pair]
    exact entering_exact (Takes.fills fun items =>
      readBoth_takes ((iht _).takes (by simp) items) ((ihu _).takes (by simp)))
  | tuple t ts iht ihs =>
    rw [CppType.read, contents_typeIds]
    exact entering_exact (Takes.fills fun items => readBoth_takes ((iht _).takes (by simp) items)
      (readMembers_takes (fun u hu => ihs u hu _) (by simp)))
  | variant t ts iht ihs => exact readAlternative_enters (iht _) (readAlternatives_enters ihs)
  | qualified q t ih => exact ih around

end Read

section Announced

theorem announcedElements_eq (h : ∀ v, entries (encode t v) = t.announced v) (xs : List t.Val) :
    entriesOf (xs.map (encode t)) = xs.flatMap t.announced := by
  rw [entriesOf_map, funext h]

theorem announcedMembers_eq (h : ∀ t ∈ ts, ∀ v, entries (encode t v) = t.announced v)
    (vs : CppType.Members ts) :
    entriesOf (encodeMembers ts vs) = CppType.announcedMembers ts vs := by
  induction ts with
  | nil => rfl
  | cons t ts ih =>
    obtain ⟨v, vs⟩ := vs
    rw [encodeMembers, entriesOf, CppType.announcedMembers, h t List.mem_cons_self v,
      ih (fun u hu => h u (List.mem_cons_of_mem _ hu))]

theorem announcedAlternative_eq (h : ∀ t ∈ ts, ∀ v, entries (encode t v) = t.announced v)
    (v : CppType.Alternatives ts) :
    entries (encodeAlternative ts v) = CppType.announcedAlternative ts v := by
  induction ts, v using alternatives_induct with
  | first t ts v =>
    rw [encodeAlternative, entries, entriesOf, entriesOf, List.append_nil,
      CppType.announcedAlternative, h t List.mem_cons_self v]
  | later t ts v ih => exact ih (fun u hu => h u (List.mem_cons_of_mem _ hu))

/-- The containers of the element for a value are those that its type id announces. -/
theorem announced_eq (t : CppType) (v : t.Val) : entries (encode t v) = t.announced v := by
  induction t using induct with
  | basic b => rfl
  | enum e he => rfl
  | sequence q t ih | associative t ih =>
    exact congrArg (List.cons (Kind.array, t.typeId)) (announcedElements_eq ih v)
  | array n t ih =>
    exact congrArg (List.cons (Kind.array, t.typeId)) (announcedElements_eq ih v.val)
  | pair t u iht ihu =>
    rw [encode, entries, CppType.announced, entriesOf, entriesOf, entriesOf, List.append_nil, iht,
      ihu]
    simp [CppType.typeId, pairId, stripEnds]
  | tuple t ts iht ihs =>
    rw [encode, entries, CppType.announced, entriesOf, iht, announcedMembers_eq ihs]
    simp [CppType.typeId, stripEnds]
  | variant t ts iht ihs =>
    cases v with
    | inl v =>
      rw [encode, entries, entriesOf, entriesOf, List.append_nil, CppType.announced, iht]
    | inr v => exact announcedAlternative_eq ihs v
  | qualified q t ih => exact ih v

/-- append opens what the type id announces just when it may be opened where it stands. -/
theorem opened_announced {v : t.Val} :
    t.opened lim v = t.announced v ↔ Placed lim.opens [] (encode t v) := by
  rw [← announced_eq, opened_iff]

/-- What is entered when read decodes a message that was made and carried. -/
theorem entered_iff {v : t.Val} (hplaced : Placed lim.opens [] (encode t v)) :
    t.entered lim v = some es ↔
      lim.carries t.typeId = true ∧ Enters lim t [] [encode t v] es := by
  have hread := @read_enters lim t [] none [encode t v] (fun _ => List.cons_ne_nil _ _) []
  rw [CppType.entered, message_eq hplaced]
  cases hcarries : lim.carries t.typeId with
  | false => simp
  | true =>
    simp only [if_true, Option.bind_some, true_and, Cursor.start]
    constructor
    · intro h
      cases hrun : t.read lim [] ⟨none, [encode t v], []⟩ with
      | error e =>
        rw [hrun] at h
        cases h
      | ok p =>
        rw [hrun] at h
        cases h
        obtain ⟨is, rest, heq, henters, -⟩ := (hread _ _).mp hrun
        obtain ⟨i, rfl⟩ := enters_one t henters
        cases heq
        exact henters
    · intro h
      rw [(hread es ⟨none, [], []⟩).mpr ⟨_, [], rfl, h, rfl⟩]
      rfl

end Announced

end Sdbusplus.Proofs.Structure
