import Sdbusplus.Base.Words
import Sdbusplus.Proofs.NativeTypes
import Sdbusplus.Proofs.Structure

namespace Sdbusplus.Proofs.Agreement
open Message Proofs.Structure Words

variable {lim : Limits} {around : List Kind} {t u a : CppType} {ts us : List CppType} {k l : Kind}
  {sig sig' : List Char} {is body : List Wire} {i : Wire} {es : List Entry}
  {D E : Meaning (List Entry)}

section Shapes

def elements : CppType → Option CppType
  | .sequence _ t => some t
  | .array _ t => some t
  | .associative t => some t
  | .qualified _ t => elements t
  | _ => none

/-- What append makes of the values of a type, by its type id. -/
inductive Shape (u : CppType) : Prop
  | leaf (b : BusType) (hid : u.typeId = [b.code]) (hencode : ∀ v, ∃ d, encode u v = .basic b d)
  | elements (a : CppType) (hu : elements u = some a) (hid : u.typeId = 'a' :: a.typeId)
    (hencode : ∀ v, ∃ xs : List a.Val,
      encode u v = .container .array a.typeId (xs.map (encode a)))
    (hvalue : ∀ x : a.Val, ∃ v, ∃ xs : List a.Val, x ∈ xs ∧
      encode u v = .container .array a.typeId (xs.map (encode a)))
  | pair (a b : CppType) (hu : u.downcast = .pair a b)
    (hid : u.typeId = pairId a.typeId b.typeId)
    (hencode : ∀ v, ∃ x y,
      encode u v = .container .dictEntry (a.typeId ++ b.typeId) [encode a x, encode b y])
    (hvalue : ∀ x y, ∃ v,
      encode u v = .container .dictEntry (a.typeId ++ b.typeId) [encode a x, encode b y])
  | tuple (a : CppType) (as : List CppType) (hu : u.downcast = .tuple a as)
    (hid : u.typeId = '(' :: (a.typeId ++ CppType.typeIds as) ++ [')'])
    (hencode : ∀ v, ∃ x xs, encode u v =
      .container .struct (a.typeId ++ CppType.typeIds as) (encode a x :: encodeMembers as xs))
    (hvalue : ∀ x xs, ∃ v, encode u v =
      .container .struct (a.typeId ++ CppType.typeIds as) (encode a x :: encodeMembers as xs))
  | variant (a : CppType) (as : List CppType) (hu : u.downcast = .variant a as)
    (hid : u.typeId = ['v'])
    (hencode : ∀ v, ∃ w ∈ a :: as, ∃ x, encode u v = .container .variant w.typeId [encode w x])
    (hvalue : ∀ w ∈ a :: as, ∀ x, ∃ v,
      encode u v = .container .variant w.typeId [encode w x])

theorem encodeAlternative_eq (v : CppType.Alternatives ts) : ∃ w ∈ ts, ∃ x : w.Val,
    encodeAlternative ts v = .container .variant w.typeId [encode w x] := by
  induction ts, v using alternatives_induct with
  | first t ts x => exact ⟨t, List.mem_cons_self, x, rfl⟩
  | later t ts v ih =>
    obtain ⟨w, hw, x, hx⟩ := ih
    exact ⟨w, List.mem_cons_of_mem _ hw, x, hx⟩

theorem encodeAlternative_mem {w : CppType} (hw : w ∈ ts) (x : w.Val) : ∃ v,
    encodeAlternative ts v = .container .variant w.typeId [encode w x] := by
  induction ts with
  | nil => cases hw
  | cons t ts ih =>
    rcases List.mem_cons.mp hw with rfl | hw
    · exact ⟨.inl x, rfl⟩
    · obtain ⟨v, hv⟩ := ih hw
      exact ⟨.inr v, hv⟩

theorem shape (u : CppType) : Shape u := by
  induction u using induct with
  | basic b => exact .leaf b.busType rfl (fun v => ⟨sent b v, rfl⟩)
  | enum e he => exact .leaf .string rfl (fun v => ⟨e.toString v, rfl⟩)
  | sequence q a ih | associative a ih =>
    exact .elements a rfl rfl (fun xs => ⟨xs, rfl⟩)
      (fun x => ⟨[x], [x], List.mem_singleton_self x, rfl⟩)
  | array n a ih =>
    refine .elements a rfl rfl (fun xs => ⟨xs.val, rfl⟩) (fun x => ?_)
    refine ⟨⟨List.replicate (n + 1) x, List.length_replicate⟩, List.replicate (n + 1) x, ?_, rfl⟩
    simp
  | pair a b iha ihb =>
    exact .pair a b rfl rfl (fun v => ⟨v.1, v.2, rfl⟩) (fun x y => ⟨(x, y), rfl⟩)
  | tuple a as iha ihs =>
    exact .tuple a as rfl rfl (fun v => ⟨v.1, v.2, rfl⟩) (fun x xs => ⟨(x, xs), rfl⟩)
  | variant a as iha ihs =>
    have hencode : ∀ v : CppType.Alternatives (a :: as),
        encode (.variant a as) v = encodeAlternative (a :: as) v := by
      rintro (x | v) <;> rfl
    refine .variant a as rfl rfl (fun (v : CppType.Alternatives (a :: as)) => ?_)
      (fun w hw x => ?_)
    · obtain ⟨w, hw, x, hx⟩ := encodeAlternative_eq v
      exact ⟨w, hw, x, (hencode v).trans hx⟩
    · obtain ⟨v, hv⟩ := encodeAlternative_mem hw x
      exact ⟨v, (hencode v).trans hv⟩
  | qualified q u ih =>
    cases ih with
    | leaf b hid hencode => exact .leaf b hid hencode
    | elements a hu hid hencode hvalue => exact .elements a hu hid hencode hvalue
    | pair a b hu hid hencode hvalue => exact .pair a b hu hid hencode hvalue
    | tuple a as hu hid hencode hvalue => exact .tuple a as hu hid hencode hvalue
    | variant a as hu hid hencode hvalue => exact .variant a as hu hid hencode hvalue

theorem members_nonempty (h : ∀ t ∈ ts, Nonempty t.Val) : Nonempty (CppType.Members ts) := by
  induction ts with
  | nil => exact ⟨()⟩
  | cons t ts ih =>
    obtain ⟨v⟩ := h t List.mem_cons_self
    obtain ⟨vs⟩ := ih (fun u hu => h u (List.mem_cons_of_mem _ hu))
    exact ⟨(v, vs)⟩

theorem val_nonempty (t : CppType) : Nonempty t.Val := by
  induction t using induct with
  | basic b => exact ⟨b.busType.default⟩
  | enum e he => exact ⟨e.default⟩
  | sequence q t ih | associative t ih => exact ⟨([] : List t.Val)⟩
  | array n t ih =>
    obtain ⟨v⟩ := ih
    exact ⟨⟨List.replicate (n + 1) v, List.length_replicate⟩⟩
  | pair t u iht ihu =>
    obtain ⟨v⟩ := iht
    obtain ⟨w⟩ := ihu
    exact ⟨(v, w)⟩
  | tuple t ts iht ihs =>
    obtain ⟨v⟩ := iht
    obtain ⟨vs⟩ := members_nonempty ihs
    exact ⟨(v, vs)⟩
  | variant t ts iht ihs =>
    obtain ⟨v⟩ := iht
    exact ⟨.inl v⟩
  | qualified q t ih => exact ih

end Shapes

section Splitting
variable {x y : List Char}

/-- The type ids of all types. -/
def ids : Set (List Char) := {s | ∃ t : CppType, t.typeId = s}

theorem code_leaf (b : BusType) : b.code ≠ 'a' ∧ b.code ≠ '{' ∧ b.code ≠ '(' ∧ b.code ≠ 'v' ∧
    b.code ≠ ')' := by
  cases b <;> decide

theorem code_inj {b c : BusType} (h : b.code = c.code) : b = c := by
  cases b <;> cases c <;> first | rfl | exact absurd h (by decide)

theorem ids_paren : StopsAt ')' ids := by
  intro s hs
  obtain ⟨t, rfl⟩ := hs
  cases shape t with
  | leaf b hid => exact ⟨_, _, hid, (code_leaf b).2.2.2.2⟩
  | elements a hu hid | pair a b hu hid | tuple a as hu hid | variant a as hu hid =>
    exact ⟨_, _, hid, by simp⟩

theorem typeIds_eq : CppType.typeIds ts = (ts.map CppType.typeId).flatten := by
  induction ts with
  | nil => rfl
  | cons t ts ih => rw [CppType.typeIds, ih, List.map_cons, List.flatten_cons]

/-- The members of a structure are determined by the type ids up to its end. -/
theorem members_split (h : ∀ t ∈ ts, Splits ids t.typeId)
    (heq : CppType.typeIds ts ++ ')' :: x = CppType.typeIds us ++ ')' :: y) :
    ts.map CppType.typeId = us.map CppType.typeId ∧ x = y := by
  have hids : ∀ vs : List CppType, ∀ s ∈ vs.map CppType.typeId, s ∈ ids := by
    intro vs s hs
    obtain ⟨v, -, rfl⟩ := List.mem_map.mp hs
    exact ⟨v, rfl⟩
  rw [typeIds_eq, typeIds_eq] at heq
  exact flatten_split ids_paren (hids ts) (List.forall_mem_map.mpr h) (hids us) heq

theorem leaf_splits {c : Char} (hc : c ≠ 'a' ∧ c ≠ '{' ∧ c ≠ '(') : Splits ids [c] := by
  intro s hs x y h
  obtain ⟨u, rfl⟩ := hs
  obtain ⟨harray, hpair, htuple⟩ := hc
  cases shape u with
  | leaf b hid | variant a as hu hid =>
    rw [hid] at h ⊢
    obtain ⟨rfl, rfl⟩ := List.cons.inj h
    exact ⟨rfl, rfl⟩
  | elements a hu hid =>
    rw [hid] at h
    exact absurd (List.cons.inj h).1 harray
  | pair a b hu hid =>
    rw [hid] at h
    exact absurd (List.cons.inj h).1 hpair
  | tuple a as hu hid =>
    rw [hid] at h
    exact absurd (List.cons.inj h).1 htuple

theorem array_splits (ih : Splits ids t.typeId) : Splits ids ('a' :: t.typeId) := by
  intro s hs x y h
  obtain ⟨u, rfl⟩ := hs
  cases shape u with
  | leaf b hid =>
    rw [hid] at h
    exact absurd (List.cons.inj h).1.symm (code_leaf b).1
  | elements a hu hid =>
    rw [hid] at h ⊢
    obtain ⟨hta, hxy⟩ := ih a.typeId ⟨a, rfl⟩ x y (List.cons.inj h).2
    exact ⟨by rw [hta], hxy⟩
  | pair a b hu hid | tuple a as hu hid | variant a as hu hid =>
    simp [pairId, hid] at h

theorem pair_splits (iht : Splits ids t.typeId) (ihu : Splits ids u.typeId) :
    Splits ids (pairId t.typeId u.typeId) := by
  intro s hs x y h
  obtain ⟨w, rfl⟩ := hs
  cases shape w with
  | leaf b hid =>
    rw [hid] at h
    exact absurd (List.cons.inj h).1.symm (code_leaf b).2.1
  | pair a b hu hid =>
    simp only [hid, pairId, List.cons_append, List.append_assoc, List.cons.injEq, true_and] at h ⊢
    obtain ⟨hta, hrest⟩ := iht a.typeId ⟨a, rfl⟩ _ _ h
    obtain ⟨htb, hend⟩ := ihu b.typeId ⟨b, rfl⟩ _ _ hrest
    rw [hta, htb]
    exact ⟨rfl, (List.cons.inj hend).2⟩
  | elements a hu hid | tuple a as hu hid | variant a as hu hid =>
    simp [pairId, hid] at h

theorem tuple_splits (h : ∀ u ∈ t :: ts, Splits ids u.typeId) :
    Splits ids (CppType.tuple t ts).typeId := by
  intro s hs x y heq
  obtain ⟨w, rfl⟩ := hs
  cases shape w with
  | leaf b hid =>
    rw [hid] at heq
    exact absurd (List.cons.inj heq).1.symm (code_leaf b).2.2.1
  | tuple a as hu hid =>
    have hmembers : CppType.typeIds (t :: ts) ++ ')' :: x =
        CppType.typeIds (a :: as) ++ ')' :: y := by
      rw [hid] at heq
      simpa [CppType.typeId, CppType.typeIds] using heq
    obtain ⟨hall, hxy⟩ := members_split h hmembers
    obtain ⟨hta, hrest⟩ := List.cons.inj hall
    rw [CppType.typeId, hid, hta, typeIds_eq, hrest, ← typeIds_eq]
    exact ⟨rfl, hxy⟩
  | elements a hu hid | pair a b hu hid | variant a as hu hid =>
    simp [CppType.typeId, pairId, hid] at heq

/-- A type id is no proper beginning of another one. -/
theorem typeId_splits (t : CppType) : Splits ids t.typeId := by
  induction t using induct with
  | basic b =>
    obtain ⟨harray, hpair, htuple, -, -⟩ := code_leaf b.busType
    exact leaf_splits ⟨harray, hpair, htuple⟩
  | enum e he => exact leaf_splits (by decide)
  | variant t ts iht ihs => exact leaf_splits (by simp)
  | sequence q t ih | array n t ih | associative t ih => exact array_splits ih
  | qualified q t ih => exact ih
  | pair t u iht ihu => exact pair_splits iht ihu
  | tuple t ts iht ihs => exact tuple_splits (List.forall_mem_cons.mpr ⟨iht, ihs⟩)

end Splitting

section Wholes

variable {V W : VariantMeaning (List Entry)} {convert : Bytes → Bool}

/-- All containers of the elements are entered. -/
def Whole (D : Meaning (List Entry)) (is : List Wire) : Prop := D is (entriesOf is)

/-- Nothing is entered that is not there. -/
def Short (D : Meaning (List Entry)) : Prop :=
  ∀ is es, D is es → es.length ≤ (entriesOf is).length

def Single (D : Meaning (List Entry)) : Prop := ∀ is es, D is es → ∃ i, is = [i]

theorem single_enters (t : CppType) : Single (Enters lim t around) := fun _ _ => enters_one t

@[simp] theorem entriesOf_container : entriesOf [.container k sig body] =
    (k, sig) :: entriesOf body := by
  simp [entriesOf, entries]

theorem short_nothing : Short (fun is es => is = [] ∧ es = []) := by
  intro is es henters
  obtain ⟨rfl, rfl⟩ := henters
  exact Nat.le_refl 0

theorem short_joined (hD : Short D) (hE : Short E) : Short (Joined D E) := by
  intro _ _ henters
  obtain ⟨i, j, fs, rfl, hfs, gs, hgs, rfl⟩ := henters
  rw [entriesOf_append, List.length_append, List.length_append]
  exact Nat.add_le_add (hD i fs hfs) (hE j gs hgs)

theorem short_entering (hD : Short D) : Short (Entering lim around k sig D) := by
  intro _ _ henters
  obtain ⟨-, fs, ⟨body, rfl, hfs⟩, rfl⟩ := henters
  rw [entriesOf_container, List.length_cons, List.length_cons]
  exact Nat.succ_le_succ (hD body fs hfs)

theorem short_times (hD : Short D) (n : Nat) : Short (Times D n) := by
  induction n with
  | zero => exact short_nothing
  | succ n ih => exact short_joined hD ih

theorem foldl_flatten (ess : List (List Entry)) :
    ess.foldl (fun es s => es ++ s) es = es ++ ess.flatten := by
  induction ess generalizing es with
  | nil => simp
  | cons s ess ih => simp [ih]

/-- The loop over an array enters what is entered for its first element and then the rest. -/
theorem takenIn_cons : TakenIn D (fun es s => es ++ s) [] (i :: is) es ↔
    ∃ fs gs, D [i] fs ∧ TakenIn D (fun es s => es ++ s) [] is gs ∧ es = fs ++ gs := by
  constructor
  · intro henters
    obtain ⟨ess, hess, rfl⟩ := henters
    cases hess with
    | cons hfs hess =>
      exact ⟨_, _, hfs, ⟨_, hess, rfl⟩, by simp [foldl_flatten]⟩
  · intro henters
    obtain ⟨fs, gs, hfs, ⟨ess, hess, rfl⟩, rfl⟩ := henters
    exact ⟨fs :: ess, .cons hfs hess, by simp [foldl_flatten]⟩

theorem short_takenIn (hD : Short D) : Short (TakenIn D (fun es s => es ++ s) []) := by
  intro is
  induction is with
  | nil =>
    intro es henters
    obtain ⟨ess, hess, rfl⟩ := henters
    cases hess
    exact Nat.le_refl 0
  | cons i is ih =>
    intro es h
    obtain ⟨fs, gs, hfs, hgs, rfl⟩ := takenIn_cons.mp h
    rw [← List.singleton_append, entriesOf_append, List.length_append, List.length_append]
    exact Nat.add_le_add (hD [i] fs hfs) (ih gs hgs)

theorem short_alternative (hD : Short D) (hV : Short (InVariant V)) :
    Short (InVariant (EntersAlternative lim around t D convert V)) := by
  intro _ es henters
  obtain ⟨sig, body, rfl, -, h⟩ := henters
  split at h
  · obtain ⟨-, fs, hfs, rfl⟩ := h
    rw [entriesOf_container, List.length_cons, List.length_cons]
    apply Nat.succ_le_succ
    rw [EntersHeld] at hfs
    split at hfs
    · obtain ⟨-, rfl⟩ := hfs
      exact Nat.zero_le _
    · exact hD body fs hfs
  · exact hV _ es ⟨sig, body, rfl, h⟩

theorem short_alternatives (h : ∀ t ∈ ts, ∀ around, Short (Enters lim t around)) :
    Short (InVariant (EntersAlternatives lim convert ts around)) := by
  induction ts with
  | nil =>
    intro _ _ henters
    obtain ⟨sig, body, rfl, rfl⟩ := henters
    exact Nat.zero_le _
  | cons t ts ih =>
    exact short_alternative (h t List.mem_cons_self _)
      (ih (fun u hu => h u (List.mem_cons_of_mem _ hu)))

theorem short_members (h : ∀ t ∈ ts, Short (Enters lim t around)) :
    Short (EntersMembers lim ts around) := by
  induction ts with
  | nil => exact short_nothing
  | cons t ts ih =>
    exact short_joined (h t List.mem_cons_self)
      (ih (fun u hu => h u (List.mem_cons_of_mem _ hu)))

theorem short_enters (t : CppType) (around : List Kind) : Short (Enters lim t around) := by
  induction t using induct generalizing around with
  | basic b =>
    intro is es henters
    obtain ⟨-, rfl⟩ := henters
    exact Nat.zero_le _
  | enum e he =>
    intro is es henters
    obtain ⟨-, rfl⟩ := henters
    exact Nat.zero_le _
  | sequence q t ih | associative t ih => exact short_entering (short_takenIn (ih _))
  | array n t ih => exact short_entering (short_times (ih _) (n + 1))
  | pair t u iht ihu => exact short_entering (short_joined (iht _) (ihu _))
  | tuple t ts iht ihs =>
    exact short_entering (short_joined (iht _) (short_members (fun u hu => ihs u hu _)))
  | variant t ts iht ihs => exact short_alternative (iht _) (short_alternatives ihs)
  | qualified q t ih => exact ih around

theorem whole_entering : Whole (Entering lim around k sig D) [.container l sig' body] ↔
    lim.enters around k sig = true ∧ l = k ∧ sig' = sig ∧ Whole D body := by
  rw [Whole, entriesOf_container]
  constructor
  · intro henters
    obtain ⟨hmay, fs, ⟨body, hbody, hfs⟩, hes⟩ := henters
    cases hbody
    obtain ⟨-, rfl⟩ := List.cons.inj hes
    exact ⟨hmay, rfl, rfl, hfs⟩
  · intro henters
    obtain ⟨hmay, rfl, rfl, h⟩ := henters
    exact ⟨hmay, _, ⟨body, rfl, h⟩, rfl⟩

/-- Neither part can enter more than is there, so each enters all. -/
theorem whole_parts {fs gs fs' gs' : List Entry} (hfs : fs.length ≤ fs'.length)
    (hgs : gs.length ≤ gs'.length) (h : fs' ++ gs' = fs ++ gs) : fs' = fs ∧ gs' = gs := by
  have hlen := congrArg List.length h
  rw [List.length_append, List.length_append] at hlen
  exact List.append_inj h (by omega)

theorem whole_joined (hD : Short D) (hE : Short E) (hone : Single D) :
    Whole (Joined D E) (i :: is) ↔ Whole D [i] ∧ Whole E is := by
  have hentries : entriesOf (i :: is) = entriesOf [i] ++ entriesOf is := by
    rw [← entriesOf_append, List.singleton_append]
  constructor
  · intro henters
    obtain ⟨j, k, fs, hjk, hfs, gs, hgs, hes⟩ := henters
    obtain ⟨i', rfl⟩ := hone j fs hfs
    cases hjk
    rw [hentries] at hes
    obtain ⟨rfl, rfl⟩ := whole_parts (hD _ _ hfs) (hE _ _ hgs) hes
    exact ⟨hfs, hgs⟩
  · intro henters
    obtain ⟨hi, his⟩ := henters
    exact ⟨[i], is, _, rfl, hi, _, his, hentries⟩

theorem whole_takenIn (hD : Short D) : Whole (TakenIn D (fun es s => es ++ s) []) is ↔
    ∀ i ∈ is, Whole D [i] := by
  induction is with
  | nil => exact ⟨fun _ => by simp, fun _ => ⟨[], .nil, rfl⟩⟩
  | cons i is ih =>
    have hentries : entriesOf (i :: is) = entriesOf [i] ++ entriesOf is := by
      rw [← entriesOf_append, List.singleton_append]
    rw [List.forall_mem_cons, ← ih, Whole, takenIn_cons, hentries]
    constructor
    · intro henters
      obtain ⟨fs, gs, hfs, hgs, hes⟩ := henters
      obtain ⟨rfl, rfl⟩ := whole_parts (hD _ _ hfs) (short_takenIn hD _ _ hgs) hes
      exact ⟨hfs, hgs⟩
    · intro henters
      obtain ⟨hi, his⟩ := henters
      exact ⟨_, _, hi, his, rfl⟩

@[simp] theorem whole_converted {s : Bytes} :
    Whole (Converted convert) [.basic .string s] ↔ convert s = true := by
  constructor
  · intro henters
    obtain ⟨⟨s, hs, hconvert⟩, -⟩ := henters
    cases hs
    exact hconvert
  · intro h
    exact ⟨⟨s, rfl, h⟩, rfl⟩

theorem whole_inVariant : Whole (InVariant V) [.container .variant sig body] ↔
    V sig body ((.variant, sig) :: entriesOf body) := by
  rw [Whole, entriesOf_container]
  constructor
  · intro henters
    obtain ⟨sig, body, hbody, h⟩ := henters
    cases hbody
    exact h
  · intro h
    exact ⟨sig, body, rfl, h⟩

end Wholes

section Condition

/-- Every text that append makes of a value can be converted. -/
def ConvertsAll (convert : Bytes → Bool) (u : CppType) : Prop :=
  ∀ v s, encode u v = .basic .string s → convert s = true

/-- What the alternatives of a variant have to do for one that is held: the first with its
type id counts, and those before it are verified as well. -/
def FirstDecodes (lim : Limits) (around : List Kind) (t : CppType) (content : CppType → Prop)
    (convert : Bytes → Bool) (others : CppType → Prop) (w : CppType) : Prop :=
  lim.verifies t.typeId = true ∧
    if t.typeId = w.typeId then lim.enters around .variant t.typeId = true ∧
      if t.isEnumOrString then ConvertsAll convert w else content w
    else others w

mutual

/-- Values of the second type, as append sends them, can be read as the first type, inside of
these containers, with every container entered. Both types have one type id. -/
def Decodes (lim : Limits) : CppType → List Kind → CppType → Prop
  | .basic _, _, _ => True
  | .enum e _, _, u => ConvertsAll (fun s => (e.fromString s).isSome) u
  | .sequence _ t, around, u => lim.enters around .array t.typeId = true ∧
      ∃ a, elements u = some a ∧ Decodes lim t (.array :: around) a
  | .array _ _, _, _ => False
  | .associative t, around, u => lim.enters around .array t.typeId = true ∧
      ∃ a, elements u = some a ∧ Decodes lim t (.array :: around) a
  | .pair t t', around, u => lim.enters around .dictEntry (t.typeId ++ t'.typeId) = true ∧
      ∃ a b, u.downcast = .pair a b ∧ Decodes lim t (.dictEntry :: around) a ∧
        Decodes lim t' (.dictEntry :: around) b
  | .tuple t ts, around, u =>
      lim.enters around .struct (t.typeId ++ CppType.typeIds ts) = true ∧
      ∃ a as, u.downcast = .tuple a as ∧ Decodes lim t (.struct :: around) a ∧
        DecodesMembers lim ts (.struct :: around) as
  | .variant t ts, around, u => ∃ a as, u.downcast = .variant a as ∧ ∀ w ∈ a :: as,
      FirstDecodes lim around t (Decodes lim t (.variant :: around)) (CppType.process (t :: ts))
        (DecodesAlternatives lim (CppType.process (t :: ts)) ts around) w
  | .qualified _ t, around, u => Decodes lim t around u

def DecodesMembers (lim : Limits) : List CppType → List Kind → List CppType → Prop
  | [], _, us => us = []
  | t :: ts, around, us =>
    ∃ a as, us = a :: as ∧ Decodes lim t around a ∧ DecodesMembers lim ts around as

def DecodesAlternatives (lim : Limits) (convert : Bytes → Bool) :
    List CppType → List Kind → CppType → Prop
  | [], _, _ => False
  | t :: ts, around, w => FirstDecodes lim around t (Decodes lim t (.variant :: around)) convert
      (DecodesAlternatives lim convert ts around) w

end

/-- read enters every container that append opens for a value of the second type. -/
def EntersAll (lim : Limits) (t : CppType) (around : List Kind) (u : CppType) : Prop :=
  ∀ v : u.Val, Whole (Enters lim t around) [encode u v]

/-- Between the two types, in containers of any kinds, the condition is what it takes. -/
def DecodesAll (lim : Limits) (t u : CppType) : Prop :=
  ∀ around, EntersAll lim t around u ↔ Decodes lim t around u

theorem leaf_shape {b : BusType} (h : [b.code] = u.typeId) (v : u.Val) :
    ∃ d, encode u v = .basic b d := by
  cases shape u with
  | leaf c hid hencode =>
    rw [hid] at h
    cases code_inj (List.cons.inj h).1
    exact hencode v
  | elements a hu hid =>
    rw [hid] at h
    exact absurd (List.cons.inj h).1 (code_leaf b).1
  | pair a a' hu hid =>
    rw [hid] at h
    exact absurd (List.cons.inj h).1 (code_leaf b).2.1
  | tuple a as hu hid =>
    rw [hid] at h
    exact absurd (List.cons.inj h).1 (code_leaf b).2.2.1
  | variant a as hu hid =>
    rw [hid] at h
    exact absurd (List.cons.inj h).1 (code_leaf b).2.2.2.1

theorem array_shape {id : List Char} (h : 'a' :: id = u.typeId) : ∃ a, elements u = some a ∧
    id = a.typeId ∧
    (∀ v, ∃ xs : List a.Val, encode u v = .container .array id (xs.map (encode a))) ∧
    (∀ x : a.Val, ∃ v, ∃ xs : List a.Val, x ∈ xs ∧
      encode u v = .container .array id (xs.map (encode a))) := by
  cases shape u with
  | leaf c hid =>
    rw [hid] at h
    exact absurd (List.cons.inj h).1.symm (code_leaf c).1
  | elements a hu hid hencode hvalue =>
    rw [hid] at h
    obtain ⟨-, rfl⟩ := List.cons.inj h
    exact ⟨a, hu, rfl, hencode, hvalue⟩
  | pair a a' hu hid | tuple a as hu hid | variant a as hu hid =>
    simp [pairId, hid] at h

theorem converted_iff {convert : Bytes → Bool} (h : [BusType.string.code] = u.typeId) :
    (∀ v : u.Val, Whole (Converted convert) [encode u v]) ↔ ConvertsAll convert u := by
  constructor
  · intro hall v s hs
    have hv := hall v
    rw [hs] at hv
    exact whole_converted.mp hv
  · intro hall v
    obtain ⟨s, hs⟩ := leaf_shape h v
    rw [hs]
    exact whole_converted.mpr (hall v s hs)

theorem elements_iff (ih : ∀ u, t.typeId = u.typeId → DecodesAll lim t u)
    (h : 'a' :: t.typeId = u.typeId) :
    (∀ v : u.Val, Whole (Entering lim around .array t.typeId
      (TakenIn (Enters lim t (.array :: around)) (fun es s => es ++ s) [])) [encode u v]) ↔
        lim.enters around .array t.typeId = true ∧
          ∃ a, elements u = some a ∧ Decodes lim t (.array :: around) a := by
  obtain ⟨a, hu, hid, hencode, hvalue⟩ := array_shape h
  constructor
  · intro hall
    have helements : EntersAll lim t (.array :: around) a := by
      intro x
      obtain ⟨v, xs, hx, hv⟩ := hvalue x
      have hwhole := hall v
      rw [hv, whole_entering, whole_takenIn (short_enters t _)] at hwhole
      exact hwhole.2.2.2 _ (List.mem_map_of_mem hx)
    obtain ⟨v⟩ := val_nonempty u
    obtain ⟨xs, hxs⟩ := hencode v
    have hwhole := hall v
    rw [hxs, whole_entering] at hwhole
    exact ⟨hwhole.1, a, hu, (ih a hid _).mp helements⟩
  · intro henters v
    obtain ⟨hmay, b, hb, hdecodes⟩ := henters
    rw [hu] at hb
    cases hb
    obtain ⟨xs, hxs⟩ := hencode v
    rw [hxs, whole_entering, whole_takenIn (short_enters t _)]
    refine ⟨hmay, rfl, rfl, fun i hi => ?_⟩
    obtain ⟨x, -, rfl⟩ := List.mem_map.mp hi
    exact (ih a hid _).mpr hdecodes x

theorem forall_both {α β : Type} {P : α → Prop} {Q : β → Prop} (hα : Nonempty α)
    (hβ : Nonempty β) : (∀ x y, P x ∧ Q y) ↔ (∀ x, P x) ∧ ∀ y, Q y := by
  obtain ⟨x⟩ := hα
  obtain ⟨y⟩ := hβ
  exact ⟨fun h => ⟨fun x => (h x y).1, fun y => (h x y).2⟩, fun h x y => ⟨h.1 x, h.2 y⟩⟩

theorem forall_guarded {α β : Type} {may : Prop} {P : α → Prop} {Q : β → Prop}
    (hα : Nonempty α) (hβ : Nonempty β) :
    (∀ x y, may ∧ P x ∧ Q y) ↔ may ∧ (∀ x, P x) ∧ ∀ y, Q y := by
  rw [← forall_both hα hβ]
  obtain ⟨x⟩ := hα
  obtain ⟨y⟩ := hβ
  exact ⟨fun h => ⟨(h x y).1, fun x y => (h x y).2⟩, fun h x y => ⟨h.1, h.2 x y⟩⟩

theorem members_iff (ih : ∀ t ∈ ts, ∀ u, t.typeId = u.typeId → DecodesAll lim t u)
    (h : ts.map CppType.typeId = us.map CppType.typeId) :
    (∀ vs : CppType.Members us, Whole (EntersMembers lim ts around) (encodeMembers us vs)) ↔
      DecodesMembers lim ts around us := by
  induction ts generalizing us with
  | nil =>
    obtain rfl := List.map_eq_nil_iff.mp h.symm
    exact ⟨fun _ => rfl, fun _ _ => ⟨rfl, rfl⟩⟩
  | cons t ts ihs =>
    obtain ⟨u, us, rfl, htu, hrest⟩ := List.map_eq_cons_iff.mp h.symm
    have hmembers := ihs (fun w hw => ih w (List.mem_cons_of_mem _ hw)) hrest.symm
    have hboth := forall_both (P := fun x : u.Val => Whole (Enters lim t around) [encode u x])
      (Q := fun vs => Whole (EntersMembers lim ts around) (encodeMembers us vs)) (val_nonempty u)
      (members_nonempty (fun w _ => val_nonempty w))
    have hwhole : ∀ (x : u.Val) vs, Whole (EntersMembers lim (t :: ts) around) (encode u x ::
        encodeMembers us vs) ↔ Whole (Enters lim t around) [encode u x] ∧
          Whole (EntersMembers lim ts around) (encodeMembers us vs) := fun x vs =>
      whole_joined (short_enters t _) (short_members (fun w _ => short_enters w _))
        (single_enters t)
    have hfirst := ih t List.mem_cons_self u htu.symm around
    constructor
    · intro hall
      obtain ⟨hone, hothers⟩ := hboth.mp fun x vs => (hwhole x vs).mp (hall (x, vs))
      exact ⟨u, us, rfl, hfirst.mp hone, hmembers.mp hothers⟩
    · rintro ⟨_, _, heq, hone, hothers⟩ ⟨x, vs⟩
      cases heq
      exact (hwhole x vs).mpr ⟨hfirst.mpr hone x, hmembers.mpr hothers vs⟩

theorem isEnumOrString_typeId (h : t.isEnumOrString = true) :
    t.typeId = [BusType.string.code] := by
  induction t using induct with
  | basic b => cases b <;> first | rfl | cases h
  | enum e he => rfl
  | qualified q t ih => exact ih h
  | sequence q t ih | array n t ih | associative t ih | pair t u iht ihu | tuple t ts iht ihs
  | variant t ts iht ihs => cases h

/-- A variant that holds this is read, by alternatives of such a meaning, whole. -/
def HeldWhole (V : VariantMeaning (List Entry)) (w : CppType) : Prop :=
  ∀ x : w.Val, V w.typeId [encode w x] ((.variant, w.typeId) :: entriesOf [encode w x])

/-- What an alternative that is held makes of what is in the variant. -/
theorem content_iff {convert : Bytes → Bool} {w : CppType} (hid : t.typeId = w.typeId)
    (ih : DecodesAll lim t w) :
    (∀ x : w.Val, Whole (EntersHeld t (Enters lim t (.variant :: around)) convert) [encode w x]) ↔
      if t.isEnumOrString then ConvertsAll convert w
      else Decodes lim t (.variant :: around) w := by
  by_cases hstring : t.isEnumOrString = true
  · have hleaf := (isEnumOrString_typeId hstring).symm.trans hid
    have hconverted : EntersHeld t (Enters lim t (.variant :: around)) convert =
        Converted convert := by
      unfold EntersHeld
      rw [hstring]
      rfl
    rw [if_pos hstring, ← converted_iff hleaf, hconverted]
  · have hcontent : EntersHeld t (Enters lim t (.variant :: around)) convert =
        Enters lim t (.variant :: around) := by
      unfold EntersHeld
      rw [Bool.not_eq_true] at hstring
      rw [hstring]
      rfl
    rw [if_neg hstring, ← ih, hcontent]
    rfl

/-- The first alternative with the type id of the one that is held has to be entered. -/
theorem held_iff {V : VariantMeaning (List Entry)} {convert : Bytes → Bool} {w : CppType}
    (hid : t.typeId = w.typeId) :
    HeldWhole (EntersAlternative lim around t (Enters lim t (.variant :: around)) convert V) w ↔
      lim.verifies t.typeId = true ∧ lim.enters around .variant t.typeId = true ∧
        ∀ x : w.Val,
          Whole (EntersHeld t (Enters lim t (.variant :: around)) convert) [encode w x] := by
  have hheld : ∀ x : w.Val,
      EntersAlternative lim around t (Enters lim t (.variant :: around)) convert V w.typeId
        [encode w x] ((.variant, w.typeId) :: entriesOf [encode w x]) ↔
      lim.verifies t.typeId = true ∧ lim.enters around .variant t.typeId = true ∧
        Whole (EntersHeld t (Enters lim t (.variant :: around)) convert) [encode w x] := by
    intro x
    rw [EntersAlternative, if_pos hid.symm]
    apply and_congr_right'
    apply and_congr_right'
    constructor
    · intro henters
      obtain ⟨fs, hfs, heq⟩ := henters
      obtain ⟨-, rfl⟩ := List.cons.inj heq
      exact hfs
    · intro h
      exact ⟨_, h, by rw [hid]⟩
  obtain ⟨y⟩ := val_nonempty w
  rw [HeldWhole, forall_congr' hheld]
  exact ⟨fun hall => ⟨(hall y).1, (hall y).2.1, fun x => (hall x).2.2⟩,
    fun hall x => ⟨hall.1, hall.2.1, hall.2.2 x⟩⟩

/-- An alternative with another type id is verified, and left to those that follow. -/
theorem skipped_iff {V : VariantMeaning (List Entry)} {convert : Bytes → Bool} {w : CppType}
    (hid : t.typeId ≠ w.typeId) :
    HeldWhole (EntersAlternative lim around t (Enters lim t (.variant :: around)) convert V) w ↔
      lim.verifies t.typeId = true ∧ HeldWhole V w := by
  have hskip : ∀ x : w.Val,
      EntersAlternative lim around t (Enters lim t (.variant :: around)) convert V w.typeId
        [encode w x] ((.variant, w.typeId) :: entriesOf [encode w x]) ↔
      lim.verifies t.typeId = true ∧
        V w.typeId [encode w x] ((.variant, w.typeId) :: entriesOf [encode w x]) := by
    intro x
    rw [EntersAlternative, if_neg hid.symm]
  obtain ⟨y⟩ := val_nonempty w
  rw [HeldWhole, forall_congr' hskip]
  exact ⟨fun hall => ⟨(hall y).1, fun x => (hall x).2⟩, fun hall x => ⟨hall.1, hall.2 x⟩⟩

theorem first_iff {V : VariantMeaning (List Entry)} {convert : Bytes → Bool} {w : CppType}
    {others : CppType → Prop} (ih : t.typeId = w.typeId → DecodesAll lim t w)
    (hV : HeldWhole V w ↔ others w) :
    HeldWhole (EntersAlternative lim around t (Enters lim t (.variant :: around)) convert V) w ↔
      FirstDecodes lim around t (Decodes lim t (.variant :: around)) convert others w := by
  by_cases hid : t.typeId = w.typeId
  · rw [held_iff hid, content_iff hid (ih hid), FirstDecodes, if_pos hid]
  · rw [skipped_iff hid, hV, FirstDecodes, if_neg hid]

theorem alternatives_iff {convert : Bytes → Bool} {w : CppType}
    (ih : ∀ t ∈ ts, ∀ u, t.typeId = u.typeId → DecodesAll lim t u) :
    HeldWhole (EntersAlternatives lim convert ts around) w ↔
      DecodesAlternatives lim convert ts around w := by
  induction ts with
  | nil =>
    obtain ⟨x⟩ := val_nonempty w
    constructor
    · intro h
      exact absurd (h x) (List.cons_ne_nil _ _)
    · intro h
      cases h
  | cons t ts ihs =>
    exact first_iff (ih t List.mem_cons_self w) (ihs (fun u hu => ih u (List.mem_cons_of_mem _ hu)))

/-- A container of two parts is entered whole just when it may be entered and both parts
always are. -/
theorem parts_iff {α β : Type} {may : Prop} {P : α → Prop} {Q : β → Prop} {item : α → β → Wire}
    (hα : Nonempty α) (hβ : Nonempty β) (hencode : ∀ v, ∃ x y, encode u v = item x y)
    (hvalue : ∀ x y, ∃ v, encode u v = item x y)
    (hwhole : ∀ x y, Whole D [item x y] ↔ may ∧ P x ∧ Q y) :
    (∀ v : u.Val, Whole D [encode u v]) ↔ may ∧ (∀ x, P x) ∧ ∀ y, Q y := by
  rw [← forall_guarded hα hβ]
  constructor
  · intro hall x y
    obtain ⟨v, hv⟩ := hvalue x y
    exact (hwhole x y).mp (hv ▸ hall v)
  · intro hall v
    obtain ⟨x, y, hxy⟩ := hencode v
    rw [hxy]
    exact (hwhole x y).mpr (hall x y)

theorem pair_iff {t' : CppType} (ih : ∀ u, t.typeId = u.typeId → DecodesAll lim t u)
    (ih' : ∀ u, t'.typeId = u.typeId → DecodesAll lim t' u)
    (h : (CppType.pair t t').typeId = u.typeId) :
    EntersAll lim (.pair t t') around u ↔ Decodes lim (.pair t t') around u := by
  cases shape u with
  | pair a b hu hid hencode hvalue =>
    have hids : t.typeId ++ (t'.typeId ++ ['}']) = a.typeId ++ (b.typeId ++ ['}']) := by
      rw [hid] at h
      simpa [CppType.typeId, pairId] using h
    obtain ⟨hta, hrest⟩ := typeId_splits t a.typeId ⟨a, rfl⟩ _ _ hids
    obtain ⟨htb, -⟩ := typeId_splits t' b.typeId ⟨b, rfl⟩ _ _ hrest
    have hparts : EntersAll lim (.pair t t') around u ↔
        lim.enters around .dictEntry (t.typeId ++ t'.typeId) = true ∧
          EntersAll lim t (.dictEntry :: around) a ∧ EntersAll lim t' (.dictEntry :: around) b := by
      apply parts_iff (val_nonempty a) (val_nonempty b) hencode hvalue
      intro x y
      rw [Enters, whole_entering, whole_joined (short_enters t _) (short_enters t' _)
        (single_enters t), hta, htb]
      exact ⟨fun hall => ⟨hall.1, hall.2.2.2⟩, fun hall => ⟨hall.1, rfl, rfl, hall.2⟩⟩
    rw [hparts, ih a hta, ih' b htb, Decodes]
    apply and_congr_right'
    constructor
    · intro hboth
      exact ⟨a, b, hu, hboth⟩
    · intro hdecodes
      obtain ⟨_, _, heq, hboth⟩ := hdecodes
      cases hu.symm.trans heq
      exact hboth
  | leaf b hid =>
    rw [hid] at h
    exact absurd (List.cons.inj h).1.symm (code_leaf b).2.1
  | elements a hu hid | tuple a as hu hid | variant a as hu hid =>
    simp [CppType.typeId, pairId, hid] at h

theorem tuple_iff (iht : ∀ u, t.typeId = u.typeId → DecodesAll lim t u)
    (ihs : ∀ t ∈ ts, ∀ u, t.typeId = u.typeId → DecodesAll lim t u)
    (h : (CppType.tuple t ts).typeId = u.typeId) :
    EntersAll lim (.tuple t ts) around u ↔ Decodes lim (.tuple t ts) around u := by
  cases shape u with
  | tuple a as hu hid hencode hvalue =>
    have hids : CppType.typeIds (t :: ts) ++ ')' :: [] =
        CppType.typeIds (a :: as) ++ ')' :: [] := by
      rw [hid] at h
      simpa [CppType.typeId, CppType.typeIds] using h
    obtain ⟨hall, -⟩ := members_split (fun w _ => typeId_splits w) hids
    obtain ⟨hta, hrest⟩ := List.cons.inj hall
    have hmembers : CppType.typeIds ts = CppType.typeIds as := by
      rw [typeIds_eq, hrest, typeIds_eq]
    have hparts : EntersAll lim (.tuple t ts) around u ↔
        lim.enters around .struct (t.typeId ++ CppType.typeIds ts) = true ∧
          EntersAll lim t (.struct :: around) a ∧
            ∀ xs : CppType.Members as,
              Whole (EntersMembers lim ts (.struct :: around)) (encodeMembers as xs) := by
      apply parts_iff (val_nonempty a) (members_nonempty (fun w _ => val_nonempty w)) hencode hvalue
      intro x xs
      rw [Enters, whole_entering, whole_joined (short_enters t _)
        (short_members (fun w _ => short_enters w _)) (single_enters t), hta, hmembers]
      exact ⟨fun hwhole => ⟨hwhole.1, hwhole.2.2.2⟩, fun hwhole => ⟨hwhole.1, rfl, rfl, hwhole.2⟩⟩
    rw [hparts, iht a hta, members_iff ihs hrest, Decodes]
    apply and_congr_right'
    constructor
    · intro hboth
      exact ⟨a, as, hu, hboth⟩
    · intro hdecodes
      obtain ⟨_, _, heq, hboth⟩ := hdecodes
      cases hu.symm.trans heq
      exact hboth
  | leaf b hid =>
    rw [hid] at h
    exact absurd (List.cons.inj h).1.symm (code_leaf b).2.2.1
  | elements a hu hid | pair a b hu hid | variant a as hu hid =>
    simp [CppType.typeId, pairId, hid] at h

theorem variant_iff (iht : ∀ u, t.typeId = u.typeId → DecodesAll lim t u)
    (ihs : ∀ t ∈ ts, ∀ u, t.typeId = u.typeId → DecodesAll lim t u)
    (h : (CppType.variant t ts).typeId = u.typeId) :
    EntersAll lim (.variant t ts) around u ↔ Decodes lim (.variant t ts) around u := by
  cases shape u with
  | variant a as hu hid hencode hvalue =>
    have hheld : ∀ w, HeldWhole (EntersAlternative lim around t
        (Enters lim t (.variant :: around)) (CppType.process (t :: ts))
        (EntersAlternatives lim (CppType.process (t :: ts)) ts around)) w ↔
          FirstDecodes lim around t (Decodes lim t (.variant :: around))
            (CppType.process (t :: ts))
            (DecodesAlternatives lim (CppType.process (t :: ts)) ts around) w := fun w =>
      first_iff (iht w) (alternatives_iff ihs)
    constructor
    · intro hall
      refine ⟨a, as, hu, fun w hw => (hheld w).mp fun x => ?_⟩
      obtain ⟨v, hv⟩ := hvalue w hw x
      exact whole_inVariant.mp (hv ▸ hall v)
    · intro hdecodes v
      obtain ⟨_, _, heq, hfirst⟩ := hdecodes
      cases hu.symm.trans heq
      obtain ⟨w, hw, x, hx⟩ := hencode v
      rw [hx]
      exact whole_inVariant.mpr ((hheld w).mpr (hfirst w hw) x)
  | leaf b hid =>
    rw [hid] at h
    exact absurd (List.cons.inj h).1.symm (code_leaf b).2.2.2.1
  | elements a hu hid | pair a b hu hid | tuple a as hu hid =>
    simp [CppType.typeId, pairId, hid] at h

/-- Nothing that is appended as an array is read as a std::array. -/
theorem array_not_whole {n : Nat} (h : (CppType.array n t).typeId = u.typeId) :
    ¬ EntersAll lim (.array n t) around u := by
  intro hall
  obtain ⟨a, -, -, hencode, -⟩ := array_shape h
  obtain ⟨v⟩ := val_nonempty u
  obtain ⟨xs, hxs⟩ := hencode v
  have hwhole := hall v
  rw [hxs] at hwhole
  cases (whole_entering.mp hwhole).2.1

/-- Between types with one type id, read enters what append opens just when the condition
holds. -/
theorem entersAll_iff (t u : CppType) (h : t.typeId = u.typeId) : DecodesAll lim t u := by
  induction t using induct generalizing u with
  | basic b =>
    refine fun around => iff_of_true (fun v => ?_) trivial
    obtain ⟨d, hd⟩ := leaf_shape h v
    rw [hd]
    exact ⟨⟨d, rfl⟩, rfl⟩
  | enum e he => exact fun around => converted_iff h
  | sequence q t ih | associative t ih => exact fun around => elements_iff ih h
  | array n t ih => exact fun around => iff_of_false (array_not_whole h) id
  | pair t t' ih ih' => exact fun around => pair_iff ih ih' h
  | tuple t ts iht ihs => exact fun around => tuple_iff iht ihs h
  | variant t ts iht ihs => exact fun around => variant_iff iht ihs h
  | qualified q t ih => exact ih u h

end Condition

section Standing

variable {may : List Kind → Kind → List Char → Bool}

mutual

/-- Every container that type_id announces for values of a type may stand where it does,
inside of these. -/
def MayStand (may : List Kind → Kind → List Char → Bool) : CppType → List Kind → Prop
  | .basic _, _ | .enum _ _, _ => True
  | .sequence _ t, around | .array _ t, around | .associative t, around =>
    may around .array t.typeId = true ∧ MayStand may t (.array :: around)
  | .pair t u, around => may around .dictEntry (t.typeId ++ u.typeId) = true ∧
      MayStand may t (.dictEntry :: around) ∧ MayStand may u (.dictEntry :: around)
  | .tuple t ts, around => may around .struct (t.typeId ++ CppType.typeIds ts) = true ∧
      MayStand may t (.struct :: around) ∧ MembersMayStand may ts (.struct :: around)
  | .variant t ts, around =>
    (may around .variant t.typeId = true ∧ MayStand may t (.variant :: around)) ∧
      AlternativesMayStand may ts around
  | .qualified _ t, around => MayStand may t around

def MembersMayStand (may : List Kind → Kind → List Char → Bool) :
    List CppType → List Kind → Prop
  | [], _ => True
  | t :: ts, around => MayStand may t around ∧ MembersMayStand may ts around

def AlternativesMayStand (may : List Kind → Kind → List Char → Bool) :
    List CppType → List Kind → Prop
  | [], _ => True
  | t :: ts, around =>
    (may around .variant t.typeId = true ∧ MayStand may t (.variant :: around)) ∧
      AlternativesMayStand may ts around

end

/-- All values of a type have only containers that may stand where they do. -/
def AllPlaced (may : List Kind → Kind → List Char → Bool) (t : CppType) (around : List Kind) :
    Prop :=
  ∀ v : t.Val, Placed may around (encode t v)

theorem elements_placed (h : ∀ around, AllPlaced may t around ↔ MayStand may t around) {α : Type}
    {f : α → List t.Val} (hsome : ∀ v, ∃ x, v ∈ f x) :
    (∀ x, Placed may around (.container .array t.typeId ((f x).map (encode t)))) ↔
      may around .array t.typeId = true ∧ MayStand may t (.array :: around) := by
  rw [← h]
  constructor
  · intro hall
    obtain ⟨v⟩ := val_nonempty t
    obtain ⟨x, -⟩ := hsome v
    refine ⟨(hall x).1, fun v => ?_⟩
    obtain ⟨x, hx⟩ := hsome v
    exact placedAll_map.mp (hall x).2 v hx
  · intro hall x
    exact ⟨hall.1, placedAll_map.mpr fun v _ => hall.2 v⟩

theorem members_placed (h : ∀ t ∈ ts, ∀ around, AllPlaced may t around ↔ MayStand may t around) :
    (∀ vs : CppType.Members ts, PlacedAll may around (encodeMembers ts vs)) ↔
      MembersMayStand may ts around := by
  induction ts with
  | nil => exact iff_of_true (fun _ => trivial) trivial
  | cons t ts ih =>
    have hboth := forall_both (P := fun v : t.Val => Placed may around (encode t v))
      (Q := fun vs => PlacedAll may around (encodeMembers ts vs)) (val_nonempty t)
      (members_nonempty (fun u _ => val_nonempty u))
    rw [MembersMayStand, ← h t List.mem_cons_self,
      ← ih (fun u hu => h u (List.mem_cons_of_mem _ hu)), AllPlaced, ← hboth]
    exact ⟨fun hall v vs => hall (v, vs), fun hall p => hall p.1 p.2⟩

theorem held_placed (h : ∀ around, AllPlaced may t around ↔ MayStand may t around) :
    (∀ v : t.Val, Placed may around (.container .variant t.typeId [encode t v])) ↔
      may around .variant t.typeId = true ∧ MayStand may t (.variant :: around) := by
  obtain ⟨x⟩ := val_nonempty t
  rw [← h]
  constructor
  · intro hall
    exact ⟨(hall x).1, fun v => placedAll_one.mp (hall v).2⟩
  · intro hall v
    exact ⟨hall.1, placedAll_one.mpr (hall.2 v)⟩

theorem alternatives_placed
    (h : ∀ t ∈ ts, ∀ around, AllPlaced may t around ↔ MayStand may t around) :
    (∀ v : CppType.Alternatives ts, Placed may around (encodeAlternative ts v)) ↔
      AlternativesMayStand may ts around := by
  induction ts with
  | nil => exact iff_of_true (fun v => nomatch v) trivial
  | cons t ts ih =>
    rw [AlternativesMayStand, ← held_placed (h t List.mem_cons_self),
      ← ih (fun u hu => h u (List.mem_cons_of_mem _ hu))]
    exact Sum.forall

/-- What holds of the containers of all values is what the type says. -/
theorem allPlaced_iff (t : CppType) (around : List Kind) :
    AllPlaced may t around ↔ MayStand may t around := by
  induction t using induct generalizing around with
  | basic b => exact iff_of_true (fun _ => trivial) trivial
  | enum e he => exact iff_of_true (fun _ => trivial) trivial
  | sequence q t ih | associative t ih =>
    exact elements_placed (f := fun xs : List t.Val => xs) ih
      (fun v => ⟨[v], List.mem_singleton_self v⟩)
  | array n t ih =>
    apply elements_placed (f := fun xs : { xs : List t.Val // xs.length = n + 1 } => xs.val) ih
    intro v
    exact ⟨⟨List.replicate (n + 1) v, List.length_replicate⟩, by simp⟩
  | pair t u iht ihu =>
    rw [MayStand, ← iht, ← ihu]
    refine Iff.trans ?_ (forall_guarded (val_nonempty t) (val_nonempty u))
    constructor
    · intro hall v w
      obtain ⟨hmay, hv, hw, -⟩ := hall (v, w)
      exact ⟨hmay, hv, hw⟩
    · intro hall p
      obtain ⟨hmay, hv, hw⟩ := hall p.1 p.2
      exact ⟨hmay, hv, hw, trivial⟩
  | tuple t ts iht ihs =>
    rw [MayStand, ← iht, ← members_placed ihs]
    refine Iff.trans ?_
      (forall_guarded (val_nonempty t) (members_nonempty (fun u _ => val_nonempty u)))
    exact ⟨fun hall v vs => hall (v, vs), fun hall p => hall p.1 p.2⟩
  | variant t ts iht ihs =>
    rw [MayStand, ← held_placed iht, ← alternatives_placed ihs]
    exact Sum.forall
  | qualified q t ih => exact ih around

end Standing

section Agreement

theorem entered_announced {v : t.Val} (hplaced : Placed lim.opens [] (encode t v)) :
    t.entered lim v = some (t.announced v) ↔
      lim.carries t.typeId = true ∧ Whole (Enters lim t []) [encode t v] := by
  rw [entered_iff hplaced, Whole, entriesOf, entriesOf, List.append_nil, announced_eq]

theorem mayStand_of_agrees (h : t.Agrees lim) : MayStand lim.opens t [] :=
  (allPlaced_iff t []).mp fun v => opened_announced.mp (h v).1

theorem agrees_of_decodes (hopens : MayStand lim.opens t [])
    (hcarries : lim.carries t.typeId = true) (hdecodes : Decodes lim t [] t) : t.Agrees lim := by
  have hplaced := (allPlaced_iff t []).mpr hopens
  have henters := (entersAll_iff t t rfl []).mpr hdecodes
  intro v
  have hentered := (entered_announced (hplaced v)).mpr ⟨hcarries, henters v⟩
  exact ⟨opened_announced.mpr (hplaced v), hentered⟩

/-- append opens what the type id announces, and read enters it, just when libsystemd opens
every container where it stands, takes the message, and every part of the type is decoded as
what it was encoded from. -/
theorem agrees_iff (lim : Limits) (t : CppType) :
    t.Agrees lim ↔
      MayStand lim.opens t [] ∧ lim.carries t.typeId = true ∧ Decodes lim t [] t := by
  constructor
  · intro h
    have hopens := mayStand_of_agrees h
    have hplaced := (allPlaced_iff t []).mpr hopens
    have hentered := fun v => (entered_announced (hplaced v)).mp (h v).2
    obtain ⟨x⟩ := val_nonempty t
    exact ⟨hopens, (hentered x).1, (entersAll_iff t t rfl []).mp fun v => (hentered v).2⟩
  · intro h
    obtain ⟨hopens, hcarries, hdecodes⟩ := h
    exact agrees_of_decodes hopens hcarries hdecodes

/-- A std::array is appended as an array and read as a structure. -/
theorem array_disagrees : ¬ CppType.Agrees sdBus (.array 2 (.basic .int32)) := by
  intro h
  have hentered := (h ⟨[1#32, 2#32, 3#32], rfl⟩).2
  cases hentered

end Agreement

section Plain

/-- Alternatives that have different type ids, or are left to convert_from_string. -/
def Apart (t u : CppType) : Prop :=
  t.typeId ≠ u.typeId ∨ t.isEnumOrString = true ∧ u.isEnumOrString = true

mutual

/-- The types without a std::array in which the alternatives of every variant are apart, and
may be looked for. -/
def Plain (lim : Limits) : CppType → Prop
  | .basic _ => True
  | .enum _ _ => True
  | .sequence _ t => Plain lim t
  | .array _ _ => False
  | .associative t => Plain lim t
  | .pair t u => Plain lim t ∧ Plain lim u
  | .tuple t ts => Plain lim t ∧ PlainAll lim ts
  | .variant t ts => (Plain lim t ∧ PlainAll lim ts) ∧ (t :: ts).Pairwise Apart ∧
      ∀ w ∈ t :: ts, w.downcast = w ∧ lim.verifies w.typeId = true
  | .qualified _ t => Plain lim t

def PlainAll (lim : Limits) : List CppType → Prop
  | [] => True
  | t :: ts => Plain lim t ∧ PlainAll lim ts

end

theorem PlainAll.mem (h : PlainAll lim ts) (ht : t ∈ ts) : Plain lim t := by
  induction ts with
  | nil => cases ht
  | cons u ts ih =>
    obtain ⟨hu, hts⟩ := h
    rcases List.mem_cons.mp ht with rfl | ht
    · exact hu
    · exact ih hts ht

theorem AlternativesMayStand.mem {may : List Kind → Kind → List Char → Bool}
    (h : AlternativesMayStand may ts around) (ht : t ∈ ts) :
    may around .variant t.typeId = true ∧ MayStand may t (.variant :: around) := by
  induction ts with
  | nil => cases ht
  | cons u ts ih =>
    obtain ⟨hu, hts⟩ := h
    rcases List.mem_cons.mp ht with rfl | ht
    · exact hu
    · exact ih hts ht

theorem downcast_ne (q : Qualifier) (t u : CppType) : t.downcast ≠ .qualified q u := by
  induction t using induct with
  | qualified q t ih => exact ih
  | basic b => nofun
  | enum e he => nofun
  | sequence q t ih | array n t ih | associative t ih => nofun
  | pair t u iht ihu => nofun
  | tuple t ts iht ihs | variant t ts iht ihs => nofun

theorem process_mem {s : Bytes} (ht : t ∈ ts)
    (hs : t.convertFromString s = true ∨ t.isString = true) : CppType.process ts s = true := by
  induction ts with
  | nil => cases ht
  | cons u ts ih =>
    rw [CppType.process, Bool.or_eq_true, Bool.or_eq_true]
    rcases List.mem_cons.mp ht with rfl | ht
    · rcases hs with hs | hs
      · exact .inl (.inl hs)
      · exact .inr hs
    · exact .inl (.inr (ih ht))

theorem enum_converts {e : GeneratedEnum} (v : e.Val) :
    (e.fromString (e.toString v)).isSome = true := by
  rw [NativeTypes.fromString_toString]
  rfl

/-- A variant makes something of every text that its own alternatives send. -/
theorem process_convertsAll (ht : t ∈ ts) (hplain : t.downcast = t)
    (hstring : t.isEnumOrString = true) : ConvertsAll (CppType.process ts) t := by
  intro v s hs
  cases t with
  | basic b =>
    apply process_mem ht
    cases b <;> first | exact .inr rfl | cases hstring
  | enum e he =>
    cases hs
    apply process_mem ht
    exact .inl (enum_converts v)
  | qualified q u => exact absurd hplain (downcast_ne q _ u)
  | sequence q u | array n u | associative u | pair u u' | tuple u us | variant u us =>
    cases hstring

theorem alternatives_apart {convert : Bytes → Bool} (ht : t ∈ ts) (hapart : ts.Pairwise Apart)
    (hverifies : ∀ w ∈ ts, lim.verifies w.typeId = true)
    (henters : lim.enters around .variant t.typeId = true)
    (hself : Decodes lim t (.variant :: around) t)
    (hconvert : t.isEnumOrString = true → ConvertsAll convert t) :
    DecodesAlternatives lim convert ts around t := by
  induction ts with
  | nil => cases ht
  | cons u ts ih =>
    obtain ⟨hfirst, hrest⟩ := List.pairwise_cons.mp hapart
    refine ⟨hverifies u List.mem_cons_self, ?_⟩
    rcases List.mem_cons.mp ht with rfl | ht
    · rw [if_pos rfl]
      refine ⟨henters, ?_⟩
      split
      · rename_i hstring
        exact hconvert hstring
      · exact hself
    · split
      · rename_i hid
        rcases hfirst t ht with hne | ⟨hu, hstring⟩
        · exact absurd hid hne
        · rw [if_pos hu, hid]
          exact ⟨henters, hconvert hstring⟩
      · exact ih ht hrest fun w hw => hverifies w (List.mem_cons_of_mem _ hw)

theorem decodes_self (h : Plain lim t) (hm : MayStand lim.enters t around) :
    Decodes lim t around t := by
  induction t using induct generalizing around with
  | basic b => trivial
  | enum e he =>
    intro v s hs
    cases hs
    exact enum_converts v
  | sequence q t ih | associative t ih => exact ⟨hm.1, t, rfl, ih h hm.2⟩
  | array n t ih => cases h
  | pair t u iht ihu => exact ⟨hm.1, t, u, rfl, iht h.1 hm.2.1, ihu h.2 hm.2.2⟩
  | qualified q t ih =>
    have hqualified : EntersAll lim t around (.qualified q t) :=
      (entersAll_iff t t rfl around).mpr (ih h hm)
    exact (entersAll_iff t (.qualified q t) rfl around).mp hqualified
  | tuple t ts iht ihs =>
    obtain ⟨ht, hts⟩ := h
    obtain ⟨hstruct, hmt, hmts⟩ := hm
    refine ⟨hstruct, t, ts, rfl, iht ht hmt, ?_⟩
    clear hstruct
    induction ts with
    | nil => rfl
    | cons u us ih =>
      obtain ⟨hu, hus⟩ := hts
      exact ⟨u, us, rfl, ihs u List.mem_cons_self hu hmts.1,
        ih (fun w hw => ihs w (List.mem_cons_of_mem _ hw)) hus hmts.2⟩
  | variant t ts iht ihs =>
    obtain ⟨⟨ht, hts⟩, hapart, hplain⟩ := h
    refine ⟨t, ts, rfl, fun w hw => ?_⟩
    have hheld : lim.enters around .variant w.typeId = true ∧
        Decodes lim w (.variant :: around) w := by
      rcases List.mem_cons.mp hw with rfl | hmem
      · exact ⟨hm.1.1, iht ht hm.1.2⟩
      · obtain ⟨henters, hmw⟩ := hm.2.mem hmem
        exact ⟨henters, ihs w hmem (hts.mem hmem) hmw⟩
    exact alternatives_apart hw hapart (fun w hw => (hplain w hw).2) hheld.1 hheld.2
      (process_convertsAll hw (hplain w hw).1)

/-- append and read agree on these types, nested as far as libsystemd goes. -/
theorem agrees_of_plain (h : Plain lim t) (hopens : MayStand lim.opens t [])
    (henters : MayStand lim.enters t []) (hcarries : lim.carries t.typeId = true) :
    t.Agrees lim :=
  agrees_of_decodes hopens hcarries (decodes_self h henters)

/-- std::map<std::string, std::variant<bool, std::vector<std::string>>>. -/
example : CppType.Agrees sdBus (.associative (.pair (.qualified .const (.basic .string))
    (.variant (.basic .bool) [.sequence .vector (.basic .string)]))) := by
  apply agrees_of_plain
  · simp [Plain, PlainAll, Apart, CppType.typeId, CppType.downcast, Basic.busType, BusType.code]
    decide
  · simp only [MayStand, AlternativesMayStand]
    decide
  · simp only [MayStand, AlternativesMayStand]
    decide
  · decide

/-- A std::pair is sent only as an element of an array. -/
example : ¬ CppType.Agrees sdBus (.pair (.basic .int32) (.basic .string)) := by
  intro h
  cases (mayStand_of_agrees h).1

end Plain

end Sdbusplus.Proofs.Agreement
