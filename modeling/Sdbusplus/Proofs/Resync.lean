import Sdbusplus.Proofs.Containers
import Sdbusplus.Proofs.Read

namespace Sdbusplus.Proofs.Resync
open Message Proofs.Exactness Proofs.Containers Proofs.Read

variable {h : HashOrder} {t u : Ty} {ts all before : List Ty} {sig : List Char}
  {items rest body : List Wire} {k : Option Kind} {outer : List (Option Kind × List Wire)}

theorem unknown_cons : Unknown (t :: ts) sig ↔ sig ≠ contents (typeId t) ∧ Unknown ts sig := by
  rw [Unknown, List.forall_mem_cons, ne_comm]
  rfl

theorem firstWith_here : FirstWith (t :: ts) (contents (typeId t)) before u ↔
    before = [] ∧ u = t := by
  constructor
  · intro hleft
    obtain ⟨⟨after, heq⟩, hbefore, -⟩ := hleft
    cases before with
    | nil =>
      cases heq
      exact ⟨rfl, rfl⟩
    | cons w before =>
      cases heq
      exact absurd rfl (hbefore t List.mem_cons_self)
  · intro hright
    obtain ⟨rfl, rfl⟩ := hright
    exact ⟨⟨ts, rfl⟩, (fun _ hmem => nomatch hmem), rfl⟩

theorem firstWith_later (hs : sig ≠ contents (typeId t)) : FirstWith (t :: ts) sig before u ↔
    ∃ tail, before = t :: tail ∧ FirstWith ts sig tail u := by
  constructor
  · intro hleft
    obtain ⟨⟨after, heq⟩, hbefore, hu⟩ := hleft
    cases before with
    | nil =>
      cases heq
      exact absurd hu.symm hs
    | cons w before =>
      cases heq
      exact ⟨before, rfl, ⟨after, rfl⟩, (unknown_cons.mp hbefore).2, hu⟩
  · intro hright
    obtain ⟨tail, rfl, ⟨after, rfl⟩, hbefore, hu⟩ := hright
    exact ⟨⟨after, rfl⟩, unknown_cons.mpr ⟨hs, hbefore⟩, hu⟩

theorem holds_here {v : VariantVal (t :: ts)} {x : t.Val} :
    Holds (t :: ts) v [] t x ↔ v = .inl x := by
  constructor
  · intro hv
    cases hv
    rfl
  · rintro rfl
    exact .here t ts x

theorem holds_later {v : VariantVal (t :: ts)} {x : u.Val} :
    Holds (t :: ts) v (t :: before) u x ↔ ∃ w, v = .inr w ∧ Holds ts w before u x := by
  constructor
  · intro hv
    cases hv with
    | later _ _ _ w _ _ hw => exact ⟨w, rfl, hw⟩
  · intro hright
    obtain ⟨w, rfl, hw⟩ := hright
    exact .later t ts before w u x hw

/-- What the first alternative with the signature makes of the contents. -/
def FirstDelivers (h : HashOrder) (all ts : List Ty) (inj : VariantVal ts → VariantVal all)
    (sig : List Char) (body : List Wire) (v : VariantVal all) : Prop :=
  ∃ before u, FirstWith ts sig before u ∧
    if u.isEnumOrString then ∃ str, body = [.basic .string str] ∧ process all str = some v
    else ∃ x w, Denotes h u u.default body x ∧ Holds ts w before u x ∧ v = inj w

variable {v value : VariantVal all}

theorem firstDelivers_here {inj : VariantVal (t :: ts) → VariantVal all} :
    FirstDelivers h all (t :: ts) inj (contents (typeId t)) body v ↔
      DenotesHeld t (Denotes h t t.default) (process all) (fun x => inj (.inl x)) body v := by
  constructor
  · intro hleft
    obtain ⟨before, u, hfirst, hmakes⟩ := hleft
    obtain ⟨rfl, rfl⟩ := firstWith_here.mp hfirst
    rw [DenotesHeld]
    split at hmakes
    · rename_i hs
      rwa [if_pos hs]
    · rename_i hs
      obtain ⟨x, w, hx, hw, rfl⟩ := hmakes
      rw [if_neg hs]
      exact ⟨x, hx, by rw [holds_here.mp hw]⟩
  · intro hheld
    refine ⟨[], t, firstWith_here.mpr ⟨rfl, rfl⟩, ?_⟩
    rw [DenotesHeld] at hheld
    split at hheld
    · rename_i hs
      rwa [if_pos hs]
    · rename_i hs
      obtain ⟨x, hx, rfl⟩ := hheld
      rw [if_neg hs]
      exact ⟨x, .inl x, hx, holds_here.mpr rfl, rfl⟩

theorem firstDelivers_later {inj : VariantVal (t :: ts) → VariantVal all}
    (hs : sig ≠ contents (typeId t)) :
    FirstDelivers h all (t :: ts) inj sig body v ↔
      FirstDelivers h all ts (fun w => inj (.inr w)) sig body v := by
  constructor
  · intro hleft
    obtain ⟨before, u, hfirst, hmakes⟩ := hleft
    obtain ⟨tail, rfl, htail⟩ := (firstWith_later hs).mp hfirst
    refine ⟨tail, u, htail, ?_⟩
    split at hmakes
    · rename_i hu
      rwa [if_pos hu]
    · rename_i hu
      obtain ⟨x, _, hx, hheld, rfl⟩ := hmakes
      obtain ⟨w, rfl, hw⟩ := holds_later.mp hheld
      rw [if_neg hu]
      exact ⟨x, w, hx, hw, rfl⟩
  · intro hright
    obtain ⟨tail, u, hfirst, hmakes⟩ := hright
    refine ⟨t :: tail, u, (firstWith_later hs).mpr ⟨tail, rfl, hfirst⟩, ?_⟩
    split at hmakes
    · rename_i hu
      rwa [if_pos hu]
    · rename_i hu
      obtain ⟨x, w, hx, hw, rfl⟩ := hmakes
      rw [if_neg hu]
      exact ⟨x, .inr w, hx, holds_later.mpr ⟨w, rfl, hw⟩, rfl⟩

/-- The recursion over the alternatives comes to the first one with the signature,
and to the default value when there is none. -/
theorem denotesAlternatives_iff {inj : VariantVal ts → VariantVal all} :
    DenotesAlternatives h all value ts inj sig body v ↔
      (Unknown ts sig ∧ v = value) ∨ FirstDelivers h all ts inj sig body v := by
  induction ts with
  | nil =>
    constructor
    · rintro rfl
      exact .inl ⟨fun _ hmem => (nomatch hmem), rfl⟩
    · intro hright
      rcases hright with ⟨-, rfl⟩ | ⟨before, u, ⟨⟨after, heq⟩, -⟩, -⟩
      · exact rfl
      · exact absurd heq (by simp)
  | cons t ts ih =>
    rw [DenotesAlternatives, DenotesAlternative, unknown_cons]
    by_cases hs : sig = contents (typeId t)
    · rw [if_pos hs, hs, firstDelivers_here]
      constructor
      · exact .inr
      · intro hright
        rcases hright with ⟨⟨hne, -⟩, -⟩ | hheld
        · exact absurd rfl hne
        · exact hheld
    · rw [if_neg hs, ih, firstDelivers_later hs, and_iff_right hs]

theorem delivered_iff {v value : VariantVal (t :: ts)} (hvalue : value = .inl t.default) :
    DenotesAlternatives h (t :: ts) value (t :: ts) id sig body v ↔
      Delivered h t ts sig body v := by
  rw [denotesAlternatives_iff, hvalue]
  refine or_congr Iff.rfl (exists_congr fun before => exists_congr fun u => ?_)
  refine and_congr_right fun _ => ?_
  split
  · exact Iff.rfl
  · constructor
    · intro hright
      obtain ⟨x, w, hx, hw, rfl⟩ := hright
      exact ⟨x, hx, hw⟩
    · intro hright
      obtain ⟨x, hx, hv⟩ := hright
      exact ⟨x, v, hx, hv, rfl⟩

/-- A variant stands for what it should be after it. -/
theorem denotes_variant {out v : (Ty.variant t ts).Val} {is : List Wire} :
    Denotes h (.variant t ts) out is v ↔ InVariant (Delivered h t ts) is v := by
  constructor
  · intro hleft
    obtain ⟨sig, body, rfl, hd⟩ := hleft
    exact ⟨sig, body, rfl, (delivered_iff rfl).mp hd⟩
  · intro hright
    obtain ⟨sig, body, rfl, hd⟩ := hright
    have hd : DenotesAlternatives h (t :: ts) (.inl t.default) (t :: ts) id sig body v :=
      (delivered_iff rfl).mpr hd
    exact ⟨sig, body, rfl, hd⟩

section elements

variable {α : Type} {D D' : Meaning α} {i : Wire} {is js : List Wire}

theorem each_congr (hD : ∀ i a, D [i] a ↔ D' [i] a) {as : List α} : Each D is as ↔ Each D' is as :=
  ⟨fun h => h.imp fun i a => (hD i a).mp, fun h => h.imp fun i a => (hD i a).mpr⟩

/-- An element that stands for something does not matter for the others. -/
theorem each_insert (hi : ∃ a, D [i] a) :
    (∃ as, Each D (is ++ i :: js) as) ↔ ∃ as, Each D (is ++ js) as := by
  induction is with
  | nil =>
    constructor
    · intro hleft
      obtain ⟨_, has⟩ := hleft
      cases has with
      | cons _ has => exact ⟨_, has⟩
    · intro hright
      obtain ⟨as, has⟩ := hright
      obtain ⟨a, ha⟩ := hi
      exact ⟨a :: as, .cons ha has⟩
  | cons j is ih =>
    constructor
    · intro hleft
      obtain ⟨_, has⟩ := hleft
      cases has with
      | cons hj has =>
        obtain ⟨as, has⟩ := ih.mp ⟨_, has⟩
        exact ⟨_ :: as, .cons hj has⟩
    · intro hright
      obtain ⟨_, has⟩ := hright
      cases has with
      | cons hj has =>
        obtain ⟨as, has⟩ := ih.mpr ⟨_, has⟩
        exact ⟨_ :: as, .cons hj has⟩

theorem exact_inside {m : ReadM α} {l : Kind} {a : α} {c' : Cursor} {sig' : List Char}
    (hm : Exact m (Inside l sig D)) :
    m ⟨k, .container l sig' body :: rest, outer⟩ = .ok (a, c') ↔
      sig' = sig ∧ c' = ⟨k, rest, outer⟩ ∧ D body a := by
  rw [hm k _ (fun _ => List.cons_ne_nil _ _) outer a c']
  constructor
  · intro hleft
    obtain ⟨_, rest, heq, ⟨body, rfl, hD⟩, rfl⟩ := hleft
    cases heq
    exact ⟨rfl, rfl, hD⟩
  · intro hright
    obtain ⟨rfl, rfl, hD⟩ := hright
    exact ⟨[_], rest, rfl, ⟨body, rfl, hD⟩, rfl⟩

end elements

/-- A sequence is read when each element stands for something, and then it has just
their values at its end. -/
theorem sequence_iff {q : Sequence} {out vs : List t.Val} {c' : Cursor} :
    read h (.sequence q t) out ⟨k, .container .array sig items :: rest, outer⟩ = .ok (vs, c') ↔
      sig = contents (typeId t) ∧ c' = ⟨k, rest, outer⟩ ∧
        ∃ ws, Each (Denotes h t t.default) items ws ∧ vs = out ++ ws := by
  refine (exact_inside (read_exact h (.sequence q t) out)).trans ?_
  refine and_congr_right fun _ => and_congr_right fun _ => exists_congr fun ws => ?_
  have hsnoc : ws.foldl (fun xs x => xs ++ [x]) out = out ++ ws := foldl_snoc out ws
  exact and_congr_right fun _ => ⟨fun hvs => hvs.trans hsnoc, fun hvs => hvs.trans hsnoc.symm⟩

/-- The same for a dictionary, the entries of which are taken in in their order. -/
theorem map_iff {o : Order} {key : Key} {out xs : (Ty.map o key t).Val} {c' : Cursor} :
    read h (.map o key t) out ⟨k, .container .array sig items :: rest, outer⟩ = .ok (xs, c') ↔
      sig = contents (pairId [key.code] (typeId t)) ∧ c' = ⟨k, rest, outer⟩ ∧
        ∃ ws, Each (DenotesPair [key.code] (typeId t) key.Denotes (Denotes h t t.default))
            items ws ∧
          xs.val = ws.foldl (emplace h o key Prod.fst) out.val :=
  exact_inside (read_exact h (.map o key t) out)

theorem pair_congr {α β : Type} {id id' : List Char} {D : Meaning α} {E E' : Meaning β}
    (hE : ∀ is b, E is b ↔ E' is b) (is : List Wire) (p : α × β) :
    DenotesPair id id' D E is p ↔ DenotesPair id id' D E' is p := by
  simp only [DenotesPair, Inside, Both, hE]

/-- Reading a variant of unknown contents never fails, and passes over just it. -/
theorem read_unknown {out : (Ty.variant t ts).Val} (hs : Unknown (t :: ts) sig) :
    read h (.variant t ts) out ⟨k, .container .variant sig body :: rest, outer⟩ =
      .ok (.inl t.default, ⟨k, rest, outer⟩) := by
  refine (read_exact h (.variant t ts) out k _ (fun _ => List.cons_ne_nil _ _) outer _ _).mpr ?_
  exact ⟨[_], rest, rfl, denotes_variant.mpr ⟨sig, body, rfl, .inl ⟨hs, rfl⟩⟩, rfl⟩

theorem variants_iff {q : Sequence} {out vs : List (VariantVal (t :: ts))} {c' : Cursor} :
    read h (.sequence q (.variant t ts)) out ⟨k, .container .array sig items :: rest, outer⟩ =
        .ok (vs, c') ↔
      sig = ['v'] ∧ c' = ⟨k, rest, outer⟩ ∧
        ∃ ws, Each (InVariant (Delivered h t ts)) items ws ∧ vs = out ++ ws := by
  refine sequence_iff.trans (and_congr_right fun _ => and_congr_right fun _ => ?_)
  exact exists_congr fun ws => and_congr_left fun _ => each_congr fun _ _ => denotes_variant

theorem entry_congr {α : Type} {id : List Char} {D : Meaning α} {i : Wire}
    {out : (Ty.variant t ts).Val} {p : α × VariantVal (t :: ts)} :
    DenotesPair id ['v'] D (Denotes h (.variant t ts) out) [i] p ↔ DenotesEntry h t ts id D [i] p :=
  pair_congr (fun _ _ => denotes_variant) [i] p

theorem entries_iff {q : Sequence} {out vs : List (u.Val × VariantVal (t :: ts))} {c' : Cursor} :
    read h (.sequence q (.pair u (.variant t ts))) out
        ⟨k, .container .array sig items :: rest, outer⟩ = .ok (vs, c') ↔
      sig = contents (pairId (typeId u) ['v']) ∧ c' = ⟨k, rest, outer⟩ ∧
        ∃ ws, Each (DenotesEntry h t ts (typeId u) (Denotes h u u.default)) items ws ∧
          vs = out ++ ws := by
  refine sequence_iff.trans (and_congr_right fun _ => and_congr_right fun _ => ?_)
  exact exists_congr fun ws => and_congr_left fun _ => each_congr fun _ _ => entry_congr

theorem properties_iff {o : Order} {key : Key} {out xs : (Ty.map o key (.variant t ts)).Val}
    {c' : Cursor} :
    read h (.map o key (.variant t ts)) out ⟨k, .container .array sig items :: rest, outer⟩ =
        .ok (xs, c') ↔
      sig = contents (pairId [key.code] ['v']) ∧ c' = ⟨k, rest, outer⟩ ∧
        ∃ ws, Each (DenotesEntry h t ts [key.code] key.Denotes) items ws ∧
          xs.val = ws.foldl (emplace h o key Prod.fst) out.val := by
  refine map_iff.trans (and_congr_right fun _ => and_congr_right fun _ => ?_)
  exact exists_congr fun ws => and_congr_left fun _ => each_congr fun _ _ => entry_congr

theorem variants_succeed {q : Sequence} {out : List (VariantVal (t :: ts))} :
    (∃ r, read h (.sequence q (.variant t ts)) out
        ⟨k, .container .array sig items :: rest, outer⟩ = .ok r) ↔
      sig = ['v'] ∧ ∃ ws, Each (InVariant (Delivered h t ts)) items ws := by
  constructor
  · intro hleft
    obtain ⟨⟨vs, c'⟩, hr⟩ := hleft
    obtain ⟨hsig, -, ws, hws, -⟩ := variants_iff.mp hr
    exact ⟨hsig, ws, hws⟩
  · intro hright
    obtain ⟨hsig, ws, hws⟩ := hright
    exact ⟨(out ++ ws, _), variants_iff.mpr ⟨hsig, rfl, ws, hws, rfl⟩⟩

theorem properties_succeed {o : Order} {key : Key} {out : (Ty.map o key (.variant t ts)).Val} :
    (∃ r, read h (.map o key (.variant t ts)) out
        ⟨k, .container .array sig items :: rest, outer⟩ = .ok r) ↔
      sig = contents (pairId [key.code] ['v']) ∧
        ∃ ws, Each (DenotesEntry h t ts [key.code] key.Denotes) items ws := by
  constructor
  · intro hleft
    obtain ⟨⟨xs, c'⟩, hr⟩ := hleft
    obtain ⟨hsig, -, ws, hws, -⟩ := properties_iff.mp hr
    exact ⟨hsig, ws, hws⟩
  · intro hright
    obtain ⟨hsig, ws, hws⟩ := hright
    exact ⟨(⟨_, pairwise_foldl_emplace out.property⟩, _),
      properties_iff.mpr ⟨hsig, rfl, ws, hws, rfl⟩⟩

/-- Where variants of any contents are the elements or values of an array, what is
read is, in order, what each of them should be, and the cursor is left behind the
array. A variant of unknown contents is passed over and is no reason to fail. -/
theorem resynchronises (h : HashOrder) (t : Ty) (ts : List Ty) (k : Option Kind)
    (sig : List Char) (items rest : List Wire) (outer : List (Option Kind × List Wire)) :
    (∀ (q : Sequence) (out vs : List (VariantVal (t :: ts))) (c' : Cursor),
      read h (.sequence q (.variant t ts)) out
          ⟨k, .container .array sig items :: rest, outer⟩ = .ok (vs, c') ↔
        sig = ['v'] ∧ c' = ⟨k, rest, outer⟩ ∧
          ∃ ws, Each (InVariant (Delivered h t ts)) items ws ∧ vs = out ++ ws) ∧
    (∀ (q : Sequence) (u : Ty) (out vs : List (u.Val × VariantVal (t :: ts))) (c' : Cursor),
      read h (.sequence q (.pair u (.variant t ts))) out
          ⟨k, .container .array sig items :: rest, outer⟩ = .ok (vs, c') ↔
        sig = contents (pairId (typeId u) ['v']) ∧ c' = ⟨k, rest, outer⟩ ∧
          ∃ ws, Each (DenotesEntry h t ts (typeId u) (Denotes h u u.default)) items ws ∧
            vs = out ++ ws) ∧
    (∀ (o : Order) (key : Key) (out xs : (Ty.map o key (.variant t ts)).Val) (c' : Cursor),
      read h (.map o key (.variant t ts)) out
          ⟨k, .container .array sig items :: rest, outer⟩ = .ok (xs, c') ↔
        sig = contents (pairId [key.code] ['v']) ∧ c' = ⟨k, rest, outer⟩ ∧
          ∃ ws, Each (DenotesEntry h t ts [key.code] key.Denotes) items ws ∧
            xs.val = ws.foldl (emplace h o key Prod.fst) out.val) ∧
    (∀ (sig' : List Char) (body more : List Wire), Unknown (t :: ts) sig' →
      (∀ out, read h (.variant t ts) out ⟨k, .container .variant sig' body :: rest, outer⟩ =
        .ok (.inl t.default, ⟨k, rest, outer⟩)) ∧
      (∀ (q : Sequence) (out : List (VariantVal (t :: ts))),
        (∃ r, read h (.sequence q (.variant t ts)) out
          ⟨k, .container .array sig (items ++ .container .variant sig' body :: more) :: rest,
            outer⟩ = .ok r) ↔
        ∃ r, read h (.sequence q (.variant t ts)) out
          ⟨k, .container .array sig (items ++ more) :: rest, outer⟩ = .ok r) ∧
      (∀ (o : Order) (key : Key) (out : (Ty.map o key (.variant t ts)).Val) (i : Wire)
        (x : key.Val), key.Denotes [i] x →
        ((∃ r, read h (.map o key (.variant t ts)) out
          ⟨k, .container .array sig (items ++
            encodePair [key.code] ['v'] i (.container .variant sig' body) :: more) :: rest,
            outer⟩ = .ok r) ↔
        ∃ r, read h (.map o key (.variant t ts)) out
          ⟨k, .container .array sig (items ++ more) :: rest, outer⟩ = .ok r))) := by
  refine ⟨fun q out vs c' => variants_iff, fun q u out vs c' => entries_iff,
    fun o key out xs c' => properties_iff, fun sig' body more hs => ⟨fun out => read_unknown hs,
    fun q out => ?_, fun o key out i x hx => ?_⟩⟩
  · have hunknown : ∃ v, InVariant (Delivered h t ts) [.container .variant sig' body] v :=
      ⟨.inl t.default, sig', body, rfl, .inl ⟨hs, rfl⟩⟩
    rw [variants_succeed, variants_succeed, each_insert hunknown]
  · have hunknown : ∃ p, DenotesEntry h t ts [key.code] key.Denotes
        [encodePair [key.code] ['v'] i (.container .variant sig' body)] p :=
      ⟨(x, .inl t.default), _, rfl, [_], [_], rfl, hx, sig', body, rfl, .inl ⟨hs, rfl⟩⟩
    rw [properties_succeed, properties_succeed, each_insert hunknown]

example (h : HashOrder) :
    read h (.sequence .vector (.variant (.basic .int32) [.basic .double])) []
      (Cursor.start [.container .array ['v'] [.container .variant ['i'] [.basic .int32 3#32],
        .container .variant ['s'] [.basic .string [97]],
        .container .variant ['d'] [.basic .double 4#64]], .basic .byte 7#8]) =
      .ok ([.inl 3#32, .inl 0#32, .inr (.inl 4#64)], Cursor.start [.basic .byte 7#8]) := rfl

end Sdbusplus.Proofs.Resync
