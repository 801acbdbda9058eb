import Sdbusplus.Message.Encoding
import Sdbusplus.Proofs.Exactness

namespace Sdbusplus.Proofs.Read
open Message Proofs.Calls Proofs.Exactness

variable {α β : Type} {a : α} {b : β} {c c' : Cursor} {D : Meaning α} {E : Meaning β}
  {k : Option Kind} {items rest : List Wire} {outer : List (Option Kind × List Wire)}
  {what : String}

section basics

theorem readBasic_exact (b : Basic) (out : b.Val) : Exact (readBasic b out) b.Denotes := by
  intro k items hk outer v c'
  unfold readBasic
  simp only [bind_iff, readBasic_iff hk]
  constructor
  · intro hrun
    obtain ⟨_, _, ⟨d, rest, rfl, rfl, rfl⟩, hd⟩ := hrun
    obtain ⟨rfl, rfl⟩ := pure_iff.mp hd
    exact ⟨[_], rest, rfl, rfl, rfl⟩
  · intro hmeans
    obtain ⟨_, rest, rfl, rfl, rfl⟩ := hmeans
    exact ⟨_, _, ⟨v, rest, rfl, rfl, rfl⟩, rfl⟩

theorem orInvalidEnum_takes {o : Option β} :
    Takes (orInvalidEnum o) (fun is v => is = [] ∧ o = some v) k items := by
  cases o with
  | none =>
    intro outer v c'
    simp [orInvalidEnum, raise]
  | some w => exact Takes.pure.congr fun is v => by rw [Option.some.injEq, eq_comm (a := v)]

/-- A string that something is made of. -/
theorem readString_exact {g : Bytes → Option β} :
    Exact (readBasic .string [] >>= fun s => orInvalidEnum (g s))
      (fun is v => ∃ s, is = [.basic .string s] ∧ g s = some v) := by
  intro k items hk
  refine ((readBasic_exact .string [] k items hk).bind
    fun s rest => orInvalidEnum_takes).congr fun is v => ?_
  constructor
  · intro hrun
    obtain ⟨_, _, s, rfl, rfl, rfl, hv⟩ := hrun
    exact ⟨s, rfl, hv⟩
  · intro hmeans
    obtain ⟨s, rfl, hv⟩ := hmeans
    exact ⟨_, [], s, rfl, rfl, rfl, hv⟩

theorem readEnum_exact (e : GeneratedEnum) : Exact (readEnum e) e.Denotes := readString_exact

theorem readKey_exact (key : Key) (out : key.Val) : Exact (readKey key out) key.Denotes := by
  cases key with
  | basic b _ => exact readBasic_exact b out
  | enum e => exact readEnum_exact e

end basics

section parts

theorem readPair_exact {id id' : List Char} {first : ReadM α} {second : ReadM β}
    (h : Exact first D) (h' : Exact second E) :
    Exact (readPair id id' first second) (DenotesPair id id' D E) :=
  Fills.container (Takes.fills fun items =>
    (h.takes (by simp) items).both fun rest => h'.takes (by simp) rest)

theorem foldl_snoc (xs ys : List α) : ys.foldl (fun zs y => zs ++ [y]) xs = xs ++ ys := by
  induction ys generalizing xs with
  | nil => simp
  | cons y ys ih => simp [ih]

/-- Copying all elements at once takes what reading them one by one would. -/
theorem readArrayOneShot_exact {b : Basic} {out : List b.Val} (hsize : 0 < b.busType.size) :
    Exact (readArrayOneShot b out)
      (Inside .array [b.busType.code] (TakenIn b.Denotes (fun xs x => xs ++ [x]) out)) := by
  intro k items hk outer vs c'
  unfold readArrayOneShot
  simp only [bind_iff, pure_iff, readArray_iff hk]
  constructor
  · intro hrun
    obtain ⟨_, _, ⟨body, ds, rest, rfl, hds, rfl, rfl⟩, rfl, rfl⟩ := hrun
    refine ⟨[_], rest, rfl, ⟨body, rfl, ds, hds, ?_⟩, rfl⟩
    rw [foldl_snoc, Nat.mul_div_cancel _ hsize, List.take_length]
  · intro hmeans
    obtain ⟨_, rest, rfl, ⟨body, rfl, ds, hds, rfl⟩, rfl⟩ := hmeans
    refine ⟨_, _, ⟨body, ds, rest, rfl, hds, rfl, rfl⟩, ?_, rfl⟩
    rw [foldl_snoc, Nat.mul_div_cancel _ hsize, List.take_length]

theorem readMembers_takes {member : α → ReadM α} {D : α → Meaning α}
    (h : ∀ x, Exact (member x) (D x)) (hk : k ≠ some .array) (xs : List α)
    (items : List Wire) :
    Takes (readMembers member xs) (fun is ys => DenotesMembers D xs is ys.val) k items := by
  induction xs generalizing items with
  | nil =>
    refine Takes.pure.congr fun is ys => ?_
    rw [DenotesMembers, Subtype.ext_iff]
  | cons x xs ih =>
    refine (((h x).takes hk items).bind fun y rest => (ih rest).map).congr fun is zs => ?_
    constructor
    · intro hrun
      obtain ⟨i, j, y, rfl, hD, ys, hDs, rfl⟩ := hrun
      exact ⟨i, j, y, ys.val, rfl, rfl, hD, hDs⟩
    · intro hmeans
      obtain ⟨i, j, y, ys, rfl, hys, hD, hDs⟩ := hmeans
      obtain ⟨_, hlen⟩ := zs
      subst hys
      exact ⟨i, j, y, rfl, hD, ⟨ys, by simpa using hlen⟩, hDs, rfl⟩

end parts

section variants

variable {t : Ty} {content : ReadM t.Val} {C : Meaning t.Val} {fromString : Bytes → Option β}
  {inj : t.Val → β} {others : ReadM β} {V : VariantMeaning β}

/-- What an alternative whose signature is found does inside of the container. -/
def readHeld (t : Ty) (content : ReadM t.Val) (fromString : Bytes → Option β) (inj : t.Val → β) :
    ReadM β :=
  if t.isEnumOrString then do
    let str ← readBasic .string []
    orInvalidEnum (fromString str)
  else do
    let t1 ← content
    pure (inj t1)

theorem readHeld_exact (h : Exact content C) :
    Exact (readHeld t content fromString inj) (DenotesHeld t C fromString inj) := by
  unfold readHeld DenotesHeld
  cases t.isEnumOrString with
  | true => exact readString_exact
  | false => exact fun k items hk => (h k items hk).map

/-- What is done for a variant of one signature, and else. -/
def verified (sig : List Char) (m others : ReadM β) : ReadM β := do
  let (r, _) ← callBus "sd_bus_message_verify_type variant" (Cursor.verifyType .variant sig)
  if r = 0 then others else m

theorem verified_exact {sig : List Char} {m : ReadM β} (h : Exact m (Inside .variant sig E))
    (h' : Exact others (InVariant V)) :
    Exact (verified sig m others)
      (InVariant (fun sig' body b => if sig' = sig then E body b else V sig' body b)) := by
  intro k items hk outer b c'
  rw [verified]
  by_cases hmatch : ∃ body rest, items = .container .variant sig body :: rest
  · obtain ⟨body, rest, rfl⟩ := hmatch
    rw [bind_ok verify_found]
    refine (h k _ hk).congr_part (fun is rest' b heq => ?_) outer b c'
    constructor
    · intro hrun
      obtain ⟨body, rfl, hheld⟩ := hrun
      exact ⟨sig, body, rfl, (if_pos rfl).mpr hheld⟩
    · intro hmeans
      obtain ⟨sig', body, rfl, hheld⟩ := hmeans
      cases heq
      exact ⟨_, rfl, (if_pos rfl).mp hheld⟩
  · have hne : ∀ body rest, items ≠ .container .variant sig body :: rest :=
      fun body rest heq => hmatch ⟨body, rest, heq⟩
    rw [bind_ok (verify_other hne)]
    refine (h' k items hk).congr_part (fun is rest b heq => ?_) outer b c'
    have hsig : ∀ {sig' body}, is = [.container .variant sig' body] → sig' ≠ sig := by
      rintro _ body rfl rfl
      exact hne body rest heq
    constructor
    · intro hrun
      obtain ⟨sig', body, his, hothers⟩ := hrun
      exact ⟨sig', body, his, (if_neg (hsig his)).mpr hothers⟩
    · intro hmeans
      obtain ⟨sig', body, his, hothers⟩ := hmeans
      exact ⟨sig', body, his, (if_neg (hsig his)).mp hothers⟩

theorem readAlternative_exact (h : Exact content C) (h' : Exact others (InVariant V)) :
    Exact (readAlternative t content fromString inj others)
      (InVariant (DenotesAlternative t C fromString inj V)) :=
  verified_exact (Fills.container ((readHeld_exact h).fills (by simp))) h'

/-- A variant whose contents no alternative is for is passed over. -/
theorem skipVariant_exact {value : β} :
    Exact (skipVariant value) (InVariant (fun _ _ v => v = value)) := by
  intro k items hk outer v c'
  unfold skipVariant
  simp only [bind_iff, pure_iff, skip_iff]
  constructor
  · intro hrun
    obtain ⟨_, _, ⟨sig, body, rest, rfl, rfl, rfl⟩, rfl, rfl⟩ := hrun
    exact ⟨[_], rest, rfl, ⟨sig, body, rfl, rfl⟩, rfl⟩
  · intro hmeans
    obtain ⟨_, rest, rfl, ⟨sig, body, rfl, rfl⟩, rfl⟩ := hmeans
    exact ⟨_, _, ⟨sig, body, rest, rfl, rfl, rfl⟩, rfl, rfl⟩

end variants

section types

variable {h : HashOrder} {ts all : List Ty}

/-- Only std::monostate takes anything else than one element. -/
theorem denotes_one {t : Ty} (ht : t ≠ .monostate) {out v : t.Val} {is : List Wire}
    (hd : Denotes h t out is v) : ∃ i, is = [i] := by
  cases t
  case monostate => exact absurd rfl ht
  case basic b => exact ⟨_, hd⟩
  case enum e =>
    obtain ⟨s, rfl, -⟩ := hd
    exact ⟨_, rfl⟩
  case variant t ts =>
    obtain ⟨sig, body, rfl, -⟩ := hd
    exact ⟨_, rfl⟩
  all_goals
    obtain ⟨body, rfl, -⟩ := hd
    exact ⟨_, rfl⟩

theorem key_one {key : Key} {v : key.Val} {is : List Wire} (hd : key.Denotes is v) :
    ∃ i, is = [i] := by
  cases key with
  | basic b _ => exact ⟨_, hd⟩
  | enum e =>
    obtain ⟨s, rfl, -⟩ := hd
    exact ⟨_, rfl⟩

theorem pair_one {id id' : List Char} {p : α × β} {is : List Wire}
    (hd : DenotesPair id id' D E is p) : ∃ i, is = [i] := by
  obtain ⟨body, rfl, -⟩ := hd
  exact ⟨_, rfl⟩

/-- The loop over the elements of an array, which never ends for std::monostate. -/
theorem readElements_fills {t : Ty} {push : β → t.Val → β}
    (ht : Exact (read h t t.default) (Denotes h t t.default)) :
    Fills (readUntilEnd what (takeIn (read h t t.default) push) b)
      (TakenIn (Denotes h t t.default) push b) .array := by
  by_cases hm : t = .monostate
  · subst hm
    exact readUntilEnd_stuck (fun _ => rfl)
  · exact readUntilEnd_fills ht (fun is a => denotes_one hm)

theorem readEmplaceBack_exact {t : Ty} {out : List t.Val}
    (ht : Exact (read h t t.default) (Denotes h t t.default)) :
    Exact (readEmplaceBack ('a' :: typeId t) (read h t t.default) out)
      (Inside .array (contents (typeId t))
        (TakenIn (Denotes h t t.default) (fun xs x => xs ++ [x]) out)) :=
  Fills.container (readElements_fills ht)

theorem readContiguous_exact {t : Ty} {out : List t.Val}
    (ht : Exact (read h t t.default) (Denotes h t t.default)) :
    Exact (readContiguous t (read h t t.default) out)
      (Inside .array (contents (typeId t))
        (TakenIn (Denotes h t t.default) (fun xs x => xs ++ [x]) out)) := by
  cases t
  case basic b =>
    by_cases hb : b.canAppendArray = true
    · have hone : readContiguous (.basic b) (read h (.basic b) b.busType.default) out =
          readArrayOneShot b out := if_pos hb
      rw [contents_basic]
      exact hone ▸ readArrayOneShot_exact (Basic.size_pos hb)
    · have heach : readContiguous (.basic b) (read h (.basic b) b.busType.default) out =
          readEmplaceBack ('a' :: typeId (.basic b)) (read h (.basic b) b.busType.default) out :=
        if_neg hb
      exact heach ▸ readEmplaceBack_exact ht
  all_goals exact readEmplaceBack_exact ht

theorem foldl_val {P : List α → Prop} {put : { xs : List α // P xs } → α → { xs : List α // P xs }}
    {f : List α → α → List α} {as : List α} (hput : ∀ xs x, (put xs x).val = f xs.val x)
    (out : { xs : List α // P xs }) : (as.foldl put out).val = as.foldl f out.val := by
  induction as generalizing out with
  | nil => rfl
  | cons a as ih => rw [List.foldl_cons, ih, hput, List.foldl_cons]

/-- The elements of a set or map are taken in one after the other. -/
theorem readEmplace_exact {id : List Char} {P : List α → Prop} {f : List α → α → List α}
    {element : ReadM α} {put : { xs : List α // P xs } → α → { xs : List α // P xs }}
    {out : { xs : List α // P xs }} (h : Exact element D)
    (hone : ∀ is a, D is a → ∃ i, is = [i]) (hput : ∀ xs x, (put xs x).val = f xs.val x) :
    Exact (readEmplace ('a' :: id) element put out)
      (Inside .array (contents id) (fun body xs => TakenIn D f out.val body xs.val)) := by
  refine (Fills.container (readUntilEnd_fills h hone)).congr fun is xs => ?_
  constructor
  · intro hrun
    obtain ⟨body, rfl, as, has, rfl⟩ := hrun
    exact ⟨body, rfl, as, has, foldl_val hput out⟩
  · intro hmeans
    obtain ⟨body, rfl, as, has, hxs⟩ := hmeans
    exact ⟨body, rfl, as, has, Subtype.ext (hxs.trans (foldl_val hput out).symm)⟩

theorem readTuple_takes (hts : ∀ t ∈ ts, ∀ out, Exact (read h t out) (Denotes h t out))
    (hk : k ≠ some .array) (outs : TupleVal ts) (items : List Wire) :
    Takes (readTuple h ts outs) (DenotesTuple h ts outs) k items := by
  induction ts generalizing items with
  | nil => exact Takes.pure.congr fun is vs => and_iff_left rfl
  | cons t ts ih =>
    obtain ⟨out, outs⟩ := outs
    have ht := (hts t List.mem_cons_self out).takes hk items
    exact ht.both fun rest => ih (fun u hu => hts u (List.mem_cons_of_mem _ hu)) outs rest

theorem readAlternatives_exact (hts : ∀ t ∈ ts, ∀ out, Exact (read h t out) (Denotes h t out))
    (value : VariantVal all) (inj : VariantVal ts → VariantVal all) :
    Exact (readAlternatives h all value ts inj)
      (InVariant (DenotesAlternatives h all value ts inj)) := by
  induction ts with
  | nil => exact skipVariant_exact
  | cons t ts ih =>
    exact readAlternative_exact (hts t List.mem_cons_self t.default)
      (ih (fun u hu => hts u (List.mem_cons_of_mem _ hu)) _)

/-- message::read takes just the elements that stand for its result, and where there
are none it throws. -/
theorem read_exact (h : HashOrder) (t : Ty) (out : t.Val) :
    Exact (read h t out) (Denotes h t out) := by
  induction t using Ty.induct with
  | basic b => exact readBasic_exact b out
  | enum e => exact readEnum_exact e
  | monostate => exact fun k items _ => Takes.pure.congr fun is v => and_iff_left rfl
  | sequence q t ih =>
    cases q with
    | vector => exact readContiguous_exact (ih _)
    | deque | list => exact readEmplaceBack_exact (ih _)
  | array n t ih =>
    have hmembers := fun items => readMembers_takes ih (k := some .struct) (by simp) out.val items
    refine Fills.container (Takes.fills fun items => (hmembers items).map.congr fun is xs => ?_)
    constructor
    · intro hrun
      obtain ⟨ys, hys, rfl⟩ := hrun
      exact hys
    · intro hxs
      exact ⟨⟨xs.val, xs.property.trans out.property.symm⟩, hxs, rfl⟩
  | set o k => exact readEmplace_exact (readKey_exact k _) (fun _ _ => key_one) (fun _ _ => rfl)
  | map o k t ih =>
    exact readEmplace_exact (readPair_exact (readKey_exact k _) (ih _)) (fun _ _ => pair_one)
      (fun _ _ => rfl)
  | pair t u iht ihu => exact readPair_exact (iht _) (ihu _)
  | tuple ts ih =>
    exact Fills.container (Takes.fills (readTuple_takes ih (by simp) out))
  | variant t ts iht ihs =>
    exact readAlternative_exact (iht _) (readAlternatives_exact ihs _ _)

end types

end Sdbusplus.Proofs.Read
