import Sdbusplus.Proofs.Resync
import Sdbusplus.Proofs.RoundTrip

namespace Sdbusplus.Proofs.VariantString
open Message Proofs.Calls Proofs.NativeTypes Proofs.RoundTrip

variable {h : HashOrder} {t u : Ty} {ts all before : List Ty} {str : Bytes}
  {k : Option Kind} {rest : List Wire} {outer : List (Option Kind × List Wire)}

/-- The alternative that a string in a variant stands for: the first enum with that name,
else a std::string. -/
inductive Resolves (ts : List Ty) (str : Bytes) : Option (VariantVal ts) → Prop
  | enum (v : VariantVal ts) (before : List Ty) (e : GeneratedEnum) (x : e.Val)
      (held : Holds ts v before (.enum e) x) (accepts : e.fromString str = some x)
      (first : ∀ e', .enum e' ∈ before → e'.fromString str = none) : Resolves ts str (some v)
  | string (v : VariantVal ts) (before : List Ty) (held : Holds ts v before (.basic .string) str)
      (refused : ∀ e, .enum e ∈ ts → e.fromString str = none) : Resolves ts str (some v)
  | invalid (refused : ∀ e, .enum e ∈ ts → e.fromString str = none)
      (noString : .basic .string ∉ ts) : Resolves ts str none

/-- The same for what convert_from_string does, for which a nested variant is an
alternative like an enum. -/
inductive Chooses (ts : List Ty) (str : Bytes) : Option (VariantVal ts) → Prop
  | accepting (v : VariantVal ts) (before : List Ty) (u : Ty) (x : u.Val)
      (held : Holds ts v before u x) (accepts : convertFromString u str = some x)
      (first : ∀ u' ∈ before, convertFromString u' str = none) : Chooses ts str (some v)
  | string (v : VariantVal ts) (before : List Ty) (held : Holds ts v before (.basic .string) str)
      (refused : ∀ u ∈ ts, convertFromString u str = none) : Chooses ts str (some v)
  | invalid (refused : ∀ u ∈ ts, convertFromString u str = none)
      (noString : .basic .string ∉ ts) : Chooses ts str none

/-- A string that this alternative refuses and a later one was chosen for. -/
theorem Chooses.later {v : VariantVal ts} (ht : convertFromString t str = none)
    (hc : Chooses ts str (some v)) : Chooses (t :: ts) str (some (.inr v)) := by
  cases hc with
  | accepting _ before u x held accepts first =>
    refine .accepting _ (t :: before) u x (.later t ts before v u x held) accepts ?_
    exact List.forall_mem_cons.mpr ⟨ht, first⟩
  | string _ before held refused =>
    refine .string _ (t :: before) (.later t ts before v (.basic .string) str held) ?_
    exact List.forall_mem_cons.mpr ⟨ht, refused⟩

theorem process_chooses : Chooses ts str (process ts str) := by
  induction ts with
  | nil => exact .invalid (by simp) (by simp)
  | cons t ts ih =>
    rw [process]
    cases ht : convertFromString t str with
    | some x => exact .accepting _ [] t x (.here t ts x) ht (by simp)
    | none =>
      cases hp : process ts str with
      | some v =>
        rw [hp] at ih
        exact ih.later ht
      | none =>
        rw [hp] at ih
        cases ih with
        | invalid refused noString =>
          have hrefused : ∀ u ∈ t :: ts, convertFromString u str = none :=
            List.forall_mem_cons.mpr ⟨ht, refused⟩
          by_cases hs : t = .basic .string
          · subst hs
            exact .string _ [] (.here (.basic .string) ts str) hrefused
          · rw [lastResort_ne hs]
            refine .invalid hrefused ?_
            rw [List.mem_cons, not_or]
            exact ⟨Ne.symm hs, noString⟩

/-- A nested variant that makes something of the string comes before the first enum
that does. -/
def Overtaken (ts : List Ty) (str : Bytes) : Prop :=
  ∃ before u after, ts = before ++ u :: after ∧ u.isVariant = true ∧
    convertFromString u str ≠ none ∧ ∀ e, .enum e ∈ before → e.fromString str = none

theorem holds_split {v : VariantVal ts} {x : u.Val} (hv : Holds ts v before u x) :
    ∃ after, ts = before ++ u :: after := by
  induction hv with
  | here t ts x => exact ⟨ts, rfl⟩
  | later t ts before v u x _ ih =>
    obtain ⟨after, rfl⟩ := ih
    exact ⟨after, rfl⟩

theorem Chooses.resolves {o : Option (VariantVal ts)} (hc : Chooses ts str o)
    (hn : ¬ Overtaken ts str) : Resolves ts str o := by
  cases hc with
  | accepting v before u x held accepts first =>
    have henums : ∀ e, .enum e ∈ before → e.fromString str = none := fun e he => first _ he
    obtain ⟨after, hsplit⟩ := holds_split held
    cases u
    case enum e => exact .enum v before e x held accepts henums
    case variant t us =>
      refine absurd ⟨before, _, after, hsplit, rfl, ?_, henums⟩ hn
      rw [accepts]
      exact Option.some_ne_none x
    all_goals cases accepts
  | string v before held refused => exact .string v before held (fun e he => refused _ he)
  | invalid refused noString => exact .invalid (fun e he => refused _ he) noString

section reading

/-- A variant on the bus that holds this string. -/
def stringVariant (str : Bytes) : Wire := .container .variant ['s'] [.basic .string str]

/-- How reading ends when so much is made of the string. -/
def ending {β : Type} (o : Option β) (c : Cursor) : Except Exception (β × Cursor) :=
  match o with
  | some v => .ok (v, c)
  | none => .error .invalidEnumString

variable {β : Type} {content : ReadM t.Val} {fromString : Bytes → Option β} {inj : t.Val → β}
  {others : ReadM β}

theorem readAlternative_text (ht : t.isEnumOrString = true) :
    readAlternative t content fromString inj others ⟨k, stringVariant str :: rest, outer⟩ =
      ending (fromString str) ⟨k, rest, outer⟩ := by
  have hid : contents (typeId t) = ['s'] := by rw [typeId_text ht]; rfl
  have hinside : readContainer "variant" .variant ['s']
        (readBasic .string [] >>= fun str => orInvalidEnum (fromString str))
        ⟨k, stringVariant str :: rest, outer⟩ =
      (orInvalidEnum (fromString str) >>= fun v => do
        let _ ← callBus "sd_bus_message_exit_container variant" Cursor.exitContainer
        pure v) ⟨some .variant, [], (k, rest) :: outer⟩ := rfl
  rw [readAlternative, hid, stringVariant, bind_ok verify_found]
  simp only [ht, if_true]
  refine hinside.trans ?_
  cases fromString str with
  | none => rfl
  | some v => rfl

theorem readAlternative_other (ht : contents (typeId t) ≠ ['s']) :
    readAlternative t content fromString inj others ⟨k, stringVariant str :: rest, outer⟩ =
      others ⟨k, stringVariant str :: rest, outer⟩ := by
  have hne : ∀ body rest', stringVariant str :: rest ≠
      .container .variant (contents (typeId t)) body :: rest' := by
    intro body rest' heq
    rw [stringVariant, List.cons.injEq, Wire.container.injEq] at heq
    exact ht heq.1.2.1.symm
  rw [readAlternative, bind_ok (verify_other hne)]
  rfl

/-- Nothing but enums and std::string is sent as a string. -/
def OneStringType (ts : List Ty) : Prop :=
  ∀ u ∈ ts, contents (typeId u) = ['s'] → u.isEnumOrString = true

/-- Whichever enum or std::string comes first, the string is what the whole variant makes
of it; without any it is passed over. -/
theorem readAlternatives_string (hts : OneStringType ts) (value : VariantVal all)
    (inj : VariantVal ts → VariantVal all) :
    readAlternatives h all value ts inj ⟨k, stringVariant str :: rest, outer⟩ =
      if ts.any Ty.isEnumOrString then ending (process all str) ⟨k, rest, outer⟩
      else .ok (value, ⟨k, rest, outer⟩) := by
  induction ts with
  | nil => rfl
  | cons t ts ih =>
    obtain ⟨ht, hts⟩ := List.forall_mem_cons.mp hts
    rw [readAlternatives, List.any_cons]
    cases htext : t.isEnumOrString with
    | true => exact readAlternative_text htext
    | false =>
      have hne : contents (typeId t) ≠ ['s'] := by
        intro hid
        rw [ht hid] at htext
        cases htext
      rw [readAlternative_other hne]
      exact ih hts _

theorem read_string (hts : OneStringType (t :: ts)) (out : (Ty.variant t ts).Val) :
    read h (.variant t ts) out ⟨k, stringVariant str :: rest, outer⟩ =
      if (t :: ts).any Ty.isEnumOrString then ending (process (t :: ts) str) ⟨k, rest, outer⟩
      else .ok ((Ty.variant t ts).default, ⟨k, rest, outer⟩) := by
  have hread : read h (.variant t ts) out =
      readAlternatives h (t :: ts) (Ty.variant t ts).default (t :: ts) id := rfl
  rw [hread]
  exact readAlternatives_string hts _ _

end reading

/-- The reader of the variant gets the alternative that the string stands for, or throws
InvalidEnumString where there is none. -/
def ReadsResolved (h : HashOrder) (t : Ty) (ts : List Ty) (out : (Ty.variant t ts).Val)
    (str : Bytes) (k : Option Kind) (rest : List Wire) (outer : List (Option Kind × List Wire)) :
    Prop :=
  ∃ o, Resolves (t :: ts) str o ∧
    read h (.variant t ts) out ⟨k, stringVariant str :: rest, outer⟩ = ending o ⟨k, rest, outer⟩

theorem holds_heldType {v : VariantVal ts} {x : u.Val} (hv : Holds ts v before u x) :
    heldType ts v = u := by
  induction hv with
  | here t ts x => rfl
  | later t ts before v u x _ ih => exact ih

/-- A std::string is the last resort. -/
theorem Chooses.string_last {v : VariantVal ts} (hc : Chooses ts str (some v))
    (hv : heldType ts v = .basic .string) : ∀ e, .enum e ∈ ts → e.fromString str = none := by
  cases hc with
  | accepting _ _ u x held accepts _ =>
    have hu : u = .basic .string := (holds_heldType held).symm.trans hv
    subst hu
    cases accepts
  | string _ _ _ refused => exact fun e he => refused _ he

theorem ending_ok {β : Type} {o : Option β} {v : β} {c c' : Cursor}
    (heq : ending o c = .ok (v, c')) : o = some v := by
  cases o with
  | none => cases heq
  | some w =>
    cases heq
    rfl

/-- A string in a variant goes to the first enum with such a name, and failing that to the
std::string, unless a nested variant takes it first. Where nothing could be sent as a
string the variant gets its default value. -/
theorem variant_string_resolved (hts : OneStringType (t :: ts)) (out : (Ty.variant t ts).Val) :
    ((∀ u ∈ t :: ts, u.isEnumOrString = false) →
      read h (.variant t ts) out ⟨k, stringVariant str :: rest, outer⟩ =
        .ok ((Ty.variant t ts).default, ⟨k, rest, outer⟩)) ∧
    ((∃ u ∈ t :: ts, u.isEnumOrString = true) →
      (¬ Overtaken (t :: ts) str → ReadsResolved h t ts out str k rest outer) ∧
      ∀ (v : VariantVal (t :: ts)) (c : Cursor),
        read h (.variant t ts) out ⟨k, stringVariant str :: rest, outer⟩ = .ok (v, c) →
          heldType (t :: ts) v = .basic .string →
            ∀ e, .enum e ∈ t :: ts → e.fromString str = none) := by
  have hread : read h (.variant t ts) out ⟨k, stringVariant str :: rest, outer⟩ =
      if (t :: ts).any Ty.isEnumOrString then ending (process (t :: ts) str) ⟨k, rest, outer⟩
      else .ok ((Ty.variant t ts).default, ⟨k, rest, outer⟩) := read_string hts out
  have hchooses : Chooses (t :: ts) str (process (t :: ts) str) := process_chooses
  constructor
  · intro hnone
    rw [if_neg] at hread
    · exact hread
    · intro hany
      obtain ⟨u, hu, htext⟩ := List.any_eq_true.mp hany
      rw [hnone u hu] at htext
      cases htext
  · intro hsome
    rw [if_pos (List.any_eq_true.mpr hsome)] at hread
    constructor
    · intro hn
      exact ⟨_, hchooses.resolves hn, hread⟩
    · intro v c hv hstring
      rw [ending_ok (hread.symm.trans hv)] at hchooses
      exact hchooses.string_last hstring

/-- The name a.b.c of a value of the enum. -/
def valueName : Bytes := [97, 46, 98, 46, 99]

/-- The enum stands before a nested variant and a std::string. -/
theorem variant_string_resolved_enum :
    ReadsResolved newestFirst (.basic .int32) [.enum letters, .variant (.basic .string) [],
      .basic .string] (.inl 0#32) valueName none [] [] := by
  have hts : OneStringType [.basic .int32, .enum letters, .variant (.basic .string) [],
      .basic .string] := by
    intro u hu hid
    simp only [List.mem_cons, List.not_mem_nil, or_false] at hu
    rcases hu with rfl | rfl | rfl | rfl <;> first | rfl | cases hid
  have hsome : ∃ u ∈ [Ty.basic .int32, .enum letters, .variant (.basic .string) [],
      .basic .string], u.isEnumOrString = true := ⟨.enum letters, by simp, rfl⟩
  refine ((variant_string_resolved hts _).2 hsome).1 ?_
  rintro ⟨before, u, after, hsplit, hvariant, -, henums⟩
  rcases before with _ | ⟨b, before⟩
  · cases hsplit
    cases hvariant
  rcases before with _ | ⟨c, before⟩
  · cases hsplit
    cases hvariant
  · simp only [List.cons_append, List.cons.injEq] at hsplit
    have hletters : .enum letters ∈ b :: c :: before := by simp [← hsplit.2.1]
    exact absurd (henums letters hletters) (by decide)

/-- A string that is read as something else than an enum or a std::string is not resolved. -/
theorem not_resolved {out v : (Ty.variant t ts).Val} {c : Cursor}
    (hread : read h (.variant t ts) out ⟨k, stringVariant str :: rest, outer⟩ = .ok (v, c))
    (henum : ∀ before (e : GeneratedEnum) (x : e.Val), ¬ Holds (t :: ts) v before (.enum e) x)
    (hstring : ∀ before, ¬ Holds (t :: ts) v before (.basic .string) str) :
    ¬ ReadsResolved h t ts out str k rest outer := by
  intro hresolved
  obtain ⟨o, hres, hending⟩ := hresolved
  rw [ending_ok (hending.symm.trans hread)] at hres
  cases hres with
  | enum _ before e x held => exact henum before e x held
  | string _ before held => exact hstring before held

/-- A nested variant takes the name of an enum's value as the text that it may be too, and
a variant without enum and std::string throws nothing. -/
theorem string_lost_to_nested_variant :
    (read newestFirst (.variant (.variant (.basic .string) []) [.enum letters, .basic .string])
        (.inl (.inl [])) ⟨none, [stringVariant valueName], []⟩ =
          .ok (.inl (.inl valueName), ⟨none, [], []⟩) ∧
      ¬ ReadsResolved newestFirst (.variant (.basic .string) []) [.enum letters, .basic .string]
        (.inl (.inl [])) valueName none [] []) ∧
    (read newestFirst (.variant (.basic .int32) [.basic .double]) (.inr (.inl 0#64))
        ⟨none, [stringVariant valueName], []⟩ = .ok (.inl 0#32, ⟨none, [], []⟩) ∧
      ¬ ReadsResolved newestFirst (.basic .int32) [.basic .double] (.inr (.inl 0#64))
        valueName none [] []) := by
  refine ⟨⟨rfl, not_resolved rfl ?_ ?_⟩, rfl, not_resolved rfl ?_ ?_⟩
  all_goals
    intros
    intro held
    cases held

end Sdbusplus.Proofs.VariantString
