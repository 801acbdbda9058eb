import Mathlib.Data.List.Nodup
import Sdbusplus.Message.Encoding

namespace Sdbusplus.Proofs.NativeTypes
open Message

variable {e e' : GeneratedEnum} {t : Ty} {ts all : List Ty} {str : Bytes}

theorem append_last_nil {α : Type} {d : α} {cs xs ys : List α} (hx : d ∉ xs)
    (h : d :: xs = cs ++ d :: ys) : cs = [] ∧ xs = ys := by
  cases cs with
  | nil => exact ⟨rfl, (List.cons.inj h).2⟩
  | cons c cs =>
    have hxs : xs = cs ++ d :: ys := (List.cons.inj h).2
    exact absurd (by simp [hxs]) hx

/-- What comes before the last separator and what follows it are determined. -/
theorem append_last_inj {α : Type} {d : α} {as bs xs ys : List α} (hx : d ∉ xs) (hy : d ∉ ys)
    (h : as ++ d :: xs = bs ++ d :: ys) : as = bs ∧ xs = ys := by
  rcases List.append_eq_append_iff.mp h with ⟨cs, rfl, hcs⟩ | ⟨cs, rfl, hcs⟩
  · obtain ⟨rfl, hxy⟩ := append_last_nil hx hcs
    exact ⟨(List.append_nil _).symm, hxy⟩
  · obtain ⟨rfl, hyx⟩ := append_last_nil hy hcs
    exact ⟨List.append_nil _, hyx.symm⟩

/-- The wire name of a value determines the value's name, the enum's and the interface's. -/
theorem toString_inj {v : e.Val} {v' : e'.Val} (h : e.toString v = e'.toString v') :
    e.interface = e'.interface ∧ e.name = e'.name ∧ e.values.get v = e'.values.get v' := by
  simp only [GeneratedEnum.toString, GeneratedEnum.wireName] at h
  obtain ⟨hpre, hval⟩ := append_last_inj (e.values_plain _ (List.get_mem _ _))
    (e'.values_plain _ (List.get_mem _ _)) h
  obtain ⟨hint, hname⟩ := append_last_inj e.name_plain e'.name_plain hpre
  exact ⟨hint, hname, hval⟩

theorem toString_injective {v w : e.Val} (h : e.toString v = e.toString w) : v = w :=
  e.distinct.get_inj_iff.mp (toString_inj h).2.2

theorem fromString_toString (v : e.Val) : e.fromString (e.toString v) = some v := by
  have hfound : (e.fromString (e.toString v)).isSome = true :=
    List.find?_isSome.mpr ⟨v, List.mem_finRange v, by simp⟩
  obtain ⟨w, hw⟩ := Option.isSome_iff_exists.mp hfound
  have hname : e.toString v = e.toString w := by simpa using List.find?_some hw
  rw [hw, toString_injective hname]

theorem fromString_none (h : ∀ v, str ≠ e.toString v) : e.fromString str = none := by
  rw [GeneratedEnum.fromString, List.find?_eq_none]
  intro v _
  simpa using h v

/-- A type that convert_from_string makes nothing of this string for. -/
def Refuses (str : Bytes) : Ty → Prop
  | .enum e => ∀ v, str ≠ e.toString v
  | .variant _ _ => False
  | _ => True

theorem convertFromString_none (h : Refuses str t) : convertFromString t str = none := by
  cases t
  case enum e => exact fromString_none h
  case variant t ts => cases h
  all_goals rfl

theorem lastResort_ne (ht : t ≠ .basic .string) : lastResort t str = none := by
  cases t
  case basic b => cases b <;> first | rfl | exact absurd rfl ht
  all_goals rfl

theorem process_none (h : ∀ t ∈ ts, Refuses str t ∧ t ≠ .basic .string) :
    process ts str = none := by
  induction ts with
  | nil => rfl
  | cons t ts ih =>
    obtain ⟨hr, hs⟩ := h t List.mem_cons_self
    rw [process, convertFromString_none hr, ih (fun u hu => h u (List.mem_cons_of_mem _ hu)),
      lastResort_ne hs]
    rfl

/-- The alternative that is held, with its value. -/
def heldType : (ts : List Ty) → VariantVal ts → Ty
  | t :: _, .inl _ => t
  | _ :: ts, .inr v => heldType ts v

def heldVal : (ts : List Ty) → (v : VariantVal ts) → (heldType ts v).Val
  | _ :: _, .inl v => v
  | _ :: ts, .inr v => heldVal ts v

/-- The string that an enum or a std::string is sent as. -/
def text : (t : Ty) → t.Val → Bytes
  | .enum e, v => e.toString v
  | .basic .string, s => s
  | _, _ => []

theorem heldType_mem (v : VariantVal ts) : heldType ts v ∈ ts := by
  induction ts, v using variant_induct with
  | first t ts v => exact List.mem_cons_self
  | later t ts v ih => exact List.mem_cons_of_mem _ ih

/-- An alternative refuses the string of one that it can stand together with. -/
theorem refuses_text {u : Ty} {v : u.Val} (hu : u.isEnumOrString = true)
    (hd : Distinguishable t u) (ht : t.isVariant = false) (hmem : t ∈ all)
    (hn : NoEnumName all u v) : Refuses (text u v) t := by
  cases t
  case enum e =>
    intro w
    cases u
    case enum e' =>
      intro hname
      obtain ⟨hint, hname, -⟩ := toString_inj hname
      rcases hd with hd | hd | hd
      · exact hd rfl
      · exact hd hint.symm
      · exact hd hname.symm
    case basic b =>
      cases b
      case string => exact hn e hmem w
      all_goals cases hu
    all_goals cases hu
  case variant => cases ht
  all_goals trivial

theorem MayShare.symm {t u : Ty} (h : MayShare t u) : MayShare u t := by
  cases t <;> cases u
  case enum.enum => exact h.imp Ne.symm Ne.symm
  case enum.basic => exact h
  case basic.enum => exact h
  all_goals cases h

theorem Distinguishable.symm {t u : Ty} (h : Distinguishable t u) : Distinguishable u t :=
  h.imp Ne.symm MayShare.symm

theorem ne_string_of_distinguishable {t : Ty} (h : Distinguishable (.basic .string) t) :
    t ≠ .basic .string := by
  rintro rfl
  rcases h with h | h
  · exact h rfl
  · exact h

theorem storable_held {lib : LibSystemd} {v : VariantVal ts}
    (h : StorableAlternative lib all ts v) :
    Storable lib (heldType ts v) (heldVal ts v) ∧
      NoEnumName all (heldType ts v) (heldVal ts v) := by
  induction ts, v using variant_induct with
  | first t ts v => exact h
  | later t ts v ih => exact ih h

theorem process_enum {v : e.Val} {ts : List Ty} :
    process (.enum e :: ts) (e.toString v) = some (.inl v) := by
  have hfrom : convertFromString (.enum e) (e.toString v) = some v := fromString_toString v
  rw [process, hfrom]
  rfl

/-- A std::string is what is left when no other alternative takes the string. -/
theorem process_string {ts : List Ty} (h : process ts str = none) :
    process (.basic .string :: ts) str = some (.inl str) := by
  rw [process, h]
  rfl

theorem process_later {v : VariantVal ts} (ht : Refuses str t) (h : process ts str = some v) :
    process (t :: ts) str = some (.inr v) := by
  rw [process, convertFromString_none ht, h]
  rfl

/-- The first alternative takes its own string unless a later one does. -/
theorem process_first (hd : ∀ u ∈ ts, Distinguishable t u) (hv : ∀ u ∈ ts, u.isVariant = false)
    (hsub : ts ⊆ all) {v : t.Val} (ht : t.isEnumOrString = true) (hn : NoEnumName all t v) :
    process (t :: ts) (text t v) = some (.inl v) := by
  cases t
  case enum e => exact process_enum
  case basic b =>
    cases b
    case string =>
      refine process_string (process_none fun u hu => ⟨?_, ne_string_of_distinguishable (hd u hu)⟩)
      exact refuses_text rfl (Distinguishable.symm (hd u hu)) (hv u hu) (hsub hu) hn
    all_goals cases ht
  all_goals cases ht

/-- convert_from_string finds the alternative that the string was sent for. -/
theorem process_held (hd : ts.Pairwise Distinguishable) (hv : ∀ t ∈ ts, t.isVariant = false)
    (hsub : ts ⊆ all) (v : VariantVal ts) (hu : (heldType ts v).isEnumOrString = true)
    (hn : NoEnumName all (heldType ts v) (heldVal ts v)) :
    process ts (text (heldType ts v) (heldVal ts v)) = some v := by
  induction ts with
  | nil => cases v
  | cons t ts ih =>
    obtain ⟨hdt, hdts⟩ := List.pairwise_cons.mp hd
    have hvs : ∀ u ∈ ts, u.isVariant = false := fun u h => hv u (List.mem_cons_of_mem _ h)
    have hsubs : ts ⊆ all := fun u h => hsub (List.mem_cons_of_mem _ h)
    cases v with
    | inl v => exact process_first hdt hvs hsubs hu hn
    | inr v =>
      have hrefuse : Refuses (text (heldType ts v) (heldVal ts v)) t :=
        refuses_text hu (hdt _ (heldType_mem v)) (hv t List.mem_cons_self)
          (hsub List.mem_cons_self) hn
      exact process_later hrefuse (ih hdts hvs hsubs v hu hn)

end Sdbusplus.Proofs.NativeTypes
