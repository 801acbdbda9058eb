import Mathlib.InformationTheory.Coding.UniquelyDecodable
import Mathlib.Order.Antichain

/-! Words that are read off the front of a text. -/

namespace Words
open InformationTheory

variable {α : Type*} {S : Set (List α)} {ss ts : List (List α)} {s x y : List α} {d : α}

/-- A word that is in front of a text when another word of the set is, is that word. -/
def Splits (S : Set (List α)) (s : List α) : Prop :=
  ∀ t ∈ S, ∀ x y, s ++ x = t ++ y → s = t ∧ x = y

/-- No word of the set is empty or begins with this letter. -/
def StopsAt (d : α) (S : Set (List α)) : Prop := ∀ s ∈ S, ∃ c r, s = c :: r ∧ c ≠ d

/-- Words up to a letter that none of them begins with are determined by the text. -/
theorem flatten_split (hd : StopsAt d S) (hS : ∀ s ∈ ss, s ∈ S) (hss : ∀ s ∈ ss, Splits S s)
    (hts : ∀ t ∈ ts, t ∈ S) (heq : ss.flatten ++ d :: x = ts.flatten ++ d :: y) :
    ss = ts ∧ x = y := by
  induction ss generalizing ts with
  | nil =>
    cases ts with
    | nil => exact ⟨rfl, (List.cons.inj heq).2⟩
    | cons t ts =>
      obtain ⟨c, r, rfl, hc⟩ := hd t (hts t List.mem_cons_self)
      exact absurd (List.cons.inj heq).1.symm hc
  | cons s ss ih =>
    obtain ⟨hsS, hS⟩ := List.forall_mem_cons.mp hS
    obtain ⟨hs, hss⟩ := List.forall_mem_cons.mp hss
    cases ts with
    | nil =>
      obtain ⟨c, r, rfl, hc⟩ := hd s hsS
      exact absurd (List.cons.inj heq).1 hc
    | cons t ts =>
      obtain ⟨ht, htail⟩ := List.forall_mem_cons.mp hts
      rw [List.flatten_cons, List.flatten_cons, List.append_assoc, List.append_assoc] at heq
      obtain ⟨rfl, hrest⟩ := hs t ht _ _ heq
      obtain ⟨rfl, hxy⟩ := ih hS hss htail hrest
      exact ⟨rfl, hxy⟩

theorem antichain_of_splits (h : ∀ s ∈ S, Splits S s) : IsAntichain (· <+: ·) S := by
  intro s hs t ht hne hpre
  obtain ⟨r, hr⟩ := hpre
  exact hne (h s hs t ht r [] (hr.trans (List.append_nil t).symm)).1

theorem uniquelyDecodable_of_splits (h : ∀ s ∈ S, Splits S s) (hne : [] ∉ S) :
    UniquelyDecodable S := by
  intro ss ts hss hts heq
  induction ss generalizing ts with
  | nil =>
    cases ts with
    | nil => rfl
    | cons t ts =>
      have ht : t = [] := (List.append_eq_nil_iff.mp heq.symm).1
      exact absurd (ht ▸ hts t List.mem_cons_self) hne
  | cons s ss ih =>
    obtain ⟨hs, hss⟩ := List.forall_mem_cons.mp hss
    cases ts with
    | nil =>
      have hs' : s = [] := (List.append_eq_nil_iff.mp heq).1
      exact absurd (hs' ▸ hs) hne
    | cons t ts =>
      obtain ⟨ht, htail⟩ := List.forall_mem_cons.mp hts
      obtain ⟨rfl, hrest⟩ := h s hs t ht _ _ heq
      rw [ih ts hss htail hrest]

end Words
