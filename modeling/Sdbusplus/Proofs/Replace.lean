import Sdbusplus.Base.Replacement
import Sdbusplus.Tools.Interface

namespace Sdbusplus.Proofs.Replace
open Replacement Tools.Property

variable {old new text a b : Text} {c : Char}

theorem replaceFrom_skip (n : Nat) :
    replaceFrom old new n text = replaceFrom old new 0 (text.drop n) := by
  induction text generalizing n with
  | nil => cases n <;> simp [replaceFrom]
  | cons c cs ih =>
    cases n with
    | zero => rfl
    | succ n => rw [replaceFrom, ih, List.drop_succ_cons]

/-- str.replace goes from left to right and replaces what it finds. -/
theorem replaced_replace (hne : old ≠ []) : Replaced old new text (replace old new text) := by
  unfold replace
  induction hlen : text.length using Nat.strong_induction_on generalizing text with
  | _ n ih =>
    cases text with
    | nil => exact .nil
    | cons c cs =>
      rw [replaceFrom]
      by_cases hp : old <+: c :: cs
      · obtain ⟨rest, hrest⟩ := hp
        obtain ⟨d, ds, rfl⟩ := List.exists_cons_of_ne_nil hne
        rw [List.cons_append] at hrest
        obtain ⟨rfl, rfl⟩ := List.cons.inj hrest
        have hprefix : (d :: ds).isPrefixOf (d :: (ds ++ rest)) = true := by simp
        have hdrop : (ds ++ rest).drop ((d :: ds).length - 1) = rest := by simp
        have hlt : rest.length < n := by
          simp only [List.length_cons, List.length_append] at hlen
          omega
        rw [if_pos hprefix, replaceFrom_skip, hdrop]
        exact .here (ih _ hlt rfl)
      · rw [if_neg (by simpa using hp)]
        exact .next c hp (ih _ (by simp only [List.length_cons] at hlen; omega) rfl)

theorem replace_append (hne : old ≠ []) (rest : Text) :
    replace old new (old ++ rest) = new ++ replace old new rest :=
  (replaced_replace hne).unique hne (.here (replaced_replace hne))

theorem contains_iff {part : Text} : contains text part = true ↔ part <:+: text := by
  simp [contains]

theorem parentName_append (hb : '.' ∉ b) : parentName (a ++ '.' :: b) = a := by
  rw [parentName, List.splitOn_append_cons_self, List.splitOn_eq_singleton hb,
    List.dropLast_concat]
  exact List.intercalate_splitOn '.'

/-! ## "self." -/

def self : Text := "self".toList

def selfDot : Text := "self.".toList

/-- "self." is in no other place of the text than its front. -/
def LeadingOnly (text : Text) : Prop :=
  ∀ before after, text = before ++ (selfDot ++ after) → before = []

/-- Two occurrences do not overlap. -/
theorem later_occurrence {tail : Text} (hne : a ≠ []) (h : selfDot ++ tail = a ++ (selfDot ++ b)) :
    selfDot <:+: tail := by
  obtain ⟨d, rfl, hd⟩ | ⟨d, hd, htail⟩ := List.append_eq_append_iff.mp h
  · exact ⟨d, b, by rw [hd, List.append_assoc]⟩
  · cases d with
    | nil => exact ⟨[], b, by simpa using htail⟩
    | cons x d =>
      obtain ⟨y, a, rfl⟩ := List.exists_cons_of_ne_nil hne
      have hx : x = 's' := (List.cons.inj htail).1.symm
      have hmem : x ∈ selfDot.tail := by
        rw [hd]
        simp
      rw [hx] at hmem
      simp [selfDot] at hmem

theorem leadingOnly_front {tail : Text} :
    LeadingOnly (selfDot ++ tail) ↔ ¬ selfDot <:+: tail := by
  refine ⟨fun hlead => ?_, fun habsent before after heq => ?_⟩
  · rintro ⟨before, after, heq⟩
    have hfront := hlead (selfDot ++ before) after (by simp [← heq])
    exact absurd (List.append_eq_nil_iff.mp hfront).1 (by simp [selfDot])
  · by_contra hne
    exact habsent (later_occurrence hne heq)

theorem leadingOnly_other (h : ¬ selfDot <+: text) :
    LeadingOnly text ↔ ¬ selfDot <:+: text := by
  refine ⟨fun hlead => ?_, fun habsent before after heq => ?_⟩
  · rintro ⟨before, after, heq⟩
    have hfront := hlead before after (by simp [← heq])
    exact h ⟨after, by simpa [hfront] using heq⟩
  · exact absurd ⟨before, after, by simp [heq]⟩ habsent

theorem self_of_dot {name : Text} (h : name ++ ".".toList = selfDot) : name = self :=
  List.append_inj_left' (h.trans rfl : name ++ ".".toList = self ++ ".".toList) rfl

/-- The text behind a leading "self." stays as it is if there is no other one. -/
theorem expand_front_iff {name tail : Text} :
    replace selfDot (name ++ ".".toList) (selfDot ++ tail) = name ++ ".".toList ++ tail ↔
      ¬ selfDot <:+: tail ∨ name = self := by
  have hne : selfDot ≠ [] := by simp [selfDot]
  rw [replace_append hne, List.append_cancel_left_eq, (replaced_replace hne).self_iff hne]
  refine or_congr_right ⟨self_of_dot, fun h => ?_⟩
  rw [h]
  rfl

end Sdbusplus.Proofs.Replace
