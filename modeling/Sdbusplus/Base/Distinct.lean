import Mathlib.Data.List.Induction
import Mathlib.Data.List.Nodup

/-! A list without the repetitions in it, in the order of the first occurrences. -/

namespace Distinct

variable {α : Type} [DecidableEq α] {a b c : α} {xs ys : List α}

theorem eraseDups_concat (xs : List α) (a : α) :
    (xs ++ [a]).eraseDups = if a ∈ xs then xs.eraseDups else xs.eraseDups ++ [a] := by
  rw [List.eraseDups_append]
  by_cases h : a ∈ xs
  · simp [List.removeAll, h]
  · simp [List.removeAll, h, List.eraseDups_cons]

theorem nodup_eraseDups (xs : List α) : xs.eraseDups.Nodup := by
  induction xs using List.reverseRecOn with
  | nil => simp
  | append_singleton xs a ih =>
    rw [eraseDups_concat]
    split
    case isTrue h => exact ih
    case isFalse h =>
      rw [List.nodup_append]
      refine ⟨ih, List.nodup_singleton a, fun b hb c hc => ?_⟩
      rw [List.mem_singleton.mp hc]
      rintro rfl
      exact h (List.mem_eraseDups.mp hb)

theorem idxOf_last (h : c ∉ xs) : (xs ++ [c]).idxOf c = xs.length := by
  rw [List.idxOf_append, if_neg h, List.idxOf_cons_self, Nat.zero_add]

theorem idxOf_before (h : a ∈ xs) : (xs ++ ys).idxOf a = xs.idxOf a := by
  rw [List.idxOf_append, if_pos h]

/-- Only what was there before counts. -/
theorem eraseDups_same (h : ∀ a, a ∈ xs ↔ a ∈ ys) (heq : xs.eraseDups = ys.eraseDups)
    (types : List α) : (xs ++ types).eraseDups = (ys ++ types).eraseDups := by
  induction types using List.reverseRecOn with
  | nil => simpa using heq
  | append_singleton types a ih =>
    rw [← List.append_assoc, ← List.append_assoc, eraseDups_concat, eraseDups_concat, ih]
    simp [h]

theorem eraseDups_twice (xs : List α) : xs.eraseDups.eraseDups = xs.eraseDups := by
  induction xs using List.reverseRecOn with
  | nil => rfl
  | append_singleton xs a ih =>
    rw [eraseDups_concat]
    split
    case isTrue h => exact ih
    case isFalse h =>
      rw [eraseDups_concat, ih, if_neg]
      exact fun hmem => h (List.mem_eraseDups.mp hmem)

theorem eraseDups_front (xs ys : List α) : (xs.eraseDups ++ ys).eraseDups = (xs ++ ys).eraseDups :=
  eraseDups_same (fun _ => List.mem_eraseDups) (eraseDups_twice xs) ys

theorem eraseDups_back (xs ys : List α) :
    (xs ++ ys.eraseDups).eraseDups = (xs ++ ys).eraseDups := by
  induction ys using List.reverseRecOn with
  | nil => rfl
  | append_singleton ys a ih =>
    rw [← List.append_assoc, eraseDups_concat, eraseDups_concat]
    by_cases ha : a ∈ ys
    · rw [if_pos ha, if_pos (List.mem_append_right xs ha), ih]
    · rw [if_neg ha, ← List.append_assoc, eraseDups_concat, ih]
      simp

/-- An element that is added behind the others comes after all of them. -/
theorem idxOf_concat_lt (hc : c ∉ xs) (hb : b ∈ xs ++ [c]) :
    (xs ++ [c]).idxOf a < (xs ++ [c]).idxOf b ↔ a ∈ xs ∧ (b ∈ xs → xs.idxOf a < xs.idxOf b) := by
  have hle : (xs ++ [c]).idxOf b ≤ xs.length := by
    have hlt := List.idxOf_lt_length_iff.mpr hb
    rw [List.length_append, List.length_singleton] at hlt
    omega
  by_cases ha : a ∈ xs
  · rw [idxOf_before ha]
    by_cases hbx : b ∈ xs
    · simp [idxOf_before hbx, ha, hbx]
    · obtain rfl := List.mem_singleton.mp ((List.mem_append.mp hb).resolve_left hbx)
      rw [idxOf_last hc]
      exact iff_of_true (List.idxOf_lt_length_iff.mpr ha) ⟨ha, fun h => absurd h hc⟩
  · rw [List.idxOf_append, if_neg ha]
    exact iff_of_false (by omega) (fun h => ha h.1)

/-- What is left has the order of the first occurrences. -/
theorem idxOf_eraseDups (ha : a ∈ xs) (hb : b ∈ xs) :
    xs.eraseDups.idxOf a < xs.eraseDups.idxOf b ↔ xs.idxOf a < xs.idxOf b := by
  induction xs using List.reverseRecOn with
  | nil => cases ha
  | append_singleton xs c ih =>
    rw [eraseDups_concat]
    split
    case isTrue hc =>
      have hmem : ∀ x ∈ xs ++ [c], x ∈ xs := by
        intro x hx
        obtain hx | hx := List.mem_append.mp hx
        · exact hx
        · exact List.mem_singleton.mp hx ▸ hc
      rw [idxOf_before (hmem a ha), idxOf_before (hmem b hb)]
      exact ih (hmem a ha) (hmem b hb)
    case isFalse hc =>
      have hc' : c ∉ xs.eraseDups := fun h => hc (List.mem_eraseDups.mp h)
      have hb' : b ∈ xs.eraseDups ++ [c] := by
        rw [List.mem_append, List.mem_eraseDups]
        exact List.mem_append.mp hb
      rw [idxOf_concat_lt hc hb, idxOf_concat_lt hc' hb', List.mem_eraseDups, List.mem_eraseDups]
      exact and_congr_right fun hax => forall_congr' fun hbx => ih hax hbx

end Distinct
