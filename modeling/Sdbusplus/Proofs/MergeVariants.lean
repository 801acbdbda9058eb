import Sdbusplus.Base.Distinct
import Sdbusplus.Utility.MergeVariants

namespace Sdbusplus.Proofs.MergeVariants
open Distinct Utility

variable {α : Type} [DecidableEq α] {a b c t : α} {v : Variant α} {xs ys types : List α}

/-! ## What the recursions make -/

omit [DecidableEq α] in
theorem alternatives_push (v : Variant α) (a : α) :
    (v.push a).alternatives = v.alternatives ++ [a] := rfl

/-- The types that are done stay in front without repetitions. -/
theorem dedupFrom_alternatives (h : v.alternatives = xs.eraseDups) (ys : List α) :
    (Details.dedupVariant v ys).alternatives = (xs ++ ys).eraseDups := by
  induction ys generalizing v xs with
  | nil => rw [Details.dedupVariant, h, List.append_nil]
  | cons a ys ih =>
    have hany : v.alternatives.any (fun d => a = d) = true ↔ a ∈ xs := by
      simp [h]
    rw [Details.dedupVariant, List.append_cons]
    by_cases ha : a ∈ xs
    · rw [if_pos (hany.mpr ha)]
      apply ih
      rw [h, eraseDups_concat, if_pos ha]
    · rw [if_neg (fun hno => ha (hany.mp hno))]
      apply ih
      rw [alternatives_push, h, eraseDups_concat, if_neg ha]

theorem dedup_alternatives (t : α) (types : List α) :
    (dedupVariant t types).alternatives = (t :: types).eraseDups :=
  @dedupFrom_alternatives α _ ⟨t, []⟩ [t] rfl types

/-- All the alternatives in their order. -/
def listed (vs : List (Variant α)) : List α := vs.flatMap Variant.alternatives

theorem merge_from (h : v.alternatives = xs.eraseDups) (vs : List (Variant α)) :
    (mergeVariants v vs).alternatives = (xs ++ listed vs).eraseDups := by
  induction vs generalizing v xs with
  | nil => rw [mergeVariants, h, listed, List.flatMap_nil, List.append_nil]
  | cons next vs ih =>
    have hstep : (v.alternatives ++ next.alternatives).eraseDups =
        (xs ++ next.alternatives).eraseDups := by
      rw [h, eraseDups_front]
    obtain ⟨d, done⟩ := v
    rw [mergeVariants, listed, List.flatMap_cons, ← List.append_assoc]
    apply ih
    rw [dedup_alternatives]
    exact hstep

theorem merge_alternatives (first next : Variant α) (rest : List (Variant α)) :
    (mergeVariants first (next :: rest)).alternatives =
      (listed (first :: next :: rest)).eraseDups := by
  obtain ⟨d, done⟩ := first
  rw [mergeVariants, merge_from (dedup_alternatives d (done ++ next.alternatives)), listed, listed,
    List.flatMap_cons, List.flatMap_cons, ← List.append_assoc]
  rfl

omit [DecidableEq α] in
theorem eq_of_alternatives {v w : Variant α} (h : v.alternatives = w.alternatives) : v = w := by
  obtain ⟨hd, hdone⟩ := List.cons.inj h
  cases v
  cases w
  simp_all

theorem dedup_again (t : α) (types : List α) :
    dedupVariant (dedupVariant t types).d (dedupVariant t types).done = dedupVariant t types := by
  apply eq_of_alternatives
  have hdone := dedup_alternatives t types
  rw [dedup_alternatives]
  exact (congrArg List.eraseDups hdone).trans ((eraseDups_twice _).trans hdone.symm)

theorem merge_left (a b c : Variant α) :
    mergeVariants (mergeVariants a [b]) [c] = mergeVariants a [b, c] := by
  apply eq_of_alternatives
  rw [merge_alternatives, merge_alternatives, listed, List.flatMap_cons, merge_alternatives,
    eraseDups_front]
  simp [listed]

theorem merge_right (a b c : Variant α) :
    mergeVariants a [mergeVariants b [c]] = mergeVariants a [b, c] := by
  apply eq_of_alternatives
  have hinner : listed [a, mergeVariants b [c]] = a.alternatives ++ (listed [b, c]).eraseDups := by
    rw [listed, List.flatMap_cons, List.flatMap_singleton, merge_alternatives]
  rw [merge_alternatives, merge_alternatives, hinner, eraseDups_back]
  rfl

/-- The merged variant has every alternative once, in the order of the first occurrences. -/
theorem variants_merge (α : Type) [DecidableEq α] :
    (∀ (first next : Variant α) rest,
      (mergeVariants first (next :: rest)).alternatives =
        (listed (first :: next :: rest)).eraseDups ∧
      (mergeVariants first (next :: rest)).alternatives.Nodup ∧
      (∀ x, x ∈ (mergeVariants first (next :: rest)).alternatives ↔
        ∃ v ∈ first :: next :: rest, x ∈ v.alternatives) ∧
      ∀ x ∈ listed (first :: next :: rest), ∀ y ∈ listed (first :: next :: rest),
        ((mergeVariants first (next :: rest)).alternatives.idxOf x <
          (mergeVariants first (next :: rest)).alternatives.idxOf y ↔
        (listed (first :: next :: rest)).idxOf x < (listed (first :: next :: rest)).idxOf y)) ∧
    (∀ (t : α) types,
      dedupVariant (dedupVariant t types).d (dedupVariant t types).done = dedupVariant t types) ∧
    ∀ a b c : Variant α,
      mergeVariants (mergeVariants a [b]) [c] = mergeVariants a [mergeVariants b [c]] ∧
      mergeVariants a [mergeVariants b [c]] = mergeVariants a [b, c] := by
  refine ⟨fun first next rest => ?_, dedup_again, fun a b c => ?_⟩
  · rw [merge_alternatives]
    refine ⟨rfl, nodup_eraseDups _, fun x => ?_, fun x hx y hy => idxOf_eraseDups hx hy⟩
    rw [List.mem_eraseDups, listed, List.mem_flatMap]
  · exact ⟨(merge_left a b c).trans (merge_right a b c).symm, merge_right a b c⟩

end Sdbusplus.Proofs.MergeVariants
