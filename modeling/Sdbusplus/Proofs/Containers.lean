import Sdbusplus.Message.Encoding
import Sdbusplus.Message.Containers

namespace Sdbusplus.Proofs.Containers
open Message

variable {α : Type} {h : HashOrder} {o : Order} {k : Key} {key : α → k.Val} {x : α}
  {xs ys zs : List α}

theorem doubleLess_irrefl (x : BitVec 64) : doubleLess x x = false := by
  unfold doubleLess
  cases doubleRank x <;> simp

theorem less_irrefl (x : k.Val) : k.less x x = false := by
  cases k with
  | enum e => simp [Key.less]
  | basic b _ =>
    cases b
    case double => exact doubleLess_irrefl x
    case string | stringView | cString | objectPath | signature =>
      exact decide_eq_false (List.lt_irrefl _)
    case bool =>
      have hbool : ∀ a : Bool, (!a && a) = false := by simp
      exact hbool x
    all_goals simp [Key.less, Basic.less]

theorem less_asymm {x y : k.Val} (hxy : k.less x y = true) : k.less y x = false := by
  cases hyx : k.less y x with
  | false => rfl
  | true => rw [← less_irrefl x, Key.less_trans hxy hyx]

theorem insertSorted_last {less : α → α → Bool} (h : ∀ y ∈ xs, less y x = true ∧ less x y = false) :
    insertSorted less x xs = xs ++ [x] := by
  induction xs with
  | nil => rfl
  | cons y ys ih =>
    obtain ⟨hlt, hnot⟩ := h y List.mem_cons_self
    rw [insertSorted, if_neg (by simp [hnot]), if_pos hlt,
      ih (fun z hz => h z (List.mem_cons_of_mem _ hz))]
    rfl

theorem SameElements.mem (h : o.SameElements xs ys) : x ∈ xs ↔ x ∈ ys := by
  cases o with
  | sorted => rw [show xs = ys from h]
  | hashed => exact List.Perm.mem_iff h

/-- An element that all others come before is taken in. -/
theorem emplace_last (hs : o.SameElements xs ys)
    (hx : ∀ y ∈ ys, k.apart o (key y) (key x) = true) :
    o.SameElements (emplace h o k key xs x) (ys ++ [x]) := by
  cases o with
  | sorted =>
    obtain rfl : xs = ys := hs
    exact insertSorted_last (fun y hy => ⟨hx y hy, less_asymm (hx y hy)⟩)
  | hashed =>
    have hany : xs.any (fun y => k.same (key y) (key x)) = false := by
      rw [List.any_eq_false]
      intro y hy
      simpa [Key.apart] using hx y ((SameElements.mem (o := .hashed) hs).mp hy)
    rw [emplace, hany]
    exact ((h.perm k key xs x).trans (List.Perm.cons x hs)).trans
      (List.perm_append_singleton x ys).symm

/-- Elements in iteration order, one after the other, make up the same container. -/
theorem foldl_emplace (hs : o.SameElements xs ys)
    (hp : (ys ++ zs).Pairwise (fun a b => k.apart o (key a) (key b) = true)) :
    o.SameElements (zs.foldl (emplace h o k key) xs) (ys ++ zs) := by
  induction zs generalizing xs ys with
  | nil => simpa using hs
  | cons z zs ih =>
    rw [List.append_cons] at hp ⊢
    refine ih (emplace_last hs (fun y hy => ?_)) hp
    exact (List.pairwise_append.mp (List.pairwise_append.mp hp).1).2.2 y hy z List.mem_cons_self

theorem pairwise_foldl_emplace (hxs : xs.Pairwise (fun a b => k.apart o (key a) (key b) = true)) :
    (ys.foldl (emplace h o k key) xs).Pairwise
      (fun a b => k.apart o (key a) (key b) = true) := by
  induction ys generalizing xs with
  | nil => exact hxs
  | cons y ys ih => exact ih (pairwise_emplace hxs)

end Sdbusplus.Proofs.Containers
