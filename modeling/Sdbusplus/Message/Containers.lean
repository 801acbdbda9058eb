import Sdbusplus.Message.Types

namespace Sdbusplus.Message

/-- Where a hashed container shows an element it has just taken in. -/
structure HashOrder where
  place : (k : Key) → {α : Type} → (α → k.Val) → List α → α → List α
  perm : ∀ (k : Key) {α : Type} (key : α → k.Val) (xs : List α) (x : α),
    (place k key xs x).Perm (x :: xs)

variable {α : Type} {k : Key} {o : Order}

/-- The new element's place among the sorted ones; an equivalent one keeps it out. -/
def insertSorted (less : α → α → Bool) (x : α) : List α → List α
  | [] => [x]
  | y :: ys =>
    if less x y then x :: y :: ys
    else if less y x then y :: insertSorted less x ys
    else y :: ys

/-- The elements of a set or map after emplace. -/
def emplace (h : HashOrder) (o : Order) (k : Key) (key : α → k.Val) (xs : List α) (x : α) :
    List α :=
  match o with
  | .sorted => insertSorted (fun a b => k.less (key a) (key b)) x xs
  | .hashed => if xs.any (fun y => k.same (key y) (key x)) then xs else h.place k key xs x

theorem doubleLess_trans {x y z : BitVec 64} (hxy : doubleLess x y = true)
    (hyz : doubleLess y z = true) : doubleLess x z = true := by
  unfold doubleLess at *
  cases hx : doubleRank x <;> cases hy : doubleRank y <;> cases hz : doubleRank z <;>
    simp_all
  omega

theorem textLess_trans {x y z : Bytes} (hxy : textLess x y = true) (hyz : textLess y z = true) :
    textLess x z = true := by
  simp only [textLess, decide_eq_true_eq] at *
  exact List.lt_trans hxy hyz

theorem Key.less_trans {x y z : k.Val} (hxy : k.less x y = true) (hyz : k.less y z = true) :
    k.less x z = true := by
  cases k with
  | enum e =>
    simp only [Key.less, decide_eq_true_eq] at *
    omega
  | basic b hb =>
    cases b with
    | double => exact doubleLess_trans hxy hyz
    | string | stringView | cString | objectPath | signature => exact textLess_trans hxy hyz
    | bool =>
      have hbool : ∀ a b c : Bool, (!a && b) = true → (!b && c) = true → (!a && c) = true := by
        decide
      exact hbool x y z hxy hyz
    | _ =>
      simp only [Key.less, Basic.less, decide_eq_true_eq] at *
      omega

theorem Key.same_comm (x y : k.Val) : k.same x y = k.same y x := by
  cases k with
  | enum e => simp [Key.same, eq_comm]
  | basic b hb =>
    cases b
    case double =>
      simp only [Key.same, Basic.same, doubleSame]
      cases doubleRank x <;> cases doubleRank y <;> simp [eq_comm]
    all_goals exact decide_eq_decide.mpr ⟨Eq.symm, Eq.symm⟩

theorem mem_insertSorted {less : α → α → Bool} {x y : α} {xs : List α}
    (hy : y ∈ insertSorted less x xs) : y = x ∨ y ∈ xs := by
  induction xs with
  | nil => simpa [insertSorted] using hy
  | cons z zs ih =>
    simp only [insertSorted] at hy
    split at hy
    · simpa using hy
    · split at hy
      · rcases List.mem_cons.mp hy with rfl | hy
        · exact Or.inr List.mem_cons_self
        · rcases ih hy with rfl | hy
          · exact Or.inl rfl
          · exact Or.inr (List.mem_cons_of_mem _ hy)
      · exact Or.inr hy

theorem pairwise_insertSorted {less : α → α → Bool} {x : α} {xs : List α}
    (htrans : ∀ a b c, less a b = true → less b c = true → less a c = true)
    (hxs : xs.Pairwise (fun a b => less a b = true)) :
    (insertSorted less x xs).Pairwise (fun a b => less a b = true) := by
  induction xs with
  | nil => simp [insertSorted]
  | cons y ys ih =>
    obtain ⟨hy, hys⟩ := List.pairwise_cons.mp hxs
    simp only [insertSorted]
    split
    · rename_i hlt
      refine List.pairwise_cons.mpr ⟨fun z hz => ?_, hxs⟩
      rcases List.mem_cons.mp hz with rfl | hz
      · exact hlt
      · exact htrans _ _ _ hlt (hy z hz)
    · split
      · rename_i hlt
        refine List.pairwise_cons.mpr ⟨fun z hz => ?_, ih hys⟩
        rcases mem_insertSorted hz with rfl | hz
        · exact hlt
        · exact hy z hz
      · exact hxs

/-- emplace keeps the elements of a set or map apart. -/
theorem pairwise_emplace {h : HashOrder} {key : α → k.Val} {xs : List α} {x : α}
    (hxs : xs.Pairwise (fun a b => k.apart o (key a) (key b))) :
    (emplace h o k key xs x).Pairwise (fun a b => k.apart o (key a) (key b)) := by
  cases o with
  | sorted => exact pairwise_insertSorted (fun _ _ _ => Key.less_trans) hxs
  | hashed =>
    simp only [emplace]
    split
    · exact hxs
    · rename_i hany
      simp only [List.any_eq_true, not_exists, not_and, Bool.not_eq_true] at hany
      have hsymm : ∀ a b : α, k.apart .hashed (key a) (key b) = true →
          k.apart .hashed (key b) (key a) = true := by
        intro a b hab
        simpa only [Key.apart, Key.same_comm (key b)] using hab
      refine (h.perm k key xs x).symm.pairwise ?_ (fun {a b} => hsymm a b)
      refine List.pairwise_cons.mpr ⟨fun y hy => ?_, hxs⟩
      simp only [Key.apart, Key.same_comm (key x), hany y hy, Bool.not_false]

end Sdbusplus.Message
