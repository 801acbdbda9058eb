import Mathlib.Data.List.Forall2

/-! Computations that can fail, one after the other and on each element of a list. -/

namespace Traverse

variable {α β ε : Type} {r : α → β → Prop} {as : List α} {bs : List β} {a : α} {b : β}

/-- Both computations succeed. -/
theorem bind_ok {x : Except ε α} {f : α → Except ε β} :
    (x >>= f) = .ok b ↔ ∃ a, x = .ok a ∧ f a = .ok b := by
  cases x <;> simp [bind, Except.bind]

theorem mem_left (h : List.Forall₂ r as bs) (ha : a ∈ as) : ∃ b ∈ bs, r a b := by
  induction h with
  | nil => cases ha
  | cons hr hrest ih =>
    obtain rfl | ha := List.mem_cons.mp ha
    · exact ⟨_, List.mem_cons_self, hr⟩
    · obtain ⟨b, hb, hab⟩ := ih ha
      exact ⟨b, List.mem_cons_of_mem _ hb, hab⟩

theorem mem_right (h : List.Forall₂ r as bs) (hb : b ∈ bs) : ∃ a ∈ as, r a b :=
  mem_left h.flip hb

/-- Every element is related to one exactly if the whole list is. -/
theorem exists_forall₂ : (∃ bs, List.Forall₂ r as bs) ↔ ∀ a ∈ as, ∃ b, r a b := by
  refine ⟨fun ⟨bs, h⟩ a ha => ?_, fun h => ?_⟩
  · obtain ⟨b, -, hab⟩ := mem_left h ha
    exact ⟨b, hab⟩
  · induction as with
    | nil => exact ⟨[], .nil⟩
    | cons a as ih =>
      obtain ⟨⟨b, hab⟩, hrest⟩ := List.forall_mem_cons.mp h
      obtain ⟨bs, hbs⟩ := ih hrest
      exact ⟨b :: bs, .cons hab hbs⟩

theorem mapM_iff {f : α → Except ε β} :
    as.mapM f = .ok bs ↔ List.Forall₂ (fun a b => f a = .ok b) as bs := by
  induction as generalizing bs with
  | nil =>
    rw [List.mapM_nil, List.forall₂_nil_left_iff]
    exact ⟨fun h => (Except.ok.inj h).symm, fun h => by rw [h]; rfl⟩
  | cons a as ih =>
    rw [List.mapM_cons, List.forall₂_cons_left_iff]
    simp only [bind_ok, ih]
    refine ⟨fun ⟨b, hb, rest, hrest, heq⟩ => ⟨b, rest, hb, hrest, (Except.ok.inj heq).symm⟩, ?_⟩
    rintro ⟨b, rest, hb, hrest, rfl⟩
    exact ⟨b, hb, rest, hrest, rfl⟩

/-- The list is gone through to its end exactly if nothing fails. -/
theorem mapM_ok {f : α → Except ε β} :
    (∃ bs, as.mapM f = .ok bs) ↔ ∀ a ∈ as, ∃ b, f a = .ok b := by
  simp only [mapM_iff]
  exact exists_forall₂

end Traverse
