import Sdbusplus.Message.Meaning
import Sdbusplus.Message.Read

namespace Sdbusplus.Proofs.Calls
open Message

variable {α β : Type} {m : ReadM α} {f : α → ReadM β} {a : α} {b : β} {c c' c₁ : Cursor}
  {g : Cursor → Int × α × Cursor} {r : Int} {p : Int × α} {k : Option Kind} {l : Kind}
  {sig : List Char} {t : BusType} {items body rest : List Wire}
  {outer : List (Option Kind × List Wire)} {what : String}

theorem bind_iff : (m >>= f) c = .ok (b, c') ↔
    ∃ a c₁, m c = .ok (a, c₁) ∧ f a c₁ = .ok (b, c') := by
  simp only [bind, StateT.bind]
  cases m c with
  | error e => simp [Except.bind]
  | ok p =>
    obtain ⟨x, c₁⟩ := p
    simp [Except.bind]

theorem bind_ok (h : m c = .ok (a, c')) : (m >>= f) c = f a c' := by
  simp only [bind, StateT.bind, h, Except.bind]

theorem pure_iff {x : α} : (pure a : ReadM α) c = .ok (x, c') ↔ x = a ∧ c' = c := by
  have hpure : (pure a : ReadM α) c = .ok (a, c) := rfl
  rw [hpure, Except.ok.injEq, Prod.mk.injEq]
  exact ⟨fun h => ⟨h.1.symm, h.2.symm⟩, fun h => ⟨h.1.symm, h.2.symm⟩⟩

theorem callBus_granted (h : g c = (r, a, c₁)) (hr : 0 ≤ r) :
    callBus what g c = .ok ((r, a), c₁) := by
  simp only [callBus, h, if_neg (Int.not_lt.mpr hr)]

theorem callBus_refused (h : g c = (r, a, c₁)) (hr : r < 0) :
    callBus what g c ≠ .ok (p, c') := by
  simp only [callBus, h, if_pos hr]
  exact fun heq => nomatch heq

theorem callBus_done (h : g c = (1, a, c₁)) : callBus what g c = .ok ((1, a), c₁) :=
  callBus_granted h (by simp)

theorem callBus_misplaced (h : g c = (-enxio, a, c₁)) : callBus what g c ≠ .ok (p, c') :=
  callBus_refused h (by decide)

/-- What a call that is granted does, it does. -/
theorem done_iff (h : g c = (1, a, c₁)) :
    callBus what g c = .ok (p, c') ↔ p = (1, a) ∧ c' = c₁ := by
  rw [callBus_done h]
  constructor
  · intro heq
    cases heq
    exact ⟨rfl, rfl⟩
  · intro hitems
    obtain ⟨rfl, rfl⟩ := hitems
    rfl

/-- Past the last element, but not in an array, every call is refused. -/
theorem pastEnd_refused (hk : k = some .array → ([] : List Wire) ≠ []) :
    Cursor.pastEnd ⟨k, [], outer⟩ = -enxio :=
  if_neg fun ha => hk ha rfl

theorem enter_iff {p : Int × Unit} (hk : k = some .array → items ≠ []) :
    callBus what (Cursor.enterContainer l sig) ⟨k, items, outer⟩ = .ok (p, c') ↔
      ∃ body rest, items = .container l sig body :: rest ∧
        c' = ⟨some l, body, (k, rest) :: outer⟩ ∧ p = (1, ()) := by
  constructor
  · intro hok
    cases items with
    | nil =>
      have hnil : Cursor.enterContainer l sig ⟨k, [], outer⟩ = (-enxio, (), ⟨k, [], outer⟩) := by
        rw [Cursor.enterContainer, pastEnd_refused hk]
      exact absurd hok (callBus_misplaced hnil)
    | cons item items =>
      cases item with
      | basic u d => exact absurd hok (callBus_misplaced rfl)
      | container l' sig' body =>
        by_cases hmatch : l' = l ∧ sig' = sig
        · obtain ⟨rfl, rfl⟩ := hmatch
          obtain ⟨rfl, rfl⟩ := (done_iff (if_pos ⟨rfl, rfl⟩)).mp hok
          exact ⟨body, items, rfl, rfl, rfl⟩
        · exact absurd hok (callBus_misplaced (if_neg hmatch))
  · intro hitems
    obtain ⟨body, rest, rfl, rfl, rfl⟩ := hitems
    exact callBus_done (if_pos ⟨rfl, rfl⟩)

theorem exit_iff {p : Int × Unit} :
    callBus what Cursor.exitContainer c = .ok (p, c') ↔
      c.rest = [] ∧ (∃ k rest outer, c.outer = (k, rest) :: outer ∧ c' = ⟨k, rest, outer⟩) ∧
        p = (1, ()) := by
  obtain ⟨k, items, outer⟩ := c
  constructor
  · intro hok
    cases outer with
    | nil => exact absurd hok (callBus_misplaced rfl)
    | cons level outer =>
      obtain ⟨k', rest⟩ := level
      cases items with
      | nil =>
        obtain ⟨rfl, rfl⟩ := (done_iff rfl).mp hok
        exact ⟨rfl, ⟨k', rest, outer, rfl, rfl⟩, rfl⟩
      | cons item items => exact absurd hok (callBus_refused rfl (by decide))
  · intro hitems
    obtain ⟨rfl, ⟨k, rest, outer, rfl, rfl⟩, rfl⟩ := hitems
    exact callBus_done rfl

theorem readBasic_iff {p : Int × Option t.Data} (hk : k = some .array → items ≠ []) :
    callBus what (Cursor.readBasic t) ⟨k, items, outer⟩ = .ok (p, c') ↔
      ∃ d rest, items = .basic t d :: rest ∧ p = (1, some d) ∧ c' = ⟨k, rest, outer⟩ := by
  constructor
  · intro hok
    cases items with
    | nil =>
      have hnil : Cursor.readBasic t ⟨k, [], outer⟩ = (-enxio, none, ⟨k, [], outer⟩) := by
        rw [Cursor.readBasic, pastEnd_refused hk]
      exact absurd hok (callBus_misplaced hnil)
    | cons item items =>
      cases item with
      | basic u d =>
        by_cases hu : u = t
        · subst hu
          obtain ⟨rfl, rfl⟩ := (done_iff (dif_pos rfl)).mp hok
          exact ⟨d, items, rfl, rfl, rfl⟩
        · exact absurd hok (callBus_misplaced (dif_neg hu))
      | container l sig body => exact absurd hok (callBus_misplaced rfl)
  · intro hitems
    obtain ⟨d, rest, rfl, rfl, rfl⟩ := hitems
    exact callBus_done (dif_pos rfl)

theorem atEnd_ok : callBus what Cursor.atEnd ⟨k, items, outer⟩ =
    .ok ((if items.isEmpty then 1 else 0, ()), ⟨k, items, outer⟩) :=
  callBus_granted rfl (by split <;> decide)

theorem verify_found : callBus what (Cursor.verifyType l sig)
      ⟨k, .container l sig body :: rest, outer⟩ =
    .ok ((1, ()), ⟨k, .container l sig body :: rest, outer⟩) :=
  callBus_done (by simp [Cursor.verifyType])

theorem verify_other (hne : ∀ body rest, items ≠ .container l sig body :: rest) :
    callBus what (Cursor.verifyType l sig) ⟨k, items, outer⟩ =
      .ok ((0, ()), ⟨k, items, outer⟩) := by
  refine callBus_granted ?_ (Int.le_refl 0)
  cases items with
  | nil => rfl
  | cons item items =>
    cases item with
    | basic t d => rfl
    | container l' sig' body =>
      have hno : ¬ (l' = l ∧ sig' = sig) := by
        intro hok
        obtain ⟨rfl, rfl⟩ := hok
        exact hne body items rfl
      simp only [Cursor.verifyType, if_neg hno]

theorem skip_iff {p : Int × Unit} :
    callBus what Cursor.skipVariant ⟨k, items, outer⟩ = .ok (p, c') ↔
      ∃ sig body rest, items = .container .variant sig body :: rest ∧ p = (1, ()) ∧
        c' = ⟨k, rest, outer⟩ := by
  constructor
  · intro hok
    cases items with
    | nil => exact absurd hok (callBus_misplaced rfl)
    | cons item items =>
      cases item with
      | basic t d => exact absurd hok (callBus_misplaced rfl)
      | container l sig body =>
        cases l with
        | variant =>
          obtain ⟨rfl, rfl⟩ := (done_iff rfl).mp hok
          exact ⟨sig, body, items, rfl, rfl, rfl⟩
        | array | struct | dictEntry => exact absurd hok (callBus_misplaced rfl)
  · intro hitems
    obtain ⟨sig, body, rest, rfl, rfl, rfl⟩ := hitems
    exact callBus_done rfl

theorem basics_iff {ds : List t.Data} :
    Cursor.basics t items = some ds ↔ Each (fun is d => is = [.basic t d]) items ds := by
  induction items generalizing ds with
  | nil =>
    rw [Cursor.basics, Option.some.injEq]
    constructor
    · rintro rfl
      exact .nil
    · intro h
      cases h
      rfl
  | cons item items ih =>
    constructor
    · intro h
      cases item with
      | container l sig body => cases h
      | basic u d =>
        by_cases hu : u = t
        · subst hu
          simp only [Cursor.basics, dif_pos, Option.map_eq_some_iff] at h
          obtain ⟨ds, hds, rfl⟩ := h
          exact .cons rfl (ih.mp hds)
        · simp [Cursor.basics, hu] at h
    · intro h
      cases h with
      | cons hitem hitems =>
        cases hitem
        simp [Cursor.basics, ih.mpr hitems]

theorem readArray_some {ds : List t.Data} (h : Cursor.basics t body = some ds) :
    Cursor.readArray t ⟨k, .container .array [t.code] body :: rest, outer⟩ =
      (1, (ds, ds.length * t.size), ⟨k, rest, outer⟩) := by
  simp only [Cursor.readArray, if_true, h]

theorem readArray_none (h : Cursor.basics t body = none) :
    Cursor.readArray t ⟨k, .container .array [t.code] body :: rest, outer⟩ =
      (-ebadmsg, ([], 0), ⟨k, .container .array [t.code] body :: rest, outer⟩) := by
  simp only [Cursor.readArray, if_true, h]

theorem readArray_iff {p : Int × List t.Data × Nat} (hk : k = some .array → items ≠ []) :
    callBus what (Cursor.readArray t) ⟨k, items, outer⟩ = .ok (p, c') ↔
      ∃ body ds rest, items = .container .array [t.code] body :: rest ∧
        Each (fun is d => is = [.basic t d]) body ds ∧ p = (1, ds, ds.length * t.size) ∧
        c' = ⟨k, rest, outer⟩ := by
  constructor
  · intro hok
    cases items with
    | nil =>
      have hnil : Cursor.readArray t ⟨k, [], outer⟩ = (-enxio, ([], 0), ⟨k, [], outer⟩) := by
        rw [Cursor.readArray, pastEnd_refused hk]
      exact absurd hok (callBus_misplaced hnil)
    | cons item items =>
      cases item with
      | basic u d => exact absurd hok (callBus_misplaced rfl)
      | container l sig body =>
        cases l with
        | struct | dictEntry | variant => exact absurd hok (callBus_misplaced rfl)
        | array =>
          by_cases hsig : sig = [t.code]
          · subst hsig
            cases hbody : Cursor.basics t body with
            | none => exact absurd hok (callBus_refused (readArray_none hbody) (by decide))
            | some ds =>
              obtain ⟨rfl, rfl⟩ := (done_iff (readArray_some hbody)).mp hok
              exact ⟨body, ds, items, rfl, basics_iff.mp hbody, rfl, rfl⟩
          · exact absurd hok (callBus_misplaced (if_neg hsig))
  · intro hitems
    obtain ⟨body, ds, rest, rfl, hds, rfl, rfl⟩ := hitems
    exact callBus_done (readArray_some (basics_iff.mpr hds))

end Sdbusplus.Proofs.Calls
