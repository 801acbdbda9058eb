import Sdbusplus.Proofs.Calls

namespace Sdbusplus.Proofs.Exactness
open Message Proofs.Calls

variable {α β : Type} {m : ReadM α} {f : α → ReadM β} {a : α} {b : β} {c c' : Cursor}
  {D : Meaning α} {E : Meaning β} {k : Option Kind} {items rest : List Wire}
  {outer : List (Option Kind × List Wire)} {what : String}

/-- Before these elements, m succeeds just when some of them, from the first on,
stand for its result, and then it leaves the cursor behind these. -/
def Takes (m : ReadM α) (D : Meaning α) (k : Option Kind) (items : List Wire) : Prop :=
  ∀ outer a c', m ⟨k, items, outer⟩ = .ok (a, c') ↔
    ∃ is rest, items = is ++ rest ∧ D is a ∧ c' = ⟨k, rest, outer⟩

/-- The same wherever the cursor stands, but for the end of an array, where reading
is no error and an array around it could be left. -/
def Exact (m : ReadM α) (D : Meaning α) : Prop :=
  ∀ k items, (k = some .array → items ≠ []) → Takes m D k items

/-- In a container with these contents, m succeeds and comes to the end of it just
when they stand for the result. -/
def Fills (m : ReadM α) (D : Meaning α) (k : Kind) : Prop :=
  ∀ items outer a c', m ⟨some k, items, outer⟩ = .ok (a, c') ∧ c'.rest = [] ↔
    D items a ∧ c' = ⟨some k, [], outer⟩

theorem Takes.pure : Takes (pure a) (fun is x => is = [] ∧ x = a) k items := by
  intro outer x c'
  rw [pure_iff]
  constructor
  · intro hrun
    obtain ⟨rfl, rfl⟩ := hrun
    exact ⟨[], items, rfl, ⟨rfl, rfl⟩, rfl⟩
  · intro hmeans
    obtain ⟨_, rest, rfl, ⟨rfl, rfl⟩, rfl⟩ := hmeans
    exact ⟨rfl, rfl⟩

theorem Takes.bind {E : α → Meaning β} (h : Takes m D k items)
    (h' : ∀ a rest, Takes (f a) (E a) k rest) :
    Takes (m >>= f) (fun is b => ∃ i j a, is = i ++ j ∧ D i a ∧ E a j b) k items := by
  intro outer b c'
  rw [bind_iff]
  constructor
  · intro hrun
    obtain ⟨a, c₁, hm, hf⟩ := hrun
    obtain ⟨i, rest, rfl, hD, rfl⟩ := (h outer a c₁).mp hm
    obtain ⟨j, rest, rfl, hE, rfl⟩ := (h' a _ outer b c').mp hf
    exact ⟨i ++ j, rest, (List.append_assoc i j rest).symm, ⟨i, j, a, rfl, hD, hE⟩, rfl⟩
  · intro hmeans
    obtain ⟨_, rest, hitems, ⟨i, j, a, rfl, hD, hE⟩, rfl⟩ := hmeans
    rw [List.append_assoc] at hitems
    exact ⟨a, ⟨k, j ++ rest, outer⟩, (h outer a _).mpr ⟨i, j ++ rest, hitems, hD, rfl⟩,
      (h' a _ outer b _).mpr ⟨j, rest, rfl, hE, rfl⟩⟩

/-- Only what can be a part of the elements from the first on matters. -/
theorem Takes.congr_part {D' : Meaning α} (h : Takes m D k items)
    (hD : ∀ is rest a, items = is ++ rest → (D is a ↔ D' is a)) : Takes m D' k items := by
  intro outer a c'
  rw [h outer a c']
  constructor
  · intro hrun
    obtain ⟨is, rest, heq, hm, rfl⟩ := hrun
    exact ⟨is, rest, heq, (hD is rest a heq).mp hm, rfl⟩
  · intro hmeans
    obtain ⟨is, rest, heq, hm, rfl⟩ := hmeans
    exact ⟨is, rest, heq, (hD is rest a heq).mpr hm, rfl⟩

theorem Takes.congr {D' : Meaning α} (h : Takes m D k items) (hD : ∀ is a, D is a ↔ D' is a) :
    Takes m D' k items :=
  h.congr_part fun is _ a _ => hD is a

theorem Exact.congr {D' : Meaning α} (h : Exact m D) (hD : ∀ is a, D is a ↔ D' is a) :
    Exact m D' :=
  fun k items hk => (h k items hk).congr hD

/-- A result that is computed from what was read. -/
theorem Takes.map {g : α → β} (h : Takes m D k items) :
    Takes (m >>= fun x => Pure.pure (g x)) (fun is b => ∃ a, D is a ∧ b = g a) k items := by
  refine (h.bind fun a rest => Takes.pure).congr fun is b => ?_
  constructor
  · intro hrun
    obtain ⟨i, _, a, rfl, hD, rfl, rfl⟩ := hrun
    exact ⟨a, (List.append_nil i).symm ▸ hD, rfl⟩
  · intro hmeans
    obtain ⟨a, hD, rfl⟩ := hmeans
    exact ⟨is, [], a, (List.append_nil is).symm, hD, rfl, rfl⟩

theorem Takes.fills {k : Kind} (h : ∀ items, Takes m D (some k) items) : Fills m D k := by
  intro items outer a c'
  rw [h items outer a c']
  constructor
  · intro hrun
    obtain ⟨⟨is, rest, rfl, hD, rfl⟩, rfl⟩ := hrun
    exact ⟨(List.append_nil is).symm ▸ hD, rfl⟩
  · intro hmeans
    obtain ⟨hD, rfl⟩ := hmeans
    exact ⟨⟨items, [], (List.append_nil items).symm, hD, rfl⟩, rfl⟩

theorem Exact.takes (h : Exact m D) (hk : k ≠ some .array) (items : List Wire) :
    Takes m D k items :=
  h k items fun ha => absurd ha hk

theorem Exact.fills {k : Kind} (h : Exact m D) (hk : k ≠ .array) : Fills m D k :=
  Takes.fills (h.takes fun ha => hk (Option.some.inj ha))

theorem Takes.both {first : ReadM α} {second : ReadM β} (h : Takes first D k items)
    (h' : ∀ rest, Takes second E k rest) :
    Takes (do
      let a ← first
      let b ← second
      Pure.pure (a, b)) (Both D E) k items := by
  refine (h.bind fun a rest => (h' rest).map).congr fun is p => ?_
  constructor
  · intro hrun
    obtain ⟨i, j, a, rfl, hD, b, hE, rfl⟩ := hrun
    exact ⟨i, j, rfl, hD, hE⟩
  · intro hmeans
    obtain ⟨i, j, rfl, hD, hE⟩ := hmeans
    exact ⟨i, j, p.1, rfl, hD, p.2, hE, rfl⟩

/-- A container is read when what is inside reads all of its contents. -/
theorem Fills.container {l : Kind} {sig : List Char} (h : Fills m D l) :
    Exact (readContainer what l sig m) (Inside l sig D) := by
  intro k items hk outer a c'
  unfold readContainer
  simp only [bind_iff, pure_iff, enter_iff hk, exit_iff]
  constructor
  · intro hrun
    obtain ⟨_, _, ⟨body, rest, rfl, rfl, -⟩, x, c₁, hm, _, _, hexit, rfl, rfl⟩ := hrun
    obtain ⟨hend, ⟨_, _, _, hlevel, rfl⟩, -⟩ := hexit
    obtain ⟨hD, rfl⟩ := (h body _ a c₁).mp ⟨hm, hend⟩
    cases hlevel
    exact ⟨[_], rest, rfl, ⟨body, rfl, hD⟩, rfl⟩
  · intro hmeans
    obtain ⟨_, rest, rfl, ⟨body, rfl, hD⟩, rfl⟩ := hmeans
    obtain ⟨hm, hend⟩ := (h body ((k, rest) :: outer) a _).mpr ⟨hD, rfl⟩
    exact ⟨_, _, ⟨body, rest, rfl, rfl, rfl⟩, a, _, hm, _, _,
      ⟨hend, ⟨_, _, _, rfl, rfl⟩, rfl⟩, rfl, rfl⟩

section loops

variable {element : ReadM α} {push : β → α → β} {b' : β} {n : Nat}

/-- One round of a loop that reads an element and takes it in. -/
def takeIn (element : ReadM α) (push : β → α → β) (b : β) : ReadM β := do
  let s ← element
  pure (push b s)

theorem readWhile_end {step : β → ReadM β} :
    readWhile what step (n + 1) b ⟨k, [], outer⟩ = .ok (b, ⟨k, [], outer⟩) := by
  rw [readWhile, bind_iff]
  exact ⟨_, _, atEnd_ok, rfl⟩

theorem readWhile_next {step : β → ReadM β} {item : Wire} :
    readWhile what step (n + 1) b ⟨k, item :: items, outer⟩ = .ok (b', c') ↔
      (step b >>= readWhile what step n) ⟨k, item :: items, outer⟩ = .ok (b', c') := by
  rw [readWhile, bind_iff]
  constructor
  · intro hrun
    obtain ⟨_, _, hend, hstep⟩ := hrun
    cases atEnd_ok.symm.trans hend
    exact hstep
  · intro hstep
    exact ⟨_, _, atEnd_ok, hstep⟩

/-- The loop takes in the elements of an array one after the other, and ends. -/
theorem readWhile_iff (h : Exact element D) (hone : ∀ is a, D is a → ∃ i, is = [i])
    (hn : items.length < n) :
    readWhile what (takeIn element push) n b ⟨some .array, items, outer⟩ = .ok (b', c') ↔
      TakenIn D push b items b' ∧ c' = ⟨some .array, [], outer⟩ := by
  obtain ⟨n, rfl⟩ : ∃ j, n = j + 1 := ⟨n - 1, by omega⟩
  induction items generalizing n b with
  | nil =>
    rw [readWhile_end]
    constructor
    · intro heq
      cases heq
      exact ⟨⟨[], .nil, rfl⟩, rfl⟩
    · intro hmeans
      obtain ⟨⟨as, has, rfl⟩, rfl⟩ := hmeans
      cases has
      rfl
  | cons item items ih =>
    obtain ⟨n, rfl⟩ : ∃ j, n = j + 1 := ⟨n - 1, by simp at hn; omega⟩
    have hitem := h (some .array) (item :: items) (fun _ => List.cons_ne_nil _ _)
    rw [readWhile_next, bind_iff]
    constructor
    · intro hrun
      obtain ⟨_, c₁, hstep, hrest⟩ := hrun
      obtain ⟨is, rest, heq, ⟨a, hD, rfl⟩, rfl⟩ := (hitem.map outer _ _).mp hstep
      obtain ⟨i, rfl⟩ := hone is a hD
      cases heq
      obtain ⟨⟨as, has, rfl⟩, rfl⟩ := (ih n (by simpa using hn)).mp hrest
      exact ⟨⟨a :: as, .cons hD has, rfl⟩, rfl⟩
    · intro hmeans
      obtain ⟨⟨as, has, rfl⟩, rfl⟩ := hmeans
      cases has with
      | cons hD has =>
        rename_i a as
        refine ⟨push b a, ⟨some .array, items, outer⟩, ?_, ?_⟩
        · exact (hitem.map outer _ _).mpr ⟨[item], items, rfl, ⟨a, hD, rfl⟩, rfl⟩
        · exact (ih n (by simpa using hn)).mpr ⟨⟨as, has, rfl⟩, rfl⟩

theorem readUntilEnd_fills (h : Exact element D) (hone : ∀ is a, D is a → ∃ i, is = [i]) :
    Fills (readUntilEnd what (takeIn element push) b) (TakenIn D push b) .array := by
  intro items outer b' c'
  rw [readUntilEnd, readWhile_iff h hone (Nat.lt_succ_self _)]
  exact ⟨And.left, fun hD => ⟨hD, by rw [hD.2]⟩⟩

/-- A loop whose body takes nothing does not get to the end of what there is. -/
theorem readWhile_stuck {x : α} (h : ∀ c, element c = .ok (x, c)) (item : Wire) :
    readWhile what (takeIn element push) n b ⟨k, item :: items, outer⟩ ≠ .ok (b', c') := by
  induction n generalizing b with
  | zero => simp [readWhile, raise]
  | succ n ih =>
    rw [Ne, readWhile_next, bind_iff]
    intro hrun
    obtain ⟨_, _, hstep, hrest⟩ := hrun
    obtain ⟨_, _, hx, heq⟩ := bind_iff.mp hstep
    cases (h _).symm.trans hx
    cases heq
    exact ih hrest

theorem readUntilEnd_stuck {x : α} (h : ∀ c, element c = .ok (x, c)) :
    Fills (readUntilEnd what (takeIn element push) b) (TakenIn (fun is _ => is = []) push b)
      .array := by
  intro items outer b' c'
  cases items with
  | nil =>
    rw [readUntilEnd, readWhile_end]
    constructor
    · intro hrun
      obtain ⟨heq, -⟩ := hrun
      cases heq
      exact ⟨⟨[], .nil, rfl⟩, rfl⟩
    · intro hmeans
      obtain ⟨⟨as, has, rfl⟩, rfl⟩ := hmeans
      cases has
      exact ⟨rfl, rfl⟩
  | cons item items =>
    constructor
    · intro hrun
      obtain ⟨heq, -⟩ := hrun
      exact absurd heq (readWhile_stuck h item)
    · intro hmeans
      obtain ⟨⟨as, has, -⟩, -⟩ := hmeans
      cases has with
      | cons hnil _ => cases hnil

end loops

end Sdbusplus.Proofs.Exactness
