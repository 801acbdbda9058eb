import Sdbusplus.Base.Machine

/-! Reference-counted cells and objects that each hold at most one of them. A reference that
is taken or given back after a cell was freed is a fault. -/

/-- The count of each cell, zero when it is freed or not made yet; the next cell; the objects
with what they hold, none once they are destroyed; and how many references to each cell no
object holds. -/
structure Holders where
  counts : Nat → Nat
  next : Nat
  faulted : Bool
  objects : List (Option (Option Nat))
  loose : Nat → Nat

namespace Holders

/-- What a program does to them, unless it is none that could run there. -/
abbrev Program := StateT Holders Option

def setCount (s : Holders) (a n : Nat) : Holders :=
  { s with counts := fun b => if b = a then n else s.counts b }

def incref (s : Holders) : Option Nat → Holders
  | none => s
  | some a => if s.counts a = 0 then { s with faulted := true } else s.setCount a (s.counts a + 1)

def decref (s : Holders) : Option Nat → Holders
  | none => s
  | some a => if s.counts a = 0 then { s with faulted := true } else s.setCount a (s.counts a - 1)

/-- One if this is the cell. -/
def one (p : Option Nat) (a : Nat) : Nat := if p = some a then 1 else 0

def addLoose (s : Holders) (p : Option Nat) : Holders :=
  { s with loose := fun a => s.loose a + one p a }

/-- The reference is no longer loose. -/
def takeLoose (s : Holders) : Option Nat → Option Holders
  | none => some s
  | some a =>
    if s.loose a = 0 then none else some { s with loose := fun b => s.loose b - one (some a) b }

def setObject (s : Holders) (i : Nat) (x : Option (Option Nat)) : Holders :=
  { s with objects := s.objects.set i x }

/-- What an object that is there holds. -/
def held (s : Holders) (i : Nat) : Option (Option Nat) := (s.objects[i]?).join

/-- A new cell with one reference. -/
def create : Program (Option Nat) := fun s =>
  some (some s.next, ({ s.setCount s.next 1 with next := s.next + 1 }).addLoose (some s.next))

/-- A reference of its own to what an object holds. -/
def share (i : Nat) : Program (Option Nat) := fun s => do
  let p ← s.held i
  some (p, (s.incref p).addLoose p)

/-- A reference of its own to a cell that is kept alive by another. -/
def borrow (a : Nat) : Program (Option Nat) := fun s =>
  if s.counts a = 0 then none else some (some a, (s.incref (some a)).addLoose (some a))

/-- A new object that holds a reference. -/
def construct (p : Option Nat) : Program Unit := fun s => do
  let s ← s.takeLoose p
  some ((), { s with objects := s.objects ++ [some p] })

/-- An object gives up its reference without giving it back. -/
def release (i : Nat) : Program (Option Nat) := fun s => do
  let p ← s.held i
  some (p, (s.setObject i (some none)).addLoose p)

/-- An object takes a reference and gives the one back that it had. -/
def reset (i : Nat) (p : Option Nat) : Program Unit := fun s => do
  let old ← s.held i
  let s ← s.takeLoose p
  some ((), (s.setObject i (some p)).decref old)

def destroy (i : Nat) : Program Unit := fun s => do
  let old ← s.held i
  some ((), (s.setObject i none).decref old)

/-- A loose reference is given back. -/
def drop (a : Nat) : Program Unit := fun s => do
  let s ← s.takeLoose (some a)
  some ((), s.decref (some a))

def empty : Holders := ⟨fun _ => 0, 0, false, [], fun _ => 0⟩

section invariants

variable {s t : Holders} {p : Option Nat} {a b i : Nat} {α β : Type}

/-- How many references there are to a cell. -/
def references (s : Holders) (a : Nat) : Nat :=
  s.objects.count (some (some a)) + s.loose a

/-- No fault, and a count for each cell that is the number of its references. -/
structure Correct (s : Holders) : Prop where
  sound : s.faulted = false
  counted : ∀ a, s.counts a = s.references a
  made : ∀ a, s.next ≤ a → s.counts a = 0

/-- No cell has two references. -/
def Single (s : Holders) : Prop := ∀ a, s.counts a ≤ 1

variable {P : Holders → Prop}

/-- What a program keeps, if it can run. -/
def Keeps (P : Holders → Prop) (x : Program α) : Prop := ∀ s a t, P s → x s = some (a, t) → P t

theorem Keeps.pure {x : α} : Keeps P (pure x) := by
  intro s a t hs h
  obtain ⟨-, rfl⟩ := Prod.mk.inj (Option.some.inj h)
  exact hs

theorem Keeps.bind {x : Program α} {f : α → Program β} (hx : Keeps P x)
    (hf : ∀ a, Keeps P (f a)) : Keeps P (x >>= f) := by
  intro s b t hs h
  obtain ⟨⟨a, u⟩, hxs, hfu⟩ := Option.bind_eq_some_iff.mp h
  exact hf a u b t (hx s a u hs hxs) hfu

theorem correct_empty : Correct empty := ⟨rfl, fun _ => rfl, fun _ _ => rfl⟩

theorem held_iff : s.held i = some p ↔ s.objects[i]? = some (some p) := by
  unfold held
  cases s.objects[i]? <;> simp

theorem takeLoose_eq (h : s.takeLoose p = some t) :
    t = { s with loose := t.loose } ∧ ∀ a, t.loose a + one p a = s.loose a := by
  cases p with
  | none =>
    obtain rfl := Option.some.inj h
    exact ⟨rfl, fun a => rfl⟩
  | some b =>
    by_cases hb : s.loose b = 0
    · have hnone : s.takeLoose (some b) = none := if_pos hb
      cases hnone.symm.trans h
    · have hsome : s.takeLoose (some b) =
          some { s with loose := fun c => s.loose c - one (some b) c } := if_neg hb
      obtain rfl := Option.some.inj (hsome.symm.trans h)
      refine ⟨rfl, fun a => ?_⟩
      change s.loose a - one (some b) a + one (some b) a = s.loose a
      unfold one
      split
      · rename_i heq
        obtain rfl := Option.some.inj heq
        omega
      · rfl

theorem count_setObject {old : Option Nat} {x : Option (Option Nat)} (h : s.held i = some old) :
    (s.objects.set i x).count (some (some a)) + one old a =
      s.objects.count (some (some a)) + one x.join a := by
  obtain ⟨hlt, hget⟩ := List.getElem?_eq_some_iff.mp (held_iff.mp h)
  have hold : one old a ≤ s.objects.count (some (some a)) := by
    unfold one
    split
    · rename_i heq
      rw [heq] at hget
      exact List.count_pos_iff.mpr (hget ▸ List.getElem_mem hlt)
    · exact Nat.zero_le _
  have hnew : (if x == some (some a) then 1 else 0) = one x.join a := by
    cases x <;> simp [one]
  have hgone : (if s.objects[i] == some (some a) then 1 else 0) = one old a := by
    rw [hget]
    simp [one]
  rw [List.count_set hlt, hnew, hgone]
  omega

/-- What an object holds has a reference. -/
theorem held_counted (hs : Correct s) (h : s.held i = some (some a)) : s.counts a ≠ 0 := by
  have hmem : some (some a) ∈ s.objects := List.mem_of_getElem? (held_iff.mp h)
  have hpos := List.count_pos_iff.mpr hmem
  rw [hs.counted, references]
  omega

theorem incref_eq (h : ∀ a, p = some a → s.counts a ≠ 0) :
    s.incref p = { s with counts := fun b => s.counts b + one p b } := by
  cases p with
  | none => rfl
  | some a =>
    have hif : s.incref (some a) = s.setCount a (s.counts a + 1) := if_neg (h a rfl)
    rw [hif, setCount]
    congr 1
    funext b
    by_cases hb : b = a
    · subst hb
      simp [one]
    · simp [one, hb, Ne.symm hb]

theorem decref_eq (h : ∀ a, p = some a → s.counts a ≠ 0) :
    s.decref p = { s with counts := fun b => s.counts b - one p b } := by
  cases p with
  | none => rfl
  | some a =>
    have hif : s.decref (some a) = s.setCount a (s.counts a - 1) := if_neg (h a rfl)
    rw [hif, setCount]
    congr 1
    funext b
    by_cases hb : b = a
    · subst hb
      simp [one]
    · simp [one, hb, Ne.symm hb]

theorem keeps_create : Keeps Correct create := by
  intro s p t hs h
  obtain ⟨rfl, rfl⟩ := Prod.mk.inj (Option.some.inj h)
  refine ⟨hs.sound, fun a => ?_, fun a ha => ?_⟩
  · have hcount := hs.counted a
    have hmade := hs.made s.next (Nat.le_refl _)
    change (if a = s.next then 1 else s.counts a) =
      s.objects.count (some (some a)) + (s.loose a + one (some s.next) a)
    unfold references at hcount
    by_cases ha : a = s.next
    · subst ha
      rw [if_pos rfl, one, if_pos rfl]
      omega
    · have hother : some s.next ≠ some a := fun heq => ha (Option.some.inj heq).symm
      rw [if_neg ha, one, if_neg hother]
      omega
  · change (if a = s.next then 1 else s.counts a) = 0
    change s.next + 1 ≤ a at ha
    rw [if_neg (by omega)]
    exact hs.made a (by omega)

/-- One more reference to a cell that has one. -/
theorem correct_incref (hs : Correct s) (h : ∀ a, p = some a → s.counts a ≠ 0) :
    Correct ((s.incref p).addLoose p) := by
  rw [incref_eq h]
  refine ⟨hs.sound, fun a => ?_, fun a ha => ?_⟩
  · have hcount := hs.counted a
    change s.counts a + one p a = s.objects.count (some (some a)) + (s.loose a + one p a)
    unfold references at hcount
    omega
  · have hmade := hs.made a ha
    have hother : p ≠ some a := fun heq => h a heq hmade
    change s.counts a + one p a = 0
    rw [hmade, one, if_neg hother]

theorem keeps_share : Keeps Correct (share i) := by
  intro s p t hs h
  obtain ⟨q, hq, h⟩ := Option.bind_eq_some_iff.mp h
  obtain ⟨rfl, rfl⟩ := Prod.mk.inj (Option.some.inj h)
  exact correct_incref hs (fun a ha => held_counted hs (ha ▸ hq))

theorem keeps_borrow : Keeps Correct (borrow a) := by
  intro s p t hs h
  by_cases ha : s.counts a = 0
  · have hnone : borrow a s = none := if_pos ha
    cases hnone.symm.trans h
  · have hsome : borrow a s = some (some a, (s.incref (some a)).addLoose (some a)) := if_neg ha
    obtain ⟨rfl, rfl⟩ := Prod.mk.inj (Option.some.inj (hsome.symm.trans h))
    exact correct_incref hs (fun b hb => Option.some.inj hb ▸ ha)

theorem keeps_construct : Keeps Correct (construct p) := by
  intro s x t hs h
  obtain ⟨u, hu, h⟩ := Option.bind_eq_some_iff.mp h
  obtain ⟨-, rfl⟩ := Prod.mk.inj (Option.some.inj h)
  obtain ⟨heq, hloose⟩ := takeLoose_eq hu
  rw [heq]
  refine ⟨hs.sound, fun a => ?_, hs.made⟩
  have hcount := hs.counted a
  have ha := hloose a
  have hnew : [some p].count (some (some a)) = one p a := by
    simp [one, List.count_singleton]
  change s.counts a = (s.objects ++ [some p]).count (some (some a)) + u.loose a
  unfold references at hcount
  rw [List.count_append, hnew]
  omega

theorem keeps_release : Keeps Correct (release i) := by
  intro s p t hs h
  obtain ⟨q, hq, h⟩ := Option.bind_eq_some_iff.mp h
  obtain ⟨rfl, rfl⟩ := Prod.mk.inj (Option.some.inj h)
  refine ⟨hs.sound, fun a => ?_, hs.made⟩
  have hcount := hs.counted a
  have hset := @count_setObject s a i q (some none) hq
  change s.counts a = (s.objects.set i (some none)).count (some (some a)) + (s.loose a + one q a)
  change _ = _ + 0 at hset
  unfold references at hcount
  omega

/-- An object that changes what it holds gives the reference back that it had. -/
theorem correct_replace {old q : Option Nat} {x : Option (Option Nat)} (hs : Correct s)
    (hold : s.held i = some old) (hq : s.takeLoose q = some t) (hx : x.join = q) :
    Correct ((t.setObject i x).decref old) := by
  obtain ⟨heq, hloose⟩ := takeLoose_eq hq
  have halive : ∀ a, old = some a → s.counts a ≠ 0 := fun a ha => held_counted hs (ha ▸ hold)
  rw [heq, @decref_eq (({ s with loose := t.loose } : Holders).setObject i x) old halive]
  refine ⟨hs.sound, fun a => ?_, fun a ha => ?_⟩
  · have hcount := hs.counted a
    have hset := @count_setObject s a i old x hold
    have ha := hloose a
    change s.counts a - one old a = (s.objects.set i x).count (some (some a)) + t.loose a
    rw [hx] at hset
    unfold references at hcount
    omega
  · have hmade := hs.made a ha
    change s.counts a - one old a = 0
    omega

theorem keeps_reset : Keeps Correct (reset i p) := by
  intro s x t hs h
  obtain ⟨old, hold, h⟩ := Option.bind_eq_some_iff.mp h
  obtain ⟨u, hu, h⟩ := Option.bind_eq_some_iff.mp h
  obtain ⟨-, rfl⟩ := Prod.mk.inj (Option.some.inj h)
  exact correct_replace hs hold hu rfl

theorem keeps_destroy : Keeps Correct (destroy i) := by
  intro s x t hs h
  obtain ⟨old, hold, h⟩ := Option.bind_eq_some_iff.mp h
  obtain ⟨-, rfl⟩ := Prod.mk.inj (Option.some.inj h)
  exact correct_replace hs hold (q := none) rfl rfl

theorem keeps_drop : Keeps Correct (drop a) := by
  intro s x t hs h
  obtain ⟨u, hu, h⟩ := Option.bind_eq_some_iff.mp h
  obtain ⟨-, rfl⟩ := Prod.mk.inj (Option.some.inj h)
  obtain ⟨heq, hloose⟩ := takeLoose_eq hu
  have halive : ∀ b, some a = some b → s.counts b ≠ 0 := by
    intro b hb
    have hcount := hs.counted b
    have hb' := hloose b
    rw [one, if_pos hb] at hb'
    unfold references at hcount
    omega
  rw [heq, @decref_eq { s with loose := u.loose } (some a) halive]
  refine ⟨hs.sound, fun b => ?_, fun b hb => ?_⟩
  · have hcount := hs.counted b
    have hb := hloose b
    change s.counts b - one (some a) b = s.objects.count (some (some b)) + u.loose b
    unfold references at hcount
    omega
  · have hmade := hs.made b hb
    change s.counts b - one (some a) b = 0
    omega

theorem counts_decref : (s.decref p).counts a ≤ s.counts a := by
  cases p with
  | none => exact Nat.le_refl _
  | some b =>
    by_cases hzero : s.counts b = 0
    · have hif : s.decref (some b) = { s with faulted := true } := if_pos hzero
      exact Nat.le_of_eq (congrArg (fun t => t.counts a) hif)
    · have heq := @decref_eq s (some b) (fun c hc => Option.some.inj hc ▸ hzero)
      rw [heq]
      exact Nat.sub_le _ _

theorem single_create : Keeps Single create := by
  intro s p t hs h b
  obtain ⟨rfl, rfl⟩ := Prod.mk.inj (Option.some.inj h)
  change (if b = s.next then 1 else s.counts b) ≤ 1
  split
  · exact Nat.le_refl 1
  · exact hs b

theorem single_construct : Keeps Single (construct p) := by
  intro s x t hs h
  obtain ⟨u, hu, h⟩ := Option.bind_eq_some_iff.mp h
  obtain ⟨-, rfl⟩ := Prod.mk.inj (Option.some.inj h)
  rw [(takeLoose_eq hu).1]
  exact hs

theorem single_release : Keeps Single (release i) := by
  intro s x t hs h
  obtain ⟨q, hq, h⟩ := Option.bind_eq_some_iff.mp h
  obtain ⟨rfl, rfl⟩ := Prod.mk.inj (Option.some.inj h)
  exact hs

theorem single_reset : Keeps Single (reset i p) := by
  intro s x t hs h b
  obtain ⟨old, -, h⟩ := Option.bind_eq_some_iff.mp h
  obtain ⟨u, hu, h⟩ := Option.bind_eq_some_iff.mp h
  obtain ⟨-, rfl⟩ := Prod.mk.inj (Option.some.inj h)
  have hless := @counts_decref (u.setObject i (some p)) old b
  have heq : (u.setObject i (some p)).counts b = s.counts b := by
    rw [(takeLoose_eq hu).1]
    rfl
  have hb := hs b
  omega

theorem single_destroy : Keeps Single (destroy i) := by
  intro s x t hs h b
  obtain ⟨old, -, h⟩ := Option.bind_eq_some_iff.mp h
  obtain ⟨-, rfl⟩ := Prod.mk.inj (Option.some.inj h)
  exact Nat.le_trans counts_decref (hs b)

theorem single_drop : Keeps Single (drop a) := by
  intro s x t hs h b
  obtain ⟨u, hu, h⟩ := Option.bind_eq_some_iff.mp h
  obtain ⟨-, rfl⟩ := Prod.mk.inj (Option.some.inj h)
  have heq : u.counts b = s.counts b := by
    rw [(takeLoose_eq hu).1]
  have hless := @counts_decref u (some a) b
  have hb := hs b
  omega

/-- What every program keeps that shares no reference. -/
structure KeptByMoves (P : Holders → Prop) : Prop where
  create : Keeps P create
  construct : ∀ p, Keeps P (construct p)
  release : ∀ i, Keeps P (release i)
  reset : ∀ i p, Keeps P (reset i p)
  destroy : ∀ i, Keeps P (destroy i)
  drop : ∀ a, Keeps P (drop a)

theorem correct_keptByMoves : KeptByMoves Correct :=
  ⟨keeps_create, fun _ => keeps_construct, fun _ => keeps_release, fun _ _ => keeps_reset,
    fun _ => keeps_destroy, fun _ => keeps_drop⟩

theorem single_keptByMoves : KeptByMoves Single :=
  ⟨single_create, fun _ => single_construct, fun _ => single_release, fun _ _ => single_reset,
    fun _ => single_destroy, fun _ => single_drop⟩

end invariants

end Holders
