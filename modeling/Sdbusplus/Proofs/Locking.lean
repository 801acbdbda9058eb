import Mathlib.Order.RelClasses
import Sdbusplus.EventLoop.Locking

namespace Sdbusplus.Proofs.Locking
open EventLoop.Locking

variable {runner t u : Nat} {c : Call} {p : Point} {s s' : State} {e : Event}

@[simp] theorem goto_stage : (s.goto t p).stage = s.stage := by
  unfold State.goto; split <;> rfl

@[simp] theorem goto_owner : (s.goto t p).owner = s.owner := by
  unfold State.goto; split <;> rfl

@[simp] theorem goto_depth : (s.goto t p).depth = s.depth := by
  unfold State.goto; split <;> rfl

@[simp] theorem goto_runOne : (s.goto t p).runOne u =
    if s.operation t = .outside ∧ u = t then p else s.runOne u := by
  unfold State.goto; split <;> simp_all

@[simp] theorem goto_operation : (s.goto t p).operation u =
    if s.operation t ≠ .outside ∧ u = t then p else s.operation u := by
  unfold State.goto; split <;> simp_all

/-- How many of a thread's calls have the lock. -/
def held (s : State) (t : Nat) : Nat :=
  (s.runOne t).holdsLock.toNat + (s.operation t).holdsLock.toNat

/-- Who holds which mutex is read off the points of the calls. -/
structure Holdings (runner : Nat) (s : State) : Prop where
  stage : ∀ t, s.stage = some t ↔ (s.point t).holdsStage = true
  owner : ∀ t, s.owner = some t ↔ 0 < held s t
  depth : ∀ t, s.lockAvailable t → s.depth = held s t
  nested : ∀ t, s.operation t ≠ .outside → s.runOne t = .outside ∨ s.runOne t = .inside
  runner : ∀ t, s.runOne t ≠ .outside → t = runner

theorem point_goto_other (hut : u ≠ t) : (s.goto t p).point u = s.point u := by
  simp [State.point, hut]

theorem point_goto (hop : s.operation t ≠ .outside) (hp : p ≠ .outside) :
    (s.goto t p).point t = p := by
  simp [State.point, hop, hp]

/-- A step takes a thread to p, or back to the callback that made the call. -/
theorem point_goto_same (hn : s.operation t ≠ .outside → s.runOne t = .outside ∨
    s.runOne t = .inside) : (s.goto t p).point t = p ∨
      p = .outside ∧ (s.goto t p).point t = .inside := by
  by_cases hop : s.operation t = .outside
  · exact .inl (by simp [State.point, hop])
  · by_cases hp : p = .outside
    · have hpoint : (s.goto t p).point t = s.runOne t := by simp [State.point, hop, hp]
      rw [hpoint, hp]
      exact (hn hop).imp_right fun hr => ⟨rfl, hr⟩
    · exact .inl (point_goto hop hp)

theorem holdsStage_goto (hn : s.operation t ≠ .outside → s.runOne t = .outside ∨
    s.runOne t = .inside) : ((s.goto t p).point t).holdsStage = p.holdsStage := by
  rcases point_goto_same (p := p) hn with hq | ⟨hp, hq⟩
  · rw [hq]
  · rw [hq, hp]
    rfl

/-- The stage is with whom the points say, once t is at p. -/
def StageFits (s : State) (stage : Option Nat) (t : Nat) (p : Point) : Prop :=
  ∀ u, stage = some u ↔ (if u = t then p else s.point u).holdsStage = true

theorem StageFits.kept (h : Holdings runner s) (hp : p.holdsStage = (s.point t).holdsStage) :
    StageFits s s.stage t p := by
  intro u
  by_cases hut : u = t
  · rw [if_pos hut, hp, hut]
    exact h.stage t
  · rw [if_neg hut]
    exact h.stage u

theorem StageFits.taken (h : Holdings runner s) (hfree : s.stage = none)
    (hp : p.holdsStage = true) : StageFits s (s.takeStage t).stage t p := by
  intro u
  rw [show (s.takeStage t).stage = some t from if_pos hfree]
  by_cases hut : u = t
  · rw [if_pos hut, hut]
    exact ⟨fun _ => hp, fun _ => rfl⟩
  · rw [if_neg hut, ← h.stage u, hfree]
    exact ⟨fun heq => absurd (Option.some.inj heq).symm hut, nofun⟩

theorem StageFits.entered (h : Holdings runner s) (hp : (s.point t).holdsStage = false) :
    StageFits s (s.takeStage t).stage t s.entry := by
  cases hst : s.stage with
  | none =>
    rw [show s.entry = .staged from if_pos hst]
    exact .taken h hst rfl
  | some v =>
    have hne : s.stage ≠ none := by simp [hst]
    rw [show s.entry = .stageWait from if_neg hne,
      show (s.takeStage t).stage = s.stage from if_neg hne]
    exact .kept h hp.symm

theorem StageFits.given (h : Holdings runner s) (ht : (s.point t).holdsStage = true)
    (hp : p.holdsStage = false) : StageFits s none t p := by
  intro u
  by_cases hut : u = t
  · rw [if_pos hut, hp]
    exact ⟨nofun, nofun⟩
  · rw [if_neg hut, ← h.stage u, (h.stage t).mpr ht]
    exact ⟨nofun, fun heq => absurd (Option.some.inj heq).symm hut⟩

/-- How often a thread has the lock by the call around its innermost one. -/
def outer (s : State) (t : Nat) : Nat :=
  if s.operation t = .outside then 0 else (s.runOne t).holdsLock.toNat

theorem held_eq : held s t = outer s t + (s.point t).holdsLock.toNat := by
  unfold held outer State.point
  split
  · rename_i hop
    rw [hop, Nat.zero_add]
    rfl
  · rfl

/-- `held` once t is at p. -/
def heldAt (s : State) (t : Nat) (p : Point) (u : Nat) : Nat :=
  if u = t then outer s t + p.holdsLock.toNat else held s u

theorem held_goto : held (s.goto t p) u = heldAt s t p u := by
  unfold heldAt held outer
  by_cases hut : u = t <;> by_cases hop : s.operation t = .outside <;>
    simp [hut, hop, Point.holdsLock]

/-- The lock is with whom the points say, once t is at p. -/
structure LockFits (s : State) (owner : Option Nat) (depth t : Nat) (p : Point) : Prop where
  owned : ∀ u, owner = some u ↔ 0 < heldAt s t p u
  counted : ∀ u, owner = none ∨ owner = some u → depth = heldAt s t p u

theorem LockFits.kept (h : Holdings runner s) (hp : p.holdsLock = (s.point t).holdsLock) :
    LockFits s s.owner s.depth t p := by
  have hsame : heldAt s t p = held s := by
    funext u
    unfold heldAt
    split
    · rename_i hut
      rw [hut, held_eq, hp]
    · rfl
  refine ⟨fun u => ?_, fun u hu => ?_⟩
  · rw [hsame]
    exact h.owner u
  · rw [hsame]
    exact h.depth u hu

theorem LockFits.taken (h : Holdings runner s) (hav : s.lockAvailable t)
    (ht : (s.point t).holdsLock = false) (hp : p.holdsLock = true) :
    LockFits s (some t) (s.depth + 1) t p := by
  have hheld : heldAt s t p t = s.depth + 1 := by
    rw [h.depth t hav, held_eq, ht]
    simp [heldAt, hp]
  refine ⟨fun u => ?_, fun u hu => ?_⟩
  · by_cases hut : u = t
    · rw [hut, hheld]
      exact ⟨fun _ => Nat.succ_pos _, fun _ => rfl⟩
    · rw [heldAt, if_neg hut, ← h.owner u]
      refine ⟨fun heq => absurd (Option.some.inj heq).symm hut, fun hu => ?_⟩
      rcases hav with hnone | howner
      · cases hnone.symm.trans hu
      · exact howner.symm.trans hu
  · rcases hu with hu | hu
    · cases hu
    · cases hu
      exact hheld.symm

theorem LockFits.given (h : Holdings runner s) (ht : (s.point t).holdsLock = true)
    (hp : p.holdsLock = false) : LockFits s s.giveLock.owner s.giveLock.depth t p := by
  have hheld : held s t = outer s t + 1 := by rw [held_eq, ht]; rfl
  have howner : s.owner = some t := (h.owner t).mpr (hheld ▸ Nat.succ_pos _)
  have hdepth : s.depth = outer s t + 1 := (h.depth t (.inr howner)).trans hheld
  have hsame : heldAt s t p t = outer s t := by simp [heldAt, hp]
  have hother : ∀ u, u ≠ t → heldAt s t p u = 0 := by
    intro u hut
    rw [heldAt, if_neg hut]
    refine Nat.eq_zero_of_not_pos fun hu => hut ?_
    exact Option.some.inj (((h.owner u).mpr hu).symm.trans howner)
  have hgive : s.giveLock.owner = if outer s t = 0 then none else some t := by
    simp [State.giveLock, hdepth, howner]
  have hleft : s.giveLock.depth = outer s t := by simp [State.giveLock, hdepth]
  rw [hgive, hleft]
  refine ⟨fun u => ?_, fun u hu => ?_⟩
  · by_cases hut : u = t
    · rw [hut, hsame]
      by_cases hz : outer s t = 0 <;> simp [hz, Nat.pos_of_ne_zero]
    · rw [hother u hut]
      by_cases hz : outer s t = 0 <;> simp [hz, Ne.symm hut]
  · by_cases hut : u = t
    · rw [hut, hsame]
    · rw [hother u hut]
      by_cases hz : outer s t = 0
      · exact hz
      · simp [hz, Ne.symm hut] at hu

/-- The thread that moves on in its run_one call is the one of run_one. -/
theorem Holdings.runs (h : Holdings runner s) (hp : s.point t ≠ .outside) :
    s.operation t = .outside → t = runner := by
  intro hop
  rw [State.point, if_pos hop] at hp
  exact h.runner t hp

theorem Holdings.goto {stage owner : Option Nat} {depth wakeUps : Nat} (h : Holdings runner s)
    (hrun : s.operation t = .outside → t = runner) (hstage : StageFits s stage t p)
    (hlock : LockFits s owner depth t p) :
    Holdings runner (State.goto { s with
      stage := stage, owner := owner, depth := depth, wakeUps := wakeUps } t p) := by
  let s₁ : State := { s with stage := stage, owner := owner, depth := depth, wakeUps := wakeUps }
  change Holdings runner (s₁.goto t p)
  have hheld : ∀ u, held (s₁.goto t p) u = heldAt s t p u := fun _ => held_goto
  constructor
  case stage =>
    intro u
    rw [goto_stage]
    refine (hstage u).trans ?_
    by_cases hut : u = t
    · have hsame : ((s₁.goto t p).point t).holdsStage = p.holdsStage :=
        holdsStage_goto (h.nested t)
      rw [if_pos hut, hut, hsame]
    · rw [if_neg hut, point_goto_other hut]
      rfl
  case owner =>
    intro u
    rw [goto_owner, hheld]
    exact hlock.owned u
  case depth =>
    intro u hav
    rw [State.lockAvailable, goto_owner] at hav
    rw [goto_depth, hheld]
    exact hlock.counted u hav
  case nested =>
    intro u hu
    rw [goto_runOne]
    split
    · rename_i hut
      obtain ⟨hop, rfl⟩ := hut
      rw [goto_operation, if_neg (fun hne => hne.1 hop)] at hu
      exact absurd hop hu
    · refine h.nested u fun hop => ?_
      rw [goto_operation] at hu
      split at hu
      · rename_i hut
        exact hut.1 (hut.2 ▸ hop)
      · exact hu hop
  case runner =>
    intro u hu
    rw [goto_runOne] at hu
    split at hu
    · rename_i hut
      obtain ⟨hop, rfl⟩ := hut
      exact hrun hop
    · exact h.runner u hu

/-- A call starts in the run_one thread itself, or in a thread that is free to make it. -/
theorem call_cases (hs : call runner t c s = some s') :
    (t = runner ∧ s.operation t = .outside ∧ s.runOne t = .outside ∧
      s' = { s.takeStage t with runOne := fun u => if u = t then s.entry else s.runOne u }) ∨
    (s.free t ∧
      s' = { s.takeStage t with
        operation := fun u => if u = t then s.entry else s.operation u }) := by
  unfold call at hs
  split at hs
  · split at hs
    · rename_i hfree
      cases hs
      exact .inl ⟨hfree.1, hfree.2.1, hfree.2.2, rfl⟩
    · cases hs
  · split at hs
    · rename_i hfree
      cases hs
      exact .inr ⟨hfree, rfl⟩
    · cases hs

theorem entry_ne : s.entry ≠ .outside := by
  unfold State.entry
  split <;> exact nofun

theorem entry_holdsLock : s.entry.holdsLock = false := by
  unfold State.entry
  split <;> rfl

theorem call_holdings (h : Holdings runner s) (hs : call runner t c s = some s') :
    Holdings runner s' := by
  rcases call_cases hs with ⟨rfl, hop, hrun, rfl⟩ | ⟨⟨hop, hrun⟩, rfl⟩
  · have hpoint : s.point t = .outside := by rw [State.point, if_pos hop, hrun]
    have hgoto : { s.takeStage t with runOne := fun u => if u = t then s.entry else s.runOne u } =
        (s.takeStage t).goto t s.entry := (if_pos hop).symm
    rw [hgoto]
    exact h.goto (fun _ => rfl) (.entered h (by rw [hpoint]; rfl))
      (.kept h (by rw [hpoint]; exact entry_holdsLock))
  · have hpoint : (s.point t).holdsStage = false := by
      rw [State.point, if_pos hop]
      rcases hrun with hrun | hrun <;> (rw [hrun]; rfl)
    have hheld : ∀ u, held { s.takeStage t with
        operation := fun u => if u = t then s.entry else s.operation u } u = held s u := by
      intro u
      by_cases hut : u = t
      · simp only [held, State.takeStage, hut, hop, if_pos, entry_holdsLock]
        rfl
      · simp [held, State.takeStage, hut]
    constructor
    case stage =>
      intro u
      refine (StageFits.entered h hpoint u).trans ?_
      by_cases hut : u = t
      · simp [State.point, hut, entry_ne]
      · simp [State.point, State.takeStage, hut]
    case owner =>
      intro u
      rw [hheld]
      exact h.owner u
    case depth =>
      intro u hav
      rw [hheld]
      exact h.depth u hav
    case nested =>
      intro u hu
      by_cases hut : u = t
      · exact hut ▸ hrun
      · exact h.nested u fun hout => hu ((if_neg hut).trans hout)
    case runner => exact h.runner

theorem advance_holdings (h : Holdings runner s) (hs : advance t s = some s') :
    Holdings runner s' := by
  have hrun : s.operation t = .outside → t = runner := by
    refine h.runs fun hout => ?_
    simp [advance, hout] at hs
  cases hp : s.point t with
  | outside => simp [advance, hp] at hs
  | stageWait =>
    simp only [advance, hp] at hs
    split at hs <;> cases hs
    rename_i hfree
    exact h.goto hrun (.taken h hfree rfl) (.kept h (by rw [hp]; rfl))
  | staged =>
    simp only [advance, hp] at hs
    split at hs
    · rename_i hav
      cases hs
      exact h.goto hrun (.kept h (by rw [hp]; rfl))
        (.taken h hav (by rw [hp]; rfl) rfl)
    · split at hs <;> cases hs <;>
        exact h.goto hrun (.kept h (by rw [hp]; rfl)) (.kept h (by rw [hp]; rfl))
  | signalling =>
    simp only [advance, hp] at hs
    cases hs
    exact h.goto hrun (.kept h (by rw [hp]; rfl)) (.kept h (by rw [hp]; rfl))
  | lockWait =>
    simp only [advance, hp] at hs
    split at hs <;> cases hs
    rename_i hav
    exact h.goto hrun (.kept h (by rw [hp]; rfl)) (.taken h hav (by rw [hp]; rfl) rfl)
  | unstaging =>
    simp only [advance, hp] at hs
    cases hs
    exact h.goto hrun (.given h (by rw [hp]; rfl) rfl) (.kept h (by rw [hp]; rfl))
  | inside =>
    simp only [advance, hp] at hs
    cases hs
    exact h.goto hrun (.kept h (by rw [hp]; rfl)) (.given h (by rw [hp]; rfl) rfl)

theorem step_holdings (h : Holdings runner s) (hs : step runner s e = some s') :
    Holdings runner s' := by
  cases e with
  | call t c => exact call_holdings h hs
  | advance t => exact advance_holdings h hs
  | breakRun => cases hs; exact ⟨h.stage, h.owner, h.depth, h.nested, h.runner⟩
  | runWakeup =>
    simp only [step] at hs
    split at hs <;> cases hs
    exact ⟨h.stage, h.owner, h.depth, h.nested, h.runner⟩

theorem initial_holdings : Holdings runner (machine runner).init := by
  constructor <;> simp [machine, initial, State.point, State.lockAvailable, held,
    Point.holdsStage, Point.holdsLock]

theorem reachable_holdings (hr : (machine runner).Reachable s) : Holdings runner s :=
  hr.invariant initial_holdings (fun _ _ _ h _ hs => step_holdings h hs)

def CyclicWait (s : State) : Prop := ∃ t, Relation.TransGen (WaitsFor s) t t

/-- A thread that has the lock, and so is in a callback of run_one, calls
obtain_lock only when the stage is free. -/
def ReentersFreeStage (s : State) : Event → Prop
  | .call t _ => s.owner = some t → s.stage = none
  | .advance _ | .breakRun | .runWakeup => True

instance : Decidable (ReentersFreeStage s e) :=
  match e with
  | .call _ _ => inferInstanceAs (Decidable (_ → _))
  | .advance _ | .breakRun | .runWakeup => inferInstanceAs (Decidable True)

/-- The owner of the lock waits neither for the stage nor for the lock. -/
def OwnerRuns (s : State) : Prop :=
  ∀ t, s.owner = some t →
    s.point t ≠ .stageWait ∧ s.point t ≠ .signalling ∧ s.point t ≠ .lockWait

theorem call_ownerRuns (h : OwnerRuns s) (hf : ReentersFreeStage s (.call t c))
    (hs : call runner t c s = some s') : OwnerRuns s' := by
  have hentry : s.owner = some t → s.entry = .staged := fun hu => if_pos (hf hu)
  rcases call_cases hs with ⟨-, hop, -, rfl⟩ | ⟨⟨hop, -⟩, rfl⟩
  · intro u hu
    by_cases hut : u = t
    · subst hut
      simp [State.point, State.takeStage, hop, hentry hu]
    · have hruns := h u hu
      simpa [State.point, State.takeStage, hut] using hruns
  · intro u hu
    by_cases hut : u = t
    · subst hut
      simp [State.point, hentry hu]
    · have hruns := h u hu
      simpa [State.point, State.takeStage, hut] using hruns

/-- A step keeps the owner running when it does not take the owner to a wait. -/
theorem OwnerRuns.goto {stage owner : Option Nat} {depth wakeUps : Nat} (hh : Holdings runner s)
    (h : OwnerRuns s) (howner : ∀ u, u ≠ t → owner = some u → s.owner = some u)
    (hp : owner = some t → p ≠ .stageWait ∧ p ≠ .signalling ∧ p ≠ .lockWait) :
    OwnerRuns (State.goto { s with
      stage := stage, owner := owner, depth := depth, wakeUps := wakeUps } t p) := by
  let s₁ : State := { s with stage := stage, owner := owner, depth := depth, wakeUps := wakeUps }
  change OwnerRuns (s₁.goto t p)
  intro u hu
  rw [goto_owner] at hu
  by_cases hut : u = t
  · rw [hut] at hu ⊢
    rcases point_goto_same (s := s₁) (p := p) (hh.nested t) with hq | ⟨-, hq⟩
    · rw [hq]
      exact hp hu
    · rw [hq]
      decide
  · have hpoint : (s₁.goto t p).point u = s.point u := point_goto_other hut
    rw [hpoint]
    exact h u (howner u hut hu)

theorem advance_ownerRuns (hh : Holdings runner s) (h : OwnerRuns s)
    (hs : advance t s = some s') : OwnerRuns s' := by
  cases hp : s.point t with
  | outside => simp [advance, hp] at hs
  | stageWait =>
    simp only [advance, hp] at hs
    split at hs <;> cases hs
    exact .goto hh h (fun _ _ hu => hu) (fun _ => by simp)
  | staged =>
    simp only [advance, hp] at hs
    split at hs
    · cases hs
      exact .goto hh h (fun u hut hu => absurd (Option.some.inj hu).symm hut) (fun _ => by simp)
    · rename_i hav
      have hnot : s.owner ≠ some t := fun hu => hav (.inr hu)
      split at hs <;> cases hs <;>
        exact .goto hh h (fun _ _ hu => hu) (fun hu => absurd hu hnot)
  | signalling =>
    simp only [advance, hp] at hs
    cases hs
    exact .goto hh h (fun _ _ hu => hu) (fun hu => absurd hp (h t hu).2.1)
  | lockWait =>
    simp only [advance, hp] at hs
    split at hs <;> cases hs
    exact .goto hh h (fun u hut hu => absurd (Option.some.inj hu).symm hut) (fun _ => by simp)
  | unstaging =>
    simp only [advance, hp] at hs
    cases hs
    exact .goto hh h (fun _ _ hu => hu) (fun _ => by simp)
  | inside =>
    simp only [advance, hp] at hs
    cases hs
    refine .goto hh h (fun u _ hu => ?_) (fun _ => by simp)
    split at hu
    · cases hu
    · exact hu

theorem step_ownerRuns (hh : Holdings runner s) (h : OwnerRuns s) (hf : ReentersFreeStage s e)
    (hs : step runner s e = some s') : OwnerRuns s' := by
  cases e with
  | call t c => exact call_ownerRuns h hf hs
  | advance t => exact advance_ownerRuns hh h hs
  | breakRun => cases hs; exact h
  | runWakeup =>
    simp only [step] at hs
    split at hs <;> cases hs
    exact h

/-- How far a wait can lead: the holder of the stage may wait for the lock, and
the owner of the lock waits for nothing. -/
def waitRank (s : State) (t : Nat) : Nat :=
  match s.point t with
  | .stageWait => 2
  | .lockWait => 1
  | _ => 0

theorem waitRank_lt (hh : Holdings runner s) (h : OwnerRuns s) (hw : WaitsFor s t u) :
    waitRank s u < waitRank s t := by
  rcases hw with ⟨hp, hu⟩ | ⟨hp, hu, _⟩
  · have hholds := (hh.stage u).mp hu
    cases hq : s.point u <;> simp_all [waitRank, Point.holdsStage]
  · have hruns := h u hu
    cases hq : s.point u <;> simp_all [waitRank]

/-- As long as callbacks find the stage free, no cyclic wait comes up. -/
theorem no_cyclic_wait (hr : (machine runner).ReachableBy ReentersFreeStage s) :
    ¬ CyclicWait s := by
  have h : Holdings runner s ∧ OwnerRuns s :=
    hr.invariant (P := fun s => Holdings runner s ∧ OwnerRuns s)
      ⟨initial_holdings, by simp [OwnerRuns, machine, initial]⟩
      (fun _ _ _ h hf hs => ⟨step_holdings h.1 hs, step_ownerRuns h.1 h.2 hf hs⟩)
  rintro ⟨t, ht⟩
  have hrank : ∀ t u, WaitsFor s t u → waitRank s t > waitRank s u :=
    fun _ _ hw => waitRank_lt h.1 h.2 hw
  have hlt : Relation.TransGen (· > ·) (waitRank s t) (waitRank s t) :=
    Relation.TransGen.lift (waitRank s) hrank t t ht
  rw [Relation.transGen_eq_self] at hlt
  exact Nat.lt_irrefl _ hlt

/-- The owner of the lock is blocked on the stage, which `u` has. -/
structure Reentered (s : State) (t u : Nat) : Prop where
  waits : s.point t = .stageWait
  stage : s.stage = some u
  owner : s.owner = some t
  other : u ≠ t
  operation : s.operation u ≠ .outside

theorem Reentered.of_call (h : Holdings runner s) (hl : s.owner = some t)
    (hst : s.stage = some u) (hs : call runner t c s = some s') : Reentered s' t u := by
  have hu := (h.stage u).mp hst
  have ht := (h.owner t).mp hl
  have hentry : s.entry = .stageWait := if_neg (by simp [hst])
  have htaken : (s.takeStage t).stage = s.stage := if_neg (by simp [hst])
  rcases call_cases hs with ⟨-, hop, hrun, -⟩ | ⟨⟨hop, hrun⟩, rfl⟩
  · -- Outside of all calls the thread would not have the lock.
    rw [held, hop, hrun] at ht
    cases ht
  · have hin : s.runOne t = .inside := by
      rcases hrun with hrun | hrun
      · rw [held, hop, hrun] at ht
        cases ht
      · exact hrun
    have hut : u ≠ t := by
      intro heq
      rw [heq, State.point, if_pos hop, hin] at hu
      cases hu
    -- The run_one thread is t, so u has the stage for another call.
    have hopu : s.operation u ≠ .outside := by
      intro hout
      have hru : s.runOne u ≠ .outside := by
        intro hr
        rw [State.point, if_pos hout, hr] at hu
        cases hu
      exact hut ((h.runner u hru).trans (h.runner t (by simp [hin])).symm)
    exact
      { waits := by simp [State.point, hentry]
        stage := htaken.trans hst
        owner := hl
        other := hut
        operation := fun hout => hopu ((if_neg hut).symm.trans hout) }

theorem Reentered.goto (h : Reentered s t u) (hp : p ≠ .outside) :
    Reentered (s.goto u p) t u where
  waits := (point_goto_other h.other.symm).trans h.waits
  stage := goto_stage.trans h.stage
  owner := goto_owner.trans h.owner
  other := h.other
  operation := by simpa [h.operation] using hp

theorem Reentered.cyclic (h : Reentered s t u) (hp : s.point u = .lockWait) : CyclicWait s :=
  ⟨t, .tail (.single (Or.inl ⟨h.waits, h.stage⟩)) (Or.inr ⟨hp, h.owner, h.other.symm⟩)⟩

theorem Reentered.signalling (runner : Nat) (h : Reentered s t u) (hp : s.point u = .signalling) :
    ∃ as s', (machine runner).run s as = some s' ∧ CyclicWait s' := by
  have hr : Reentered ({ s with wakeUps := s.wakeUps + 1 }.goto u .lockWait) t u :=
    Reentered.goto ⟨h.waits, h.stage, h.owner, h.other, h.operation⟩ (by simp)
  refine ⟨[.advance u], _, ?_, hr.cyclic (point_goto h.operation (by simp))⟩
  simp [Machine.run, machine, step, advance, hp]

/-- The condition is exact: whenever the owner of the lock calls obtain_lock
while another thread has the stage, a cyclic wait is ahead. -/
theorem reentry_deadlocks (hr : (machine runner).Reachable s) (hl : s.owner = some t)
    (hst : s.stage = some u) (hs : call runner t c s = some s') :
    ∃ as s'', (machine runner).run s' as = some s'' ∧ CyclicWait s'' := by
  have hr' : (machine runner).Reachable s' := .step (a := .call t c) hr trivial hs
  have hh := reachable_holdings hr'
  have h := Reentered.of_call (reachable_holdings hr) hl hst hs
  have hu := (hh.stage u).mp h.stage
  cases hp : s'.point u with
  | outside | stageWait | inside => simp [hp, Point.holdsStage] at hu
  | lockWait => exact ⟨[], s', rfl, h.cyclic hp⟩
  | signalling => exact h.signalling runner hp
  | staged =>
    have hav : ¬ s'.lockAvailable u := by simp [State.lockAvailable, h.owner, h.other.symm]
    obtain ⟨as, s'', hrun, hc⟩ := (h.goto (p := .signalling) (by simp)).signalling runner
      (point_goto h.operation (by simp))
    refine ⟨.advance u :: as, s'', ?_, hc⟩
    simpa [Machine.run, machine, step, advance, hp, hav, h.operation] using hrun
  | unstaging =>
    have ho : s'.owner = some u :=
      (hh.owner u).mpr (by simp_all [held, State.point, h.operation, Point.holdsLock])
    exact absurd (Option.some.inj (h.owner.symm.trans ho)).symm h.other

/-- A callback adds a timer while a second thread waits for nothing yet. -/
def reentersFreeStage : List Event :=
  [.call 0 .runOne, .advance 0, .advance 0, .call 0 .addOneshotTimer, .call 1 .addIo]

theorem no_cyclic_wait_reentersFreeStage :
    ∃ s, (machine 0).run (machine 0).init reentersFreeStage = some s ∧ s.owner = some 0 ∧
      s.point 0 = .staged ∧ s.point 1 = .stageWait ∧ ¬ CyclicWait s :=
  ⟨_, rfl, rfl, rfl, rfl, no_cyclic_wait
    (Machine.reachableBy_of_runBy (M := machine 0) ReentersFreeStage reentersFreeStage rfl)⟩

/-- A second thread has the stage and waits for the lock of the run_one thread,
whose callback destroys a source. -/
def reentersHeldStage : List Event :=
  [.call 0 .runOne, .advance 0, .advance 0, .call 1 .addIo, .advance 1, .advance 1,
   .call 0 .destroySource]

theorem cyclic_wait : ¬ ∀ s, (machine 0).Reachable s → ¬ CyclicWait s := by
  intro h
  refine h _ (Machine.reachable_of_run reentersHeldStage rfl) ⟨0, ?_⟩
  exact .tail (.single (Or.inl ⟨rfl, rfl⟩ : WaitsFor _ 0 1)) (Or.inr ⟨rfl, rfl, by simp⟩)

end Sdbusplus.Proofs.Locking
