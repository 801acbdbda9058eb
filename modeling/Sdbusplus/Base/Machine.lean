import Mathlib.Logic.Relation

/-- A labelled machine. The label carries every choice of the scheduler and of
the environment, so one label has at most one outcome. -/
structure Machine (σ : Type) (α : Type) where
  init : σ
  step : σ → α → Option σ

namespace Machine

variable {σ α : Type} {M : Machine σ α} {ok ok' : σ → α → Prop} {P : σ → Prop}

def run (M : Machine σ α) (s : σ) : List α → Option σ
  | [] => some s
  | a :: as => (M.step s a).bind (fun t => M.run t as)

/-- A run that refuses the steps which do not meet `ok`. -/
def runBy (M : Machine σ α) (ok : σ → α → Prop) [∀ s a, Decidable (ok s a)] (s : σ) :
    List α → Option σ
  | [] => some s
  | a :: as => if ok s a then (M.step s a).bind (fun t => M.runBy ok t as) else none

/-- The states of all runs in which every step meets `ok` in the state before it. -/
inductive ReachableBy (M : Machine σ α) (ok : σ → α → Prop) : σ → Prop
  | init : M.ReachableBy ok M.init
  | step {s t : σ} {a : α} (reached : M.ReachableBy ok s) (meets : ok s a)
      (next : M.step s a = some t) : M.ReachableBy ok t

abbrev Reachable (M : Machine σ α) : σ → Prop := M.ReachableBy (fun _ _ => True)

/-- A property of the initial state that every admitted step keeps holds of
every state an admitted run reaches. -/
theorem ReachableBy.invariant {s : σ} (hr : M.ReachableBy ok s) (h0 : P M.init)
    (hstep : ∀ s a t, P s → ok s a → M.step s a = some t → P t) : P s := by
  induction hr with
  | init => exact h0
  | step _ hok hn ih => exact hstep _ _ _ ih hok hn

theorem ReachableBy.mono {s : σ} (hr : M.ReachableBy ok s) (h : ∀ s a, ok s a → ok' s a) :
    M.ReachableBy ok' s := by
  induction hr with
  | init => exact .init
  | step _ hok hn ih => exact .step ih (h _ _ hok) hn

theorem ReachableBy.reachable {s : σ} (hr : M.ReachableBy ok s) : M.Reachable s :=
  hr.mono (fun _ _ _ => trivial)

theorem run_append {s t : σ} {as bs : List α} (hrun : M.run s as = some t) :
    M.run s (as ++ bs) = M.run t bs := by
  induction as generalizing s with
  | nil => cases hrun; rfl
  | cons a as ih =>
    simp only [run, Option.bind_eq_some_iff] at hrun
    obtain ⟨u, hu, hrun⟩ := hrun
    simp only [List.cons_append, run, hu, Option.bind_some]
    exact ih hrun

theorem run_split {s t : σ} {as bs : List α} (hrun : M.run s (as ++ bs) = some t) :
    ∃ u, M.run s as = some u ∧ M.run u bs = some t := by
  induction as generalizing s with
  | nil => exact ⟨s, rfl, hrun⟩
  | cons a as ih =>
    obtain ⟨v, hv, hrest⟩ := Option.bind_eq_some_iff.mp hrun
    obtain ⟨u, hu, hrest⟩ := ih hrest
    refine ⟨u, ?_, hrest⟩
    rw [run, hv]
    exact hu

/-- Steps that all meet `ok`, taken from any state, keep what every such step keeps. -/
theorem run_keeps_by {s t : σ} {as : List α} {ok : α → Prop} (hs : P s)
    (hrun : M.run s as = some t) (hok : ∀ a ∈ as, ok a)
    (hstep : ∀ s a t, P s → ok a → M.step s a = some t → P t) : P t := by
  induction as generalizing s with
  | nil => cases hrun; exact hs
  | cons a as ih =>
    simp only [run, Option.bind_eq_some_iff] at hrun
    obtain ⟨u, hu, hrun⟩ := hrun
    have hu' : P u := hstep _ _ _ hs (hok a List.mem_cons_self) hu
    exact ih hu' hrun (fun b hb => hok b (List.mem_cons_of_mem a hb))

/-- Steps taken from any state keep what every step keeps. -/
theorem run_keeps {s t : σ} {as : List α} (hs : P s) (hrun : M.run s as = some t)
    (hstep : ∀ s a t, P s → M.step s a = some t → P t) : P t :=
  run_keeps_by hs hrun (fun _ _ => trivial)
    (fun _ _ _ h _ hn => hstep _ _ _ h hn)

theorem Reachable.run {s t : σ} {as : List α} (hr : M.Reachable s)
    (hrun : M.run s as = some t) : M.Reachable t :=
  run_keeps hr hrun (fun _ _ _ h hn => .step h trivial hn)

theorem reachable_of_run {t : σ} (as : List α) (hrun : M.run M.init as = some t) :
    M.Reachable t :=
  Reachable.run .init hrun

theorem reachableBy_of_runBy (ok : σ → α → Prop) [∀ s a, Decidable (ok s a)] {t : σ}
    (as : List α) (hrun : M.runBy ok M.init as = some t) : M.ReachableBy ok t := by
  suffices ∀ s, M.ReachableBy ok s → M.runBy ok s as = some t → M.ReachableBy ok t from
    this _ .init hrun
  clear hrun
  induction as with
  | nil => intro s hs hrun; cases hrun; exact hs
  | cons a as ih =>
    intro s hs hrun
    simp only [runBy] at hrun
    split at hrun
    · rename_i hok
      obtain ⟨u, hu, hrun⟩ := Option.bind_eq_some_iff.mp hrun
      exact ih u (.step hs hok hu) hrun
    · cases hrun

end Machine
