import Sdbusplus.Proofs.WaitProcess

namespace Sdbusplus.Proofs.CallerWait
open Async.WaitProcess

variable {s t : State} {e : Event}

/-- A thread inside start() or spawn_complete() that has yet to notify. A wake-up
in flight is no state of its own: notify_one takes a blocked caller back to the
evaluation of its predicate at once. -/
def WakeUpDue (s : State) : Prop :=
  (∃ op, s.worker = .starting op ∨ s.worker = .staging op) ∨
  ∃ u, s.spawnComplete u ≠ .idle ∧ s.spawnComplete u ≠ .breaking

/-- The caller is not left blocked with its predicate true. -/
def NoLostWakeUp (s : State) : Prop :=
  s.caller = .blocked → s.wakeUp = true → WakeUpDue s

/-- No spawn_complete() notifies, with the final stop requested, while the caller
is between the evaluation of its predicate and blocking. -/
def NotifyInTime (s : State) : Event → Prop
  | .spawnComplete u _ =>
    s.spawnComplete u = .notifying → ¬ (s.caller = .deciding ∧ s.finalStop = true)
  | _ => True

instance : Decidable (NotifyInTime s e) :=
  match e with
  | .spawnComplete _ _ => inferInstanceAs (Decidable (_ → _))
  | .run | .caller | .runOne _ | .spurious | .worker _ => inferInstanceAs (Decidable True)

/-- The caller has found its predicate false and sleeps, or is about to. -/
def Parked (s : State) : Prop := s.caller = .deciding ∨ s.caller = .blocked

/-- What a parked caller waits for has not come, or its notification has not. -/
structure Waiting (s : State) : Prop where
  empty : Parked s → s.pending = none ∧ s.staged = none
  announced : Parked s → s.finalStop = true → ∃ u, s.spawnComplete u = .notifying

theorem Waiting.of_not_parked (hn : ¬ Parked s) : Waiting s :=
  ⟨fun hp => absurd hp hn, fun hp => absurd hp hn⟩

/-- A notification takes a blocked caller back to its predicate. -/
theorem not_parked_notifyOne (hd : s.caller ≠ .deciding) : ¬ Parked s.notifyOne := by
  unfold Parked State.notifyOne
  by_cases hb : s.caller = .blocked
  · simp [hb]
  · simp [hb, hd]

theorem callerStep_waiting (h : Waiting s) (ht : callerStep s = some t) : Waiting t := by
  obtain ⟨he, ha⟩ := h
  cases hp : s.caller with
  | outside | blocked | runOne | returned => simp [callerStep, hp] at ht
  | waitOnce =>
    simp only [callerStep, hp] at ht
    split at ht
    · split at ht <;> cases ht
      all_goals constructor <;> simp [Parked]
    · -- The predicate is false: nothing is staged or pending, and no stop is requested.
      rename_i hw
      cases ht
      simp only [State.wakeUp, Bool.or_eq_true, not_or, Option.isSome_iff_ne_none, ne_eq,
        Decidable.not_not] at hw
      exact ⟨fun _ => ⟨hw.1.1, hw.1.2⟩, fun _ hf => absurd hf hw.2⟩
  | deciding =>
    simp only [callerStep, hp] at ht
    cases ht
    exact ⟨fun _ => he (Or.inl hp), fun _ => ha (Or.inl hp)⟩
  | keepRunning | afterWait =>
    simp only [callerStep, hp] at ht
    cases ht
    refine Waiting.of_not_parked ?_
    unfold Parked
    dsimp only
    split <;> simp
  | _ =>
    simp only [callerStep, hp] at ht
    try (split at ht)
    all_goals try (split at ht)
    all_goals cases ht
    all_goals exact Waiting.of_not_parked (by simp [Parked, hp])

theorem workerStep_waiting {handled : Bool} (h : Waiting s)
    (ht : workerStep handled s = some t) : Waiting t := by
  obtain ⟨he, ha⟩ := h
  cases hw : s.worker with
  | unborn | suspended _ | exited => simp [workerStep, hw] at ht
  | staging op =>
    -- Staging needs the lock, and its notification takes a blocked caller away.
    simp only [workerStep, hw] at ht
    split at ht <;> cases ht
    rename_i hfree
    exact Waiting.of_not_parked (not_parked_notifyOne (by simpa [State.lockFree] using hfree))
  | _ =>
    simp only [workerStep, hw] at ht
    try (split at ht)
    all_goals cases ht
    all_goals exact ⟨he, ha⟩

theorem spawnCompleteStep_waiting {u : Nat} {stop : Bool} (h : Waiting s)
    (hn : NotifyInTime s (.spawnComplete u stop))
    (ht : spawnCompleteStep u stop s = some t) : Waiting t := by
  obtain ⟨he, ha⟩ := h
  simp only [NotifyInTime] at hn
  cases hu : s.spawnComplete u with
  | requesting =>
    simp only [spawnCompleteStep, hu] at ht
    cases ht
    exact ⟨he, fun _ _ => ⟨u, by simp⟩⟩
  | notifying =>
    simp only [spawnCompleteStep, hu] at ht
    cases ht
    by_cases hd : s.caller = .deciding
    · exact ⟨fun _ => he (Or.inl hd), fun _ hf => absurd ⟨hd, hf⟩ (hn hu)⟩
    · exact Waiting.of_not_parked (not_parked_notifyOne hd)
  | idle | clearing | testing | breaking =>
    simp only [spawnCompleteStep, hu] at ht
    try (split at ht)
    all_goals cases ht
    all_goals
      refine ⟨he, fun hp hf => ?_⟩
      obtain ⟨v, hv⟩ := ha hp hf
      have hne : v ≠ u := by
        intro heq
        subst v
        simp [hu] at hv
      exact ⟨v, by simpa [hne] using hv⟩

theorem step_waiting (h : Waiting s) (hn : NotifyInTime s e) (ht : step s e = some t) :
    Waiting t := by
  cases e with
  | caller => exact callerStep_waiting h ht
  | worker handled => exact workerStep_waiting h ht
  | spawnComplete u stop => exact spawnCompleteStep_waiting h hn ht
  | runOne r =>
    simp only [step, runOneStep] at ht
    split at ht
    all_goals try (split at ht)
    all_goals try (split at ht)
    all_goals cases ht
    all_goals constructor <;> simp [Parked]
  | run | spurious =>
    simp only [step] at ht
    split at ht <;> cases ht
    constructor <;> simp [Parked]

/-- A caller blocked with its predicate true is still to be notified. -/
theorem no_lost_wakeUp (hr : machine.ReachableBy NotifyInTime s) : NoLostWakeUp s := by
  have h : Waiting s := hr.invariant (by constructor <;> simp [Parked, machine, initial])
    (fun _ _ _ h hn ht => step_waiting h hn ht)
  intro hb hw
  obtain ⟨hp, hs⟩ := h.empty (Or.inr hb)
  have hf : s.finalStop = true := by simpa [State.wakeUp, hp, hs] using hw
  obtain ⟨u, hu⟩ := h.announced (Or.inr hb) hf
  exact Or.inr ⟨u, by simp [hu], by simp [hu]⟩

/-- The caller blocks before the stop is requested, and spawn_complete() has set
final_stop and is about to notify. -/
def stopWhileBlocked : List Event :=
  [.run, .caller, .worker true, .worker true, .worker true, .caller, .caller, .caller] ++
    List.replicate 4 (.spawnComplete 0 true)

theorem no_lost_wakeUp_stopWhileBlocked :
    ∃ s, machine.run machine.init stopWhileBlocked = some s ∧ s.caller = .blocked ∧
      s.wakeUp = true ∧ WakeUpDue s :=
  ⟨_, rfl, rfl, rfl, no_lost_wakeUp
    (Machine.reachableBy_of_runBy NotifyInTime stopWhileBlocked rfl) rfl rfl⟩

/-- The same threads, with final_stop and its notification between the predicate
and the block, and the worker loop leaving after it. -/
def stopWhileDeciding : List Event :=
  [.run, .caller, .worker true, .worker true, .worker true, .worker true] ++
    List.replicate 3 (.spawnComplete 0 true) ++ [.caller, .caller] ++
    List.replicate 3 (.spawnComplete 0 true) ++ [.caller, .worker true, .worker true]

/-- The caller is blocked for good: final_stop is requested, the loop has exited
and no thread is left inside start() or spawn_complete(). -/
theorem lost_wakeUp : ¬ ∀ s, machine.Reachable s → NoLostWakeUp s := by
  intro h
  rcases h _ (Machine.reachable_of_run stopWhileDeciding rfl) rfl rfl with
    ⟨op, hw | hw⟩ | ⟨u, hi, _⟩
  · cases hw
  · cases hw
  · cases u with
    | zero => exact hi rfl
    | succ n => exact hi rfl

end Sdbusplus.Proofs.CallerWait
