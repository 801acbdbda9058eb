import Sdbusplus.Async.SpawnWatcher

namespace Sdbusplus.Proofs.SpawnWatcher
open Async.SpawnWatcher

variable {s t : State} {e : Event}

/-- spawn_watcher_running stands for one watcher on its way: about to be
registered, registered, or fired and not yet cleared. -/
def OneWatcher (s : State) : Prop :=
  s.flagged + s.armed + s.fired = if s.spawnWatcherRunning then 1 else 0

theorem step_oneWatcher (h : OneWatcher s) (ht : step s e = some t) : OneWatcher t := by
  unfold OneWatcher at h ⊢
  cases e
  all_goals simp only [step, callerRun] at ht
  all_goals repeat' first | split at ht | cases ht
  all_goals first
    | exact h
    | (split at h <;> simp_all <;> omega)

/-- With tasks spawned since a watcher has fired, the last spawn_watcher() on its
way does not look at the flag that this watcher has yet to clear. -/
def FlagInTime (s : State) (e : Event) : Prop :=
  e = .watch → s.fired = 0 ∨ s.pendingTasks = 0 ∨ 1 < s.watching

instance : Decidable (FlagInTime s e) := inferInstanceAs (Decidable (_ → _))

/-- Pending work has a watcher that will observe its end, or a call of
spawn_watcher() that is still to see to one. -/
def Watched (s : State) : Prop :=
  0 < s.pendingTasks → 0 < s.armed ∨ 0 < s.watching ∨ 0 < s.flagged

theorem step_watched (ho : OneWatcher s) (h : Watched s) (hf : FlagInTime s e)
    (ht : step s e = some t) : Watched t := by
  unfold Watched at h ⊢
  cases e with
  | watch =>
    have hfired := hf rfl
    simp only [step] at ht
    split at ht
    · split at ht
      · -- The flag was set: its watcher is still due to be registered or is armed,
        -- or another call is on its way.
        rename_i hrun
        cases ht
        rw [OneWatcher, if_pos hrun] at ho
        intro hp
        dsimp only at hp ⊢
        omega
      · cases ht
        intro _
        dsimp only
        omega
    · cases ht
  | _ =>
    simp only [step, callerRun] at ht
    repeat' first | split at ht | cases ht
    all_goals dsimp only at h ⊢
    all_goals omega

/-- spawn() inserts its task before the final stop, and not between the completion
of on_empty and the end of what spawn_complete() does about a stop. -/
def InsertInTime (s : State) (e : Event) : Prop :=
  e = .insert → s.finalStop = false ∧ s.fired + s.cleared + s.requesting = 0

instance : Decidable (InsertInTime s e) := inferInstanceAs (Decidable (_ → _))

/-- While a callback of on_empty is between its completion and its final_stop,
and from final_stop on, no task is pending. -/
structure Drained (s : State) : Prop where
  callback : 0 < s.fired + s.cleared + s.requesting → s.pendingTasks = 0
  final : s.finalStop = true → s.pendingTasks = 0

theorem step_drained (h : Drained s) (hi : InsertInTime s e) (ht : step s e = some t) :
    Drained t := by
  obtain ⟨hc, hf⟩ := h
  cases e with
  | insert =>
    obtain ⟨hopen, hquiet⟩ := hi rfl
    simp only [step] at ht
    split at ht <;> cases ht
    refine ⟨fun hbusy => absurd hbusy (Nat.not_lt.mpr (Nat.le_of_eq hquiet)), fun hfinal => ?_⟩
    rw [hopen] at hfinal
    cases hfinal
  | taskDone =>
    simp only [step] at ht
    split at ht <;> cases ht
    refine ⟨fun hbusy => ?_, fun hfinal => ?_⟩
    · have hnone := hc hbusy
      dsimp only
      omega
    · have hnone := hf hfinal
      dsimp only
      omega
  | onEmpty =>
    simp only [step] at ht
    split at ht <;> cases ht
    rename_i hempty
    exact ⟨fun _ => hempty.2, hf⟩
  | clear =>
    simp only [step] at ht
    split at ht <;> cases ht
    exact ⟨fun _ => hc (by omega), hf⟩
  | testStop =>
    simp only [step] at ht
    split at ht
    · split at ht <;> cases ht
      · exact ⟨fun _ => hc (by omega), hf⟩
      · refine ⟨fun hbusy => hc ?_, hf⟩
        dsimp only at hbusy
        omega
    · cases ht
  | requestFinal =>
    simp only [step] at ht
    split at ht <;> cases ht
    exact ⟨fun _ => hc (by omega), fun _ => hc (by omega)⟩
  | _ =>
    -- The other steps leave the tasks, the callbacks before the stop and final_stop alone.
    simp only [step, callerRun] at ht
    repeat' first | split at ht | cases ht
    all_goals exact ⟨hc, hf⟩

/-- async::context does not declare itself finished while work is pending.
Pending work is watched, or a spawn_watcher() call is on its way to it; and
once final_stop is requested nothing is pending. -/
theorem pending_watched_and_final_drained :
    (machine.ReachableBy FlagInTime s →
      0 < s.pendingTasks → 0 < s.armed ∨ 0 < s.watching ∨ 0 < s.flagged) ∧
    (machine.ReachableBy InsertInTime s → s.finalStop = true → s.pendingTasks = 0) := by
  constructor
  · intro hr
    have h : OneWatcher s ∧ Watched s :=
      hr.invariant (P := fun s => OneWatcher s ∧ Watched s)
        ⟨rfl, by simp [Watched, machine, initial]⟩
        (fun _ _ _ h hf ht => ⟨step_oneWatcher h.1 ht, step_watched h.1 h.2 hf ht⟩)
    exact h.2
  · intro hr
    have h : Drained s := hr.invariant (by constructor <;> simp [machine, initial])
      (fun _ _ _ h hi ht => step_drained h hi ht)
    exact h.final

/-- One task that runs to its end, the stop being requested from inside it. -/
def oneTask : List Event :=
  [.checkStopRequested, .insert, .watch, .register, .run, .callerRun, .requestStop, .taskDone,
   .onEmpty, .clear, .testStop, .requestFinal]

theorem pending_watched_and_final_drained_oneTask :
    (∃ s, machine.run machine.init (oneTask.take 4) = some s ∧ 0 < s.pendingTasks ∧
      (0 < s.armed ∨ 0 < s.watching ∨ 0 < s.flagged)) ∧
    (∃ s, machine.run machine.init oneTask = some s ∧ s.finalStop = true ∧
      s.pendingTasks = 0) :=
  ⟨⟨_, rfl, by decide, pending_watched_and_final_drained.1
      (Machine.reachableBy_of_runBy FlagInTime (oneTask.take 4) rfl) (by decide)⟩,
    ⟨_, rfl, rfl, pending_watched_and_final_drained.2
      (Machine.reachableBy_of_runBy InsertInTime oneTask rfl) rfl⟩⟩

/-- A task is inserted before its watcher is registered. A spawn() that comes
between on_empty and the clearing of the flag ends with no watcher at all, with
nothing left on its way. And a spawn() that passed the stop check may insert its
task behind the final stop. -/
theorem pending_unwatched_and_final_pending :
    (∃ s, machine.Reachable s ∧ 0 < s.pendingTasks ∧ s.armed = 0 ∧ s.watching = 1) ∧
    (∃ s, machine.Reachable s ∧ 0 < s.pendingTasks ∧
      s.checked + s.watching + s.flagged + s.outstanding = 0) ∧
    (∃ s, machine.Reachable s ∧ s.finalStop = true ∧ 0 < s.pendingTasks) := by
  refine ⟨⟨_, Machine.reachable_of_run [.checkStopRequested, .insert] rfl, by decide⟩,
    ⟨_, Machine.reachable_of_run
      [.checkStopRequested, .insert, .watch, .register, .taskDone, .onEmpty, .checkStopRequested,
       .insert, .watch, .clear, .testStop, .notify, .breakRun] rfl, by decide⟩,
    ⟨_, Machine.reachable_of_run
      [.checkStopRequested, .insert, .watch, .register, .checkStopRequested, .requestStop,
       .taskDone, .onEmpty, .clear, .testStop, .requestFinal, .insert] rfl, by decide⟩⟩

/-- A callback of on_empty is due that will look at the stop. -/
def Due (s : State) : Prop :=
  0 < s.armed + s.fired + s.cleared

/-- A task is pending, and the spawn_watcher() that comes with it has not
registered on_empty yet. -/
def Spawning (s : State) : Prop :=
  0 < s.pendingTasks ∧ 0 < s.watching + s.flagged

/-- request_stop() comes while a watcher is registered, while its
spawn_complete() has yet to test stop_requested(), or inside the spawn() of a
task that is pending. In the last case the tasks do not all end before the
watcher is registered. -/
structure RequestHeard (s : State) (e : Event) : Prop where
  request : e = .requestStop → Due s ∨ Spawning s ∨ s.initialStop = true
  taskDone : e = .taskDone → s.initialStop = true → s.pendingTasks ≤ 1 →
    s.finalStop = true ∨ Due s ∨ 0 < s.requesting

instance : Decidable (Due s) := inferInstanceAs (Decidable (_ < _))

instance : Decidable (Spawning s) := inferInstanceAs (Decidable (_ ∧ _))

instance : Decidable (RequestHeard s e) :=
  decidable_of_iff ((e = .requestStop → Due s ∨ Spawning s ∨ s.initialStop = true) ∧
    (e = .taskDone → s.initialStop = true → s.pendingTasks ≤ 1 →
      s.finalStop = true ∨ Due s ∨ 0 < s.requesting))
    ⟨fun h => ⟨h.1, h.2⟩, fun h => ⟨h.request, h.taskDone⟩⟩

/-- The stop has reached final_stop, or a callback is on its way to it or will be
once the watcher of a pending task is registered. -/
def Carried (s : State) : Prop :=
  s.initialStop = true → s.finalStop = true ∨ Due s ∨ 0 < s.requesting ∨ Spawning s

theorem step_carried (ho : OneWatcher s) (h : Carried s) (hh : RequestHeard s e)
    (ht : step s e = some t) : Carried t := by
  unfold Carried at h ⊢
  cases e with
  | requestStop =>
    have hheard := hh.request rfl
    simp only [step] at ht
    cases ht
    intro _
    rcases hheard with hdue | hspawning | hinit
    · exact .inr (.inl hdue)
    · exact .inr (.inr (.inr hspawning))
    · exact h hinit
  | taskDone =>
    have hlast := hh.taskDone rfl
    simp only [step] at ht
    split at ht <;> cases ht
    intro hinit
    rcases Nat.lt_or_ge 1 s.pendingTasks with hmore | hone
    · -- Another task stays pending.
      rcases h hinit with hfinal | hdue | hreq | hspawning
      · exact .inl hfinal
      · exact .inr (.inl hdue)
      · exact .inr (.inr (.inl hreq))
      · exact .inr (.inr (.inr ⟨Nat.sub_pos_of_lt hmore, hspawning.2⟩))
    · rcases hlast hinit hone with hfinal | hdue | hreq
      · exact .inl hfinal
      · exact .inr (.inl hdue)
      · exact .inr (.inr (.inl hreq))
  | watch =>
    simp only [step] at ht
    split at ht
    · split at ht
      · -- The flag stands for a watcher, which takes the place of this call.
        rename_i hrun
        cases ht
        rw [OneWatcher, if_pos hrun] at ho
        intro hinit
        refine (h hinit).imp_right fun hcarried => ?_
        unfold Due Spawning at hcarried ⊢
        dsimp only
        omega
      · cases ht
        intro hinit
        refine (h hinit).imp_right fun hcarried => ?_
        unfold Due Spawning at hcarried ⊢
        dsimp only
        omega
    · cases ht
  | testStop =>
    simp only [step] at ht
    split at ht
    · split at ht <;> cases ht
      · intro _
        exact .inr (.inr (.inl (Nat.succ_pos _)))
      · -- Without a stop there is nothing to carry.
        rename_i hnot
        exact fun hinit => absurd hinit hnot
    · cases ht
  | requestFinal =>
    simp only [step] at ht
    split at ht <;> cases ht
    exact fun _ => .inl rfl
  | _ =>
    simp only [step, callerRun] at ht
    repeat' first | split at ht | cases ht
    all_goals
      intro hinit
      refine (h hinit).imp_right fun hcarried => ?_
      unfold Due Spawning at hcarried ⊢
      dsimp only
      omega

/-- A stop request is not lost: once the work and the watchers are gone, in run()
or outside it, final_stop has been requested. -/
theorem stop_not_lost (hr : machine.ReachableBy RequestHeard s) (hstop : s.initialStop = true)
    (hp : s.pendingTasks = 0) (hw : s.outstanding = 0) : s.finalStop = true := by
  have h : OneWatcher s ∧ Carried s :=
    hr.invariant (P := fun s => OneWatcher s ∧ Carried s)
      ⟨rfl, by simp [Carried, machine, initial]⟩
      (fun _ _ _ h hh ht => ⟨step_oneWatcher h.1 ht, step_carried h.1 h.2 hh ht⟩)
  unfold State.outstanding at hw
  rcases h.2 hstop with hfinal | hdue | hreq | hspawning
  · exact hfinal
  · unfold Due at hdue
    omega
  · omega
  · exact absurd hspawning.1 (by omega)

theorem stop_not_lost_oneTask :
    ∃ s, machine.run machine.init (oneTask ++ [.notify, .breakRun]) = some s ∧
      s.caller = .looping ∧ s.outstanding = 0 ∧ s.finalStop = true :=
  ⟨_, rfl, rfl, rfl, stop_not_lost
    (Machine.reachableBy_of_runBy RequestHeard (oneTask ++ [.notify, .breakRun]) rfl)
    rfl rfl rfl⟩

/-- The stop is lost when it comes before any spawn(), and when it comes after
all spawned tasks have completed. -/
theorem stop_lost :
    (∃ s, machine.run machine.init [.requestStop, .run, .callerRun] = some s ∧
      s.caller = .looping ∧ s.initialStop = true ∧ s.pendingTasks = 0 ∧ s.outstanding = 0 ∧
      s.finalStop = false) ∧
    (∃ s, machine.run machine.init
        [.checkStopRequested, .insert, .watch, .register, .run, .callerRun, .taskDone, .onEmpty,
         .clear, .testStop, .notify, .breakRun, .requestStop] = some s ∧
      s.caller = .looping ∧ s.initialStop = true ∧ s.pendingTasks = 0 ∧ s.outstanding = 0 ∧
      s.finalStop = false) :=
  ⟨⟨_, rfl, by decide⟩, ⟨_, rfl, by decide⟩⟩

end Sdbusplus.Proofs.SpawnWatcher
