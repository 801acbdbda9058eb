import Sdbusplus.Async.WaitProcess

namespace Sdbusplus.Proofs.WaitProcess
open Async.WaitProcess

variable {s t : State} {e : Event} {op : Nat}

/-- The operation the loop is awaiting: started, and not yet signalled. -/
def current : Worker → Option Nat
  | .starting op | .completing op | .staging op | .suspended op => some op
  | _ => none

def workerHolds : Worker → List Nat
  | .starting op | .completing op | .staging op => [op]
  | _ => []

def callerHolds : Caller → List Nat
  | .delivering op | .stopping op => [op]
  | _ => []

/-- Every place from which an operation can still be signalled. -/
def held (s : State) : List Nat :=
  workerHolds s.worker ++ s.staged.toList ++ s.pending.toList ++ callerHolds s.caller

def signalCount (s : State) (op : Nat) : Nat := (s.signals.map Prod.fst).count op

/-- One token per awaited operation: it is in exactly one place, and an
operation has been signalled once exactly if it is no longer awaited. -/
structure Ownership (s : State) : Prop where
  held : held s = (current s.worker).toList
  latest : ∀ op, current s.worker = some op → op + 1 = s.started
  counted : ∀ op, signalCount s op =
    if op < s.started ∧ current s.worker ≠ some op then 1 else 0

/-- Steps that only move the token, or move none. -/
theorem Ownership.congr (h : Ownership s) (hc : current t.worker = current s.worker)
    (hh : WaitProcess.held t = WaitProcess.held s) (hs : t.started = s.started)
    (hg : t.signals = s.signals) : Ownership t := by
  refine ⟨by rw [hh, hc]; exact h.held, by rw [hc, hs]; exact h.latest, ?_⟩
  intro op
  rw [hc, hs, signalCount, hg]
  exact h.counted op

/-- Only a suspended operation can be in the hands of the caller. -/
theorem Ownership.suspended (h : Ownership s) (hc : callerHolds s.caller = [op]) :
    s.worker = .suspended op ∧ s.staged = none ∧ s.pending = none := by
  have hh := h.held
  rw [WaitProcess.held, hc] at hh
  cases hw : s.worker <;> cases hs : s.staged <;> cases hp : s.pending <;>
    simp_all [current, workerHolds]

/-- Two tokens are never out, so a staged operation leaves pending empty. -/
theorem Ownership.staged_alone (h : Ownership s) (hs : s.staged = some op) :
    s.pending = none := by
  have hh := h.held
  cases hw : s.worker <;> cases hp : s.pending <;>
    simp_all [WaitProcess.held, workerHolds, current]

/-- Signalling the awaited operation uses up its token. -/
theorem Ownership.spend (h : Ownership s) (op : Nat) (sig : Signal)
    (hc : current s.worker = some op) (hw : current t.worker = none)
    (hh : WaitProcess.held t = []) (hs : t.started = s.started)
    (hg : t.signals = (op, sig) :: s.signals) : Ownership t := by
  refine ⟨by simp [hh, hw], by simp [hw], ?_⟩
  intro o
  have ho := h.counted o
  have hl := h.latest op hc
  simp only [signalCount, hg, List.map_cons, List.count_cons] at ho ⊢
  rw [ho, hw, hs, hc]
  by_cases he : op = o
  · subst o
    have hlt : op < s.started := by omega
    simp [hlt]
  · simp [he]

theorem Ownership.signal (h : Ownership s) (hc : callerHolds s.caller = [op]) (sig : Signal)
    {c : Caller} (hn : callerHolds c = []) :
    Ownership { s.signal op sig with caller := c } := by
  obtain ⟨hw, hs, hp⟩ := h.suspended hc
  refine h.spend op sig (by simp [hw, current]) ?_ ?_ rfl rfl
  · simp [State.signal, hw, current]
  · simp [WaitProcess.held, State.signal, hw, workerHolds, hs, hp, hn]

theorem callerStep_ownership (h : Ownership s) (ht : callerStep s = some t) : Ownership t := by
  cases hp : s.caller with
  | outside | blocked | runOne | returned => simp [callerStep, hp] at ht
  | callerRun =>
    simp only [callerStep, hp] at ht
    split at ht <;> cases ht
    · exact h.congr rfl (by simp [held, callerHolds, hp]) rfl rfl
    · refine h.congr ?_ ?_ rfl rfl
      · cases hw : s.worker <;> rfl
      · cases hw : s.worker <;> simp [held, callerHolds, hp, hw, Worker.launch, workerHolds]
  | keepRunning | deciding | afterWait =>
    simp only [callerStep, hp] at ht
    cases ht
    refine h.congr rfl ?_ rfl rfl
    simp only [held, hp]
    try split
    all_goals rfl
  | waitOnce =>
    simp only [callerStep, hp] at ht
    split at ht
    · split at ht <;> cases ht
      · exact h.congr rfl (by simp [held, callerHolds, hp]) rfl rfl
      · rename_i hn
        exact h.congr rfl (by simp [held, callerHolds, hp, hn]) rfl rfl
    · cases ht
      exact h.congr rfl (by simp [held, callerHolds, hp]) rfl rfl
  | delivering op | stopping op =>
    simp only [callerStep, hp] at ht
    cases ht
    exact h.signal (by simp [hp, callerHolds]) _ rfl
  | takePending =>
    simp only [callerStep, hp] at ht
    split at ht <;> cases ht
    all_goals
      rename_i hn
      exact h.congr rfl (by simp [held, callerHolds, hp, hn]) rfl rfl
  | takeStaged =>
    simp only [callerStep, hp] at ht
    split at ht
    · cases ht
      exact h.congr rfl (by simp [held, callerHolds, hp]) rfl rfl
    · split at ht <;> cases ht
      · rename_i hn
        exact h.congr rfl (by simp [held, callerHolds, hp, hn, h.staged_alone hn]) rfl rfl
      · exact h
  | markStopped =>
    simp only [callerStep, hp] at ht
    cases ht
    exact h.congr rfl (by simp [held, callerHolds, hp]) rfl rfl

/-- The three ways out of run_one. -/
theorem runOneStep_moves {r : RunOne} (ht : runOneStep r s = some t) : s.caller = .runOne ∧
    (t = { s with caller := .outside } ∨ t = { s with caller := .keepRunning } ∨
      ∃ op, s.pending = some op ∧ t = { s with pending := none, caller := .delivering op }) := by
  unfold runOneStep at ht
  split at ht
  · rename_i hp
    refine ⟨hp, ?_⟩
    split at ht
    · exact .inl (Option.some.inj ht).symm
    · exact .inr (.inl (Option.some.inj ht).symm)
    · split at ht
      · rename_i op hop
        exact .inr (.inr ⟨op, hop, (Option.some.inj ht).symm⟩)
      · exact .inr (.inl (Option.some.inj ht).symm)
  · cases ht

theorem runOneStep_ownership {r : RunOne} (h : Ownership s) (ht : runOneStep r s = some t) :
    Ownership t := by
  obtain ⟨hp, rfl | rfl | ⟨op, hop, rfl⟩⟩ := runOneStep_moves ht
  · exact h.congr rfl (by simp [held, callerHolds, hp]) rfl rfl
  · exact h.congr rfl (by simp [held, callerHolds, hp]) rfl rfl
  · exact h.congr rfl (by simp [held, callerHolds, hp, hop]) rfl rfl

theorem workerStep_ownership {handled : Bool} (h : Ownership s)
    (ht : workerStep handled s = some t) : Ownership t := by
  have hh := h.held
  cases hw : s.worker with
  | unborn | suspended _ | exited => simp [workerStep, hw] at ht
  | loopHead =>
    simp only [workerStep, hw] at ht
    split at ht <;> cases ht
    · exact h.congr (by simp [hw, current]) (by simp [held, hw, workerHolds]) rfl rfl
    · -- A fresh operation: nothing was held, and no signal carries its number.
      refine ⟨?_, by simp [current], ?_⟩
      · simpa [held, hw, workerHolds, current] using hh
      · intro o
        have ho := h.counted o
        simp only [hw, current, signalCount, reduceCtorEq, ne_eq, not_false_eq_true,
          and_true, Option.some.injEq] at ho ⊢
        rw [ho]
        split <;> split <;> omega
  | starting op =>
    simp only [workerStep, hw] at ht
    cases ht
    cases handled <;>
      exact h.congr (by simp [hw, current]) (by simp [held, hw, workerHolds]) rfl rfl
  | completing op =>
    simp only [workerStep, hw] at ht
    cases ht
    refine h.spend op .complete (by simp [hw, current]) rfl ?_ rfl rfl
    simpa [held, hw, workerHolds, current] using hh
  | staging op =>
    simp only [workerStep, hw] at ht
    split at ht <;> cases ht
    refine h.congr (by simp [hw, current, State.notifyOne]) ?_ rfl rfl
    simp only [held, hw, workerHolds, current, State.notifyOne] at hh ⊢
    by_cases hb : s.caller = .blocked <;> simp_all [callerHolds]
  | resumed op =>
    simp only [workerStep, hw] at ht
    cases ht
    exact h.congr (by simp [hw, current]) (by simp [held, hw, workerHolds]) rfl rfl
  | loopEnd =>
    simp only [workerStep, hw] at ht
    split at ht <;> cases ht
    exact h.congr (by simp [hw, current]) (by simp [held, hw, workerHolds]) rfl rfl

theorem held_notifyOne (s : State) : held s.notifyOne = held s := by
  simp only [held, State.notifyOne]
  split
  · rename_i hb
    simp [hb, callerHolds]
  · rfl

theorem spawnCompleteStep_ownership {u : Nat} {stop : Bool} (h : Ownership s)
    (ht : spawnCompleteStep u stop s = some t) : Ownership t := by
  unfold spawnCompleteStep at ht
  split at ht
  all_goals try (split at ht)
  all_goals cases ht
  all_goals first
    | exact h.congr rfl rfl rfl rfl
    | exact h.congr rfl (held_notifyOne s) rfl rfl

theorem step_ownership (h : Ownership s) (ht : step s e = some t) : Ownership t := by
  cases e with
  | caller => exact callerStep_ownership h ht
  | runOne r => exact runOneStep_ownership h ht
  | worker handled => exact workerStep_ownership h ht
  | spawnComplete u stop => exact spawnCompleteStep_ownership h ht
  | run =>
    simp only [step] at ht
    split at ht <;> cases ht
    rename_i hp
    rcases hp with hp | hp <;> exact h.congr rfl (by simp [held, callerHolds, hp]) rfl rfl
  | spurious =>
    simp only [step] at ht
    split at ht <;> cases ht
    rename_i hp
    exact h.congr rfl (by simp [held, callerHolds, hp]) rfl rfl

theorem reachable_ownership (hr : machine.Reachable s) : Ownership s :=
  hr.invariant ⟨rfl, by simp [machine, initial, current], by simp [machine, initial, signalCount]⟩
    (fun _ _ _ h _ ht => step_ownership h ht)

/-- The caller is past its run loop. -/
def Leaving : Caller → Prop
  | .takePending | .takeStaged | .stopping _ | .markStopped | .returned => True
  | _ => False

/-- Once wait_process_stopped is set, or is about to be, the loop awaits nothing
and final_stop keeps it from starting again. -/
structure Shutdown (s : State) : Prop where
  leaving : Leaving s.caller → s.finalStop = true
  ending : s.worker = .loopEnd ∨ s.worker = .exited → s.finalStop = true
  marking : s.caller = .markStopped → current s.worker = none
  stopped : s.waitProcessStopped = true → s.finalStop = true ∧ current s.worker = none
  returned : s.caller = .returned → s.waitProcessStopped = true

/-- The caller goes somewhere else, and may move the token. -/
theorem Shutdown.moveCaller (h : Shutdown s) {c : Caller} {pending staged : Option Nat}
    (hl : Leaving c → s.finalStop = true) (hm : c = .markStopped → current s.worker = none)
    (hr : c = .returned → s.waitProcessStopped = true) :
    Shutdown { s with caller := c, pending := pending, staged := staged } :=
  ⟨hl, h.ending, hm, h.stopped, hr⟩

/-- The loop goes on. It begins to await an operation only while no final stop has
been requested. -/
theorem Shutdown.moveWorker (h : Shutdown s) {w : Worker} {staged : Option Nat} {started : Nat}
    {signals : List (Nat × Signal)}
    (he : w = .loopEnd ∨ w = .exited → s.finalStop = true)
    (hc : current w = none ∨ current s.worker ≠ none ∨ s.finalStop = false) :
    Shutdown { s with worker := w, staged := staged, started := started, signals := signals } := by
  have hquiet : s.finalStop = true → current s.worker = none → current w = none := by
    intro hf hn
    rcases hc with hc | hc | hc
    · exact hc
    · exact absurd hn hc
    · exact absurd (hc.symm.trans hf) nofun
  refine ⟨h.leaving, he, fun hm => ?_, fun hs => ?_, h.returned⟩
  · exact hquiet (h.leaving (by rw [show s.caller = _ from hm]; trivial)) (h.marking hm)
  · obtain ⟨hf, hn⟩ := h.stopped hs
    exact ⟨hf, hquiet hf hn⟩

theorem Shutdown.notifyOne (h : Shutdown s) : Shutdown s.notifyOne := by
  by_cases hb : s.caller = .blocked
  · rw [State.notifyOne, if_pos hb]
    exact h.moveCaller nofun nofun nofun
  · rw [State.notifyOne, if_neg hb]
    exact h

/-- The operation the caller signals was the last one awaited. -/
theorem Shutdown.signal (h : Shutdown s) (hw : s.worker = .suspended op) {sig : Signal} {c : Caller}
    (hl : Leaving c → s.finalStop = true) (hr : c ≠ .returned) :
    Shutdown { s.signal op sig with caller := c } := by
  have hsig : s.signal op sig =
      { s with signals := (op, sig) :: s.signals, worker := .resumed op } := by
    rw [State.signal, if_pos hw]
  rw [hsig]
  exact ⟨hl, nofun, fun _ => rfl, fun hs => ⟨(h.stopped hs).1, rfl⟩, fun hc => absurd hc hr⟩

theorem callerStep_shutdown (ho : Ownership s) (h : Shutdown s) (ht : callerStep s = some t) :
    Shutdown t := by
  cases hp : s.caller with
  | outside | blocked | runOne | returned => simp [callerStep, hp] at ht
  | callerRun =>
    simp only [callerStep, hp] at ht
    split at ht <;> cases ht
    · rename_i hf
      exact h.moveCaller (fun _ => hf) nofun nofun
    · refine ⟨nofun, fun he => ?_, nofun, fun hs => ?_, nofun⟩
      · exact h.ending (by cases hw : s.worker <;> simp_all [Worker.launch])
      · refine ⟨(h.stopped hs).1, ?_⟩
        have hn := (h.stopped hs).2
        cases hw : s.worker <;> simp_all [Worker.launch, current]
  | keepRunning =>
    simp only [callerStep, hp] at ht
    cases ht
    refine h.moveCaller (fun hl => ?_) (fun hm => ?_) (fun hr => ?_)
    all_goals cases hf : s.finalStop <;> simp_all [Leaving]
  | waitOnce =>
    simp only [callerStep, hp] at ht
    split at ht
    · split at ht <;> cases ht
      all_goals exact h.moveCaller nofun nofun nofun
    · cases ht
      exact h.moveCaller nofun nofun nofun
  | deciding =>
    simp only [callerStep, hp] at ht
    cases ht
    exact h.moveCaller nofun nofun nofun
  | afterWait =>
    simp only [callerStep, hp] at ht
    cases ht
    refine h.moveCaller (fun hl => ?_) (fun hm => ?_) (fun hr => ?_)
    · split at hl <;> cases hl
    · split at hm <;> cases hm
    · split at hr <;> cases hr
  | takePending =>
    have hf := h.leaving (by rw [hp]; trivial)
    simp only [callerStep, hp] at ht
    split at ht <;> cases ht
    all_goals exact h.moveCaller (fun _ => hf) nofun nofun
  | takeStaged =>
    have hf := h.leaving (by rw [hp]; trivial)
    simp only [callerStep, hp] at ht
    split at ht
    · rename_i hstopped
      cases ht
      exact h.moveCaller (fun _ => hf) nofun (fun _ => hstopped)
    · split at ht <;> cases ht
      · exact h.moveCaller (fun _ => hf) nofun nofun
      · exact h
  | markStopped =>
    have hf := h.leaving (by rw [hp]; trivial)
    simp only [callerStep, hp] at ht
    cases ht
    exact ⟨fun _ => hf, h.ending, nofun, fun _ => ⟨hf, h.marking hp⟩, fun _ => rfl⟩
  | delivering op =>
    have hw := (ho.suspended (show callerHolds s.caller = [op] by rw [hp]; rfl)).1
    simp only [callerStep, hp] at ht
    cases ht
    exact h.signal hw nofun nofun
  | stopping op =>
    have hw := (ho.suspended (show callerHolds s.caller = [op] by rw [hp]; rfl)).1
    have hf := h.leaving (by rw [hp]; trivial)
    simp only [callerStep, hp] at ht
    cases ht
    exact h.signal hw (fun _ => hf) nofun

theorem runOneStep_shutdown {r : RunOne} (h : Shutdown s) (ht : runOneStep r s = some t) :
    Shutdown t := by
  obtain ⟨-, rfl | rfl | ⟨op, -, rfl⟩⟩ := runOneStep_moves ht
  · exact h.moveCaller nofun nofun nofun
  · exact h.moveCaller nofun nofun nofun
  · exact h.moveCaller nofun nofun nofun

theorem workerStep_shutdown {handled : Bool} (h : Shutdown s)
    (ht : workerStep handled s = some t) : Shutdown t := by
  cases hw : s.worker with
  | unborn | suspended _ | exited => simp [workerStep, hw] at ht
  | loopHead =>
    simp only [workerStep, hw] at ht
    split at ht <;> cases ht
    · rename_i hf
      exact h.moveWorker (fun _ => hf) (.inl rfl)
    · rename_i hf
      exact h.moveWorker nofun (.inr (.inr (by simpa using hf)))
  | starting op =>
    have hawaited : current s.worker ≠ none := by rw [hw]; exact nofun
    simp only [workerStep, hw] at ht
    cases ht
    refine h.moveWorker (fun he => ?_) (.inr (.inl hawaited))
    cases handled <;> rcases he with he | he <;> cases he
  | completing op =>
    simp only [workerStep, hw] at ht
    cases ht
    exact h.moveWorker nofun (.inl rfl)
  | staging op =>
    have hawaited : current s.worker ≠ none := by rw [hw]; exact nofun
    simp only [workerStep, hw] at ht
    split at ht <;> cases ht
    have hmoved : Shutdown { s with staged := some op, worker := .suspended op } :=
      h.moveWorker nofun (.inr (.inl hawaited))
    exact hmoved.notifyOne
  | resumed op =>
    simp only [workerStep, hw] at ht
    cases ht
    exact h.moveWorker nofun (.inl rfl)
  | loopEnd =>
    have hf := h.ending (.inl hw)
    simp only [workerStep, hw] at ht
    split at ht <;> cases ht
    exact ⟨h.leaving, fun _ => hf, fun _ => rfl, fun _ => ⟨hf, rfl⟩, fun _ => rfl⟩

theorem spawnCompleteStep_shutdown {u : Nat} {stop : Bool} (h : Shutdown s)
    (ht : spawnCompleteStep u stop s = some t) : Shutdown t := by
  cases hu : s.spawnComplete u with
  | requesting =>
    simp only [spawnCompleteStep, hu] at ht
    cases ht
    exact ⟨fun _ => rfl, fun _ => rfl, h.marking, fun hs => ⟨rfl, (h.stopped hs).2⟩, h.returned⟩
  | notifying =>
    simp only [spawnCompleteStep, hu] at ht
    cases ht
    exact { h.notifyOne with }
  | idle | clearing | testing | breaking =>
    simp only [spawnCompleteStep, hu] at ht
    try (split at ht)
    all_goals cases ht
    all_goals exact { h with }

theorem step_shutdown (ho : Ownership s) (h : Shutdown s) (ht : step s e = some t) :
    Shutdown t := by
  cases e with
  | caller => exact callerStep_shutdown ho h ht
  | runOne r => exact runOneStep_shutdown h ht
  | worker handled => exact workerStep_shutdown h ht
  | spawnComplete u stop => exact spawnCompleteStep_shutdown h ht
  | run | spurious =>
    simp only [step] at ht
    split at ht <;> cases ht
    exact h.moveCaller nofun nofun nofun

theorem reachable_shutdown (hr : machine.Reachable s) : Shutdown s := by
  have h : Ownership s ∧ Shutdown s :=
    hr.invariant (P := fun s => Ownership s ∧ Shutdown s)
      ⟨reachable_ownership .init, by constructor <;> simp [machine, initial, Leaving]⟩
      (fun _ _ _ h _ ht => ⟨step_ownership h.1 ht, step_shutdown h.1 h.2 ht⟩)
  exact h.2

/-- An operation on which start() was called and which got no signal yet. -/
def Outstanding (s : State) (op : Nat) : Prop :=
  op < s.started ∧ signalCount s op = 0

theorem Ownership.outstanding_iff (h : Ownership s) :
    Outstanding s op ↔ current s.worker = some op := by
  have hc := h.counted op
  have hl := h.latest op
  unfold Outstanding
  constructor
  · rintro ⟨hlt, h0⟩
    by_cases hw : current s.worker = some op
    · exact hw
    · rw [if_pos ⟨hlt, hw⟩] at hc
      omega
  · intro hw
    rw [if_neg (by simp [hw])] at hc
    have := hl hw
    exact ⟨by omega, hc⟩

/-- The loop is over: nothing is awaited, and final_stop bars a new operation. -/
def Quiet (n : Nat) (s : State) : Prop :=
  s.finalStop = true ∧ current s.worker = none ∧ s.started = n

/-- What the caller does to the loop: nothing, or it launches it, or it signals it. -/
theorem callerStep_frame (ht : callerStep s = some t) :
    (t.worker = s.worker ∨ t.worker = s.worker.launch ∨
      ∃ op, t.worker = (s.signal op .complete).worker) ∧
    t.finalStop = s.finalStop ∧ t.started = s.started := by
  simp only [callerStep] at ht
  split at ht
  all_goals try (split at ht)
  all_goals try (split at ht)
  all_goals cases ht
  all_goals first
    | exact ⟨.inl rfl, rfl, rfl⟩
    | exact ⟨.inr (.inl rfl), rfl, rfl⟩
    | exact ⟨.inr (.inr ⟨_, rfl⟩), rfl, rfl⟩

theorem runOneStep_frame {r : RunOne} (ht : runOneStep r s = some t) :
    t.worker = s.worker ∧ t.finalStop = s.finalStop ∧ t.started = s.started := by
  obtain ⟨-, rfl | rfl | ⟨op, -, rfl⟩⟩ := runOneStep_moves ht
  · exact ⟨rfl, rfl, rfl⟩
  · exact ⟨rfl, rfl, rfl⟩
  · exact ⟨rfl, rfl, rfl⟩

theorem spawnCompleteStep_frame {u : Nat} {stop : Bool} (ht : spawnCompleteStep u stop s = some t) :
    t.worker = s.worker ∧ (s.finalStop = true → t.finalStop = true) ∧ t.started = s.started := by
  unfold spawnCompleteStep at ht
  split at ht
  all_goals try (split at ht)
  all_goals cases ht
  all_goals first
    | exact ⟨rfl, id, rfl⟩
    | exact ⟨rfl, fun _ => rfl, rfl⟩

/-- Apart from the caller and the loop itself no step moves the loop, and a final stop stays
requested. -/
theorem step_frame (ht : step s e = some t) :
    (e = .caller ∧ callerStep s = some t) ∨
    (∃ handled, e = .worker handled ∧ workerStep handled s = some t) ∨
    t.worker = s.worker ∧ (s.finalStop = true → t.finalStop = true) ∧ t.started = s.started := by
  cases e with
  | caller => exact .inl ⟨rfl, ht⟩
  | worker handled => exact .inr (.inl ⟨handled, rfl, ht⟩)
  | runOne r =>
    obtain ⟨hw, hf, hn⟩ := runOneStep_frame ht
    exact .inr (.inr ⟨hw, fun h => hf.trans h, hn⟩)
  | spawnComplete u stop => exact .inr (.inr (spawnCompleteStep_frame ht))
  | run | spurious =>
    simp only [step] at ht
    split at ht <;> cases ht
    exact .inr (.inr ⟨rfl, id, rfl⟩)

theorem current_launch (w : Worker) : current w.launch = current w := by
  cases w <;> rfl

theorem current_signal {sig : Signal} (hc : current s.worker = none) :
    current (s.signal op sig).worker = none := by
  simp only [State.signal]
  split
  · rfl
  · exact hc

theorem workerStep_quiet {n : Nat} {handled : Bool} (h : Quiet n s)
    (ht : workerStep handled s = some t) : Quiet n t := by
  obtain ⟨hf, hc, hn⟩ := h
  cases hw : s.worker <;> simp only [hw, current, reduceCtorEq] at hc
  all_goals simp only [workerStep, hw, hf, if_true, reduceCtorEq] at ht
  all_goals try (split at ht)
  all_goals cases ht
  all_goals first
    | exact ⟨hf, rfl, hn⟩
    | exact ⟨rfl, rfl, hn⟩

theorem step_quiet {n : Nat} (h : Quiet n s) (ht : step s e = some t) : Quiet n t := by
  obtain ⟨-, hcaller⟩ | ⟨handled, -, hworker⟩ | ⟨hw, hstop, hstarted⟩ := step_frame ht
  · obtain ⟨hf, hc, hn⟩ := h
    obtain ⟨hw, hstop, hstarted⟩ := callerStep_frame hcaller
    refine ⟨hstop.trans hf, ?_, hstarted.trans hn⟩
    obtain hw | hw | ⟨op, hw⟩ := hw
    · rw [hw, hc]
    · rw [hw, current_launch, hc]
    · rw [hw, current_signal hc]
  · exact workerStep_quiet h hworker
  · obtain ⟨hf, hc, hn⟩ := h
    exact ⟨hstop hf, by rw [hw, hc], hstarted.trans hn⟩

/-- The wait/process handshake. At most one operation is outstanding; it is in
exactly one place, so it can still be signalled once and nowhere twice; staged
and pending are never both set, and staged is empty whenever start() writes it.
When wait_for_wait_process_stopped returns, every operation has had its one
signal, and no later step of any thread starts another. -/
theorem handshake_exactly_once (hr : machine.Reachable s) :
    (∀ op op', Outstanding s op → Outstanding s op' → op = op') ∧
    (s.staged = none ∨ s.pending = none) ∧
    (∀ op, s.worker = .staging op → s.staged = none) ∧
    (∀ op, op < s.started →
      signalCount s op = 1 ∨ signalCount s op = 0 ∧ held s = [op]) ∧
    (s.caller = .returned →
      (∀ op, op < s.started → signalCount s op = 1) ∧
      ∀ es t, machine.run s es = some t → t.started = s.started) := by
  have ho := reachable_ownership hr
  have hs := reachable_shutdown hr
  have hone : ∀ op, op < s.started →
      signalCount s op = 1 ∨ signalCount s op = 0 ∧ held s = [op] := by
    intro op hlt
    have hc := ho.counted op
    by_cases hw : current s.worker = some op
    · exact Or.inr ⟨by simpa [hw] using hc, by simp [ho.held, hw]⟩
    · exact Or.inl (by simpa [hlt, hw] using hc)
  refine ⟨?_, ?_, ?_, hone, ?_⟩
  · intro op op' h h'
    have hw := ho.outstanding_iff.mp h
    have hw' := ho.outstanding_iff.mp h'
    exact Option.some.inj (hw.symm.trans hw')
  · cases hst : s.staged with
    | none => exact Or.inl rfl
    | some op => exact Or.inr (ho.staged_alone hst)
  · intro op hw
    have hh := ho.held
    cases hst : s.staged <;> simp_all [held, workerHolds, current]
  · intro hret
    obtain ⟨hf, hc⟩ := hs.stopped (hs.returned hret)
    refine ⟨?_, ?_⟩
    · intro op hlt
      simpa [hlt, hc] using ho.counted op
    · intro es t hrun
      have hq : Quiet s.started t :=
        Machine.run_keeps ⟨hf, hc, rfl⟩ hrun (fun _ _ _ h ht => step_quiet h ht)
      exact hq.2.2

/-- One bus wait delivered, one stopped at shutdown, then the loop runs out. -/
def shutdownRun : List Event :=
  [.run, .caller, .worker false, .worker false, .worker false, .caller, .caller, .caller,
   .runOne .busEvent, .caller, .worker false, .worker false, .worker false, .worker false,
   .spawnComplete 0 true, .spawnComplete 0 true, .spawnComplete 0 true, .spawnComplete 0 true,
   .caller, .caller, .caller, .caller, .caller]

theorem handshake_exactly_once_shutdownRun :
    ∃ s, machine.run machine.init shutdownRun = some s ∧ s.caller = .returned ∧
      s.started = 2 ∧ (∀ op, op < s.started → signalCount s op = 1) := by
  refine ⟨_, rfl, rfl, rfl, ?_⟩
  exact ((handshake_exactly_once (Machine.reachable_of_run shutdownRun rfl)).2.2.2.2 rfl).1

end Sdbusplus.Proofs.WaitProcess
