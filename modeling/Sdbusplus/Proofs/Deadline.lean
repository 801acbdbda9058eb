import Sdbusplus.Async.Deadline
import Sdbusplus.Proofs.WaitProcess

namespace Sdbusplus.Proofs.Deadline
open Async.Deadline

variable {s t : State} {e : Event} {op n : Nat}

/-- The event of the handshake that a step is. -/
def plain : Event → Async.WaitProcess.Event
  | .context e => e
  | .stage _ => .worker false
  | .runOne r => .runOne r.runOne

/-- What a step does to the handshake, and what it keeps with it. -/
inductive Stepped (s : State) : Event → State → Prop
  | context (e : Async.WaitProcess.Event) (c : Async.WaitProcess.State)
      (other : ∀ r, e ≠ .runOne r)
      (staged : ∀ op, e = .worker false → s.context.worker ≠ .starting op)
      (handshake : Async.WaitProcess.step s.context e = some c) :
      Stepped s (.context e) { s with context := c }
  | stage (toUsec : UInt64) (op : Nat) (c : Async.WaitProcess.State)
      (starting : s.context.worker = .starting op)
      (handshake : Async.WaitProcess.step s.context (.worker false) = some c) :
      Stepped s (.stage toUsec)
        { context := c
          deadline := fun o => if o = op then toUsec else s.deadline o
          timeout := fun o => if o = op then chronoTimeout toUsec else s.timeout o }
  | runOne (r : RunEnd) (op : Nat) (c : Async.WaitProcess.State)
      (pending : s.context.pending = some op)
      (limited : ¬ (r = .timeout ∧ longestWait (sdEventTimeout (s.timeout op)) = ⊤))
      (handshake : Async.WaitProcess.step s.context (.runOne r.runOne) = some c) :
      Stepped s (.runOne r) { s with context := c }

theorem step_stepped (ht : step s e = some t) : Stepped s e t := by
  cases e with
  | context e =>
    simp only [step] at ht
    split at ht
    · cases ht
    · cases ht
    · rename_i hrun hstart
      obtain ⟨c, hc, rfl⟩ := Option.map_eq_some_iff.mp ht
      exact .context _ c hrun (fun op he hw => hstart op he hw) hc
  | stage toUsec =>
    simp only [step, stage] at ht
    split at ht
    · rename_i op ho
      obtain ⟨c, hc, rfl⟩ := Option.map_eq_some_iff.mp ht
      exact .stage toUsec op c ho hc
    · cases ht
  | runOne r =>
    simp only [step, runOne] at ht
    split at ht
    · rename_i op hop
      split at ht
      · cases ht
      · rename_i hlimited
        obtain ⟨c, hc, rfl⟩ := Option.map_eq_some_iff.mp ht
        exact .runOne r op c hop hlimited hc
    · cases ht

/-- The deadlines leave the handshake as it is. -/
theorem step_plain (ht : step s e = some t) :
    Async.WaitProcess.step s.context (plain e) = some t.context := by
  cases step_stepped ht with
  | context e c other staged handshake => exact handshake
  | stage toUsec op c starting handshake => exact handshake
  | runOne r op c pending limited handshake => exact handshake

theorem plain_busEvent (hp : plain e = .runOne .busEvent) (ht : step s e = some t) :
    e = .runOne .busEvent := by
  cases step_stepped ht with
  | context e c other staged handshake => exact absurd hp (other .busEvent)
  | stage toUsec op c starting handshake => cases hp
  | runOne r op c pending limited handshake =>
    cases r <;> simp [plain, RunEnd.runOne] at hp ⊢

theorem reachable_context (hr : machine.Reachable s) :
    Async.WaitProcess.machine.Reachable s.context := by
  refine hr.invariant (P := fun s => Async.WaitProcess.machine.Reachable s.context) .init ?_
  intro s e t h _ ht
  have hc : Async.WaitProcess.machine.step s.context (plain e) = some t.context := step_plain ht
  exact .step h trivial hc

section Handshake
open Async.WaitProcess Proofs.WaitProcess

variable {c c' : Async.WaitProcess.State} {e : Async.WaitProcess.Event}

/-- Past the process_discard of its start(), which handled nothing. -/
def Waits (w : Worker) (op : Nat) : Prop := w = .staging op ∨ w = .suspended op

theorem waits_launch {w : Worker} (hw : Waits w.launch op) : Waits w op := by
  cases w <;> simp [Waits, Worker.launch] at hw ⊢ <;> exact hw

theorem waits_signal (o : Nat) (sig : Signal) (hw : Waits (c.signal o sig).worker op) :
    Waits c.worker op := by
  simp only [State.signal] at hw
  split at hw
  · simp [Waits] at hw
  · exact hw

theorem callerStep_waits (ht : callerStep c = some c') (hw : Waits c'.worker op) :
    Waits c.worker op := by
  obtain heq | heq | ⟨o, heq⟩ := (callerStep_frame ht).1
  · rwa [heq] at hw
  · rw [heq] at hw
    exact waits_launch hw
  · rw [heq] at hw
    exact waits_signal o .complete hw

theorem workerStep_waits {handled : Bool} (ht : workerStep handled c = some c')
    (hw : Waits c'.worker op) :
    Waits c.worker op ∨ c.worker = .starting op ∧ handled = false := by
  cases hc : c.worker with
  | unborn | suspended _ | exited => simp [workerStep, hc] at ht
  | loopHead =>
    simp only [workerStep, hc] at ht
    split at ht <;> cases ht <;> simp [Waits] at hw
  | starting o =>
    simp only [workerStep, hc] at ht
    cases ht
    cases handled with
    | true => simp [Waits] at hw
    | false =>
      simp only [Waits, Bool.false_eq_true, if_false, Worker.staging.injEq, reduceCtorEq,
        or_false] at hw
      exact .inr ⟨by rw [hw], rfl⟩
  | completing _ | resumed _ =>
    simp only [workerStep, hc] at ht
    cases ht
    simp [Waits] at hw
  | staging o =>
    simp only [workerStep, hc] at ht
    split at ht <;> cases ht
    simp only [Waits, State.notifyOne, reduceCtorEq, false_or, Worker.suspended.injEq] at hw
    exact .inl (.inl (by rw [hw]))
  | loopEnd =>
    simp only [workerStep, hc] at ht
    split at ht <;> cases ht
    simp [Waits] at hw

/-- Only start() makes an operation one that waits. -/
theorem step_waits (ht : Async.WaitProcess.step c e = some c') (hw : Waits c'.worker op) :
    Waits c.worker op ∨ c.worker = .starting op ∧ e = .worker false := by
  obtain ⟨-, hcaller⟩ | ⟨handled, rfl, hworker⟩ | ⟨heq, -, -⟩ := step_frame ht
  · exact .inl (callerStep_waits hcaller hw)
  · obtain h | ⟨hc, rfl⟩ := workerStep_waits hworker hw
    · exact .inl h
    · exact .inr ⟨hc, rfl⟩
  · rw [heq] at hw
    exact .inl hw

/-- The operation whose wait runs is suspended, and nothing was signalled to it. -/
theorem pending_suspended (ho : Ownership c) (hp : c.pending = some op) :
    c.worker = .suspended op ∧ signalCount c op = 0 := by
  have hh := ho.held
  have hc : current c.worker = some op := by
    cases hw : c.worker <;> cases hs : c.staged <;>
      simp_all [held, workerHolds, current]
  have hcount := ho.counted op
  rw [if_neg (by simp [hc])] at hcount
  refine ⟨?_, hcount⟩
  cases hw : c.worker <;> simp_all [held, workerHolds, current]

/-- The wait is staged, and only a bus event can end it. -/
structure Stalled (n op : Nat) (c : Async.WaitProcess.State) : Prop where
  running : c.finalStop = false
  suspended : c.worker = .suspended op
  pending : c.pending = some op
  undelivered : ∀ o, c.caller ≠ .delivering o
  started : c.started = n

/-- The loop ends before it starts another operation. -/
def Retiring (n op : Nat) (c : Async.WaitProcess.State) : Prop :=
  Quiet n c ∨ c.finalStop = true ∧ c.worker = .suspended op ∧ c.started = n

theorem callerStep_retiring (hf : c.finalStop = true) (hw : c.worker = .suspended op)
    (hn : c.started = n) (ht : callerStep c = some c') : Retiring n op c' := by
  obtain ⟨hworker, hstop, hstarted⟩ := callerStep_frame ht
  have hf' : c'.finalStop = true := hstop.trans hf
  have hn' : c'.started = n := hstarted.trans hn
  obtain heq | heq | ⟨o, heq⟩ := hworker
  · exact .inr ⟨hf', heq.trans hw, hn'⟩
  · exact .inr ⟨hf', heq.trans (congrArg Worker.launch hw), hn'⟩
  · by_cases ho : op = o
    · exact .inl ⟨hf', by simp [heq, State.signal, hw, ho, current], hn'⟩
    · exact .inr ⟨hf', by simp [heq, State.signal, hw, ho], hn'⟩

theorem step_retiring (h : Retiring n op c) (ht : Async.WaitProcess.step c e = some c') :
    Retiring n op c' := by
  obtain hq | ⟨hf, hw, hn⟩ := h
  · exact .inl (step_quiet hq ht)
  · obtain ⟨-, hcaller⟩ | ⟨handled, -, hworker⟩ | ⟨heq, hstop, hstarted⟩ := step_frame ht
    · exact callerStep_retiring hf hw hn hcaller
    · simp [workerStep, hw] at hworker
    · exact .inr ⟨hstop hf, heq.trans hw, hstarted.trans hn⟩

theorem Stalled.moveCaller (h : Stalled n op c) {l : Caller} (hl : ∀ o, l ≠ .delivering o) :
    Stalled n op { c with caller := l } :=
  ⟨h.running, h.suspended, h.pending, hl, h.started⟩

theorem callerStep_stalled (h : Stalled n op c) (hs : Shutdown c) (ht : callerStep c = some c') :
    Stalled n op c' := by
  have hrunning := h.running
  cases hc : c.caller with
  | outside | blocked | runOne | returned => simp [callerStep, hc] at ht
  | callerRun =>
    simp only [callerStep, hc] at ht
    split at ht
    · rename_i hf
      rw [hrunning] at hf
      cases hf
    · cases ht
      exact ⟨hrunning, congrArg Worker.launch h.suspended, h.pending, by simp, h.started⟩
  | keepRunning =>
    simp only [callerStep, hc] at ht
    cases ht
    apply h.moveCaller
    intro o
    split <;> simp
  | waitOnce =>
    simp only [callerStep, hc, State.wakeUp, h.pending, Option.isSome_some, Bool.true_or,
      if_true] at ht
    cases ht
    exact ⟨hrunning, h.suspended, rfl, by simp, h.started⟩
  | deciding =>
    simp only [callerStep, hc] at ht
    cases ht
    exact ⟨hrunning, h.suspended, h.pending, by simp, h.started⟩
  | afterWait =>
    simp only [callerStep, hc] at ht
    cases ht
    apply h.moveCaller
    intro o
    split <;> simp
  | delivering o => exact absurd hc (h.undelivered o)
  | takePending | takeStaged | stopping _ | markStopped =>
    -- Past the run loop final_stop is set.
    have hstop := hs.leaving (by rw [hc]; trivial)
    rw [hrunning] at hstop
    cases hstop

theorem step_stalled (h : Stalled n op c) (hs : Shutdown c) (he : e ≠ .runOne .busEvent)
    (ht : Async.WaitProcess.step c e = some c') : Stalled n op c' ∨ Retiring n op c' := by
  cases e with
  | caller => exact .inl (callerStep_stalled h hs ht)
  | worker handled => simp [Async.WaitProcess.step, workerStep, h.suspended] at ht
  | runOne r =>
    simp only [Async.WaitProcess.step, runOneStep] at ht
    split at ht
    · cases r with
      | busEvent => exact absurd rfl he
      | noBusEvent | throws =>
        cases ht
        exact .inl ⟨h.running, h.suspended, h.pending, by simp, h.started⟩
    · cases ht
  | spawnComplete u stop =>
    cases hp : c.spawnComplete u with
    | idle | testing | breaking =>
      simp only [Async.WaitProcess.step, spawnCompleteStep, hp] at ht
      cases ht
      exact .inl ⟨h.running, h.suspended, h.pending, h.undelivered, h.started⟩
    | clearing =>
      simp only [Async.WaitProcess.step, spawnCompleteStep, hp] at ht
      split at ht <;> cases ht
      exact .inl ⟨h.running, h.suspended, h.pending, h.undelivered, h.started⟩
    | requesting =>
      simp only [Async.WaitProcess.step, spawnCompleteStep, hp] at ht
      cases ht
      exact .inr (.inr ⟨rfl, h.suspended, h.started⟩)
    | notifying =>
      simp only [Async.WaitProcess.step, spawnCompleteStep, hp] at ht
      cases ht
      refine .inl ⟨h.running, h.suspended, h.pending, ?_, h.started⟩
      intro o
      simp only [State.notifyOne]
      split
      · simp
      · exact h.undelivered o
  | run | spurious =>
    simp only [Async.WaitProcess.step] at ht
    split at ht <;> cases ht
    exact .inl ⟨h.running, h.suspended, h.pending, by simp, h.started⟩

end Handshake

/-- An operation that waits has the timeout made of its deadline. -/
def Staged (s : State) : Prop :=
  ∀ op, Waits s.context.worker op → s.timeout op = chronoTimeout (s.deadline op)

theorem step_staged (h : Staged s) (ht : step s e = some t) : Staged t := by
  intro op hw
  have hwaits := step_waits (step_plain ht) hw
  cases step_stepped ht with
  | context e c other staged handshake =>
    obtain hold | ⟨hstart, rfl⟩ := hwaits
    · exact h op hold
    · exact absurd hstart (staged op rfl)
  | stage toUsec o c starting handshake =>
    obtain hold | ⟨hstart, -⟩ := hwaits
    · rw [Waits, starting] at hold
      simp at hold
    · rw [starting] at hstart
      obtain rfl := Async.WaitProcess.Worker.starting.inj hstart
      simp
  | runOne r o c pending limited handshake =>
    obtain hold | ⟨-, hcontra⟩ := hwaits
    · exact h op hold
    · cases hcontra

theorem reachable_staged (hr : machine.Reachable s) : Staged s := by
  refine hr.invariant ?_ (fun _ _ _ h _ ht => step_staged h ht)
  intro op hw
  simp [machine, initial, Async.WaitProcess.initial, Waits] at hw

/-- The signed duration in between does not change what sd_event_run gets: it takes the
deadline for a time to wait. -/
theorem sdEventTimeout_chronoTimeout (toUsec : UInt64) :
    sdEventTimeout (chronoTimeout toUsec) = toUsec := by
  rw [chronoTimeout]
  split
  · rename_i h
    rw [h]
    rfl
  · exact UInt64.toUInt64_toInt64 toUsec

/-- How long a wait that begins at `now` may last. -/
def permitted (deadline : UInt64) (now : Nat) : ℕ∞ :=
  if deadline = uint64Max then ⊤ else (deadline.toNat - now : Nat)

/-- complete() of the operation was called, or is called next. -/
def Completes (op : Nat) (s : State) : Prop :=
  s.context.caller = .delivering op ∨ (op, .complete) ∈ s.context.signals

/-- The wait that begins at `now` for the pending operation ends in time for its
deadline, and has the operation completed when its time is up. -/
structure Honoured (s : State) (op now : Nat) : Prop where
  bounded : longestWait (sdEventTimeout (s.timeout op)) ≤ permitted (s.deadline op) now
  expired : ∀ t, machine.step s (.runOne .timeout) = some t → Completes op t

theorem longestWait_le_iff {deadline : UInt64} {now : Nat} :
    longestWait deadline ≤ permitted deadline now ↔
      deadline = uint64Max ∨ deadline.toNat = 0 ∨ now = 0 := by
  by_cases hd : deadline = uint64Max
  · simp [permitted, hd]
  · simp only [longestWait, permitted, hd, if_false, Nat.cast_le, false_or]
    omega

/-- A wait that ends by its timeout leaves the operation pending. -/
theorem not_completes_of_timeout (hr : machine.Reachable s) (hc : s.context.caller = .runOne)
    (hp : s.context.pending = some op) (hd : s.deadline op ≠ uint64Max) :
    ∃ t, machine.step s (.runOne .timeout) = some t ∧ t.context.pending = some op ∧
      ¬ Completes op t := by
  obtain ⟨hw, hcount⟩ :=
    pending_suspended (WaitProcess.reachable_ownership (reachable_context hr)) hp
  have htimeout : longestWait (sdEventTimeout (s.timeout op)) ≠ ⊤ := by
    rw [reachable_staged hr op (.inr hw), sdEventTimeout_chronoTimeout, longestWait, if_neg hd]
    exact ENat.natCast_ne_top _
  refine ⟨{ s with context := { s.context with caller := .keepRunning } }, ?_, hp, ?_⟩
  · simp [machine, step, runOne, hp, htimeout, Async.WaitProcess.step,
      Async.WaitProcess.runOneStep, hc, RunEnd.runOne]
  · intro h
    obtain h | h := h
    · cases h
    · have hmem : op ∈ s.context.signals.map Prod.fst := List.mem_map.mpr ⟨_, h, rfl⟩
      have := List.count_pos_iff.mpr hmem
      rw [WaitProcess.signalCount] at hcount
      omega

theorem honoured_iff {now : Nat} (hr : machine.Reachable s) (hc : s.context.caller = .runOne)
    (hp : s.context.pending = some op) : Honoured s op now ↔ s.deadline op = uint64Max := by
  have hw := (pending_suspended (WaitProcess.reachable_ownership (reachable_context hr)) hp).1
  have htimeout : sdEventTimeout (s.timeout op) = s.deadline op := by
    rw [reachable_staged hr op (.inr hw), sdEventTimeout_chronoTimeout]
  refine ⟨fun h => ?_, fun hd => ⟨?_, ?_⟩⟩
  · by_cases hd : s.deadline op = uint64Max
    · exact hd
    · obtain ⟨t, ht, -, hno⟩ := not_completes_of_timeout hr hc hp hd
      exact absurd (h.expired t ht) hno
  · rw [htimeout]
    exact longestWait_le_iff.mpr (.inl hd)
  · intro t ht
    simp [machine, step, runOne, hp, htimeout, hd, longestWait] at ht

/-- As long as no bus event comes, process_discard is not called again. -/
theorem stalled_run {es : List Event} (hr : machine.Reachable s)
    (hc : s.context.caller = .runOne) (hp : s.context.pending = some op)
    (hes : ∀ e ∈ es, e ≠ .runOne .busEvent) (hrun : machine.run s es = some t) :
    t.context.started = s.context.started := by
  have hw := (pending_suspended (WaitProcess.reachable_ownership (reachable_context hr)) hp).1
  have hstart : Stalled s.context.started op s.context ∨
      Retiring s.context.started op s.context := by
    cases hf : s.context.finalStop with
    | false => exact .inl ⟨hf, hw, hp, by simp [hc], rfl⟩
    | true => exact .inr (.inr ⟨hf, hw, rfl⟩)
  have hend : machine.Reachable t ∧
      (Stalled s.context.started op t.context ∨ Retiring s.context.started op t.context) := by
    refine Machine.run_keeps_by (P := fun u => machine.Reachable u ∧
      (Stalled s.context.started op u.context ∨ Retiring s.context.started op u.context))
      ⟨hr, hstart⟩ hrun hes ?_
    intro u e v ⟨hu, hkept⟩ he hv
    have hstep := step_plain hv
    refine ⟨.step hu trivial hv, ?_⟩
    obtain h | h := hkept
    · have hs := WaitProcess.reachable_shutdown (reachable_context hu)
      exact step_stalled h hs (fun hplain => he (plain_busEvent hplain hv)) hstep
    · exact .inr (step_retiring h hstep)
  obtain ⟨-, h | h | h⟩ := hend
  · exact h.started
  · exact h.2.2
  · exact h.2.2

/-- The wait honours the deadline of its operation only if there is none: sd_event_run
gets the deadline for a time to wait, and when that is up the operation stays pending.
Until a bus event comes the worker does not call process_discard again. -/
theorem deadline_honoured_iff (hr : machine.Reachable s) (hc : s.context.caller = .runOne)
    (hp : s.context.pending = some op) (now : Nat) :
    (Honoured s op now ↔ s.deadline op = uint64Max) ∧
    (longestWait (sdEventTimeout (s.timeout op)) ≤ permitted (s.deadline op) now ↔
      s.deadline op = uint64Max ∨ (s.deadline op).toNat = 0 ∨ now = 0) ∧
    ∀ es t, (∀ e ∈ es, e ≠ .runOne .busEvent) → machine.run s es = some t →
      t.context.started = s.context.started := by
  refine ⟨honoured_iff hr hc hp, ?_, fun es t hes hrun => stalled_run hr hc hp hes hrun⟩
  have hw := (pending_suspended (WaitProcess.reachable_ownership (reachable_context hr)) hp).1
  rw [reachable_staged hr op (.inr hw), sdEventTimeout_chronoTimeout]
  exact longestWait_le_iff

/-- The first wait of a context, up to run_one, for a call that expires two seconds
after boot. -/
def firstWait : List Event :=
  [.context .run, .context .caller, .context (.worker false), .stage 2000000,
   .context (.worker false), .context .caller, .context .caller, .context .caller]

theorem deadline_honoured_iff_firstWait : ∃ s, machine.run machine.init firstWait = some s ∧
    s.context.pending = some 0 ∧
    (Honoured s 0 1500000 ↔ s.deadline 0 = uint64Max) := by
  refine ⟨_, rfl, rfl, ?_⟩
  exact (deadline_honoured_iff (Machine.reachable_of_run firstWait rfl) rfl rfl 1500000).1

/-- Half a second before the deadline the wait is for two seconds. -/
theorem deadline_missed : ∃ s, machine.run machine.init firstWait = some s ∧
    s.context.caller = .runOne ∧ s.context.pending = some 0 ∧
    longestWait (sdEventTimeout (s.timeout 0)) = 2000000 ∧
    permitted (s.deadline 0) 1500000 = 500000 ∧ ¬ Honoured s 0 1500000 := by
  refine ⟨_, rfl, rfl, rfl, rfl, rfl, ?_⟩
  intro h
  have hle : (2000000 : ℕ∞) ≤ 500000 := h.bounded
  exact absurd hle (by decide)

end Sdbusplus.Proofs.Deadline
