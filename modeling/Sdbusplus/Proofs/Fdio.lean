import Sdbusplus.Async.Fdio

namespace Sdbusplus.Proofs.Fdio
open Async.Fdio

variable {timed : Bool} {s t : State} {e : Event} {op : Nat} {sig : Signal}

/-- A handler finds an operation registered only when its start() has returned
and has armed the timer, if there is one. -/
def FindsStarted (s : State) : Event → Prop
  | .handleEvent | .handleTimeout _ =>
    s.complete.isSome → s.start = .outside ∧ s.armFailed = false
  | _ => True

instance : Decidable (FindsStarted s e) :=
  match e with
  | .handleEvent | .handleTimeout _ => inferInstanceAs (Decidable (_ → _))
  | .start | .readTimeout | .armed | .armThrows | .store | .error | .deliver | .destroy =>
    inferInstanceAs (Decidable True)

/-- The operation start() works on, the one a handler signals and the registered
one, when its timer was armed, exist and have had no signal. -/
structure Unsignalled (s : State) : Prop where
  starting : ∀ op, s.start.op = some op → s.operation = some op ∧ delivered s.signals op = 0
  signalling : ∀ op sig, s.loop = .signalling op sig →
    s.operation = some op ∧ delivered s.signals op = 0 ∧ s.start = .outside ∧ s.complete = none
  registered : ∀ op, s.complete = some op → s.operation = some op ∧
    (s.armFailed = false → delivered s.signals op = 0)
  once : ∀ op, delivered s.signals op ≤ 1
  fresh : ∀ op, s.started ≤ op → delivered s.signals op = 0
  exists_ : ∀ op, s.operation = some op → op < s.started
  throwing : ∀ op, s.start = .throwing op → s.armFailed = true
  touched : s.touched = false
  alive : s.terminated = false

@[grind =] theorem delivered_cons {d : Nat × Signal} {ds : List (Nat × Signal)} {n : Nat} :
    delivered (d :: ds) n = delivered ds n + if d.1 = n then 1 else 0 := by
  simp [delivered, List.countP_cons]

/-- An access to an operation that has had no signal leaves no trace. -/
theorem access_fresh (hd : delivered s.signals op = 0) : s.access op = s := by
  simp [State.access, hd]

/-- start() gets on with its operation, or returns. -/
theorem Unsignalled.advance (h : Unsignalled s) {p : Start} {timer failed : Bool}
    (hs : s.start ≠ .outside) (hp : ∀ op, p.op = some op → s.start.op = some op)
    (ht : ∀ op, p = .throwing op → failed = true) (hf : failed = false → s.armFailed = false) :
    Unsignalled { s with start := p, timer := timer, armFailed := failed } := by
  refine { h with
    starting := fun op ho => h.starting op (hp op ho)
    signalling := fun op sig hl => absurd (h.signalling op sig hl).2.2.1 hs
    registered := fun op hc => ⟨(h.registered op hc).1, fun ha => (h.registered op hc).2 (hf ha)⟩
    throwing := ht }

/-- The operation gets its signal, and nobody else is about to signal it. -/
theorem Unsignalled.signal (h : Unsignalled s) (ho : s.operation = some op)
    (hd : delivered s.signals op = 0) (hc : s.complete = none ∨ s.armFailed = true) :
    Unsignalled { s.signal op sig with start := .outside, loop := .idle } := by
  refine { h with
    starting := fun _ hp => nomatch hp
    signalling := fun _ _ hl => nomatch hl
    registered := fun n hn => ⟨(h.registered n hn).1, fun ha => ?_⟩
    once := fun n => ?_
    fresh := fun n hn => ?_
    throwing := fun _ hp => nomatch hp }
  · rcases hc with hc | hc
    · exact absurd hn (by simp [State.signal, hc])
    · exact absurd ha (by simp [State.signal, hc])
  · rw [State.signal, delivered_cons]
    have hle := h.once n
    split
    · rename_i heq
      subst heq
      exact Nat.le_of_eq (by rw [hd])
    · exact hle
  · have hlt := h.exists_ op ho
    have hne : op ≠ n := by
      intro heq
      subst heq
      exact absurd hn (Nat.not_le.mpr hlt)
    rw [State.signal, delivered_cons, if_neg hne, h.fresh n hn]

theorem start_unsignalled (h : Unsignalled s) (ho : s.operation = none) :
    Unsignalled (register s) := by
  have hnone : s.complete = none := by
    cases hc : s.complete with
    | none => rfl
    | some op => exact absurd (h.registered op hc).1 (by simp [ho])
  have hfresh : delivered s.signals s.started = 0 := h.fresh s.started (Nat.le_refl _)
  refine
    { starting := fun op hp => ?_
      signalling := fun op sig hl => ?_
      registered := fun op hc => ?_
      once := h.once
      fresh := fun op hop => h.fresh op (Nat.le_of_succ_le hop)
      exists_ := fun op hop => ?_
      throwing := fun _ hp => nomatch hp
      touched := h.touched
      alive := ?_ }
  · cases hp
    exact ⟨rfl, hfresh⟩
  · exact absurd (h.signalling op sig hl).1 (by simp [ho])
  · cases hc
    exact ⟨rfl, fun _ => hfresh⟩
  · cases hop
    exact Nat.lt_succ_self _
  · simp [register, h.alive, hnone]

theorem take_unsignalled (h : Unsignalled s)
    (hf : s.complete.isSome → s.start = .outside ∧ s.armFailed = false) :
    Unsignalled (take sig s) := by
  cases hc : s.complete with
  | none => simpa only [take, hc] using h
  | some op =>
    obtain ⟨hout, harm⟩ := hf (by rw [hc]; rfl)
    obtain ⟨hop, hd⟩ := h.registered op hc
    simp only [take, hc]
    refine { h with
      signalling := fun n sig hl => ?_
      registered := fun n hn => nomatch hn }
    cases hl
    exact ⟨hop, hd harm, hout, rfl⟩

theorem destroy_unsignalled (h : Unsignalled s) (ho : s.operation = some op)
    (hd : 0 < delivered s.signals op) :
    Unsignalled { s with
      complete := if s.complete = some op then none else s.complete
      operation := none
      timer := false } := by
  have hne : delivered s.signals op ≠ 0 := Nat.pos_iff_ne_zero.mp hd
  refine { h with
    starting := fun n hp => ?_
    signalling := fun n sig hl => ?_
    registered := fun n hn => ?_
    exists_ := fun n hn => nomatch hn }
  · obtain ⟨hop, hz⟩ := h.starting n hp
    cases ho.symm.trans hop
    exact absurd hz hne
  · obtain ⟨hop, hz, -⟩ := h.signalling n sig hl
    cases ho.symm.trans hop
    exact absurd hz hne
  · by_cases hc : s.complete = some op
    · simp [hc] at hn
    · rw [if_neg hc] at hn
      cases ho.symm.trans (h.registered n hn).1
      exact absurd hn hc

theorem step_unsignalled (h : Unsignalled s) (hf : FindsStarted s e)
    (ht : step timed s e = some t) : Unsignalled t := by
  cases e with
  | start =>
    simp only [step] at ht
    split at ht <;> cases ht
    rename_i hs
    exact start_unsignalled h hs.2
  | readTimeout =>
    simp only [step] at ht
    split at ht <;> cases ht
    rename_i op hs
    rw [access_fresh (h.starting op (by rw [hs]; rfl)).2]
    refine h.advance (by rw [hs]; exact nofun) (fun n hn => ?_) (fun n hn => ?_) id
    · cases timed
      · cases hn
      · rwa [hs]
    · cases timed <;> cases hn
  | armed =>
    simp only [step] at ht
    split at ht <;> cases ht
    rename_i op hs
    exact h.advance (by rw [hs]; exact nofun) (fun n hn => by rwa [hs]) nofun id
  | armThrows =>
    simp only [step] at ht
    split at ht <;> cases ht
    rename_i op hs
    exact h.advance (by rw [hs]; exact nofun) (fun n hn => by rwa [hs]) (fun _ _ => rfl) nofun
  | store =>
    simp only [step] at ht
    split at ht <;> cases ht
    rename_i op hs
    rw [access_fresh (h.starting op (by rw [hs]; rfl)).2]
    exact h.advance (by rw [hs]; exact nofun) nofun nofun id
  | error =>
    simp only [step] at ht
    split at ht <;> cases ht
    rename_i op hs
    obtain ⟨hop, hd⟩ := h.starting op (by rw [hs]; rfl)
    have hidle : s.loop = .idle := by
      cases hl : s.loop with
      | idle => rfl
      | signalling n sig => exact absurd hs (by simp [(h.signalling n sig hl).2.2.1])
    have hsig : Unsignalled { s.signal op .error with start := .outside, loop := .idle } :=
      h.signal hop hd (.inr (h.throwing op hs))
    rw [access_fresh hd]
    simpa only [State.signal, hidle] using hsig
  | handleEvent =>
    simp only [step] at ht
    split at ht <;> cases ht
    exact take_unsignalled h hf
  | handleTimeout data =>
    simp only [step] at ht
    split at ht <;> cases ht
    exact take_unsignalled { h with } hf
  | deliver =>
    simp only [step] at ht
    split at ht <;> cases ht
    rename_i op sig hl
    obtain ⟨hop, hd, hout, hnone⟩ := h.signalling op sig hl
    have hsig : Unsignalled { s.signal op sig with start := .outside, loop := .idle } :=
      h.signal hop hd (.inl hnone)
    simpa only [State.signal, hout] using hsig
  | destroy =>
    simp only [step] at ht
    split at ht
    · split at ht <;> cases ht
      rename_i op ho hd
      exact destroy_unsignalled h ho hd
    · cases ht

theorem reachable_unsignalled (hr : (machine timed).ReachableBy FindsStarted s) :
    Unsignalled s := by
  refine hr.invariant ?_ (fun _ _ _ h hf ht => step_unsignalled h hf ht)
  constructor <;> simp [machine, initial, Start.op, delivered]

/-- What a handler does with what it finds registered. -/
theorem handler_signals (hh : e.handles = true) (ht : step timed s e = some t) :
    (∀ op, s.complete = some op → t.complete = none ∧ ∃ sig, t.loop = .signalling op sig) ∧
    (s.complete = none → t.loop = .idle) ∧ t.signals = s.signals := by
  cases e with
  | handleEvent =>
    simp only [step] at ht
    split at ht <;> cases ht
    cases hc : s.complete <;> simp_all [take]
  | handleTimeout data =>
    simp only [step] at ht
    split at ht <;> cases ht
    cases hc : s.complete <;> simp_all [take]
  | _ => cases hh

/-- Every operation has at most one signal, start() accesses none after its
signal, a handler signals the operation it finds registered, next and to it
alone, and one that finds none signals nothing. -/
structure SignalledOnce (timed : Bool) (s : State) : Prop where
  once : ∀ op, delivered s.signals op ≤ 1
  untouched : s.touched = false
  found : ∀ e t op, e.handles = true → step timed s e = some t → s.complete = some op →
    t.complete = none ∧ t.signals = s.signals ∧ ∃ sig, t.loop = .signalling op sig ∧
      step timed t .deliver = some { t.signal op sig with loop := .idle }
  notFound : ∀ e t, e.handles = true → step timed s e = some t → s.complete = none →
    t.signals = s.signals ∧ t.loop = .idle

theorem signalled_once (hr : (machine timed).ReachableBy FindsStarted s) :
    SignalledOnce timed s := by
  have h := reachable_unsignalled hr
  refine ⟨h.once, h.touched, fun e t op hh ht hc => ?_, fun e t hh ht hc => ?_⟩
  · obtain ⟨hsome, _, hsig⟩ := handler_signals hh ht
    obtain ⟨hnone, sig, hl⟩ := hsome op hc
    exact ⟨hnone, hsig, sig, hl, by simp [step, hl]⟩
  · obtain ⟨_, hnone, hsig⟩ := handler_signals hh ht
    exact ⟨hsig, hnone hc⟩

/-- Only the operation started last is registered or being started, and a
registered one whose timer was not armed has had its error. -/
structure Latest (s : State) : Prop where
  registered : ∀ op, s.complete = some op → op + 1 = s.started
  starting : ∀ op, s.start.op = some op → op + 1 = s.started
  throwing : s.armFailed = true → s.start = .outside ∨ ∃ op, s.start = .throwing op
  failed : ∀ op, s.complete = some op → s.armFailed = true → s.start = .outside →
    0 < delivered s.signals op

/-- While start() has yet to try, arming the timer has not failed. -/
theorem Latest.trying (h : Latest s) (hs : s.start.op = some op) (hne : s.start ≠ .throwing op) :
    s.armFailed = false := by
  cases ha : s.armFailed with
  | false => rfl
  | true =>
    rcases h.throwing ha with hout | ⟨n, hn⟩
    · rw [hout] at hs
      cases hs
    · rw [hn] at hs
      cases hs
      exact absurd hn hne

/-- start() gets on with its operation, or returns, when arming has not failed. -/
theorem Latest.advance (h : Latest s) {p : Start} {timer failed touched : Bool}
    (hp : ∀ op, p.op = some op → s.start.op = some op)
    (hf : failed = true → ∃ op, p = .throwing op) :
    Latest { s with start := p, timer := timer, armFailed := failed, touched := touched } := by
  refine
    { registered := h.registered
      starting := fun op ho => h.starting op (hp op ho)
      throwing := fun ha => .inr (hf ha)
      failed := fun op _ ha hout => ?_ }
  obtain ⟨n, hn⟩ := hf ha
  exact absurd hout (by simp [hn])

theorem take_latest (h : Latest s) : Latest (take sig s) := by
  cases hc : s.complete with
  | none => simpa only [take, hc] using h
  | some op =>
    simp only [take, hc]
    exact { h with registered := nofun, failed := nofun }

theorem delivered_le_cons {d : Nat × Signal} {ds : List (Nat × Signal)} {n : Nat} :
    delivered ds n ≤ delivered (d :: ds) n := by
  rw [delivered_cons]
  exact Nat.le_add_right _ _

theorem step_latest (h : Latest s) (ht : step timed s e = some t) : Latest t := by
  cases e with
  | start =>
    simp only [step] at ht
    split at ht <;> cases ht
    refine
      { registered := fun op hc => ?_
        starting := fun op hp => ?_
        throwing := nofun
        failed := nofun }
    · cases hc
      rfl
    · cases hp
      rfl
  | readTimeout =>
    simp only [step] at ht
    split at ht <;> cases ht
    rename_i op hs
    have hop : s.start.op = some op := by rw [hs]; rfl
    have harm := h.trying hop (by rw [hs]; exact nofun)
    refine h.advance (fun n hn => ?_) fun ha => absurd (harm.symm.trans ha) nofun
    cases timed
    · cases hn
    · rwa [hs]
  | armed =>
    simp only [step] at ht
    split at ht <;> cases ht
    rename_i op hs
    have harm := h.trying (by rw [hs]; rfl) (by rw [hs]; exact nofun)
    exact h.advance (fun n hn => by rwa [hs]) fun ha => absurd (harm.symm.trans ha) nofun
  | armThrows =>
    simp only [step] at ht
    split at ht <;> cases ht
    rename_i op hs
    exact h.advance (fun n hn => by rwa [hs]) fun _ => ⟨op, rfl⟩
  | store =>
    simp only [step] at ht
    split at ht <;> cases ht
    rename_i op hs
    have harm := h.trying (by rw [hs]; rfl) (by rw [hs]; exact nofun)
    exact h.advance nofun fun ha => absurd (harm.symm.trans ha) nofun
  | error =>
    simp only [step] at ht
    split at ht <;> cases ht
    rename_i op hs
    have hop : s.start.op = some op := by rw [hs]; rfl
    refine { h with starting := nofun, throwing := fun _ => .inl rfl, failed := fun n hc _ _ => ?_ }
    have heq : n = op := Nat.succ.inj ((h.registered n hc).trans (h.starting op hop).symm)
    subst heq
    simp [State.signal, State.access, delivered_cons]
  | handleEvent =>
    simp only [step] at ht
    split at ht <;> cases ht
    exact take_latest h
  | handleTimeout data =>
    simp only [step] at ht
    split at ht <;> cases ht
    exact take_latest { h with }
  | deliver =>
    simp only [step] at ht
    split at ht <;> cases ht
    exact { h with failed := fun n hc ha hout =>
      Nat.lt_of_lt_of_le (h.failed n hc ha hout) delivered_le_cons }
  | destroy =>
    simp only [step] at ht
    split at ht
    · split at ht <;> cases ht
      have hkeep : ∀ {n m}, (if s.complete = some m then none else s.complete) = some n →
          s.complete = some n := by
        intro n m hn
        split at hn
        · cases hn
        · exact hn
      exact { h with
        registered := fun n hn => h.registered n (hkeep hn)
        failed := fun n hn ha hout => h.failed n (hkeep hn) ha hout }
    · cases ht

theorem reachable_latest (hr : (machine timed).Reachable s) : Latest s :=
  hr.invariant (by constructor <;> simp [machine, initial, Start.op])
    (fun _ _ _ h _ ht => step_latest h ht)

/-- start() goes on to access the operation it works on, whatever happened to it. -/
theorem start_touches (timed : Bool) (hs : s.start.op = some op) (hd : 0 < delivered s.signals op) :
    ∃ as u, (machine timed).run s as = some u ∧ u.touched = true := by
  cases hp : s.start with
  | outside => simp [hp, Start.op] at hs
  | registered n =>
    obtain rfl : n = op := by simpa [hp, Start.op] using hs
    exact ⟨[.readTimeout], _, by simp [Machine.run, machine, step, hp]; rfl,
      by simp [State.access, hd]⟩
  | arming n =>
    obtain rfl : n = op := by simpa [hp, Start.op] using hs
    exact ⟨[.armed, .store], _, by simp [Machine.run, machine, step, hp]; rfl,
      by simp [State.access, hd]⟩
  | storing n =>
    obtain rfl : n = op := by simpa [hp, Start.op] using hs
    exact ⟨[.store], _, by simp [Machine.run, machine, step, hp]; rfl, by simp [State.access, hd]⟩
  | throwing n =>
    obtain rfl : n = op := by simpa [hp, Start.op] using hs
    exact ⟨[.error], _, by simp [Machine.run, machine, step, hp]; rfl,
      by simp [State.access, State.signal, hd]⟩

theorem take_found (hc : s.complete = some op) :
    take sig s = { s with complete := none, loop := .signalling op sig } := by
  simp [take, hc]

/-- A handler that enters with an operation registered signals it next. -/
theorem handler_delivers (hh : e.handles = true) (ht : step timed s e = some t)
    (hc : s.complete = some op) : ∃ u, (machine timed).run t [.deliver] = some u ∧
      u.start = s.start ∧ delivered u.signals op = delivered s.signals op + 1 := by
  obtain ⟨hsome, _, hsig⟩ := handler_signals hh ht
  obtain ⟨_, sig, hl⟩ := hsome op hc
  refine ⟨{ t.signal op sig with loop := .idle }, ?_, ?_, ?_⟩
  · simp [Machine.run, machine, step, hl]
  · cases e with
    | handleEvent =>
      simp only [step] at ht
      split at ht <;> cases ht
      simp [State.signal, take_found hc]
    | handleTimeout data =>
      simp only [step] at ht
      split at ht <;> cases ht
      simp [State.signal, take, hc]
    | _ => cases hh
  · simp [State.signal, delivered_cons, hsig]

/-- The condition is exact: a handler that finds an operation too early leads to
an access of a signalled operation or to a second signal. -/
theorem found_early_breaks (hr : (machine timed).Reachable s) (hh : e.handles = true)
    (ht : step timed s e = some t) (hf : ¬ FindsStarted s e) :
    ∃ as u, (machine timed).run t as = some u ∧
      (u.touched = true ∨ ∃ op, 1 < delivered u.signals op) := by
  have h := reachable_latest hr
  obtain ⟨op, hc, hearly⟩ : ∃ op, s.complete = some op ∧
      (s.start = .outside → s.armFailed = true) := by
    cases hc : s.complete with
    | none => cases e <;> simp_all [FindsStarted, Event.handles]
    | some op => exact ⟨op, rfl, by cases e <;> simp_all [FindsStarted, Event.handles]⟩
  obtain ⟨u, hrun, hstart, hd⟩ := handler_delivers hh ht hc
  by_cases hs : s.start = .outside
  · have hbefore := h.failed op hc (hearly hs) hs
    exact ⟨[.deliver], u, hrun, Or.inr ⟨op, by omega⟩⟩
  · have hop : u.start.op = some op := by
      rw [hstart]
      have hre := h.registered op hc
      cases hp : s.start with
      | outside => exact absurd hp hs
      | _ n =>
        have hst := h.starting n (by simp [hp, Start.op])
        simp only [Start.op]
        congr 1
        omega
    obtain ⟨as, v, hv, htouched⟩ := start_touches timed hop (by omega)
    exact ⟨[.deliver] ++ as, v, (Machine.run_append hrun).trans hv, Or.inl htouched⟩

/-- Two awaits: data arrives for the first, and the second times out. -/
def twoAwaits : List Event :=
  [.start, .readTimeout, .armed, .store, .handleEvent, .deliver, .destroy,
   .start, .readTimeout, .armed, .store, .handleTimeout false, .deliver]

theorem signalled_once_twoAwaits :
    ∃ s, (machine true).run (machine true).init twoAwaits = some s ∧
      s.signals = [(1, .error), (0, .complete)] ∧ SignalledOnce true s :=
  ⟨_, rfl, rfl, signalled_once
    (Machine.reachableBy_of_runBy (M := machine true) FindsStarted twoAwaits rfl)⟩

/-- The event comes between the registration and the rest of start(). -/
def eventInStart : List Event := [.start, .handleEvent, .deliver, .readTimeout]

/-- The event comes after start() has signalled that the timer was not armed. -/
def eventAfterThrow : List Event :=
  [.start, .readTimeout, .armThrows, .error, .handleEvent, .deliver]

/-- start() touches an operation after its completion, and an operation is
completed after its error. -/
theorem touched_and_signalled_twice :
    (∃ s, (machine false).run (machine false).init eventInStart = some s ∧ s.touched = true) ∧
    (∃ s, (machine true).run (machine true).init eventAfterThrow = some s ∧
      s.signals = [(0, .complete), (0, .error)]) ∧
    ¬ ∀ timed s, (machine timed).Reachable s → SignalledOnce timed s := by
  refine ⟨⟨_, rfl, rfl⟩, ⟨_, rfl, rfl⟩, fun h => ?_⟩
  exact Bool.noConfusion
    (h false _ (Machine.reachable_of_run (M := machine false) eventInStart rfl)).untouched

end Sdbusplus.Proofs.Fdio
