import Sdbusplus.Asio.Connection

namespace Sdbusplus.Proofs.Connection
open Asio Asio.Connection

variable {c d : Connection} {a : Answers} {e : Event} {w : Wait} {ws vs : List Wait} {fd : Int}

/-- A wait that leads to another process(), unless it is cancelled in time. -/
def Live (w : Wait) : Prop := w.status = .outstanding ∨ w.status = .completed .success

instance : DecidablePred Live := fun _ => inferInstanceAs (Decidable (_ ∨ _))

def live (c : Connection) : List Wait := c.waits.filter (fun w => Live w)

/-- The waits of one call of read_wait that are still there. -/
structure OneSet (ws : List Wait) : Prop where
  some : ws ≠ []
  round : ∃ n, ∀ w ∈ ws, w.round = n
  few : ws.length ≤ 4

/-- Exactly one continuation is there: a posted process(), or one set of waits. -/
inductive OneChain (c : Connection) : Prop
  | posted (one : c.posted = 1) (none : live c = [])
  | waiting (zero : c.posted = 0) (set : OneSet (live c))

/-- Besides, no wait has failed. -/
structure Sound (c : Connection) : Prop where
  chain : OneChain c
  failed : ∀ w ∈ c.waits, w.status ≠ .completed .failed

def Aborted (w : Wait) : Prop := w.status = .completed .operationAborted

theorem Aborted.not_live (h : Aborted w) : ¬ Live w := by
  rintro (hl | hl)
  · cases h.symm.trans hl
  · cases h.symm.trans hl

theorem aborted_of_not_live (h : ¬ Live w) (hf : w.status ≠ .completed .failed) : Aborted w := by
  cases hs : w.status with
  | outstanding => exact absurd (.inl hs) h
  | completed ec =>
    cases ec with
    | success => exact absurd (.inr hs) h
    | operationAborted => exact hs
    | failed => exact absurd hs hf

theorem Aborted.cancel (h : Aborted w) : Aborted w.cancel := by
  have hne : w.status ≠ .outstanding := fun hs => nomatch hs.symm.trans h
  rwa [Wait.cancel, if_neg hne]

theorem cancel_outstanding (h : w.status = .outstanding) : Aborted w.cancel := by
  rw [Wait.cancel, if_pos h]
  rfl

theorem timerCancel_aborted (h : ∀ w ∈ c.waits, Aborted w ∨ w.status = .outstanding ∧
    w.kind = .timer) : ∀ w ∈ c.timerCancel.waits, Aborted w := by
  intro v hv
  obtain ⟨w, hw, rfl⟩ := List.mem_map.mp hv
  rcases h w hw with ha | ⟨hs, hk⟩
  · split
    · exact ha.cancel
    · exact ha
  · rw [if_pos hk]
    exact cancel_outstanding hs

theorem socketCancel_aborted (h : ∀ w ∈ c.waits, Aborted w ∨ w.status = .outstanding ∧
    w.kind ≠ .timer) : ∀ w ∈ c.socketCancel.waits, Aborted w := by
  intro v hv
  obtain ⟨w, hw, rfl⟩ := List.mem_map.mp hv
  rcases h w hw with ha | ⟨hs, hk⟩
  · split
    · exact ha
    · exact ha.cancel
  · rw [if_neg hk]
    exact cancel_outstanding hs

/-- The kinds of waits that read_wait registers. -/
def registered (a : Answers) : List WaitKind :=
  (if a.has pollin then [.read] else []) ++ (if a.has pollout then [.write] else []) ++
    (if a.has pollerr then [.error] else []) ++ (if a.timed then [.timer] else [])

theorem registered_few : (registered a).length ≤ 4 := by
  unfold registered
  cases a.has pollin <;> cases a.has pollout <;> cases a.has pollerr <;> cases a.timed <;> decide

/-- The answers of sd-bus are no errors. -/
structure NoErrors (a : Answers) : Prop where
  fd : 0 ≤ a.fd
  events : 0 ≤ a.events
  timeret : 0 ≤ a.timeret

instance : DecidablePred NoErrors := fun a =>
  decidable_of_iff (0 ≤ a.fd ∧ 0 ≤ a.events ∧ 0 ≤ a.timeret)
    ⟨fun h => ⟨h.1, h.2.1, h.2.2⟩, fun h => ⟨h.fd, h.events, h.timeret⟩⟩

def waitsOf (n : Nat) (ks : List WaitKind) : List Wait := ks.map (fun k => ⟨k, n, .outstanding⟩)

/-- The call of read_wait with this number has registered these waits so far. -/
structure Registering (n posted : Nat) (c : Connection) (ks : List WaitKind) : Prop where
  rounds : c.rounds = n
  posted : c.posted = posted
  waits : ∃ old, (∀ w ∈ old, Aborted w) ∧ c.waits = old ++ waitsOf n ks

section Registering
variable {n p : Nat} {ks : List WaitKind} {k : WaitKind} {b : Bool}

theorem mem_waitsOf (h : w ∈ waitsOf n ks) :
    w.kind ∈ ks ∧ w.round = n ∧ w.status = .outstanding := by
  obtain ⟨k, hk, rfl⟩ := List.mem_map.mp h
  exact ⟨hk, rfl, rfl⟩

theorem Registering.asyncWait (h : Registering n p c ks) :
    Registering n p (c.asyncWait k) (ks ++ [k]) := by
  obtain ⟨old, hold, hwaits⟩ := h.waits
  refine ⟨h.rounds, h.posted, old, hold, ?_⟩
  rw [Connection.asyncWait, hwaits, h.rounds, List.append_assoc]
  simp [waitsOf]

theorem Registering.waitIf (h : Registering n p c ks) :
    Registering n p (c.waitIf b k) (ks ++ if b then [k] else []) := by
  cases b with
  | true => exact h.asyncWait
  | false =>
    rw [if_neg (by simp), List.append_nil]
    exact h

/-- The timer is cancelled before it is waited for; the socket's waits stay. -/
theorem Registering.timerCancel (h : Registering n p c ks) (hk : .timer ∉ ks) :
    Registering n p c.timerCancel ks := by
  obtain ⟨old, hold, hwaits⟩ := h.waits
  refine ⟨h.rounds, h.posted, (Connection.timerCancel { c with waits := old }).waits, ?_, ?_⟩
  · exact timerCancel_aborted (fun w hw => .inl (hold w hw))
  · have hnew : ∀ w ∈ waitsOf n ks, (if w.kind = .timer then w.cancel else w) = w := by
      intro w hw
      have hkind : w.kind ≠ .timer := fun heq => hk (heq ▸ (mem_waitsOf hw).1)
      exact if_neg hkind
    rw [Connection.timerCancel, hwaits, List.map_append, List.map_congr_left hnew, List.map_id']
    rfl

theorem Registering.waitTimer (h : Registering n p c ks) (hk : .timer ∉ ks) (ha : NoErrors a) :
    Registering n p (c.waitTimer a) (ks ++ if a.timed then [.timer] else []) := by
  rw [Connection.waitTimer, if_neg (Int.not_lt.mpr ha.timeret)]
  cases a.timed with
  | true => exact (h.timerCancel hk).asyncWait
  | false =>
    simp only [Bool.not_false, ↓reduceIte, Bool.false_eq_true, List.append_nil]
    exact h

theorem registering_follow (h : ∀ w ∈ c.waits, Aborted w) :
    Registering c.rounds c.posted (c.follow fd) [] := by
  unfold follow
  split
  · exact ⟨rfl, rfl, _, socketCancel_aborted (fun w hw => .inl (h w hw)), (List.append_nil _).symm⟩
  · exact ⟨rfl, rfl, _, h, (List.append_nil _).symm⟩

end Registering

/-- What one call of read_wait leaves of a connection without live waits. -/
theorem readWait_registering (h : ∀ w ∈ c.waits, Aborted w) (ha : NoErrors a) :
    Registering (c.rounds + 1) c.posted (c.readWait a) (registered a) := by
  have hfollow : Registering (c.rounds + 1) c.posted
      (Connection.follow { c with rounds := c.rounds + 1 } a.fd) [] :=
    registering_follow (c := { c with rounds := c.rounds + 1 }) h
  rw [readWait, registered]
  dsimp only
  rw [if_neg (Int.not_lt.mpr ha.fd), if_neg (Int.not_lt.mpr ha.events)]
  refine Registering.waitTimer hfollow.waitIf.waitIf.waitIf ?_ ha
  cases a.has pollin <;> cases a.has pollout <;> cases a.has pollerr <;> decide

/-- process() goes on by a posted call or by a wait. -/
def Continues (a : Answers) : Prop := a.processDiscard = true ∨ registered a ≠ []

instance : DecidablePred Continues := fun _ => inferInstanceAs (Decidable (_ ∨ _))

theorem filter_aborted (h : ∀ w ∈ ws, Aborted w) : ws.filter (fun w => Live w) = [] := by
  rw [List.filter_eq_nil_iff]
  intro w hw
  simpa using (h w hw).not_live

/-- A run of process() when nothing else is alive. -/
theorem process_sound (hp : c.posted = 0) (h : ∀ w ∈ c.waits, Aborted w) (ha : NoErrors a)
    (hc : Continues a) : Sound (c.process a) := by
  unfold process
  split
  · refine ⟨.posted ?_ (filter_aborted h), fun w hw hf => ?_⟩
    · rw [readImmediate, hp]
    · cases (h w hw).symm.trans hf
  · rename_i hdiscard
    have hreg := readWait_registering h ha
    obtain ⟨old, hold, hwaits⟩ := hreg.waits
    have hlive : live (c.readWait a) = waitsOf (c.rounds + 1) (registered a) := by
      rw [live, hwaits, List.filter_append, filter_aborted hold, List.nil_append,
        List.filter_eq_self]
      intro w hw
      exact decide_eq_true (.inl (mem_waitsOf hw).2.2)
    refine ⟨.waiting (hreg.posted.trans hp) ?_, ?_⟩
    · rw [hlive]
      constructor
      case some =>
        have hne := hc.resolve_left hdiscard
        simpa [waitsOf] using hne
      case round => exact ⟨_, fun w hw => (mem_waitsOf hw).2.1⟩
      case few =>
        rw [waitsOf, List.length_map]
        exact registered_few
    · rw [hwaits]
      intro w hw hf
      rcases List.mem_append.mp hw with hw | hw
      · cases (hold w hw).symm.trans hf
      · cases (mem_waitsOf hw).2.2.symm.trans hf

/-- A wait that the handler of a wait of this kind still aborts. -/
def Stops (k : WaitKind) (v : Wait) : Prop :=
  v.status = .outstanding ∧ (k = .timer ↔ v.kind ≠ .timer)

/-- Nobody answers with an error. -/
def WithoutErrors : Event → Prop
  | .process a => NoErrors a
  | .completes _ ec => ec = .success
  | .handler _ a => NoErrors a

/-- What is asked of a step: process() goes on, and the handler of a completed wait can
abort all that is left of its set. -/
def Hands (c : Connection) : Event → Prop
  | .process a => Continues a
  | .completes _ _ => True
  | .handler place a => ∀ w ∈ c.waits[place]?, w.status = .completed .success →
    Continues a ∧ ∀ v ∈ c.waits.eraseIdx place, Live v → Stops w.kind v

instance : DecidablePred WithoutErrors
  | .process a => inferInstanceAs (Decidable (NoErrors a))
  | .completes _ ec => inferInstanceAs (Decidable (ec = .success))
  | .handler _ a => inferInstanceAs (Decidable (NoErrors a))

instance (k : WaitKind) (v : Wait) : Decidable (Stops k v) :=
  inferInstanceAs (Decidable (_ ∧ (_ ↔ _)))

instance (c : Connection) : DecidablePred (Hands c)
  | .process a => inferInstanceAs (Decidable (Continues a))
  | .completes _ _ => .isTrue trivial
  | .handler place _ => inferInstanceAs (Decidable (∀ w ∈ c.waits[place]?, _ → _ ∧ _))

/-- A wait and what stands before and behind it. -/
theorem split_waits {place : Nat} (h : ws[place]? = some w) : ∃ xs ys,
    ws = xs ++ w :: ys ∧ ws.eraseIdx place = xs ++ ys ∧
      ∀ v, ws.set place v = xs ++ v :: ys := by
  obtain ⟨hlt, heq⟩ := List.getElem?_eq_some_iff.mp h
  refine ⟨ws.take place, ws.drop (place + 1), ?_, List.eraseIdx_eq_take_drop_succ .., fun v => ?_⟩
  · rw [← heq, List.getElem_cons_drop, List.take_append_drop]
  · exact List.set_eq_take_append_cons_drop .. |>.trans (if_pos hlt)

theorem filter_live {xs ys : List Wait} (h : Live w) : (xs ++ w :: ys).filter (fun w => Live w) =
    xs.filter (fun w => Live w) ++ w :: ys.filter (fun w => Live w) := by
  simp [h]

theorem filter_not_live {xs ys : List Wait} (h : ¬ Live w) :
    (xs ++ w :: ys).filter (fun w => Live w) = (xs ++ ys).filter (fun w => Live w) := by
  simp [h]

theorem completes_sound {place : Nat} (h : Sound c) (hw : c.waits[place]? = some w)
    (hs : w.status = .outstanding) :
    Sound { c with waits := c.waits.set place { w with status := .completed .success } } := by
  obtain ⟨xs, ys, hws, -, hset⟩ := split_waits hw
  have hlive : live c = xs.filter (fun w => Live w) ++ w :: ys.filter (fun w => Live w) := by
    rw [live, hws, filter_live (.inl hs)]
  refine ⟨?_, ?_⟩
  · cases h.chain with
    | posted one none =>
      rw [hlive] at none
      simp at none
    | waiting zero set =>
      refine .waiting zero ?_
      rw [hlive] at set
      obtain ⟨n, hn⟩ := set.round
      rw [live]
      dsimp only
      rw [hset, filter_live (.inr rfl)]
      constructor
      case some => simp
      case round =>
        refine ⟨n, fun v hv => ?_⟩
        rcases List.mem_append.mp hv with hv | hv
        · exact hn v (List.mem_append_left _ hv)
        rcases List.mem_cons.mp hv with rfl | hv
        · exact hn w (by simp)
        · exact hn v (by simp [hv])
      case few => simpa using set.few
  · intro v hv hf
    dsimp only at hv
    rw [hset] at hv
    have hold := h.failed v
    rw [hws] at hold
    rcases List.mem_append.mp hv with hv | hv
    · exact hold (List.mem_append_left _ hv) hf
    rcases List.mem_cons.mp hv with rfl | hv
    · cases hf
    · exact hold (by simp [hv]) hf

/-- The handler of an aborted wait returns at once. -/
theorem aborted_sound {place : Nat} (h : Sound c) (hw : c.waits[place]? = some w)
    (hs : Aborted w) : Sound { c with waits := c.waits.eraseIdx place } := by
  obtain ⟨xs, ys, hws, herase, -⟩ := split_waits hw
  have hlive : live { c with waits := c.waits.eraseIdx place } = live c := by
    rw [live, live]
    dsimp only
    rw [herase, hws, filter_not_live hs.not_live]
  refine ⟨?_, fun v hv => h.failed v (List.mem_of_mem_eraseIdx hv)⟩
  cases h.chain with
  | posted one none => exact .posted one (hlive.trans none)
  | waiting zero set => exact .waiting zero (hlive ▸ set)

theorem handler_sound {place : Nat} (h : Sound c) (hw : c.waits[place]? = some w)
    (hs : w.status = .completed .success) (ha : NoErrors a) (hc : Continues a)
    (hstops : ∀ v ∈ c.waits.eraseIdx place, Live v → Stops w.kind v) :
    Sound (if w.kind = .timer then
        Connection.onTimerEvent { c with waits := c.waits.eraseIdx place } .success a
      else Connection.onFdEvent { c with waits := c.waits.eraseIdx place } .success a) := by
  have hzero : c.posted = 0 := by
    cases h.chain with
    | posted one none =>
      rw [live, List.filter_eq_nil_iff] at none
      exact absurd (decide_eq_true (.inr hs)) (none w (List.mem_of_getElem? hw))
    | waiting zero set => exact zero
  have hrest : ∀ v ∈ c.waits.eraseIdx place, Aborted v ∨ Stops w.kind v := by
    intro v hv
    by_cases hl : Live v
    · exact .inr (hstops v hv hl)
    · exact .inl (aborted_of_not_live hl (h.failed v (List.mem_of_mem_eraseIdx hv)))
  by_cases hk : w.kind = .timer
  · rw [if_pos hk]
    refine process_sound hzero (socketCancel_aborted fun v hv => ?_) ha hc
    rcases hrest v hv with hab | ⟨hout, hkind⟩
    · exact .inl hab
    · exact .inr ⟨hout, hkind.mp hk⟩
  · rw [if_neg hk]
    refine process_sound hzero (timerCancel_aborted fun v hv => ?_) ha hc
    rcases hrest v hv with hab | ⟨hout, hkind⟩
    · exact .inl hab
    · exact .inr ⟨hout, Decidable.not_not.mp (fun hne => hk (hkind.mpr hne))⟩

theorem step_sound (h : Sound c) (he : WithoutErrors e) (hh : Hands c e)
    (hs : step c e = some d) : Sound d := by
  cases e with
  | process a =>
    simp only [step] at hs
    split at hs <;> cases hs
    rename_i hne
    cases h.chain with
    | posted one none =>
      refine process_sound (by simp [one]) (fun w hw => ?_) he hh
      rw [live, List.filter_eq_nil_iff] at none
      exact aborted_of_not_live (by simpa using none w hw) (h.failed w hw)
    | waiting zero _ => exact absurd zero hne
  | completes place ec =>
    cases hw : c.waits[place]? with
    | none =>
      simp only [step, hw] at hs
      cases hs
    | some w =>
      simp only [step, hw] at hs
      split at hs <;> cases hs
      rename_i hout
      rw [show ec = .success from he]
      exact completes_sound h hw hout.1
  | handler place a =>
    cases hw : c.waits[place]? with
    | none =>
      simp only [step, hw] at hs
      cases hs
    | some w =>
      simp only [step, hw] at hs
      cases hstatus : w.status with
      | outstanding =>
        rw [hstatus] at hs
        cases hs
      | completed ec =>
        rw [hstatus] at hs
        cases hs
        cases ec with
        | success =>
          obtain ⟨hc, hstops⟩ := hh w hw hstatus
          exact handler_sound h hw hstatus he hc hstops
        | operationAborted =>
          have haborted := aborted_sound h hw hstatus
          split
          · exact haborted
          · exact haborted
        | failed => exact absurd hstatus (h.failed w (List.mem_of_getElem? hw))

theorem initial_sound : Sound (initial fd) := ⟨.posted rfl rfl, by simp [initial, readImmediate]⟩

/-- In every run without errors whose steps hand the loop over like this, exactly one
continuation of the loop is there. -/
theorem one_chain_alive
    (hr : (machine fd).ReachableBy (fun c e => WithoutErrors e ∧ Hands c e) c) : OneChain c := by
  have hsound : Sound c := hr.invariant initial_sound
    (fun _ _ _ h hok hs => step_sound h hok.1 hok.2 hs)
  exact hsound.chain

/-- Answers to read_wait: events, and a timeout that never comes or one in time. -/
def waitsFor (events : Int) (timeout : Nat) : Answers := ⟨false, 3, events, 0, timeout⟩

def never : Nat := 2 ^ 64 - 1

/-- A message was processed. -/
def discards : Answers := ⟨true, 3, 1, 0, never⟩

/-- Reading gets ready, then a timeout is over first. -/
def readsAndTimesOut : List Event :=
  [.process (waitsFor 1 never), .completes 0 .success, .handler 0 discards,
   .process (waitsFor 1 5000), .completes 1 .success, .handler 1 (waitsFor 5 never)]

theorem one_chain_alive_readsAndTimesOut :
    ∃ c, (machine 3).run (initial 3) readsAndTimesOut = some c ∧ OneChain c ∧
      (live c).length = 2 := by
  have hrun : ∃ c, (machine 3).runBy (fun c e => WithoutErrors e ∧ Hands c e) (initial 3)
      readsAndTimesOut = some c ∧ (machine 3).run (initial 3) readsAndTimesOut = some c ∧
      (live c).length = 2 := ⟨_, by decide, rfl, by decide⟩
  obtain ⟨c, hby, hrun, hlive⟩ := hrun
  exact ⟨c, hrun, one_chain_alive (Machine.reachableBy_of_runBy _ _ hby), hlive⟩

/-- Waiting to read and to write, and ready to read first. -/
def readsFirst : List Event :=
  [.process (waitsFor 5 never), .completes 0 .success, .handler 0 discards]

/-- A process() is posted while the wait to write is still there. -/
theorem two_chains :
    ∃ c, (machine 3).run (initial 3) readsFirst = some c ∧ (∀ e ∈ readsFirst, WithoutErrors e) ∧
      c.posted = 1 ∧ (live c).length = 1 ∧ ¬ OneChain c := by
  refine ⟨_, rfl, by decide, rfl, rfl, fun h => ?_⟩
  cases h with
  | posted _ none => cases none
  | waiting zero _ => cases zero

/-- Waits to write that a loop left behind which was always ready to read first. -/
structure LeftBehind (c : Connection) (n : Nat) : Prop where
  none : c.posted = 0
  handle : c.nativeHandle = 3
  waits : ∃ ws,
    c.waits = ws ++ [⟨.read, c.rounds, .outstanding⟩, ⟨.write, c.rounds, .outstanding⟩] ∧
    (∀ w ∈ ws, w.kind = .write ∧ w.status = .outstanding) ∧ ws.length = n

def toWrite (n : Nat) : Wait := ⟨.write, n, .outstanding⟩

/-- read_wait in such a loop, where nothing waits for the timer. -/
theorem process_waitsFor (hh : c.nativeHandle = 3) : c.process (waitsFor 5 never) =
    { c with
      rounds := c.rounds + 1
      waits := c.waits ++ [⟨.read, c.rounds + 1, .outstanding⟩, toWrite (c.rounds + 1)] } := by
  have hread : (waitsFor 5 never).has pollin = true := by decide
  have hwrite : (waitsFor 5 never).has pollout = true := by decide
  have herror : (waitsFor 5 never).has pollerr = false := by decide
  have htimed : (waitsFor 5 never).timed = false := by decide
  have hdiscard : (waitsFor 5 never).processDiscard = false := rfl
  have hfd : (waitsFor 5 never).fd = 3 := rfl
  have hevents : (waitsFor 5 never).events = 5 := rfl
  have htimeret : (waitsFor 5 never).timeret = 0 := rfl
  simp [process, readWait, hread, hwrite, herror, waitTimer, htimed, follow, hh, waitIf,
    Connection.asyncWait, hdiscard, hfd, hevents, htimeret, toWrite]

theorem timerCancel_writes (hw : ∀ w ∈ c.waits, w.kind = .write) : c.timerCancel = c := by
  have hsame : ∀ w ∈ c.waits, (if w.kind = .timer then w.cancel else w) = w := by
    intro w hm
    rw [hw w hm]
    exact if_neg nofun
  rw [timerCancel, List.map_congr_left hsame, List.map_id']

theorem leftBehind_step {n : Nat} (h : LeftBehind c n) : ∃ d,
    (machine 3).run c [.completes n .success, .handler n (waitsFor 5 never)] = some d ∧
      LeftBehind d (n + 1) := by
  obtain ⟨ws, hws, hwrite, rfl⟩ := h.waits
  have hready : step c (.completes ws.length .success) = some { c with
      waits := ws ++ [⟨.read, c.rounds, .completed .success⟩, toWrite c.rounds] } := by
    simp [step, hws, toWrite]
  have hhandler : step { c with
      waits := ws ++ [⟨.read, c.rounds, .completed .success⟩, toWrite c.rounds] }
      (.handler ws.length (waitsFor 5 never)) = some ((timerCancel { c with
        waits := ws ++ [toWrite c.rounds] }).process (waitsFor 5 never)) := by
    simp [step, List.eraseIdx_append_of_length_le, onFdEvent]
  have hwrites : ∀ w ∈ ws ++ [toWrite c.rounds], w.kind = .write ∧ w.status = .outstanding := by
    intro w hw
    rcases List.mem_append.mp hw with hw | hw
    · exact hwrite w hw
    · rw [List.mem_singleton.mp hw]
      exact ⟨rfl, rfl⟩
  have hcancel : timerCancel { c with waits := ws ++ [toWrite c.rounds] } =
      { c with waits := ws ++ [toWrite c.rounds] } :=
    timerCancel_writes (fun w hw => (hwrites w hw).1)
  have hprocess := process_waitsFor (c := { c with waits := ws ++ [toWrite c.rounds] }) h.handle
  rw [hcancel, hprocess] at hhandler
  have hrun : (machine 3).run c
      [.completes ws.length .success, .handler ws.length (waitsFor 5 never)] =
      (step c (.completes ws.length .success)).bind
        (fun d => (step d (.handler ws.length (waitsFor 5 never))).bind some) := rfl
  rw [hready, Option.bind_some, hhandler, Option.bind_some] at hrun
  exact ⟨_, hrun, h.none, h.handle, _, rfl, hwrites, by simp⟩

/-- Without any error there is no bound on the waits that are outstanding. -/
theorem waits_accumulate (n : Nat) : ∃ es c, (machine 3).run (initial 3) es = some c ∧
    (∀ e ∈ es, WithoutErrors e) ∧ n < (live c).length := by
  suffices hleft : ∃ es c, (machine 3).run (initial 3) es = some c ∧
      (∀ e ∈ es, WithoutErrors e) ∧ LeftBehind c n by
    obtain ⟨es, c, hrun, hes, h⟩ := hleft
    refine ⟨es, c, hrun, hes, ?_⟩
    obtain ⟨ws, hws, hwrite, rfl⟩ := h.waits
    have hout : ∀ w ∈ c.waits, w.status = .outstanding := by
      intro w hw
      rw [hws] at hw
      rcases List.mem_append.mp hw with hw | hw
      · exact (hwrite w hw).2
      · simp only [List.mem_cons, List.not_mem_nil, or_false] at hw
        rcases hw with rfl | rfl
        · rfl
        · rfl
    have hall : live c = c.waits :=
      List.filter_eq_self.mpr (fun w hw => decide_eq_true (.inl (hout w hw)))
    rw [hall, hws]
    simp
  induction n with
  | zero =>
    have hstep : step (initial 3) (.process (waitsFor 5 never)) =
        some (Connection.process ⟨0, [], 0, 3⟩ (waitsFor 5 never)) := rfl
    have hrun : (machine 3).run (initial 3) [.process (waitsFor 5 never)] =
        (step (initial 3) (.process (waitsFor 5 never))).bind some := rfl
    rw [hstep, process_waitsFor rfl, Option.bind_some] at hrun
    exact ⟨_, _, hrun, by decide, rfl, rfl, [], rfl, by simp, rfl⟩
  | succ n ih =>
    obtain ⟨es, c, hrun, hes, h⟩ := ih
    obtain ⟨d, hd, hleft⟩ := leftBehind_step h
    refine ⟨es ++ [.completes n .success, .handler n (waitsFor 5 never)], d,
      (Machine.run_append hrun).trans hd, ?_, hleft⟩
    intro e he
    rcases List.mem_append.mp he with he | he
    · exact hes e he
    · simp only [List.mem_cons, List.not_mem_nil, or_false] at he
      rcases he with rfl | rfl
      · rfl
      · exact (by decide : NoErrors (waitsFor 5 never))

end Sdbusplus.Proofs.Connection
