import Sdbusplus.EventLoop.Timer

namespace Sdbusplus.Proofs.Timer
open EventLoop EventLoop.Timer

variable {t u : Timer} {e : Event} {es : List Event}

/-- What the commands and expirations so far ask of a timer. -/
structure Asked where
  running : Enabled
  expired : Bool
  deriving DecidableEq, Repr

/-- The most recent command decides, with the periodicity of the last start. -/
def Asked.perform (a : Asked) : Command → Asked
  | .start _ _ periodic => ⟨if periodic then .on else .oneshot, false⟩
  | .stop => { a with running := .off }

/-- A oneshot is over when it expires; then the callback's commands count. -/
def Asked.expiration (a : Asked) (callback : List Command) : Asked :=
  callback.foldl perform ⟨if a.running = .oneshot then .off else a.running, true⟩

def Asked.next (a : Asked) : Event → Asked
  | .command c => a.perform c
  | .expiration _ _ callback => a.expiration callback

/-- What a history asks for, in program order. -/
def asked (es : List Event) : Asked := es.foldl Asked.next ⟨.off, false⟩

/-- The timer does what it was asked for. -/
structure Follows (t : Timer) (a : Asked) : Prop where
  running : t.isRunning = true ↔ a.running ≠ .off
  periodic : t.isRunning = true → t.eventSource.enabled = a.running
  expired : t.isExpired = a.expired

theorem follows_iff {a : Asked} :
    Follows t a ↔ t.eventSource.enabled = a.running ∧ t.expired = a.expired := by
  constructor
  · intro h
    refine ⟨?_, h.expired⟩
    by_cases hrun : t.isRunning = true
    · exact h.periodic hrun
    · have hoff : a.running = .off := Decidable.not_not.mp (fun hne => hrun (h.running.mpr hne))
      have hsource : t.eventSource.enabled = .off := by simpa [Timer.isRunning] using hrun
      rw [hoff, hsource]
  · rintro ⟨hr, he⟩
    exact ⟨by simp [Timer.isRunning, hr], fun _ => hr, he⟩

/-- An expiration whose callback starts the timer as a oneshot last of all. -/
def RearmsOnce : Event → Prop
  | .expiration _ _ callback => ∃ now usec, callback.getLast? = some (.start now usec false)
  | .command _ => False

theorem start_asked {a : Asked} {now usec : Int} {periodic : Bool} :
    (t.start now usec periodic).eventSource.enabled =
        (a.perform (.start now usec periodic)).running ∧
      (t.start now usec periodic).expired = (a.perform (.start now usec periodic)).expired :=
  ⟨rfl, rfl⟩

theorem perform_follows {a : Asked} (h : Follows t a) (c : Command) :
    Follows (t.perform c) (a.perform c) := by
  rw [follows_iff] at h ⊢
  cases c with
  | start now usec periodic => exact start_asked
  | stop => exact ⟨rfl, h.2⟩

theorem foldl_follows {a : Asked} (h : Follows t a) (cs : List Command) :
    Follows (cs.foldl perform t) (cs.foldl Asked.perform a) := by
  induction cs generalizing t a with
  | nil => exact h
  | cons c cs ih => exact ih (perform_follows h c)

/-- The timer when its callback has run, before the handler looks at it again. -/
def afterCallback (t : Timer) (now : Int) (callback : List Command) : Timer :=
  let t := if t.eventSource.enabled = .oneshot then t.setEnabled .off else t
  let t := if t.runType = some .on then t.setTime (now + t.duration) else t
  callback.foldl perform { t with expired := true }

theorem dispatch_eq {now : Int} {callback : List Command} :
    t.dispatch now callback =
      if (afterCallback t now callback).eventSource.enabled = .oneshot then
        (afterCallback t now callback).stop
      else afterCallback t now callback := rfl

theorem afterCallback_follows {a : Asked} (h : Follows t a) (now : Int) (callback : List Command) :
    Follows (afterCallback t now callback) (a.expiration callback) := by
  apply foldl_follows
  rw [follows_iff] at h ⊢
  refine ⟨?_, rfl⟩
  rw [← h.1]
  dsimp only
  by_cases hone : t.eventSource.enabled = .oneshot
  · rw [if_pos hone, if_pos hone]
    split <;> rfl
  · rw [if_neg hone, if_neg hone]
    split <;> rfl

/-- Of all commands only a last oneshot start leaves the timer running as a oneshot. -/
theorem foldl_oneshot {a : Asked} (ha : a.running ≠ .oneshot) (cs : List Command) :
    (cs.foldl Asked.perform a).running = .oneshot ↔
      ∃ now usec, cs.getLast? = some (.start now usec false) := by
  rcases List.eq_nil_or_concat cs with rfl | ⟨front, c, rfl⟩
  · simpa using ha
  · rw [List.concat_eq_append, List.foldl_append, List.getLast?_concat]
    cases c with
    | start now usec periodic => cases periodic <;> simp [Asked.perform]
    | stop => simp [Asked.perform]

theorem expiration_oneshot {a : Asked} {clock : Nat} {now : Int} {callback : List Command} :
    (a.expiration callback).running = .oneshot ↔
      RearmsOnce (.expiration clock now callback) := by
  apply foldl_oneshot
  dsimp only
  split
  · exact nofun
  · rename_i hne
    exact hne

/-- An expiration is followed just when its callback does not rearm the timer once. -/
theorem dispatch_follows {a : Asked} {clock : Nat} {now : Int} {callback : List Command}
    (h : Follows t a) : Follows (t.dispatch now callback) (a.expiration callback) ↔
      ¬ RearmsOnce (.expiration clock now callback) := by
  have hafter := afterCallback_follows h now callback
  have hrunning := (follows_iff.mp hafter).1
  rw [dispatch_eq, ← expiration_oneshot (a := a)]
  by_cases hone : (a.expiration callback).running = .oneshot
  · rw [if_pos (hrunning.trans hone), follows_iff]
    -- The handler stops the timer that its callback has just started.
    have hoff : (afterCallback t now callback).stop.eventSource.enabled = .off := rfl
    rw [hoff, hone]
    simp
  · rw [if_neg (fun heq => hone (hrunning.symm.trans heq))]
    exact ⟨fun _ => hone, fun _ => hafter⟩

theorem step_follows {a : Asked} (h : Follows t a) (hs : step t e = some u) :
    Follows u (a.next e) ↔ ¬ RearmsOnce e := by
  cases e with
  | command c =>
    cases hs
    exact ⟨fun _ => id, fun _ => perform_follows h c⟩
  | expiration clock now callback =>
    simp only [step] at hs
    split at hs <;> cases hs
    exact dispatch_follows h

theorem initial_follows : Follows initial (asked []) := follows_iff.mpr ⟨rfl, rfl⟩

/-- The histories of which every beginning leaves the timer as it was asked to be. -/
def FollowsThroughout (t : Timer) (a : Asked) (es : List Event) : Prop :=
  ∀ as bs, es = as ++ bs → ∀ u, machine.run t as = some u → Follows u (as.foldl Asked.next a)

theorem followsThroughout_cons {a : Asked} (hs : step t e = some u) :
    FollowsThroughout t a (e :: es) ↔ Follows t a ∧ FollowsThroughout u (a.next e) es := by
  have hrun : ∀ as, machine.run t (e :: as) = machine.run u as := by
    intro as
    simp [Machine.run, machine, hs]
  constructor
  · intro h
    refine ⟨h [] (e :: es) rfl t rfl, fun as bs heq v hv => ?_⟩
    exact h (e :: as) bs (by rw [heq]; rfl) v ((hrun as).trans hv)
  · rintro ⟨hfirst, hrest⟩ as bs heq v hv
    cases as with
    | nil =>
      cases hv
      exact hfirst
    | cons e' as =>
      rw [List.cons_append] at heq
      injection heq with he hes
      subst he
      exact hrest as bs hes v ((hrun as).symm.trans hv)

theorem followsThroughout_iff {a : Asked} (h : Follows t a) (hrun : machine.run t es = some u) :
    FollowsThroughout t a es ↔ ∀ e ∈ es, ¬ RearmsOnce e := by
  induction es generalizing t a with
  | nil =>
    refine ⟨fun _ => by simp, fun _ as bs heq v hv => ?_⟩
    obtain ⟨rfl, -⟩ := List.append_eq_nil_iff.mp heq.symm
    cases hv
    exact h
  | cons e es ih =>
    obtain ⟨v, hs, hrun⟩ := Option.bind_eq_some_iff.mp hrun
    rw [followsThroughout_cons hs, List.forall_mem_cons, ← step_follows h hs]
    constructor
    · rintro ⟨-, hrest⟩
      have hv : Follows v (a.next e) := hrest [] es rfl v rfl
      exact ⟨hv, (ih hv hrun).mp hrest⟩
    · rintro ⟨hv, hes⟩
      exact ⟨h, (ih hv hrun).mpr hes⟩

/-- sdbusplus::Timer does what its last command says, at every moment outside of a
handler, in just the histories in which no callback starts it as a oneshot last. -/
theorem follows_last_command (hrun : machine.run machine.init es = some t) :
    (∀ as bs, es = as ++ bs → ∀ u, machine.run machine.init as = some u → Follows u (asked as)) ↔
      ∀ e ∈ es, ¬ RearmsOnce e :=
  followsThroughout_iff initial_follows hrun

/-- A periodic timer that its callback restarts as a periodic one, and a oneshot
whose callback starts and stops it. -/
def restarts : List Event :=
  [.command (.start 0 10 true), .expiration 10 11 [.start 11 5 true], .command .stop,
   .command (.start 20 10 false), .expiration 30 31 [.start 31 5 false, .stop]]

theorem follows_last_command_restarts :
    ∃ t, machine.run machine.init restarts = some t ∧ Follows t (asked restarts) ∧
      t.isRunning = false ∧ t.isExpired = false := by
  have hrearms : ∀ e ∈ restarts, ¬ RearmsOnce e := by simp [restarts, RearmsOnce]
  refine ⟨_, rfl, ?_, rfl, rfl⟩
  exact (follows_last_command rfl).mpr hrearms restarts [] rfl _ rfl

/-- A oneshot whose callback starts it as a oneshot again. -/
def rearms : List Event := [.command (.start 0 10 false), .expiration 10 11 [.start 11 10 false]]

/-- It is stopped when the callback returns. -/
theorem rearmed_is_stopped :
    (∃ t, machine.run machine.init rearms = some t ∧ t.isRunning = false ∧
      (asked rearms).running = .oneshot) ∧
    ¬ ∀ es t, machine.run machine.init es = some t → Follows t (asked es) := by
  refine ⟨⟨_, rfl, rfl, rfl⟩, fun h => ?_⟩
  exact absurd ((h rearms _ rfl).running.mpr nofun) nofun

end Sdbusplus.Proofs.Timer
