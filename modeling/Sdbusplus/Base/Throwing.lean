/-! Programs that change a state and can throw. A throw keeps what was done to the
state before. -/

/-- What is thrown, the state, and the result. -/
abbrev Throwing (ε σ α : Type) := ExceptT ε (StateM σ) α

namespace Throwing

variable {ε σ α β : Type} {x : Throwing ε σ α} {f : α → Throwing ε σ β} {g : ε → Throwing ε σ α}
  {s t u : σ} {a : α} {b : β} {e : ε}

def exec (x : Throwing ε σ α) (s : σ) : Except ε α × σ := StateT.run (ExceptT.run x) s

@[simp] theorem exec_pure : exec (pure a : Throwing ε σ α) s = (.ok a, s) := rfl

@[simp] theorem exec_throw : exec (throw e : Throwing ε σ α) s = (.error e, s) := rfl

@[simp] theorem exec_modify {u : σ → σ} :
    exec (modify u : Throwing ε σ Unit) s = (.ok (), u s) := rfl

@[simp] theorem exec_get : exec (get : Throwing ε σ σ) s = (.ok s, s) := rfl

theorem exec_bind : exec (x >>= f) s =
    match x.exec s with
    | (.ok a, t) => (f a).exec t
    | (.error e, t) => (.error e, t) := by
  have hx : StateT.run (ExceptT.run x) s = x.exec s := rfl
  change StateT.run (ExceptT.run (x >>= f)) s = _
  rw [ExceptT.run_bind, StateT.run_bind, hx]
  rcases x.exec s with ⟨r, t⟩
  cases r <;> rfl

theorem exec_bind_ok (hx : x.exec s = (.ok a, t)) : exec (x >>= f) s = (f a).exec t := by
  rw [exec_bind, hx]

theorem exec_bind_error (hx : x.exec s = (.error e, t)) :
    exec (x >>= f) s = (.error e, t) := by
  rw [exec_bind, hx]

theorem exec_catch : exec (tryCatch x g) s =
    match x.exec s with
    | (.ok a, t) => (.ok a, t)
    | (.error e, t) => (g e).exec t := by
  have hx : StateT.run (ExceptT.run x) s = x.exec s := rfl
  change StateT.run (ExceptT.run (tryCatch x g)) s = _
  rw [ExceptT.run_tryCatch, StateT.run_bind, hx]
  rcases x.exec s with ⟨r, t⟩
  cases r <;> rfl

theorem exec_catch_ok (hx : x.exec s = (.ok a, t)) :
    exec (tryCatch x g) s = (.ok a, t) := by
  rw [exec_catch, hx]

theorem exec_catch_error (hx : x.exec s = (.error e, t)) :
    exec (tryCatch x g) s = (g e).exec t := by
  rw [exec_catch, hx]

/-- What every part keeps, the sequence keeps. -/
theorem bind_keeps {P : σ → Prop} (hs : P s) (hx : ∀ s, P s → P (x.exec s).2)
    (hf : ∀ a s, P s → P ((f a).exec s).2) : P (exec (x >>= f) s).2 := by
  have hfirst := hx s hs
  rw [exec_bind]
  rcases hxs : x.exec s with ⟨r, u⟩
  rw [hxs] at hfirst
  cases r with
  | ok a => exact hf a u hfirst
  | error e => exact hfirst

end Throwing
