/-! What is known of the end of a computation that may stop early. -/
namespace Lox

variable {ε σ α β : Type} {x : EStateM ε σ α} {f : α → EStateM ε σ β} {s : σ}
  {ok mid : α → σ → Prop} {stop : ε → σ → Prop}

/-- Run from `s`, a computation ends with a result as `ok` says or stops as `stop` says. -/
def Ends (x : EStateM ε σ α) (s : σ) (ok : α → σ → Prop) (stop : ε → σ → Prop) : Prop :=
  match x s with
  | .ok a t => ok a t
  | .error e t => stop e t

theorem Ends.pure {a : α} (h : ok a s) : Ends (pure a) s ok stop := h

theorem Ends.throw {e : ε} (h : stop e s) : Ends (throw e) s ok stop := h

/-- A run in two parts ends well if the first part leads to where the second does. -/
theorem Ends.bind {ok : β → σ → Prop} (hx : Ends x s mid stop)
    (hf : ∀ a t, mid a t → Ends (f a) t ok stop) : Ends (x >>= f) s ok stop := by
  simp only [Ends, Bind.bind, EStateM.bind] at hx ⊢
  cases h : x s with
  | ok a t =>
    rw [h] at hx
    exact hf a t hx
  | error e t =>
    rw [h] at hx
    exact hx

theorem bind_of_ok {a : α} {t : σ} (h : x s = .ok a t) : (x >>= f) s = f a t := by
  simp only [Bind.bind, EStateM.bind, h]

theorem Ends.mono {stop' : ε → σ → Prop} (hx : Ends x s mid stop') (hok : ∀ a t, mid a t → ok a t)
    (hstop : ∀ e t, stop' e t → stop e t) : Ends x s ok stop := by
  simp only [Ends] at hx ⊢
  cases h : x s with
  | ok a t =>
    rw [h] at hx
    exact hok a t hx
  | error e t =>
    rw [h] at hx
    exact hstop e t hx

/-- The run that led to the second computation is known to it. -/
theorem Ends.bind_run {ok : β → σ → Prop} (hx : Ends x s mid stop)
    (hf : ∀ a t, x s = .ok a t → mid a t → Ends (f a) t ok stop) : Ends (x >>= f) s ok stop := by
  simp only [Ends, Bind.bind, EStateM.bind] at hx ⊢
  cases h : x s with
  | ok a t =>
    rw [h] at hx
    exact hf a t h hx
  | error e t =>
    rw [h] at hx
    exact hx

end Lox
