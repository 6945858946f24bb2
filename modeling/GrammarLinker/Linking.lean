import GrammarLinker.Arena.Basic
import GrammarLinker.LinkError

/-!
# Computations that link

Building and linking change a state and may fail in two ways. A link error is an answer: the state that was reached stays, and
whoever asked may go on from it. A fault is none: there is no answer and no state.
-/

namespace GrammarLinker

/-- A computation that changes a state, answers with a value or a link error, and may break off with a fault. -/
abbrev LinkM (σ : Type) := ExceptT LinkError (StateT σ (Except Fault))

namespace LinkM

variable {σ α : Type}

/-- Runs a computation on a state: the answer and the state after it, or the fault. -/
def start (x : LinkM σ α) (s : σ) : Except Fault (Except LinkError α × σ) :=
  x.run.run s

/-- The computation with its link error, if it has one, as part of its value. -/
def attempt (x : LinkM σ α) : LinkM σ (Except LinkError α) :=
  fun s => do
    let (answer, s) ← x s
    return (.ok answer, s)

/-- The computation that does what a function on states says. -/
def ofRun (run : σ → Except Fault (Except LinkError α × σ)) : LinkM σ α := run

/-- The computation that changes the state and cannot fail otherwise than with a fault. -/
def ofChange (change : σ → Except Fault (α × σ)) : LinkM σ α :=
  fun s => do
    let (value, s) ← change s
    return (.ok value, s)

/-- A value is given back, and the state stays as it is. -/
@[simp] theorem start_pure (value : α) (s : σ) : start (pure value : LinkM σ α) s = .ok (.ok value, s) := rfl

/-- An error is given back, and the state stays as it is. -/
@[simp] theorem start_throw (e : LinkError) (s : σ) : start (throw e : LinkM σ α) s = .ok (.error e, s) := rfl

/-- A fault of the first part is the fault of the whole, an error its error, and a value goes to the second part. -/
theorem start_bind {β : Type} (x : LinkM σ α) (f : α → LinkM σ β) (s : σ) :
    start (x >>= f) s =
      match start x s with
      | .error fault => .error fault
      | .ok (.error e, s) => .ok (.error e, s)
      | .ok (.ok value, s) => start (f value) s := by
  show (do let r ← x s; _) = _
  simp only [start, ExceptT.run, StateT.run]
  cases x s with
  | error fault => rfl
  | ok r =>
    obtain ⟨r, s⟩ := r
    cases r <;> rfl

/-- An attempt never answers with a link error. -/
theorem start_attempt (x : LinkM σ α) (s : σ) :
    start (attempt x) s =
      match start x s with
      | .error fault => .error fault
      | .ok (answer, s) => .ok (.ok answer, s) := by
  show (do let r ← x s; _) = _
  simp only [start, ExceptT.run, StateT.run]
  cases x s <;> rfl

/-- Where two parts have an outcome, it is the error of the first one, or the outcome of the second one with the value of the first. -/
theorem start_bind_eq_ok {β : Type} {x : LinkM σ α} {f : α → LinkM σ β} {s t : σ} {answer : Except LinkError β}
    (h : start (x >>= f) s = .ok (answer, t)) :
    (∃ e, start x s = .ok (.error e, t) ∧ answer = .error e) ∨
      ∃ value m, start x s = .ok (.ok value, m) ∧ start (f value) m = .ok (answer, t) := by
  rw [start_bind] at h
  cases hx : start x s with
  | error fault => rw [hx] at h; cases h
  | ok r =>
    obtain ⟨r, m⟩ := r
    rw [hx] at h
    cases r with
    | error e => cases h; exact .inl ⟨e, rfl, rfl⟩
    | ok value => exact .inr ⟨value, m, rfl, h⟩

/-- Where the first part has no error, the outcome is the one of the second part with a value of the first. -/
theorem start_bind_eq_ok_of_value {β : Type} {x : LinkM σ α} {f : α → LinkM σ β} {s t : σ} {answer : Except LinkError β}
    {Q : α → Prop} (h : start (x >>= f) s = .ok (answer, t))
    (hx : ∀ r m, start x s = .ok (r, m) → ∃ value, r = .ok value ∧ Q value) :
    ∃ value m, start x s = .ok (.ok value, m) ∧ Q value ∧ start (f value) m = .ok (answer, t) := by
  rcases start_bind_eq_ok h with ⟨e, he, -⟩ | ⟨value, m, hv, h⟩
  · obtain ⟨_, hno, -⟩ := hx _ _ he
    cases hno
  · obtain ⟨_, ⟨⟩, hq⟩ := hx _ _ hv
    exact ⟨value, m, hv, hq, h⟩

/-- What is said of an outcome holds of the outcome that there is. -/
theorem outcome {x : LinkM σ α} {s t : σ} {answer : Except LinkError α} {P : Except LinkError α → σ → Prop}
    (h : ∃ answer t, x.start s = .ok (answer, t) ∧ P answer t) (hrun : x.start s = .ok (answer, t)) : P answer t := by
  obtain ⟨answer', t', hrun', hp⟩ := h
  rw [hrun, Except.ok.injEq, Prod.mk.injEq] at hrun'
  obtain ⟨rfl, rfl⟩ := hrun'
  exact hp

/-- Starting from a state is running from it. -/
@[simp] theorem start_ofRun (run : σ → Except Fault (Except LinkError α × σ)) (s : σ) : start (ofRun run) s = run s := rfl

/-- A change answers with its value in the state that it leaves. -/
theorem start_ofChange_ok {change : σ → Except Fault (α × σ)} {s t : σ} {value : α} (h : change s = .ok (value, t)) :
    start (ofChange change) s = .ok (.ok value, t) := by
  show (do let r ← change s; _) = _
  rw [h]
  rfl

/-- After an attempt the second part has the answer that there was. -/
theorem start_attempt_bind_eq_ok {β : Type} {x : LinkM σ α} {f : Except LinkError α → LinkM σ β} {s t : σ}
    {answer : Except LinkError β} (h : start (attempt x >>= f) s = .ok (answer, t)) :
    ∃ r m, start x s = .ok (r, m) ∧ start (f r) m = .ok (answer, t) := by
  rw [start_bind, start_attempt] at h
  cases hx : start x s with
  | error fault => rw [hx] at h; cases h
  | ok r => rw [hx] at h; exact ⟨r.1, r.2, rfl, h⟩

/-- After a change the second part has the value of the change. -/
theorem start_ofChange_bind_eq_ok {β : Type} {change : σ → Except Fault (α × σ)} {f : α → LinkM σ β} {s t : σ}
    {answer : Except LinkError β} (h : start (ofChange change >>= f) s = .ok (answer, t)) :
    ∃ value m, change s = .ok (value, m) ∧ start (f value) m = .ok (answer, t) := by
  cases hc : change s with
  | error fault =>
    have hfault : start (ofChange change) s = .error fault := by
      show (do let r ← change s; _) = _
      rw [hc]
      rfl
    rw [start_bind, hfault] at h
    cases h
  | ok r =>
    rw [start_bind, start_ofChange_ok hc] at h
    exact ⟨r.1, r.2, rfl, h⟩

end LinkM

end GrammarLinker
