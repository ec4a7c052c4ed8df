import PackedDrawing.Fault
/-!
# Steps that change a state

An `Act` changes a state and either answers or fails. What it changed before it failed stays
changed.

## Main definitions

* `Act`: a step, with its lawful monad.
* `Act.attempt`: a computation without a state, as a step.
* `Act.within`: a step on a part of a larger state.
-/

namespace PackedDrawing

/-- A step on a state `σ` that answers with a `β` or fails. -/
def Act (σ β : Type) : Type := σ → Except Fault β × σ

namespace Act

variable {σ τ β γ : Type}

/-- Answers without a change. -/
def answer (b : β) : Act σ β := fun s => (.ok b, s)

/-- One step after another; the second one does not happen if the first one fails. -/
def andThen (a : Act σ β) (f : β → Act σ γ) : Act σ γ := fun s =>
  match a s with
  | (.ok b, t) => f b t
  | (.error e, t) => (.error e, t)

instance : Monad (Act σ) where
  pure := answer
  bind := andThen

/-- Fails without a change. -/
def fail (e : Fault) : Act σ β := fun s => (.error e, s)

/-- A computation that leaves the state alone. -/
def attempt (r : Except Fault β) : Act σ β := fun s => (r, s)

/-- The state. -/
def state : Act σ σ := fun s => (.ok s, s)

/-- Changes the state. -/
def change (f : σ → σ) : Act σ Unit := fun s => (.ok (), f s)

/-- A step on a part of a larger state. -/
def within (get : σ → τ) (put : τ → σ → σ) (a : Act τ β) : Act σ β := fun s =>
  let (r, t) := a (get s)
  (r, put t s)

/-- One step for each item, in order. -/
def each (f : γ → Act σ Unit) : List γ → Act σ Unit
  | [] => answer ()
  | x :: rest => andThen (f x) fun _ => each f rest

@[simp] theorem pure_apply (b : β) (s : σ) : (pure b : Act σ β) s = (.ok b, s) := rfl

@[simp] theorem attempt_apply (r : Except Fault β) (s : σ) : attempt r s = (r, s) := rfl

@[simp] theorem state_apply (s : σ) : state s = (.ok s, s) := rfl

@[simp] theorem change_apply (f : σ → σ) (s : σ) : change f s = (.ok (), f s) := rfl

@[simp] theorem fail_apply (e : Fault) (s : σ) : (fail e : Act σ β) s = (.error e, s) := rfl

theorem bind_apply (a : Act σ β) (f : β → Act σ γ) (s : σ) :
    (a >>= f) s = match a s with
      | (.ok b, t) => f b t
      | (.error e, t) => (.error e, t) := rfl

theorem bind_of_ok {a : Act σ β} {f : β → Act σ γ} {s t : σ} {b : β} (h : a s = (.ok b, t)) :
    (a >>= f) s = f b t := by
  simp [bind_apply, h]

theorem bind_of_error {a : Act σ β} {f : β → Act σ γ} {s t : σ} {e : Fault}
    (h : a s = (.error e, t)) : (a >>= f) s = (.error e, t) := by
  simp [bind_apply, h]

instance : LawfulMonad (Act σ) :=
  LawfulMonad.mk' (Act σ)
    (fun a => by
      funext s
      change (a >>= pure) s = a s
      rw [bind_apply]
      split <;> simp_all)
    (fun _ _ => rfl)
    (fun a f g => by
      funext s
      simp only [bind_apply]
      cases a s with
      | mk r t => cases r <;> rfl)

@[simp] theorem each_nil (f : γ → Act σ Unit) : each f [] = pure () := rfl

theorem each_cons (f : γ → Act σ Unit) (x : γ) (rest : List γ) :
    each f (x :: rest) = (f x >>= fun _ => each f rest) := rfl

end Act

end PackedDrawing
