/-!
The result of a computation over tensors: a value, a refusal with its cause, or a fault. A refusal
is an answer that callers expect; a fault is arithmetic outside 64 bits or a read outside a tensor.
The two are kept apart, so that "never faults" can be said of a rule that may still refuse.
-/

namespace TensorGraph

/-- A value, a refusal with its cause, or a fault. -/
inductive Outcome (ε α : Type) where
  | ok (value : α)
  | error (cause : ε)
  | fault
  deriving DecidableEq, Repr

namespace Outcome

variable {ε ε' α β : Type}

instance [Inhabited α] : Inhabited (Outcome ε α) := ⟨.ok default⟩

@[inline] def bind (x : Outcome ε α) (f : α → Outcome ε β) : Outcome ε β :=
  match x with
  | .ok a => f a
  | .error e => .error e
  | .fault => .fault

instance : Monad (Outcome ε) where
  pure := .ok
  bind := bind

@[simp] theorem pure_eq (a : α) : (pure a : Outcome ε α) = .ok a := rfl
@[simp] theorem ok_bind (a : α) (f : α → Outcome ε β) : (Outcome.ok a >>= f) = f a := rfl
@[simp] theorem error_bind (e : ε) (f : α → Outcome ε β) :
    ((.error e : Outcome ε α) >>= f) = .error e := rfl
@[simp] theorem fault_bind (f : α → Outcome ε β) :
    ((.fault : Outcome ε α) >>= f) = .fault := rfl
@[simp] theorem map_eq_bind (f : α → β) (x : Outcome ε α) :
    f <$> x = x >>= fun a => .ok (f a) := rfl

instance : LawfulMonad (Outcome ε) := LawfulMonad.mk' (Outcome ε)
  (fun x => by cases x <;> rfl) (fun _ _ => rfl) (fun x _ _ => by cases x <;> rfl)

/-- A bind succeeds exactly when both of its steps do. -/
theorem bind_eq_ok {x : Outcome ε α} {f : α → Outcome ε β} {b : β} :
    (x >>= f) = .ok b ↔ ∃ a, x = .ok a ∧ f a = .ok b := by
  cases x <;> simp

def ofOption : Option α → Outcome ε α
  | some a => .ok a
  | none => .fault

/-- The value of an option, where its absence is refused with `e`. -/
def orRefuse (e : ε) : Option α → Outcome ε α
  | some a => .ok a
  | none => .error e

/-- Goes on if `p` holds and faults otherwise. -/
def demand (p : Prop) [Decidable p] : Outcome ε Unit :=
  if p then .ok () else .fault

/-- Goes on unless `p` holds, which is refused with `e`. -/
def refuseIf (p : Prop) [Decidable p] (e : ε) : Outcome ε Unit :=
  if p then .error e else .ok ()

def mapError (f : ε → ε') : Outcome ε α → Outcome ε' α
  | .ok a => .ok a
  | .error e => .error (f e)
  | .fault => .fault

@[simp] theorem ofOption_some (a : α) : (ofOption (some a) : Outcome ε α) = .ok a := rfl
@[simp] theorem ofOption_none : (ofOption none : Outcome ε α) = .fault := rfl
@[simp] theorem orRefuse_some (e : ε) (a : α) : orRefuse e (some a) = .ok a := rfl
@[simp] theorem orRefuse_none (e : ε) : (orRefuse e none : Outcome ε α) = .error e := rfl

@[simp] theorem demand_eq_ok {p : Prop} [Decidable p] {u : Unit} :
    (demand p : Outcome ε Unit) = .ok u ↔ p := by
  simp [demand]

@[simp] theorem refuseIf_eq_ok {p : Prop} [Decidable p] {e : ε} {u : Unit} :
    refuseIf p e = .ok u ↔ ¬p := by
  simp [refuseIf]

/-- Steps a state through a list until a step fails; the state is the last one that was reached. -/
def foldUntil {σ : Type} (f : σ → α → Outcome ε σ) : σ → List α → σ × Outcome ε Unit
  | s, [] => (s, .ok ())
  | s, a :: as =>
    match f s a with
    | .ok s => foldUntil f s as
    | .error e => (s, .error e)
    | .fault => (s, .fault)

theorem foldUntil_eq_ok {σ : Type} {f : σ → α → Outcome ε σ} {s t : σ} {as : List α} :
    foldUntil f s as = (t, .ok ()) ↔ as.foldlM f s = .ok t := by
  induction as generalizing s with
  | nil => simp [foldUntil]
  | cons a as ih =>
    simp only [foldUntil, List.foldlM_cons]
    cases f s a <;> simp [ih]

def NoFault (x : Outcome ε α) : Prop := x ≠ .fault

instance (x : Outcome ε α) : Decidable x.NoFault :=
  match x with
  | .ok _ => isTrue (by simp [NoFault])
  | .error _ => isTrue (by simp [NoFault])
  | .fault => isFalse (by simp [NoFault])

end Outcome

end TensorGraph
