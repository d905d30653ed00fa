import Mathlib.Data.List.Forall2
import Mathlib.Data.Option.Basic
import TensorGraph.Proofs.Words

/-! Computations on descriptions beside computations on what is described. The first one follows
the second one if it gives a related value wherever the second one gives a value: it may fault, but
it must not refuse what the second one accepts. It endures beside it if it does not fault there.
Both together make it give a related value wherever the other one gives one. -/

namespace TensorGraph.Outcome

variable {ε ε' α β γ δ : Type}

/-- Wherever `y` gives a value, `x` gives a related one or faults. -/
def Follows (R : α → β → Prop) (x : Outcome ε α) (y : Outcome ε' β) : Prop :=
  ∀ b, y = .ok b → x = .fault ∨ ∃ a, x = .ok a ∧ R a b

theorem Follows.related {R : α → β → Prop} {x : Outcome ε α} {y : Outcome ε' β} {a : α} {b : β}
    (h : Follows R x y) (hx : x = .ok a) (hy : y = .ok b) : R a b := by
  rcases h b hy with hf | ⟨a', ha, hr⟩
  · simp [hx] at hf
  · rw [hx] at ha
    cases ha
    exact hr

theorem Follows.not_error {R : α → β → Prop} {x : Outcome ε α} {y : Outcome ε' β} {b : β}
    (h : Follows R x y) (hy : y = .ok b) (e : ε) : x ≠ .error e := by
  intro hx
  rcases h b hy with hf | ⟨a, ha, -⟩
  · simp [hx] at hf
  · simp [hx] at ha

theorem follows_ok {R : α → β → Prop} {a : α} {b : β} (h : R a b) :
    Follows R (.ok a : Outcome ε α) (.ok b : Outcome ε' β) := by
  intro b' hb
  cases hb
  exact .inr ⟨a, rfl, h⟩

theorem follows_refl (x : Outcome ε α) : Follows (· = ·) x x :=
  fun b hb => .inr ⟨b, hb, rfl⟩

theorem follows_error {R : α → β → Prop} (x : Outcome ε α) (e : ε') :
    Follows R x (.error e : Outcome ε' β) := by
  intro b hb
  cases hb

theorem follows_fault {R : α → β → Prop} (x : Outcome ε α) :
    Follows R x (.fault : Outcome ε' β) := by
  intro b hb
  cases hb

theorem fault_follows {R : α → β → Prop} (y : Outcome ε' β) :
    Follows R (.fault : Outcome ε α) y :=
  fun _ _ => .inl rfl

theorem Follows.mono {R S : α → β → Prop} {x : Outcome ε α} {y : Outcome ε' β}
    (h : Follows R x y) (hrs : ∀ a b, R a b → S a b) : Follows S x y := by
  intro b hb
  rcases h b hb with hf | ⟨a, ha, hr⟩
  · exact .inl hf
  · exact .inr ⟨a, ha, hrs a b hr⟩

theorem Follows.bind_ok {R : α → β → Prop} {S : γ → δ → Prop} {x : Outcome ε α}
    {y : Outcome ε' β} {f : α → Outcome ε γ} {g : β → Outcome ε' δ} (h : Follows R x y)
    (hf : ∀ a b, R a b → x = .ok a → y = .ok b → Follows S (f a) (g b)) :
    Follows S (x >>= f) (y >>= g) := by
  intro d hd
  obtain ⟨b, hb, hg⟩ := bind_eq_ok.mp hd
  rcases h b hb with hx | ⟨a, ha, hr⟩
  · exact .inl (by simp [hx])
  · have hrest := hf a b hr ha hb
    rw [ha, ok_bind]
    exact hrest d hg

theorem Follows.bind {R : α → β → Prop} {S : γ → δ → Prop} {x : Outcome ε α} {y : Outcome ε' β}
    {f : α → Outcome ε γ} {g : β → Outcome ε' δ} (h : Follows R x y)
    (hf : ∀ a b, R a b → Follows S (f a) (g b)) : Follows S (x >>= f) (y >>= g) :=
  h.bind_ok fun a b hr _ _ => hf a b hr

theorem follows_bind_same {S : γ → δ → Prop} {x : Outcome ε α} {f : α → Outcome ε γ}
    {g : α → Outcome ε δ} (h : ∀ a, x = .ok a → Follows S (f a) (g a)) :
    Follows S (x >>= f) (x >>= g) := by
  intro d hd
  obtain ⟨a, ha, hg⟩ := bind_eq_ok.mp hd
  rw [ha, ok_bind]
  exact h a ha d hg

theorem follows_bind_right {S : γ → δ → Prop} {x : Outcome ε γ} {y : Outcome ε' β}
    {g : β → Outcome ε' δ} (h : ∀ b, y = .ok b → Follows S x (g b)) : Follows S x (y >>= g) := by
  intro d hd
  obtain ⟨b, hb, hg⟩ := bind_eq_ok.mp hd
  exact h b hb d hg

/-- Only the first computation has a step here, which must not refuse. -/
theorem follows_bind_left {S : γ → δ → Prop} {x : Outcome ε α} {f : α → Outcome ε γ}
    {y : Outcome ε' δ} (hx : ∀ e, x ≠ .error e) (h : ∀ a, x = .ok a → Follows S (f a) y) :
    Follows S (x >>= f) y := by
  cases x with
  | ok a => exact h a rfl
  | error e => exact absurd rfl (hx e)
  | fault => exact fault_follows y

@[simp] theorem mapError_eq_ok {f : ε → ε'} {x : Outcome ε α} {a : α} :
    x.mapError f = .ok a ↔ x = .ok a := by
  cases x <;> simp [Outcome.mapError]

/-- Two ways to a value that is used alike. -/
theorem ite_bind {p : Prop} [Decidable p] (x y : Outcome ε α) (f : α → Outcome ε γ) :
    (if p then x >>= f else y >>= f) = (if p then x else y) >>= f := by
  split_ifs <;> rfl

theorem refuseIf_neg {p : Prop} [Decidable p] {e : ε} (h : ¬p) : refuseIf p e = .ok () :=
  if_neg h

theorem follows_refuseIf {p q : Prop} [Decidable p] [Decidable q] {e : ε} {e' : ε'}
    (h : p → q) : Follows (fun _ _ => True) (refuseIf p e) (refuseIf q e') := by
  intro u hu
  have hq : ¬q := refuseIf_eq_ok.mp hu
  exact .inr ⟨(), by simp [refuseIf, mt h hq], trivial⟩

theorem orRefuse_eq_ok {o : Option α} {e : ε} {a : α} : orRefuse e o = .ok a ↔ o = some a := by
  cases o <;> simp

theorem follows_orRefuse {R : α → β → Prop} {o : Option α} {o' : Option β} {e : ε} {e' : ε'}
    (h : Option.Rel R o o') : Follows R (orRefuse e o) (orRefuse e' o') := by
  cases h with
  | none => exact follows_error _ _
  | some h => exact follows_ok h

theorem follows_ofOption {R : α → β → Prop} {o : Option α} {o' : Option β}
    (h : Option.Rel R o o') :
    Follows R (ofOption o : Outcome ε α) (ofOption o' : Outcome ε' β) := by
  cases h with
  | none => exact follows_fault _
  | some h => exact follows_ok h

@[simp] theorem demand_ne_error {p : Prop} [Decidable p] (e : ε) : demand p ≠ .error e := by
  by_cases h : p <;> simp [demand, h]

@[simp] theorem ofOption_ne_error (o : Option α) (e : ε) : ofOption o ≠ .error e := by
  cases o <;> simp [ofOption]

/-- Whatever value a computation gives has a property. -/
def Always (P : α → Prop) (x : Outcome ε α) : Prop := ∀ a, x = .ok a → P a

theorem always_ok {P : α → Prop} {a : α} (h : P a) : Always P (.ok a : Outcome ε α) :=
  fun _ ha => ok.inj ha ▸ h

theorem always_error {P : α → Prop} (e : ε) : Always P (.error e : Outcome ε α) :=
  fun _ ha => by cases ha

theorem always_fault {P : α → Prop} : Always P (.fault : Outcome ε α) :=
  fun _ ha => by cases ha

theorem always_bind {P : γ → Prop} {x : Outcome ε α} {f : α → Outcome ε γ}
    (h : ∀ a, x = .ok a → Always P (f a)) : Always P (x >>= f) := by
  intro c hc
  obtain ⟨a, ha, hc⟩ := bind_eq_ok.mp hc
  exact h a ha c hc

/-- Computations that go on alike from the value that a first one gives. -/
theorem bind_congr_ok {x : Outcome ε α} {f g : α → Outcome ε γ} (h : ∀ a, x = .ok a → f a = g a) :
    (x >>= f) = x >>= g := by
  cases x with
  | ok a => exact h a rfl
  | error e => rfl
  | fault => rfl

theorem bind_ne_error {x : Outcome ε α} {f : α → Outcome ε γ} {e : ε} (hx : x ≠ .error e)
    (hf : ∀ a, x = .ok a → f a ≠ .error e) : (x >>= f) ≠ .error e := by
  cases x with
  | ok a => exact hf a rfl
  | error e' => simpa using hx
  | fault => simp

theorem mapM_ne_error {f : α → Outcome ε γ} {xs : List α} {e : ε}
    (hf : ∀ x ∈ xs, f x ≠ .error e) : xs.mapM f ≠ .error e := by
  induction xs with
  | nil => simp
  | cons x xs ih =>
    rw [List.mapM_cons]
    refine bind_ne_error (hf x List.mem_cons_self) fun y _ => ?_
    refine bind_ne_error (ih fun z hz => hf z (List.mem_cons_of_mem _ hz)) fun ys _ => ?_
    simp

theorem foldlM_ne_error {σ : Type} {f : σ → α → Outcome ε σ} {xs : List α} {e : ε}
    (hf : ∀ s, ∀ x ∈ xs, f s x ≠ .error e) (s : σ) : xs.foldlM f s ≠ .error e := by
  induction xs generalizing s with
  | nil => simp
  | cons x xs ih =>
    rw [List.foldlM_cons]
    refine bind_ne_error (hf s x List.mem_cons_self) fun t _ => ?_
    exact ih (fun u y hy => hf u y (List.mem_cons_of_mem _ hy)) t

theorem foldlM_keeps {σ : Type} {P : σ → Prop} {f : σ → α → Outcome ε σ} {xs : List α}
    (hf : ∀ s t, ∀ x ∈ xs, P s → f s x = .ok t → P t) {s t : σ} (hs : P s)
    (h : xs.foldlM f s = .ok t) : P t := by
  induction xs generalizing s with
  | nil => exact ok.inj h ▸ hs
  | cons x xs ih =>
    rw [List.foldlM_cons] at h
    obtain ⟨u, hu, hrest⟩ := bind_eq_ok.mp h
    have hkeep := hf s u x List.mem_cons_self hs hu
    exact ih (fun a b y hy => hf a b y (List.mem_cons_of_mem _ hy)) hkeep hrest

theorem step_of_foldlM {σ : Type} {f : σ → α → Outcome ε σ} {xs : List α} {s t : σ}
    (h : xs.foldlM f s = .ok t) {x : α} (hx : x ∈ xs) : ∃ a b, f a x = .ok b := by
  induction xs generalizing s with
  | nil => simp at hx
  | cons y ys ih =>
    rw [List.foldlM_cons] at h
    obtain ⟨u, hu, hrest⟩ := bind_eq_ok.mp h
    rcases List.mem_cons.mp hx with rfl | hx
    · exact ⟨s, u, hu⟩
    · exact ih hrest hx

theorem follows_mapM {A : α → β → Prop} {R : γ → δ → Prop} {f : α → Outcome ε γ}
    {g : β → Outcome ε' δ} {xs : List α} {ys : List β} (h : List.Forall₂ A xs ys)
    (hf : ∀ x y, A x y → Follows R (f x) (g y)) :
    Follows (List.Forall₂ R) (xs.mapM f) (ys.mapM g) := by
  induction h with
  | nil => exact follows_ok .nil
  | cons hxy _ ih =>
    simp only [List.mapM_cons]
    refine (hf _ _ hxy).bind fun c d hcd => ih.bind fun cs ds hcs => ?_
    exact follows_ok (.cons hcd hcs)

theorem follows_foldlM {A : α → β → Prop} {R : γ → δ → Prop} {f : γ → α → Outcome ε γ}
    {g : δ → β → Outcome ε' δ} {xs : List α} {ys : List β} (h : List.Forall₂ A xs ys)
    (hf : ∀ c d x y, R c d → A x y → Follows R (f c x) (g d y)) {c : γ} {d : δ} (hcd : R c d) :
    Follows R (xs.foldlM f c) (ys.foldlM g d) := by
  induction h generalizing c d with
  | nil => exact follows_ok hcd
  | cons hxy _ ih =>
    simp only [List.foldlM_cons]
    exact (hf _ _ _ _ hcd hxy).bind fun c d h => ih h

/-- A list worked through twice, where only the results have to be related. -/
theorem follows_mapM_self {R : γ → δ → Prop} {f : α → Outcome ε γ} {g : α → Outcome ε' δ}
    (xs : List α) (hf : ∀ x, Follows R (f x) (g x)) :
    Follows (List.Forall₂ R) (xs.mapM f) (xs.mapM g) :=
  follows_mapM (A := (· = ·)) (List.forall₂_refl xs) fun x _ h => h ▸ hf x

@[simp] theorem noFault_ok (a : α) : (.ok a : Outcome ε α).NoFault := by
  simp [NoFault]

@[simp] theorem noFault_error (e : ε) : (.error e : Outcome ε α).NoFault := by
  simp [NoFault]

theorem noFault_of_eq_ok {x : Outcome ε α} {a : α} (h : x = .ok a) : x.NoFault :=
  h ▸ noFault_ok a

theorem noFault_bind {x : Outcome ε α} {f : α → Outcome ε γ} (hx : x.NoFault)
    (hf : ∀ a, x = .ok a → (f a).NoFault) : (x >>= f).NoFault := by
  cases x with
  | ok a => exact hf a rfl
  | error e => exact noFault_error e
  | fault => exact absurd rfl hx

@[simp] theorem noFault_refuseIf (p : Prop) [Decidable p] (e : ε) : (refuseIf p e).NoFault := by
  unfold refuseIf
  split_ifs <;> simp

@[simp] theorem noFault_orRefuse (e : ε) (o : Option α) : (orRefuse e o).NoFault := by
  cases o <;> simp

theorem noFault_mapM {f : α → Outcome ε γ} {xs : List α} (h : ∀ a ∈ xs, (f a).NoFault) :
    (xs.mapM f).NoFault := by
  induction xs with
  | nil => exact noFault_ok _
  | cons a xs ih =>
    rw [List.mapM_cons]
    refine noFault_bind (h a List.mem_cons_self) fun _ _ => ?_
    exact noFault_bind (ih fun b hb => h b (List.mem_cons_of_mem a hb)) fun _ _ => noFault_ok _

theorem noFault_foldlM {σ : Type} {f : σ → α → Outcome ε σ} {xs : List α}
    (h : ∀ s, ∀ a ∈ xs, (f s a).NoFault) (s : σ) : (xs.foldlM f s).NoFault := by
  induction xs generalizing s with
  | nil => exact noFault_ok s
  | cons a xs ih =>
    rw [List.foldlM_cons]
    exact noFault_bind (h s a List.mem_cons_self) fun t _ =>
      ih (fun s b hb => h s b (List.mem_cons_of_mem a hb)) t

theorem noFault_checkRoom {count bytes : Nat} (h : count * bytes < byteLimit) :
    (checkRoom count bytes : Outcome ε Unit).NoFault :=
  noFault_of_eq_ok (a := ()) (demand_eq_ok.mpr h)

theorem noFault_checkInt {n : Int} (h : FitsInt n) : (checkInt n : Outcome ε Int64).NoFault := by
  rw [checkInt, if_pos h]
  exact noFault_ok _

/-- Wherever `y` gives a value, `x` does not fault, and a value that it gives is a related one. -/
def Endures (R : α → β → Prop) (x : Outcome ε α) (y : Outcome ε' β) : Prop :=
  ∀ b, y = .ok b → x.NoFault ∧ ∀ a, x = .ok a → R a b

theorem endures_ok {R : α → β → Prop} {a : α} {b : β} (h : R a b) :
    Endures R (.ok a : Outcome ε α) (.ok b : Outcome ε' β) := by
  intro b' hb
  cases hb
  refine ⟨noFault_ok a, fun a' ha => ?_⟩
  cases ha
  exact h

theorem endures_of_noFault {x : Outcome ε α} (h : x.NoFault) (y : Outcome ε' β) :
    Endures (fun _ _ => True) x y :=
  fun _ _ => ⟨h, fun _ _ => trivial⟩

theorem endures_refl (x : Outcome ε α) : Endures (· = ·) x x := by
  intro b hb
  refine ⟨noFault_of_eq_ok hb, fun a ha => ?_⟩
  rw [hb] at ha
  exact (ok.inj ha).symm

theorem Endures.mono {R S : α → β → Prop} {x : Outcome ε α} {y : Outcome ε' β}
    (h : Endures R x y) (hrs : ∀ a b, R a b → S a b) : Endures S x y :=
  fun b hb => (h b hb).imp id fun hx a ha => hrs a b (hx a ha)

theorem Endures.bind {R : α → β → Prop} {S : γ → δ → Prop} {x : Outcome ε α} {y : Outcome ε' β}
    {f : α → Outcome ε γ} {g : β → Outcome ε' δ} (h : Endures R x y)
    (hf : ∀ a b, R a b → y = .ok b → Endures S (f a) (g b)) : Endures S (x >>= f) (y >>= g) := by
  intro d hd
  obtain ⟨b, hb, hg⟩ := bind_eq_ok.mp hd
  obtain ⟨hx, hr⟩ := h b hb
  cases x with
  | ok a => exact hf a b (hr a rfl) hb d hg
  | error e => exact ⟨noFault_error e, fun _ hc => by cases hc⟩
  | fault => exact absurd rfl hx

theorem endures_bind_same {S : γ → δ → Prop} {x : Outcome ε α} {f : α → Outcome ε γ}
    {g : α → Outcome ε δ} (h : ∀ a, x = .ok a → Endures S (f a) (g a)) :
    Endures S (x >>= f) (x >>= g) :=
  (endures_refl x).bind fun a _ hab ha => by
    subst hab
    exact h a ha

theorem endures_bind_left {S : γ → δ → Prop} {x : Outcome ε α} {f : α → Outcome ε γ}
    {y : Outcome ε' δ} (hx : x.NoFault) (h : ∀ a, x = .ok a → Endures S (f a) y) :
    Endures S (x >>= f) y := by
  cases x with
  | ok a => exact h a rfl
  | error e => exact fun _ _ => ⟨noFault_error e, fun _ hc => by cases hc⟩
  | fault => exact absurd rfl hx

theorem endures_bind_right {S : γ → δ → Prop} {x : Outcome ε γ} {y : Outcome ε' β}
    {g : β → Outcome ε' δ} (h : ∀ b, y = .ok b → Endures S x (g b)) :
    Endures S x (y >>= g) := by
  intro d hd
  obtain ⟨b, hb, hg⟩ := bind_eq_ok.mp hd
  exact h b hb d hg

theorem endures_refuseIf {S : γ → δ → Prop} {p q : Prop} [Decidable p] [Decidable q] {e : ε}
    {e' : ε'} {x : Outcome ε γ} {y : Outcome ε' δ} (h : ¬q → Endures S x y) :
    Endures S (refuseIf p e >>= fun _ => x) (refuseIf q e' >>= fun _ => y) :=
  endures_bind_left (noFault_refuseIf p e) fun _ _ =>
    endures_bind_right fun _ hq => h (refuseIf_eq_ok.mp hq)

end TensorGraph.Outcome
