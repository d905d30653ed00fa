import Mathlib.Data.List.Forall2
import Mathlib.Data.Option.Basic
import TensorGraph.Outcome

/-! Lists whose items are related place by place, and how list functions and computations over
lists keep them related. -/

namespace TensorGraph

def Told {α : Type} (a b : Option α) : Prop := ∀ x, a = some x → b = some x

theorem Told.any {α : Type} {a b : Option α} (h : Told a b) {p : α → Bool} (ha : a.any p = true) :
    b.any p = true := by
  cases a with
  | none => simp at ha
  | some x =>
    rw [h x rfl]
    exact ha

namespace Related

variable {α β γ δ ε : Type} {R : α → β → Prop} {S : γ → δ → Prop} {xs : List α} {ys : List β}

theorem set (h : List.Forall₂ R xs ys) {a : α} {b : β} (hab : R a b) (i : Nat) :
    List.Forall₂ R (xs.set i a) (ys.set i b) := by
  induction h generalizing i with
  | nil => exact .nil
  | cons hxy hs ih =>
    cases i with
    | zero => exact .cons hab hs
    | succ i => exact .cons hxy (ih i)

theorem getElem? (h : List.Forall₂ R xs ys) (i : Nat) : Option.Rel R xs[i]? ys[i]? := by
  induction h generalizing i with
  | nil => exact .none
  | cons hxy _ ih =>
    cases i with
    | zero => exact .some hxy
    | succ i => simpa using ih i

theorem getLast? (h : List.Forall₂ R xs ys) : Option.Rel R xs.getLast? ys.getLast? := by
  rw [List.getLast?_eq_getElem?, List.getLast?_eq_getElem?, h.length_eq]
  exact getElem? h _

theorem get_left (h : List.Forall₂ R xs ys) {i : Nat} {a : α} (ha : xs[i]? = some a) :
    ∃ b, ys[i]? = some b ∧ R a b := by
  have hi := getElem? h i
  rw [ha] at hi
  cases hb : ys[i]? with
  | none => simp [hb] at hi
  | some b => exact ⟨b, rfl, by simpa [hb] using hi⟩

theorem get_right (h : List.Forall₂ R xs ys) {i : Nat} {b : β} (hb : ys[i]? = some b) :
    ∃ a, xs[i]? = some a ∧ R a b := by
  have hi := getElem? h i
  rw [hb] at hi
  cases ha : xs[i]? with
  | none => simp [ha] at hi
  | some a => exact ⟨a, rfl, by simpa [ha] using hi⟩

theorem of_mem_right (h : List.Forall₂ R xs ys) {b : β} (hb : b ∈ ys) : ∃ a ∈ xs, R a b := by
  obtain ⟨i, hi⟩ := List.getElem?_of_mem hb
  obtain ⟨a, ha, hab⟩ := get_right h hi
  exact ⟨a, List.mem_of_getElem? ha, hab⟩

theorem getD (h : List.Forall₂ R xs ys) {a : α} {b : β} (hab : R a b) (i : Nat) :
    R (xs.getD i a) (ys.getD i b) := by
  have hi := getElem? h i
  simp only [List.getD_eq_getElem?_getD]
  cases hx : xs[i]? <;> cases hy : ys[i]? <;> simp_all

theorem set_right (h : List.Forall₂ R xs ys) {i : Nat} {a : α} {b : β} (ha : xs[i]? = some a)
    (hab : R a b) : List.Forall₂ R xs (ys.set i b) := by
  obtain ⟨hi, rfl⟩ := List.getElem?_eq_some_iff.mp ha
  have hset := set h hab i
  rwa [List.set_getElem_self] at hset

theorem zipIdx (h : List.Forall₂ R xs ys) (k : Nat) :
    List.Forall₂ (fun a b => R a.1 b.1 ∧ a.2 = b.2) (xs.zipIdx k) (ys.zipIdx k) := by
  induction h generalizing k with
  | nil => exact .nil
  | cons hxy _ ih => exact .cons ⟨hxy, rfl⟩ (ih (k + 1))

theorem zip (h : List.Forall₂ R xs ys) {us : List γ} {vs : List δ} (h' : List.Forall₂ S us vs) :
    List.Forall₂ (fun a b => R a.1 b.1 ∧ S a.2 b.2) (xs.zip us) (ys.zip vs) := by
  induction h generalizing us vs with
  | nil => exact .nil
  | cons hxy _ ih =>
    cases h' with
    | nil => exact .nil
    | cons huv hs => exact .cons ⟨hxy, huv⟩ (ih hs)

theorem zipWith {ρ σ : Type} {T : ρ → σ → Prop} (h : List.Forall₂ R xs ys) {us : List γ}
    {vs : List δ} (h' : List.Forall₂ S us vs) {f : α → γ → ρ} {g : β → δ → σ}
    (hfg : ∀ a b c d, R a b → S c d → T (f a c) (g b d)) :
    List.Forall₂ T (List.zipWith f xs us) (List.zipWith g ys vs) := by
  induction h generalizing us vs with
  | nil => exact .nil
  | cons hxy _ ih =>
    cases h' with
    | nil => exact .nil
    | cons huv hs => exact .cons (hfg _ _ _ _ hxy huv) (ih hs)

theorem map (h : List.Forall₂ R xs ys) {f : α → γ} {g : β → δ}
    (hfg : ∀ a b, R a b → S (f a) (g b)) : List.Forall₂ S (xs.map f) (ys.map g) :=
  List.rel_map (fun a b => hfg a b) h

theorem append (h : List.Forall₂ R xs ys) {us : List α} {vs : List β}
    (h' : List.Forall₂ R us vs) : List.Forall₂ R (xs ++ us) (ys ++ vs) :=
  List.rel_append h h'

theorem replicate {a : α} {b : β} (hab : R a b) (n : Nat) :
    List.Forall₂ R (List.replicate n a) (List.replicate n b) := by
  induction n with
  | zero => exact .nil
  | succ n ih => exact .cons hab ih

theorem replicate_left {a : α} (h : ∀ b ∈ ys, R a b) :
    List.Forall₂ R (List.replicate ys.length a) ys := by
  induction ys with
  | nil => exact .nil
  | cons b ys ih =>
    exact .cons (h b List.mem_cons_self) (ih fun b hb => h b (List.mem_cons_of_mem _ hb))

theorem trans (h : List.Forall₂ R xs ys) {S : β → γ → Prop} {T : α → γ → Prop} {zs : List γ}
    (h' : List.Forall₂ S ys zs) (hrs : ∀ a b c, R a b → S b c → T a c) :
    List.Forall₂ T xs zs := by
  induction h generalizing zs with
  | nil =>
    cases h'
    exact .nil
  | cons hxy _ ih =>
    cases h' with
    | cons hyz hs => exact .cons (hrs _ _ _ hxy hyz) (ih hs)

theorem and {S : α → β → Prop} (h : List.Forall₂ R xs ys) (h' : List.Forall₂ S xs ys) :
    List.Forall₂ (fun a b => R a b ∧ S a b) xs ys := by
  induction h with
  | nil => exact .nil
  | cons hxy _ ih =>
    cases h' with
    | cons hxy' hs => exact .cons ⟨hxy, hxy'⟩ (ih hs)

theorem of_map_eq {f : α → γ} {g : β → γ} (h : xs.map f = ys.map g) :
    List.Forall₂ (fun a b => f a = g b) xs ys := by
  rw [← List.forall₂_eq_eq_eq, List.forall₂_map_left_iff, List.forall₂_map_right_iff] at h
  exact h

theorem of_zip_left {P : α × β → γ → Prop} {zs : List γ} (hlen : xs.length = ys.length)
    (h : List.Forall₂ P (xs.zip ys) zs) : List.Forall₂ (fun a c => ∃ b, P (a, b) c) xs zs := by
  induction xs generalizing ys zs with
  | nil =>
    cases h
    exact .nil
  | cons a xs ih =>
    cases ys with
    | nil => simp at hlen
    | cons b ys =>
      cases h with
      | cons hp hs => exact .cons ⟨b, hp⟩ (ih (by simpa using hlen) hs)

theorem of_zip_right {P : α × β → γ → Prop} {zs : List γ} (hlen : xs.length = ys.length)
    (h : List.Forall₂ P (xs.zip ys) zs) : List.Forall₂ (fun b c => ∃ a, P (a, b) c) ys zs := by
  induction xs generalizing ys zs with
  | nil =>
    cases h
    cases ys with
    | nil => exact .nil
    | cons b ys => simp at hlen
  | cons a xs ih =>
    cases ys with
    | nil => simp at hlen
    | cons b ys =>
      cases h with
      | cons hp hs => exact .cons ⟨a, hp⟩ (ih (by simpa using hlen) hs)

theorem eraseIdx (h : List.Forall₂ R xs ys) (i : Nat) :
    List.Forall₂ R (xs.eraseIdx i) (ys.eraseIdx i) := by
  induction h generalizing i with
  | nil => exact .nil
  | cons hxy hs ih =>
    cases i with
    | zero => exact hs
    | succ i => exact .cons hxy (ih i)

theorem dropLast (h : List.Forall₂ R xs ys) : List.Forall₂ R xs.dropLast ys.dropLast := by
  rw [List.dropLast_eq_take, List.dropLast_eq_take, h.length_eq]
  exact List.forall₂_take _ h

theorem getLastD (h : List.Forall₂ R xs ys) {a : α} {b : β} (hab : R a b) :
    R (xs.getLastD a) (ys.getLastD b) := by
  rw [List.getLastD_eq_getLast?, List.getLastD_eq_getLast?, List.getLast?_eq_getElem?,
    List.getLast?_eq_getElem?, h.length_eq, ← List.getD_eq_getElem?_getD,
    ← List.getD_eq_getElem?_getD]
  exact getD h hab _

theorem flatMap {f : γ → List α} {g : γ → List β} {us : List γ}
    (h : ∀ c ∈ us, List.Forall₂ R (f c) (g c)) : List.Forall₂ R (us.flatMap f) (us.flatMap g) := by
  induction us with
  | nil => exact .nil
  | cons c us ih =>
    rw [List.forall_mem_cons] at h
    exact append h.1 (ih h.2)

theorem filterMap {f : α → Option γ} {g : β → Option δ} (h : List.Forall₂ R xs ys)
    (hfg : ∀ a b, R a b → Option.Rel S (f a) (g b)) :
    List.Forall₂ S (xs.filterMap f) (ys.filterMap g) :=
  List.rel_filterMap (fun a b => hfg a b) h

theorem any (h : List.Forall₂ R xs ys) {p : α → Bool} {q : β → Bool}
    (hpq : ∀ a b, R a b → p a = true → q b = true) (hx : xs.any p = true) : ys.any q = true := by
  induction h with
  | nil => simp at hx
  | cons hxy _ ih =>
    simp only [List.any_cons, Bool.or_eq_true] at hx ⊢
    rcases hx with hx | hx
    · exact .inl (hpq _ _ hxy hx)
    · exact .inr (ih hx)

end Related

/-- A computation over a list succeeds if it does for each item. -/
theorem Outcome.mapM_eq_ok {α β ε : Type} {f : α → Outcome ε β} {xs : List α} {ys : List β} :
    xs.mapM f = .ok ys ↔ List.Forall₂ (fun x y => f x = .ok y) xs ys := by
  induction xs generalizing ys with
  | nil => simp [eq_comm]
  | cons x xs ih =>
    simp only [List.mapM_cons, bind_eq_ok, pure_eq, Outcome.ok.injEq, List.forall₂_cons_left_iff,
      ih]
    constructor
    · rintro ⟨y, hy, zs, hzs, rfl⟩
      exact ⟨y, zs, hy, hzs, rfl⟩
    · rintro ⟨y, zs, hy, hzs, rfl⟩
      exact ⟨y, hy, zs, hzs, rfl⟩

theorem Outcome.mapM_range_eq_ok {α ε : Type} {f : Nat → Outcome ε α} {ys : List α} {n : Nat}
    (hlen : ys.length = n) (h : ∀ k (hk : k < ys.length), f k = .ok ys[k]) :
    (List.range n).mapM f = .ok ys := by
  subst hlen
  refine mapM_eq_ok.mpr (List.forall₂_iff_get.mpr ⟨List.length_range, fun k _ hk => ?_⟩)
  rw [List.get_eq_getElem, List.get_eq_getElem, List.getElem_range]
  exact h k hk

theorem Outcome.mapM_cons_eq_ok {α β ε : Type} {f : α → Outcome ε β} {x : α} {xs : List α}
    {ys : List β} (h : (x :: xs).mapM f = .ok ys) :
    ∃ y ys', ys = y :: ys' ∧ f x = .ok y ∧ xs.mapM f = .ok ys' := by
  obtain ⟨y, ys', hy, hys, rfl⟩ := List.forall₂_cons_left_iff.mp (mapM_eq_ok.mp h)
  exact ⟨y, ys', rfl, hy, mapM_eq_ok.mpr hys⟩

theorem Outcome.map_eq_of_mapM {α β γ ε : Type} {f : α → Outcome ε β} {g : α → γ} {k : β → γ}
    {xs : List α} {ys : List β} (h : xs.mapM f = .ok ys)
    (hfg : ∀ x ∈ xs, ∀ y, f x = .ok y → k y = g x) :
    ys.map k = xs.map g := by
  induction xs generalizing ys with
  | nil =>
    cases mapM_eq_ok.mp h
    rfl
  | cons x xs ih =>
    obtain ⟨y, ys, rfl, hy, hys⟩ := mapM_cons_eq_ok h
    rw [List.forall_mem_cons] at hfg
    rw [List.map_cons, List.map_cons, hfg.1 y hy, ih hys hfg.2]

theorem Outcome.filterMap_eq_of_mapM {α β γ ε : Type} {f : α → Outcome ε β} {g : α → Option γ}
    {k : β → Option γ} {xs : List α} {ys : List β} (h : xs.mapM f = .ok ys)
    (hfg : ∀ x ∈ xs, ∀ y, f x = .ok y → k y = g x) : ys.filterMap k = xs.filterMap g := by
  calc ys.filterMap k = (ys.map k).filterMap id := by rw [List.filterMap_map, Function.id_comp]
    _ = (xs.map g).filterMap id := by rw [map_eq_of_mapM h hfg]
    _ = xs.filterMap g := by rw [List.filterMap_map, Function.id_comp]

/-- A computation over a list succeeds if it does for each item, and what it gives for each is
kept. -/
theorem Outcome.exists_mapM {α β ε : Type} {f : α → Outcome ε β} {P : α → β → Prop} {xs : List α}
    (h : ∀ x ∈ xs, ∃ y, f x = .ok y ∧ P x y) : ∃ ys, xs.mapM f = .ok ys ∧ List.Forall₂ P xs ys := by
  induction xs with
  | nil => exact ⟨[], rfl, .nil⟩
  | cons x xs ih =>
    rw [List.forall_mem_cons] at h
    obtain ⟨y, hy, hxy⟩ := h.1
    obtain ⟨ys, hys, hall⟩ := ih h.2
    exact ⟨y :: ys, mapM_eq_ok.mpr (.cons hy (mapM_eq_ok.mp hys)), .cons hxy hall⟩

theorem Option.mapM_eq_some {α β : Type} {f : α → Option β} {xs : List α} {ys : List β} :
    xs.mapM f = some ys ↔ List.Forall₂ (fun x y => f x = some y) xs ys := by
  induction xs generalizing ys with
  | nil => simp [eq_comm]
  | cons x xs ih =>
    simp only [List.mapM_cons, Option.bind_eq_bind, Option.bind_eq_some_iff, Option.pure_def,
      Option.some.injEq, List.forall₂_cons_left_iff, ih]
    constructor
    · rintro ⟨y, hy, zs, hzs, rfl⟩
      exact ⟨y, zs, hy, hzs, rfl⟩
    · rintro ⟨y, zs, hy, hzs, rfl⟩
      exact ⟨y, hy, zs, hzs, rfl⟩

theorem Option.mapM_eq_none {α β : Type} {f : α → Option β} {xs : List α} :
    xs.mapM f = none ↔ ∃ x ∈ xs, f x = none := by
  induction xs with
  | nil => simp
  | cons x xs ih =>
    cases hx : f x with
    | none => simp [hx]
    | some y => simpa [hx, ← ih] using Option.eq_none_iff_forall_ne_some.symm

end TensorGraph
