import TensorGraph.Proofs.Covering.Inputs
import TensorGraph.Proofs.Kernels.Outputs

/-! What inference lists of the elements of an output beside the elements that a kernel fills in. -/

namespace TensorGraph

open Outcome Kernel

variable {ε α β : Type} {names : Names} {t s : SymTensor} {es : List SymElement}

class Value.Stored.Lawful (α : Type) [Value.Stored α] : Prop where
  eq_wrap : ∀ {v : Value} {t : Tensor α}, unwrap? v = some t → v = wrap t
  elements_wrap : ∀ t : Tensor α, (wrap t).elements = t.data.map SymElement.Known.known
  shape_wrap : ∀ t : Tensor α, (wrap t).shape = t.shape

instance : Value.Stored.Lawful Float32 where
  eq_wrap {v t} h := by cases v <;> simp_all [Value.Stored.unwrap?, Value.Stored.wrap]
  elements_wrap _ := rfl
  shape_wrap _ := rfl

instance : Value.Stored.Lawful Int64 where
  eq_wrap {v t} h := by cases v <;> simp_all [Value.Stored.unwrap?, Value.Stored.wrap]
  elements_wrap _ := rfl
  shape_wrap _ := rfl

def Tensor.elements [SymElement.Known α] (x : Tensor α) : List SymElement :=
  x.data.map SymElement.Known.known

theorem Tensor.getElem?_elements [SymElement.Known α] {x : Tensor α} {i : Nat} {c : SymElement}
    (h : x.elements[i]? = some c) : ∃ a, x.data[i]? = some a ∧ c = SymElement.Known.known a := by
  rw [Tensor.elements, List.getElem?_map, Option.map_eq_some_iff] at h
  exact h.imp fun a ha => ⟨ha.1, ha.2.symm⟩

namespace SymTensor

def Lists (names : Names) (t : SymTensor) (es : List SymElement) : Prop :=
  ∀ i c, es[i]? = some c → (t.get i).Covers names c

theorem get_of_elements (h : t.elements = some es) (i : Nat) : t.get i = es.getD i .unknown := by
  simp [get, h]

theorem get_of_none (h : t.elements = none) (i : Nat) : t.get i = .unknown := by
  simp [get, h]

theorem get_of_length_le (h : ∀ es, t.elements = some es → es.length ≤ i) : t.get i = .unknown := by
  cases he : t.elements with
  | none => exact get_of_none he i
  | some es => simp [get_of_elements he, List.getD_eq_getElem?_getD, h es he]

theorem get_ofShape (dtype : DataType) (shape : SymShape) (i : Nat) :
    (ofShape dtype shape).get i = .unknown := by
  unfold ofShape get
  cases trackedCount shape with
  | none => rfl
  | some n => simp [List.getD_eq_getElem?_getD, List.getElem?_replicate]; split_ifs <;> rfl

theorem lists_of_unknown (h : ∀ i, t.get i = .unknown) : t.Lists names es := by
  intro i c _
  rw [h i]
  exact SymElement.covers_unknown c

theorem lists_ofShape (dtype : DataType) (shape : SymShape) :
    (ofShape dtype shape).Lists names es :=
  lists_of_unknown (get_ofShape dtype shape)

theorem lists_clearElements (t : SymTensor) : t.clearElements.Lists names es := by
  refine lists_of_unknown fun i => ?_
  unfold clearElements get
  cases t.elements with
  | none => rfl
  | some es =>
    simp only [Option.map_some, Option.getD_some, List.map_const', List.getD_eq_getElem?_getD,
      List.getElem?_replicate]
    split_ifs <;> rfl

theorem get_mapElements (t : SymTensor) (dtype : DataType) (f : SymElement → SymElement) (i : Nat) :
    (t.mapElements dtype f).get i = .unknown ∨ (t.mapElements dtype f).get i = f (t.get i) := by
  cases he : t.elements with
  | none => exact .inl (get_of_none (by simp [mapElements, he]) i)
  | some es =>
    have hmap : (t.mapElements dtype f).elements = some (es.map f) := by simp [mapElements, he]
    rw [get_of_elements hmap, get_of_elements he]
    by_cases hi : i < es.length
    · right
      simp [List.getD_eq_getElem?_getD, hi]
    · left
      simp [List.getD_eq_getElem?_getD, hi]

theorem get_fillFrom (t : SymTensor) (inputs : List SymTensor) (f : Nat → SymElement) (i : Nat) :
    (t.fillFrom inputs f).get i = .unknown ∨ (t.fillFrom inputs f).get i = t.get i ∨
      (∀ s ∈ inputs, s.elements.isSome) ∧ (t.fillFrom inputs f).get i = f i := by
  unfold fillFrom
  split_ifs with hall
  · cases he : t.elements with
    | none => exact .inl (get_of_none (by simp) i)
    | some es =>
      rw [@get_of_elements _ ((List.range es.length).map f) (by simp)]
      by_cases hi : i < es.length
      · exact .inr (.inr ⟨by simpa using hall, by simp [List.getD_eq_getElem?_getD, hi]⟩)
      · exact .inl (by simp [List.getD_eq_getElem?_getD, hi])
  · exact .inr (.inl rfl)

theorem get_setLeading (t : SymTensor) (es : List SymElement) (i : Nat) :
    (t.setLeading es).get i = .unknown ∨ (t.setLeading es).get i = t.get i ∨
      (t.setLeading es).get i = es.getD i .unknown := by
  cases he : t.elements with
  | none => exact .inl (get_of_none (by simp [setLeading, he]) i)
  | some old =>
    have hset : (t.setLeading es).elements =
        some (es.take old.length ++ old.drop es.length) := by simp [setLeading, he]
    rw [get_of_elements hset, get_of_elements he, List.getD_eq_getElem?_getD,
      List.getD_eq_getElem?_getD, List.getD_eq_getElem?_getD, List.getElem?_append]
    by_cases hi : i < old.length
    · by_cases hj : i < es.length
      · refine .inr (.inr ?_)
        rw [if_pos (by simp; omega), List.getElem?_take, if_pos hi]
      · refine .inr (.inl ?_)
        rw [if_neg (by simp; omega), List.getElem?_drop]
        congr 2
        simp
        omega
    · refine .inl ?_
      rw [if_neg (by simp; omega), List.getElem?_drop, List.getElem?_eq_none (by simp; omega)]
      rfl

theorem get_reshaped (t : SymTensor) (shape : SymShape) (i : Nat) :
    (t.reshaped shape).get i = .unknown ∨ (t.reshaped shape).get i = t.get i := by
  cases he : t.elements with
  | none =>
    simp only [reshaped, he]
    exact .inl (get_ofShape _ _ i)
  | some es =>
    simp only [reshaped, he]
    split_ifs
    · exact .inr (by rw [get_of_elements rfl, get_of_elements he])
    · exact .inl (get_ofShape _ _ i)

namespace Sound

variable {v : Value}

theorem lists (h : Sound names s v) : s.Lists names v.elements := by
  intro i c hc
  cases he : s.elements with
  | none =>
    rw [get_of_none he]
    exact SymElement.covers_unknown c
  | some es =>
    obtain ⟨e, hei, hec⟩ := Related.get_right (h.describes.elements es he) hc
    rw [get_of_elements he, List.getD_eq_getElem?_getD, hei]
    exact hec

theorem length_eq (h : Sound names s v) (he : s.elements = some es) :
    es.length = v.elements.length :=
  (h.describes.elements es he).length_eq

theorem rank_le_one (h : Sound names s v) (he : s.elements = some es) : v.shape.length ≤ 1 :=
  h.tracked.value_rank_le h.describes.shape he

end Sound

/-- A description that fits the type of a value and lists its elements describes it. -/
theorem sound_of_lists {v : Value} {ty : ValueType} (hfits : Fits names t ty.describe)
    (hty : v.type = ty) (hv : v.Representable) (h : t.Lists names v.elements) :
    Sound names t v := by
  subst hty
  refine ⟨⟨hfits.dtype, hfits.shape, fun es he => ?_⟩, hfits.tracked, hv⟩
  have hlen := hfits.tracked.length_eq hv hfits.shape he
  refine List.forall₂_iff_get.mpr ⟨hlen, fun i hi hj => ?_⟩
  have hcover := h i _ (List.getElem?_eq_getElem hj)
  rw [get_of_elements he] at hcover
  simpa [List.getD_eq_getElem?_getD, hi] using hcover

end SymTensor

namespace Tensor

theorem getElem?_overwrite (t : Tensor α) (values : List α) (i : Nat) :
    (t.overwrite values).data[i]? =
      if i < t.data.length then (if i < values.length then values[i]? else t.data[i]?)
      else none := by
  simp only [overwrite, List.getElem?_append, List.length_take, List.getElem?_take,
    List.getElem?_drop]
  split_ifs <;> first | omega | rfl | (congr 1; omega) | exact List.getElem?_eq_none (by omega)

end Tensor

namespace SymTensor

/-- An output that is overwritten from the start on, as far as its elements are tracked. -/
theorem lists_overwrite [SymElement.Known α] {out : Tensor α} {values : List α}
    (h : t.Lists names (values.map SymElement.Known.known))
    (hlen : ∀ es, t.elements = some es → es.length ≤ values.length) :
    t.Lists names (out.overwrite values).elements := by
  intro i c hc
  obtain ⟨a, ha, rfl⟩ := Tensor.getElem?_elements hc
  by_cases hi : i < values.length
  · rw [Tensor.getElem?_overwrite, if_pos hi] at ha
    split_ifs at ha
    exact h i _ (by rw [List.getElem?_map, ha]; rfl)
  · rw [get_of_length_le fun es he => (hlen es he).trans (by omega)]
    exact SymElement.covers_unknown _

end SymTensor

namespace Kernel

def Lists (names : Names) (ts : List SymTensor) (k : Kernel) : Prop :=
  Always (fun filled => ∀ vs, filled = some vs →
    List.Forall₂ (fun (t : SymTensor) v => t.Lists names v.elements) ts vs) (k ())

variable {ts : List SymTensor}

theorem lists_none : Lists names ts fun _ => .ok none :=
  always_ok fun _ h => by cases h

theorem lists_bind {x : Outcome OpError α} {f : α → Filled}
    (h : ∀ a, x = .ok a → Lists names ts fun _ => f a) : Lists names ts fun _ => x >>= f :=
  always_bind h

theorem lists_unless {p : Prop} {_ : Decidable p} {x : Filled}
    (h : ¬p → Lists names ts fun _ => x) : Lists names ts fun _ => if p then .ok none else x := by
  by_cases hp : p
  · simp only [if_pos hp]
    exact lists_none
  · simpa only [if_neg hp] using h hp

theorem lists_when {p : Prop} {_ : Decidable p} {x : Filled}
    (h : p → Lists names ts fun _ => x) : Lists names ts fun _ => if p then x else .ok none := by
  by_cases hp : p
  · simpa only [if_pos hp] using h hp
  · simp only [if_neg hp]
    exact lists_none

abbrev ListsTensor [SymElement.Known α] (names : Names) (t : SymTensor)
    (x : Outcome ε (Tensor α)) : Prop :=
  Always (fun y => t.Lists names y.elements) x

theorem lists_filled [Value.Stored α] [Value.Stored.Lawful α] {x : Outcome OpError (Tensor α)}
    (h : ListsTensor names t x) : Lists names [t] fun _ => x >>= fun y => filled y := by
  refine always_bind fun y hy => always_ok fun vs hvs => ?_
  cases hvs
  refine .cons ?_ .nil
  rw [Value.Stored.Lawful.elements_wrap]
  exact h y hy

end Kernel

end TensorGraph
