import TensorGraph.Proofs.Magnitudes
import TensorGraph.Proofs.Safety.Calls

/-! Resizing. Coordinates are held at the last pixel of an image, which is a number: for images of
very many rows it may be rounded to one beyond them. -/

namespace TensorGraph

open Outcome Kernel

variable {inputs : ValueInputs} {outputs : List Value} {out x v : Value} {ε : Type}

theorem Binary32.toSize_clamp_le {hi : Float32} (hhi : hi.isFinite = true) (x lo : Float32) :
    toSize (clamp x lo hi) ≤ toSize hi := by
  unfold clamp
  generalize (if x < lo then lo else x) = y
  by_cases h : y > hi
  · rw [if_pos h]
  · rw [if_neg h]
    exact toSize_le_of_not_lt hhi h

namespace Resize

/-- Whether the coordinate of the last of `n` pixels is not rounded to one beyond it. -/
def EndsInside (n : Nat) : Prop :=
  (Binary32.ofNat n - 1).isFinite = true ∧ Binary32.toSize (Binary32.ofNat n - 1) ≤ n - 1

instance (n : Nat) : Decidable (EndsInside n) := inferInstanceAs (Decidable (_ ∧ _))

theorem EndsInside.heldCoordinate_lt {n : Nat} (h : EndsInside n) (hn : n ≠ 0)
    (mode : CoordinateMode) (i : Nat) (scale : Float32) (output : Nat) :
    Binary32.toSize (heldCoordinate mode i scale n output) < n := by
  have hle := Binary32.toSize_clamp_le h.1 (coordinate mode i scale n output) 0
  have hlast := h.2
  rw [heldCoordinate]
  omega

structure Image.Full (image : Image) : Prop where
  rows_ne : image.rows ≠ 0
  columns_ne : image.columns ≠ 0
  length_pixels : image.pixels.length = image.rows * image.columns

theorem Image.Full.noFault_pixel {image : Image} (h : image.Full) {row column : Nat}
    (hrow : row < image.rows) (hcolumn : column < image.columns) :
    (image.pixel row column : Outcome ε Float32).NoFault := by
  have hlast : (row + 1) * image.columns ≤ image.rows * image.columns :=
    Nat.mul_le_mul_right _ hrow
  rw [Nat.succ_mul] at hlast
  have hinside : row * image.columns + column < image.pixels.length := by
    rw [h.length_pixels]
    omega
  simpa [pixel] using hinside

theorem noFault_sample (op : Resize) {image : Image} (h : image.Full) {y x : Float32}
    (hinside : op.interpolation = .linear →
      Binary32.toSize y < image.rows ∧ Binary32.toSize x < image.columns) :
    (op.sample image y x : Outcome ε Float32).NoFault := by
  have hrows := h.rows_ne
  have hcolumns := h.columns_ne
  unfold sample
  cases hkind : op.interpolation with
  | nearest => exact h.noFault_pixel (by omega) (by omega)
  | linear =>
    obtain ⟨htop, hleft⟩ := hinside hkind
    refine noFault_bind (h.noFault_pixel htop hleft) fun _ _ => ?_
    refine noFault_bind (h.noFault_pixel htop (by omega)) fun _ _ => ?_
    refine noFault_bind (h.noFault_pixel (by omega) hleft) fun _ _ => ?_
    exact noFault_bind (h.noFault_pixel (by omega) (by omega)) fun _ _ => noFault_ok _

theorem noFault_resizeImage (op : Resize) {image : Image} (h : image.Full)
    (hends : op.interpolation = .linear → EndsInside image.rows ∧ EndsInside image.columns)
    (rows columns : Nat) (scaleY scaleX : Float32) :
    (op.resizeImage image rows columns scaleY scaleX : Outcome ε (List Float32)).NoFault := by
  refine noFault_bind (noFault_mapM fun i _ => noFault_mapM fun j _ => ?_) fun _ _ => noFault_ok _
  refine op.noFault_sample h fun hkind => ?_
  exact ⟨(hends hkind).1.heldCoordinate_lt h.rows_ne _ _ _ _,
    (hends hkind).2.heldCoordinate_lt h.columns_ne _ _ _ _⟩

theorem full_of_mem_images {t : Tensor Float32} {rows columns : Nat} (hrows : rows ≠ 0)
    (hcolumns : columns ≠ 0) {image : Image} (h : image ∈ images t rows columns) :
    image.Full ∧ image.rows = rows ∧ image.columns = columns := by
  obtain ⟨i, hi, rfl⟩ := List.mem_map.mp h
  rw [List.mem_range] at hi
  refine ⟨⟨hrows, hcolumns, ?_⟩, rfl, rfl⟩
  have hlast : (i + 1) * (rows * columns) ≤ t.data.length :=
    (Nat.mul_le_mul_right _ hi).trans (Nat.div_mul_le_self _ _)
  rw [Nat.succ_mul] at hlast
  rw [List.length_take, List.length_drop]
  exact Nat.min_eq_left (by omega)

/-- The elements of a tensor are images of its last two dimensions. -/
theorem count_mod_area {t : Tensor Float32} {k rows columns : Nat} (hrank : t.shape.length = k + 2)
    (hrows : t.shape[k]? = some rows) (hcolumns : t.shape[k + 1]? = some columns) :
    t.count % (rows * columns) = 0 := by
  have hlast : t.shape.drop (k + 1) = [columns] := by
    obtain ⟨hlt, rfl⟩ := List.getElem?_eq_some_iff.mp hcolumns
    rw [List.drop_eq_getElem_cons hlt, List.drop_of_length_le (by omega)]
  rw [Tensor.count_eq, Shape.volume_split hrows, hlast, Nat.mul_assoc]
  simp [Shape.volume]

/-- Whether the pixels that are weighed are inside the images. -/
def TameFor (op : Resize) (shape : Shape) : Prop :=
  op.interpolation = .linear → ∀ n ∈ shape.drop (shape.length - 2), EndsInside n

instance (op : Resize) (shape : Shape) : Decidable (op.TameFor shape) :=
  inferInstanceAs (Decidable (_ → _))

theorem noFault_fill {op : Resize} {scales : List Float32} {x out : Tensor Float32}
    (hrank : out.shape.length = x.shape.length) (hscales : x.shape.length ≤ scales.length)
    (htame : op.TameFor x.shape) : (op.fill scales x out).NoFault := by
  have hbatch : (demandBatch x out).NoFault :=
    noFault_bind (noFault_refuseIf _ _) fun _ _ => noFault_refuseIf _ _
  refine noFault_bind hbatch fun _ hbatch => ?_
  obtain ⟨_, hleast, -⟩ := bind_eq_ok.mp hbatch
  have hleast : ¬x.shape.length < 2 := refuseIf_eq_ok.mp hleast
  split
  · exact noFault_ok _
  obtain ⟨k, hk⟩ : ∃ k, x.rank = k + 2 := ⟨x.rank - 2, by unfold Tensor.rank; omega⟩
  have hlen : x.shape.length = k + 2 := hk
  rw [hk, Nat.add_sub_cancel, show k + 2 - 1 = k + 1 from rfl]
  refine noFault_bind (Tensor.noFault_size (by omega)) fun rows hrows => ?_
  refine noFault_bind (Tensor.noFault_size (by omega)) fun columns hcolumns => ?_
  refine noFault_bind (Tensor.noFault_size (by omega)) fun outRows houtRows => ?_
  refine noFault_bind (Tensor.noFault_size (by omega)) fun outColumns houtColumns => ?_
  refine noFault_bind (noFault_ofOption_iff.mpr (by simp; omega)) fun scaleY _ => ?_
  refine noFault_bind (noFault_ofOption_iff.mpr (by simp; omega)) fun scaleX _ => ?_
  refine noFault_bind (noFault_refuseIf _ _) fun _ hempty => ?_
  obtain ⟨hrowsNe, hcolumnsNe⟩ := not_or.mp (refuseIf_eq_ok.mp hempty)
  have hwhole := count_mod_area (hrank.trans hlen) (Tensor.size_eq_ok houtRows)
    (Tensor.size_eq_ok houtColumns)
  refine noFault_bind (noFault_demand_iff.mpr (.inr hwhole)) fun _ _ => ?_
  refine noFault_bind (noFault_mapM fun image himage => ?_) fun _ _ => noFault_ok _
  obtain ⟨hfull, rfl, rfl⟩ := full_of_mem_images hrowsNe hcolumnsNe (List.mem_of_mem_take himage)
  refine op.noFault_resizeImage hfull (fun hkind => ?_) _ _ _ _
  have hends := htame hkind
  rw [hlen, Nat.add_sub_cancel] at hends
  have hmem : ∀ j n, x.shape[k + j]? = some n → n ∈ x.shape.drop k := by
    intro j n hj
    exact List.mem_of_getElem? (List.getElem?_drop.trans hj)
  exact ⟨hends _ (hmem 0 _ (Tensor.size_eq_ok hrows)),
    hends _ (hmem 1 _ (Tensor.size_eq_ok hcolumns))⟩

theorem nonEmpty_told (op : Operator) (i : Nat) (hv : v.shape.Fits) :
    nonEmpty (some (op.told i v)) = none ↔ v.shape.volume = 0 := by
  rw [nonEmpty_eq_none, Operator.shape_told,
    SymShape.count_ofShape_eq_zero fun _ => hv.lt_sizeLimit]

theorem volume_of_scaledShape {op : Operator} {i : Nat} (hv : v.shape.Fits) (hx : x.shape.Fits)
    {s : SymShape} (h : scaledShape (.ofShape x.shape) (op.told i v) = .ok s) :
    s.rank? = some x.shape.length ∧ v.shape.volume = x.shape.length := by
  obtain ⟨_, -, h⟩ := bind_eq_ok.mp h
  obtain ⟨r, hr, h⟩ := bind_eq_ok.mp h
  obtain ⟨_, hcount, h⟩ := bind_eq_ok.mp h
  cases h
  rw [Operator.shape_told] at hr
  obtain ⟨hlen, rfl⟩ := SymShape.declareRank_ofShape hr
  obtain ⟨n, hshape⟩ := List.length_eq_one_iff.mp hlen
  have hn := hv.size_lt (hshape ▸ List.mem_singleton.mpr rfl)
  have hrank := hx.rank_lt
  rw [hshape, List.length_map] at hcount
  have hsizes : intOfSize n = intOfSize x.shape.length :=
    SymDim.size.inj
      ((SymDim.eq_of_refine_left hcount).symm.trans (SymDim.eq_of_refine_right hcount))
  have hlimit : countLimit < sizeLimit := by decide
  refine ⟨by simp, ?_⟩
  rw [hshape, Shape.volume, Shape.volume, Nat.mul_one]
  exact intOfSize_inj (hn.trans hlimit) (hrank.trans hlimit) hsizes

theorem rank_of_sized {t w : SymTensor} {sizes : Option SymTensor} {shape shape' : Shape}
    (ht : t.shape = .ofShape shape) (h : sized t sizes = .ok [w]) (hw : w.shape = .ofShape shape') :
    shape'.length = shape.length := by
  cases sizes with
  | none => cases h
  | some sizes =>
    obtain ⟨s, hs, h⟩ := bind_eq_ok.mp h
    cases h
    refine rank?_sizedShape hs ?_ ?_
    · rw [ht, SymShape.rank?_ofShape]
    · rw [← SymShape.rank?_ofShape, ← hw]
      rfl

/-- The output has the rank of the image, and scales are one for each dimension, unless they are
empty. -/
theorem ranks_of_accepts {op : Resize} (h : (Operator.resize op).Accepts inputs [out])
    (hx : Inputs.find? inputs 0 = some x) : out.shape.length = x.shape.length ∧
      ∀ v, Inputs.find? inputs 2 = some v → v.shape.volume ≠ 0 →
      v.shape.volume = x.shape.length := by
  obtain ⟨w, hw, -, hshape⟩ := h.infer_single rfl
  simp only [Operator.infer, infer_eq, Operator.demand_told _ hx, ok_bind, Operator.find?_told]
    at hw
  obtain ⟨_, -, hw⟩ := bind_eq_ok.mp hw
  have htold := Operator.shape_told (.resize op) 0 x
  cases hv : Inputs.find? inputs 2 with
  | none =>
    rw [hv] at hw
    exact ⟨rank_of_sized htold hw hshape, fun _ hnone => by cases hnone⟩
  | some v =>
    have hfits := h.fits_input hv
    rw [hv, Option.map_some] at hw
    by_cases hempty : v.shape.volume = 0
    · rw [(nonEmpty_told _ 2 hfits).mpr hempty] at hw
      refine ⟨rank_of_sized htold hw hshape, fun u hu hne => ?_⟩
      cases hu
      exact absurd hempty hne
    · have hkeep := mt (nonEmpty_told (.resize op) 2 hfits).mp hempty
      obtain ⟨u, hu⟩ := Option.ne_none_iff_exists'.mp hkeep
      obtain ⟨rfl, -⟩ := nonEmpty_eq_some.mp hu
      rw [hu] at hw
      obtain ⟨s, hs, hw⟩ := bind_eq_ok.mp hw
      cases hw
      rw [htold] at hs
      obtain ⟨hrank, hvolume⟩ := volume_of_scaledShape hfits (h.fits_input hx) hs
      have hrank' : SymShape.rank? s = some out.shape.length :=
        (congrArg SymShape.rank? hshape).trans (SymShape.rank?_ofShape _)
      refine ⟨Option.some.inj (hrank'.symm.trans hrank), fun u hu _ => ?_⟩
      cases hu
      exact hvolume

theorem length_quotients {x out : Value} (h : out.shape.length = x.shape.length) :
    (scalesFor.quotients x out).length = x.shape.length := by
  rw [scalesFor.quotients, List.length_map, List.length_zip, h, Nat.min_self]

theorem safe (op : Resize) (h : (Operator.resize op).Accepts inputs outputs)
    (htame : ∀ x, Inputs.find? inputs 0 = some x → op.TameFor x.shape) :
    Safe (op.prepare inputs outputs) := by
  refine safe_demand fun x hx => safe_single fun out hout => ?_
  subst hout
  obtain ⟨hrank, hscales⟩ := ranks_of_accepts h hx
  have hfill : ∀ scales : List Float32, scales.length = x.shape.length →
      (floatOnly x out (op.fill scales) ()).NoFault := by
    intro scales hlen
    refine noFault_floatOnly fun x' out' hx' hout' => ?_
    refine noFault_fill ?_ ?_ ?_
    · rw [hx', hout', hrank]
    · rw [hx', hlen]
    · rw [hx']
      exact htame x hx
  cases hv : Inputs.find? inputs 2 with
  | none => exact safe_ok (hfill _ (length_quotients hrank))
  | some v =>
    dsimp only
    refine safe_bind ?_ fun given hgiven => safe_ok (hfill _ ?_)
    · exact noFault_bind (noFault_mapError _ (noFault_orRefuse _ _)) fun _ _ => noFault_ok _
    · obtain ⟨t, ht, hgiven⟩ := bind_eq_ok.mp hgiven
      cases hgiven
      obtain rfl := Value.eq_float_of_cast (mapError_eq_ok.mp ht)
      rw [scalesFor]
      split_ifs with hempty
      · exact length_quotients hrank
      · rw [Tensor.count_eq] at hempty
        exact t.length_data.trans (hscales _ hv hempty)

end Resize

end TensorGraph
