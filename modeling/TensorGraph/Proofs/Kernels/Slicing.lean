import TensorGraph.Proofs.Kernels.Joining
import TensorGraph.Proofs.Rules.Slicing

/-! Slices of vectors give the elements that inference lists. Along the only dimension the last cut
decides. -/

namespace TensorGraph

open Outcome Kernel SymTensor

variable {ε ε' α : Type} {names : Names} {sym : SymInputs} {inputs : ValueInputs}
  {outputs : List Value} {ts : List SymTensor}

theorem checkInt_eq_ok {k : Int} {n : Int64} :
    (checkInt k : Outcome ε Int64) = .ok n ↔ FitsInt k ∧ Int64.ofInt k = n := by
  by_cases hk : FitsInt k <;> simp [checkInt, hk]

theorem SliceRange.position_ok {r : SliceRange} {i p : Nat}
    (h : (r.position i : Outcome ε Nat) = .ok p) : (r.position i : Outcome ε' Nat) = .ok p := by
  obtain ⟨distance, hdistance, h⟩ := bind_eq_ok.mp h
  obtain ⟨place, hplace, h⟩ := bind_eq_ok.mp h
  cases h
  refine bind_eq_ok.mpr ⟨distance, checkInt_eq_ok.mpr (checkInt_eq_ok.mp hdistance), ?_⟩
  exact bind_eq_ok.mpr ⟨place, checkInt_eq_ok.mpr (checkInt_eq_ok.mp hplace), rfl⟩

theorem Tensor.getElem?_mapIndexedM {t : Tensor α} {β : Type} {u : Tensor β}
    {f : Index → α → Outcome ε β} (h : t.mapIndexedM f = .ok u) {i : Nat} {b : β}
    (hb : u.data[i]? = some b) :
    ∃ index a, (Index.all t.shape)[i]? = some index ∧ f index a = .ok b := by
  obtain ⟨data, hdata, h⟩ := bind_eq_ok.mp h
  rw [(ofData_eq_ok h).2] at hb
  obtain ⟨⟨index, a⟩, hentry, hread⟩ := Related.get_right (mapM_eq_ok.mp hdata) hb
  exact ⟨index, a, (List.getElem?_zip_eq_some.mp hentry).1, hread⟩

theorem Tensor.get?_vector {x : Tensor α} {n : Nat} (hshape : x.shape = [n]) (p : Nat) :
    x.get? [p] = x.data[p]? := by
  have hcount : x.data.length = n := by rw [x.length_data, hshape]; simp [Shape.volume]
  by_cases hp : p < n
  · simp [get?, offset?, hshape, Layout.inBounds, hp, Layout.strides, Layout.offset, Shape.volume]
  · simp [get?, offset?, hshape, Layout.inBounds, hp, hcount]

namespace Slice

def IntTold (o : Option Int64) (n : Int64) : Prop := ∀ m, o = some m → m = n

theorem parameter_told {s : SymTensor} {v : Value} {l : List (Option Int64)} {ns : List Int64}
    (h : Sound names s v) (hl : parameter s = .ok (some l)) (hns : v.toInts = .ok ns) :
    List.Forall₂ IntTold l ns := by
  obtain ⟨_, _, hl⟩ := bind_eq_ok.mp hl
  obtain ⟨_, _, hl⟩ := bind_eq_ok.mp hl
  obtain ⟨es, hes, rfl⟩ := Option.map_eq_some_iff.mp (ok.inj hl)
  obtain ⟨t, ht, hns⟩ := bind_eq_ok.mp hns
  obtain ⟨_, _, hns⟩ := bind_eq_ok.mp hns
  cases hns
  obtain rfl := Value.eq_int_of_cast ht
  have hcovers := h.describes.elements es hes
  rw [Value.elements, List.forall₂_map_right_iff] at hcovers
  rw [List.forall₂_map_left_iff]
  exact hcovers.imp fun e n hen m hm => (Option.some.inj (hen.int? m hm)).symm

/-- Whether a cut is what is known of a range that the parameters of a run ask for. -/
def EntryTold (c : Cut) (entry : Int64 × Int64 × Int64 × Int64) : Prop :=
  IntTold c.start entry.2.1 ∧ IntTold c.stop entry.2.2.1 ∧ IntTold c.step entry.2.2.2

theorem zipCuts_entries {dims : List Nat} {starts stops steps : List (Option Int64)}
    {axes' starts' stops' steps' : List Int64} (hdims : dims.length = axes'.length)
    (hstarts : List.Forall₂ IntTold starts starts') (hstops : List.Forall₂ IntTold stops stops')
    (hsteps : List.Forall₂ IntTold steps steps') :
    List.Forall₂ EntryTold (zipCuts dims starts stops steps)
      (axes'.zip (starts'.zip (stops'.zip steps'))) := by
  have hany : List.Forall₂ (fun (_ : Nat) (_ : Int64) => True) dims axes' :=
    List.forall₂_iff_get.mpr ⟨hdims, fun _ _ _ => trivial⟩
  rw [zipCuts, List.forall₂_map_left_iff]
  refine (Related.zip hany (Related.zip hstarts (Related.zip hstops hsteps))).imp ?_
  exact fun _ _ h => ⟨h.2.1, h.2.2.1, h.2.2.2⟩

theorem ranges_vector {n : Nat} {r : SliceRange} {rs : List SliceRange}
    {entries : List (Int64 × Int64 × Int64 × Int64)}
    (h : (entries.foldlM (fun ranges (entry : Int64 × Int64 × Int64 × Int64) => do
      let dim ← (Axis.resolve 1 entry.1).mapError OpError.ofRule
      let size := intOfSize ([n].getD dim 0)
      return ranges.set dim
        (← (SliceRange.resolve size entry.2.1 entry.2.2.1 entry.2.2.2).mapError OpError.ofRule))
      [r] : Outcome OpError _) = .ok rs) :
    entries.getLast? = none ∧ rs = [r] ∨ ∃ entry r', entries.getLast? = some entry ∧ rs = [r'] ∧
      SliceRange.resolve (intOfSize n) entry.2.1 entry.2.2.1 entry.2.2.2 = .ok r' := by
  induction entries generalizing r with
  | nil =>
    cases h
    exact .inl ⟨rfl, rfl⟩
  | cons entry entries ih =>
    rw [List.foldlM_cons] at h
    obtain ⟨next, hnext, h⟩ := bind_eq_ok.mp h
    obtain ⟨dim, hdim, hnext⟩ := bind_eq_ok.mp hnext
    obtain ⟨r', hr', hnext⟩ := bind_eq_ok.mp hnext
    obtain rfl : dim = 0 := Nat.lt_one_iff.mp (Axis.resolve_lt (mapError_eq_ok.mp hdim))
    cases hnext
    rcases ih h with ⟨hnone, rfl⟩ | ⟨last, r'', hlast, rfl, hresolve⟩
    · rw [List.getLast?_eq_none_iff] at hnone
      subst hnone
      exact .inr ⟨entry, r', rfl, rfl, mapError_eq_ok.mp hr'⟩
    · refine .inr ⟨last, r'', ?_, rfl, hresolve⟩
      rw [List.getLast?_cons, hlast]
      rfl

theorem length_slicedDims {rank count : Nat} {axes : Option (Option (List (Option Int64)))}
    {dims : List Nat} (h : slicedDims rank count axes = .ok (some dims)) : dims.length = count := by
  unfold slicedDims at h
  split at h
  · cases h
    exact List.length_range
  · cases h
  · split at h
    · cases h
    · obtain ⟨_, hcount, h⟩ := bind_eq_ok.mp h
      obtain ⟨_, _, h⟩ := bind_eq_ok.mp h
      obtain ⟨dims', hdims, h⟩ := bind_eq_ok.mp h
      cases h
      rw [refuseIf_eq_ok, not_not] at hcount
      rw [← (mapM_eq_ok.mp hdims).length_eq, hcount]

def CutsTo (d : SymDim) (length : Nat) (cuts : List Cut) (r : SliceRange) : Prop :=
  cuts.getLast? = none ∧ r = .full length ∨
    ∃ c, cuts.getLast? = some c ∧ cutRange d c = .ok (some r)

theorem get_cutElements {x t : SymTensor} {ds : List SymDim} {cuts : List Cut} {dtype : DataType}
    {shape : SymShape} (h : cutElements x ds cuts (.ofShape dtype shape) = .ok t) (i : Nat) :
    t.get i = .unknown ∨ ∃ d elements r p, ds = [d] ∧ x.elements = some elements ∧
      CutsTo d elements.length cuts r ∧ (r.position i : Outcome RuleError Nat) = .ok p ∧
        t.get i = x.get p := by
  have hread : ∀ (d : SymDim) (elements : List SymElement) (r : SliceRange), ds = [d] →
      x.elements = some elements → CutsTo d elements.length cuts r →
      ((List.range r.len).mapM r.position >>= fun positions =>
        .ok ((SymTensor.ofShape dtype shape).setLeading (positions.map x.get)) :
          Outcome RuleError SymTensor) = .ok t →
      t.get i = .unknown ∨ ∃ d elements r p, ds = [d] ∧ x.elements = some elements ∧
        CutsTo d elements.length cuts r ∧ (r.position i : Outcome RuleError Nat) = .ok p ∧
          t.get i = x.get p := by
    intro d elements r hd he hr hread
    obtain ⟨positions, hpositions, hread⟩ := bind_eq_ok.mp hread
    cases hread
    rcases get_setLeading (.ofShape dtype shape) (positions.map x.get) i with hi | hi | hi
    · exact .inl hi
    · exact .inl (hi.trans (get_ofShape _ _ i))
    · rw [List.getD_eq_getElem?_getD, List.getElem?_map] at hi
      cases hp : positions[i]? with
      | none => exact .inl (by rw [hi, hp]; rfl)
      | some p =>
        rw [hp] at hi
        obtain ⟨j, hj, hposition⟩ := Related.get_right (mapM_eq_ok.mp hpositions) hp
        obtain ⟨_, rfl⟩ := List.getElem?_eq_some_iff.mp hj
        rw [List.getElem_range] at hposition
        exact .inr ⟨d, elements, r, p, hd, he, hr, hposition, hi⟩
  unfold cutElements at h
  split at h
  · rename_i d elements he
    cases hlast : cuts.getLast? with
    | none =>
      simp only [hlast, ok_bind] at h
      exact hread d elements _ rfl he (.inl ⟨hlast, rfl⟩) h
    | some c =>
      simp only [hlast] at h
      obtain ⟨range, hrange, h⟩ := bind_eq_ok.mp h
      cases range with
      | none =>
        cases h
        exact .inl (get_ofShape _ _ i)
      | some r => exact hread d elements r rfl he (.inr ⟨c, hlast, hrange⟩) h
  · cases h
    exact .inl (get_ofShape _ _ i)

theorem get_result {x t : SymTensor} {starts stops : Option (List (Option Int64))}
    {axes steps : Option (Option (List (Option Int64)))}
    (h : result x starts stops axes steps = .ok [t]) (i : Nat) :
    t.get i = .unknown ∨ ∃ d elements starts' stops' steps' dims r p, x.shape = .ranked [d] ∧
      x.elements = some elements ∧ starts = some starts' ∧ stops = some stops' ∧
      dims.length = starts'.length ∧ slicedSteps starts'.length steps = .ok steps' ∧
      CutsTo d elements.length (zipCuts dims starts' stops' steps') r ∧
      (r.position i : Outcome RuleError Nat) = .ok p ∧ t.get i = x.get p := by
  unfold result at h
  split at h
  · cases h
    exact .inl (get_of_none rfl i)
  · rename_i ds starts stops hshape
    obtain ⟨_, hlens, h⟩ := bind_eq_ok.mp h
    obtain ⟨dims, hdims, h⟩ := bind_eq_ok.mp h
    cases dims with
    | none =>
      cases h
      exact .inl (get_ofShape _ _ i)
    | some dims =>
      obtain ⟨_, _, h⟩ := bind_eq_ok.mp h
      obtain ⟨steps', hsteps, h⟩ := bind_eq_ok.mp h
      obtain ⟨es, _, h⟩ := bind_eq_ok.mp h
      obtain ⟨w, hw, h⟩ := bind_eq_ok.mp h
      cases h
      refine (get_cutElements hw i).imp id ?_
      rintro ⟨d, elements, r, p, rfl, he, hr, hp, hget⟩
      exact ⟨d, elements, starts, stops, steps', dims, r, p, hshape, he, rfl, rfl,
        length_slicedDims hdims, hsteps, hr, hp, hget⟩
  · cases h
    exact .inl (get_ofShape _ _ i)

theorem steps_told {steps : Option (Option (List (Option Int64)))} {count : Nat}
    {l : List (Option Int64)} {o : Option (List Int64)}
    (h : List.Forall₂ (Option.Rel (Sound names)) sym inputs)
    (hsteps : optionalParameter (Inputs.find? sym 4) = .ok steps)
    (hl : slicedSteps count steps = .ok l) (ho : inputs.findInts? 4 = .ok o)
    (hlen : (o.getD (List.replicate count 1)).length = count) :
    List.Forall₂ IntTold l (o.getD (List.replicate count 1)) := by
  have hi := Sound.findInts? h ho
  cases hs : Inputs.find? sym 4 with
  | none =>
    rw [hs] at hi hsteps
    cases hi
    cases hsteps
    cases hl
    exact Related.replicate (fun m hm => (Option.some.inj hm).symm) count
  | some s =>
    rw [hs] at hi hsteps
    obtain ⟨known, hknown, hsteps⟩ := bind_eq_ok.mp hsteps
    cases hsteps
    obtain ⟨v, hv, hns⟩ : ∃ v, Sound names s v ∧
        v.toInts = .ok (o.getD (List.replicate count 1)) := by
      cases hi with
      | some h => exact h
    cases known with
    | none =>
      cases hl
      have hall := @Related.replicate_left _ _ IntTold
        (o.getD (List.replicate count 1)) none fun _ _ m hm => by cases hm
      rwa [hlen] at hall
    | some known =>
      simp only [slicedSteps] at hl
      split_ifs at hl
      cases hl
      exact parameter_told hv hknown hns

theorem CutsTo.eq {d : SymDim} {n length : Nat} {cuts : List Cut} {r : SliceRange}
    {entries : List (Int64 × Int64 × Int64 × Int64)} {rs : List SliceRange}
    (h : CutsTo d length cuts r) (hd : d.Covers names (.ofSize n)) (hlength : length = n)
    (hentries : List.Forall₂ EntryTold cuts entries)
    (hrs : entries.getLast? = none ∧ rs = [.full n] ∨ ∃ entry r', entries.getLast? = some entry ∧
      rs = [r'] ∧ SliceRange.resolve (intOfSize n) entry.2.1 entry.2.2.1 entry.2.2.2 = .ok r') :
    rs = [r] := by
  have hlast := Related.getLast? hentries
  rcases h with ⟨hnone, rfl⟩ | ⟨c, hc, hcut⟩
  · rcases hrs with ⟨-, rfl⟩ | ⟨entry, _, hentry, -⟩
    · rw [hlength]
    · simp [hnone, hentry] at hlast
  · rcases hrs with ⟨hnone, -⟩ | ⟨entry, r', hentry, rfl, hresolve⟩
    · simp [hc, hnone] at hlast
    · rw [hc, hentry, Option.rel_some_some] at hlast
      obtain ⟨hstart, hstop, hstep⟩ := hlast
      unfold cutRange at hcut
      split at hcut
      · rename_i size start stop step hsize hstart' hstop' hstep'
        obtain ⟨r'', hr, hcut⟩ := bind_eq_ok.mp hcut
        cases hcut
        obtain rfl : intOfSize n = size := Option.some.inj (hd.value? size hsize)
        rw [← hstart start hstart', ← hstop stop hstop', ← hstep step hstep', hr] at hresolve
        rw [ok.inj hresolve]
      · cases hcut

theorem source_vector {r : SliceRange} {rank i p : Nat} {place : Index}
    (h : (source [r] rank [i] : Outcome ε Index) = .ok place)
    (hp : (r.position i : Outcome ε' Nat) = .ok p) (hrank : rank = 1) : place = [p] := by
  subst hrank
  obtain ⟨_, _, h⟩ := bind_eq_ok.mp h
  obtain ⟨selected, hselected, h⟩ := bind_eq_ok.mp h
  obtain ⟨q, _, rfl, hq, hnil⟩ := mapM_cons_eq_ok hselected
  cases hnil
  cases h
  have hp : (r.position i : Outcome ε Nat) = .ok p := SliceRange.position_ok hp
  rw [ok.inj (hq.symm.trans hp)]
  rfl

theorem fill_vector {x out y : Tensor α} {r : SliceRange} {n m i p : Nat} {b : α}
    (hx : x.shape = [n]) (hout : out.shape = [m]) (hp : (r.position i : Outcome ε' Nat) = .ok p)
    (hy : (fill x [r] out : Outcome ε (Tensor α)) = .ok y) (hb : y.data[i]? = some b) :
    ∃ old, b = x.data[p]?.getD old := by
  obtain ⟨index, old, hindex, hread⟩ := Tensor.getElem?_mapIndexedM hy hb
  rw [hout, Index.all_vector, List.getElem?_map, Option.map_eq_some_iff] at hindex
  obtain ⟨j, hj, rfl⟩ := hindex
  obtain ⟨_, rfl⟩ := List.getElem?_eq_some_iff.mp hj
  rw [List.getElem_range] at hread
  obtain ⟨place, hplace, hread⟩ := bind_eq_ok.mp hread
  have hrank : x.rank = 1 := by rw [Tensor.rank, hx, List.length_singleton]
  obtain rfl := source_vector hplace hp hrank
  cases hread
  exact ⟨old, by rw [Tensor.get?_vector hx]⟩

theorem lists (h : List.Forall₂ (Option.Rel (Sound names)) sym inputs)
    (hts : infer sym = .ok ts) (ho : List.Forall₂ (Expects names) ts outputs) :
    PreparesLists names ts (prepare inputs outputs) := by
  rw [infer_eq] at hts
  obtain ⟨s, hs, hts⟩ := bind_eq_ok.mp hts
  obtain ⟨s₁, hs₁, hts⟩ := bind_eq_ok.mp hts
  obtain ⟨starts, hstarts, hts⟩ := bind_eq_ok.mp hts
  obtain ⟨s₂, hs₂, hts⟩ := bind_eq_ok.mp hts
  obtain ⟨stops, hstops, hts⟩ := bind_eq_ok.mp hts
  obtain ⟨axes, _, hts⟩ := bind_eq_ok.mp hts
  obtain ⟨steps, hsteps, hts⟩ := bind_eq_ok.mp hts
  obtain ⟨t, rfl, -, hrank⟩ := result_ok hts
  refine always_bind fun x hx => always_bind fun rs hrs => lists_single ho fun out hout => ?_
  have hsx := Sound.demand h hs hx
  refine always_ok (lists_sameType hsx fun x' out' hx' hxshape hshape y hy i c hc => ?_)
  rcases get_result hts i with hi | ⟨d, elements, starts, stops, steps', dims, r, p, hd, he, rfl,
    rfl, hdims, hsteps', hcuts, hp, hi⟩
  · rw [hi]
    exact SymElement.covers_unknown c
  · rw [hi]
    obtain ⟨n, hn, hdn⟩ := SymShape.vector_of_covers (hd ▸ hsx.describes.shape)
    have hcount : x'.data.length = n := by rw [x'.length_data, hxshape, hn]; simp [Shape.volume]
    have helements : elements.length = n := (hx'.length_eq elements he).trans hcount
    -- the parameters of the run
    rw [hn] at hrs
    obtain ⟨starts', hstarts', hrs⟩ := bind_eq_ok.mp hrs
    obtain ⟨stops', hstops', hrs⟩ := bind_eq_ok.mp hrs
    obtain ⟨axes', haxes', hrs⟩ := bind_eq_ok.mp hrs
    obtain ⟨o, ho', hrs⟩ := bind_eq_ok.mp hrs
    obtain ⟨_, hcounts, hrs⟩ := bind_eq_ok.mp hrs
    rw [refuseIf_eq_ok, not_or, not_or, not_not, not_not, not_not] at hcounts
    obtain ⟨v₁, hv₁, hstarts'⟩ := Sound.demandInts h hs₁ hstarts'
    obtain ⟨v₂, hv₂, hstops'⟩ := Sound.demandInts h hs₂ hstops'
    have hstarts := parameter_told hv₁ hstarts hstarts'
    have hstops := parameter_told hv₂ hstops hstops'
    rw [hstarts.length_eq] at hsteps'
    have hsteps := steps_told h hsteps hsteps' ho' hcounts.2.2
    have hentries := zipCuts_entries (hdims.trans (hstarts.length_eq.trans hcounts.2.1.symm))
      hstarts hstops hsteps
    obtain rfl := hcuts.eq hdn helements hentries (ranges_vector hrs)
    have hout : ∃ m, out'.shape = [m] := by
      have hone : t.shape.rank? = some 1 := by
        rw [show t.shape.rank? = s.shape.rank? from hrank, hd]
        rfl
      have hlen := hout.fits.shape.rank? 1 hone
      rw [show out.type.describe.shape = .ofShape out.shape from rfl, SymShape.rank?_ofShape]
        at hlen
      rw [hshape]
      exact List.length_eq_one_iff.mp (Option.some.inj hlen)
    obtain ⟨m, hm⟩ := hout
    rw [Tensor.elements, List.getElem?_map, Option.map_eq_some_iff] at hc
    obtain ⟨b, hb, rfl⟩ := hc
    obtain ⟨old, rfl⟩ := fill_vector (hxshape.trans hn) hm hp hy hb
    cases hread : x'.data[p]? with
    | some a =>
      refine hx'.lists p _ ?_
      rw [Tensor.elements, List.getElem?_map, hread]
      rfl
    | none =>
      rw [get_of_length_le fun es hes => ?_]
      · exact SymElement.covers_unknown _
      · rw [hx'.length_eq es hes]
        exact List.getElem?_eq_none_iff.mp hread

end Slice

end TensorGraph
