import TensorGraph.Operator.Json.Decode
import TensorGraph.Proofs.Follows
import TensorGraph.Proofs.Json.Reading

/-! What is written is restored where it decodes, once its text is read, as what it was written for.
Numbers, names, lists and options are restored on their own, and a record is restored from its
fields. What can be written is settled apart, as a real number that is not finite can be written but
is not restored. -/

namespace TensorGraph.Json

attribute [simp] Writable.null Writable.bool Writable.float Writable.string

variable {k : Nat}

@[simp]
theorem writable_array_iff {items : List Json} :
    (array items).Writable (k + 1) ↔ ∀ j ∈ items, j.Writable k :=
  ⟨fun h => by cases h; assumption, .array⟩

@[simp]
theorem writable_object_iff {fields : List (String × Json)} : (object fields).Writable (k + 1) ↔
    (∀ field ∈ fields, field.2.Writable k) ∧ (fields.map Prod.fst).Nodup :=
  ⟨fun h => by cases h; exact ⟨‹_›, ‹_›⟩, fun h => .object h.1 h.2⟩

@[simp]
theorem writable_record_iff {fields : List (String × Json)} : (record fields).Writable (k + 1) ↔
    (∀ field ∈ fields, field.2.Writable k) ∧ (fields.map Prod.fst).Nodup := writable_object_iff

@[simp]
theorem writable_tagged_iff {name : String} {j : Json} :
    (tagged name j).Writable (k + 1) ↔ j.Writable k := by simp [tagged]

@[simp]
theorem writable_ofBool (b : Bool) : (ofBool b).Writable k := .bool b

@[simp]
theorem writable_ofFloat (x : Float32) : (ofFloat x).Writable k := .float x

@[simp]
theorem writable_ofInt (n : Int64) : (ofInt n).Writable k := by
  have hle : -(intLimit : Int) ≤ n.toInt := n.le_toInt
  have hlt : n.toInt < (intLimit : Int) := n.toInt_lt
  have hlimits : intLimit < sizeLimit := by decide
  exact .int hle (by omega)

@[simp]
theorem writable_ofSize_iff {n : Nat} : (ofSize n).Writable k ↔ n < sizeLimit := by
  constructor
  · rintro (_ | _)
    omega
  · intro h
    exact .int (by omega) (by omega)

@[simp]
theorem writable_ofSizes_iff {ns : List Nat} :
    (ofSizes ns).Writable (k + 1) ↔ ∀ n ∈ ns, n < sizeLimit := by simp [ofSizes]

@[simp]
theorem writable_ofInts (ns : List Int64) : (ofInts ns).Writable (k + 1) := by simp [ofInts]

@[simp]
theorem writable_ofOption_iff {α : Type} {g : α → Json} {o : Option α} :
    (ofOption g o).Writable k ↔ ∀ a ∈ o, (g a).Writable k := by
  cases o <;> simp [ofOption]

variable {α : Type} {form : TextForm} {f : Json → Decoded α} {j : Json} {a : α} {name : String}
  {fields : List (String × Json)}

/-- Whether what a value is read back as decodes to what the value stands for. -/
abbrev Restores (form : TextForm) (f : Json → Decoded α) (j : Json) (a : α) : Prop :=
  f (j.reread form.number) = .ok a

@[simp]
theorem restores_int (n : Int64) : Restores form toInt (ofInt n) n := by
  have hle := n.le_toInt
  have hlt := n.toInt_lt
  have hfits : FitsInt n.toInt := ⟨by omega, by omega⟩
  simp [Restores, ofInt, reread, toInt, hfits]

theorem restores_size {n : Nat} (h : n < sizeLimit) : Restores form toSize (ofSize n) n := by
  simp [Restores, ofSize, reread, toSize, h]

theorem restores_float (hform : form.Faithful) {x : Float32} (h : x.isFinite = true) :
    Restores form toFloat (ofFloat x) x := by
  rw [Restores, ofFloat, reread, if_pos h, hform.toFloat_number x h]

theorem toFloat_refused {x : Float32} (h : x.isFinite = false) :
    toFloat ((ofFloat x).reread form.number) = .error (.wrongType "null" "f32") := by
  rw [ofFloat, reread, if_neg (Bool.not_eq_true _ ▸ h)]
  rfl

@[simp]
theorem restores_bool (b : Bool) : Restores form toBool (ofBool b) b := rfl

@[simp]
theorem restores_text (s : String) : Restores form toText (.string s) s := rfl

theorem restores_list {g : α → Json} {as : List α} (h : ∀ a ∈ as, Restores form f (g a) a) :
    Restores form (toList f) (.array (as.map g)) as := by
  rw [Restores, reread, rereadItems_eq, toList]
  induction as with
  | nil => rfl
  | cons a as ih =>
    have hrest := ih fun b hb => h b (List.mem_cons_of_mem a hb)
    rw [List.map_cons, List.map_cons, List.mapM_cons, h a List.mem_cons_self, hrest]
    rfl

theorem toList_refused {g : α → Json} {as : List α} {e : DecodeError}
    (h : ∀ a ∈ as, f ((g a).reread form.number) = .ok a ∨ f ((g a).reread form.number) = .error e)
    (hrefused : ∃ a ∈ as, f ((g a).reread form.number) = .error e) :
    toList f ((array (as.map g)).reread form.number) = .error e := by
  rw [reread, rereadItems_eq, toList]
  induction as with
  | nil => simp at hrefused
  | cons a as ih =>
    rw [List.map_cons, List.map_cons, List.mapM_cons]
    rcases h a List.mem_cons_self with ha | ha
    · obtain ⟨b, hb, hrefused⟩ := hrefused
      have hrest : b ∈ as := by
        rcases List.mem_cons.mp hb with rfl | hb
        · rw [ha] at hrefused
          cases hrefused
        · exact hb
      rw [ha, ih (fun c hc => h c (List.mem_cons_of_mem a hc)) ⟨b, hrest, hrefused⟩]
      rfl
    · rw [ha]
      rfl

theorem restores_sizes {ns : List Nat} (h : ∀ n ∈ ns, n < sizeLimit) :
    Restores form (toList toSize) (ofSizes ns) ns :=
  restores_list fun n hn => restores_size (h n hn)

@[simp]
theorem restores_ints (ns : List Int64) : Restores form (toList toInt) (ofInts ns) ns :=
  restores_list fun n _ => restores_int n

theorem toOption_of_ne_null (h : j ≠ null) : j.toOption f = do return some (← f j) := by
  cases j <;> first | contradiction | rfl

/-- An optional value is restored if null stands for no value. -/
theorem restores_option {g : α → Json} {o : Option α} (hnull : ∀ a, f null ≠ .ok a)
    (h : ∀ a ∈ o, Restores form f (g a) a) : Restores form (toOption f) (ofOption g o) o := by
  cases o with
  | none => rfl
  | some a =>
    have ha : f ((g a).reread form.number) = .ok a := h a rfl
    have hne : (g a).reread form.number ≠ null := fun hread => hnull a (hread ▸ ha)
    rw [Restores, ofOption, toOption_of_ne_null hne, ha]
    rfl

@[simp]
theorem restores_optional_int (o : Option Int64) :
    Restores form (toOption toInt) (ofOption ofInt o) o :=
  restores_option (by rintro _ ⟨⟩) fun n _ => restores_int n

@[simp]
theorem restores_optional_ints (o : Option (List Int64)) :
    Restores form (toOption (toList toInt)) (ofOption ofInts o) o :=
  restores_option (by rintro _ ⟨⟩) fun ns _ => restores_ints ns

theorem restores_optional_sizes {o : Option (List Nat)} (h : ∀ ns ∈ o, ∀ n ∈ ns, n < sizeLimit) :
    Restores form (toOption (toList toSize)) (ofOption ofSizes o) o :=
  restores_option (by rintro _ ⟨⟩) fun ns hns => restores_sizes (h ns hns)

theorem restores_optional_float (hform : form.Faithful) {o : Option Float32}
    (h : ∀ x ∈ o, x.isFinite = true) : Restores form (toOption toFloat) (ofOption ofFloat o) o :=
  restores_option (by rintro _ ⟨⟩) fun x hx => restores_float hform (h x hx)

theorem restores_case {cases : List (String × α)} (h : cases.lookup name = some a) :
    Restores form (toPlainCase cases) (.string name) a := by
  simp [Restores, reread, toPlainCase, toCase, h, Outcome.orRefuse]

theorem reread_tagged :
    (tagged name j).reread form.number = tagged name (j.reread form.number) := by
  simp [tagged, reread]

theorem restores_content {β : Type} {g : Json → Decoded β} (make : α → β)
    (h : Restores form f j a) (hread : ∀ i, g (tagged name i) = do return make (← f i)) :
    Restores form g (tagged name j) (make a) := by
  rw [Restores, reread_tagged, hread, h]
  rfl

abbrev rereadAll (form : TextForm) (fields : List (String × Json)) : List (String × Json) :=
  fields.map fun field => (field.1, field.2.reread form.number)

theorem reread_record : (record fields).reread form.number = record (rereadAll form fields) := by
  rw [record, reread, rereadFields_eq, record]

theorem restores_record (hf : f (record (rereadAll form fields)) = .ok a) :
    Restores form f (record fields) a := by
  rwa [Restores, reread_record]

theorem restores_ofCase (hf : f (tagged name (record (rereadAll form fields))) = .ok a) :
    Restores form f (ofCase name fields) a := by
  rwa [Restores, ofCase, reread_tagged, reread_record]

@[simp]
theorem toRecord_record (type : String) (names : List String) :
    (record fields).toRecord type names = .ok (record fields) := rfl

@[simp]
theorem field_record : (record fields).field name f =
    match fields.lookup name with
    | some j => f j
    | none => .error (.missingField name) := by
  rw [record, field, field?]
  cases fields.lookup name <;> rfl

@[simp]
theorem optional_record : (record fields).optional name f =
    match fields.lookup name with
    | some j => toOption f j
    | none => .ok none := by
  rw [record, optional, field?]
  cases fields.lookup name <;> rfl

theorem restores_single {β : Type} {g : Json → Decoded β} {type label : String}
    {names : List String} (make : α → β) (h : Restores form f j a)
    (hread : ∀ r, g (tagged name r) = do
      let r ← r.toRecord type names
      return make (← r.field label f)) :
    Restores form g (ofCase name [(label, j)]) (make a) := by
  apply restores_ofCase
  have hfield : (record (rereadAll form [(label, j)])).field label f = .ok a := by
    simp [h]
  rw [hread, toRecord_record, Outcome.ok_bind, hfield]
  rfl

end TensorGraph.Json
