import TensorGraph.Proofs.Json.Text

/-! Reading what was written. The compact text of a JSON value is read as the value, where each real
number is a decimal with the places that its text has. -/

namespace TensorGraph

namespace Json

open Binary32 (Decimal)

variable {number : Float32 → Json} {digits : Float32 → Decimal}

@[simp]
theorem rereadItems_eq (items : List Json) :
    rereadItems number items = items.map (reread number) := by
  induction items with
  | nil => rfl
  | cons j js ih => rw [rereadItems, ih, List.map_cons]

@[simp]
theorem rereadFields_eq (fields : List (String × Json)) :
    rereadFields number fields = fields.map fun field => (field.1, field.2.reread number) := by
  induction fields with
  | nil => rfl
  | cons field fields ih => rw [rereadFields, ih, List.map_cons]

theorem itemTexts_eq (items : List Json) :
    itemTexts digits items = items.map (text digits) := by
  induction items with
  | nil => rfl
  | cons j js ih => rw [itemTexts, ih, List.map_cons]

def fieldText (digits : Float32 → Decimal) (field : String × Json) : String :=
  quote field.1 ++ ":" ++ field.2.text digits

theorem fieldTexts_eq (fields : List (String × Json)) :
    fieldTexts digits fields = fields.map (fieldText digits) := by
  induction fields with
  | nil => rfl
  | cons field fields ih =>
    rw [fieldTexts, ih]
    rfl

/-- What the compact form reads of a value that it wrote. -/
abbrev compacted (digits : Float32 → Decimal) (j : Json) : Json :=
  j.reread (TextForm.compact digits).number

/-- Whether the text of a value is read as it should be wherever it stands. The fuel that it takes
is at most its length. -/
def Readable (digits : Float32 → Decimal) (j : Json) : Prop :=
  ∀ (fuel : Nat) (cs : Chars), (j.text digits).toList.length ≤ fuel + 1 → Stops cs →
    readValue (fuel + 1) ((j.text digits).toList ++ cs) = some (j.compacted digits, cs)

theorem skipBlanks_cons {c : Char} (cs : Chars)
    (h : c ≠ ' ' ∧ c ≠ '\n' ∧ c ≠ '\r' ∧ c ≠ '\t') : skipBlanks (c :: cs) = c :: cs := by
  simp [skipBlanks, h]

theorem ne_of_isDigit {c d : Char} (hc : c.isDigit = true) (hd : d.isDigit = false) : c ≠ d := by
  rintro rfl
  rw [hc] at hd
  cases hd

def Begins (c : Char) : Prop := c ≠ ' ' ∧ c ≠ '\n' ∧ c ≠ '\r' ∧ c ≠ '\t' ∧ c ≠ ']'

instance (c : Char) : Decidable (Begins c) := inferInstanceAs (Decidable (_ ∧ _ ∧ _ ∧ _ ∧ _))

structure ReadsOpening (fuel : Nat) (rest : Chars) : Prop where
  null : readValue (fuel + 1) ('n' :: 'u' :: 'l' :: 'l' :: rest) = some (null, rest)
  holds : readValue (fuel + 1) ('t' :: 'r' :: 'u' :: 'e' :: rest) = some (bool true, rest)
  fails : readValue (fuel + 1) ('f' :: 'a' :: 'l' :: 's' :: 'e' :: rest) = some (bool false, rest)
  string : readValue (fuel + 1) ('"' :: rest) =
    (readQuoted (rest.length + 1) [] rest).map fun r => (string r.1, r.2)
  emptyArray : readValue (fuel + 1) ('[' :: ']' :: rest) = some (array [], rest)
  array : ∀ c, Begins c → readValue (fuel + 1) ('[' :: c :: rest) =
    (readItems fuel (c :: rest)).map fun r => (array r.1, r.2)
  emptyObject : readValue (fuel + 1) ('\x7b' :: '\x7d' :: rest) = some (object [], rest)
  object : readValue (fuel + 1) ('\x7b' :: '"' :: rest) =
    (readFields fuel ('"' :: rest)).map fun r => (object r.1, r.2)
  minus : readValue (fuel + 1) ('-' :: rest) = readMagnitude true rest
  digit : ∀ c : Char, c.isDigit = true → readValue (fuel + 1) (c :: rest) =
    readMagnitude false (c :: rest)

theorem readsOpening (fuel : Nat) (rest : Chars) : ReadsOpening fuel rest where
  null := by simp [readValue, skipBlanks]
  holds := by simp [readValue, skipBlanks]
  fails := by simp [readValue, skipBlanks]
  string := by
    cases hread : readQuoted (rest.length + 1) [] rest <;> simp [readValue, skipBlanks, hread]
  emptyArray := by simp [readValue, skipBlanks]
  array := by
    intro c hc
    have hopen : skipBlanks ('[' :: c :: rest) = '[' :: c :: rest := skipBlanks_cons _ (by decide)
    have hfirst : skipBlanks (c :: rest) = c :: rest :=
      skipBlanks_cons _ ⟨hc.1, hc.2.1, hc.2.2.1, hc.2.2.2.1⟩
    cases hread : readItems fuel (c :: rest) <;> simp [readValue, hopen, hfirst, hc.2.2.2.2, hread]
  emptyObject := by simp [readValue, skipBlanks]
  object := by
    cases hread : readFields fuel ('"' :: rest) <;> simp [readValue, skipBlanks, hread]
  minus := by simp [readValue, skipBlanks]
  digit := by
    intro c hc
    have hne {d : Char} (hd : d.isDigit = false) : c ≠ d := ne_of_isDigit hc hd
    rw [readValue, skipBlanks_cons rest ⟨hne rfl, hne rfl, hne rfl, hne rfl⟩]
    simp [hne (d := 'n') rfl, hne (d := 't') rfl, hne (d := 'f') rfl, hne (d := '"') rfl,
      hne (d := '[') rfl, hne (d := '\x7b') rfl, hne (d := '-') rfl]

def signedChars (negative : Bool) (n : Numeral) : Chars :=
  (if negative then ['-'] else []) ++ n.chars

theorem readValue_signedChars (fuel : Nat) (negative : Bool) (n : Numeral) (cs : Chars) :
    readValue (fuel + 1) (signedChars negative n ++ cs) =
      readMagnitude negative (n.chars ++ cs) := by
  cases negative with
  | true =>
    have hread := (readsOpening fuel (n.chars ++ cs)).minus
    simpa [signedChars] using hread
  | false =>
    obtain ⟨c, whole, hwhole⟩ := List.exists_cons_of_ne_nil n.whole_ne_nil
    have hdigit : c.isDigit = true := n.whole_digits c (hwhole ▸ List.mem_cons_self)
    have hread := (readsOpening fuel (whole ++ (Numeral.pointChars n.places ++
      Numeral.exponentChars n.exponent) ++ cs)).digit c hdigit
    simpa [signedChars, Numeral.chars, hwhole] using hread

theorem readValue_decimalText (fuel : Nat) (negative : Bool) {d : Decimal} {cs : Chars}
    (hd : inRange d = true) (hcs : Stops cs) :
    readValue (fuel + 1) ((decimalText negative d).toList ++ cs) =
      some (decimal negative d.reread, cs) := by
  obtain ⟨n, hmarked, hvalue, htext⟩ := exists_numeral d
  have hplain : ¬(n.places = [] ∧ n.exponent = none) := by
    rintro ⟨hplaces, hexponent⟩
    rcases hmarked with h | h
    · exact h hplaces
    · exact h hexponent
  rw [htext, ← signedChars, readValue_signedChars, readMagnitude_chars _ _ hcs, if_neg hplain,
    decimalOf, hvalue, if_pos (inRange_reread hd)]
  rfl

def Numeral.ofNat (n : Nat) : Numeral where
  whole := Nat.toDigits 10 n
  places := []
  exponent := none
  whole_ne_nil := Nat.toDigits_ne_nil
  lead := by
    by_cases hn : n = 0
    · simp [hn]
    · exact .inr (head?_toDigits hn)
  whole_digits := fun _ => isDigit_of_mem
  places_digits := by simp

theorem toList_int (n : Int) :
    ((int n).text digits).toList = signedChars (n < 0) (.ofNat n.natAbs) := by
  rw [text, Int.toString_eq_repr, Int.repr_eq_if]
  by_cases hn : 0 ≤ n
  · have habs : n.toNat = n.natAbs := by omega
    simp [hn, habs, signedChars, Numeral.ofNat, Numeral.chars, Numeral.pointChars,
      Numeral.exponentChars, Int.not_lt.mpr hn]
  · have habs : (-n).toNat = n.natAbs := by omega
    simp [hn, habs, signedChars, Numeral.ofNat, Numeral.chars, Numeral.pointChars,
      Numeral.exponentChars, Int.not_le.mp hn]

theorem readable_int {n : Int} (least : -(intLimit : Int) ≤ n) (most : n < sizeLimit) :
    Readable digits (int n) := by
  intro fuel cs _ hcs
  have hdigits : digitsValue 0 (Numeral.ofNat n.natAbs).whole = n.natAbs := digitsValue_toDigits _
  rw [toList_int, readValue_signedChars, readMagnitude_chars _ _ hcs, if_pos ⟨rfl, rfl⟩, hdigits,
    compacted, reread, wholeOf]
  by_cases hn : n < 0
  · have hfits : ¬(n.natAbs = 0 ∨ n.natAbs > intLimit) := by omega
    have hvalue : -(n.natAbs : Int) = n := by omega
    rw [decide_eq_true hn, if_pos rfl, if_neg hfits, hvalue]
    rfl
  · have hfits : n.natAbs < sizeLimit := by omega
    have hvalue : (n.natAbs : Int) = n := by omega
    rw [decide_eq_false hn, if_neg Bool.false_ne_true, if_pos hfits, hvalue]
    rfl

theorem readable_null : Readable digits null := by
  intro fuel cs _ _
  simpa [text, reread] using (readsOpening fuel cs).null

theorem readable_float (hdigits : Lossless digits) (x : Float32) : Readable digits (float x) := by
  intro fuel cs _ hcs
  by_cases hx : x.isFinite = true
  · rw [text, if_pos hx, readValue_decimalText fuel _ (hdigits.inRange hx) hcs, compacted, reread,
      if_pos hx]
    rfl
  · simpa [text, reread, hx] using (readsOpening fuel cs).null

theorem readable_bool (b : Bool) : Readable digits (bool b) := by
  intro fuel cs _ _
  cases b with
  | true => simpa [text, reread] using (readsOpening fuel cs).holds
  | false => simpa [text, reread] using (readsOpening fuel cs).fails

theorem readQuoted_quote (s : String) (cs : Chars) :
    readQuoted ((quotedChars s.toList ++ '"' :: cs).length + 1) []
      (quotedChars s.toList ++ '"' :: cs) = some (s, cs) := by
  have hlen := length_le_quotedChars s.toList
  rw [readQuoted_quotedChars]
  · simp
  · rw [List.length_append]
    omega

theorem readable_string (s : String) : Readable digits (string s) := by
  intro fuel cs _ _
  have hquoted := readQuoted_quote s cs
  rw [List.length_append, List.length_cons] at hquoted
  simp [text, reread, toList_quote, (readsOpening fuel _).string, hquoted]

theorem begins_of_isDigit {c : Char} (hc : c.isDigit = true) : Begins c :=
  ⟨ne_of_isDigit hc rfl, ne_of_isDigit hc rfl, ne_of_isDigit hc rfl, ne_of_isDigit hc rfl,
    ne_of_isDigit hc rfl⟩

theorem exists_begins_signedChars (negative : Bool) (n : Numeral) :
    ∃ c cs, signedChars negative n = c :: cs ∧ Begins c := by
  cases negative with
  | true => exact ⟨'-', n.chars, rfl, by decide⟩
  | false =>
    obtain ⟨c, whole, hwhole⟩ := List.exists_cons_of_ne_nil n.whole_ne_nil
    have hdigit : c.isDigit = true := n.whole_digits c (hwhole ▸ List.mem_cons_self)
    refine ⟨c, whole ++ (Numeral.pointChars n.places ++ Numeral.exponentChars n.exponent), ?_,
      begins_of_isDigit hdigit⟩
    rw [signedChars, Numeral.chars, hwhole]
    rfl

theorem exists_begins_decimalText (negative : Bool) (d : Decimal) :
    ∃ c cs, (decimalText negative d).toList = c :: cs ∧ Begins c := by
  obtain ⟨n, -, -, htext⟩ := exists_numeral d
  rw [htext, ← signedChars]
  exact exists_begins_signedChars _ _

theorem exists_begins (digits : Float32 → Decimal) (j : Json) :
    ∃ c cs, (j.text digits).toList = c :: cs ∧ Begins c := by
  cases j with
  | null => exact ⟨'n', _, by rw [text]; rfl, by decide⟩
  | bool b =>
    cases b with
    | true => exact ⟨'t', _, by rw [text]; rfl, by decide⟩
    | false => exact ⟨'f', _, by rw [text]; rfl, by decide⟩
  | int n =>
    rw [toList_int]
    exact exists_begins_signedChars _ _
  | decimal negative d => exact exists_begins_decimalText negative d
  | float x =>
    by_cases hx : x.isFinite = true
    · rw [text, if_pos hx]
      exact exists_begins_decimalText _ _
    · rw [text, if_neg hx]
      exact ⟨'n', _, rfl, by decide⟩
  | string s => exact ⟨'"', _, toList_quote s, by decide⟩
  | array items => exact ⟨'[', _, by simp [text]; rfl, by decide⟩
  | object fields => exact ⟨'\x7b', _, by simp [text]; rfl, by decide⟩

theorem stops_cons {c : Char} (cs : Chars) (h : c.isDigit = false ∧ c ≠ '.' ∧ c ≠ 'e' ∧ c ≠ 'E') :
    Stops (c :: cs) := by
  rintro _ ⟨⟩
  exact h

def joined (texts : List String) : Chars := [','].intercalate (texts.map String.toList)

theorem joined_cons_cons (s t : String) (texts : List String) :
    joined (s :: t :: texts) = s.toList ++ ',' :: joined (t :: texts) := by
  simp [joined, List.intercalate]

theorem toList_array (items : List Json) :
    ((array items).text digits).toList = '[' :: (joined (items.map (text digits)) ++ [']']) := by
  simp [text, itemTexts_eq, joined]

theorem toList_object (fields : List (String × Json)) : ((object fields).text digits).toList =
    '\x7b' :: (joined (fields.map (fieldText digits)) ++ ['\x7d']) := by
  simp [text, fieldTexts_eq, joined]

theorem joined_singleton (s : String) : joined [s] = s.toList := by
  simp [joined, List.intercalate]

theorem exists_begins_joined (j : Json) (js : List Json) :
    ∃ c cs, joined ((j :: js).map (text digits)) = c :: cs ∧ Begins c := by
  obtain ⟨c, tail, htext, hbegins⟩ := exists_begins digits j
  cases js with
  | nil => exact ⟨c, tail, by simp [joined_singleton, htext], hbegins⟩
  | cons k js => exact ⟨c, _, by simp [joined_cons_cons, htext]; rfl, hbegins⟩

theorem readItems_joined {items : List Json} (hitems : items ≠ [])
    (h : ∀ j ∈ items, Readable digits j) {fuel : Nat} (cs : Chars)
    (hfuel : (joined (items.map (text digits))).length < fuel) :
    readItems fuel (joined (items.map (text digits)) ++ ']' :: cs) =
      some (items.map (compacted digits), cs) := by
  induction items generalizing fuel with
  | nil => exact absurd rfl hitems
  | cons j js ih =>
    obtain ⟨c, tail, htext, -⟩ := exists_begins digits j
    have hpos : 0 < (j.text digits).toList.length := by rw [htext]; exact Nat.succ_pos _
    cases js with
    | nil =>
      simp only [List.map_cons, List.map_nil, joined_singleton] at hfuel ⊢
      obtain ⟨fuel, rfl⟩ : ∃ k, fuel = k + 2 := ⟨fuel - 2, by omega⟩
      have hread := h j List.mem_cons_self fuel (']' :: cs) (by omega) (stops_cons cs (by decide))
      have hclose : skipBlanks (']' :: cs) = ']' :: cs := skipBlanks_cons cs (by decide)
      simp [readItems, hread, hclose]
    | cons k js =>
      simp only [List.map_cons, joined_cons_cons, List.length_append, List.length_cons,
        List.append_assoc, List.cons_append] at hfuel ih ⊢
      obtain ⟨fuel, rfl⟩ : ∃ k, fuel = k + 2 := ⟨fuel - 2, by omega⟩
      have hread := h j List.mem_cons_self fuel
        (',' :: (joined (k.text digits :: js.map (text digits)) ++ ']' :: cs)) (by omega)
        (stops_cons _ (by decide))
      have hrest : readItems (fuel + 1)
          (joined (k.text digits :: js.map (text digits)) ++ ']' :: cs) =
            some (k.compacted digits :: js.map (compacted digits), cs) :=
        ih (by simp) (fun k hk => h k (List.mem_cons_of_mem j hk)) (by omega)
      have hcomma : skipBlanks (',' :: (joined (k.text digits :: js.map (text digits)) ++
          ']' :: cs)) = ',' :: (joined (k.text digits :: js.map (text digits)) ++ ']' :: cs) :=
        skipBlanks_cons _ (by decide)
      rw [readItems]
      simp [hread, hcomma, hrest]

theorem readable_array {items : List Json} (h : ∀ j ∈ items, Readable digits j) :
    Readable digits (array items) := by
  intro fuel cs hfuel _
  rw [toList_array, List.length_cons, List.length_append, List.length_singleton] at hfuel
  rw [toList_array, List.cons_append, List.append_assoc, List.singleton_append,
    compacted, reread, rereadItems_eq]
  cases items with
  | nil => simpa [joined] using (readsOpening fuel cs).emptyArray
  | cons j js =>
    have hread : readItems fuel (joined ((j :: js).map (text digits)) ++ ']' :: cs) =
        some ((j :: js).map (compacted digits), cs) := readItems_joined (by simp) h cs (by omega)
    obtain ⟨c, tail, htail, hbegins⟩ := exists_begins_joined j js
    rw [htail, List.cons_append] at hread ⊢
    rw [(readsOpening fuel _).array c hbegins, hread]
    rfl

/-- A field is read up to the comma, which the other fields follow, or the brace after it. -/
theorem readFields_fieldText (name : String) {j : Json} (hj : Readable digits j) {fuel : Nat}
    {cs : Chars} (hfuel : (j.text digits).toList.length ≤ fuel + 1) (hcs : Stops cs) :
    (∀ rest, skipBlanks cs = ',' :: rest →
      readFields (fuel + 2) ((fieldText digits (name, j)).toList ++ cs) =
        (readFields (fuel + 1) rest).map fun r => ((name, j.compacted digits) :: r.1, r.2)) ∧
    ∀ rest, skipBlanks cs = '\x7d' :: rest →
      readFields (fuel + 2) ((fieldText digits (name, j)).toList ++ cs) =
      some ([(name, j.compacted digits)], rest) := by
  have htext : (fieldText digits (name, j)).toList ++ cs =
      '"' :: (quotedChars name.toList ++ '"' :: (':' :: ((j.text digits).toList ++ cs))) := by
    simp [fieldText, toList_quote]
  have hcolon : skipBlanks (':' :: ((j.text digits).toList ++ cs)) =
      ':' :: ((j.text digits).toList ++ cs) := skipBlanks_cons _ (by decide)
  have hquote (cs : Chars) : skipBlanks ('"' :: cs) = '"' :: cs := skipBlanks_cons cs (by decide)
  rw [htext, readFields, hquote]
  simp only [readQuoted_quote, Option.bind_eq_bind, Option.bind_some, hcolon, hj fuel cs hfuel hcs]
  constructor
  · intro rest hrest
    rw [hrest, Option.map_eq_bind]
    rfl
  · intro rest hrest
    rw [hrest]
    rfl

theorem length_fieldText (digits : Float32 → Decimal) (name : String) (j : Json) :
    (fieldText digits (name, j)).toList.length =
      (quotedChars name.toList).length + (j.text digits).toList.length + 3 := by
  simp [fieldText, toList_quote]
  omega

theorem readFields_joined {fields : List (String × Json)} (hfields : fields ≠ [])
    (h : ∀ field ∈ fields, Readable digits field.2) {fuel : Nat} (cs : Chars)
    (hfuel : (joined (fields.map (fieldText digits))).length < fuel) :
    readFields fuel (joined (fields.map (fieldText digits)) ++ '\x7d' :: cs) =
      some (fields.map fun field => (field.1, field.2.compacted digits), cs) := by
  induction fields generalizing fuel with
  | nil => exact absurd rfl hfields
  | cons field fields ih =>
    obtain ⟨name, j⟩ := field
    have hj : Readable digits j := h _ List.mem_cons_self
    have hlen := length_fieldText digits name j
    cases fields with
    | nil =>
      simp only [List.map_cons, List.map_nil, joined_singleton] at hfuel ⊢
      obtain ⟨fuel, rfl⟩ : ∃ k, fuel = k + 2 := ⟨fuel - 2, by omega⟩
      exact (readFields_fieldText name hj (by omega) (stops_cons cs (by decide))).2 _
        (skipBlanks_cons cs (by decide))
    | cons next fields =>
      simp only [List.map_cons, joined_cons_cons, List.length_append, List.length_cons,
        List.append_assoc, List.cons_append] at hfuel ih ⊢
      obtain ⟨fuel, rfl⟩ : ∃ k, fuel = k + 2 := ⟨fuel - 2, by omega⟩
      have hrest := ih (by simp) (fun next hnext => h next (List.mem_cons_of_mem _ hnext))
        (show _ < fuel + 1 by omega)
      rw [(readFields_fieldText name hj (by omega) (stops_cons _ (by decide))).1 _
        (skipBlanks_cons _ (by decide)), hrest]
      rfl

theorem exists_cons_joined (field : String × Json) (fields : List (String × Json)) :
    ∃ cs, joined ((field :: fields).map (fieldText digits)) = '"' :: cs := by
  have htext : ∃ cs, (fieldText digits field).toList = '"' :: cs :=
    ⟨_, by simp [fieldText, toList_quote]; rfl⟩
  obtain ⟨cs, htext⟩ := htext
  cases fields with
  | nil => exact ⟨cs, by simp [joined_singleton, htext]⟩
  | cons next fields => exact ⟨_, by simp [joined_cons_cons, htext]; rfl⟩

theorem readable_object {fields : List (String × Json)}
    (h : ∀ field ∈ fields, Readable digits field.2) : Readable digits (object fields) := by
  intro fuel cs hfuel _
  rw [toList_object, List.length_cons, List.length_append, List.length_singleton] at hfuel
  rw [toList_object, List.cons_append, List.append_assoc, List.singleton_append,
    compacted, reread, rereadFields_eq]
  cases fields with
  | nil => simpa [joined] using (readsOpening fuel cs).emptyObject
  | cons field fields =>
    have hread : readFields fuel
        (joined ((field :: fields).map (fieldText digits)) ++ '\x7d' :: cs) =
        some ((field :: fields).map fun field => (field.1, field.2.compacted digits), cs) :=
      readFields_joined (by simp) h cs (by omega)
    obtain ⟨tail, htail⟩ := exists_cons_joined field fields
    rw [htail, List.cons_append] at hread ⊢
    rw [(readsOpening fuel _).object, hread]
    rfl

theorem Writable.readable (hdigits : Lossless digits) {k : Nat} {j : Json} (h : j.Writable k) :
    Readable digits j := by
  induction h with
  | null => exact readable_null
  | bool b => exact readable_bool b
  | int least most => exact readable_int least most
  | float x => exact readable_float hdigits x
  | string s => exact readable_string s
  | array _ ih => exact readable_array ih
  | object _ _ ih => exact readable_object ih

end Json

/-- The compact form reads what it writes, with the digits of numbers written out to a place. -/
theorem TextForm.compact_faithful {digits : Float32 → Binary32.Decimal}
    (hdigits : Json.Lossless digits) : (compact digits).Faithful where
  read_write := by
    intro j hj
    have hread := hj.readable hdigits (j.text digits).toList.length [] (Nat.le_succ _)
      (by simp [Json.Stops])
    rw [List.append_nil] at hread
    simp only [compact, Json.parse, hread]
    rfl
  toFloat_number := by
    intro x hx
    simp [compact, Json.toFloat, Binary32.ofDecimal_reread, hdigits x hx]

end TensorGraph
