import TensorGraph.Proofs.Json.Numbers

/-! The texts of numbers and strings, and what reading them gives. Digits are read up to the first
character that is none, and an escaped character is read as itself. -/

namespace TensorGraph.Json

open Binary32 (Decimal)

theorem toList_toString (n : Nat) : (toString n).toList = Nat.toDigits 10 n := by
  rw [Nat.toString_eq_ofList_toDigits, String.toList_ofList]

theorem isDigit_of_mem {n : Nat} {c : Char} (h : c ∈ Nat.toDigits 10 n) : c.isDigit = true :=
  Nat.isDigit_of_mem_toDigits (by decide) (by decide) h

theorem digitsValue_eq (n : Nat) (cs : Chars) : digitsValue n cs = Nat.ofDigitChars 10 cs n := by
  rw [Nat.ofDigitChars_eq_foldl, digitsValue]
  congr 1
  funext n c
  rw [Nat.mul_comm]
  rfl

theorem digitsValue_toDigits (n : Nat) : digitsValue 0 (Nat.toDigits 10 n) = n := by
  rw [digitsValue_eq, Nat.ofDigitChars_ten_toDigits]

theorem digitsValue_append_zeros (cs : Chars) (k : Nat) :
    digitsValue 0 (cs ++ List.replicate k '0') = digitsValue 0 cs * Binary32.tenTo k := by
  rw [digitsValue_eq, digitsValue_eq, Nat.ofDigitChars_append, Nat.ofDigitChars_replicate_zero,
    Nat.mul_comm]
  rfl

theorem digitsValue_zeros_append (k : Nat) (cs : Chars) :
    digitsValue 0 (List.replicate k '0' ++ cs) = digitsValue 0 cs := by
  rw [digitsValue_eq, digitsValue_eq, Nat.ofDigitChars_append, Nat.ofDigitChars_replicate_zero,
    Nat.mul_zero]

theorem exists_cons_toDigits (n : Nat) :
    ∃ c cs, Nat.toDigits 10 n = c :: cs ∧ c.isDigit = true := by
  cases hdigits : Nat.toDigits 10 n with
  | nil => exact absurd hdigits Nat.toDigits_ne_nil
  | cons c cs => exact ⟨c, cs, rfl, isDigit_of_mem (hdigits ▸ List.mem_cons_self)⟩

/-- A number that is not zero is written without a zero in front. -/
theorem head?_toDigits {n : Nat} (hn : n ≠ 0) : (Nat.toDigits 10 n).head? ≠ some '0' := by
  induction n using Nat.strong_induction_on with
  | _ n ih =>
    rw [Nat.toDigits_eq_if (by decide)]
    by_cases hsmall : n < 10
    · have hall : ∀ n < 10, n ≠ 0 → Nat.digitChar n ≠ '0' := by decide
      simpa [hsmall] using hall n hsmall hn
    · obtain ⟨c, cs, hdigits, -⟩ := exists_cons_toDigits (n / 10)
      have hlead := ih (n / 10) (by omega) (by omega)
      simpa [hsmall, hdigits] using hlead

/-- Whether characters begin with none that a number could go on with. -/
def Stops (cs : Chars) : Prop :=
  ∀ c ∈ cs.head?, c.isDigit = false ∧ c ≠ '.' ∧ c ≠ 'e' ∧ c ≠ 'E'

def EndsDigits (cs : Chars) : Prop := ∀ c ∈ cs.head?, c.isDigit = false

theorem Stops.endsDigits {cs : Chars} (h : Stops cs) : EndsDigits cs := fun c hc => (h c hc).1

theorem takeWhile_digits {ds cs : Chars} (hds : ∀ c ∈ ds, c.isDigit = true) (hcs : EndsDigits cs) :
    (ds ++ cs).takeWhile Char.isDigit = ds := by
  rw [List.takeWhile_append_of_pos hds]
  cases cs with
  | nil => simp
  | cons c cs => simp [hcs c rfl]

theorem dropWhile_digits {ds cs : Chars} (hds : ∀ c ∈ ds, c.isDigit = true) (hcs : EndsDigits cs) :
    (ds ++ cs).dropWhile Char.isDigit = cs := by
  rw [List.dropWhile_append_of_pos hds]
  cases cs with
  | nil => simp
  | cons c cs => simp [hcs c rfl]

structure Numeral where
  whole : Chars
  places : Chars
  exponent : Option Int
  whole_ne_nil : whole ≠ []
  lead : whole.length = 1 ∨ whole.head? ≠ some '0'
  whole_digits : ∀ c ∈ whole, c.isDigit = true
  places_digits : ∀ c ∈ places, c.isDigit = true

namespace Numeral

def pointChars (places : Chars) : Chars := if places = [] then [] else '.' :: places

def exponentChars : Option Int → Chars
  | none => []
  | some e => 'e' :: (toString e).toList

def chars (n : Numeral) : Chars := n.whole ++ (pointChars n.places ++ exponentChars n.exponent)

/-- The decimal that a number with a point or an exponent is read as. -/
def value (n : Numeral) : Decimal :=
  ⟨digitsValue 0 (n.whole ++ n.places), n.exponent.getD 0 - n.places.length⟩

/-- Whether a number has a point or an exponent. -/
def Marked (n : Numeral) : Prop := n.places ≠ [] ∨ n.exponent ≠ none

end Numeral

theorem readExponent_none {cs : Chars} (h : Stops cs) : readExponent cs = some (none, cs) := by
  cases cs with
  | nil => rfl
  | cons c cs =>
    obtain ⟨-, -, he, hE⟩ := h c rfl
    simp [readExponent, he, hE]

theorem readExponent_some (e : Int) {cs : Chars} (h : Stops cs) :
    readExponent (Numeral.exponentChars (some e) ++ cs) = some (some e, cs) := by
  have htake (n : Nat) : (Nat.toDigits 10 n ++ cs).takeWhile Char.isDigit = Nat.toDigits 10 n :=
    takeWhile_digits (fun _ => isDigit_of_mem) h.endsDigits
  have hdrop (n : Nat) : (Nat.toDigits 10 n ++ cs).dropWhile Char.isDigit = cs :=
    dropWhile_digits (fun _ => isDigit_of_mem) h.endsDigits
  have hne (n : Nat) : Nat.toDigits 10 n ≠ [] := Nat.toDigits_ne_nil
  rw [Numeral.exponentChars, Int.toString_eq_repr, Int.repr_eq_if]
  by_cases hsign : 0 ≤ e
  · have hvalue : (digitsValue 0 (Nat.toDigits 10 e.toNat) : Int) = e := by
      rw [digitsValue_toDigits, Int.toNat_of_nonneg hsign]
    rw [if_pos hsign, ← Nat.toString_eq_repr, toList_toString]
    specialize htake e.toNat
    specialize hdrop e.toNat
    specialize hne e.toNat
    obtain ⟨c, ds, hdigits, hc⟩ := exists_cons_toDigits e.toNat
    have hplus : c ≠ '+' := by rintro rfl; cases hc
    have hminus : c ≠ '-' := by rintro rfl; cases hc
    rw [hdigits] at htake hdrop hvalue ⊢
    simp only [List.cons_append] at htake hdrop ⊢
    simp [readExponent, htake, hdrop, hvalue, hplus, hminus]
  · have hvalue : (-(digitsValue 0 (Nat.toDigits 10 (-e).toNat)) : Int) = e := by
      rw [digitsValue_toDigits]
      omega
    rw [if_neg hsign, ← Nat.toString_eq_repr, String.toList_append, toList_toString]
    simp [readExponent, htake, hdrop, hvalue, hne]

theorem digitsValue_append (cs ds : Chars) :
    digitsValue 0 (cs ++ ds) = digitsValue (digitsValue 0 cs) ds := List.foldl_append

theorem readExponent_chars (exponent : Option Int) {cs : Chars} (h : Stops cs) :
    readExponent (Numeral.exponentChars exponent ++ cs) = some (exponent, cs) := by
  cases exponent with
  | none => exact readExponent_none h
  | some e => exact readExponent_some e h

/-- After its digits a number goes on with no digit and, without places, with no point. -/
theorem head_exponentChars (exponent : Option Int) {cs : Chars} (h : Stops cs) :
    ∀ c ∈ (Numeral.exponentChars exponent ++ cs).head?, c.isDigit = false ∧ c ≠ '.' := by
  cases exponent with
  | none => exact fun c hc => ⟨(h c hc).1, (h c hc).2.1⟩
  | some e =>
    intro c hc
    obtain rfl : 'e' = c := by simpa [Numeral.exponentChars] using hc
    decide

theorem readMagnitude_chars (negative : Bool) (n : Numeral) {cs : Chars} (h : Stops cs) :
    readMagnitude negative (n.chars ++ cs) =
      (if n.places = [] ∧ n.exponent = none then wholeOf negative (digitsValue 0 n.whole)
        else decimalOf negative n.value).map fun j => (j, cs) := by
  obtain ⟨whole, places, exponent, hne, hlead, hwhole, hplaces⟩ := n
  have hexponent := readExponent_chars exponent h
  have hhead := head_exponentChars exponent h
  have hends : EndsDigits (Numeral.exponentChars exponent ++ cs) := fun c hc => (hhead c hc).1
  have hproper : ¬(whole = [] ∨ 1 < whole.length ∧ whole.head? = some '0') := by
    rintro (hempty | ⟨hlong, hzero⟩)
    · exact hne hempty
    · rcases hlead with hone | hlead
      · omega
      · exact hlead hzero
  have hpair (j : Option Json) : (j.bind fun j => some (j, cs)) = j.map fun j => (j, cs) := by
    cases j <;> rfl
  simp only [Numeral.chars, Numeral.value, List.append_assoc]
  generalize Numeral.exponentChars exponent ++ cs = after at *
  by_cases hp : places = []
  · have htake := takeWhile_digits hwhole hends
    have hdrop := dropWhile_digits hwhole hends
    have hread : readMagnitude negative (whole ++ after) =
        (if exponent = none then wholeOf negative (digitsValue 0 whole)
          else decimalOf negative ⟨digitsValue 0 whole, exponent.getD 0⟩).map fun j => (j, cs) := by
      cases after with
      | nil =>
        rw [List.append_nil] at htake hdrop ⊢
        by_cases he : exponent = none <;>
          simp [readMagnitude, htake, hdrop, hproper, hexponent, hpair, digitsValue, he]
      | cons c after =>
        by_cases he : exponent = none <;>
          simp [readMagnitude, htake, hdrop, hproper, hexponent, (hhead c rfl).2, hpair,
            digitsValue, he]
    simpa [Numeral.pointChars, hp] using hread
  · have hpoint : EndsDigits ('.' :: (places ++ after)) := by
      rintro c ⟨⟩
      rfl
    have htake := takeWhile_digits hwhole hpoint
    have hdrop := dropWhile_digits hwhole hpoint
    have htake' := takeWhile_digits hplaces hends
    have hdrop' := dropWhile_digits hplaces hends
    simp only [Numeral.pointChars, if_neg hp, List.cons_append, digitsValue_append]
    simp [readMagnitude, htake, hdrop, hproper, htake', hdrop', hp, hexponent, hpair]

theorem length_repr (n : Nat) : n.repr.length = (Nat.toDigits 10 n).length := by
  rw [← Nat.toString_eq_repr, Nat.toString_eq_ofList_toDigits, String.length_ofList]

theorem toList_zeros (n : Nat) : (Binary32.zeros n).toList = List.replicate n '0' := by
  rw [Binary32.zeros, String.pushn_eq_repeat_push]
  induction n with
  | zero => rfl
  | succ n ih => simp [Nat.repeat, ih, List.replicate_succ']

theorem length_zeros (n : Nat) : (Binary32.zeros n).length = n := by
  rw [← String.length_toList, toList_zeros, List.length_replicate]

theorem toList_exponential (d : Decimal) : d.exponential.toList =
    (Nat.toDigits 10 d.digits).take 1 ++
      (Numeral.pointChars ((Nat.toDigits 10 d.digits).drop 1) ++
        Numeral.exponentChars
        (some (d.power + ((Nat.toDigits 10 d.digits).length - 1 : Nat)))) := by
  obtain ⟨c, cs, hdigits, -⟩ := exists_cons_toDigits d.digits
  have hlen : d.digits.repr.length = cs.length + 1 := by rw [length_repr, hdigits, List.length_cons]
  by_cases hone : cs = []
  · simp [Decimal.exponential, hlen, hdigits, hone, Numeral.pointChars, Numeral.exponentChars]
  · simp [Decimal.exponential, hlen, hdigits, hone, Numeral.pointChars, Numeral.exponentChars]

theorem toList_positional_of_nonneg {d : Decimal} (h : 0 ≤ d.power) :
    d.positional.toList = Nat.toDigits 10 d.digits ++ List.replicate d.power.toNat '0' := by
  simp [Decimal.positional, h, toList_zeros]

/-- The digits of a decimal, with as many zeros in front as it takes to have one before the
point. -/
def paddedDigits (d : Decimal) : Chars :=
  List.replicate ((-d.power).toNat + 1 - (Nat.toDigits 10 d.digits).length) '0' ++
    Nat.toDigits 10 d.digits

theorem toList_positional_of_neg {d : Decimal} (h : d.power < 0) :
    d.positional.toList = (paddedDigits d).take ((paddedDigits d).length - (-d.power).toNat) ++
      ('.' :: (paddedDigits d).drop ((paddedDigits d).length - (-d.power).toNat)) := by
  have hneg : ¬0 ≤ d.power := by omega
  simp [Decimal.positional, hneg, toList_zeros, length_zeros, length_repr, paddedDigits]

theorem isDigit_zeros {k : Nat} {c : Char} (h : c ∈ List.replicate k '0') : c.isDigit = true := by
  obtain rfl := (List.mem_replicate.mp h).2
  rfl

theorem isDigit_paddedDigits {d : Decimal} {c : Char} (h : c ∈ paddedDigits d) :
    c.isDigit = true := by
  rcases List.mem_append.mp h with h | h
  · exact isDigit_zeros h
  · exact isDigit_of_mem h

theorem isDigit_zero {c : Char} (h : c ∈ ['0']) : c.isDigit = true := isDigit_zeros (k := 1) h

namespace Numeral

def zero : Numeral :=
  ⟨['0'], ['0'], none, by simp, .inl rfl, fun _ => isDigit_zero, fun _ => isDigit_zero⟩

theorem exists_exponential (d : Decimal) :
    ∃ n : Numeral, n.Marked ∧ n.value = d ∧ d.exponential.toList = n.chars := by
  have hlen : 0 < (Nat.toDigits 10 d.digits).length := Nat.length_toDigits_pos
  refine ⟨⟨(Nat.toDigits 10 d.digits).take 1, (Nat.toDigits 10 d.digits).drop 1,
    some (d.power + ((Nat.toDigits 10 d.digits).length - 1 : Nat)), ?_, .inl ?_,
    fun c hc => isDigit_of_mem (List.mem_of_mem_take hc),
    fun c hc => isDigit_of_mem (List.mem_of_mem_drop hc)⟩, .inr (by simp), ?_, toList_exponential d⟩
  · simp [Nat.toDigits_ne_nil]
  · simp
    omega
  · simp only [value, List.take_append_drop, digitsValue_toDigits, Option.getD_some,
      List.length_drop]
    obtain ⟨digits, power⟩ := d
    simp

theorem exists_whole {d : Decimal} (hd : d.digits ≠ 0) (h : 0 ≤ d.power) :
    ∃ n : Numeral, n.Marked ∧ n.value = ⟨d.digits * Binary32.tenTo (d.power.toNat + 1), -1⟩ ∧
      (d.positional ++ ".0").toList = n.chars := by
  obtain ⟨c, cs, hdigits, -⟩ := exists_cons_toDigits d.digits
  have hlead := head?_toDigits hd
  refine ⟨⟨Nat.toDigits 10 d.digits ++ List.replicate d.power.toNat '0', ['0'], none, ?_, .inr ?_,
    ?_, fun _ => isDigit_zero⟩, .inl (by simp), ?_, ?_⟩
  · simp [Nat.toDigits_ne_nil]
  · simpa [hdigits] using hlead
  · intro c hc
    rcases List.mem_append.mp hc with hc | hc
    · exact isDigit_of_mem hc
    · exact isDigit_zeros hc
  · simp only [value, List.append_assoc, ← List.replicate_succ', digitsValue_append_zeros,
      digitsValue_toDigits]
    rfl
  · rw [String.toList_append, toList_positional_of_nonneg h]
    rfl

theorem exists_fraction {d : Decimal} (hd : d.digits ≠ 0) (h : d.power < 0) :
    ∃ n : Numeral, n.Marked ∧ n.value = d ∧ d.positional.toList = n.chars := by
  have hlen : (paddedDigits d).length = (-d.power).toNat + 1 - (Nat.toDigits 10 d.digits).length +
      (Nat.toDigits 10 d.digits).length := by simp [paddedDigits]
  generalize hcut : (paddedDigits d).length - (-d.power).toNat = cut
  have hplaces : ((paddedDigits d).drop cut).length = (-d.power).toNat := by
    rw [List.length_drop]
    omega
  have hne : (paddedDigits d).drop cut ≠ [] := by
    intro hnil
    rw [hnil, List.length_nil] at hplaces
    omega
  have hlead : ((paddedDigits d).take cut).length = 1 ∨
      ((paddedDigits d).take cut).head? ≠ some '0' := by
    by_cases hpadded : (-d.power).toNat + 1 - (Nat.toDigits 10 d.digits).length = 0
    · have hfirst := head?_toDigits hd
      obtain ⟨c, cs, hdigits, -⟩ := exists_cons_toDigits d.digits
      have hpos : cut ≠ 0 := by omega
      have hunpadded : paddedDigits d = c :: cs := by
        rw [paddedDigits, hpadded, hdigits]
        rfl
      right
      simpa [hunpadded, hdigits, List.head?_take, hpos] using hfirst
    · left
      rw [List.length_take]
      omega
  refine ⟨⟨(paddedDigits d).take cut, (paddedDigits d).drop cut, none, ?_, hlead,
    fun c hc => isDigit_paddedDigits (List.mem_of_mem_take hc),
    fun c hc => isDigit_paddedDigits (List.mem_of_mem_drop hc)⟩, .inl hne, ?_, ?_⟩
  · intro hnil
    have := congrArg List.length hnil
    rw [List.length_take, List.length_nil] at this
    omega
  · have hdigits : digitsValue 0 (paddedDigits d) = d.digits := by
      rw [paddedDigits, digitsValue_zeros_append, digitsValue_toDigits]
    have hpower : (0 : Int) - ((-d.power).toNat : Nat) = d.power := by omega
    simp only [value, List.take_append_drop, hplaces, Option.getD_none, hdigits, hpower]
  · rw [toList_positional_of_neg h, hcut]
    simp [chars, pointChars, exponentChars, hne]

end Numeral

/-- The text of a decimal is a numeral after its sign. -/
theorem exists_numeral (d : Decimal) : ∃ n : Numeral, n.Marked ∧ n.value = d.reread ∧
    ∀ negative, (decimalText negative d).toList = (if negative then ['-'] else []) ++ n.chars := by
  have hsign (text : String) (negative : Bool) :
      (if negative then "-" ++ text else text).toList =
        (if negative then ['-'] else []) ++ text.toList := by
    cases negative <;> simp
  have hpos := Binary32.length_toString_pos d.digits
  simp only [decimalText, hsign, Decimal.reread]
  by_cases hzero : d.digits = 0
  · exact ⟨.zero, .inl (by simp [Numeral.zero]), by simp [hzero]; rfl, by simp [hzero]; rfl⟩
  simp only [if_neg hzero]
  by_cases hfar : d.power + (toString d.digits).length ≤ -5 ∨ d.power + (toString d.digits).length >
    16
  · obtain ⟨n, hmarked, hvalue, htext⟩ := Numeral.exists_exponential d
    have hwhole : ¬(0 ≤ d.power ∧ d.power + (toString d.digits).length ≤ 16) := by omega
    exact ⟨n, hmarked, by rw [if_neg hwhole, hvalue],
      by simp only [if_pos hfar, htext, implies_true]⟩
  simp only [if_neg hfar]
  by_cases hpower : 0 ≤ d.power
  · obtain ⟨n, hmarked, hvalue, htext⟩ := Numeral.exists_whole hzero hpower
    have hwhole : 0 ≤ d.power ∧ d.power + (toString d.digits).length ≤ 16 := by omega
    exact ⟨n, hmarked, by rw [if_pos hwhole, hvalue], by
      simp only [ge_iff_le, if_pos hpower, htext, implies_true]⟩
  · obtain ⟨n, hmarked, hvalue, htext⟩ := Numeral.exists_fraction hzero (by omega)
    have hwhole : ¬(0 ≤ d.power ∧ d.power + (toString d.digits).length ≤ 16) := by omega
    exact ⟨n, hmarked, by rw [if_neg hwhole, hvalue], by
      simp only [ge_iff_le, if_neg hpower, htext, implies_true]⟩

theorem hexValue_hexDigit : ∀ n < 16, hexValue (hexDigit n) = some n := by decide

theorem readEscapedUnit_control {c : Char} (h : c.toNat < 32) (cs : Chars) :
    readEscapedUnit ('0' :: '0' :: hexDigit (c.toNat / 16) :: hexDigit (c.toNat % 16) :: cs) =
      some (c, cs) := by
  have hhigh := hexValue_hexDigit (c.toNat / 16) (by omega)
  have hlow := hexValue_hexDigit (c.toNat % 16) (by omega)
  have hnumber : c.toNat / 16 * 16 + c.toNat % 16 = c.toNat := by omega
  have hlead : ¬(0xD800 ≤ c.toNat ∧ c.toNat < 0xDC00) := by omega
  have htrail : ¬(0xDC00 ≤ c.toNat ∧ c.toNat < 0xE000) := by omega
  have hzero : hexValue '0' = some 0 := rfl
  simp [readEscapedUnit, readUnit, hhigh, hlow, hnumber, hlead, htrail, hzero]

/-- A character that is neither a mark of its own nor below the blank stands for itself. -/
theorem readQuoted_plain (fuel : Nat) (acc : Chars) {c : Char} (cs : Chars) (hquote : c ≠ '"')
    (hslash : c ≠ '\\') (hblank : ¬c.toNat < 32) :
    readQuoted (fuel + 1) acc (c :: cs) = readQuoted fuel (c :: acc) cs := by
  rw [readQuoted.eq_def]
  simp [hslash, hblank]

theorem readQuoted_escape (fuel : Nat) (acc : Chars) (c : Char) (cs : Chars) :
    readQuoted (fuel + 1) acc ((escape c).toList ++ cs) = readQuoted fuel (c :: acc) cs := by
  unfold escape
  split
  · rfl
  · rfl
  · rfl
  · rfl
  · rfl
  rename_i hquote hslash _ _ _
  by_cases hback : c.toNat = 8
  · rw [if_pos hback, ← Char.ofNat_toNat c, hback]
    rfl
  by_cases hfeed : c.toNat = 12
  · rw [if_neg hback, if_pos hfeed, ← Char.ofNat_toNat c, hfeed]
    rfl
  by_cases hcontrol : c.toNat < 32
  · have hunit := readEscapedUnit_control hcontrol cs
    simp [hback, hfeed, hcontrol, readQuoted, hunit]
  · simp only [if_neg hback, if_neg hfeed, if_neg hcontrol]
    simpa using readQuoted_plain fuel acc cs hquote hslash hcontrol

def quotedChars (cs : Chars) : Chars := cs.flatMap fun c => (escape c).toList

theorem readQuoted_quotedChars {fuel : Nat} {cs : Chars} (acc rest : Chars) (h : cs.length < fuel) :
    readQuoted fuel acc (quotedChars cs ++ '"' :: rest) =
      some (String.ofList (acc.reverse ++ cs), rest) := by
  induction cs generalizing fuel acc with
  | nil =>
    obtain ⟨fuel, rfl⟩ : ∃ n, fuel = n + 1 := ⟨fuel - 1, by simp at h; omega⟩
    simp [quotedChars, readQuoted]
  | cons c cs ih =>
    obtain ⟨fuel, rfl⟩ : ∃ n, fuel = n + 1 := ⟨fuel - 1, by simp at h; omega⟩
    have hrest := ih (c :: acc) (by simpa using h)
    simpa [quotedChars, readQuoted_escape] using hrest

theorem toList_quote (s : String) : (quote s).toList = '"' :: (quotedChars s.toList ++ ['"']) := by
  simp [quote, quotedChars, List.flatMap, List.map_map, Function.comp_def]

theorem length_escape_pos (c : Char) : 0 < (escape c).toList.length := by
  unfold escape
  split <;> try decide
  split_ifs <;> simp

theorem length_le_quotedChars (cs : Chars) : cs.length ≤ (quotedChars cs).length := by
  induction cs with
  | nil => simp
  | cons c cs ih =>
    have hpos := length_escape_pos c
    simp only [quotedChars, List.flatMap_cons, List.length_append, List.length_cons] at ih ⊢
    omega

end TensorGraph.Json
