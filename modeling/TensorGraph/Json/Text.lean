import TensorGraph.Json.Decode

/-!
Texts of JSON values. What writes and reads them is no part of the library: of a text form it is
known only that a written value is read again, where a real number keeps its value if it is finite
and becomes null if it is not. The compact form is one of them if the digits with which it writes
numbers are read back. It has no white space; its readers take characters and give a value with the
characters after it, and limit numbers to the range of double precision.
-/

namespace TensorGraph

/-- A way to write JSON values and to read them, with what a finite number is read as. -/
structure TextForm where
  write : Json → String
  read : String → Option Json
  number : Float32 → Json

namespace Json

open Binary32 (Decimal)

mutual

/-- The value that the text of a value is read as, for what finite numbers are read as. -/
def reread (number : Float32 → Json) : Json → Json
  | null => null
  | bool b => bool b
  | int n => int n
  | decimal negative d => decimal negative d
  | float x => if x.isFinite then number x else null
  | string s => string s
  | array items => array (rereadItems number items)
  | object fields => object (rereadFields number fields)

def rereadItems (number : Float32 → Json) : List Json → List Json
  | [] => []
  | j :: js => reread number j :: rereadItems number js

def rereadFields (number : Float32 → Json) : List (String × Json) → List (String × Json)
  | [] => []
  | (name, j) :: fields => (name, reread number j) :: rereadFields number fields

end

/-- Whether a value can be written: its integers have 64 bits, the fields of an object have
different names, and lists and objects are nested at most so deep. -/
inductive Writable : Nat → Json → Prop where
  | null {depth : Nat} : Writable depth null
  | bool {depth : Nat} (b : Bool) : Writable depth (bool b)
  | int {depth : Nat} {n : Int} (least : -(intLimit : Int) ≤ n) (most : n < sizeLimit) :
      Writable depth (int n)
  | float {depth : Nat} (x : Float32) : Writable depth (float x)
  | string {depth : Nat} (s : String) : Writable depth (string s)
  | array {depth : Nat} {items : List Json} (all : ∀ j ∈ items, Writable depth j) :
      Writable (depth + 1) (array items)
  | object {depth : Nat} {fields : List (String × Json)}
      (all : ∀ field ∈ fields, Writable depth field.2) (distinct : (fields.map Prod.fst).Nodup) :
      Writable (depth + 1) (object fields)

def nestingLimit : Nat := 127

end Json

/-- What is written is read again, and a finite number is read as a number that stands for it. -/
structure TextForm.Faithful (form : TextForm) : Prop where
  read_write : ∀ j, j.Writable Json.nestingLimit →
    form.read (form.write j) = some (j.reread form.number)
  toFloat_number : ∀ x, x.isFinite = true → (form.number x).toFloat = .ok x

namespace Json

open Binary32 (Decimal)

section

variable (digits : Float32 → Decimal)

mutual

/-- The compact text, where finite numbers have the given digits. -/
def text : Json → String
  | null => "null"
  | bool b => if b then "true" else "false"
  | int n => toString n
  | decimal negative d => decimalText negative d
  | float x => if x.isFinite then decimalText (Binary32.isNegative x) (digits x) else "null"
  | string s => quote s
  | array items => "[" ++ ",".intercalate (itemTexts items) ++ "]"
  | object fields => "\x7b" ++ ",".intercalate (fieldTexts fields) ++ "\x7d"

def itemTexts : List Json → List String
  | [] => []
  | j :: js => text j :: itemTexts js

def fieldTexts : List (String × Json) → List String
  | [] => []
  | (name, j) :: fields => (quote name ++ ":" ++ text j) :: fieldTexts fields

end

end

abbrev Chars := List Char

def skipBlanks (cs : Chars) : Chars :=
  cs.dropWhile fun c => c = ' ' || c = '\n' || c = '\r' || c = '\t'

def hexValue (c : Char) : Option Nat :=
  if c.isDigit then some (c.toNat - 48)
  else if 'a' ≤ c ∧ c ≤ 'f' then some (c.toNat - 87)
  else if 'A' ≤ c ∧ c ≤ 'F' then some (c.toNat - 55)
  else none

def readUnit : Chars → Option (Nat × Chars)
  | a :: b :: c :: d :: rest => do
    let a ← hexValue a
    let b ← hexValue b
    let c ← hexValue c
    let d ← hexValue d
    return (((a * 16 + b) * 16 + c) * 16 + d, rest)
  | _ => none

/-- The character of a `\u` escape, which takes two units beyond the first plane. -/
def readEscapedUnit (cs : Chars) : Option (Char × Chars) := do
  let (n, rest) ← readUnit cs
  if 0xD800 ≤ n ∧ n < 0xDC00 then
    match rest with
    | '\\' :: 'u' :: rest =>
      let (m, rest) ← readUnit rest
      if 0xDC00 ≤ m ∧ m < 0xE000 then
        return (Char.ofNat (0x10000 + (n - 0xD800) * 0x400 + (m - 0xDC00)), rest)
      else none
    | _ => none
  else if 0xDC00 ≤ n ∧ n < 0xE000 then none
  else return (Char.ofNat n, rest)

/-- The characters up to a closing quotation mark; `acc` holds those before, the last one first. -/
def readQuoted : Nat → Chars → Chars → Option (String × Chars)
  | 0, _, _ => none
  | _, _, [] => none
  | _ + 1, acc, '"' :: rest => some (String.ofList acc.reverse, rest)
  | fuel + 1, acc, '\\' :: 'u' :: rest => do
    let (c, rest) ← readEscapedUnit rest
    readQuoted fuel (c :: acc) rest
  | fuel + 1, acc, '\\' :: e :: rest =>
    match e with
    | '"' => readQuoted fuel ('"' :: acc) rest
    | '\\' => readQuoted fuel ('\\' :: acc) rest
    | '/' => readQuoted fuel ('/' :: acc) rest
    | 'b' => readQuoted fuel (Char.ofNat 8 :: acc) rest
    | 'f' => readQuoted fuel (Char.ofNat 12 :: acc) rest
    | 'n' => readQuoted fuel ('\n' :: acc) rest
    | 'r' => readQuoted fuel ('\r' :: acc) rest
    | 't' => readQuoted fuel ('\t' :: acc) rest
    | _ => none
  | fuel + 1, acc, c :: rest =>
    if c = '\\' ∨ c.toNat < 32 then none else readQuoted fuel (c :: acc) rest

/-- The value of decimal digits read after `n`. -/
def digitsValue (n : Nat) (cs : Chars) : Nat := cs.foldl (fun n c => n * 10 + (c.toNat - 48)) n

/-- The exponent of a number, zero if it has none. -/
def readExponent : Chars → Option (Option Int × Chars)
  | c :: rest =>
    if c = 'e' ∨ c = 'E' then
      let (negative, rest) := match rest with
        | '-' :: rest => (true, rest)
        | '+' :: rest => (false, rest)
        | rest => (false, rest)
      let digits := rest.takeWhile Char.isDigit
      if digits.isEmpty then none
      else
        let n : Int := digitsValue 0 digits
        some (some (if negative then -n else n), rest.dropWhile Char.isDigit)
    else some (none, c :: rest)
  | [] => some (none, [])

/-- Whether a decimal rounds to a finite number of double precision. -/
def inRange (d : Decimal) : Bool :=
  let point := d.power + (toString d.digits).length
  if d.digits = 0 ∨ point ≤ 308 then true
  else if point > 309 then false
  else
    let (num, den) := Binary32.scaleTen d.digits 1 d.power
    (Binary32.double.round num den).isSome

def decimalOf (negative : Bool) (d : Decimal) : Option Json :=
  if inRange d then some (.decimal negative d) else none

/-- A number without point and exponent is an integer if 64 bits hold it, else a decimal, as is
zero with a sign. -/
def wholeOf (negative : Bool) (n : Nat) : Option Json :=
  if negative then
    if n = 0 ∨ n > intLimit then decimalOf true ⟨n, 0⟩ else some (.int (-(n : Int)))
  else if n < sizeLimit then some (.int n)
  else decimalOf false ⟨n, 0⟩

def readMagnitude (negative : Bool) (cs : Chars) : Option (Json × Chars) := do
  let whole := cs.takeWhile Char.isDigit
  let rest := cs.dropWhile Char.isDigit
  if whole.isEmpty ∨ (whole.length > 1 ∧ whole.head? = some '0') then none
  let n := digitsValue 0 whole
  let (places, rest) ← match rest with
    | '.' :: rest =>
      let places := rest.takeWhile Char.isDigit
      if places.isEmpty then none else some (places, rest.dropWhile Char.isDigit)
    | rest => some ([], rest)
  let (exponent, rest) ← readExponent rest
  let j ←
    if places.isEmpty ∧ exponent.isNone then wholeOf negative n
    else decimalOf negative ⟨digitsValue n places, exponent.getD 0 - places.length⟩
  return (j, rest)

mutual

/-- A value after blanks. The fuel bounds the nesting and the length of lists. -/
def readValue : Nat → Chars → Option (Json × Chars)
  | 0, _ => none
  | fuel + 1, cs =>
    match skipBlanks cs with
    | 'n' :: 'u' :: 'l' :: 'l' :: rest => some (.null, rest)
    | 't' :: 'r' :: 'u' :: 'e' :: rest => some (.bool true, rest)
    | 'f' :: 'a' :: 'l' :: 's' :: 'e' :: rest => some (.bool false, rest)
    | '"' :: rest => do
      let (s, rest) ← readQuoted (rest.length + 1) [] rest
      return (.string s, rest)
    | '[' :: rest =>
      match skipBlanks rest with
      | ']' :: rest => some (.array [], rest)
      | rest => do
        let (items, rest) ← readItems fuel rest
        return (.array items, rest)
    | '\x7b' :: rest =>
      match skipBlanks rest with
      | '\x7d' :: rest => some (.object [], rest)
      | rest => do
        let (fields, rest) ← readFields fuel rest
        return (.object fields, rest)
    | '-' :: rest => readMagnitude true rest
    | rest => readMagnitude false rest

def readItems : Nat → Chars → Option (List Json × Chars)
  | 0, _ => none
  | fuel + 1, cs => do
    let (j, rest) ← readValue fuel cs
    match skipBlanks rest with
    | ',' :: rest => do
      let (js, rest) ← readItems fuel rest
      return (j :: js, rest)
    | ']' :: rest => return ([j], rest)
    | _ => none

def readFields : Nat → Chars → Option (List (String × Json) × Chars)
  | 0, _ => none
  | fuel + 1, cs =>
    match skipBlanks cs with
    | '"' :: rest => do
      let (name, rest) ← readQuoted (rest.length + 1) [] rest
      match skipBlanks rest with
      | ':' :: rest => do
        let (j, rest) ← readValue fuel rest
        match skipBlanks rest with
        | ',' :: rest => do
          let (fields, rest) ← readFields fuel rest
          return ((name, j) :: fields, rest)
        | '\x7d' :: rest => return ([(name, j)], rest)
        | _ => none
      | _ => none
    | _ => none

end

/-- The value that a text holds, with nothing but blanks around it. -/
def parse (s : String) : Option Json := do
  let cs := s.toList
  let (j, rest) ← readValue (cs.length + 1) cs
  if (skipBlanks rest).isEmpty then return j else none

end Json

/-- The compact form that writes finite numbers with the given digits. -/
def TextForm.compact (digits : Float32 → Binary32.Decimal) : TextForm where
  write := Json.text digits
  read := Json.parse
  number x := .decimal (Binary32.isNegative x) (digits x).reread

end TensorGraph
