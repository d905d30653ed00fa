import TensorGraph.Binary32.Decimal

/-!
JSON values. Integers and decimals are told apart as they are written: a decimal has a point or an
exponent, and keeps its sign also at zero. A value that is to be written holds real numbers, whose
digits are left to what writes them.
-/

namespace TensorGraph

open Binary32 (Decimal)

inductive Json where
  | null
  | bool (b : Bool)
  | int (n : Int)
  | decimal (negative : Bool) (value : Decimal)
  | float (x : Float32)
  | string (s : String)
  | array (items : List Json)
  | object (fields : List (String × Json))
  deriving Repr

namespace Json

instance : Inhabited Json := ⟨null⟩

/-- A decimal from `10 ^ -5` up to `10 ^ 16` is written with a point, others with an exponent. -/
def decimalText (negative : Bool) (d : Decimal) : String :=
  let point := d.power + (toString d.digits).length
  let text :=
    if d.digits = 0 then "0.0"
    else if point ≤ -5 ∨ point > 16 then d.exponential
    else if d.power ≥ 0 then d.positional ++ ".0"
    else d.positional
  if negative then "-" ++ text else text

def hexDigit (n : Nat) : Char := if n < 10 then Char.ofNat (48 + n) else Char.ofNat (87 + n)

/-- A character as it stands between quotation marks. -/
def escape (c : Char) : String :=
  match c with
  | '"' => "\\\""
  | '\\' => "\\\\"
  | '\n' => "\\n"
  | '\r' => "\\r"
  | '\t' => "\\t"
  | c =>
    if c.toNat = 8 then "\\b"
    else if c.toNat = 12 then "\\f"
    else if c.toNat < 32 then
      "\\u00" ++ String.ofList [hexDigit (c.toNat / 16), hexDigit (c.toNat % 16)]
    else c.toString

def quote (s : String) : String := "\"" ++ String.join (s.toList.map escape) ++ "\""

def record (fields : List (String × Json)) : Json := .object fields

def field? (name : String) : Json → Option Json
  | object fields => fields.lookup name
  | _ => none

end Json

end TensorGraph
