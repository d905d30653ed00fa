import TensorGraph.Json.Basic
import TensorGraph.Word

/-!
Reading values out of JSON. A record is an object with named fields; a case of a type is a string,
or an object whose only field names the case and holds its record.
-/

namespace TensorGraph

open Binary32 (Decimal)

/-- Why a JSON value does not stand for a value of the wanted type. -/
inductive DecodeError where
  | missingField (name : String)
  | unknownField (name : String) (known : List String)
  | unknownCase (name : String)
  | wrongType (found expected : String)
  | wrongValue (found expected : String)
  | wrongLength (found : Nat) (expected : String)
  | elementCount
  deriving DecidableEq, Repr

def DecodeError.ticked (name : String) : String := "`" ++ name ++ "`"

def DecodeError.oneOf : List String → String
  | [] => "there are no fields"
  | [a] => "expected " ++ ticked a
  | [a, b] => "expected " ++ ticked a ++ " or " ++ ticked b
  | names => "expected one of " ++ ", ".intercalate (names.map ticked)

def DecodeError.message : DecodeError → String
  | missingField name => "missing field " ++ ticked name
  | unknownField name known => "unknown field " ++ ticked name ++ ", " ++ oneOf known
  | unknownCase name => "unknown variant " ++ ticked name
  | wrongType found expected => "invalid type: " ++ found ++ ", expected " ++ expected
  | wrongValue found expected => "invalid value: " ++ found ++ ", expected " ++ expected
  | wrongLength found expected => "invalid length " ++ toString found ++ ", expected " ++ expected
  | elementCount => "data length does not match shape product"

namespace Json

def description : Json → String
  | null => "null"
  | bool b => "boolean " ++ DecodeError.ticked (toString b)
  | int n => "integer " ++ DecodeError.ticked (toString n)
  | decimal negative d =>
    "floating point " ++ DecodeError.ticked (decimalText negative d.toDouble)
  | float x =>
    "floating point " ++
      DecodeError.ticked (decimalText (Binary32.isNegative x) (Binary32.exact x).toDouble)
  | string s => "string " ++ quote s
  | array _ => "sequence"
  | object _ => "map"

abbrev Decoded := Outcome DecodeError

def wrongType (j : Json) (expected : String) : Decoded α :=
  .error (.wrongType j.description expected)

def toInt : Json → Decoded Int64
  | int n =>
    if FitsInt n then .ok (Int64.ofInt n)
    else .error (.wrongValue (int n).description "i64")
  | j => j.wrongType "i64"

def toSize : Json → Decoded Nat
  | int n =>
    if 0 ≤ n ∧ n < sizeLimit then .ok n.toNat
    else .error (.wrongValue (int n).description "usize")
  | j => j.wrongType "usize"

def toFloat : Json → Decoded Float32
  | int n => .ok (Binary32.ofInt n)
  | decimal negative d => .ok (Binary32.ofDecimal negative d)
  | float x => .ok x
  | j => j.wrongType "f32"

def toBool : Json → Decoded Bool
  | bool b => .ok b
  | j => j.wrongType "a boolean"

def toText : Json → Decoded String
  | string s => .ok s
  | j => j.wrongType "a string"

def toList (f : Json → Decoded α) : Json → Decoded (List α)
  | array items => items.mapM f
  | j => j.wrongType "a sequence"

def toOption (f : Json → Decoded α) : Json → Decoded (Option α)
  | null => .ok none
  | j => return some (← f j)

def field (name : String) (f : Json → Decoded α) (j : Json) : Decoded α := do
  f (← .orRefuse (.missingField name) (j.field? name))

def optional (name : String) (f : Json → Decoded α) (j : Json) : Decoded (Option α) :=
  match j.field? name with
  | none => .ok none
  | some value => value.toOption f

/-- A record with the given fields, which may also be written as the list of their values. -/
def toRecord (type : String) (names : List String) : Json → Decoded Json
  | object fields => .ok (object fields)
  | array items =>
    if items.length = names.length then .ok (object (names.zip items))
    else .error (.wrongLength items.length ("struct " ++ type))
  | j => j.wrongType ("struct " ++ type)

/-- The name of a case and the record that comes with it, which is null for a bare name. -/
def toCase : Json → Decoded (String × Json)
  | string name => .ok (name, null)
  | object [(name, j)] => .ok (name, j)
  | object fields => .error (.wrongLength fields.length "map with a single key")
  | j => j.wrongType "a variant"

def toPlainCase (cases : List (String × α)) (j : Json) : Decoded α := do
  let (name, record) ← j.toCase
  let a ← .orRefuse (.unknownCase name) (cases.lookup name)
  match record with
  | null => return a
  | record => record.wrongType "unit variant"

def ofBool (b : Bool) : Json := .bool b
def ofInt (n : Int64) : Json := .int n.toInt
def ofSize (n : Nat) : Json := .int n
def ofFloat (x : Float32) : Json := .float x
def ofOption (f : α → Json) : Option α → Json
  | some a => f a
  | none => .null

def tagged (name : String) (j : Json) : Json := .object [(name, j)]

def ofCase (name : String) (fields : List (String × Json)) : Json := tagged name (.record fields)

end Json

end TensorGraph
