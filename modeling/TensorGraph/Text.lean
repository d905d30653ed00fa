/-!
Texts of lists, names and table cells, as errors and reports show them.
-/

namespace TensorGraph.Text

/-- Items in brackets, such as `[1, 2]`. -/
def bracketed (items : List String) : String := "[" ++ ", ".intercalate items ++ "]"

def sizes (ns : List Nat) : String := bracketed (ns.map toString)

def quoted (name : String) : String := "\"" ++ name ++ "\""

def left (width : Nat) (s : String) : String := s.pushn ' ' (width - s.length)

def right (width : Nat) (s : String) : String := "".pushn ' ' (width - s.length) ++ s

/-- The main ranges of characters without a picture of their own: controls, blanks other than the
space, marks on the character before, and private characters. -/
def hiddenRanges : List (Nat × Nat) :=
  [(0, 31), (127, 160), (173, 173), (0x300, 0x36f), (0x1680, 0x1680), (0x2000, 0x200f),
    (0x2028, 0x202f), (0x205f, 0x206f), (0x3000, 0x3000), (0xe000, 0xf8ff), (0xfe00, 0xfe0f),
    (0xfeff, 0xfeff)]

def isHidden (c : Char) : Bool := hiddenRanges.any fun (lo, hi) => lo ≤ c.toNat && c.toNat ≤ hi

def escape (c : Char) : String :=
  match c with
  | '"' => "\\\""
  | '\\' => "\\\\"
  | '\n' => "\\n"
  | '\r' => "\\r"
  | '\t' => "\\t"
  | c =>
    if c.toNat = 0 then "\\0"
    else if isHidden c then "\\u\x7b" ++ String.ofList (Nat.toDigits 16 c.toNat) ++ "\x7d"
    else c.toString

/-- A name in quotation marks, of which each character can be told. -/
def escaped (name : String) : String := quoted (String.join (name.toList.map escape))

end TensorGraph.Text
