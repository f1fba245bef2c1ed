/-!
# Text of numbers and records

The few formats that messages and snapshots are made of: lower-case hexadecimal, right-aligned
columns, and records with named fields.
-/

namespace RegionHeap.Text

/-- A number in lower-case hexadecimal, without leading zeros. -/
def hex (n : Nat) : String :=
  String.ofList (Nat.toDigits 16 n)

/-- An address: `0x` and hexadecimal digits. -/
def address (n : Nat) : String :=
  "0x" ++ hex n

/-- A text with copies of `c` in front, so that it has at least `width` characters. -/
def padded (width : Nat) (c : Char) (s : String) : String :=
  String.ofList (s.toList.leftpad width c)

/-- A number right-aligned in a column of eight characters. -/
def column (n : Nat) : String :=
  padded 8 ' ' (toString n)

/-- A value that may be absent. -/
def optional {α : Type} (value : α → String) : Option α → String
  | none => "None"
  | some x => "Some(" ++ value x ++ ")"

/-- A record with its fields in order, or its bare name if it has none. -/
def record (name : String) : List (String × String) → String
  | [] => name
  | fields =>
    name ++ " \x7b " ++ ", ".intercalate (fields.map fun f => f.1 ++ ": " ++ f.2) ++ " \x7d"

end RegionHeap.Text
