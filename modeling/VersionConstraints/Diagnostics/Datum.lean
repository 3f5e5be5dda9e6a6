/-!
# Data

Some reports show a value. A datum is such a value, and its text is compact: no spaces, the fields
of a record in their order, and only those characters escaped that cannot stand in a quoted text.
-/

namespace VersionConstraints

/-- A value that a report can show. -/
inductive Datum
  | null
  | bool (b : Bool)
  | number (n : Int)
  | text (s : String)
  | list (items : List Datum)
  | record (fields : List (String × Datum))

namespace Datum

/-! ### Quoting -/

/-- A control character by the four digits of its code. -/
def escapeByCode (c : Char) : List Char :=
  let n := c.toNat
  ['\\', 'u', '0', '0', Nat.digitChar (n / 16), Nat.digitChar (n % 16)]

/-- A character as it stands in a quoted text. -/
def escape (c : Char) : List Char :=
  match c with
  | '"'    => ['\\', '"']
  | '\\'   => ['\\', '\\']
  | '\x08' => ['\\', 'b']
  | '\x0c' => ['\\', 'f']
  | '\n'   => ['\\', 'n']
  | '\r'   => ['\\', 'r']
  | '\t'   => ['\\', 't']
  | c      => if c.toNat < 0x20 then escapeByCode c else [c]

def quote (s : String) : List Char :=
  '"' :: (s.toList.flatMap escape ++ ['"'])

/-! ### Text -/

mutual

def chars : Datum → List Char
  | .null          => "null".toList
  | .bool b        => (if b then "true" else "false").toList
  | .number n      => (if n < 0 then ['-'] else []) ++ Nat.toDigits 10 n.natAbs
  | .text s        => quote s
  | .list items    => '[' :: (itemChars items ++ [']'])
  | .record fields => '\x7b' :: (fieldChars fields ++ ['\x7d'])

/-- The texts of the items of a list, with commas between them. -/
def itemChars : List Datum → List Char
  | []         => []
  | [d]        => chars d
  | d :: e :: ds => chars d ++ ',' :: itemChars (e :: ds)

/-- The texts of the fields of a record, with commas between them. -/
def fieldChars : List (String × Datum) → List Char
  | []                  => []
  | [(name, d)]         => quote name ++ ':' :: chars d
  | (name, d) :: f :: fs => quote name ++ ':' :: (chars d ++ ',' :: fieldChars (f :: fs))

end

/-- The message for a value of a closed type that has no case. -/
def unhandledMessage (what : String) (d : Datum) : String :=
  "Unhandled " ++ what ++ ": " ++ String.ofList d.chars

end Datum

end VersionConstraints
