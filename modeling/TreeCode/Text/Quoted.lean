import TreeCode.Text.Hidden

/-!
# Quoted text

Two ways of writing a string between quotes. `quoted` serves listings and
traces: characters that do not show are written by their number. `shown`
serves messages: only the control characters are.
-/

namespace TreeCode.Text

/-- Digits of a number in base sixteen, in lower case. -/
def hex (n : Nat) : String := String.ofList (Nat.toDigits 16 n)

/-- A character by its number, with at least `width` digits. -/
def byNumber (width : Nat) (c : Char) : String :=
  let digits := hex c.toNat
  "\\u\x7b" ++ "".pushn '0' (width - digits.length) ++ digits ++ "\x7d"

/-- A character inside `quoted` text. -/
def quotedChar (c : Char) : String :=
  if c == '"' then "\\\""
  else if c == '\\' then "\\\\"
  else if c == '\n' then "\\n"
  else if c == '\r' then "\\r"
  else if c == '\t' then "\\t"
  else if c == '\x00' then "\\0"
  else if isHidden c then byNumber 0 c
  else c.toString

/-- A string between quotes, as in listings and traces. -/
def quoted (s : String) : String :=
  s.foldl (fun out c => out ++ quotedChar c) "\"" ++ "\""

/-- Control characters: the code points below the space and the block that
starts at delete. -/
def isControl (c : Char) : Bool :=
  c.toNat < 0x20 || (0x7f ≤ c.toNat && c.toNat ≤ 0x9f)

/-- A character inside `shown` text. -/
def shownChar (c : Char) : String :=
  if c == '"' then "\\\""
  else if c == '\\' then "\\\\"
  else if c == '\n' then "\\n"
  else if c == '\r' then "\\r"
  else if c == '\t' then "\\t"
  else if isControl c then byNumber 4 c
  else c.toString

/-- A string between quotes, as in messages. -/
def shown (s : String) : String :=
  s.foldl (fun out c => out ++ shownChar c) "\"" ++ "\""

/-- Items between brackets, separated by commas. -/
def bracketed (items : List String) : String := "[" ++ ", ".intercalate items ++ "]"

/-- A record: its name and its fields between braces. -/
def record (name : String) (fields : List (String × String)) : String :=
  name ++ " \x7b " ++ ", ".intercalate (fields.map fun (f, v) => f ++ ": " ++ v) ++ " \x7d"

/-- A tagged value: `Tag(value)`. -/
def tagged (tag value : String) : String := tag ++ "(" ++ value ++ ")"

/-- An optional text: `Some(text)` or `None`. -/
def someOrNone : Option String → String
  | some s => tagged "Some" s
  | none => "None"

end TreeCode.Text
