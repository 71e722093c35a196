import TreeCompiler.Text.Hidden

/-!
# Quoted text

Two ways of writing a text inside quotes. `Quoted.shown` keeps every character that has a shape of
its own; `Quoted.ascii` keeps printable ASCII only. Both write the others by number.
-/

namespace TreeCompiler.Text.Quoted

/-- `\u{...}` with the code point in lower-case hexadecimal. -/
def byNumber (c : Char) : List Char :=
  ['\\', 'u', '\x7b'] ++ Nat.toDigits 16 c.toNat ++ ['\x7d']

/-- A character as it stands between two `quote`s. -/
def shownChar (quote c : Char) : List Char :=
  match c with
  | '\x00' => ['\\', '0']
  | '\t' => ['\\', 't']
  | '\r' => ['\\', 'r']
  | '\n' => ['\\', 'n']
  | '\\' => ['\\', '\\']
  | _ =>
    if c == quote then ['\\', c]
    else if isHidden c then byNumber c
    else [c]

def asciiChar (c : Char) : List Char :=
  match c with
  | '\t' => ['\\', 't']
  | '\r' => ['\\', 'r']
  | '\n' => ['\\', 'n']
  | '\'' => ['\\', '\'']
  | '"' => ['\\', '"']
  | '\\' => ['\\', '\\']
  | _ => if 0x20 ≤ c.toNat && c.toNat ≤ 0x7e then [c] else byNumber c

def char (c : Char) : String :=
  String.ofList ('\'' :: shownChar '\'' c ++ ['\''])

def shown (s : String) : String :=
  String.ofList ('"' :: s.toList.flatMap (shownChar '"') ++ ['"'])

/-- A text in double quotes, in printable ASCII. -/
def ascii (s : String) : String :=
  String.ofList ('"' :: s.toList.flatMap asciiChar ++ ['"'])

end TreeCompiler.Text.Quoted
