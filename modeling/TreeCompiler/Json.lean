import TreeCompiler.Number.Decimal

/-!
# JSON values

A number is an integer or a floating-point number: integers are those that were written without
fraction and exponent and fit 64 bits, signed or unsigned. `Json.text` writes a value on one line.
-/

namespace TreeCompiler

open Number

inductive Json where
  | null
  | bool (b : Bool)
  | int (i : Int)
  | float (x : Double)
  | str (s : String)
  | arr (items : List Json)
  | obj (members : List (String × Json))
deriving Inhabited, Repr

namespace Json

mutual

/-- How many brackets and braces are open at once. -/
def depth : Json → Nat
  | .arr items => 1 + itemsDepth items
  | .obj members => 1 + membersDepth members
  | _ => 0

def itemsDepth : List Json → Nat
  | [] => 0
  | j :: rest => max (depth j) (itemsDepth rest)

def membersDepth : List (String × Json) → Nat
  | [] => 0
  | m :: rest => max (memberDepth m) (membersDepth rest)

def memberDepth : String × Json → Nat
  | (_, j) => depth j

end

def field? (j : Json) (key : String) : Option Json :=
  match j with
  | .obj members => members.lookup key
  | _ => none

/-- A record with fields of these names, as an object. The fields may also stand in an array, in
order, with the last ones left out. An object has none of them twice. -/
def record? (keys : List String) : Json → Option Json
  | .obj members =>
    if keys.all fun key => members.countP (·.1 == key) ≤ 1 then some (.obj members) else none
  | .arr items => if items.length ≤ keys.length then some (.obj (keys.zip items)) else none
  | _ => none

def str? : Json → Option String
  | .str s => some s
  | _ => none

def bool? : Json → Option Bool
  | .bool b => some b
  | _ => none

def int? : Json → Option Int
  | .int i => some i
  | _ => none

def u32? : Json → Option UInt32
  | .int (.ofNat n) => if n < UInt32.size then some (.ofNat n) else none
  | _ => none

def u64? : Json → Option UInt64
  | .int (.ofNat n) => if n < UInt64.size then some (.ofNat n) else none
  | _ => none

def arr? : Json → Option (List Json)
  | .arr items => some items
  | _ => none

/-- Absent stands for the default, and anything else is decoded. -/
def defaulted {α : Type} (default : α) (decode : Json → Option α) : Option Json → Option α
  | none => some default
  | some j => decode j

/-- Absent and null stand for nothing, and anything else is decoded. -/
def optional {α : Type} (decode : Json → Option α) : Option Json → Option (Option α)
  | none | some .null => some none
  | some j => (decode j).map some

def list? {α : Type} (decode : Json → Option α) : Json → Option (List α)
  | .arr items => items.mapM decode
  | _ => none

def ofOption {α : Type} (encode : α → Json) : Option α → Json
  | none => .null
  | some a => encode a

def ofList {α : Type} (encode : α → Json) (as : List α) : Json :=
  .arr (as.map encode)

def ofNat (n : Nat) : Json := .int n

/-! ## Text -/

def hexPair (n : Nat) : List Char :=
  [Nat.digitChar (n / 16 % 16), Nat.digitChar (n % 16)]

def escapeChar (c : Char) : List Char :=
  match c with
  | '"' => ['\\', '"']
  | '\\' => ['\\', '\\']
  | '\n' => ['\\', 'n']
  | '\r' => ['\\', 'r']
  | '\t' => ['\\', 't']
  | '\x08' => ['\\', 'b']
  | '\x0c' => ['\\', 'f']
  | _ => if c.toNat < 0x20 then ['\\', 'u', '0', '0'] ++ hexPair c.toNat else [c]

def quote (s : String) : String :=
  String.ofList ('"' :: s.toList.flatMap escapeChar ++ ['"'])

mutual

/-- The value on one line; a number that is not finite becomes null. -/
def text : Json → String
  | .null => "null"
  | .bool b => if b then "true" else "false"
  | .int i => toString i
  | .float x => if x.isFinite then x.precise else "null"
  | .str s => quote s
  | .arr items => "[" ++ itemsText items ++ "]"
  | .obj members => "\x7b" ++ membersText members ++ "\x7d"

def itemsText : List Json → String
  | [] => ""
  | [j] => text j
  | j :: rest => text j ++ "," ++ itemsText rest

def membersText : List (String × Json) → String
  | [] => ""
  | [m] => memberText m
  | m :: rest => memberText m ++ "," ++ membersText rest

def memberText : String × Json → String
  | (key, j) => quote key ++ ":" ++ text j

end

end Json

end TreeCompiler
