import TreeCompiler.Json
import TreeCompiler.Text.Lines

/-!
# Reading JSON text

Reading goes from left to right and stops at the first fault. `Reader.object` and `Reader.array`
walk over members and items and leave it to their argument to read each, so that a caller can stop
at a member that does not suit it before the rest of the text is looked at. What repeats is bounded
by `fuel`, for which any number above the length of the text will do.
-/

namespace TreeCompiler.Json

open Number

inductive Fault where
  /-- The text ends too early. -/
  | endOfText
  /-- The text is not JSON. -/
  | malformed
  /-- The value is not of the kind that is wanted. -/
  | mismatch
deriving DecidableEq, Repr

namespace Reader

abbrev Read (α : Type) := α × List Char

def isBlank (c : Char) : Bool :=
  c == ' ' || c == '\n' || c == '\t' || c == '\r'

def skipBlank (cs : List Char) : List Char :=
  cs.dropWhile isBlank

/-- The rules for a value: how many levels may still open, and whether what it says has to make
sense, which matters for numbers out of range and for halves of character pairs. -/
structure Rules where
  depth : Nat
  checked : Bool

/-! ## Words -/

def word : List Char → List Char → Except Fault (List Char)
  | [], cs => .ok cs
  | _ :: _, [] => .error .endOfText
  | w :: ws, c :: cs => if w = c then word ws cs else .error .malformed

/-! ## Strings -/

def hexDigit? (c : Char) : Option Nat :=
  if '0' ≤ c ∧ c ≤ '9' then some (c.toNat - '0'.toNat)
  else if 'a' ≤ c ∧ c ≤ 'f' then some (c.toNat - 'a'.toNat + 10)
  else if 'A' ≤ c ∧ c ≤ 'F' then some (c.toNat - 'A'.toNat + 10)
  else none

/-- Four hexadecimal digits, which take four bytes. -/
def hexUnit (cs : List Char) : Except Fault (Read Nat) :=
  match cs with
  | a :: b :: c :: d :: rest =>
    match hexDigit? a, hexDigit? b, hexDigit? c, hexDigit? d with
    | some a, some b, some c, some d => .ok (((a * 16 + b) * 16 + c) * 16 + d, rest)
    | _, _, _, _ => .error .malformed
  | few =>
    if Text.byteLength few < 4 then .error .endOfText else .error .malformed

def lowUnit (high : Nat) : List Char → Except Fault (Read Char)
  | [] => .error .endOfText
  | ['\\'] => .error .endOfText
  | '\\' :: 'u' :: cs => do
    let (low, cs) ← hexUnit cs
    if 0xDC00 ≤ low ∧ low ≤ 0xDFFF then
      .ok (Char.ofNat ((high - 0xD800) * 0x400 + (low - 0xDC00) + 0x10000), cs)
    else .error .malformed
  | _ => .error .malformed

def escape (checked : Bool) : List Char → Except Fault (Read Char)
  | [] => .error .endOfText
  | '"' :: cs => .ok ('"', cs)
  | '\\' :: cs => .ok ('\\', cs)
  | '/' :: cs => .ok ('/', cs)
  | 'b' :: cs => .ok ('\x08', cs)
  | 'f' :: cs => .ok ('\x0c', cs)
  | 'n' :: cs => .ok ('\n', cs)
  | 'r' :: cs => .ok ('\r', cs)
  | 't' :: cs => .ok ('\t', cs)
  | 'u' :: cs => do
    let (unit, cs) ← hexUnit cs
    if unit < 0xD800 ∨ 0xDFFF < unit then .ok (Char.ofNat unit, cs)
    else if !checked then .ok ('\ufffd', cs)
    else if unit < 0xDC00 then lowUnit unit cs
    else .error .malformed
  | _ => .error .malformed

/-- The characters up to the closing quote, gathered in reverse. -/
def characters (checked : Bool) : Nat → List Char → List Char → Except Fault (Read String)
  | 0, _, _ => .error .endOfText
  | _, _, [] => .error .endOfText
  | fuel + 1, seen, c :: cs =>
    if c = '"' then .ok (String.ofList seen.reverse, cs)
    else if c = '\\' then do
      let (c, cs) ← escape checked cs
      characters checked fuel (c :: seen) cs
    else if c.toNat < 0x20 then .error .malformed
    else characters checked fuel (c :: seen) cs

def string (fuel : Nat) (checked : Bool) (cs : List Char) : Except Fault (Read String) :=
  characters checked fuel [] cs

/-! ## Numbers -/

def isDigit (c : Char) : Bool :=
  '0' ≤ c && c ≤ '9'

def digitValue (c : Char) : Nat :=
  c.toNat - '0'.toNat

/-- Takes digits as long as the number fits 64 bits; the second part are the digits left. -/
def gather (n : Nat) : List Char → Nat × List Char
  | [] => (n, [])
  | c :: cs =>
    let m := n * 10 + digitValue c
    if m < pow2 64 then gather m cs else (n, c :: cs)

structure Written where
  negative : Bool
  whole : List Char
  fraction : Option (List Char)
  exponent : Option Int

/-- The significand keeps the digits that fit 64 bits; further ones of the whole part count for the
exponent, further ones of the fraction for nothing. -/
def Written.double? (w : Written) : Option Double :=
  let (n, left) := gather 0 w.whole
  let fraction := w.fraction.getD []
  let (n, dropped) := gather n fraction
  let exponent : Int := left.length - (fraction.length - dropped.length : Nat)
  match w.exponent with
  | none => (Double.ofNat n).scaled exponent
  | some e =>
    if pow2 31 ≤ e.natAbs then if n ≠ 0 ∧ 0 < e then none else some (Double.ofNat 0)
    else (Double.ofNat n).scaled (exponent + e)

def Written.value? (w : Written) : Option Json :=
  let (n, left) := gather 0 w.whole
  let double := w.double?.map fun x => Json.float (if w.negative then x.neg else x)
  if w.fraction.isSome ∨ w.exponent.isSome ∨ left ≠ [] then double
  else if !w.negative then some (.int n)
  else if n = 0 ∨ pow2 63 < n then double
  else some (.int (-n))

def digits (cs : List Char) : List Char × List Char :=
  (cs.takeWhile isDigit, cs.dropWhile isDigit)

def digits1 (checked : Bool) (cs : List Char) : Except Fault (Read (List Char)) :=
  match digits cs with
  | ([], []) => .error (if checked then .endOfText else .malformed)
  | ([], _) => .error .malformed
  | found => .ok found

/-- The digits before the point, without a leading zero. -/
def wholePart (checked : Bool) (cs : List Char) : Except Fault (Read (List Char)) := do
  let (ds, cs) ← digits1 checked cs
  if ds.length ≠ 1 ∧ ds.head? = some '0' then .error .malformed else .ok (ds, cs)

def fractionPart (checked : Bool) : List Char → Except Fault (Read (Option (List Char)))
  | '.' :: cs => do
    let (ds, cs) ← digits1 checked cs
    .ok (some ds, cs)
  | cs => .ok (none, cs)

def exponentDigits (checked negative : Bool) (cs : List Char) : Except Fault (Read (Option Int)) := do
  let (ds, cs) ← digits1 checked cs
  let n : Int := (ds.foldl (fun n c => n * 10 + digitValue c) 0 : Nat)
  .ok (some (if negative then -n else n), cs)

def exponentPart (checked : Bool) : List Char → Except Fault (Read (Option Int))
  | 'e' :: cs | 'E' :: cs =>
    match cs with
    | '-' :: cs => exponentDigits checked true cs
    | '+' :: cs => exponentDigits checked false cs
    | cs => exponentDigits checked false cs
  | cs => .ok (none, cs)

def number (checked negative : Bool) (cs : List Char) : Except Fault (Read Json) := do
  let (whole, cs) ← wholePart checked cs
  let (fraction, cs) ← fractionPart checked cs
  let (exponent, cs) ← exponentPart checked cs
  match Written.value? { negative, whole, fraction, exponent } with
  | some j => .ok (j, cs)
  | none => if checked then .error .malformed else .ok (.null, cs)

/-! ## Members and items -/

variable {σ : Type}

def colon (cs : List Char) : Except Fault (List Char) :=
  match skipBlank cs with
  | ':' :: cs => .ok cs
  | [] => .error .endOfText
  | _ => .error .malformed

/-- The members that are left, after the first or before it. `read` gets a key and goes on before
the colon, so that it can refuse the key. -/
def members (bound : Nat) (checked : Bool)
    (read : σ → String → List Char → Except Fault (Read σ)) :
    Nat → Bool → σ → List Char → Except Fault (Read σ)
  | 0, _, _, _ => .error .endOfText
  | fuel + 1, first, s, cs =>
    match skipBlank cs with
    | [] => .error .endOfText
    | '\x7d' :: cs => .ok (s, cs)
    | c :: cs =>
      let next (cs : List Char) : Except Fault (Read σ) := do
        let (k, cs) ← string bound checked cs
        let (s, cs) ← read s k cs
        members bound checked read fuel false s cs
      if first then if c = '"' then next cs else .error .malformed
      else if c = ',' then
        match skipBlank cs with
        | '"' :: cs => next cs
        | [] => .error .endOfText
        | _ => .error .malformed
      else .error .malformed

def object (fuel : Nat) (checked : Bool) (read : σ → String → List Char → Except Fault (Read σ))
    (s : σ) (cs : List Char) : Except Fault (Read σ) :=
  members fuel checked read fuel true s cs

/-- Goes to the next item of an array, over a comma unless it is the first; there is none at the
closing bracket. -/
def nextItem? (first : Bool) (cs : List Char) : Except Fault (Option (List Char)) :=
  match skipBlank cs with
  | [] => .error .endOfText
  | ']' :: _ => .ok none
  | c :: cs =>
    if first then .ok (some (c :: cs))
    else if c = ',' then
      match skipBlank cs with
      | [] => .error .endOfText
      | ']' :: _ => .error .malformed
      | cs => .ok (some cs)
    else .error .malformed

def endItems (cs : List Char) : Except Fault (List Char) :=
  match skipBlank cs with
  | [] => .error .endOfText
  | ']' :: cs => .ok cs
  | _ => .error .malformed

/-- The items that are left, after the first or before it. -/
def items (read : σ → List Char → Except Fault (Read σ)) :
    Nat → Bool → σ → List Char → Except Fault (Read σ)
  | 0, _, _, _ => .error .endOfText
  | fuel + 1, first, s, cs => do
    match ← nextItem? first cs with
    | none => return (s, ← endItems cs)
    | some cs =>
      let (s, cs) ← read s cs
      items read fuel false s cs

def array (fuel : Nat) (read : σ → List Char → Except Fault (Read σ)) (s : σ) (cs : List Char) :
    Except Fault (Read σ) :=
  items read fuel true s cs

/-! ## Values -/

/-- A value of a text shorter than `bound`; `fuel` bounds its depth. -/
def valueWith (bound : Nat) (checked : Bool) : Nat → Nat → List Char → Except Fault (Read Json)
  | 0, _, _ => .error .malformed
  | fuel + 1, depth, cs =>
    match skipBlank cs with
    | [] => .error .endOfText
    | 'n' :: cs => do
      let cs ← word ['u', 'l', 'l'] cs
      .ok (.null, cs)
    | 't' :: cs => do
      let cs ← word ['r', 'u', 'e'] cs
      .ok (.bool true, cs)
    | 'f' :: cs => do
      let cs ← word ['a', 'l', 's', 'e'] cs
      .ok (.bool false, cs)
    | '"' :: cs => do
      let (s, cs) ← string bound checked cs
      .ok (.str s, cs)
    | '-' :: cs => number checked true cs
    | '[' :: cs =>
      if depth = 0 then .error .malformed
      else do
        let (js, cs) ← array bound (fun js cs => do
          let (j, cs) ← valueWith bound checked fuel (depth - 1) cs
          .ok (j :: js, cs)) [] cs
        .ok (.arr js.reverse, cs)
    | '\x7b' :: cs =>
      if depth = 0 then .error .malformed
      else do
        let (ms, cs) ← object bound checked (fun ms k cs => do
          let cs ← colon cs
          let (j, cs) ← valueWith bound checked fuel (depth - 1) cs
          .ok ((k, j) :: ms, cs)) [] cs
        .ok (.obj ms.reverse, cs)
    | c :: cs => if isDigit c then number checked false (c :: cs) else .error .malformed

def value (fuel : Nat) (rules : Rules) (cs : List Char) : Except Fault (Read Json) :=
  valueWith fuel rules.checked fuel rules.depth cs

def finish {α : Type} : α × List Char → Except Fault α
  | (a, cs) => if skipBlank cs = [] then .ok a else .error .malformed

end Reader

/-- A text that is one value, nested to any depth. -/
def ofText (s : String) : Except Fault Json := do
  let cs := s.toList
  let fuel := cs.length + 1
  Reader.finish (← Reader.value fuel ⟨fuel, true⟩ cs)

end TreeCompiler.Json
