/-!
# Lines and byte positions of a text

A text is a list of characters; positions count UTF-8 bytes. `pieces` cuts after every line feed and
keeps it, `slice?` is the part between two byte positions when both lie on character boundaries.
-/

namespace TreeCompiler.Text

def byteLength : List Char → Nat
  | [] => 0
  | c :: cs => c.utf8Size + byteLength cs

@[simp] theorem byteLength_nil : byteLength [] = 0 := rfl

@[simp] theorem byteLength_cons (c : Char) (cs : List Char) :
    byteLength (c :: cs) = c.utf8Size + byteLength cs := rfl

@[simp] theorem byteLength_append (s t : List Char) :
    byteLength (s ++ t) = byteLength s + byteLength t := by
  induction s with
  | nil => simp
  | cons c s ih => simp [ih, Nat.add_assoc]

/-- The pieces of a text, each but the last ending in its line feed. -/
def pieces : List Char → List (List Char)
  | [] => []
  | c :: cs =>
    if c = '\n' then [c] :: pieces cs
    else
      match pieces cs with
      | [] => [[c]]
      | p :: ps => (c :: p) :: ps

@[simp] theorem flatten_pieces (s : List Char) : (pieces s).flatten = s := by
  induction s with
  | nil => rfl
  | cons c s ih =>
    unfold pieces
    split
    · simp [ih]
    · split
      · next h => simp [h] at ih; simp [← ih]
      · next p ps h => simp [h] at ih; simp [ih]

/-- The characters from byte `start` on, if a character starts there. -/
def dropBytes? : List Char → Nat → Option (List Char)
  | cs, 0 => some cs
  | [], _ + 1 => none
  | c :: cs, n + 1 => if c.utf8Size ≤ n + 1 then dropBytes? cs (n + 1 - c.utf8Size) else none

/-- The first `n` bytes, if they are whole characters. -/
def takeBytes? : List Char → Nat → Option (List Char)
  | _, 0 => some []
  | [], _ + 1 => none
  | c :: cs, n + 1 =>
    if c.utf8Size ≤ n + 1 then (takeBytes? cs (n + 1 - c.utf8Size)).map (c :: ·) else none

/-- The text from byte `start` up to byte `stop`. -/
def slice? (cs : List Char) (start stop : Nat) : Option (List Char) :=
  if start ≤ stop then (dropBytes? cs start).bind (takeBytes? · (stop - start)) else none

def trimEnd (p : Char → Bool) (cs : List Char) : List Char :=
  cs.foldr (fun c rest => if rest.isEmpty && p c then [] else c :: rest) []

/-- The lines of a text without their ends, which are a line feed, with a carriage return before it
or not. -/
def lines (s : String) : List String :=
  (pieces s.toList).map fun p =>
    if p.getLast? = some '\n' then
      let p := p.dropLast
      String.ofList (if p.getLast? = some '\r' then p.dropLast else p)
    else String.ofList p

def repeated (c : Char) (n : Nat) : String :=
  String.ofList (List.replicate n c)

def utf8 (s : String) : List UInt8 :=
  s.toUTF8.data.toList

end TreeCompiler.Text
