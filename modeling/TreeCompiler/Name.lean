/-!
# Qualified names

A name is a list of segments, written with dots. `ofText` reads a dotted text and drops empty
segments, `text` writes it.
-/

namespace TreeCompiler

/-- A path of segments; the empty one is the global namespace. -/
structure QualifiedName where
  segments : List String
deriving DecidableEq, Repr, Inhabited

namespace QualifiedName
variable (n : QualifiedName)

/-- The parts between dots, empty ones included. -/
def split : List Char → List (List Char)
  | [] => [[]]
  | c :: cs =>
    if c = '.' then [] :: split cs
    else
      match split cs with
      | [] => [[c]]
      | p :: ps => (c :: p) :: ps

def ofText (text : String) : QualifiedName :=
  ⟨((split text.toList).filter (! ·.isEmpty)).map String.ofList⟩

def text : String :=
  ".".intercalate n.segments

def global : QualifiedName := ⟨[]⟩

def isEmpty : Bool :=
  n.segments.isEmpty

def length : Nat :=
  n.segments.length

/-- The last segment, empty for the global namespace. -/
def last : String :=
  n.segments.getLast?.getD ""

def qualifier : QualifiedName :=
  ⟨n.segments.dropLast⟩

def qualify (n path : QualifiedName) : QualifiedName :=
  ⟨path.segments ++ n.segments⟩

def child (segment : String) : QualifiedName :=
  ⟨n.segments ++ [segment]⟩

def withLast (segment : String) : QualifiedName :=
  n.qualifier.child segment

/-- Segment by segment, each in the order of code points. -/
def compareSegments : List String → List String → Ordering
  | [], [] => .eq
  | [], _ :: _ => .lt
  | _ :: _, [] => .gt
  | a :: as, b :: bs => (compare a b).then (compareSegments as bs)

def compare (m n : QualifiedName) : Ordering :=
  compareSegments m.segments n.segments

end QualifiedName

end TreeCompiler
