/-!
# Source locations

A `Span` is a region of one source file. `Span.merge` covers two regions of the same file and
refuses regions of different files.
-/

namespace TreeCompiler

/-- A place in a source file; lines and columns count from one, `offset` counts bytes from zero. -/
structure Position where
  line : UInt32 := 0
  column : UInt32 := 0
  offset : UInt64 := 0
deriving DecidableEq, Repr, Inhabited

structure Span where
  start : Position := {}
  stop : Position := {}
  file : UInt32 := 0
deriving DecidableEq, Repr, Inhabited

structure FileMismatch where
  left : UInt32
  right : UInt32
deriving DecidableEq, Repr

namespace FileMismatch

def message (e : FileMismatch) : String :=
  s!"assertion `left == right` failed: Cannot merge spans from different files\n  left: {e.left}\n right: {e.right}"

end FileMismatch

namespace Span

def point (p : Position) (file : UInt32) : Span :=
  ⟨p, p, file⟩

def inFile (s : Span) (file : UInt32) : Span :=
  { s with file }

/-- The region from the earlier start to the later end; on equal offsets the second one's. -/
def merge (s t : Span) : Except FileMismatch Span :=
  if s.file = t.file then
    .ok { start := if s.start.offset < t.start.offset then s.start else t.start
          stop := if t.stop.offset < s.stop.offset then s.stop else t.stop
          file := s.file }
  else .error ⟨s.file, t.file⟩

/-- Length in bytes, zero for a region that ends before it starts. -/
def length (s : Span) : Nat :=
  s.stop.offset.toNat - s.start.offset.toNat

def isEmpty (s : Span) : Bool :=
  s.length == 0

end Span

end TreeCompiler
