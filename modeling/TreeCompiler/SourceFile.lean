import TreeCompiler.Text.Lines

/-!
# Source files

`SourceFile.ofText` records where each line of a text lies, in bytes and without its end;
`SourceFile.line?` reads a line back from the text.
-/

namespace TreeCompiler

structure LineRange where
  start : Nat
  stop : Nat
deriving DecidableEq, Repr

structure SourceFile where
  name : String
  source : String
  lines : List LineRange
deriving DecidableEq, Repr

namespace SourceFile

def isLineEnd (c : Char) : Bool :=
  c == '\n' || c == '\r'

/-- Ranges of consecutive pieces, the first of which starts at byte `offset`. -/
def ranges (offset : Nat) : List (List Char) → List LineRange
  | [] => []
  | piece :: rest =>
    ⟨offset, offset + Text.byteLength (Text.trimEnd isLineEnd piece)⟩
      :: ranges (offset + Text.byteLength piece) rest

def ofText (name source : String) : SourceFile :=
  { name, source, lines := ranges 0 (Text.pieces source.toList) }

/-- The text of a line, counted from one, without its end. -/
def line? (f : SourceFile) (number : Nat) : Option String :=
  if number = 0 then none
  else
    (f.lines[number - 1]?).bind fun r =>
      (Text.slice? f.source.toList r.start r.stop).map String.ofList

def lineCount (f : SourceFile) : Nat :=
  f.lines.length

end SourceFile

end TreeCompiler
