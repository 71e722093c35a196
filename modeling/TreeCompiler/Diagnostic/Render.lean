import TreeCompiler.Diagnostic
import TreeCompiler.SourceFile

/-!
# Diagnostics as text

A diagnostic is shown as a heading, then per label the place, the source line and a row of marks
under it, then notes and help. A `Palette` colours the parts for a terminal.
-/

namespace TreeCompiler

/-- Control sequences around the coloured parts. -/
structure Palette where
  reset : String := ""
  bold : String := ""
  gutter : String := ""
  help : String := ""
  error : String := ""
  warning : String := ""
  note : String := ""

namespace Palette

def terminal : Palette :=
  { reset := "\x1b[0m"
    bold := "\x1b[1m"
    gutter := "\x1b[1;34m"
    help := "\x1b[1;32m"
    error := "\x1b[1;31m"
    warning := "\x1b[1;33m"
    note := "\x1b[1;36m" }

def plain : Palette := {}

def level (p : Palette) : Level → String
  | .error => p.error
  | .warning => p.warning
  | .note => p.note

end Palette

namespace Label

/-- Width of the row of marks under `text`: to the end of the region or, when it goes on to another
line, to the end of the text, and at least one. -/
def markWidth (l : Label) (text : String) : Nat :=
  let start := l.span.start
  let stop := l.span.stop
  max 1 (if start.line = stop.line then stop.column.toNat - start.column.toNat
    else Text.byteLength text.toList - (start.column.toNat - 1))

def render (p : Palette) (files : List SourceFile) (accent : String) (l : Label) : String :=
  let start := l.span.start
  match files[l.span.file.toNat]? with
  | none => s!" {p.gutter}-->{p.reset} {start.line}:{start.column}: {l.message}\n"
  | some file =>
    let place := s!" {p.gutter}-->{p.reset} {file.name}:{start.line}:{start.column}\n"
    match file.line? start.line.toNat with
    | none => place
    | some text =>
      let number := toString start.line
      let pad := Text.repeated ' ' number.length
      let indent := Text.repeated ' ' (start.column.toNat - 1)
      let marks := Text.repeated (if l.primary then '^' else '-') (l.markWidth text)
      let color := if l.primary then accent else p.gutter
      place
        ++ s!" {pad} {p.gutter}|{p.reset}\n"
        ++ s!" {p.gutter}{number} |{p.reset} {text}\n"
        ++ s!" {pad} {p.gutter}|{p.reset} {indent}{color}{marks} {l.message}{p.reset}\n"

end Label

namespace Diagnostic

def render (p : Palette) (files : List SourceFile) (d : Diagnostic) : String :=
  let accent := p.level d.level
  let code := match d.code with
    | some c => s!"[{c.text}]"
    | none => ""
  s!"{accent}{d.level.text}{code}{p.reset}{p.bold}: {d.message}{p.reset}\n"
    ++ String.join (d.labels.map (Label.render p files accent))
    ++ String.join (d.notes.map fun n => s!"   = {p.bold}note{p.reset}: {n}\n")
    ++ String.join (d.help.map fun h => s!"   = {p.help}help{p.reset}: {h}\n")

/-- All diagnostics in terminal colours, an empty line between two. -/
def renderAll (files : List SourceFile) (ds : List Diagnostic) : String :=
  "\n".intercalate (ds.map (render .terminal files))

end Diagnostic

end TreeCompiler
