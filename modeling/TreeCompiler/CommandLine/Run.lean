import TreeCompiler.Assembly.Text
import TreeCompiler.CommandLine.Arguments
import TreeCompiler.CommandLine.FileSystem
import TreeCompiler.Compilation
import TreeCompiler.Tree.Reader

/-!
# The command line

`run` does what the arguments ask for. Trees are read from files first; then they are compiled,
lowered or printed.
-/

namespace TreeCompiler.CommandLine

structure Outcome where
  exit : UInt32 := 0
  stdout : String := ""
  stderr : String := ""
deriving DecidableEq, Repr

namespace Outcome

def versionText : String := "backlang 0.1.0\n"

def usageText : String :=
  "Usage: backlang [-v]... build [-o OUTPUT] [-t TARGET] FILE...\n" ++
  "       backlang [-v]... ir [-t TARGET] FILE...\n" ++
  "       backlang [-v]... ast FILE...\n"

def error (message : String) (stdout : String := "") : Outcome :=
  { exit := 1, stdout, stderr := s!"Error: {message}\n" }

end Outcome

/-! ## Trees -/

/-- A tree from the text of a file; a tree without a file name takes the path. -/
def treeOfText (path text : String) : Except String Tree :=
  match Tree.ofText text with
  | .ok t => .ok { t with file := some (t.file.getD path) }
  | .error _ => .error s!"{path} is not a valid syntax tree"

variable {m : Type → Type} [Monad m]

def loadTree (fs : FileSystem m) (path : String) : m (Except String Tree) := do
  match ← fs.read path with
  | .ok text => return treeOfText path text
  | .error reason => return .error s!"cannot read {path}: {reason}"

/-- Reads trees up to the first that cannot be read. -/
def loadTrees (fs : FileSystem m) : List String → m (Except String (List Tree))
  | [] => return .ok []
  | path :: rest => do
    match ← loadTree fs path with
    | .error e => return .error e
    | .ok t =>
      match ← loadTrees fs rest with
      | .error e => return .error e
      | .ok ts => return .ok (t :: ts)

/-! ## Commands -/

/-- Where an output is written: in the current directory, unless its path starts at the root. -/
def outputPath (o : Options) : String :=
  if o.path.startsWith "/" then o.path else "./" ++ o.path

def runBuild (fs : FileSystem m) (trees : List Tree) (o : Options) : m Outcome := do
  let heading := s!"Compiling {trees.length} tree(s) for {o.target.name}\n"
  match (Compilation.start trees o).compile with
  | .error e => return .error e.message heading
  | .ok (.error (.failed errors), c) =>
    return {
      exit := 1
      stdout := heading
      stderr := s!"{c.render}\n\nCompilation failed with {errors} error(s)\n" }
  | .ok (.error e, _) => return .error e.message heading
  | .ok (.ok artifact, c) =>
    let path := outputPath o
    match ← fs.write path artifact.bytes with
    | .error reason => return .error s!"cannot write {path}: {reason}" heading
    | .ok () =>
      let count := c.assembly.types.defined.length
      return { stdout := heading ++ s!"  [ok] Types: {count}\n  [ok] Written: {path}\n" }

/-- Shows the assembly of trees, and what is wrong with them. -/
def showAssembly (trees : List Tree) (target : Target) : Outcome :=
  let c := Compilation.lowered trees { target }
  { stdout := c.assembly.text ++ "\n"
    stderr := if c.hasErrors then c.render ++ "\n\n" else "" }

def showTrees (trees : List Tree) : Outcome :=
  let show_ (t : Tree) : String :=
    (match t.file with
      | some file => s!"// {file}\n"
      | none => "") ++ t.text ++ "\n"
  { stdout := String.join (trees.map show_) }

def Command.inputs : Command → List String
  | .build inputs _ => inputs
  | .ir inputs _ => inputs
  | .ast inputs => inputs

def Command.perform (fs : FileSystem m) (command : Command) : m Outcome := do
  match ← loadTrees fs command.inputs with
  | .error e => return .error e
  | .ok trees =>
    match command with
    | .build _ options => runBuild fs trees options
    | .ir _ target => return showAssembly trees target
    | .ast _ => return showTrees trees

def Request.perform (fs : FileSystem m) : Request → m Outcome
  | .run command => command.perform fs
  | .version => return { stdout := Outcome.versionText }
  | .help => return { stdout := Outcome.usageText }
  | .misuse => return { exit := 2, stderr := Outcome.usageText }

def run (fs : FileSystem m) (args : List String) : m Outcome :=
  (Request.ofArgs args).perform fs

end TreeCompiler.CommandLine
