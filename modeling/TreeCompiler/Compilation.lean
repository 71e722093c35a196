import TreeCompiler.Artifact
import TreeCompiler.Diagnostic.Render
import TreeCompiler.Lowering.Body

/-!
# Compilations

A compilation lowers declarations, then bodies, and then emits. Every step is taken at most once and
in this order; a step out of order leaves the compilation as it is.
-/

namespace TreeCompiler

inductive Stage where
  | unstarted
  /-- The bodies in `queue` are still to be lowered. -/
  | declarationsLowered (queue : List PendingBody)
  | bodiesLowered
  | emitted
deriving Repr

def Stage.name : Stage → String
  | .unstarted => "unstarted"
  | .declarationsLowered _ => "declarations lowered"
  | .bodiesLowered => "bodies lowered"
  | .emitted => "emitted"

inductive Step where
  | lowerDeclarations
  | lowerBodies
  | emit
deriving DecidableEq, Repr

def Step.text : Step → String
  | .lowerDeclarations => "lower declarations"
  | .lowerBodies => "lower bodies"
  | .emit => "emit"

structure OutOfOrder where
  step : Step
  stage : Stage
deriving Repr

def OutOfOrder.message (e : OutOfOrder) : String :=
  s!"cannot {e.step.text} in stage '{e.stage.name}'"

inductive CompileError where
  /-- Lowering found this many errors. -/
  | failed (errors : Nat)
  | emission (error : EmitError)
deriving DecidableEq, Repr

def CompileError.message : CompileError → String
  | .failed errors => s!"compilation failed with {errors} error(s)"
  | .emission error => error.message

structure Compilation where
  trees : List Tree
  options : Options
  context : Context
  stage : Stage := .unstarted
deriving Repr

namespace Compilation
variable (c : Compilation)

/-- A compilation that has not started. The assembly has the name of the output. -/
def start (trees : List Tree) (options : Options) : Compilation :=
  let c := Context.start options.output
  { trees, options, context := c.withTypes (options.target.install c.types) }

def assembly : Assembly :=
  c.context.assembly

def diagnostics : List Diagnostic :=
  c.context.diagnostics

def hasErrors : Bool :=
  Diagnostic.hasErrors c.diagnostics

def errorCount : Nat :=
  Diagnostic.errorCount c.diagnostics

/-! ## Steps -/

def lowerDeclarations : Except OutOfOrder Compilation :=
  match c.stage with
  | .unstarted =>
    let l := c.context.lowerDeclarations c.trees
    .ok { c with context := l.context, stage := .declarationsLowered l.queue }
  | stage => .error { step := .lowerDeclarations, stage }

def lowerBodies : Except OutOfOrder Compilation :=
  match c.stage with
  | .declarationsLowered queue =>
    .ok { c with context := c.context.lowerBodies queue, stage := .bodiesLowered }
  | stage => .error { step := .lowerBodies, stage }

/-- Emission that fails leaves the compilation as it is. -/
def emit : Except OutOfOrder (Except CompileError Artifact × Compilation) :=
  match c.stage with
  | .bodiesLowered =>
    match c.options.target.emit c.assembly with
    | .ok artifact => .ok (.ok artifact, { c with stage := .emitted })
    | .error e => .ok (.error (.emission e), c)
  | stage => .error { step := .emit, stage }

/-- All steps; nothing is emitted if lowering found errors. -/
def compile : Except OutOfOrder (Except CompileError Artifact × Compilation) := do
  let c ← c.lowerDeclarations
  let c ← c.lowerBodies
  if c.hasErrors then return (.error (.failed c.errorCount), c)
  else c.emit

def lowered (trees : List Tree) (options : Options) : Compilation :=
  let c := start trees options
  let l := c.context.lowerDeclarations trees
  { c with context := l.context.lowerBodies l.queue, stage := .bodiesLowered }

/-! ## Diagnostics as text -/

/-- The source of tree number `index`, under its name or its number. -/
def sourceFile (t : Tree) (index : Nat) : SourceFile :=
  .ofText (t.file.getD s!"<tree {index}>") (t.source.getD "")

/-- All diagnostics; a region in file `i` lies in the source of tree `i`. -/
def render : String :=
  Diagnostic.renderAll (c.trees.zipIdx.map fun (t, i) => sourceFile t i) c.diagnostics

end Compilation

end TreeCompiler
