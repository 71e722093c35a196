import TreeCompiler.Span

/-!
# Diagnostics

A `Diagnostic` tells the user about one problem. Compilation collects them in a list, in the order
in which the problems are met, and never stops at the first.
-/

namespace TreeCompiler

inductive Level where
  | error
  | warning
  | note
deriving DecidableEq, Repr

def Level.text : Level → String
  | .error => "error"
  | .warning => "warning"
  | .note => "note"

/-- The letter of a code is `R` for resolution, `D` for declarations, `S` for recovered input. -/
structure ErrorCode where
  category : Char
  number : Nat
deriving DecidableEq, Repr

namespace ErrorCode

def unresolvedType : ErrorCode := ⟨'R', 1⟩
def unresolvedCall : ErrorCode := ⟨'R', 2⟩
def unresolvedName : ErrorCode := ⟨'R', 3⟩
def duplicateDeclaration : ErrorCode := ⟨'D', 1⟩
def invalidInheritance : ErrorCode := ⟨'D', 2⟩
def invalidAttributeTarget : ErrorCode := ⟨'D', 3⟩
def malformedExpression : ErrorCode := ⟨'S', 1⟩

def kinds : List (ErrorCode × String) :=
  [(unresolvedType, "unresolved-type"),
   (unresolvedCall, "unresolved-call"),
   (unresolvedName, "unresolved-name"),
   (duplicateDeclaration, "duplicate-declaration"),
   (invalidInheritance, "invalid-inheritance"),
   (invalidAttributeTarget, "invalid-attribute-target"),
   (malformedExpression, "malformed-expression")]

def kind (c : ErrorCode) : String :=
  (kinds.lookup c).getD "unknown"

/-- `ER001`: the number has at least three digits. -/
def text (c : ErrorCode) : String :=
  let digits := Nat.toDigits 10 c.number
  String.ofList ('E' :: c.category :: List.replicate (3 - digits.length) '0' ++ digits)

end ErrorCode

/-- A remark about a region; the primary one marks the offending node. -/
structure Label where
  primary : Bool
  span : Span
  message : String
deriving DecidableEq, Repr

structure Diagnostic where
  level : Level
  code : Option ErrorCode
  message : String
  labels : List Label := []
  notes : List String := []
  help : List String := []
deriving DecidableEq, Repr

namespace Diagnostic

def error (code : ErrorCode) (span : Span) (message label : String) : Diagnostic :=
  { level := .error, code := some code, message, labels := [⟨true, span, label⟩] }

/-- An error about a name that is taken, with the place where it was taken. -/
def duplicate (message : String) (here first : Span) : Diagnostic :=
  { level := .error
    code := some .duplicateDeclaration
    message
    labels := [⟨true, here, "redefined here"⟩, ⟨false, first, "first defined here"⟩] }

def primarySpan? (d : Diagnostic) : Option Span :=
  (d.labels.find? (·.primary)).map (·.span)

def isError (d : Diagnostic) : Bool :=
  d.level == .error

def errorCount (ds : List Diagnostic) : Nat :=
  ds.countP (·.isError)

def hasErrors (ds : List Diagnostic) : Bool :=
  ds.any (·.isError)

def count (code : ErrorCode) (ds : List Diagnostic) : Nat :=
  ds.countP (·.code == some code)

end Diagnostic

end TreeCompiler
