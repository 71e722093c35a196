import TreeCompiler.Defect
import TreeCompiler.Handle
import TreeCompiler.Target

/-!
# Errors of emission

What can go wrong once trees are lowered: a type that stayed unresolved, a construct that the target
does not have, or a defect of the assembly itself.
-/

namespace TreeCompiler

inductive Unsupported where
  /-- A value is used in `method` before an instruction makes it. -/
  | undefinedValue (value : InstrId) (method : String)
  /-- A constant, by its text, that is no machine word. -/
  | constant (text : String)
  /-- `method` reads or writes an object. -/
  | objectAccess (method : String)
  | externalCall (method : String)
deriving DecidableEq, Repr

def Unsupported.text : Unsupported → String
  | .undefinedValue value method => s!"use of %{value.index} before its definition in {method}"
  | .constant text => "constant " ++ text
  | .objectAccess method => "object access in " ++ method
  | .externalCall method => "a call to external method " ++ method

inductive EmitError where
  /-- An unresolved type at `place`. -/
  | unresolvedType (place : String)
  | unsupported (target : Target) (what : Unsupported)
  | intrinsicArgument (name : String)
  | outOfRegisters (method : String)
  | defect (what : Defect)
deriving DecidableEq, Repr

def EmitError.message : EmitError → String
  | .unresolvedType place => "unresolved type reference in " ++ place
  | .unsupported target what => s!"{target.name} backend cannot emit {what.text}"
  | .intrinsicArgument name => s!"intrinsic {name} expects constant arguments"
  | .outOfRegisters method => s!"method {method} needs more registers than the VM provides"
  | .defect what => what.message

def EmitError.ofDefect {α : Type} (result : Except Defect α) : Except EmitError α :=
  result.mapError .defect

end TreeCompiler
