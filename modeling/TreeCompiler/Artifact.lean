import TreeCompiler.Image.Build
import TreeCompiler.Machine.Program

/-!
# Artifacts

What a target makes of an assembly.
-/

namespace TreeCompiler

inductive Artifact where
  | container (image : Image)
  | text (program : String)
deriving DecidableEq, Repr

def Artifact.bytes : Artifact → Blob
  | .container image => image.bytes
  | .text program => Text.utf8 program

namespace Target

/-- The type table in which programs for this target are lowered. -/
def install (target : Target) (t : TypeTable) : TypeTable :=
  if target.hasIntrinsics then Intrinsic.install t else t

def emit (target : Target) (a : Assembly) : Except EmitError Artifact :=
  match target with
  | .managed => a.image.map .container
  | .machine => a.machineText.map .text

end Target

end TreeCompiler
