import TreeCompiler.Main
import TreeCompiler.Proofs.Compilation.Narrowing
import TreeCompiler.Proofs.Compilation.Sessions
import TreeCompiler.Proofs.Image.Bases
import TreeCompiler.Proofs.Image.ConstantBlobs
import TreeCompiler.Proofs.Image.Container
import TreeCompiler.Proofs.Lowering.BaseChains
import TreeCompiler.Proofs.Lowering.Enumerations
import TreeCompiler.Proofs.Lowering.FittingConstants
import TreeCompiler.Proofs.Lowering.Inference
import TreeCompiler.Proofs.Lowering.MissingTypes
import TreeCompiler.Proofs.Lowering.RefusedBases
import TreeCompiler.Proofs.Lowering.Signatures
import TreeCompiler.Proofs.Machine.Refinement
import TreeCompiler.Proofs.Machine.Symbols
import TreeCompiler.Proofs.Places.Compilation
import TreeCompiler.Proofs.SourceLines
import TreeCompiler.Proofs.StackCode.EmittedLayout
import TreeCompiler.Proofs.StackCode.Refinement
import TreeCompiler.Proofs.Tree.Parentheses
import TreeCompiler.Proofs.Tree.RoundTrip
