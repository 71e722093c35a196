/-!
# Handles

Types, methods, fields, blocks and instruction results refer to each other by position.
-/

namespace TreeCompiler

structure TypeId where
  index : Nat
deriving DecidableEq, Repr

/-- A method, by its type and its place among the methods of the type. -/
structure MethodRef where
  type : TypeId
  index : Nat
deriving DecidableEq, Repr

/-- A field, by its type and its place among the fields of the type. -/
structure FieldRef where
  type : TypeId
  index : Nat
deriving DecidableEq, Repr

/-- The result of an instruction, by the instruction's place in its graph. -/
structure InstrId where
  index : Nat
deriving DecidableEq, Repr

structure BlockId where
  index : Nat
deriving DecidableEq, Repr

def BlockId.entry : BlockId := ⟨0⟩

/-- A local variable, by its block and its place among the block's variables. -/
structure BindingId where
  block : BlockId
  index : Nat
deriving DecidableEq, Repr

end TreeCompiler
