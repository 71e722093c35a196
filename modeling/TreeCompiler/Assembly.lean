import TreeCompiler.Platform

/-!
# Assemblies

The module under construction: its name, its types and the method with which it starts.
-/

namespace TreeCompiler

structure Assembly where
  name : String
  types : TypeTable := {}
  entryPoint : Option MethodRef := none
deriving DecidableEq, Repr

namespace Assembly

/-- An assembly that knows the platform library. -/
def withPlatform (name : String) : Assembly :=
  { name, types := Platform.types }

def findType? (a : Assembly) (name : String) : Option TypeDef :=
  (a.types.lookup (.ofText name)).map a.types.get

end Assembly

end TreeCompiler
