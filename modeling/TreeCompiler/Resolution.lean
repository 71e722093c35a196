import TreeCompiler.TypeTable

/-!
# Name resolution

A name used in a module means, in this order: the type of exactly that name, the type of that name
inside the module, and, for a name of one segment, the platform type of that name or spelling.
-/

namespace TreeCompiler.TypeTable

/-- The platform type that a name of one segment stands for. -/
def resolvePlatform? (t : TypeTable) (name : QualifiedName) : Option TypeId :=
  match name.segments with
  | [short] => t.system? ((Primitive.aliasTarget? short).getD short)
  | _ => none

def resolve? (t : TypeTable) (name : QualifiedName) : Option TypeId :=
  (t.lookup name).or (t.resolvePlatform? name)

def resolveIn? (t : TypeTable) (module name : QualifiedName) : Option TypeId :=
  ((t.lookup name).or (t.lookup (name.qualify module))).or (t.resolvePlatform? name)

end TreeCompiler.TypeTable
