import TreeCompiler.Text.Upper
import TreeCompiler.TypeTable

/-!
# Labels of methods

The label of a method is its full name and a segment per parameter. A type of the platform library
gives its name in capitals, any other type nothing.
-/

namespace TreeCompiler.TypeTable

def symbolSegment (t : TypeTable) : Option TypeId → String
  | none => ""
  | some type =>
    match (t.get type).name.segments with
    | ["System", name] => Text.upper name
    | _ => ""

def symbol (t : TypeTable) (m : MethodRef) : String :=
  let method := t.method m
  "$" ++ ((t.get m.type).name.child method.name).text ++
    String.join (method.params.map fun p => "$" ++ t.symbolSegment p.type)

end TreeCompiler.TypeTable
