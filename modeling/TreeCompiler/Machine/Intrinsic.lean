import TreeCompiler.TypeTable

/-!
# Operations of the machine

Programs reach operations of the machine as static methods of the type `Intrinsics`. A call is
replaced by the lines of the operation, so its arguments have to be constants.
-/

namespace TreeCompiler

namespace Intrinsic

def typeName : QualifiedName := ⟨["Intrinsics"]⟩

/-- The operations with the names and types of their parameters. -/
def catalogue : List (String × List (String × Primitive)) :=
  [("Push", [("register", .string)]),
   ("Push", [("value", .int .i32)]),
   ("Push", [("value", .char)]),
   ("Copy", [("target", .string), ("value", .int .i32)]),
   ("Copy", [("target", .string), ("value", .char)])]

def method (t : TypeTable) (name : String) (params : List (String × Primitive)) : Method :=
  { name
    returnType := t.primitive? .void
    isStatic := true
    params := params.map fun (name, p) => { name, type := t.primitive? p } }

def typeDef (t : TypeTable) : TypeDef :=
  { name := typeName
    origin := .external
    isStatic := true
    isSealed := true
    bases := (t.primitive? .object).toList
    methods := catalogue.map fun (name, params) => method t name params }

/-- Registers the operations; a table that has them stays as it is. -/
def install (t : TypeTable) : TypeTable :=
  (t.intern (typeDef t)).2

/-- The number that an operation takes: an integer, or the code of a character. -/
def number? : Constant → Option Int
  | c@(.int ..) => c.asInt?
  | c@(.char _) => c.asInt?
  | _ => none

def expand (name : String) (args : List Constant) : Option String :=
  match name, args with
  | "Push", [.string register] => some ("push " ++ register)
  | "Push", [value] => (number? value).map fun v => s!"copy {v}, R0\npush R0"
  | "Copy", [.string target, value] => (number? value).map fun v => s!"copy {target}, {v}"
  | _, _ => none

end Intrinsic

def TypeTable.isIntrinsic (t : TypeTable) (m : MethodRef) : Bool :=
  (t.get m.type).name == Intrinsic.typeName

end TreeCompiler
