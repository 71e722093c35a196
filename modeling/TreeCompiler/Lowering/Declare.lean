import TreeCompiler.Lowering.Context

/-!
# Declaring types

Before any member is looked at, every declaration of every tree registers the types it introduces.
Whether a type is sealed, static or an interface is known from then on. Of several declarations of
one name the first is registered.
-/

namespace TreeCompiler

inductive Declared where
  /-- Nothing: it is a function, an error node, or its name was taken. -/
  | nothing
  | type (id : TypeId)
  /-- The base of a tagged union and its variants; a variant whose name was taken is absent. -/
  | taggedUnion (base : TypeId) (variants : List (Option TypeId))
deriving DecidableEq, Repr

namespace Context

/-- Registers a type at its place in the source. -/
def declareType (c : Context) (d : TypeDef) (span : Span) : Option TypeId × Context :=
  match c.types.insert { d with span } with
  | .ok (id, types) => (some id, c.withTypes types)
  | .error existing =>
    (none, c.push (.duplicate s!"Type '{d.name.text}' is already defined." span
      (c.types.get existing).span))

end Context

/-- A type of the program with nothing but a name. -/
def definedType (module : QualifiedName) (name : String) : TypeDef :=
  { name := module.child name, origin := .defined }

namespace TypeDecl

def typeDef (module : QualifiedName) (d : TypeDecl) : TypeDef :=
  { definedType module d.name with
    isValueType := d.kind == .structType
    isInterface := d.kind == .interfaceType
    isStatic := d.modifiers.contains .static
    isAbstract := d.kind == .interfaceType || d.modifiers.contains .abstract
    isSealed := d.modifiers.contains .sealed || d.kind == .structType }

end TypeDecl

/-- A sealed value type: an enumeration or a union of fields. -/
def valueTypeDef (module : QualifiedName) (name : String) : TypeDef :=
  { definedType module name with isValueType := true, isSealed := true }

namespace Variant

def declare (module : QualifiedName) (c : Context) (v : Variant) : Option TypeId × Context :=
  c.declareType { definedType module v.name with isSealed := true } v.span

end Variant

namespace Decl

def declaredType : Option TypeId × Context → Declared × Context
  | (some id, c) => (.type id, c)
  | (none, c) => (.nothing, c)

def declare (module : QualifiedName) (c : Context) : Decl → Declared × Context
  | .type d => declaredType (c.declareType (d.typeDef module) d.span)
  | .enum d => declaredType (c.declareType (valueTypeDef module d.name) d.span)
  | .union d => declaredType (c.declareType (valueTypeDef module d.name) d.span)
  | .taggedUnion d =>
    match c.declareType { definedType module d.name with isAbstract := true } d.span with
    | (none, c) => (.nothing, c)
    | (some base, c) =>
      let (variants, c) := Context.traverse (Variant.declare module) c d.variants
      (.taggedUnion base variants, c)
  | .fn _ => (.nothing, c)
  | .error span =>
    (.nothing, c.report .malformedExpression span "Malformed declaration"
      "the parser could not recover this declaration")

end Decl

namespace Tree

def declare (c : Context) (t : Tree) : List Declared × Context :=
  Context.traverse (Decl.declare t.module) c t.body

end Tree

end TreeCompiler
