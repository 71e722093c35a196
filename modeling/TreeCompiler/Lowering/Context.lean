import TreeCompiler.Assembly
import TreeCompiler.Diagnostic
import TreeCompiler.Resolution

/-!
# The state of lowering

Lowering turns trees into an assembly and collects diagnostics on the way. A function type becomes
an instance of a delegate, registered under a name made from the names of its arguments.
-/

namespace TreeCompiler

structure Context where
  assembly : Assembly
  diagnostics : List Diagnostic := []
deriving DecidableEq, Repr

namespace Context
variable (c : Context)

def start (name : String) : Context :=
  { assembly := .withPlatform name }

def types : TypeTable :=
  c.assembly.types

def withTypes (types : TypeTable) : Context :=
  { c with assembly := { c.assembly with types } }

def modifyType (id : TypeId) (f : TypeDef → TypeDef) : Context :=
  c.withTypes (c.types.modify id f)

def push (d : Diagnostic) : Context :=
  { c with diagnostics := c.diagnostics ++ [d] }

def report (code : ErrorCode) (span : Span) (message label : String) : Context :=
  c.push (.error code span message label)

/-- Runs over a list from left to right, passing the state on. -/
def traverse {σ α β : Type} (f : σ → α → β × σ) : σ → List α → List β × σ
  | s, [] => ([], s)
  | s, a :: as =>
    let (b, s) := f s a
    let (bs, s) := traverse f s as
    (b :: bs, s)

/-! ## Types -/

def unresolvedType (name : QualifiedName) (span : Span) : Diagnostic :=
  { Diagnostic.error .unresolvedType span s!"Type {name.text} cannot be found"
      "not a declared type or primitive alias" with
    help := ["primitive aliases are: " ++ ", ".intercalate (Primitive.aliases.map (·.1))] }

def resolveType (module name : QualifiedName) (span : Span) :
    Option TypeId × Context :=
  match c.types.resolveIn? module name with
  | some id => (some id, c)
  | none => (none, c.push (unresolvedType name span))

def instanceName (t : TypeTable) (definition : TypeId) (args : List TypeId) : QualifiedName :=
  let name := (t.get definition).name
  name.withLast (name.last ++ "<" ++ ",".intercalate (args.map fun a => (t.get a).name.text) ++ ">")

/-- The delegate for given arguments, registered when it is first used. -/
def instantiate (definition : TypeId) (args : List TypeId) : TypeId × Context :=
  let (id, types) := c.types.intern
    { name := instanceName c.types definition args
      origin := .external
      bases := (c.types.get definition).bases
      isSealed := true
      genericDefinition := some definition
      genericArgs := args }
  (id, c.withTypes types)

/-- Everything that is there, if nothing is missing. -/
def allSome {α : Type} : List (Option α) → Option (List α)
  | [] => some []
  | none :: _ => none
  | some a :: rest => (allSome rest).map (a :: ·)

def delegateName (family : String) (arity : Nat) : QualifiedName :=
  TypeTable.systemName s!"{family}`{arity}"

/-- The delegate for resolved parameters and result; a result of `none` is no result. -/
def resolveDelegate (params : List (Option TypeId))
    (result : Option (Option TypeId)) (span : Span) : Option TypeId × Context :=
  let (family, args) := match result with
    | some r => if r = c.types.primitive? .void then ("Action", params) else ("Func", params ++ [r])
    | none => ("Action", params)
  let (definition, c) := c.resolveType .global (delegateName family args.length) span
  match definition, allSome args with
  | some definition, some args =>
    let (id, c) := c.instantiate definition args
    (some id, c)
  | _, _ => (none, c)

mutual

/-- The type that a type expression means inside a module. -/
def resolveTypeExpr (module : QualifiedName) : Context → TypeExpr → Option TypeId × Context
  | c, .named name span => c.resolveType module name span
  | c, .function params result span =>
    let (params, c) := resolveParams module c params
    let (result, c) := resolveResult module c result
    c.resolveDelegate params result span

def resolveParams (module : QualifiedName) :
    Context → List TypeExpr → List (Option TypeId) × Context
  | c, [] => ([], c)
  | c, t :: ts =>
    let (id, c) := resolveTypeExpr module c t
    let (ids, c) := resolveParams module c ts
    (id :: ids, c)

def resolveResult (module : QualifiedName) :
    Context → Option TypeExpr → Option (Option TypeId) × Context
  | c, none => (none, c)
  | c, some t =>
    let (id, c) := resolveTypeExpr module c t
    (some id, c)

end

def literalType? (l : Literal) : Option TypeId :=
  c.types.resolve? ⟨[l.typeAlias]⟩

end Context

/-- A method whose body is still to be lowered, with the module it was declared in. -/
structure PendingBody where
  method : MethodRef
  module : QualifiedName
  body : List Stmt
deriving Repr

end TreeCompiler
