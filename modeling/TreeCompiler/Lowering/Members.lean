import TreeCompiler.Lowering.Declare

/-!
# Filling in types

Once all types are registered, each declaration fills in what it registered: bases, fields, methods,
properties and attributes. Bodies of methods are queued for later.
-/

namespace TreeCompiler

structure Lowering where
  context : Context
  queue : List PendingBody := []
deriving Repr

namespace Modifier

def visibility? : Modifier → Option Visibility
  | .publicAccess => some .publicAccess
  | .privateAccess => some .privateAccess
  | .protectedAccess => some .protectedAccess
  | .internalAccess => some .internalAccess
  | _ => none

/-- The first word of access among modifiers, or the default. -/
def visibility (modifiers : List Modifier) (default : Visibility := .publicAccess) : Visibility :=
  (modifiers.findSome? visibility?).getD default

end Modifier

namespace AttributeUse

/-- Name of the attribute type: `Obsolete` stands for `ObsoleteAttribute`. -/
def attributeName (a : AttributeUse) : QualifiedName :=
  if a.name.last.endsWith "Attribute" then a.name
  else a.name.withLast (a.name.last ++ "Attribute")

/-- The attribute, unless it is unknown or may not stand at `target`. -/
def attribute? (module : QualifiedName) (target : AttributeTargets) (c : Context)
    (a : AttributeUse) : Option Attribute × Context :=
  match c.resolveType module a.attributeName a.span with
  | (none, c) => (none, c)
  | (some type, c) =>
    if (c.types.get type).usage.all (·.allows target) then (some { type }, c)
    else
      (none, c.report .invalidAttributeTarget a.span
        s!"Cannot apply Attribute '{a.name.text}' to this declaration"
        "attribute usage does not allow this target")

end AttributeUse

namespace Context

def attributes (c : Context) (module : QualifiedName) (annotations : List AttributeUse)
    (target : AttributeTargets) : List Attribute × Context :=
  let (found, c) := traverse (AttributeUse.attribute? module target) c annotations
  (found.filterMap id, c)

def specialName? (c : Context) : Option Attribute :=
  (c.types.lookup Platform.specialName).map fun type => { type }

/-- A literal as a constant of a type; `what` names the place in an error. -/
def constant? (c : Context) (value : Expr) (type : Option TypeId) (what : String) :
    Option Constant × Context :=
  match value.literal? with
  | none =>
    (none, c.report .malformedExpression value.span (what ++ " must be a literal")
      "expected a literal value")
  | some l =>
    let constant := Constant.ofLiteral l
    match c.types.primitiveOf? type with
    | some p => (some (constant.convert p), c)
    | none => (some constant, c)

/-- A literal as a constant, where there is one. -/
def optionalConstant (c : Context) (value : Option Expr) (type : Option TypeId)
    (what : String) : Option Constant × Context :=
  match value with
  | some value => c.constant? value type what
  | none => (none, c)

end Context

/-! ## Fields, methods and properties -/

namespace Lowering

def withContext (l : Lowering) (context : Context) : Lowering :=
  { l with context }

def addField (l : Lowering) (module : QualifiedName) (owner : TypeId) (d : FieldDecl) :
    Lowering :=
  let (type, c) := Context.resolveTypeExpr module l.context d.type
  let (value, c) := c.optionalConstant d.value type "A field initializer"
  let (attributes, c) := c.attributes module d.annotations .fields
  l.withContext (c.withTypes (c.types.addField owner
    { name := d.name
      type
      visibility := Modifier.visibility d.modifiers
      isStatic := d.modifiers.contains .static
      isMutable := d.modifiers.contains .mutable
      value
      attributes
      span := d.span }).2)

def parameter (module : QualifiedName) (c : Context) (p : Param) : Parameter × Context :=
  let (type, c) := Context.resolveTypeExpr module c p.type
  let (default, c) := c.optionalConstant p.default type "A parameter default"
  ({ name := p.name, type, default }, c)

/-- The type that a declaration says is returned; nothing said is `System.Void`. -/
def returnType (module : QualifiedName) (c : Context) : Option TypeExpr → Option TypeId × Context
  | some type => Context.resolveTypeExpr module c type
  | none => (c.types.primitive? .void, c)

def method (module : QualifiedName) (owner : TypeId) (c : Context) (d : FnDecl) (name : String)
    (isStatic : Bool) : Method × Context :=
  let (returnType, c) := returnType module c d.returnType
  let (params, c) := Context.traverse (parameter module) c d.params
  let (attributes, c) := c.attributes module d.annotations .methods
  let special := if d.modifiers.contains .operator then c.specialName?.toList else []
  ({ name
     returnType
     params
     visibility := Modifier.visibility d.modifiers
     isStatic := isStatic || d.modifiers.contains .static
     isConstructor := name == ".ctor"
     isDestructor := name == ".dtor"
     isOverride := d.modifiers.contains .overriding
     isAbstract := (c.types.get owner).isInterface || d.modifiers.contains .abstract
     isForeign := d.modifiers.contains .foreign
     attributes := attributes ++ special
     span := d.span }, c)

/-- Registers a method and queues its body, unless its type has a method of the same signature. -/
def addMethod (l : Lowering) (module : QualifiedName) (owner : TypeId) (d : FnDecl)
    (name : String) (isStatic : Bool) : Option MethodRef × Lowering :=
  let (m, c) := method module owner l.context d name isStatic
  let def_ := c.types.get owner
  match def_.methods.find? (·.sameSignature m) with
  | some first =>
    (none, l.withContext (c.push (.duplicate
      s!"Function '{def_.name.text}.{name}' is already defined." d.span first.span)))
  | none =>
    let (ref, types) := c.types.addMethod owner m
    let pending := match d.body with
      | some body => [{ method := ref, module, body }]
      | none => []
    (some ref, { context := c.withTypes types, queue := l.queue ++ pending })

def getter (d : PropertyDecl) (type : Option TypeId) (a : Accessor) : Method :=
  { name := "get_" ++ d.name
    returnType := type
    visibility := Modifier.visibility a.modifiers (Modifier.visibility d.modifiers)
    isStatic := d.modifiers.contains .static
    span := a.span }

/-- A setter is private unless it says otherwise. -/
def setter (d : PropertyDecl) (type void : Option TypeId) (a : Accessor) : Method :=
  { name := "set_" ++ d.name
    returnType := void
    params := [{ name := "value", type }]
    visibility := Modifier.visibility a.modifiers .privateAccess
    isStatic := d.modifiers.contains .static
    span := a.span }

def addProperty (l : Lowering) (module : QualifiedName) (owner : TypeId) (d : PropertyDecl) :
    Lowering :=
  let (type, c) := Context.resolveTypeExpr module l.context d.type
  let void := c.types.primitive? .void
  let (attributes, c) := c.attributes module d.annotations .properties
  l.withContext (c.withTypes (c.types.addProperty owner
    { name := d.name
      type
      visibility := Modifier.visibility d.modifiers
      getter := d.getter.map (getter d type)
      setter := d.setter.map (setter d type void)
      attributes
      span := d.span }))

def addMember (module : QualifiedName) (owner : TypeId) (l : Lowering) : Member → Lowering
  | .field d => l.addField module owner d
  | .method d => (l.addMethod module owner d d.name false).2
  | .property d => l.addProperty module owner d
  | .error span =>
    l.withContext (l.context.report .malformedExpression span "Malformed member declaration"
      "the parser could not recover this member")

/-! ## Classes, structs and interfaces -/

/-- Adds a base to a list, unless it is unknown, sealed, derived from the type itself, or there
already. -/
def addBase (module : QualifiedName) (self : TypeId) (name : String)
    (s : List TypeId × Context) (base : TypeExpr) : List TypeId × Context :=
  let (bases, c) := s
  match Context.resolveTypeExpr module c base with
  | (none, c) => (bases, c)
  | (some id, c) =>
    let baseName := (c.types.get id).name.text
    if (c.types.get id).isSealed then
      (bases, c.report .invalidInheritance base.span
        s!"Cannot inherit from sealed Type {baseName}" "this type is sealed")
    else if c.types.derivesFrom id self then
      (bases, c.report .invalidInheritance base.span
        s!"Circular inheritance between {name} and {baseName}"
        "this base derives from the type itself")
    else if bases.contains id then (bases, c)
    else (bases ++ [id], c)

/-- The bases of a type: a struct starts with `System.ValueType`, and a class without a class among
its bases is put under `System.Object`. -/
def bases (module : QualifiedName) (self : TypeId) (c : Context) (d : TypeDecl) :
    List TypeId × Context :=
  let initial := if d.kind = .structType then (c.types.system? "ValueType").toList else []
  let (bases, c) := d.bases.foldl (addBase module self d.name) (initial, c)
  if d.kind = .classType ∧ bases.all (fun b => (c.types.get b).isInterface) then
    ((c.types.system? "Object").toList ++ bases, c)
  else (bases, c)

def attributeTarget : TypeKind → AttributeTargets
  | .classType => .classes
  | .structType => .structs
  | .interfaceType => .interfaces

def fillType (l : Lowering) (module : QualifiedName) (self : TypeId) (d : TypeDecl) : Lowering :=
  let (bases, c) := bases module self l.context d
  let (attributes, c) := c.attributes module d.annotations (attributeTarget d.kind)
  let c := c.modifyType self fun def_ =>
    { def_ with bases, attributes, visibility := Modifier.visibility d.modifiers }
  d.members.foldl (addMember module self) (l.withContext c)

/-- Gives a registered type its bases, attributes and visibility. -/
def describe (c : Context) (self : TypeId) (bases : List TypeId) (attributes : List Attribute)
    (modifiers : List Modifier) : Context :=
  c.modifyType self fun d =>
    { d with bases := d.bases ++ bases, attributes, visibility := Modifier.visibility modifiers }

/-! ## Enumerations -/

/-- The explicit value of a member, if it is an integer literal. -/
def explicitValue? (m : EnumMember) : Option Int :=
  (m.value.bind Expr.literal?).bind Literal.integer?

/-- Adds a member that has its explicit value, or one more than the member before. -/
def addEnumMember (module : QualifiedName) (self : TypeId) (underlying : Option Primitive)
    (s : Int × Context) (m : EnumMember) : Int × Context :=
  let (previous, c) := s
  let (value, c) := match m.value, explicitValue? m with
    | _, some v => (v, c)
    | some e, none =>
      (previous + 1, c.report .malformedExpression e.span
        s!"Enum member '{m.name}' needs an integer value" "expected an integer literal")
    | none, none => (previous + 1, c)
  let (primitive, c) := match m.type with
    | some type =>
      let (id, c) := Context.resolveTypeExpr module c type
      (c.types.primitiveOf? id, c)
    | none => (underlying, c)
  let types := (c.types.addField self
    { name := m.name
      type := some self
      isStatic := true
      isLiteral := true
      value := some (.ofInt value primitive)
      span := m.span }).2
  (value, c.withTypes types)

def fillEnum (c : Context) (module : QualifiedName) (self : TypeId) (d : EnumDecl) : Context :=
  let (underlying, c) := match d.underlying with
    | some type => Context.resolveTypeExpr module c type
    | none => (c.types.primitive? (.int .i32), c)
  let (attributes, c) := c.attributes module d.annotations .enums
  let c := describe c self (c.types.system? "Enum").toList attributes d.modifiers
  let (_, c) := d.members.foldl
    (addEnumMember module self (c.types.primitiveOf? underlying)) (-1, c)
  c.withTypes (c.types.addField self
    { name := "value__"
      type := underlying
      visibility := .privateAccess
      isMutable := true
      attributes := c.specialName?.toList
      span := d.span }).2

/-! ## Tagged unions -/

/-- The body of a variant's constructor: it calls the constructor of `System.Object` and stores its
parameters, by position, in the fields. -/
def variantBody (objectCtor : Option MethodRef) (fields : List FieldRef) : FlowGraph :=
  let (this, g) := FlowGraph.empty.append .entry (.loadArg .this)
  let g := match objectCtor with
    | some ctor => (g.append .entry (.call ctor [this])).2
    | none => g
  let g := fields.zipIdx.foldl (fun g (field, i) =>
    let (value, g) := g.append .entry (.loadArg (.param i))
    (g.append .entry (.storeField field this value)).2) g
  g.setFlow .entry (.ret none)

/-- Adds a field of a variant and gives its handle with its type. -/
def addVariantField (module : QualifiedName) (self : TypeId) (c : Context) (f : VariantField) :
    (FieldRef × Parameter) × Context :=
  let (type, c) := Context.resolveTypeExpr module c f.type
  let (ref, types) := c.types.addField self
    { name := f.name, type, isMutable := f.modifiers.contains .mutable, span := f.span }
  ((ref, { name := f.name, type }), c.withTypes types)

def fillVariant (module : QualifiedName) (base : TypeId) (objectCtor : Option MethodRef)
    (void : Option TypeId) (c : Context) (v : Variant × Option TypeId) : Context :=
  match v with
  | (_, none) => c
  | (v, some self) =>
    let c := c.modifyType self fun d => { d with bases := d.bases ++ [base] }
    let (fields, c) := Context.traverse (addVariantField module self) c v.fields
    c.withTypes (c.types.addMethod self
      { name := ".ctor"
        returnType := void
        params := fields.map (·.2)
        isConstructor := true
        body := some (variantBody objectCtor (fields.map (·.1)))
        span := v.span }).2

def fillTaggedUnion (c : Context) (module : QualifiedName) (base : TypeId)
    (variants : List (Option TypeId)) (d : TaggedUnionDecl) : Context :=
  let object := c.types.system? "Object"
  let objectCtor := object.bind fun o => c.types.findMethod? o ".ctor" 0
  let void := c.types.primitive? .void
  let (attributes, c) := c.attributes module d.annotations .classes
  let c := describe c base object.toList attributes d.modifiers
  (d.variants.zip variants).foldl (fillVariant module base objectCtor void) c

/-! ## Unions of fields -/

/-- The byte offset of a field, if it is a literal of 32 bits with a sign. -/
def explicitOffset? (f : UnionField) : Option Int :=
  ((f.offset.bind Expr.literal?).bind Literal.integer?).filter IntKind.i32.holds

def addUnionField (module : QualifiedName) (self : TypeId) (c : Context) (f : UnionField) :
    Context :=
  match explicitOffset? f with
  | none =>
    c.report .malformedExpression f.span s!"Field '{f.name}' needs an explicit byte offset"
      "expected an integer offset literal"
  | some offset =>
    let (type, c) := Context.resolveTypeExpr module c f.type
    let placed := (c.types.lookup Platform.fieldOffsetName).map fun type =>
      ({ type, args := [.i32 offset] } : Attribute)
    let (attributes, c) := c.attributes module f.annotations .fields
    c.withTypes (c.types.addField self
      { name := f.name
        type
        isMutable := true
        attributes := placed.toList ++ attributes
        span := f.span }).2

def fillUnion (c : Context) (module : QualifiedName) (self : TypeId) (d : UnionDecl) : Context :=
  let layout := (c.types.lookup Platform.structLayoutName).map fun type =>
    ({ type, args := [.i32 Platform.layoutExplicit] } : Attribute)
  let (attributes, c) := c.attributes module d.annotations .structs
  let c := describe c self (c.types.system? "ValueType").toList (layout.toList ++ attributes)
    d.modifiers
  d.fields.foldl (addUnionField module self) c

/-! ## Functions -/

/-- Name of the type that holds the functions outside of types. -/
def programName : QualifiedName := ⟨["Program"]⟩

/-- Name under which the function `main` is known. -/
def entryName : String := "Main"

/-- The type that holds the functions, registered when it is first used. -/
def programType (c : Context) : TypeId × Context :=
  let (id, types) := c.types.intern
    { name := programName
      origin := .defined
      bases := (c.types.system? "Object").toList
      isStatic := true
      isSealed := true
      isAbstract := true }
  (id, c.withTypes types)

/-- Adds a function; the first one called `main` or `Main` starts the program. -/
def addFunction (l : Lowering) (module : QualifiedName) (d : FnDecl) : Lowering :=
  let (program, c) := programType l.context
  let name := if d.name = "main" then entryName else d.name
  match (l.withContext c).addMethod module program d name true with
  | (none, l) => l
  | (some method, l) =>
    if name = entryName ∧ l.context.assembly.entryPoint.isNone then
      l.withContext
        { l.context with assembly := { l.context.assembly with entryPoint := some method } }
    else l

/-! ## Trees -/

def fill (module : QualifiedName) (l : Lowering) (d : Decl × Declared) : Lowering :=
  match d with
  | (.type d, .type id) => l.fillType module id d
  | (.enum d, .type id) => l.withContext (fillEnum l.context module id d)
  | (.taggedUnion d, .taggedUnion base variants) =>
    l.withContext (fillTaggedUnion l.context module base variants d)
  | (.union d, .type id) => l.withContext (fillUnion l.context module id d)
  | (.fn d, _) => l.addFunction module d
  | _ => l

def fillTree (l : Lowering) (t : Tree × List Declared) : Lowering :=
  (t.1.body.zip t.2).foldl (fill t.1.module) l

end Lowering

namespace Context

/-- Registers and fills in the types of all trees; the bodies of methods are left to be lowered. -/
def lowerDeclarations (c : Context) (trees : List Tree) : Lowering :=
  let (declared, c) := traverse Tree.declare c trees
  (trees.zip declared).foldl Lowering.fillTree { context := c }

end Context

end TreeCompiler
