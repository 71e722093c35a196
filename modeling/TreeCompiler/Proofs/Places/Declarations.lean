import TreeCompiler.Proofs.Lowering.Filling
import TreeCompiler.Proofs.Places.Tables

/-!
# Declarations without places

Lowering of declarations goes along with taking the places away: a function that is given the tree and the state
without places leaves what it would have left, without places. One lemma for each function.

* `traverse_gist`, `foldl_gist` : runs over lists;
* `resolveTypeExpr_gist` : type expressions;
* `Decl.declare_gist` : the types that a declaration registers;
* `Lowering.fill_gist` : what a declaration fills in.
-/

namespace TreeCompiler

open Context TypeTable Option TypeExpr TypeDef List
variable (module : QualifiedName) (c : Context)

namespace Expr
variable (e : Expr)

@[simp] theorem span_gist : e.gist.span = {} := by
  cases e <;> rfl

@[simp] theorem literal?_gist : e.gist.literal? = e.literal? := by
  cases e <;> rfl

theorem bind_literal?_gist (value : Option Expr) : (value.map gist).bind literal? = value.bind literal? := by
  cases value <;> simp

end Expr

@[simp] theorem TypeExpr.span_gist (t : TypeExpr) : t.gist.span = {} := by
  cases t <;> rfl

namespace Context
variable (c : Context)

@[simp] theorem types_gist : c.gist.types = c.types.gist := rfl

@[simp] theorem withTypes_gist (t : TypeTable) : (c.withTypes t).gist = c.gist.withTypes t.gist := rfl

@[simp] theorem push_gist (d : Diagnostic) : (c.push d).gist = c.gist.push d.gist := by
  simp [push, gist]

@[simp] theorem report_gist (code : ErrorCode) (span : Span) (message label : String) :
    (c.report code span message label).gist = c.gist.report code {} message label :=
  c.push_gist _

theorem modifyType_gist (id : TypeId) {f g : TypeDef → TypeDef} (h : ∀ d, g d.gist = (f d).gist) :
    c.gist.modifyType id g = (c.modifyType id f).gist :=
  congrArg c.gist.withTypes (c.types.modify_gist h id)

/-- A run over a list goes along with taking the places away if each of its steps does. -/
theorem foldl_gist {σ α : Type} {f : σ → α → σ} {v : σ → σ} {u : α → α}
    (h : ∀ s a, f (v s) (u a) = v (f s a)) (s : σ) (as : List α) : (as.map u).foldl f (v s) = v (as.foldl f s) := by
  rw [foldl_map]
  exact foldl_hom v h

theorem traverse_gist {α β : Type} {f : Context → α → β × Context} {u : α → α}
    (h : ∀ c a, f c.gist (u a) = (f c a).map id gist) (c : Context) (as : List α) :
    traverse f c.gist (as.map u) = (traverse f c as).map id gist := by
  induction as generalizing c with
  | nil => rfl
  | cons a as ih => simp [traverse, h, ih]

/-! ## Types -/

@[simp] theorem resolveType_gist (module name : QualifiedName) (span : Span) :
    c.gist.resolveType module name {} = (c.resolveType module name span).map id gist := by
  unfold resolveType
  rw [types_gist, resolveIn?_gist]
  split
  · rfl
  · simp [Prod.map]
    rfl

theorem instantiate_gist (definition : TypeId) (args : List TypeId) :
    c.gist.instantiate definition args = (c.instantiate definition args).map id gist := by
  have hname : instanceName c.gist.types definition args = instanceName c.types definition args := by
    simp [instanceName]
  unfold instantiate
  rw [hname, types_gist, get_gist, bases_gist, intern_of_gist_eq]
  · rfl
  · -- An instance of a delegate has no place of its own.
    rfl

theorem resolveDelegate_gist (params : List (Option TypeId)) (result : Option (Option TypeId)) (span : Span) :
    c.gist.resolveDelegate params result {} = (c.resolveDelegate params result span).map id gist := by
  have hdelegate : c.gist.delegateOf params result = c.delegateOf params result := by
    cases result <;> simp [delegateOf]
  rw [resolveDelegate_eq, resolveDelegate_eq, hdelegate]
  generalize c.delegateOf params result = delegate
  unfold delegateFor
  rw [resolveType_gist c _ _ span]
  rcases c.resolveType .global _ span with ⟨_ | definition, c⟩
  · rfl
  · cases allSome delegate.2 <;> simp [instantiate_gist]

mutual

theorem resolveTypeExpr_gist (module : QualifiedName) (c : Context) (type : TypeExpr) :
    resolveTypeExpr module c.gist type.gist = (resolveTypeExpr module c type).map id gist := by
  cases type with
  | named name span =>
    rw [TypeExpr.gist, resolveTypeExpr, resolveTypeExpr, resolveType_gist]
  | function params result span =>
    simp [TypeExpr.gist, resolveTypeExpr, resolveParams_gist module c params, resolveResult_gist]
    exact resolveDelegate_gist _ _ _ span

theorem resolveParams_gist (module : QualifiedName) (c : Context) (types : List TypeExpr) :
    resolveParams module c.gist (gistParams types) = (resolveParams module c types).map id gist := by
  cases types with
  | nil => simp [gistParams, resolveParams]
  | cons type types => simp [gistParams, resolveParams, resolveTypeExpr_gist, resolveParams_gist]

theorem resolveResult_gist (module : QualifiedName) (c : Context) (type : Option TypeExpr) :
    resolveResult module c.gist (gistResult type) = (resolveResult module c type).map id gist := by
  cases type with
  | none => simp [gistResult, resolveResult]
  | some type => simp [gistResult, resolveResult, resolveTypeExpr_gist]

end

attribute [simp] resolveTypeExpr_gist

@[simp] theorem literalType?_gist (l : Literal) : c.gist.literalType? l = c.literalType? l :=
  c.types.resolve?_gist _

/-! ## Registering types -/

@[simp] theorem declareType_gist {d : TypeDef} (hd : d.gist = d) (span : Span) :
    c.gist.declareType d {} = (c.declareType d span).map id gist := by
  have hdef : ({ d with span := {} } : TypeDef) = ({ d with span } : TypeDef).gist := by
    conv_lhs => rw [← hd]
    rfl
  unfold declareType
  rw [hdef, types_gist, insert_gist]
  cases c.types.insert { d with span } with
  | ok inserted => rfl
  | error existing =>
    simp [Except.map, Prod.map]
    rfl

end Context

theorem Variant.declare_gist (v : Variant) :
    declare module c.gist v.gist = (declare module c v).map id Context.gist := by
  unfold declare
  exact c.declareType_gist (by rfl) v.span

namespace Decl

theorem declaredType_gist (r : Option TypeId × Context) :
    declaredType (r.map id Context.gist) = (declaredType r).map id Context.gist := by
  obtain ⟨id', c⟩ := r
  cases id' <;> rfl

theorem declare_gist (d : Decl) : declare module c.gist d.gist = (declare module c d).map id Context.gist := by
  have hdeclare {def_ : TypeDef} (h : def_.gist = def_) (span : Span) : declaredType (c.gist.declareType def_ {}) =
        (declaredType (c.declareType def_ span)).map id Context.gist := by
    rw [c.declareType_gist h span, declaredType_gist]
  cases d with
  | type d | enum d | union d => exact hdeclare rfl d.span
  | taggedUnion d =>
    have hbase := c.declareType_gist (d := { definedType module d.name with isAbstract := true }) rfl d.span
    simp only [declare, gist, TaggedUnionDecl.gist, hbase]
    rcases c.declareType { definedType module d.name with isAbstract := true } d.span with ⟨_ | base, c⟩
    · rfl
    · simp [traverse_gist (Variant.declare_gist module)]
  | fn d => rfl
  | error span => simp [declare, gist]

end Decl

theorem Tree.declare_gist (t : Tree) : declare c.gist t.gist = (declare c t).map id Context.gist :=
  traverse_gist (Decl.declare_gist t.module) c t.body

/-! ## Attributes and constants -/

theorem AttributeUse.attribute?_gist (target : AttributeTargets) (c : Context) (a : AttributeUse) :
    attribute? module target c.gist a.gist = (attribute? module target c a).map id Context.gist := by
  have hname : a.gist.attributeName = a.attributeName := rfl
  unfold attribute?
  rw [hname, show a.gist.span = {} from rfl, c.resolveType_gist module _ a.span]
  rcases c.resolveType module a.attributeName a.span with ⟨_ | type, c⟩
  · rfl
  · simp only [Prod.map, id, types_gist, get_gist, usage_gist]
    split
    · rfl
    · rw [report_gist]
      rfl

namespace Context
variable (c : Context)

@[simp] theorem attributes_gist (module : QualifiedName) (annotations : List AttributeUse)
    (target : AttributeTargets) : c.gist.attributes module (annotations.map AttributeUse.gist) target =
      (c.attributes module annotations target).map id gist := by
  simp [attributes, traverse_gist (AttributeUse.attribute?_gist module target)]

@[simp] theorem specialName?_gist : c.gist.specialName? = c.specialName? := by
  simp [specialName?]

@[simp] theorem optionalConstant_gist (value : Option Expr) (type : Option TypeId) (what : String) :
    c.gist.optionalConstant (value.map Expr.gist) type what = (c.optionalConstant value type what).map id gist := by
  cases value with
  | none => rfl
  | some value =>
    simp [optionalConstant, constant?]
    cases value.literal? with
    | none => simp
    | some l => cases c.types.primitiveOf? type <;> rfl

end Context

/-! ## Fields, methods and properties -/

namespace Lowering
variable (l : Lowering) (module : QualifiedName) (c : Context) (self owner : TypeId) (underlying : Option Primitive)
  (d : FnDecl) (name : String)

@[simp] theorem context_gist : l.gist.context = l.context.gist := rfl

@[simp] theorem withContext_gist : (l.withContext c).gist = l.gist.withContext c.gist := rfl

theorem addField_gist (d : FieldDecl) : l.gist.addField module owner d.gist = (l.addField module owner d).gist := by
  simp [addField, FieldDecl.gist, Field.gist]

theorem parameter_gist (p : Param) : parameter module c.gist p.gist = (parameter module c p).map id Context.gist := by
  simp [parameter, Param.gist]

@[simp] theorem returnType_gist (type : Option TypeExpr) : returnType module c.gist (type.map TypeExpr.gist) =
      (returnType module c type).map id Context.gist := by
  cases type <;> simp [returnType]

@[simp] theorem method_gist (c : Context) (d : FnDecl) (name : String) (isStatic : Bool) :
    method module owner c.gist d.gist name isStatic =
      (method module owner c d name isStatic).map Method.gist Context.gist := by
  simp [method, FnDecl.gist, traverse_gist (parameter_gist module), Method.gist]

theorem addMethod_gist (isStatic : Bool) : l.gist.addMethod module owner d.gist name isStatic =
      (l.addMethod module owner d name isStatic).map id gist := by
  unfold addMethod
  rw [context_gist, method_gist]
  rcases method module owner l.context d name isStatic with ⟨m, c⟩
  -- A signature has no places, so that the same method, if any, is in the way.
  have hsame : (fun first : Method => first.sameSignature m.gist) ∘ Method.gist =
      fun first => first.sameSignature m := rfl
  simp only [Prod.map, id, types_gist, get_gist, methods_gist, find?_map, hsame]
  cases (c.types.get owner).methods.find? (·.sameSignature m) with
  | some first =>
    simp
    rfl
  | none =>
    have href : (c.types.gist.addMethod owner m.gist).1 = (c.types.addMethod owner m).1 := by
      simp [TypeTable.addMethod]
    cases hbody : d.body <;> simp [FnDecl.gist, gist, PendingBody.gist, hbody, href]

theorem addProperty_gist (d : PropertyDecl) :
    l.gist.addProperty module owner d.gist = (l.addProperty module owner d).gist := by
  simp [addProperty, PropertyDecl.gist, Property.gist]
  rfl

theorem addMember_gist (l : Lowering) (m : Member) :
    addMember module owner l.gist m.gist = (addMember module owner l m).gist := by
  cases m with
  | field d => exact l.addField_gist module owner d
  | method d => exact congrArg Prod.snd (l.addMethod_gist module owner d d.name false)
  | property d => exact l.addProperty_gist module owner d
  | error span => simp [addMember, Member.gist]

/-! ## Classes, structs and interfaces -/

theorem addBase_gist (s : List TypeId × Context) (base : TypeExpr) :
    addBase module self name (s.map id Context.gist) base.gist =
      (addBase module self name s base).map id Context.gist := by
  obtain ⟨bases, c⟩ := s
  simp only [addBase, Prod.map, id, resolveTypeExpr_gist]
  rcases resolveTypeExpr module c base with ⟨_ | type, c⟩
  · rfl
  · simp only [types_gist, get_gist, isSealed_gist, derivesFrom_gist]
    split_ifs <;> simp

@[simp] theorem bases_gist (c : Context) (d : TypeDecl) :
    bases module self c.gist d.gist = (bases module self c d).map id Context.gist := by
  have hfold (bases : List TypeId) := foldl_gist (addBase_gist module self d.name) (bases, c) d.bases
  simp only [Prod.map, id] at hfold
  simp only [bases, TypeDecl.gist, types_gist, system?_gist, hfold, get_gist, isInterface_gist]
  split_ifs <;> rfl

theorem fillType_gist (d : TypeDecl) : l.gist.fillType module self d.gist = (l.fillType module self d).gist := by
  have hannotations : d.gist.annotations = d.annotations.map AttributeUse.gist := rfl
  have hmembers : d.gist.members = d.members.map Member.gist := rfl
  simp only [fillType, context_gist, bases_gist, hannotations, attributes_gist, hmembers, Prod.map, id]
  rw [← foldl_gist (addMember_gist module self), withContext_gist, ← modifyType_gist]
  · rfl
  · exact fun _ => rfl

@[simp] theorem describe_gist (bases : List TypeId) (attributes : List Attribute) (modifiers : List Modifier) :
    (describe c self bases attributes modifiers).gist = describe c.gist self bases attributes modifiers :=
  .symm (c.modifyType_gist self fun _ => rfl)

/-! ## Enumerations -/

def addEnumValue (module : QualifiedName) (self : TypeId) (underlying : Option Primitive) (m : EnumMember)
    (value : Int) (c : Context) : Int × Context :=
  let (primitive, c) := match m.type with
    | some type =>
      let (id, c) := resolveTypeExpr module c type
      (c.types.primitiveOf? id, c)
    | none => (underlying, c)
  (value, c.withTypes (c.types.addField self
    { name := m.name
      type := some self
      isStatic := true
      isLiteral := true
      value := some (.ofInt value primitive)
      span := m.span }).2)

theorem addEnumValue_gist (m : EnumMember) (value : Int) (c : Context) :
    addEnumValue module self underlying m.gist value c.gist =
      (addEnumValue module self underlying m value c).map id Context.gist := by
  cases htype : m.type <;> simp [addEnumValue, EnumMember.gist, Field.gist, htype]

theorem addEnumMember_gist (s : Int × Context) (m : EnumMember) :
    addEnumMember module self underlying (s.map id Context.gist) m.gist =
      (addEnumMember module self underlying s m).map id Context.gist := by
  obtain ⟨previous, c⟩ := s
  have hvalue := addEnumValue_gist module self underlying m
  have hexplicit : explicitValue? m.gist = explicitValue? m :=
    congrArg (·.bind Literal.integer?) (Expr.bind_literal?_gist m.value)
  unfold addEnumMember
  rw [hexplicit, show m.gist.value = m.value.map Expr.gist from rfl]
  cases explicitValue? m with
  | some value => exact hvalue value c
  | none =>
    cases m.value with
    | none => exact hvalue (previous + 1) c
    | some e =>
      dsimp only [Option.map, Prod.map, id]
      rw [Expr.span_gist, show m.gist.name = m.name from rfl, ← report_gist c _ e.span]
      exact hvalue (previous + 1) _

theorem fillEnumOver_gist (module : QualifiedName) (self : TypeId) (d : EnumDecl)
    (underlying : Option TypeId) : fillEnumOver c.gist module self d.gist underlying =
      (fillEnumOver c module self d underlying).gist := by
  have hmembers (p : Option Primitive) (c : Context) :=
    foldl_gist (addEnumMember_gist module self p) (-1, c) d.members
  simp only [Prod.map, id] at hmembers
  simp [fillEnumOver, EnumDecl.gist, ← describe_gist, hmembers, Field.gist]

theorem fillEnum_gist (module : QualifiedName) (self : TypeId) (d : EnumDecl) :
    fillEnum c.gist module self d.gist = (fillEnum c module self d).gist := by
  have hunderlying : enumUnderlying module c.gist d.gist.underlying =
      (enumUnderlying module c d.underlying).map id Context.gist := by
    cases h : d.underlying <;> simp [enumUnderlying, EnumDecl.gist, h]
  rw [fillEnum_eq, fillEnum_eq, hunderlying, ← fillEnumOver_gist]
  rfl

/-! ## Tagged unions -/

theorem addVariantField_gist (c : Context) (f : VariantField) : addVariantField module self c.gist f.gist =
      (addVariantField module self c f).map id Context.gist := by
  have href (t : TypeTable) (f : Field) : (t.gist.addField self f).1 = (t.addField self f).1 := by
    simp [TypeTable.addField]
  simp [addVariantField, VariantField.gist, Field.gist, href]
  rfl

theorem fillVariant_gist (base : TypeId) (objectCtor : Option MethodRef) (void : Option TypeId)
    (c : Context) (v : Variant × Option TypeId) :
    fillVariant module base objectCtor void c.gist (v.map Variant.gist id) =
      (fillVariant module base objectCtor void c v).gist := by
  obtain ⟨v, _ | self⟩ := v
  · rfl
  · have hbase := c.modifyType_gist self (f := fun d => { d with bases := d.bases ++ [base] })
      (g := fun d => { d with bases := d.bases ++ [base] }) fun _ => rfl
    simp [fillVariant, hbase, Variant.gist, traverse_gist (addVariantField_gist module self), Method.gist]

theorem fillTaggedUnion_gist (module : QualifiedName) (base : TypeId) (variants : List (Option TypeId))
    (d : TaggedUnionDecl) : fillTaggedUnion c.gist module base variants d.gist =
      (fillTaggedUnion c module base variants d).gist := by
  simp [fillTaggedUnion, TaggedUnionDecl.gist, zip_map_left, ← describe_gist,
    foldl_gist (fillVariant_gist module base _ _)]

/-! ## Unions of fields -/

theorem addUnionField_gist (c : Context) (f : UnionField) :
    addUnionField module self c.gist f.gist = (addUnionField module self c f).gist := by
  have hoffset : explicitOffset? f.gist = explicitOffset? f :=
    congrArg (fun l => (l.bind Literal.integer?).filter IntKind.i32.holds) (Expr.bind_literal?_gist f.offset)
  unfold addUnionField
  rw [hoffset]
  cases explicitOffset? f <;> simp [UnionField.gist, Field.gist]

theorem fillUnion_gist (module : QualifiedName) (self : TypeId) (d : UnionDecl) :
    fillUnion c.gist module self d.gist = (fillUnion c module self d).gist := by
  simp [fillUnion, UnionDecl.gist, ← describe_gist, foldl_gist (addUnionField_gist module self)]

/-! ## Functions and trees -/

@[simp] theorem programType_gist : programType c.gist = (programType c).map id Context.gist := by
  unfold programType
  rw [types_gist, system?_gist, intern_of_gist_eq]
  · rfl
  · rfl

theorem addFunction_gist : l.gist.addFunction module d.gist = (l.addFunction module d).gist := by
  simp only [addFunction, context_gist, programType_gist, Prod.map, id, ← withContext_gist, addMethod_gist]
  rw [show d.gist.name = d.name from rfl]
  generalize (if d.name = "main" then entryName else d.name) = name
  rcases (l.withContext _).addMethod module _ d name true with ⟨_ | method, l⟩
  · rfl
  · dsimp only
    rw [show l.gist.context.assembly.entryPoint = l.context.assembly.entryPoint from rfl]
    split <;> rfl

theorem fill_gist (l : Lowering) (d : Decl × Declared) :
    fill module l.gist (d.map Decl.gist id) = (fill module l d).gist := by
  obtain ⟨d, declared⟩ := d
  cases d with
  | fn d => exact l.addFunction_gist module d
  | error span => rfl
  | type d =>
    cases declared with
    | type id => exact l.fillType_gist module id d
    | _ => rfl
  | enum d =>
    cases declared with
    | type id => exact congrArg l.gist.withContext (fillEnum_gist l.context module id d)
    | _ => rfl
  | union d =>
    cases declared with
    | type id => exact congrArg l.gist.withContext (fillUnion_gist l.context module id d)
    | _ => rfl
  | taggedUnion d =>
    cases declared with
    | taggedUnion base variants =>
      exact congrArg l.gist.withContext (fillTaggedUnion_gist l.context module base variants d)
    | _ => rfl

theorem fillTree_gist (t : Tree × List Declared) : l.gist.fillTree (t.map Tree.gist id) = (l.fillTree t).gist := by
  unfold fillTree
  rw [show (t.map Tree.gist id).1.body = t.1.body.map Decl.gist from rfl, zip_map_left]
  exact foldl_gist (fill_gist t.1.module) l _

end Lowering

/-- Lowering of declarations goes along with taking the places away. -/
theorem Context.lowerDeclarations_gist (trees : List Tree) :
    c.gist.lowerDeclarations (trees.map Tree.gist) = (c.lowerDeclarations trees).gist := by
  unfold lowerDeclarations
  rw [traverse_gist Tree.declare_gist]
  dsimp only [Prod.map, id]
  rw [zip_map_left]
  exact foldl_gist Lowering.fillTree_gist { context := _ } _

end TreeCompiler
