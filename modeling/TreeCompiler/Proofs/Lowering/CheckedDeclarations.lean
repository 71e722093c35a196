import TreeCompiler.Proofs.Lowering.Filling

/-!
# Declarations with their handles checked

Every function that registers or fills in a type, once more, with a check: a handle that it follows is looked
at first, and one that leads nowhere is a defect. As long as all handles in the state lead somewhere no check
ever fails, and the function does what it does without.

* `Checked.traverse_eq`, `Checked.foldlM_eq` : runs over lists;
* `Checked.declare_eq` : a declaration registers its types.
-/

namespace TreeCompiler.Checked

open Lowering Context FlowGraph TypeTable List Option Defect

variable {α β σ : Type} {t : TypeTable} {type : Option TypeId} {owner self : TypeId} {c : Context}
  {l : Lowering} {g : FlowGraph} (module : QualifiedName) {f : σ → α → Except Defect (β × σ)} {I : σ → Prop}
  (as : List α) (this : InstrId) (objectCtor : Option MethodRef) (fields : List FieldRef)

/-! ## Reads -/

theorem bind_ok {x : Except Defect α} {a : α} {k : α → Except Defect β} {r : Except Defect β}
    (hx : x = .ok a) (hk : k a = r) : x >>= k = r := by
  rw [hx]
  exact hk

/-- What is computed from the types behind some handles. -/
def reading (t : TypeTable) (ids : List TypeId) (a : α) : Except Defect α := do
  let _ ← ids.mapM fun id => entry t.defs id.index
  return a

theorem reading_eq {ids : List TypeId} (h : ∀ id ∈ ids, id.index < t.size) (a : α) : reading t ids a = .ok a := by
  have hread : ids.mapM (fun id => entry t.defs id.index) = .ok (ids.map t.get) :=
    mapM_eq_ok_map fun id hid => entry_eq_get (h id hid)
  exact bind_ok hread rfl

theorem reading_one {id : TypeId} (h : id.index < t.size) (a : α) : reading t [id] a = .ok a :=
  reading_eq (fun _ hid => mem_singleton.mp hid ▸ h) a

theorem reading_option (h : t.Covers type) (a : α) : reading t type.toList a = .ok a :=
  reading_eq (fun id hid => h id (mem_toList.mp hid)) a

/-- Looks for `ancestor` along the first bases, at most `fuel` types. -/
def reaches (t : TypeTable) (ancestor : TypeId) : Nat → TypeId → Except Defect Bool
  | 0, _ => return false
  | fuel + 1, id =>
    if id == ancestor then return true
    else do
      let d ← entry t.defs id.index
      match d.baseClass? with
      | some base => reaches t ancestor fuel base
      | none => return false

theorem reaches_eq (ht : t.Bounded) (ancestor : TypeId) (fuel : Nat) {id : TypeId} (hid : id.index < t.size) :
    reaches t ancestor fuel id = .ok (t.reaches ancestor fuel id) := by
  induction fuel generalizing id with
  | zero => rfl
  | succ fuel ih =>
    unfold reaches TypeTable.reaches
    cases heq : id == ancestor with
    | true => rfl
    | false =>
      refine bind_ok (entry_eq_get hid) ?_
      cases hbase : (t.get id).baseClass? with
      | none => rfl
      | some base => exact ih ((ht.get hid).bases base (mem_of_mem_head? hbase))

/-! ## Runs -/

/-- Runs over a list from left to right, passing the state on. -/
def traverse (f : σ → α → Except Defect (β × σ)) : σ → List α → Except Defect (List β × σ)
  | s, [] => return ([], s)
  | s, a :: as => do
    let (b, s) ← f s a
    let (bs, s) ← traverse f s as
    return (b :: bs, s)

theorem traverse_eq {g : σ → α → β × σ} (hf : ∀ s, I s → ∀ a, f s a = .ok (g s a) ∧ I (g s a).2) {s : σ} (hs : I s) :
    traverse f s as = .ok (Context.traverse g s as) ∧ I (Context.traverse g s as).2 := by
  induction as generalizing s with
  | nil => exact ⟨rfl, hs⟩
  | cons a as ih =>
    obtain ⟨hfirst, hnext⟩ := hf s hs a
    obtain ⟨hrest, hend⟩ := ih hnext
    refine ⟨?_, hend⟩
    unfold traverse
    exact bind_ok hfirst (bind_ok hrest rfl)

theorem traverse_ok {g : σ → α → β × σ} (hf : ∀ s a, f s a = .ok (g s a)) (s : σ) (as : List α) :
    traverse f s as = .ok (Context.traverse g s as) :=
  (traverse_eq (I := fun _ => True) as (fun s _ a => ⟨hf s a, trivial⟩) trivial).1

theorem foldlM_eq {f : σ → α → Except Defect σ} {g : σ → α → σ}
    (hf : ∀ s, I s → ∀ a ∈ as, f s a = .ok (g s a) ∧ I (g s a)) {s : σ} (hs : I s) :
    as.foldlM f s = .ok (as.foldl g s) ∧ I (as.foldl g s) := by
  induction as generalizing s with
  | nil => exact ⟨rfl, hs⟩
  | cons a as ih =>
    obtain ⟨hfirst, hnext⟩ := hf s hs a mem_cons_self
    obtain ⟨hrest, hend⟩ := ih (fun s' hs' b hb => hf s' hs' b (mem_cons_of_mem _ hb)) hnext
    rw [foldlM_cons, foldl_cons]
    exact ⟨bind_ok hfirst hrest, hend⟩

/-! ## Registering types -/

/-- A name that is taken leads to the type that has it. -/
def declareType (c : Context) (d : TypeDef) (span : Span) : Except Defect (Option TypeId × Context) :=
  reading c.types (c.types.lookup d.name).toList (c.declareType d span)

theorem declareType_eq (c : Context) (d : TypeDef) (span : Span) :
    declareType c d span = .ok (c.declareType d span) :=
  reading_option (c.types.covers_lookup d.name) _

def declareVariant (c : Context) (v : Variant) :
    Except Defect (Option TypeId × Context) :=
  declareType c { definedType module v.name with isSealed := true } v.span

def declare (c : Context) : Decl → Except Defect (Declared × Context)
  | .type d => return Decl.declaredType (← declareType c (d.typeDef module) d.span)
  | .enum d => return Decl.declaredType (← declareType c (valueTypeDef module d.name) d.span)
  | .union d => return Decl.declaredType (← declareType c (valueTypeDef module d.name) d.span)
  | .taggedUnion d => do
    match ← declareType c { definedType module d.name with isAbstract := true } d.span with
    | (none, c) => return (.nothing, c)
    | (some base, c) =>
      let (variants, c) ← traverse (declareVariant module) c d.variants
      return (.taggedUnion base variants, c)
  | .fn d => return (Decl.fn d).declare module c
  | .error span => return (Decl.error span).declare module c

theorem declare_eq (c : Context) (d : Decl) : declare module c d = .ok (d.declare module c) := by
  cases d with
  | type d | enum d | union d => exact bind_ok (declareType_eq _ _ _) rfl
  | fn d | error span => rfl
  | taggedUnion d =>
    unfold declare Decl.declare
    refine bind_ok (declareType_eq _ _ _) ?_
    dsimp only
    generalize c.declareType _ d.span = r
    obtain ⟨base, c'⟩ := r
    cases base with
    | none => rfl
    | some base =>
      have hvariants : traverse (declareVariant module) c' d.variants =
          .ok (Context.traverse (Variant.declare module) c' d.variants) :=
        traverse_ok (fun _ _ => declareType_eq _ _ _) c' d.variants
      exact bind_ok hvariants rfl

/-- All declarations register their types, in order. -/
def declareAll (c : Context) (ds : List Declaration) : Except Defect (List Declared × Context) :=
  traverse (fun c d => declare d.module c d.decl) c ds

theorem declareAll_eq (c : Context) (ds : List Declaration) : declareAll c ds = .ok (c.declareAll ds) :=
  traverse_ok (fun (c : Context) (d : Declaration) => declare_eq d.module c d.decl) c ds

/-! ## Types and attributes -/

/-- A delegate is named after its definition and its arguments. -/
def resolveDelegate (c : Context) (params : List (Option TypeId)) (result : Option (Option TypeId))
    (span : Span) : Except Defect (Option TypeId × Context) :=
  let (family, args) := c.delegateOf params result
  let definition := c.types.resolveIn? .global (delegateName family args.length)
  reading c.types (definition.toList ++ args.filterMap id) (c.resolveDelegate params result span)

theorem resolveDelegate_eq (c : Context) {params : List (Option TypeId)} {result : Option (Option TypeId)}
    (hparams : ∀ p ∈ params, c.types.Covers p) (hresult : ∀ r, result = some r → c.types.Covers r)
    (span : Span) : resolveDelegate c params result span = .ok (c.resolveDelegate params result span) := by
  refine reading_eq (fun id hid => ?_) _
  rcases mem_append.mp hid with hdefinition | harg
  · exact lt_size_of_resolveIn? (mem_toList.mp hdefinition)
  · obtain ⟨arg, hmem, rfl⟩ := mem_filterMap.mp harg
    rcases mem_delegateOf hmem with hparam | hres
    · exact hparams _ hparam id rfl
    · exact hresult _ hres id rfl

mutual

/-- The type that a type expression means inside a module. -/
def resolveTypeExpr (module : QualifiedName) : Context → TypeExpr → Except Defect (Option TypeId × Context)
  | c, .named name span => return c.resolveType module name span
  | c, .function params result span => do
    let (params, c) ← resolveParams module c params
    let (result, c) ← resolveResult module c result
    resolveDelegate c params result span

def resolveParams (module : QualifiedName) :
    Context → List TypeExpr → Except Defect (List (Option TypeId) × Context)
  | c, [] => return ([], c)
  | c, t :: ts => do
    let (id, c) ← resolveTypeExpr module c t
    let (ids, c) ← resolveParams module c ts
    return (id :: ids, c)

def resolveResult (module : QualifiedName) :
    Context → Option TypeExpr → Except Defect (Option (Option TypeId) × Context)
  | c, none => return (none, c)
  | c, some t => do
    let (id, c) ← resolveTypeExpr module c t
    return (some id, c)

end

mutual

theorem resolveTypeExpr_eq (module : QualifiedName) (c : Context) (type : TypeExpr) :
    resolveTypeExpr module c type = .ok (Context.resolveTypeExpr module c type) := by
  cases type with
  | named name span =>
    rw [resolveTypeExpr, Context.resolveTypeExpr]
    rfl
  | function params result span =>
    have hcovered := (instantiates_resolveParams module c params).2.2
    obtain ⟨hmore, -, hresult⟩ :=
      instantiates_resolveResult module (Context.resolveParams module c params).2 result
    rw [resolveTypeExpr, Context.resolveTypeExpr]
    refine bind_ok (resolveParams_eq module c params) (bind_ok (resolveResult_eq module _ result) ?_)
    exact resolveDelegate_eq _ (fun p hp => (hmore.suits (hcovered p hp)).found)
      (fun r hr => (hresult r hr).found) span

theorem resolveParams_eq (module : QualifiedName) (c : Context) (types : List TypeExpr) :
    resolveParams module c types = .ok (Context.resolveParams module c types) := by
  cases types with
  | nil =>
    rw [resolveParams, Context.resolveParams]
    rfl
  | cons type types =>
    rw [resolveParams, Context.resolveParams]
    exact bind_ok (resolveTypeExpr_eq module c type) (bind_ok (resolveParams_eq module _ types) rfl)

theorem resolveResult_eq (module : QualifiedName) (c : Context) (type : Option TypeExpr) :
    resolveResult module c type = .ok (Context.resolveResult module c type) := by
  cases type with
  | none =>
    rw [resolveResult, Context.resolveResult]
    rfl
  | some type =>
    rw [resolveResult, Context.resolveResult]
    exact bind_ok (resolveTypeExpr_eq module c type) rfl

end

/-- Whether an attribute may stand at `target` is said by its type. -/
def attribute? (target : AttributeTargets) (c : Context) (a : AttributeUse) :
    Except Defect (Option Attribute × Context) :=
  reading c.types (c.types.resolveIn? module a.attributeName).toList (a.attribute? module target c)

def attributes (c : Context) (module : QualifiedName) (annotations : List AttributeUse)
    (target : AttributeTargets) : Except Defect (List Attribute × Context) := do
  let (found, c) ← traverse (attribute? module target) c annotations
  return (found.filterMap id, c)

theorem attributes_eq (c : Context) (annotations : List AttributeUse) (target : AttributeTargets) :
    attributes c module annotations target = .ok (c.attributes module annotations target) := by
  have hall : traverse (attribute? module target) c annotations =
      .ok (Context.traverse (AttributeUse.attribute? module target) c annotations) :=
    traverse_ok (fun _ _ => reading_option (fun _ hid => lt_size_of_resolveIn? hid) _) c annotations
  exact bind_ok hall rfl

/-- A constant takes the type that is expected of it. -/
def optionalConstant (c : Context) (value : Option Expr) (type : Option TypeId) (what : String) :
    Except Defect (Option Constant × Context) :=
  reading c.types type.toList (c.optionalConstant value type what)

theorem optionalConstant_eq (c : Context) (value : Option Expr) (htype : c.types.Covers type) (what : String) :
    optionalConstant c value type what = .ok (c.optionalConstant value type what) :=
  reading_option htype _

/-! ## Fields, methods and properties -/

def addField (l : Lowering) (module : QualifiedName) (owner : TypeId) (d : FieldDecl) :
    Except Defect Lowering := do
  let (type, c) ← resolveTypeExpr module l.context d.type
  let (_, c) ← optionalConstant c d.value type "A field initializer"
  let (_, c) ← attributes c module d.annotations .fields
  reading c.types [owner] (l.addField module owner d)

theorem addField_eq (howner : owner.index < l.context.types.size) (d : FieldDecl) :
    addField l module owner d = .ok (l.addField module owner d) := by
  have htype := resolves_resolveTypeExpr module l.context d.type
  have hvalue := htype.instantiates.trans (instantiates_optionalConstant _ d.value
    (Context.resolveTypeExpr module l.context d.type).1 "A field initializer")
  have hbefore := hvalue.trans (instantiates_attributes _ module d.annotations .fields).1
  refine bind_ok (resolveTypeExpr_eq module l.context d.type) ?_
  refine bind_ok (optionalConstant_eq _ d.value htype.found _) (bind_ok (attributes_eq _ _ _ _) ?_)
  exact reading_one (howner.trans_le hbefore.size) _

def parameter (c : Context) (p : Param) : Except Defect (Parameter × Context) := do
  let (type, c') ← resolveTypeExpr module c p.type
  let _ ← optionalConstant c' p.default type "A parameter default"
  return Lowering.parameter module c p

theorem parameter_eq (c : Context) (p : Param) : parameter module c p = .ok (Lowering.parameter module c p) := by
  have hcovers := (resolves_resolveTypeExpr module c p.type).found
  exact bind_ok (resolveTypeExpr_eq module c p.type) (bind_ok (optionalConstant_eq _ p.default hcovers _) rfl)

def returnType (c : Context) :
    Option TypeExpr → Except Defect (Option TypeId × Context)
  | some type => resolveTypeExpr module c type
  | none => return Lowering.returnType module c none

theorem returnType_eq (c : Context) (type : Option TypeExpr) :
    returnType module c type = .ok (Lowering.returnType module c type) := by
  cases type with
  | none => rfl
  | some type => exact resolveTypeExpr_eq module c type

def method (owner : TypeId) (c : Context) (d : FnDecl) (name : String) (isStatic : Bool) :
    Except Defect (Method × Context) := do
  let (_, c') ← returnType module c d.returnType
  let (_, c') ← traverse (parameter module) c' d.params
  let (_, c') ← attributes c' module d.annotations .methods
  reading c'.types [owner] (Lowering.method module owner c d name isStatic)

theorem method_eq (howner : owner.index < c.types.size) (d : FnDecl) (name : String) (isStatic : Bool) :
    method module owner c d name isStatic = .ok (Lowering.method module owner c d name isStatic) := by
  have hsize := (instantiates_method module owner c d name isStatic).size
  have hparams : ∀ c', traverse (parameter module) c' d.params =
      .ok (Context.traverse (Lowering.parameter module) c' d.params) :=
    fun c' => traverse_ok (parameter_eq module) c' d.params
  refine bind_ok (returnType_eq module c d.returnType) (bind_ok (hparams _) (bind_ok (attributes_eq _ _ _ _) ?_))
  exact reading_one (howner.trans_le hsize) _

/-- A method is compared with those that its owner has. -/
def addMethod (l : Lowering) (module : QualifiedName) (owner : TypeId) (d : FnDecl) (name : String)
    (isStatic : Bool) : Except Defect (Option MethodRef × Lowering) := do
  let (_, c) ← method module owner l.context d name isStatic
  reading c.types [owner] (l.addMethod module owner d name isStatic)

theorem addMethod_eq (howner : owner.index < l.context.types.size) (d : FnDecl) (name : String) (isStatic : Bool) :
    addMethod l module owner d name isStatic = .ok (l.addMethod module owner d name isStatic) := by
  have hsize := (instantiates_method module owner l.context d name isStatic).size
  exact bind_ok (method_eq module howner d name isStatic) (reading_one (howner.trans_le hsize) _)

def addProperty (l : Lowering) (module : QualifiedName) (owner : TypeId) (d : PropertyDecl) :
    Except Defect Lowering := do
  let (_, c) ← resolveTypeExpr module l.context d.type
  let (_, c) ← attributes c module d.annotations .properties
  reading c.types [owner] (l.addProperty module owner d)

theorem addProperty_eq (howner : owner.index < l.context.types.size) (d : PropertyDecl) :
    addProperty l module owner d = .ok (l.addProperty module owner d) := by
  have hbefore := (resolves_resolveTypeExpr module l.context d.type).instantiates.trans
    (instantiates_attributes _ module d.annotations .properties).1
  refine bind_ok (resolveTypeExpr_eq module l.context d.type) (bind_ok (attributes_eq _ _ _ _) ?_)
  exact reading_one (howner.trans_le hbefore.size) _

def addMember (owner : TypeId) (l : Lowering) : Member → Except Defect Lowering
  | .field d => addField l module owner d
  | .method d => return (← addMethod l module owner d d.name false).2
  | .property d => addProperty l module owner d
  | .error span => return Lowering.addMember module owner l (.error span)

theorem addMember_eq (howner : owner.index < l.context.types.size) (m : Member) :
    addMember module owner l m = .ok (Lowering.addMember module owner l m) := by
  cases m with
  | field d => exact addField_eq module howner d
  | method d => exact bind_ok (addMethod_eq module howner d d.name false) rfl
  | property d => exact addProperty_eq module howner d
  | error span => rfl

/-! ## Classes, structs and interfaces -/

/-- A base is refused if it is sealed or derives from the type itself. -/
def addBase (self : TypeId) (name : String) (s : List TypeId × Context) (base : TypeExpr) :
    Except Defect (List TypeId × Context) := do
  let (id, c) ← resolveTypeExpr module s.2 base
  let _ ← id.mapM (reaches c.types self (c.types.size + 1))
  reading c.types id.toList (Lowering.addBase module self name s base)

theorem addBase_eq (self : TypeId) (name : String) {s : List TypeId × Context} (hs : s.2.Bounded)
    (base : TypeExpr) : addBase module self name s base = .ok (Lowering.addBase module self name s base) := by
  have hresolve := resolves_resolveTypeExpr module s.2 base
  refine bind_ok (resolveTypeExpr_eq module s.2 base) ?_
  generalize Context.resolveTypeExpr module s.2 base = r at hresolve
  obtain ⟨id, c⟩ := r
  have htypes := (hresolve.instantiates.enlarges.bounded hs).types
  cases id with
  | none => exact reading_option hresolve.found _
  | some id =>
    have hwalk : (some id).mapM (reaches c.types self (c.types.size + 1)) =
        .ok (some (c.types.reaches self (c.types.size + 1) id)) := by
      rw [mapM_some, reaches_eq htypes self _ (hresolve.found id rfl)]
      rfl
    exact bind_ok hwalk (reading_option hresolve.found _)

/-- A class is put under the root class if all its bases are interfaces. -/
def bases (self : TypeId) (c : Context) (d : TypeDecl) : Except Defect (List TypeId × Context) := do
  let initial := if d.kind = .structType then (c.types.system? "ValueType").toList else []
  let (bases, c') ← d.bases.foldlM (addBase module self d.name) (initial, c)
  reading c'.types bases (Lowering.bases module self c d)

theorem bases_eq (self : TypeId) (hc : c.Bounded) (d : TypeDecl) :
    bases module self c d = .ok (Lowering.bases module self c d) := by
  have hall := foldlM_eq (I := fun s : List TypeId × Context => c.Enlarges s.2) d.bases
    (fun s hs base _ => ⟨addBase_eq module self d.name (hs.bounded hc) base,
      hs.trans (consults_addBase module self d.name s base).enlarges⟩)
    (s := (if d.kind = .structType then (c.types.system? "ValueType").toList else [], c)) (.refl c)
  refine bind_ok hall.1 ?_
  exact reading_eq (lt_size_addBases module self d.name (lt_size_initial c d) d.bases) _

def fillType (l : Lowering) (module : QualifiedName) (self : TypeId) (d : TypeDecl) :
    Except Defect Lowering := do
  let (bases, c) ← bases module self l.context d
  let (attributes, c) ← attributes c module d.annotations (attributeTarget d.kind)
  let c ← reading c.types [self] (c.modifyType self fun def_ =>
    { def_ with bases, attributes, visibility := Modifier.visibility d.modifiers })
  d.members.foldlM (addMember module self) (l.withContext c)

theorem fillType_eq (hl : l.context.Bounded) (hself : self.index < l.context.types.size) (d : TypeDecl) :
    fillType l module self d = .ok (l.fillType module self d) := by
  have hlt := hself.trans_le ((consults_bases module self l.context d).size.trans
    (instantiates_attributes _ module d.annotations (attributeTarget d.kind)).1.size)
  refine bind_ok (bases_eq module self hl d) (bind_ok (attributes_eq _ _ _ _) ?_)
  refine bind_ok (reading_one hlt _) ?_
  refine (foldlM_eq (I := fun l' : Lowering => self.index < l'.context.types.size) d.members
    (fun l' hl' m _ => ⟨addMember_eq module hl' m, ?_⟩) ?_).1
  · exact hl'.trans_le (keeps_addMember module self l' m).size
  · exact hlt.trans_eq (size_modify _ _ _).symm

/-! ## Enumerations and unions of fields -/

/-- Gives a registered type its bases, attributes and visibility. -/
def describe (c : Context) (self : TypeId) (bases : List TypeId) (attributes : List Attribute)
    (modifiers : List Modifier) : Except Defect Context :=
  reading c.types [self] (Lowering.describe c self bases attributes modifiers)

/-- The type that a member of an enumeration says, if it says one; a report about its value leaves the table
as it is. -/
def addEnumMember (self : TypeId) (underlying : Option Primitive) (s : Int × Context) (m : EnumMember) :
    Except Defect (Int × Context) := do
  let (type, c) ← resolveResult module s.2 m.type
  reading c.types (self :: (type.bind id).toList) (Lowering.addEnumMember module self underlying s m)

theorem addEnumMember_eq (underlying : Option Primitive) {s : Int × Context}
    (hself : self.index < s.2.types.size) (m : EnumMember) :
    addEnumMember module self underlying s m = .ok (Lowering.addEnumMember module self underlying s m) := by
  obtain ⟨hmore, -, hcovers⟩ := instantiates_resolveResult module s.2 m.type
  refine bind_ok (resolveResult_eq module s.2 m.type) (reading_eq (fun id hid => ?_) _)
  rcases mem_cons.mp hid with rfl | htype
  · exact hself.trans_le hmore.size
  · obtain ⟨type, htype, hid⟩ := bind_eq_some_iff.mp (mem_toList.mp htype)
    exact (hcovers type htype).found id hid

def enumUnderlying (c : Context) :
    Option TypeExpr → Except Defect (Option TypeId × Context)
  | some type => resolveTypeExpr module c type
  | none => return Lowering.enumUnderlying module c none

theorem enumUnderlying_eq (c : Context) (type : Option TypeExpr) :
    enumUnderlying module c type = .ok (Lowering.enumUnderlying module c type) := by
  cases type with
  | none => rfl
  | some type => exact resolveTypeExpr_eq module c type

def fillEnum (c : Context) (module : QualifiedName) (self : TypeId) (d : EnumDecl) :
    Except Defect Context := do
  let (underlying, c') ← enumUnderlying module c d.underlying
  let (attributes, c') ← attributes c' module d.annotations .enums
  let c' ← describe c' self (c'.types.system? "Enum").toList attributes d.modifiers
  let primitive ← reading c'.types underlying.toList (c'.types.primitiveOf? underlying)
  let (_, c') ← d.members.foldlM (addEnumMember module self primitive) (-1, c')
  reading c'.types [self] (Lowering.fillEnum c module self d)

theorem fillEnum_eq (hself : self.index < c.types.size) (d : EnumDecl) :
    fillEnum c module self d = .ok (Lowering.fillEnum c module self d) := by
  obtain ⟨hunderlying, hcovers, -, -⟩ := resolves_enumUnderlying module c d.underlying
  refine bind_ok (enumUnderlying_eq module c d.underlying) ?_
  generalize Lowering.enumUnderlying module c d.underlying = r at hunderlying hcovers
  obtain ⟨underlying, c₁⟩ := r
  obtain ⟨hattributes, hhas⟩ := instantiates_attributes c₁ module d.annotations .enums
  refine bind_ok (attributes_eq module c₁ d.annotations .enums) ?_
  generalize c₁.attributes module d.annotations .enums = r at hattributes hhas
  obtain ⟨attributes, c₂⟩ := r
  have hself₂ := hself.trans_le (hunderlying.trans hattributes).size
  have hsize := Lowering.size_describe c₂ self (c₂.types.system? "Enum").toList attributes d.modifiers
  refine bind_ok (reading_one hself₂ _) ?_
  refine bind_ok (reading_option (hcovers.mono (hsize.symm ▸ hattributes.size)) _) ?_
  obtain ⟨hmembers, hend⟩ := foldlM_eq (I := fun s : Int × Context => self.index < s.2.types.size) d.members
    (fun s hs m _ => ⟨addEnumMember_eq module _ hs m,
      hs.trans_le (edits_addEnumMember (π := .noMethods) module trivial _ hs m).keeps.size⟩)
    (s := (-1, Lowering.describe c₂ self (c₂.types.system? "Enum").toList attributes d.modifiers))
    (hsize.symm ▸ hself₂)
  exact bind_ok hmembers (reading_one hend _)

def addUnionField (self : TypeId) (c : Context) (f : UnionField) :
    Except Defect Context :=
  match explicitOffset? f with
  | none => return Lowering.addUnionField module self c f
  | some _ => do
    let (_, c') ← resolveTypeExpr module c f.type
    let (_, c') ← attributes c' module f.annotations .fields
    reading c'.types [self] (Lowering.addUnionField module self c f)

theorem addUnionField_eq (hself : self.index < c.types.size) (f : UnionField) :
    addUnionField module self c f = .ok (Lowering.addUnionField module self c f) := by
  have hbefore := (resolves_resolveTypeExpr module c f.type).instantiates.trans
    (instantiates_attributes _ module f.annotations .fields).1
  unfold addUnionField
  split
  · rfl
  · refine bind_ok (resolveTypeExpr_eq module c f.type) (bind_ok (attributes_eq _ _ _ _) ?_)
    exact reading_one (hself.trans_le hbefore.size) _

def fillUnion (c : Context) (module : QualifiedName) (self : TypeId) (d : UnionDecl) :
    Except Defect Context := do
  let layout := (c.types.lookup Platform.structLayoutName).map fun type =>
    ({ type, args := [.i32 Platform.layoutExplicit] } : Attribute)
  let (attributes, c) ← attributes c module d.annotations .structs
  let c ← describe c self (c.types.system? "ValueType").toList (layout.toList ++ attributes) d.modifiers
  d.fields.foldlM (addUnionField module self) c

theorem fillUnion_eq (hself : self.index < c.types.size) (d : UnionDecl) :
    fillUnion c module self d = .ok (Lowering.fillUnion c module self d) := by
  have hsize := (instantiates_attributes c module d.annotations .structs).1.size
  have hlt := hself.trans_le hsize
  refine bind_ok (attributes_eq module c d.annotations .structs) (bind_ok (reading_one hlt _) ?_)
  refine (foldlM_eq (I := fun c' : Context => self.index < c'.types.size) d.fields
    (fun c' hc' f _ => ⟨addUnionField_eq module hc' f, ?_⟩) ?_).1
  · exact hc'.trans_le (edits_addUnionField (π := .noMethods) module trivial c' f).keeps.size
  · exact hlt.trans_eq (size_modify _ _ _).symm

/-! ## Tagged unions -/

/-- What is done at the block that code is appended to. -/
def atEntry (g : FlowGraph) (a : α) : Except Defect α := do
  let _ ← entry g.blocks BlockId.entry.index
  return a

theorem atEntry_eq (h : g.HasBlock .entry) (a : α) : atEntry g a = .ok a :=
  bind_ok (entry_eq_ok_iff.mpr (getElem?_eq_getElem h)) rfl

theorem hasBlock_append {b : BlockId} (h : g.HasBlock b) (i : Instruction) : (g.append .entry i).2.HasBlock b := by
  unfold HasBlock append modifyBlock
  rw [length_modify]
  exact h

def storeParam (g : FlowGraph) (store : FieldRef × Nat) : Except Defect FlowGraph := do
  let (value, g) ← atEntry g (g.append .entry (.loadArg (.param store.2)))
  atEntry g (g.append .entry (.storeField store.1 this value)).2

theorem storeParams_eq (hg : g.HasBlock .entry) (stores : List (FieldRef × Nat)) :
    stores.foldlM (storeParam this) g = .ok (stores.foldl (fun g store =>
        ((g.append .entry (.loadArg (.param store.2))).2.append .entry
          (.storeField store.1 this (g.append .entry (.loadArg (.param store.2))).1)).2) g) ∧
      (stores.foldl (fun g store =>
        ((g.append .entry (.loadArg (.param store.2))).2.append .entry
          (.storeField store.1 this (g.append .entry (.loadArg (.param store.2))).1)).2) g).HasBlock .entry := by
  refine foldlM_eq (I := fun g : FlowGraph => g.HasBlock .entry) stores (fun g hg store _ => ?_) hg
  have hload := hasBlock_append hg (.loadArg (.param store.2))
  exact ⟨bind_ok (atEntry_eq hg _) (atEntry_eq hload _), hasBlock_append hload _⟩

def variantBody : Except Defect FlowGraph := do
  let (this, g) ← atEntry .empty (empty.append .entry (.loadArg .this))
  let g ← match objectCtor with
    | some ctor => atEntry g (g.append .entry (.call ctor [this])).2
    | none => pure g
  let g ← fields.zipIdx.foldlM (storeParam this) g
  atEntry g (g.setFlow .entry (.ret none))

theorem variantBody_eq : variantBody objectCtor fields = .ok (Lowering.variantBody objectCtor fields) := by
  have hempty : empty.HasBlock .entry := Nat.lt_succ_self 0
  have hthis := hasBlock_append hempty (.loadArg .this)
  refine bind_ok (atEntry_eq hempty _) ?_
  cases objectCtor with
  | none =>
    obtain ⟨hstores, hend⟩ := storeParams_eq (empty.append .entry (.loadArg .this)).1 hthis fields.zipIdx
    exact bind_ok rfl (bind_ok hstores (atEntry_eq hend _))
  | some ctor =>
    obtain ⟨hstores, hend⟩ := storeParams_eq (empty.append .entry (.loadArg .this)).1
      (hasBlock_append hthis (.call ctor [(empty.append .entry (.loadArg .this)).1])) fields.zipIdx
    exact bind_ok (atEntry_eq hthis _) (bind_ok hstores (atEntry_eq hend _))

/-- A field is put after those that its type has. -/
def addVariantField (self : TypeId) (c : Context) (f : VariantField) :
    Except Defect ((FieldRef × Parameter) × Context) := do
  let (_, c') ← resolveTypeExpr module c f.type
  reading c'.types [self] (Lowering.addVariantField module self c f)

theorem addVariantField_eq (hself : self.index < c.types.size) (f : VariantField) :
    addVariantField module self c f = .ok (Lowering.addVariantField module self c f) := by
  have hsize := (resolves_resolveTypeExpr module c f.type).instantiates.size
  exact bind_ok (resolveTypeExpr_eq module c f.type) (reading_one (hself.trans_le hsize) _)

def fillVariant (base : TypeId) (objectCtor : Option MethodRef) (void : Option TypeId) (c : Context)
    (v : Variant × Option TypeId) : Except Defect Context :=
  match v with
  | (_, none) => return c
  | (v, some self) => do
    let c' ← reading c.types [self] (c.modifyType self fun d => { d with bases := d.bases ++ [base] })
    let (fields, c') ← traverse (addVariantField module self) c' v.fields
    let _ ← variantBody objectCtor (fields.map (·.1))
    reading c'.types [self] (Lowering.fillVariant module base objectCtor void c (v, some self))

theorem fillVariant_eq (base : TypeId) (objectCtor : Option MethodRef) (void : Option TypeId)
    {v : Variant × Option TypeId} (hv : c.types.Covers v.2) : fillVariant module base objectCtor void c v =
      .ok (Lowering.fillVariant module base objectCtor void c v) := by
  obtain ⟨v, type⟩ := v
  cases type with
  | none => rfl
  | some self =>
    have hself := hv self rfl
    have hrevised : self.index < (c.modifyType self fun d =>
        { d with bases := d.bases ++ [base] }).types.size :=
      hself.trans_eq (size_modify _ _ _).symm
    obtain ⟨hfields, hend⟩ := traverse_eq (I := fun c' : Context => self.index < c'.types.size) v.fields
      (fun c' hc' f => ⟨addVariantField_eq module hc' f,
        hc'.trans_le (edits_addVariantField (π := .noMethods) module trivial hc' f).1.keeps.size⟩) hrevised
    refine bind_ok (reading_one hself _) (bind_ok hfields ?_)
    exact bind_ok (variantBody_eq _ _) (reading_one hend _)

def fillTaggedUnion (c : Context) (module : QualifiedName) (base : TypeId) (variants : List (Option TypeId))
    (d : TaggedUnionDecl) : Except Defect Context := do
  let object := c.types.system? "Object"
  let objectCtor ← reading c.types object.toList (object.bind fun o => c.types.findMethod? o ".ctor" 0)
  let void := c.types.primitive? .void
  let (attributes, c) ← attributes c module d.annotations .classes
  let c ← describe c base object.toList attributes d.modifiers
  (d.variants.zip variants).foldlM (fillVariant module base objectCtor void) c

theorem fillTaggedUnion_eq {base : TypeId} (hbase : base.index < c.types.size) {variants : List (Option TypeId)}
    {d : TaggedUnionDecl} (hvariants : ∀ v ∈ d.variants.zip variants, c.types.Covers v.2) :
    fillTaggedUnion c module base variants d = .ok (Lowering.fillTaggedUnion c module base variants d) := by
  have hattributes := (c.instantiates_attributes module d.annotations .classes).1
  refine bind_ok (reading_option (c.types.covers_lookup _) _) ?_
  refine bind_ok (attributes_eq module c d.annotations .classes) ?_
  refine bind_ok (reading_one (hbase.trans_le hattributes.size) _) ?_
  refine (foldlM_eq (I := fun c' : Context => c.types.size ≤ c'.types.size) (d.variants.zip variants)
    (fun c' hc' v hv => ⟨?_, ?_⟩) ((size_describe _ _ _ _ _).symm ▸ hattributes.size)).1
  · exact fillVariant_eq module base _ _ ((hvariants v hv).mono hc')
  · exact hc'.trans (keeps_fillVariant module base _ _ c' v).size

/-! ## Functions -/

def addFunction (l : Lowering) (module : QualifiedName) (d : FnDecl) : Except Defect Lowering := do
  let (program, c) := programType l.context
  let name := if d.name = "main" then Lowering.entryName else d.name
  let _ ← addMethod (l.withContext c) module program d name true
  return l.addFunction module d

theorem addFunction_eq (l : Lowering) (d : FnDecl) : addFunction l module d = .ok (l.addFunction module d) := by
  have hlt := (lookup_spec (lookup_programType l.context)).1
  exact bind_ok (addMethod_eq module hlt d _ true) rfl

/-! ## Declarations -/

def fill (l : Lowering) (d : Decl × Declared) : Except Defect Lowering :=
  match d with
  | (.type d, .type id) => fillType l module id d
  | (.enum d, .type id) => return l.withContext (← fillEnum l.context module id d)
  | (.taggedUnion d, .taggedUnion base variants) =>
    return l.withContext (← fillTaggedUnion l.context module base variants d)
  | (.union d, .type id) => return l.withContext (← fillUnion l.context module id d)
  | (.fn d, _) => addFunction l module d
  | _ => return l

/-- What a declaration registered is there to be filled in. -/
theorem fill_eq {module : QualifiedName} (hl : l.context.Bounded) {decl : Decl} {declared : Declared}
    (h : decl.Registered (fun id _ => id.index < l.context.types.size) module declared) :
    fill module l (decl, declared) = .ok (Lowering.fill module l (decl, declared)) := by
  cases decl with
  | fn d => exact addFunction_eq module l d
  | error span => rfl
  | type d =>
    cases declared with
    | type id => exact fillType_eq module hl h d
    | _ => rfl
  | enum d =>
    cases declared with
    | type id => exact bind_ok (fillEnum_eq module h d) rfl
    | _ => rfl
  | union d =>
    cases declared with
    | type id => exact bind_ok (fillUnion_eq module h d) rfl
    | _ => rfl
  | taggedUnion d =>
    cases declared with
    | taggedUnion base variants =>
      exact bind_ok (fillTaggedUnion_eq module h.1 fun v hv => (forall₂_iff_zip.mp h.2).2 hv) rfl
    | _ => rfl

/-- All declarations fill in what they registered, in order. -/
def fillAll (l : Lowering) (ds : List (Declaration × Declared)) : Except Defect Lowering :=
  ds.foldlM (fun l d => fill d.1.module l (d.1.decl, d.2)) l

theorem fillAll_eq (hl : l.context.Bounded) {ds : List (Declaration × Declared)}
    (hds : ∀ d ∈ ds, d.1.decl.Registered (fun id _ => id.index < l.context.types.size) d.1.module d.2) :
    fillAll l ds = .ok (l.fillAll ds) := by
  refine (foldlM_eq (I := fun l' : Lowering => l.context.Fills (.basesOf fun _ => True) l'.context) ds
    (fun l' hl' d hd => ?_) .refl).1
  have hregistered : d.1.decl.Registered (fun id _ => id.index < l'.context.types.size) d.1.module d.2 :=
    (hds d hd).imp fun _ _ hid => hid.trans_le hl'.keeps.size
  exact ⟨fill_eq (hl'.enlarges.bounded hl) hregistered, hl'.trans (edits_registered d.1.module _ l'
    (hregistered.imp fun _ _ hid => ⟨trivial, hid⟩)).fills⟩

end TreeCompiler.Checked
