import TreeCompiler.Proofs.Lowering.Bodies
import TreeCompiler.Proofs.Lowering.Written

/-!
# Declarations are stored as they are written

One lemma for each function that fills in types: it stores what its declaration writes
(`Stores`), each type expression as the type that it means.
-/

namespace TreeCompiler

open Context List TypeTable Lowering Site
variable (known : QualifiedName → Bool)

/-! ## What declarations write -/

/-- The type that holds the functions is known as well. -/
def Site.withProgram (s : Site) : Site :=
  { s with known := fun n => n == programName || s.known n }

theorem Site.known_withProgram (s : Site) (n : QualifiedName) :
    s.withProgram.known n = (n == programName || s.known n) :=
  rfl

def FnDecl.heading (s : Site) (name : String) (d : FnDecl) : Heading :=
  { site := s, name, params := d.params.map (·.type), result := d.returnType }

def Member.written (s : Site) (owner : QualifiedName) : Member → List Written
  | .field d => [.field owner ⟨s, d.name, some d.type⟩]
  | .method d => [.method owner (d.heading s d.name)]
  | .property d => [.property owner ⟨s, d.name, some d.type⟩]
  | .error _ => []

/-- A variant has a constructor that takes its fields. -/
def Variant.written (s : Site) (v : Variant) : List Written :=
  v.fields.map (fun f => .field (s.module.child v.name) ⟨s, f.name, some f.type⟩) ++
    [.method (s.module.child v.name)
      { site := s, name := ".ctor", params := v.fields.map (·.type), result := none }]

/-- A field of a union that has no place is left out. -/
def UnionField.written (s : Site) (owner : QualifiedName) (f : UnionField) : List Written :=
  match explicitOffset? f with
  | some _ => [.field owner ⟨s, f.name, some f.type⟩]
  | none => []

/-- All that a declaration writes, in order. The value of an enumeration is a field; a function stands in
the type that holds the functions, which is known by then. -/
def Decl.written (s : Site) : Decl → List Written
  | .type d => d.members.flatMap (Member.written s (s.module.child d.name))
  | .enum d => [.field (s.module.child d.name) ⟨s, "value__", d.underlying⟩]
  | .taggedUnion d => d.variants.flatMap (Variant.written s)
  | .union d => d.fields.flatMap (UnionField.written s (s.module.child d.name))
  | .fn d =>
    [.method programName (d.heading s.withProgram (if d.name = "main" then entryName else d.name))]
  | .error _ => []

variable {s : Site} {made : QualifiedName → Prop}

theorem TypeTable.Stores.foldl {σ α : Type} (types : σ → TypeTable) {f : σ → α → σ} {written : α → List Written}
    (as : List α) {s : σ}
    (hf : ∀ s' a, a ∈ as → (types s).Keeps (types s') → Stores made made (written a) (types s') (types (f s' a))) :
    Stores made made (as.flatMap written) (types s) (types (as.foldl f s)) := by
  induction as generalizing s with
  | nil => exact .nil
  | cons a as ih =>
    have hfirst := hf s a mem_cons_self (.refl _)
    exact hfirst.append (ih fun s' b hb hs' => hf s' b (mem_cons_of_mem _ hb) (hfirst.keeps.trans hs'))

theorem flatMap_zip {α β γ : Type} (g : α → List γ) {as : List α} {bs : List β}
    (h : as.length = bs.length) : ((as.zip bs).flatMap fun x => g x.1) = as.flatMap g := by
  have hfst : (as.zip bs).map Prod.fst = as := map_fst_zip h.le
  rw [← flatMap_map Prod.fst g, hfst]

theorem Context.stores_modifyType (c : Context) (made : QualifiedName → Prop) (id : TypeId) {f : TypeDef → TypeDef}
    (hf : ∀ d, (f d).head = d.head ∧ (f d).members = d.members) :
    Stores made made [] c.types (c.modifyType id f).types :=
  Store.stores (.revise id f hf)

/-! ## Fields, methods and properties -/

theorem Context.stores_field (hs : s.Closed made) {c : Context} (hready : s.Ready c.types) {owner : QualifiedName}
    {id : TypeId} (hid : c.types.lookup owner = some id) {name : String} {e : TypeExpr} {t : TypeTable}
    (ht : t = (resolveTypeExpr s.module c e).2.types) (f : Field) (hname : f.name = name)
    (htype : f.type = (resolveTypeExpr s.module c e).1) (hf : f.isLiteral = false) :
    Stores made made [.field owner ⟨s, name, some e⟩] c.types (t.addField id f).2 := by
  have hextends := extends_resolveTypeExpr s.module c e
  subst ht
  refine hextends.stores.trans (Store.stores (.field f (hextends.evolves.keeps.lookup hid) hf
    fun hwithin => ⟨hname, fun e' he' => ?_⟩))
  cases he'
  rw [htype]
  exact finds_resolveTypeExpr hs c hready e hwithin

namespace Lowering
variable {l : Lowering} {owner : QualifiedName} {id : TypeId} {c : Context} (module : QualifiedName)

theorem addMethod_cases (l : Lowering) (module : QualifiedName) (id : TypeId) (d : FnDecl) (name : String)
    (isStatic : Bool) : (∃ first ∈ ((method module id l.context d name isStatic).2.types.get id).methods,
      first.sameSignature (method module id l.context d name isStatic).1 = true ∧
      (l.addMethod module id d name isStatic).2.context.types =
        (method module id l.context d name isStatic).2.types) ∨
    (l.addMethod module id d name isStatic).2.context.types =
      ((method module id l.context d name isStatic).2.types.addMethod id
        (method module id l.context d name isStatic).1).2 := by
  unfold addMethod
  dsimp only
  split
  next first hfirst =>
    have hsame := find?_some hfirst
    exact Or.inl ⟨first, mem_of_find?_eq_some hfirst, hsame, rfl⟩
  next => exact Or.inr rfl

theorem stores_describe (made : QualifiedName → Prop) (c : Context) (id : TypeId) (bases : List TypeId)
    (attributes : List Attribute) (modifiers : List Modifier) :
    Stores made made [] c.types (describe c id bases attributes modifiers).types := by
  unfold describe
  exact c.stores_modifyType made id fun _ => ⟨rfl, rfl⟩

theorem stores_addEnumMember (id : TypeId) (underlying : Option Primitive) (v : Int × Context) (m : EnumMember) :
    Stores made made [] v.2.types (addEnumMember module id underlying v m).2.types := by
  obtain ⟨c, value, primitive, hc, heq⟩ := exists_addEnumMember_eq module id underlying v m
  rw [heq]
  exact hc.extends.stores.trans (Store.stores (.constant id _ rfl))

theorem stores_addEnumMembers (id : TypeId) (underlying : Option Primitive) (v : Int × Context)
    (ms : List EnumMember) :
    Stores made made [] v.2.types (ms.foldl (addEnumMember module id underlying) v).2.types := by
  induction ms generalizing v with
  | nil => exact .nil
  | cons m ms ih => exact (stores_addEnumMember module id underlying v m).trans (ih _)

theorem stores_fillEnumOver (hid : c.types.lookup owner = some id) (module : QualifiedName) (d : EnumDecl)
    {underlying : Option TypeId} {slot : Slot}
    (hslot : c.types.Within made → slot.Describes made c.types "value__" underlying) :
    Stores made made [.field owner slot] c.types (fillEnumOver c module id d underlying).types := by
  have htypes := c.types_attributes module d.annotations .enums
  unfold fillEnumOver
  dsimp only
  generalize c.attributes module d.annotations .enums = r at htypes
  obtain ⟨attributes, c'⟩ := r
  dsimp only at htypes ⊢
  have hdescribe := stores_describe made c' id (c'.types.system? "Enum").toList attributes d.modifiers
  generalize describe c' id (c'.types.system? "Enum").toList attributes d.modifiers = c₂ at hdescribe
  rw [htypes] at hdescribe
  have hbefore := hdescribe.trans
    (stores_addEnumMembers module id (c₂.types.primitiveOf? underlying) (-1, c₂) d.members)
  exact hbefore.trans (Store.stores (.field _ (hbefore.keeps.lookup hid) rfl fun hwithin =>
    (hslot (hwithin.anti hbefore.keeps)).mono hbefore.keeps))

variable (hs : s.Closed made)
include hs

section Contexts
variable (hready : s.Ready c.types)
include hready

theorem reads_parameters (ps : List Param) (hwithin : (traverse (parameter s.module) c ps).2.types.Within made) :
    Forall₂ (fun e (p : Parameter) =>
      s.Reads made (traverse (parameter s.module) c ps).2.types e p.type)
      (ps.map (·.type)) (traverse (parameter s.module) c ps).1 := by
  induction ps generalizing c with
  | nil => exact .nil
  | cons p ps ih =>
    have hfirst := (instantiates_parameter s.module c p).1.types.keeps
    have hrest := (instantiates_parameters s.module (parameter s.module c p).2 ps).1.types.keeps
    have hfound := finds_resolveTypeExpr hs c hready p.type (by
      have hhere : (parameter s.module c p).2.types.Within made := hwithin.anti hrest
      rwa [parameter, types_optionalConstant] at hhere)
    have hreads : s.Reads made (parameter s.module c p).2.types p.type (parameter s.module c p).1.type := by
      rw [parameter, types_optionalConstant]
      exact hfound
    exact .cons (hreads.mono hrest) (ih (hready.mono hfirst) hwithin)

theorem finds_void : c.types.Finds (c.types.primitive? .void) (some voidName) := by
  obtain ⟨void, hvoid⟩ := Option.isSome_iff_exists.mp (hready _ hs.void)
  have hprimitive : c.types.primitive? .void = some void := hvoid
  rw [hprimitive]
  exact .found hvoid

theorem returns_returnType (type : Option TypeExpr) (hwithin : (returnType s.module c type).2.types.Within made) :
    s.Returns made (returnType s.module c type).2.types type (returnType s.module c type).1 := by
  cases type with
  | some e => exact finds_resolveTypeExpr hs c hready e hwithin
  | none => exact finds_void hs hready

/-- The method of a declaration is as it is written. -/
theorem describes_method (id : TypeId) (d : FnDecl) (name : String) (isStatic : Bool)
    (hwithin : (method s.module id c d name isStatic).2.types.Within made) :
    (d.heading s name).Describes made (method s.module id c d name isStatic).2.types
      (method s.module id c d name isStatic).1 := by
  have hresult := (resolves_returnType s.module c d.returnType).instantiates.types.keeps
  have hparams := (instantiates_parameters s.module (returnType s.module c d.returnType).2 d.params).1.types.keeps
  have htypes : (method s.module id c d name isStatic).2.types = (traverse (parameter s.module)
    (returnType s.module c d.returnType).2 d.params).2.types := types_attributes _ _ _ _
  rw [htypes] at hwithin ⊢
  refine ⟨⟨rfl, ?_⟩, ?_⟩
  · exact reads_parameters hs (hready.mono hresult) d.params hwithin
  · exact (returns_returnType hs hready d.returnType (hwithin.anti hparams)).mono hparams

/-! ## Enumerations and unions -/

section Owner
variable (hid : c.types.lookup owner = some id)
include hid

theorem stores_fillEnum (d : EnumDecl) :
    Stores made made [.field owner ⟨s, "value__", d.underlying⟩] c.types (fillEnum c s.module id d).types := by
  have hextends := (resolves_enumUnderlying s.module c d.underlying).instantiates.extends
  rw [fillEnum_eq]
  refine hextends.stores.trans (stores_fillEnumOver (hextends.evolves.keeps.lookup hid) s.module d
    fun hwithin => ⟨rfl, fun e he => ?_⟩)
  rw [show d.underlying = some e from he] at hwithin ⊢
  exact finds_resolveTypeExpr hs c hready e hwithin

theorem stores_addUnionField (f : UnionField) :
    Stores made made (f.written s owner) c.types (addUnionField s.module id c f).types := by
  unfold addUnionField UnionField.written
  cases hoffset : explicitOffset? f with
  | none => exact .nil
  | some offset => exact stores_field hs hready hid (types_attributes _ _ _ _) _ rfl rfl rfl

theorem stores_fillUnion (d : UnionDecl) : Stores made made (d.fields.flatMap (UnionField.written s owner)) c.types
      (fillUnion c s.module id d).types := by
  have htypes := c.types_attributes s.module d.annotations .structs
  unfold fillUnion
  dsimp only
  generalize c.attributes s.module d.annotations .structs = r at htypes ⊢
  obtain ⟨attributes, c'⟩ := r
  dsimp only at htypes ⊢
  generalize hattributes : Option.toList _ ++ attributes = all
  have hbefore := stores_describe made c' id (c'.types.system? "ValueType").toList all d.modifiers
  rw [← htypes] at hready hid ⊢
  refine hbefore.trans (.foldl types d.fields fun c'' f _ hc'' => ?_)
  have hkeeps := hbefore.keeps.trans hc''
  exact stores_addUnionField hs (hready.mono hkeeps) (hkeeps.lookup hid) f

theorem stores_addVariantFields (fields : List VariantField) :
    Stores made made (fields.map fun f => .field owner ⟨s, f.name, some f.type⟩) c.types
        (traverse (addVariantField s.module id) c fields).2.types ∧
      ((traverse (addVariantField s.module id) c fields).2.types.Within made → Forall₂ (fun e (p : Parameter) =>
        s.Reads made (traverse (addVariantField s.module id) c fields).2.types e p.type)
        (fields.map (·.type)) ((traverse (addVariantField s.module id) c fields).1.map (·.2))) := by
  induction fields generalizing c with
  | nil => exact ⟨.nil, fun _ => .nil⟩
  | cons f fields ih =>
    have hfirst : Stores made made [.field owner ⟨s, f.name, some f.type⟩] c.types
        (addVariantField s.module id c f).2.types :=
      stores_field hs hready hid rfl _ rfl rfl rfl
    obtain ⟨hstores, hreads⟩ := ih (hready.mono hfirst.keeps) (hfirst.keeps.lookup hid)
    have hadd := keeps_addField (resolveTypeExpr s.module c f.type).2.types id
      { name := f.name, type := (resolveTypeExpr s.module c f.type).1,
        isMutable := f.modifiers.contains .mutable, span := f.span }
    have hkeeps := hadd.trans hstores.keeps
    refine ⟨hfirst.append hstores, fun hwithin => .cons ?_ (hreads hwithin)⟩
    have hfound : s.Reads made _ f.type _ := finds_resolveTypeExpr hs c hready f.type (hwithin.anti hkeeps)
    exact hfound.mono hkeeps

end Owner

theorem stores_fillVariant (v : Variant) (hid : c.types.lookup (s.module.child v.name) = some id) (base : TypeId)
    (objectCtor : Option MethodRef) {void : Option TypeId} (hvoid : c.types.Finds void (some voidName)) :
    Stores made made (v.written s) c.types (fillVariant s.module base objectCtor void c (v, some id)).types := by
  have hrevise := c.stores_modifyType made id
    (f := fun d => { d with bases := d.bases ++ [base] }) fun _ => ⟨rfl, rfl⟩
  unfold fillVariant
  dsimp only
  obtain ⟨hfields, hreads⟩ := stores_addVariantFields hs (hready.mono hrevise.keeps)
    (hrevise.keeps.lookup hid) v.fields
  have hkeeps := hrevise.keeps.trans hfields.keeps
  refine hrevise.trans (hfields.append (Store.stores (.method _ (hkeeps.lookup hid) fun hwithin => ?_)))
  exact ⟨⟨rfl, hreads hwithin⟩, hvoid.mono hkeeps⟩

theorem stores_fillTaggedUnion (base : TypeId) {variants : List (Option TypeId)} (d : TaggedUnionDecl)
    (hvariants : Forall₂ (fun (v : Variant) type =>
      ∃ id, type = some id ∧ c.types.lookup (s.module.child v.name) = some id) d.variants variants) :
    Stores made made (d.variants.flatMap (Variant.written s)) c.types
      (fillTaggedUnion c s.module base variants d).types := by
  have htypes := c.types_attributes s.module d.annotations .classes
  unfold fillTaggedUnion
  dsimp only
  generalize c.attributes s.module d.annotations .classes = r at htypes ⊢
  obtain ⟨attributes, c'⟩ := r
  dsimp only at htypes ⊢
  have hbefore := htypes ▸ stores_describe made c' base (c.types.system? "Object").toList attributes d.modifiers
  rw [← flatMap_zip _ hvariants.length_eq]
  refine hbefore.trans (.foldl types _ fun c'' v hv hc'' => ?_)
  obtain ⟨v, type⟩ := v
  obtain ⟨id, rfl, hid⟩ := (forall₂_iff_zip.mp hvariants).2 hv
  have hkeeps := hbefore.keeps.trans hc''
  exact stores_fillVariant hs (hready.mono hkeeps) v (hkeeps.lookup hid) base _ ((finds_void hs hready).mono hkeeps)

end Contexts

/-! ## Classes, structs and interfaces -/

variable (hready : s.Ready l.context.types)
include hready

section Owner
variable (hid : l.context.types.lookup owner = some id)
include hid

theorem stores_addMethod (d : FnDecl) (name : String) (isStatic : Bool) :
    Stores made made [.method owner (d.heading s name)] l.context.types
      (l.addMethod s.module id d name isStatic).2.context.types := by
  have hextends := (instantiates_method s.module id l.context d name isStatic).extends
  have hdescribes := describes_method hs hready id d name isStatic
  rcases l.addMethod_cases s.module id d name isStatic with ⟨first, hmem, hsame, htypes⟩ | htypes
  · rw [htypes]
    exact hextends.stores.trans (Store.stores (.repeated first (hextends.evolves.keeps.lookup hid) hmem
      fun hwithin => (hdescribes hwithin).toSigns.of_sameSignature hsame))
  · rw [htypes]
    exact hextends.stores.trans (Store.stores (.method _ (hextends.evolves.keeps.lookup hid) hdescribes))

theorem stores_addProperty (d : PropertyDecl) :
    Stores made made [.property owner ⟨s, d.name, some d.type⟩] l.context.types
      (l.addProperty s.module id d).context.types := by
  have hextends := extends_resolveTypeExpr s.module l.context d.type
  have htypes : ∃ p : Property, (l.addProperty s.module id d).context.types =
      (resolveTypeExpr s.module l.context d.type).2.types.addProperty id p ∧ p.name = d.name ∧
      p.type = (resolveTypeExpr s.module l.context d.type).1 := by
    unfold addProperty
    dsimp only
    refine ⟨_, congrArg (fun t => TypeTable.addProperty t id _) (types_attributes _ _ _ _), rfl, rfl⟩
  obtain ⟨p, htypes, hname, htype⟩ := htypes
  rw [htypes]
  refine hextends.stores.trans (Store.stores (.property p (hextends.evolves.keeps.lookup hid)
    fun hwithin => ⟨hname, fun e he => ?_⟩))
  cases he
  rw [htype]
  exact finds_resolveTypeExpr hs l.context hready d.type hwithin

theorem stores_addMember (m : Member) :
    Stores made made (m.written s owner) l.context.types (addMember s.module id l m).context.types := by
  cases m with
  | field d =>
    exact stores_field hs hready hid ((types_attributes _ _ _ _).trans (types_optionalConstant _ _ _ _)) _ rfl rfl rfl
  | method d => exact stores_addMethod hs hready hid d d.name false
  | property d => exact stores_addProperty hs hready hid d
  | error span => exact .nil

theorem stores_fillType (d : TypeDecl) : Stores made made (d.members.flatMap (Member.written s owner)) l.context.types
      (l.fillType s.module id d).context.types := by
  have hbases := (consults_bases s.module id l.context d).extends
  obtain ⟨f, htypes, hf⟩ := exists_types_headed s.module id l.context d
  have hbefore : Stores made made [] l.context.types (headed s.module id l.context d).types := by
    rw [htypes]
    exact hbases.stores.trans (Store.stores (.revise id f fun d' => ⟨(hf d').1, (hf d').2.1⟩))
  refine hbefore.trans (.foldl (fun l : Lowering => l.context.types) d.members (s := l.withContext _)
    fun l' m _ hl' => ?_)
  have hkeeps := hbefore.keeps.trans hl'
  exact stores_addMember hs (hready.mono hkeeps) (hkeeps.lookup hid) m

end Owner

/-! ## Functions -/

theorem stores_addFunction (d : FnDecl) : Stores made made [.method programName
        (d.heading s.withProgram (if d.name = "main" then entryName else d.name))] l.context.types
      (l.addFunction s.module d).context.types := by
  have hextends : l.context.types.Extends (programType l.context).2.types :=
    extends_programType l.context
  have hid := lookup_programType l.context
  have hclosed : s.withProgram.Closed made := by
    refine ⟨?_, fun family n hn => ?_⟩
    · rw [known_withProgram, hs.void, Bool.or_true]
    · rw [known_withProgram, hs.delegates family n hn, Bool.or_true]
  have hprogram : s.withProgram.Ready (programType l.context).2.types := by
    intro n hn
    rw [known_withProgram, Bool.or_eq_true] at hn
    rcases hn with heq | hknown
    · rw [beq_iff_eq.mp heq, hid]
      rfl
    · exact hready.mono hextends.evolves.keeps n hknown
  obtain ⟨entry, heq⟩ := l.addFunction_eq_addMethod s.module d
  rw [heq]
  exact hextends.stores.trans (stores_addMethod (s := s.withProgram) hclosed
    (l := l.withContext (programType l.context).2) hprogram hid d _ true)

end Lowering

/-! ## All declarations -/

/-- A declaration registered all its types, and they are found under their names. -/
def Decl.Found (t : TypeTable) (module : QualifiedName) : Decl → Declared → Prop
  | .type d, declared => ∃ id, declared = .type id ∧ t.lookup (module.child d.name) = some id
  | .enum d, declared => ∃ id, declared = .type id ∧ t.lookup (module.child d.name) = some id
  | .union d, declared => ∃ id, declared = .type id ∧ t.lookup (module.child d.name) = some id
  | .taggedUnion d, declared => ∃ base variants, declared = .taggedUnion base variants ∧
      t.lookup (module.child d.name) = some base ∧ Forall₂ (fun v type =>
        ∃ id, type = some id ∧ t.lookup (module.child v.name) = some id) d.variants variants
  | .fn _, _ => True
  | .error _, _ => True

theorem Decl.Found.mono {t t' : TypeTable} {module : QualifiedName} {d : Decl} {declared : Declared}
    (h : d.Found t module declared) (hkeeps : t.Keeps t') : d.Found t' module declared := by
  cases d with
  | type d | enum d | union d =>
    obtain ⟨id, hdeclared, hid⟩ := h
    exact ⟨id, hdeclared, hkeeps.lookup hid⟩
  | taggedUnion d =>
    obtain ⟨base, variants, hdeclared, hbase, hvariants⟩ := h
    refine ⟨base, variants, hdeclared, hkeeps.lookup hbase, hvariants.imp fun v type hv => ?_⟩
    obtain ⟨id, htype, hid⟩ := hv
    exact ⟨id, htype, hkeeps.lookup hid⟩
  | fn d | error span => trivial

namespace Lowering

/-- A declaration that registered its types stores what it writes. -/
theorem stores_fill (hs : s.Closed made) {l : Lowering} (hready : s.Ready l.context.types) (d : Decl)
    {declared : Declared} (hfound : d.Found l.context.types s.module declared) :
    Stores made made (d.written s) l.context.types (fill s.module l (d, declared)).context.types := by
  cases d with
  | type d =>
    obtain ⟨id, rfl, hid⟩ := hfound
    exact stores_fillType hs hready hid d
  | enum d =>
    obtain ⟨id, rfl, hid⟩ := hfound
    exact stores_fillEnum hs hready hid d
  | union d =>
    obtain ⟨id, rfl, hid⟩ := hfound
    exact stores_fillUnion hs hready hid d
  | taggedUnion d =>
    obtain ⟨base, variants, rfl, -, hvariants⟩ := hfound
    exact stores_fillTaggedUnion hs hready base d hvariants
  | fn d => exact stores_addFunction hs hready d
  | error span => exact .nil

end Lowering

/-- All that a tree writes, where the names `known` are known. -/
def Tree.written (t : Tree) : List Written :=
  t.body.flatMap (Decl.written ⟨t.module, known⟩)

theorem flatMap_written (trees : List Tree) : trees.flatMap (Tree.written known) =
      (Tree.declarations trees).flatMap fun d => d.decl.written ⟨d.module, known⟩ :=
  Tree.flatMap_declarations (fun module d => d.written ⟨module, known⟩) trees

namespace Context

theorem stores_fillAll {known : QualifiedName → Bool} (hclosed : ∀ module, Closed ⟨module, known⟩ made) {c : Context}
    (hready : ∀ module, Ready ⟨module, known⟩ c.types) {ds : List Declaration} {declared : List Declared}
    (hfound : Forall₂ (fun d => d.decl.Found c.types d.module) ds declared) :
    Stores made made (ds.flatMap fun d => d.decl.written ⟨d.module, known⟩) c.types
      (fillAll { context := c } (ds.zip declared)).context.types := by
  rw [← flatMap_zip _ hfound.length_eq]
  exact .foldl (fun l : Lowering => l.context.types) _ (s := { context := c }) fun l d hd hl =>
    stores_fill (s := ⟨d.1.module, known⟩) (hclosed _) ((hready _).mono hl) d.1.decl
      (((forall₂_iff_zip.mp hfound).2 hd).mono hl)

/-- Bodies store nothing. -/
theorem stores_lowerBodies (made names : QualifiedName → Prop) (c : Context) (queue : List PendingBody) :
    Stores made names [] c.types (c.lowerBodies queue).types := by
  induction queue generalizing c with
  | nil => exact .nil
  | cons p queue ih =>
    have hextends := ((c.scopeOf p).continues_lowerStmts { context := c } p.body).types
    have hbody : Stores made names [] c.types (c.lowerBody p).types :=
      (Extends.stores hextends).trans (Store.stores (.setBody p.method _))
    exact hbody.trans (ih (c.lowerBody p))

end Context

end TreeCompiler
