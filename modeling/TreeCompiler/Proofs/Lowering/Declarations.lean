import TreeCompiler.Proofs.Lowering.Bounds

/-!
# What declarations register

Before any type is filled in, all declarations register their types. The name of a type that is taken is
reported.
-/

namespace TreeCompiler

open List TypeTable

variable {module : QualifiedName} {declared : Declared} {id : TypeId} {d : TypeDef} {π : Permit} {c : Context}

def Declared.ids : Declared → List TypeId
  | .nothing => []
  | .type id => [id]
  | .taggedUnion base variants => base :: variants.flatMap Option.toList

/-- Names of the types that a declaration introduces. -/
def Decl.typeNames (module : QualifiedName) : Decl → List QualifiedName
  | .type d => [module.child d.name]
  | .enum d => [module.child d.name]
  | .union d => [module.child d.name]
  | .taggedUnion d => module.child d.name :: d.variants.map (module.child ·.name)
  | .fn _ => []
  | .error _ => []

def Tree.typeNames (t : Tree) : List QualifiedName :=
  t.body.flatMap (Decl.typeNames t.module)

/-- A declaration registered just what it says; `has` is what is known of the registered types. -/
def Decl.Registered (has : TypeId → TypeDef → Prop) (module : QualifiedName) : Decl → Declared → Prop
  | .type d, .type id => has id { d.typeDef module with span := d.span }
  | .enum d, .type id => has id { valueTypeDef module d.name with span := d.span }
  | .union d, .type id => has id { valueTypeDef module d.name with span := d.span }
  | .taggedUnion d, .taggedUnion base variants =>
    has base { definedType module d.name with isAbstract := true, span := d.span } ∧
      Forall₂ (fun v type => ∀ id, type = some id →
        has id { definedType module v.name with isSealed := true, span := v.span }) d.variants variants
  | _, _ => True

theorem Decl.Registered.imp_of_mem {has has' : TypeId → TypeDef → Prop} {d : Decl}
    (h : d.Registered has module declared)
    (hhas : ∀ id ∈ declared.ids, ∀ def_, def_.origin = .defined → has id def_ → has' id def_) :
    d.Registered has' module declared := by
  cases d with
  | type d | enum d | union d =>
    cases declared with
    | type id => exact hhas _ mem_cons_self _ rfl h
    | _ => trivial
  | taggedUnion d =>
    cases declared with
    | taggedUnion base variants =>
      refine ⟨hhas _ mem_cons_self _ rfl h.1, forall₂_iff_zip.mpr ⟨h.2.length_eq, fun hv id hid => ?_⟩⟩
      have hmem := mem_flatMap.mpr ⟨_, (of_mem_zip hv).2, Option.mem_toList.mpr hid⟩
      exact hhas _ (mem_cons_of_mem _ hmem) _ rfl ((forall₂_iff_zip.mp h.2).2 hv id hid)
    | _ => trivial
  | _ => trivial

theorem Decl.Registered.imp {has has' : TypeId → TypeDef → Prop} {d : Decl} (h : d.Registered has module declared)
    (hhas : ∀ id def_, has id def_ → has' id def_) : d.Registered has' module declared :=
  h.imp_of_mem fun id _ def_ _ => hhas id def_

/-- `id` leads to a type that was registered as `d`. -/
structure TypeTable.Declares (t : TypeTable) (id : TypeId) (d : TypeDef) : Prop where
  lt_size : id.index < t.size
  head : (t.get id).head = d.head

namespace TypeTable.Declares
variable {t t' : TypeTable} {id : TypeId} {d : TypeDef}

theorem mono (h : t.Declares id d) (hkeeps : t.Keeps t') : t'.Declares id d :=
  ⟨h.lt_size.trans_le hkeeps.size, (hkeeps.head id h.lt_size).trans h.head⟩

theorem isSealed (h : t.Declares id d) : (t.get id).isSealed = d.isSealed := by
  have hsealed := congrArg TypeDef.isSealed h.head
  exact hsealed

theorem origin (h : t.Declares id d) : (t.get id).origin = d.origin :=
  TypeDef.origin_of_head h.head

end TypeTable.Declares

def TypeTable.Holds (t : TypeTable) (id : TypeId) (d : TypeDef) : Prop :=
  id.index < t.size ∧ t.get id = d

theorem TypeTable.Holds.mono {t t' : TypeTable} (h : t.Holds id d) (hextends : t.Extends t') : t'.Holds id d :=
  ⟨h.1.trans_le hextends.evolves.keeps.size, (hextends.get_eq h.1).trans h.2⟩

theorem TypeTable.Holds.declares {t : TypeTable} (h : t.Holds id d) : t.Declares id d :=
  ⟨h.1, congrArg TypeDef.head h.2⟩

/-- The types that came in between two tables are `ids`, in this order. -/
structure TypeTable.Brings (t t' : TypeTable) (ids : List TypeId) : Prop where
  types : t.Extends t'
  sorted : ids.Pairwise (·.index < ·.index)
  range : ∀ id ∈ ids, t.size ≤ id.index ∧ id.index < t'.size

theorem TypeTable.Brings.append {t t' t'' : TypeTable} {ids ids' : List TypeId} (h : t.Brings t' ids)
    (h' : t'.Brings t'' ids') : t.Brings t'' (ids ++ ids') where
  types := h.types.trans h'.types
  sorted := pairwise_append.mpr ⟨h.sorted, h'.sorted, fun a ha b hb =>
    (h.range a ha).2.trans_le (h'.range b hb).1⟩
  range id hid := by
    have hsize := h.types.evolves.keeps.size
    have hsize' := h'.types.evolves.keeps.size
    rcases mem_append.mp hid with hid | hid
    · exact ⟨(h.range id hid).1, (h.range id hid).2.trans_le hsize'⟩
    · exact ⟨hsize.trans (h'.range id hid).1, (h'.range id hid).2⟩

theorem TypeTable.Brings.nodup {t t' : TypeTable} {ids : List TypeId} (h : t.Brings t' ids) : ids.Nodup := by
  refine h.sorted.imp fun hlt heq => ?_
  rw [heq] at hlt
  exact Nat.lt_irrefl _ hlt

theorem TypeTable.Brings.nothing (t : TypeTable) : t.Brings t [] where
  types := .refl
  sorted := .nil
  range _ hid := by cases hid

namespace Context

/-- Steps that register types and change none. -/
structure Declaring (π : Permit) (c c' : Context) (ids : List TypeId) : Prop
    extends c.types.Brings c'.types ids where
  steps : c.Steps π c'
  refusals : c'.refusals = c.refusals

variable {π : Permit}

theorem Declaring.refl (c : Context) : c.Declaring π c [] :=
  ⟨.nothing c.types, .refl, rfl⟩

theorem Declaring.report (c : Context) {d : Diagnostic} (h : d.code ≠ some .invalidInheritance) :
    c.Declaring π (c.push d) [] :=
  ⟨.nothing c.types, .single (.report d), c.filter_push h⟩

theorem Declaring.append {c' c'' : Context} {ids ids' : List TypeId} (h : c.Declaring π c' ids)
    (h' : c'.Declaring π c'' ids') : c.Declaring π c'' (ids ++ ids') :=
  ⟨h.toBrings.append h'.toBrings, h.steps.trans h'.steps, h'.refusals.trans h.refusals⟩

theorem declaring_traverse {α β : Type} {f : Context → α → β × Context} {P : TypeTable → α → β → Prop}
    (ids : β → List TypeId) (hmono : ∀ t t' a b, TypeTable.Extends t t' → P t a b → P t' a b) (as : List α)
    (hf : ∀ c, ∀ a ∈ as, Declaring π c (f c a).2 (ids (f c a).1) ∧ P (f c a).2.types a (f c a).1)
    (c : Context) : c.Declaring π (traverse f c as).2 ((traverse f c as).1.flatMap ids) ∧
      Forall₂ (P (traverse f c as).2.types) as (traverse f c as).1 := by
  induction as generalizing c with
  | nil => exact ⟨.refl c, .nil⟩
  | cons a as ih =>
    obtain ⟨hfirst, ha⟩ := hf c a mem_cons_self
    obtain ⟨hrest, hall⟩ := ih (fun c b hb => hf c b (mem_cons_of_mem _ hb)) (f c a).2
    exact ⟨hfirst.append hrest, .cons (hmono _ _ _ _ hrest.types ha) hall⟩

theorem declaring_declareType (c : Context) (hpermit : π.names d.name) (hmembers : d.members = ([], [], []))
    (horigin : d.origin = .defined) (hbases : d.bases = []) {name : String} (hname : d.name = module.child name)
    (span : Span) : c.Declaring π (c.declareType d span).2 (c.declareType d span).1.toList ∧
      ∀ id, (c.declareType d span).1 = some id → (c.declareType d span).2.types.Holds id { d with span } := by
  unfold declareType TypeTable.insert
  dsimp only
  cases hlookup : c.types.lookup d.name with
  | some existing =>
    refine ⟨.report c nofun, fun id hid => ?_⟩
    cases hid
  | none =>
    have hnone : ({ d with span } : TypeDef).bases = [] := hbases
    have harises : c.types.Arises { d with span } := by
      refine ⟨hmembers, fun b hb => ?_⟩
      rw [hnone] at hb
      cases hb
    have hregistrable : ({ d with span } : TypeDef).Registrable := by
      refine ⟨harises.methods, fun _ => ?_, fun _ => ?_, fun hexternal => ?_⟩
      · rw [hnone]
        exact Nat.zero_le 1
      · rw [show ({ d with span } : TypeDef).name = module.child name from hname]
        simp [QualifiedName.child, QualifiedName.global]
      · cases horigin.symm.trans hexternal
    have hlt : c.types.size < size { defs := c.types.defs ++ [{ d with span }] } :=
      size_append _ _ ▸ Nat.lt_succ_self _
    have hnew : get { defs := c.types.defs ++ [{ d with span }] } ⟨c.types.size⟩ = { d with span } := by
      rcases c.types.get_append_cases { d with span } ⟨c.types.size⟩ with ⟨hold, -⟩ | ⟨-, hnew⟩ | ⟨hgt, -⟩
      · exact absurd hold (Nat.lt_irrefl _)
      · exact hnew
      · exact absurd hgt (Nat.lt_irrefl _)
    refine ⟨⟨⟨.single (.mk _ hlookup hregistrable), pairwise_singleton _ _, fun id hid => ?_⟩,
      .single (.register _ hpermit hlookup harises), rfl⟩, fun id hid => ?_⟩
    · cases mem_singleton.mp hid
      exact ⟨le_rfl, hlt⟩
    · cases hid
      exact ⟨hlt, hnew⟩

end Context

theorem Decl.declaring_declaredType {r : Option TypeId × Context} {def_ : TypeDef} {P : TypeTable → Declared → Prop}
    (hr : c.Declaring π r.2 r.1.toList ∧ ∀ id, r.1 = some id → r.2.types.Holds id def_) (hnothing : ∀ t, P t .nothing)
    (htype : ∀ t id, TypeTable.Holds t id def_ → P t (.type id)) :
    c.Declaring π (declaredType r).2 (declaredType r).1.ids ∧
      P (declaredType r).2.types (declaredType r).1 := by
  obtain ⟨id, c'⟩ := r
  cases id with
  | none => exact ⟨hr.1, hnothing _⟩
  | some id => exact ⟨hr.1, htype _ id (hr.2 id rfl)⟩

/-- A declaration registers what it says, where its names are not taken. -/
theorem Decl.declaring_declare (module : QualifiedName) (c : Context) (d : Decl)
    (hnames : ∀ n ∈ d.typeNames module, π.names n) : c.Declaring π (d.declare module c).2 (d.declare module c).1.ids ∧
      d.Registered (d.declare module c).2.types.Holds module (d.declare module c).1 := by
  cases d with
  | type d =>
    exact declaring_declaredType (P := fun t => Decl.Registered t.Holds module (.type d))
      (c.declaring_declareType (hnames _ mem_cons_self) rfl rfl rfl rfl d.span) (fun _ => trivial) fun _ _ h => h
  | enum d =>
    exact declaring_declaredType (P := fun t => Decl.Registered t.Holds module (.enum d))
      (c.declaring_declareType (hnames _ mem_cons_self) rfl rfl rfl rfl d.span) (fun _ => trivial) fun _ _ h => h
  | union d =>
    exact declaring_declaredType (P := fun t => Decl.Registered t.Holds module (.union d))
      (c.declaring_declareType (hnames _ mem_cons_self) rfl rfl rfl rfl d.span) (fun _ => trivial) fun _ _ h => h
  | taggedUnion d =>
    obtain ⟨hsteps, hholds⟩ := c.declaring_declareType (π := π)
      (d := { definedType module d.name with isAbstract := true }) (hnames _ mem_cons_self) rfl rfl rfl rfl d.span
    rw [declare]
    generalize c.declareType { definedType module d.name with isAbstract := true } d.span = r
      at hsteps hholds
    obtain ⟨base, c'⟩ := r
    cases base with
    | none => exact ⟨hsteps, trivial⟩
    | some base =>
      obtain ⟨hvariants, hall⟩ := Context.declaring_traverse (π := π) (f := Variant.declare module)
        Option.toList (P := fun (t : TypeTable) (v : Variant) type => ∀ id, type = some id →
          t.Holds id { definedType module v.name with isSealed := true, span := v.span })
        (fun _ _ _ _ hextends hv id hid => (hv id hid).mono hextends) d.variants
        (fun c v hv => c.declaring_declareType
          (hnames _ (mem_cons_of_mem _ (mem_map_of_mem hv))) rfl rfl rfl rfl v.span) c'
      exact ⟨hsteps.append hvariants, (hholds base rfl).mono hvariants.types, hall⟩
  | fn d => exact ⟨.refl c, trivial⟩
  | error span => exact ⟨.report c nofun, trivial⟩

end TreeCompiler
