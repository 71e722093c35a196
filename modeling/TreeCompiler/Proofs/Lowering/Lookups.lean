import TreeCompiler.Lowering.Members
import TreeCompiler.Proofs.TypeTable.Edits

/-!
# Looking types up

Much of lowering only looks types up. All that it may register on the way are delegates, it reports no name
that is taken, and a type that it does not find has been reported.
-/

namespace TreeCompiler

open List Context TypeTable Option
open Relation (ReflTransGen)

namespace TypeTable
variable {t t' : TypeTable}

def Covers (t : TypeTable) (type : Option TypeId) : Prop :=
  ∀ id, type = some id → id.index < t.size

theorem Covers.mono {type : Option TypeId} (h : t.Covers type) (hsize : t.size ≤ t'.size) : t'.Covers type :=
  fun id hid => Nat.lt_of_lt_of_le (h id hid) hsize

theorem covers_none (t : TypeTable) : t.Covers none :=
  fun _ h => by cases h

theorem covers_lookup (t : TypeTable) (name : QualifiedName) : t.Covers (t.lookup name) :=
  fun _ hid => (lookup_spec hid).1

theorem covers_primitive? (t : TypeTable) (p : Primitive) : t.Covers (t.primitive? p) :=
  t.covers_lookup _

def HasAttributes (t : TypeTable) (attributes : List Attribute) : Prop :=
  ∀ a ∈ attributes, a.type.index < t.size

/-! ## Delegates -/

/-- The delegate for given arguments, as it is registered. -/
def instanceOf (t : TypeTable) (definition : TypeId) (args : List TypeId) : TypeDef :=
  { name := instanceName t definition args
    origin := .external
    bases := (t.get definition).bases
    isSealed := true
    genericDefinition := some definition
    genericArgs := args }

/-- `definition` is a generic delegate for as many arguments. -/
structure MayInstantiate (t : TypeTable) (definition : TypeId) (args : List TypeId) : Prop where
  lt_size : definition.index < t.size
  args_lt : ∀ a ∈ args, a.index < t.size
  named : ∃ family, (t.get definition).name = delegateName family args.length

/-- One more delegate, under a new name. -/
inductive AddsInstance (t : TypeTable) : TypeTable → Prop where
  | mk (definition : TypeId) (args : List TypeId) : t.MayInstantiate definition args →
      t.lookup (t.instanceOf definition args).name = none →
      AddsInstance t { defs := t.defs ++ [t.instanceOf definition args] }

theorem AddsInstance.registers (h : t.AddsInstance t') : t.Registers t' := by
  obtain ⟨definition, args, ⟨-, -, family, hfamily⟩, hlookup⟩ := h
  refine .mk _ hlookup ⟨rfl, fun hdefined => ?_, fun hdefined => ?_, fun _ => ?_⟩
  · cases hdefined
  · cases hdefined
  · change 1 < (instanceName t definition args).length
    rw [instanceName, hfamily]
    exact Nat.lt_succ_self 1

abbrev AddsInstances : TypeTable → TypeTable → Prop :=
  ReflTransGen AddsInstance

theorem AddsInstances.extends (h : t.AddsInstances t') : t.Extends t' :=
  h.lift id fun _ _ => AddsInstance.registers

theorem AddsInstances.keeps (h : t.AddsInstances t') : t.Keeps t' :=
  h.extends.evolves.keeps

end TypeTable

namespace Context
variable {result : Option (Option TypeId)} {params : List (Option TypeId)}

def duplicates (c : Context) : List Diagnostic :=
  c.diagnostics.filter (·.code == some .duplicateDeclaration)

def refusals (c : Context) : List Diagnostic :=
  c.diagnostics.filter (·.code == some .invalidInheritance)

variable (c : Context)

theorem filter_push {d : Diagnostic} {code : ErrorCode} (h : d.code ≠ some code) :
    (c.push d).diagnostics.filter (·.code == some code) = c.diagnostics.filter (·.code == some code) := by
  rw [push, filter_append, filter_singleton, beq_eq_false_iff_ne.mpr h]
  exact append_nil _

theorem push_ne_nil (d : Diagnostic) : (c.push d).diagnostics ≠ [] :=
  append_ne_nil_of_right_ne_nil _ (cons_ne_nil _ _)

/-- Nothing has changed but for new delegates and reports of other kinds than taken names, or than refused bases
either, if `firm`. -/
structure Consults (firm : Prop) (c c' : Context) : Prop where
  types : c.types.AddsInstances c'.types
  assembly : c'.assembly = { c.assembly with types := c'.types }
  duplicates : c'.duplicates = c.duplicates
  refusals : firm → c'.refusals = c.refusals
  diagnostics : c.diagnostics <+: c'.diagnostics

abbrev Instantiates (c c' : Context) : Prop :=
  c.Consults True c'

/-- From `c` to `c'` types are looked up: nothing is recorded but that some are not found. -/
def Seeks (c c' : Context) : Prop :=
  ∃ ds, c'.diagnostics = c.diagnostics ++ ds ∧ ∀ d ∈ ds, d.code = some .unresolvedType

/-- A type of the table was found, or an error has been recorded. -/
structure Suits (c : Context) (type : Option TypeId) : Prop where
  found : c.types.Covers type
  known : c.diagnostics = [] → type.isSome = true

namespace Consults
variable {firm : Prop} {c c' c'' : Context}

theorem refl (c : Context) : c.Consults firm c :=
  ⟨.refl, rfl, rfl, fun _ => rfl, prefix_rfl⟩

variable (h : c.Consults firm c')
include h

theorem trans (h' : c'.Consults firm c'') : c.Consults firm c'' where
  types := h.types.trans h'.types
  assembly := by rw [h'.assembly, h.assembly]
  duplicates := h'.duplicates.trans h.duplicates
  refusals hfirm := (h'.refusals hfirm).trans (h.refusals hfirm)
  diagnostics := h.diagnostics.trans h'.diagnostics

theorem mono {loose : Prop} (hfirm : loose → firm) : c.Consults loose c' :=
  { h with refusals := h.refusals ∘ hfirm }

theorem size : c.types.size ≤ c'.types.size :=
  h.types.keeps.size

theorem silent (hsilent : c'.diagnostics = []) : c.diagnostics = [] :=
  prefix_nil.mp (hsilent ▸ h.diagnostics)

theorem suits {type : Option TypeId} (htype : c.Suits type) : c'.Suits type :=
  ⟨htype.found.mono h.size, fun hsilent => htype.known (h.silent hsilent)⟩

omit h in
theorem push (c : Context) {d : Diagnostic} {code : ErrorCode} (hcode : d.code = some code)
    (h : code ≠ .duplicateDeclaration ∧ (firm → code ≠ .invalidInheritance)) : c.Consults firm (c.push d) :=
  ⟨.refl, rfl, c.filter_push (by simpa [hcode] using h.1),
    fun hfirm => c.filter_push (by simpa [hcode] using h.2 hfirm), prefix_append _ _⟩

omit h in
theorem report (c : Context) {code : ErrorCode}
    (h : code ≠ .duplicateDeclaration ∧ (firm → code ≠ .invalidInheritance)) (span : Span) (message label : String) :
    c.Consults firm (c.report code span message label) :=
  push c rfl h

end Consults

theorem Consults.extends {firm : Prop} {c c' : Context} (h : c.Consults firm c') : c.types.Extends c'.types :=
  h.types.extends

namespace Seeks
variable {c c' c'' : Context}

theorem of_eq (h : c'.diagnostics = c.diagnostics) : c.Seeks c' :=
  ⟨[], by rw [h, append_nil], forall_mem_nil _⟩

theorem trans (h : c.Seeks c') (h' : c'.Seeks c'') : c.Seeks c'' := by
  obtain ⟨ds, heq, hds⟩ := h
  obtain ⟨ds', heq', hds'⟩ := h'
  exact ⟨ds ++ ds', by rw [heq', heq, append_assoc], forall_mem_append.mpr ⟨hds, hds'⟩⟩

end Seeks

/-- What runs over a list changes the state as each of its parts does, and what is found on the way is there at
the end as well. -/
theorem traverse_spec {α β : Type} {f : Context → α → β × Context} {R : Context → Context → Prop}
    {P : Context → β → Prop} (hrefl : ∀ c, R c c) (htrans : ∀ {c c' c''}, R c c' → R c' c'' → R c c'')
    (hmono : ∀ c c' b, R c c' → P c b → P c' b) (as : List α) {c : Context}
    (hf : ∀ c', R c c' → ∀ a ∈ as, R c' (f c' a).2 ∧ P (f c' a).2 (f c' a).1) :
    R c (traverse f c as).2 ∧ (traverse f c as).1.length = as.length ∧
      ∀ b ∈ (traverse f c as).1, P (traverse f c as).2 b := by
  induction as generalizing c with
  | nil => exact ⟨hrefl c, rfl, forall_mem_nil _⟩
  | cons a as ih =>
    obtain ⟨hfirst, hhere⟩ := hf c (hrefl c) a mem_cons_self
    obtain ⟨hrest, hlength, hall⟩ := ih fun c' hc' b hb => hf c' (htrans hfirst hc') b (mem_cons_of_mem _ hb)
    refine ⟨htrans hfirst hrest, congrArg (· + 1) hlength, fun b hb => ?_⟩
    rcases mem_cons.mp hb with rfl | hmem
    · exact hmono _ _ _ hrest hhere
    · exact hall b hmem

/-! ## Types -/

/-- Types are looked up, and the one that is meant is found, or an error has been recorded. -/
structure Resolves (c : Context) (r : Option TypeId × Context) : Prop extends r.2.Suits r.1 where
  instantiates : c.Instantiates r.2
  seeks : c.Seeks r.2

/-- The same where a type need not be written, in which case it is the default. -/
structure ResolvesOr (c : Context) (default : Option TypeId) (r : Option TypeId × Context) : Prop where
  instantiates : c.Instantiates r.2
  found : r.2.types.Covers r.1
  known : default.isSome = true → r.2.diagnostics = [] → r.1.isSome = true
  seeks : c.Seeks r.2

theorem Resolves.orDefault {c : Context} {r : Option TypeId × Context} (h : c.Resolves r) {default : Option TypeId} :
    c.ResolvesOr default r :=
  ⟨h.instantiates, h.found, fun _ => h.known, h.seeks⟩

theorem ResolvesOr.absent {c : Context} {default : Option TypeId} (h : c.types.Covers default) :
    c.ResolvesOr default (default, c) :=
  ⟨.refl c, h, fun hknown _ => hknown, .of_eq rfl⟩

@[simp] theorem types_resolveType (module name : QualifiedName) (span : Span) :
    (c.resolveType module name span).2.types = c.types := by
  unfold resolveType
  split <;> rfl

theorem lt_size_of_resolveIn? {t : TypeTable} {module name : QualifiedName} {id : TypeId}
    (h : t.resolveIn? module name = some id) : id.index < t.size := by
  unfold resolveIn? resolvePlatform? system? at h
  rcases or_eq_some_iff.mp h with h | ⟨-, h⟩
  · rcases or_eq_some_iff.mp h with h | ⟨-, h⟩
    · exact (lookup_spec h).1
    · exact (lookup_spec h).1
  · split at h
    · exact (lookup_spec h).1
    · cases h

theorem resolves_resolveType (module name : QualifiedName) (span : Span) :
    c.Resolves (c.resolveType module name span) := by
  unfold resolveType
  split
  next id hid =>
    refine ⟨⟨fun id' hid' => ?_, fun _ => rfl⟩, .refl c, .of_eq rfl⟩
    cases hid'
    exact lt_size_of_resolveIn? hid
  next =>
    have hcode : ErrorCode.unresolvedType ≠ .duplicateDeclaration ∧
        (True → ErrorCode.unresolvedType ≠ .invalidInheritance) := by decide
    exact ⟨⟨covers_none _, fun hsilent => absurd hsilent (c.push_ne_nil _)⟩, .push c rfl hcode, [_], rfl,
      forall_mem_singleton.mpr rfl⟩

def delegateOf (c : Context) (params : List (Option TypeId)) :
    Option (Option TypeId) → String × List (Option TypeId)
  | some r => if r = c.types.primitive? .void then ("Action", params) else ("Func", params ++ [r])
  | none => ("Action", params)

/-- The delegate of a family for resolved arguments. -/
def delegateFor (c : Context) (family : String) (args : List (Option TypeId)) (span : Span) :
    Option TypeId × Context :=
  let (definition, c) := c.resolveType .global (delegateName family args.length) span
  match definition, allSome args with
  | some definition, some args =>
    let (id, c) := c.instantiate definition args
    (some id, c)
  | _, _ => (none, c)

theorem resolveDelegate_eq (params : List (Option TypeId)) (result : Option (Option TypeId))
    (span : Span) : c.resolveDelegate params result span =
      c.delegateFor (c.delegateOf params result).1 (c.delegateOf params result).2 span := by
  cases result <;> rfl

theorem mem_delegateOf {c : Context} {a : Option TypeId} (h : a ∈ (c.delegateOf params result).2) :
    a ∈ params ∨ result = some a := by
  cases result with
  | none => exact Or.inl h
  | some r =>
    rw [delegateOf] at h
    split at h
    · exact Or.inl h
    · rcases mem_append.mp h with h | h
      · exact Or.inl h
      · exact Or.inr (congrArg some (mem_singleton.mp h).symm)

theorem resolveIn?_delegateName (t : TypeTable) (family : String) (n : Nat) :
    t.resolveIn? .global (delegateName family n) = t.lookup (delegateName family n) := by
  have hplatform : t.resolvePlatform? (delegateName family n) = none := rfl
  have hqualify : (delegateName family n).qualify .global = delegateName family n := rfl
  rw [resolveIn?, hplatform, hqualify, Option.or_self, Option.or_none]

theorem name_of_resolveType_delegateName (family : String) (n : Nat) (span : Span) (id : TypeId)
    (h : (c.resolveType .global (delegateName family n) span).1 = some id) :
    (c.types.get id).name = delegateName family n := by
  unfold resolveType at h
  split at h
  next id' hid' =>
    cases h
    exact (lookup_spec (resolveIn?_delegateName _ _ _ ▸ hid')).2
  next => cases h

section AllSome
variable {α : Type} {os : List (Option α)} {as : List α}

theorem allSome_eq_some_iff : allSome os = some as ↔ os = as.map some := by
  induction os generalizing as with
  | nil =>
    constructor
    · intro h
      cases h
      rfl
    · intro h
      cases as with
      | nil => rfl
      | cons b bs => cases h
  | cons o os ih =>
    cases o with
    | none =>
      constructor
      · intro h
        cases h
      · intro h
        cases as with
        | nil | cons b bs => cases h
    | some a =>
      rw [allSome, map_eq_some_iff]
      constructor
      · rintro ⟨bs, hbs, rfl⟩
        rw [ih.mp hbs]
        rfl
      · intro h
        cases as with
        | nil => cases h
        | cons b bs =>
          cases h
          exact ⟨bs, ih.mpr rfl, rfl⟩

theorem isSome_allSome (h : ∀ o ∈ os, o.isSome = true) : (allSome os).isSome = true := by
  induction os with
  | nil => rfl
  | cons o os ih =>
    obtain ⟨a, rfl⟩ := isSome_iff_exists.mp (h o mem_cons_self)
    rw [allSome, isSome_map]
    exact ih fun o ho => h o (mem_cons_of_mem _ ho)

theorem length_of_allSome (h : allSome os = some as) : as.length = os.length := by
  rw [allSome_eq_some_iff.mp h, length_map]

end AllSome

theorem instantiates_instantiate {definition : TypeId} {args : List TypeId}
    (h : c.types.MayInstantiate definition args) : c.Instantiates (c.instantiate definition args).2 ∧
      (c.instantiate definition args).1.index < (c.instantiate definition args).2.types.size := by
  have heq : c.instantiate definition args = ((c.types.intern (c.types.instanceOf definition args)).1,
      c.withTypes (c.types.intern (c.types.instanceOf definition args)).2) := rfl
  rw [heq]
  unfold TypeTable.intern TypeTable.insert
  cases hlookup : c.types.lookup (c.types.instanceOf definition args).name with
  | some existing => exact ⟨.refl c, c.types.covers_lookup _ existing hlookup⟩
  | none =>
    refine ⟨⟨.single (.mk definition args h hlookup), rfl, rfl, fun _ => rfl, prefix_rfl⟩, ?_⟩
    change c.types.size < (c.types.defs ++ [_]).length
    rw [length_append]
    exact Nat.lt_succ_self _

theorem resolves_delegateFor (family : String) {args : List (Option TypeId)} (span : Span)
    (hargs : ∀ a ∈ args, c.Suits a) : c.Resolves (c.delegateFor family args span) := by
  have hresolve := c.resolves_resolveType .global (delegateName family args.length) span
  have hname := c.name_of_resolveType_delegateName family args.length span
  have htypes := c.types_resolveType .global (delegateName family args.length) span
  unfold delegateFor
  dsimp only
  generalize c.resolveType .global (delegateName family args.length) span = r at hresolve hname htypes ⊢
  obtain ⟨definition, c'⟩ := r
  dsimp only at hname htypes ⊢
  split
  next definition args' hall =>
    have hmay : c'.types.MayInstantiate definition args' := by
      refine ⟨hresolve.found definition rfl, fun a ha => ?_, family, ?_⟩
      · refine htypes ▸ (hargs (some a) ?_).found a rfl
        rw [allSome_eq_some_iff.mp hall]
        exact mem_map_of_mem ha
      · rw [length_of_allSome hall, htypes]
        exact hname definition rfl
    obtain ⟨hinstantiate, hlt⟩ := c'.instantiates_instantiate hmay
    refine ⟨⟨fun id hid => ?_, fun _ => rfl⟩, hresolve.instantiates.trans hinstantiate,
      hresolve.seeks.trans (.of_eq rfl)⟩
    cases hid
    exact hlt
  next hnone =>
    refine ⟨⟨covers_none _, fun hsilent => ?_⟩, hresolve.instantiates, hresolve.seeks⟩
    obtain ⟨definition', rfl⟩ := isSome_iff_exists.mp (hresolve.known hsilent)
    obtain ⟨args', hall⟩ := isSome_iff_exists.mp
      (isSome_allSome fun a ha => (hargs a ha).known (hresolve.instantiates.silent hsilent))
    exact (hnone definition' args' rfl hall).elim

theorem suits_delegateOf {c : Context} (hparams : ∀ p ∈ params, c.Suits p)
    (hresult : ∀ r, result = some r → c.Suits r) : ∀ a ∈ (c.delegateOf params result).2, c.Suits a := by
  intro a ha
  rcases mem_delegateOf ha with hparam | hres
  · exact hparams a hparam
  · exact hresult a hres

theorem resolves_resolveDelegate (span : Span) (hparams : ∀ p ∈ params, c.Suits p)
    (hresult : ∀ r, result = some r → c.Suits r) : c.Resolves (c.resolveDelegate params result span) := by
  rw [resolveDelegate_eq]
  exact c.resolves_delegateFor _ span (suits_delegateOf hparams hresult)

mutual

/-- A type expression means a type of the table, or an error has been recorded; it registers delegates at
most. -/
theorem resolves_resolveTypeExpr (module : QualifiedName) (c : Context) (type : TypeExpr) :
    c.Resolves (resolveTypeExpr module c type) := by
  cases type with
  | named name span =>
    rw [resolveTypeExpr]
    exact c.resolves_resolveType module name span
  | function params result span =>
    obtain ⟨hparams, hseeks, hsuits⟩ := instantiates_resolveParams module c params
    obtain ⟨hresult, hresultSeeks, hresultSuits⟩ :=
      instantiates_resolveResult module (resolveParams module c params).2 result
    have hdelegate := resolves_resolveDelegate (resolveResult module (resolveParams module c params).2 result).2 span
      (fun p hp => hresult.suits (hsuits p hp)) hresultSuits
    rw [resolveTypeExpr]
    exact ⟨hdelegate.toSuits, (hparams.trans hresult).trans hdelegate.instantiates,
      (hseeks.trans hresultSeeks).trans hdelegate.seeks⟩

theorem instantiates_resolveParams (module : QualifiedName) (c : Context) (types : List TypeExpr) :
    c.Instantiates (resolveParams module c types).2 ∧ c.Seeks (resolveParams module c types).2 ∧
      ∀ p ∈ (resolveParams module c types).1, (resolveParams module c types).2.Suits p := by
  cases types with
  | nil =>
    rw [resolveParams]
    exact ⟨.refl c, .of_eq rfl, forall_mem_nil _⟩
  | cons type types =>
    have hfirst := resolves_resolveTypeExpr module c type
    obtain ⟨hrest, hseeks, hsuits⟩ := instantiates_resolveParams module (resolveTypeExpr module c type).2 types
    rw [resolveParams]
    refine ⟨hfirst.instantiates.trans hrest, hfirst.seeks.trans hseeks, fun p hp => ?_⟩
    rcases mem_cons.mp hp with rfl | hmem
    · exact hrest.suits hfirst.toSuits
    · exact hsuits p hmem

theorem instantiates_resolveResult (module : QualifiedName) (c : Context) (type : Option TypeExpr) :
    c.Instantiates (resolveResult module c type).2 ∧ c.Seeks (resolveResult module c type).2 ∧
      ∀ r, (resolveResult module c type).1 = some r → (resolveResult module c type).2.Suits r := by
  cases type with
  | none =>
    rw [resolveResult]
    exact ⟨.refl c, .of_eq rfl, fun r hr => by cases hr⟩
  | some type =>
    have htype := resolves_resolveTypeExpr module c type
    rw [resolveResult]
    refine ⟨htype.instantiates, htype.seeks, fun r hr => ?_⟩
    cases hr
    exact htype.toSuits

end

variable (module : QualifiedName)

theorem extends_resolveTypeExpr (c : Context) (type : TypeExpr) :
    c.types.Extends (resolveTypeExpr module c type).2.types :=
  (resolves_resolveTypeExpr module c type).instantiates.extends

/-! ## Attributes and constants -/

/-- An attribute is the type that its name stands for, and a report may follow the lookup. -/
theorem attribute?_cases (target : AttributeTargets) (c : Context) (a : AttributeUse) :
    let r := c.resolveType module a.attributeName a.span
    ((a.attribute? module target c).2 = r.2 ∨ ∃ message label,
      (a.attribute? module target c).2 = r.2.report .invalidAttributeTarget a.span message label) ∧
      ∀ found, (a.attribute? module target c).1 = some found → r.1 = some found.type ∧ found.args = [] := by
  unfold AttributeUse.attribute?
  grind

theorem instantiates_attribute? (target : AttributeTargets) (c : Context)
    (a : AttributeUse) : c.Instantiates (a.attribute? module target c).2 ∧
      ∀ found, (a.attribute? module target c).1 = some found →
        found.type.index < (a.attribute? module target c).2.types.size := by
  have hresolve := c.resolves_resolveType module a.attributeName a.span
  obtain ⟨hafter, hfound⟩ := attribute?_cases module target c a
  have hlt := fun found h => hresolve.found _ (hfound found h).1
  rcases hafter with heq | ⟨message, label, heq⟩ <;> rw [heq]
  · exact ⟨hresolve.instantiates, hlt⟩
  · exact ⟨hresolve.instantiates.trans (.report _ (by decide) _ _ _), hlt⟩

theorem instantiates_attributes (annotations : List AttributeUse)
    (target : AttributeTargets) : c.Instantiates (c.attributes module annotations target).2 ∧
      (c.attributes module annotations target).2.types.HasAttributes (c.attributes module annotations target).1 := by
  obtain ⟨hinstantiates, -, hall⟩ := traverse_spec (f := AttributeUse.attribute? module target)
    (P := fun c found => ∀ a : Attribute, found = some a → a.type.index < c.types.size) .refl .trans
    (fun _ _ _ h hfound a ha => Nat.lt_of_lt_of_le (hfound a ha) h.size) annotations
    fun c' (_ : c.Instantiates c') a _ => instantiates_attribute? module target c' a
  refine ⟨hinstantiates, fun a ha => ?_⟩
  obtain ⟨found, hfound, heq⟩ := mem_filterMap.mp ha
  exact hall found hfound a heq

@[simp] theorem types_attributes (annotations : List AttributeUse)
    (target : AttributeTargets) : (c.attributes module annotations target).2.types = c.types := by
  unfold attributes
  dsimp only
  induction annotations generalizing c with
  | nil => rfl
  | cons a annotations ih =>
    refine (ih (a.attribute? module target c).2).trans ?_
    rcases (attribute?_cases module target c a).1 with heq | ⟨message, label, heq⟩ <;> rw [heq]
    · exact c.types_resolveType module a.attributeName a.span
    · exact c.types_resolveType module a.attributeName a.span

@[simp] theorem types_optionalConstant (value : Option Expr) (type : Option TypeId) (what : String) :
    (c.optionalConstant value type what).2.types = c.types := by
  unfold optionalConstant constant?
  split
  · split
    · rfl
    · dsimp only
      split <;> rfl
  · rfl

theorem instantiates_optionalConstant (value : Option Expr) (type : Option TypeId)
    (what : String) : c.Instantiates (c.optionalConstant value type what).2 := by
  unfold optionalConstant constant?
  split
  · split
    · exact .report c (by decide) _ _ _
    · dsimp only
      split <;> exact .refl c
  · exact .refl c

end Context

/-! ## Signatures and bases -/

namespace Lowering

variable (module : QualifiedName) (self : TypeId) (name : String) (s : List TypeId × Context)

theorem instantiates_parameter (c : Context) (p : Param) :
    c.Instantiates (parameter module c p).2 ∧ (parameter module c p).2.Suits (parameter module c p).1.type := by
  have htype := resolves_resolveTypeExpr module c p.type
  have hdefault := instantiates_optionalConstant (resolveTypeExpr module c p.type).2 p.default
    (resolveTypeExpr module c p.type).1 "A parameter default"
  exact ⟨htype.instantiates.trans hdefault, hdefault.suits htype.toSuits⟩

theorem instantiates_parameters (c : Context) (ps : List Param) :
    c.Instantiates (traverse (parameter module) c ps).2 ∧
      (traverse (parameter module) c ps).1.length = ps.length ∧
      ∀ p ∈ (traverse (parameter module) c ps).1, (traverse (parameter module) c ps).2.Suits p.type :=
  traverse_spec (P := fun (c : Context) (p : Parameter) => c.Suits p.type) .refl .trans
    (fun _ _ _ h hsuits => h.suits hsuits) ps fun c' _ p _ => instantiates_parameter module c' p

theorem resolves_returnType (c : Context) (type : Option TypeExpr) :
    c.ResolvesOr (c.types.primitive? .void) (returnType module c type) := by
  cases type with
  | none => exact .absent (c.types.covers_primitive? .void)
  | some type => exact (resolves_resolveTypeExpr module c type).orDefault

/-- A signature registers delegates at most. -/
theorem instantiates_method (owner : TypeId) (c : Context) (d : FnDecl)
    (name : String) (isStatic : Bool) : c.Instantiates (method module owner c d name isStatic).2 :=
  ((resolves_returnType module c d.returnType).instantiates.trans (instantiates_parameters module _ d.params).1).trans
    (instantiates_attributes _ module d.annotations .methods).1

/-- A base that is listed is left out, perhaps with a report, or it is new and may be one. -/
theorem addBase_cases (self : TypeId) (name : String) (s : List TypeId × Context) (base : TypeExpr) :
    let r := resolveTypeExpr module s.2 base
    (addBase module self name s base).1 = s.1 ∧ ((addBase module self name s base).2 = r.2 ∨
      ∃ message label, (addBase module self name s base).2 = r.2.report .invalidInheritance base.span message label) ∨
    ∃ id, r.1 = some id ∧ addBase module self name s base = (s.1 ++ [id], r.2) ∧ id ∉ s.1 ∧
      (r.2.types.get id).isSealed = false ∧ r.2.types.derivesFrom id self = false := by
  unfold addBase
  dsimp only
  obtain ⟨type, c⟩ := resolveTypeExpr module s.2 base
  cases type with
  | none => exact Or.inl ⟨rfl, Or.inl rfl⟩
  | some id =>
    dsimp only
    split_ifs with hsealed hcircle hthere
    · exact Or.inl ⟨rfl, Or.inr ⟨_, _, rfl⟩⟩
    · exact Or.inl ⟨rfl, Or.inr ⟨_, _, rfl⟩⟩
    · exact Or.inl ⟨rfl, Or.inl rfl⟩
    · exact Or.inr ⟨id, rfl, rfl, by simpa using hthere, by simpa using hsealed, by simpa using hcircle⟩

theorem consults_addBase (base : TypeExpr) : s.2.Consults False (addBase module self name s base).2 := by
  have hresolve := (resolves_resolveTypeExpr module s.2 base).instantiates.mono False.elim
  rcases addBase_cases module self name s base with ⟨-, heq | ⟨message, label, heq⟩⟩ | ⟨id, -, heq, -⟩ <;> rw [heq]
  · exact hresolve
  · exact hresolve.trans (.report _ (by decide) _ _ _)
  · exact hresolve

theorem types_addBase (base : TypeExpr) :
    (addBase module self name s base).2.types = (resolveTypeExpr module s.2 base).2.types := by
  rcases addBase_cases module self name s base with ⟨-, heq | ⟨message, label, heq⟩⟩ | ⟨id, -, heq, -⟩ <;> rw [heq]
  rfl

theorem consults_addBases (exprs : List TypeExpr) : s.2.Consults False (exprs.foldl (addBase module self name) s).2 :=
  foldlRecOn (motive := fun s' : List TypeId × Context => s.2.Consults False s'.2) exprs _ (.refl _)
    fun s' hs' base _ => hs'.trans (consults_addBase module self name s' base)

/-- The bases that are added are new, and each was found for what is listed, neither sealed nor derived from the
type itself. -/
theorem exists_addBases (exprs : List TypeExpr) : ∃ added,
    (exprs.foldl (addBase module self name) s).1 = s.1 ++ added ∧ (s.1.Nodup → (s.1 ++ added).Nodup) ∧
    ∀ id ∈ added, ∃ e ∈ exprs, ∃ c, s.2.Consults False c ∧
      let r := resolveTypeExpr module c e
      r.1 = some id ∧ (r.2.types.get id).isSealed = false ∧ r.2.types.derivesFrom id self = false ∧
        r.2.types.Extends (exprs.foldl (addBase module self name) s).2.types := by
  induction exprs generalizing s with
  | nil => exact ⟨[], (append_nil _).symm, fun hs => by rwa [append_nil], forall_mem_nil _⟩
  | cons expr exprs ih =>
    rw [foldl_cons]
    obtain ⟨added, hall, hnodup, hadded⟩ := ih (addBase module self name s expr)
    have hfirst := consults_addBase module self name s expr
    have hlater : ∀ id ∈ added, ∃ e ∈ expr :: exprs, ∃ c, s.2.Consults False c ∧ _ := fun id hid =>
      have ⟨e, he, c, hc, hfound⟩ := hadded id hid
      ⟨e, mem_cons_of_mem _ he, c, hfirst.trans hc, hfound⟩
    rcases addBase_cases module self name s expr with ⟨hsame, -⟩ | ⟨id, hid, hnew, hfresh, hunsealed, hchain⟩
    · rw [hsame] at hall hnodup
      exact ⟨added, hall, hnodup, hlater⟩
    · have hextends := (consults_addBases module self name (addBase module self name s expr) exprs).extends
      rw [types_addBase] at hextends
      rw [congrArg Prod.fst hnew, append_assoc] at hall hnodup
      refine ⟨id :: added, hall, fun hs => hnodup ?_, forall_mem_cons.mpr ⟨?_, hlater⟩⟩
      · exact Nodup.append hs (nodup_singleton id) (disjoint_singleton.mpr hfresh)
      · exact ⟨expr, mem_cons_self, s.2, .refl _, hid, hunsealed, hchain, hextends⟩

/-- The bases that a type has before those that its declaration lists. -/
def initialBases (c : Context) (d : TypeDecl) : List TypeId :=
  if d.kind = .structType then (c.types.system? "ValueType").toList else []

theorem exists_bases_eq (self : TypeId) (c : Context) (d : TypeDecl) :
    let s := d.bases.foldl (addBase module self d.name) (initialBases c d, c)
    ∃ front : Option TypeId, bases module self c d = (front.toList ++ s.1, s.2) ∧
      ∀ b ∈ front, s.2.types.system? "Object" = some b ∧ ∀ b' ∈ s.1, (s.2.types.get b').isInterface = true := by
  unfold bases
  dsimp only
  rw [← initialBases]
  split
  next hclass => exact ⟨_, rfl, fun b hb => ⟨hb, all_eq_true.mp hclass.2⟩⟩
  next => exact ⟨none, rfl, nofun⟩

theorem consults_bases (c : Context) (d : TypeDecl) : c.Consults False (bases module self c d).2 := by
  obtain ⟨front, heq, -⟩ := exists_bases_eq module self c d
  rw [heq]
  exact consults_addBases module self d.name (initialBases c d, c) d.bases

end Lowering

end TreeCompiler
