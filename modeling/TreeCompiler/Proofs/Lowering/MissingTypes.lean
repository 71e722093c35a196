import TreeCompiler.Proofs.Lowering.Interning

/-!
# Types that cannot be found

A type expression is read from its parts: the types of the parameters, that of the result, and then the delegate that
the function type itself stands for. Each of them is looked up once, in the state that the parts before it have left,
and is reported if it cannot be found.

* `Context.missing` : what there is to report about a type expression.
-/

namespace TreeCompiler

open List TypeTable Option
open Context (delegateName delegateInstance resolveTypeExpr resolveParams resolveResult)

namespace Context

/-! ## What is missing -/

/-- A function type says that nothing is returned: it has no result, or one that stands for `System.Void`, as `none`
does where the program has no type of that name. -/
def ReturnsNothing (module : QualifiedName) (c : Context) : Option TypeExpr → Prop
  | none => True
  | some (.named name _) => c.types.resolveIn? module name = c.types.primitive? .void
  | some (.function _ _ _) => False

instance (module : QualifiedName) (c : Context) (result : Option TypeExpr) :
    Decidable (c.ReturnsNothing module result) :=
  match result with
  | none => .isTrue trivial
  | some (.named _ _) => inferInstanceAs (Decidable (_ = _))
  | some (.function _ _ _) => .isFalse id

/-- The name of the delegate that a function type stands for. -/
def delegateSought (module : QualifiedName) (c : Context) (params : List TypeExpr) (result : Option TypeExpr) :
    QualifiedName :=
  if c.ReturnsNothing module result then delegateName "Action" params.length
  else delegateName "Func" (params.length + 1)

mutual

/-- The reports about a type expression: one for each name that means nothing in the module when it is its turn, and one
for each function type for which there is no delegate once its parts are known. -/
def missing (module : QualifiedName) : Context → TypeExpr → List Diagnostic
  | c, .named name span => if c.types.resolveIn? module name = none then [unresolvedType name span] else []
  | c, .function params result span =>
    let before := (resolveParams module c params).2
    let last := (resolveResult module before result).2
    missingParams module c params ++ missingResult module before result ++
      if last.types.lookup (last.delegateSought module params result) = none then
        [unresolvedType (last.delegateSought module params result) span]
      else []

def missingParams (module : QualifiedName) : Context → List TypeExpr → List Diagnostic
  | _, [] => []
  | c, type :: types => missing module c type ++ missingParams module (resolveTypeExpr module c type).2 types

def missingResult (module : QualifiedName) : Context → Option TypeExpr → List Diagnostic
  | _, none => []
  | c, some type => missing module c type

end

variable {module : QualifiedName} {c c' : Context}

/-! ## Names -/

theorem fst_resolveType (c : Context) (module name : QualifiedName) (span : Span) :
    (c.resolveType module name span).1 = c.types.resolveIn? module name := by
  unfold resolveType
  cases c.types.resolveIn? module name <;> rfl

theorem diagnostics_resolveType (c : Context) (module name : QualifiedName) (span : Span) :
    (c.resolveType module name span).2.diagnostics = c.diagnostics ++
      if c.types.resolveIn? module name = none then [unresolvedType name span] else [] := by
  unfold resolveType
  cases c.types.resolveIn? module name <;> simp [push]

/-! ## Function types -/

theorem isSome_allSome_iff {α : Type} {os : List (Option α)} :
    (allSome os).isSome = true ↔ ∀ o ∈ os, o.isSome = true := by
  refine ⟨fun h o ho => ?_, isSome_allSome⟩
  obtain ⟨as, has⟩ := isSome_iff_exists.mp h
  rw [allSome_eq_some_iff.mp has] at ho
  obtain ⟨a, -, rfl⟩ := mem_map.mp ho
  rfl

/-- The delegate is found if its definition is there and all arguments are known; only a definition that is not there
is reported. -/
theorem delegateFor_cases (c : Context) (family : String) (args : List (Option TypeId)) (span : Span) :
    ((c.delegateFor family args span).1.isSome = true ↔
      c.types.lookup (delegateName family args.length) ≠ none ∧ ∀ a ∈ args, a.isSome = true) ∧
    (c.delegateFor family args span).2.diagnostics = c.diagnostics ++
      if c.types.lookup (delegateName family args.length) = none then
        [unresolvedType (delegateName family args.length) span] else [] := by
  have hreports := c.diagnostics_resolveType .global (delegateName family args.length) span
  have hfound := c.fst_resolveType .global (delegateName family args.length) span
  rw [resolveIn?_delegateName] at hreports hfound
  rw [← isSome_allSome_iff, ← hreports, ← hfound]
  unfold delegateFor
  generalize c.resolveType .global (delegateName family args.length) span = r
  obtain ⟨_ | definition, c'⟩ := r
  · simp
  · cases allSome args <;> simp [instantiate, withTypes]

theorem delegateInstance_ne_void (family : String) (args : List QualifiedName) :
    delegateInstance family args ≠ systemName Primitive.void.systemName := by
  intro h
  have hbracket : '<' ∈ (delegateInstance family args).last.toList := by
    rw [QualifiedName.toList_last_delegateInstance]
    simp
  rw [h] at hbracket
  exact absurd hbracket (by decide)

theorem isSome_void (h : c.Instantiates c') (hvoid : (c.types.primitive? .void).isSome = true) :
    (c'.types.primitive? .void).isSome = true := by
  obtain ⟨void, hlookup⟩ := isSome_iff_exists.mp hvoid
  exact isSome_iff_exists.mpr ⟨void, h.types.keeps.lookup hlookup⟩

/-- No function type stands for `System.Void`. -/
theorem resolveTypeExpr_function_ne_void (module : QualifiedName) (c : Context) (params : List TypeExpr)
    (result : Option TypeExpr) (span : Span) (hvoid : (c.types.primitive? .void).isSome = true) :
    (resolveTypeExpr module c (.function params result span)).1 ≠
      (resolveTypeExpr module c (.function params result span)).2.types.primitive? .void := by
  intro h
  have hlook := (resolves_resolveTypeExpr module c (.function params result span)).instantiates
  obtain ⟨void, hlookup⟩ := isSome_iff_exists.mp (isSome_void hlook hvoid)
  obtain ⟨args, -, hdelegate⟩ := delegates_resolveTypeExpr (h.trans hlookup)
  refine delegateInstance_ne_void _ _ ((lookup_spec hdelegate.found).2.symm.trans ?_)
  exact (lookup_spec hlookup).2

theorem length_resolveParams (module : QualifiedName) (c : Context) (types : List TypeExpr) :
    (resolveParams module c types).1.length = types.length := by
  induction types generalizing c with
  | nil =>
    rw [resolveParams]
    rfl
  | cons type types ih =>
    rw [resolveParams, length_cons, length_cons]
    exact congrArg (· + 1) (ih _)

/-- A result is left out of the arguments of a delegate just if nothing is returned. -/
theorem resolveResult_eq_void_iff (module : QualifiedName) (c : Context) (type : TypeExpr)
    (hvoid : (c.types.primitive? .void).isSome = true) :
    (resolveTypeExpr module c type).1 = (resolveTypeExpr module c type).2.types.primitive? .void ↔
      (resolveTypeExpr module c type).2.ReturnsNothing module (some type) := by
  cases type with
  | named name span =>
    rw [resolveTypeExpr, fst_resolveType, ReturnsNothing, types_resolveType]
  | function params result span =>
    exact iff_of_false (resolveTypeExpr_function_ne_void module c params result span hvoid) id

/-- Family and number of arguments of the delegate that is looked up are those of the delegate that is sought. -/
theorem delegateName_signature (module : QualifiedName) (c : Context) (params : List TypeExpr)
    (result : Option TypeExpr) (hvoid : (c.types.primitive? .void).isSome = true) :
    delegateName (signature module c params result).1 (signature module c params result).2.length =
      (resolveResult module (resolveParams module c params).2 result).2.delegateSought module params result := by
  have hlength := length_resolveParams module c params
  have hvoid' := isSome_void (instantiates_resolveParams module c params).1 hvoid
  unfold signature delegateSought
  dsimp only
  generalize resolveParams module c params = r at hlength hvoid' ⊢
  obtain ⟨ids, c'⟩ := r
  dsimp only at hlength hvoid' ⊢
  cases result with
  | none =>
    rw [resolveResult, delegateOf, if_pos (show ReturnsNothing module c' none from trivial), hlength]
  | some type =>
    rw [resolveResult, delegateOf]
    dsimp only
    simp only [resolveResult_eq_void_iff module c' type hvoid']
    split
    · rw [hlength]
    · rw [length_append, length_singleton, hlength]

/-! ## Type expressions -/

mutual

/-- A type expression stands for a type unless something is missing in it, and just this is reported. -/
theorem reports_resolveTypeExpr (module : QualifiedName) (c : Context) (type : TypeExpr)
    (hvoid : (c.types.primitive? .void).isSome = true) :
    (resolveTypeExpr module c type).2.diagnostics = c.diagnostics ++ missing module c type ∧
      ((resolveTypeExpr module c type).1.isSome = true ↔ missing module c type = []) := by
  cases type with
  | named name span =>
    rw [resolveTypeExpr, missing, diagnostics_resolveType, fst_resolveType]
    cases c.types.resolveIn? module name <;> simp
  | function params result span =>
    have hvoid' := isSome_void (instantiates_resolveParams module c params).1 hvoid
    obtain ⟨hparams, hallParams⟩ := reports_resolveParams module c params hvoid
    obtain ⟨hresult, hallResult⟩ := reports_resolveResult module (resolveParams module c params).2 result hvoid'
    have hargs : (∀ a ∈ (signature module c params result).2, a.isSome = true) ↔ _ :=
      forall_delegateOf_iff (isSome_void (instantiates_resolveResult module _ result).1 hvoid')
    obtain ⟨hfound, hreports⟩ := delegateFor_cases
      (resolveResult module (resolveParams module c params).2 result).2 (signature module c params result).1
      (signature module c params result).2 span
    rw [delegateName_signature module c params result hvoid] at hfound hreports
    rw [resolveTypeExpr_function, missing]
    refine ⟨?_, ?_⟩
    · rw [hreports, hresult, hparams, append_assoc, append_assoc, append_assoc]
    · rw [hfound, hargs, hallParams, hallResult, append_eq_nil_iff, append_eq_nil_iff, and_comm]
      simp

theorem reports_resolveParams (module : QualifiedName) (c : Context) (types : List TypeExpr)
    (hvoid : (c.types.primitive? .void).isSome = true) :
    (resolveParams module c types).2.diagnostics = c.diagnostics ++ missingParams module c types ∧
      ((∀ p ∈ (resolveParams module c types).1, p.isSome = true) ↔ missingParams module c types = []) := by
  cases types with
  | nil => simp [resolveParams, missingParams]
  | cons type types =>
    obtain ⟨hfirst, hknown⟩ := reports_resolveTypeExpr module c type hvoid
    obtain ⟨hrest, hall⟩ := reports_resolveParams module (resolveTypeExpr module c type).2 types
      (isSome_void (resolves_resolveTypeExpr module c type).instantiates hvoid)
    rw [resolveParams, missingParams, append_eq_nil_iff, ← hknown, ← hall]
    exact ⟨by rw [hrest, hfirst, append_assoc], forall_mem_cons⟩

theorem reports_resolveResult (module : QualifiedName) (c : Context) (type : Option TypeExpr)
    (hvoid : (c.types.primitive? .void).isSome = true) :
    (resolveResult module c type).2.diagnostics = c.diagnostics ++ missingResult module c type ∧
      ((∀ r, (resolveResult module c type).1 = some r → r.isSome = true) ↔ missingResult module c type = []) := by
  cases type with
  | none => simp [resolveResult, missingResult]
  | some type =>
    obtain ⟨htype, hknown⟩ := reports_resolveTypeExpr module c type hvoid
    rw [resolveResult, missingResult, ← hknown]
    exact ⟨htype, by simp⟩

end

/-- `none` is a way to write `System.Void`. -/
theorem returnsNothing_none (span : Span) (hname : c.types.lookup ⟨["none"]⟩ = none)
    (hinside : c.types.lookup (QualifiedName.qualify ⟨["none"]⟩ module) = none) :
    c.ReturnsNothing module (some (.named ⟨["none"]⟩ span)) := by
  rw [ReturnsNothing, resolveIn?, hname, hinside, none_or, none_or]
  rfl

end Context

/-! ## Programs -/

namespace Compilation

/-- Whatever cannot be found is reported, once, and nothing else is. In any state that the steps of lowering lead to,
those of declarations and of bodies among them, a type expression stands for a type just if looking it up reports
nothing. What is reported are the names in it that mean nothing when it is their turn and the function types without a
delegate, one report for each. -/
theorem missing_types_reported (trees : List Tree) (options : Options) :
    (∀ c, Visits trees options c → Run options (start trees options).context c) ∧
    (∀ e s, Reached trees options e s → Run options (start trees options).context s.context) ∧
    ∀ c, Run options (start trees options).context c → ∀ module type,
      Run options (start trees options).context (resolveTypeExpr module c type).2 ∧
      ((resolveTypeExpr module c type).1.isSome = true ↔
        (resolveTypeExpr module c type).2.diagnostics = c.diagnostics) ∧
      (resolveTypeExpr module c type).2.diagnostics = c.diagnostics ++ Context.missing module c type ∧
      ∀ span, c.types.lookup ⟨["none"]⟩ = none → c.types.lookup (QualifiedName.qualify ⟨["none"]⟩ module) = none →
        c.ReturnsNothing module (some (.named ⟨["none"]⟩ span)) := by
  refine ⟨fun c h => (run_of_visits trees options h).1, fun e s h => h.run, fun c h module type => ?_⟩
  have hlook := (Context.resolves_resolveTypeExpr module c type).instantiates
  obtain ⟨hreports, hknown⟩ := Context.reports_resolveTypeExpr module c type
    ((sound_of_run trees options h).grounded.primitives .void)
  refine ⟨h.trans (hlook.steps fun _ _ => trivial), ?_, hreports, fun span => Context.returnsNothing_none span⟩
  rw [hknown, hreports, append_right_eq_self]

/-- A function that takes another with too many parameters, and something that there is not. -/
def brokenHandler : TypeExpr :=
  .function [.function (List.replicate 17 (.named ⟨["i32"]⟩ {})) none {}, .named ⟨["Missing"]⟩ {}]
    (some (.named ⟨["Node"]⟩ {})) {}

theorem missing_types_reported_brokenHandler :
    (resolveTypeExpr ⟨["Demo"]⟩ (start [handlerTree] {}).context brokenHandler).2.diagnostics =
      [Context.unresolvedType (delegateName "Action" 17) {}, Context.unresolvedType ⟨["Missing"]⟩ {},
        Context.unresolvedType ⟨["Node"]⟩ {}] := by
  obtain ⟨-, -, hreported⟩ := missing_types_reported [handlerTree] {}
  rw [(hreported _ .refl ⟨["Demo"]⟩ brokenHandler).2.2.1]
  decide +kernel

end Compilation

end TreeCompiler
