import TreeCompiler.Lowering.Body
import TreeCompiler.Proofs.Lowering.Lookups
import TreeCompiler.Proofs.Lowering.Steps

/-!
# What lowering does to a body

A body grows in a few ways: a value is computed, something is reported, a type is looked up, a method is called,
a variable is declared, and at last the body ends. What each of these keeps, lowering keeps.

* `Scope.Compute e s s'` : one value or one report (`BodyState.Adds` : what stays as it is);
* `Scope.evaluates_lowerExpr`, `Scope.evaluatesAll_lowerArgs`, `Scope.moves_lowerCall`, `Scope.lowers_lowerStmt` :
  one lemma for each function.
-/

namespace TreeCompiler

open List FlowGraph Option
open Relation (ReflTransGen)

/-! ## Variables -/

namespace FlowGraph
variable {g g' : FlowGraph}

def blockParams (g : FlowGraph) : List (List BlockParam) :=
  g.blocks.map Block.params

theorem params_block (g : FlowGraph) (b : BlockId) : (g.block b).params = g.blockParams.getD b.index [] := by
  rw [block, blockParams, getD_eq_getElem?_getD, getD_eq_getElem?_getD, getElem?_map]
  cases g.blocks[b.index]? <;> rfl

theorem blockParams_modifyBlock (g : FlowGraph) (b : BlockId) {f : Block → Block}
    (hf : ∀ block, (f block).params = block.params) : (g.modifyBlock b f).blockParams = g.blockParams :=
  map_modify_eq hf g.blocks b.index

@[simp] theorem blockParams_append (g : FlowGraph) (b : BlockId) (i : Instruction) :
    (g.append b i).2.blockParams = g.blockParams :=
  blockParams_modifyBlock _ b fun _ => rfl

@[simp] theorem blockParams_setFlow (g : FlowGraph) (b : BlockId) (flow : Flow) :
    (g.setFlow b flow).blockParams = g.blockParams :=
  blockParams_modifyBlock _ b fun _ => rfl

theorem prefix_params_of_eq (h : g'.blockParams = g.blockParams) (b : BlockId) :
    (g.block b).params <+: (g'.block b).params := by
  rw [g.params_block, g'.params_block, h]

theorem prefix_params_addParam (g : FlowGraph) (b b' : BlockId) (name : String) (type : Option TypeId) :
    (g.block b').params <+: ((g.addParam b name type).2.block b').params := by
  unfold addParam modifyBlock block
  rw [getD_eq_getElem?_getD, getD_eq_getElem?_getD, getElem?_modify]
  cases g.blocks[b'.index]? with
  | none => exact prefix_rfl
  | some block =>
    rw [Option.map_eq_map, Option.map_some, Option.getD_some, Option.getD_some]
    split
    · exact prefix_append _ _
    · exact prefix_rfl

end FlowGraph

/-! ## Growth -/

namespace BodyState
variable {s s' s'' : BodyState}

/-- One more variable, and the instruction that fills it. -/
def declare (s : BodyState) (name : String) (type : Option TypeId) (init : Option InstrId) : BodyState :=
  ({ s with graph := (s.graph.addParam .entry name type).2 }.append
    (.alloca (s.graph.addParam .entry name type).1 type init)).2

def raise (s : BodyState) (ctor : MethodRef) (message : InstrId) : BodyState :=
  (s.append (.newObject ctor [message])).2.setFlow .unreachable

theorem report_ne_nil (s : BodyState) (code : ErrorCode) (span : Span) (message label : String) :
    (s.report code span message label).context.diagnostics ≠ [] :=
  s.context.push_ne_nil _

theorem defines_append (s : BodyState) {i : Instruction} (h : i.isValue = true) :
    FlowGraph.Defines (s.append i).2.graph.instructions (s.append i).1 :=
  defines_concat s.graph.instructions h

/-- What the body had in `s` it still has in `s'`. -/
structure Continues (s s' : BodyState) : Prop where
  context : s.context.Consults False s'.context
  instructions : s.graph.instructions <+: s'.graph.instructions
  params : ∀ b, (s.graph.block b).params <+: (s'.graph.block b).params

namespace Continues

theorem refl (s : BodyState) : s.Continues s :=
  ⟨.refl _, prefix_rfl, fun _ => prefix_rfl⟩

theorem trans (h : s.Continues s') (h' : s'.Continues s'') : s.Continues s'' where
  context := h.context.trans h'.context
  instructions := h.instructions.trans h'.instructions
  params b := (h.params b).trans (h'.params b)

theorem types (h : s.Continues s') : s.types.Extends s'.types :=
  h.context.extends

theorem append (s : BodyState) (i : Instruction) : s.Continues (s.append i).2 :=
  ⟨.refl _, prefix_append _ _, prefix_params_of_eq (blockParams_append _ _ _)⟩

theorem setFlow (s : BodyState) (flow : Flow) : s.Continues (s.setFlow flow) :=
  ⟨.refl _, prefix_rfl, prefix_params_of_eq (blockParams_setFlow _ _ _)⟩

theorem declare (s : BodyState) (name : String) (type : Option TypeId) (init : Option InstrId) :
    s.Continues (s.declare name type init) := by
  have hparam : s.Continues { s with graph := (s.graph.addParam .entry name type).2 } :=
    ⟨.refl _, prefix_rfl, fun b => s.graph.prefix_params_addParam .entry b name type⟩
  exact hparam.trans (append _ _)

end Continues

/-- From `s` to `s'` values and diagnostics have come in, and nothing else has changed. -/
structure Adds (s s' : BodyState) : Prop where
  context : s.context.Consults False s'.context
  types : s'.types = s.types
  instructions : s.graph.instructions <+: s'.graph.instructions
  params : s'.graph.blockParams = s.graph.blockParams

theorem Adds.continues (h : s.Adds s') : s.Continues s' :=
  ⟨h.context, h.instructions, prefix_params_of_eq h.params⟩

end BodyState

/-! ## Types that a body names -/

/-- The types of the object itself, of the parameters and of the variables. -/
def Scope.visible (e : Scope) (s : BodyState) : List (Option TypeId) :=
  some e.method.type ::
    (e.params.map Parameter.type ++ (s.graph.block .entry).params.map BlockParam.type)

/-- All types that lowering the body may come upon are of the table. -/
structure BodyState.Located (e : Scope) (s : BodyState) : Prop where
  visible : ∀ type ∈ e.visible s, s.types.Covers type
  result : s.types.Covers e.returnType
  signatures : ∀ id, ∀ m ∈ (s.types.get id).methods, ∀ type ∈ m.signature, s.types.Covers type

/-- Nothing has been reported, and the types of all names are known. -/
structure BodyState.Informed (e : Scope) (s : BodyState) : Prop where
  silent : s.context.diagnostics = []
  grounded : s.types.Grounded
  visible : ∀ type ∈ e.visible s, type.isSome = true

namespace TypeTable

theorem Covers.or {t : TypeTable} {a b : Option TypeId} (ha : t.Covers a) (hb : t.Covers b) : t.Covers (a.or b) := by
  intro id hid
  rcases or_eq_some_iff.mp hid with h | ⟨-, h⟩
  · exact ha id h
  · exact hb id h

theorem covers_resolve? (t : TypeTable) (name : QualifiedName) : t.Covers (t.resolve? name) := by
  refine (t.covers_lookup name).or ?_
  unfold resolvePlatform?
  split
  · exact t.covers_lookup _
  · exact t.covers_none

end TypeTable

namespace Scope
variable {P : QualifiedName → Method → Prop}
  {e : Scope} {s s' : BodyState} {expected : Option TypeId} {args : List (Expr × Option TypeId)} {name : String}
  {m : Meaning} {i : Instruction} {expr : Expr} (l : Literal)

/-- The type is of the table, and known, as far as the types are that the body names. -/
structure Provides (e : Scope) (s : BodyState) (type : Option TypeId) : Prop where
  covers : s.Located e → s.types.Covers type
  known : s.Informed e → type.isSome = true

theorem visible_of_adds (h : s.Adds s') : e.visible s' = e.visible s := by
  rw [visible, visible, params_block, params_block, h.params]

theorem located_of_adds (h : s.Adds s') (hs' : s'.Located e) : s.Located e := by
  obtain ⟨hvisible, hresult, hsignatures⟩ := hs'
  rw [visible_of_adds h, h.types] at hvisible
  rw [h.types] at hresult hsignatures
  exact ⟨hvisible, hresult, hsignatures⟩

theorem informed_of_adds (h : s.Adds s') (hs' : s'.Informed e) : s.Informed e where
  silent := h.context.silent hs'.silent
  grounded := h.types ▸ hs'.grounded
  visible := visible_of_adds h ▸ hs'.visible

theorem Provides.of_adds {type : Option TypeId} (hadds : s.Adds s') (h : e.Provides s type) : e.Provides s' type where
  covers hs' := by
    rw [hadds.types]
    exact h.covers (located_of_adds hadds hs')
  known hs' := h.known (informed_of_adds hadds hs')

/-- An instruction that gives a value may stand where the body has got to. -/
def Admits (e : Scope) (s : BodyState) : Instruction → Prop
  | .constant _ type | .load type _ | .binary _ type _ _ => e.Provides s type
  | .loadArg (.param i) => i < e.params.length
  | .loadArg .this => e.isStatic = false
  | .loadLocal b => b ∈ (range (s.graph.block .entry).params.length).map (BindingId.mk .entry)
  | _ => False

theorem Admits.isValue (h : e.Admits s i) : i.isValue = true := by
  cases i <;> first | rfl | exact h.elim

/-- The instruction that reads what a name means. -/
def Meaning.load : Meaning → Instruction
  | .param i => .loadArg (.param i)
  | .binding b => .loadLocal b
  | .this => .loadArg .this

theorem lowerIdent_of_meaning (h : e.meaning? s.graph name = some m) (span : Span) :
    e.lowerIdent s name span = (some (s.append m.load).1, (s.append m.load).2) := by
  rw [lowerIdent, h]
  cases m <;> rfl

theorem admits_load (h : e.meaning? s.graph name = some m) : e.Admits s m.load := by
  unfold meaning? at h
  split at h
  next i hparam =>
    cases h
    exact (findIdx?_eq_some_iff_getElem.mp hparam).1
  next =>
    split at h
    next b hlocal =>
      cases h
      exact mem_range_of_findParam? hlocal
    next =>
      split at h <;> cases h
      next hthis => exact (Bool.not_eq_true' _).mp hthis.2

theorem infer_ident_mem_visible (h : e.meaning? s.graph name = some m) (span : Span) :
    e.infer s (.ident name span) ∈ e.visible s := by
  have hadmits := admits_load h
  rw [infer, h]
  cases m with
  | param i =>
    have hlt : i < e.params.length := hadmits
    dsimp only
    rw [getElem?_eq_getElem hlt]
    exact mem_cons_of_mem _ (mem_append_left _ (mem_map_of_mem (getElem_mem hlt)))
  | binding b =>
    obtain ⟨index, hindex, rfl⟩ := mem_map.mp hadmits
    have hlt := mem_range.mp hindex
    dsimp only
    rw [param, getD_eq_getElem?_getD, getElem?_eq_getElem hlt]
    exact mem_cons_of_mem _ (mem_append_right _ (mem_map_of_mem (getElem_mem hlt)))
  | this => exact mem_cons_self

theorem covers_infer (h : s.Located e) (expr : Expr) : s.types.Covers (e.infer s expr) := by
  induction expr with
  | literal value span => exact s.types.covers_resolve? _
  | ident name span =>
    cases hmeaning : e.meaning? s.graph name with
    | some meaning => exact h.visible _ (infer_ident_mem_visible hmeaning span)
    | none =>
      rw [infer, hmeaning]
      exact s.types.covers_none
  | binary op lhs rhs span ihl ihr =>
    unfold infer
    split
    · exact s.types.covers_primitive? .bool
    · exact ihl.or ihr
  | error span => exact s.types.covers_none

theorem isSome_literalType? {c : Context} (h : c.types.Grounded) (l : Literal) :
    (c.literalType? l).isSome = true := by
  have halias : ∀ (name : String) (p : Primitive), Primitive.aliasTarget? name = some p.systemName →
      (c.types.resolve? ⟨[name]⟩).isSome = true := by
    intro name p hp
    rw [TypeTable.resolve?, TypeTable.resolvePlatform?, isSome_or]
    simp only [hp, getD_some]
    exact Bool.or_eq_true_iff.mpr (Or.inr (h.primitives p))
  cases l with
  | bool _ => exact halias _ .bool rfl
  | char _ => exact halias _ .char rfl
  | string _ => exact halias _ .string rfl
  | int i =>
    have hkind : ∀ k : IntKind, Primitive.aliasTarget? k.suffix = some (Primitive.int k).systemName := by
      intro k
      cases k <;> rfl
    exact halias _ (.int i.kind) (hkind i.kind)
  | f16 _ => exact halias _ .f16 rfl
  | f32 _ => exact halias _ .f32 rfl
  | f64 _ => exact halias _ .f64 rfl
  | null => exact halias _ .object rfl

theorem provides_literalConstant (hexpected : s.Located e → s.types.Covers expected) :
    e.Provides s (literalConstant s l expected).2 := by
  have hown : e.Provides s (s.context.literalType? l) :=
    ⟨fun _ => s.types.covers_resolve? _, fun hs => isSome_literalType? hs.grounded l⟩
  unfold literalConstant
  dsimp only
  split
  next target htarget =>
    split
    · obtain ⟨id, hid, -⟩ := bind_eq_some_iff.mp htarget
      exact ⟨hexpected, fun _ => isSome_iff_exists.mpr ⟨id, hid⟩⟩
    · exact hown
  next => exact hown

theorem covers_operandTypes (h : s.Located e) (op : Operator) (lhs rhs : Expr) (hexpected : s.types.Covers expected) :
    s.types.Covers (e.operandTypes s op lhs rhs expected).1 ∧
      s.types.Covers (e.operandTypes s op lhs rhs expected).2 := by
  have hown := (covers_infer h lhs).or (covers_infer h rhs)
  unfold operandTypes
  dsimp only
  split
  · exact ⟨hown, s.types.covers_primitive? .bool⟩
  · exact ⟨hexpected.or hown, hexpected.or hown⟩

theorem isSome_operator (hs : s.types.Grounded) (op : Operator) {lhs rhs : Expr}
    (hlhs : (e.infer s lhs).isSome = true) (span : Span) (expected : Option TypeId) :
    (e.infer s (.binary op lhs rhs span)).isSome = true ∧
      (e.operandTypes s op lhs rhs expected).2.isSome = true := by
  unfold infer operandTypes
  dsimp only
  split
  · exact ⟨hs.primitives .bool, hs.primitives .bool⟩
  · simp [hlhs]

/-! ## Steps -/

/-- One step of lowering an expression: a report, or a value after its operands. -/
inductive Compute (e : Scope) : BodyState → BodyState → Prop where
  | report (s : BodyState) {code : ErrorCode} (span : Span) (message label : String) :
      code ≠ .duplicateDeclaration → Compute e s (s.report code span message label)
  | value (s : BodyState) {i : Instruction} : e.Admits s i →
      (∀ a ∈ i.operands, FlowGraph.Defines s.graph.instructions a) → Compute e s (s.append i).2

abbrev Computes (e : Scope) : BodyState → BodyState → Prop :=
  ReflTransGen e.Compute

theorem Compute.adds (h : e.Compute s s') : s.Adds s' := by
  cases h with
  | report span message label hcode => exact ⟨.report _ ⟨hcode, nofun⟩ _ _ _, rfl, prefix_rfl, rfl⟩
  | value hi => exact ⟨.refl _, rfl, prefix_append _ _, blockParams_append _ _ _⟩

theorem Computes.adds (h : e.Computes s s') : s.Adds s' := by
  induction h with
  | refl => exact ⟨.refl _, rfl, prefix_rfl, rfl⟩
  | tail _ hlast ih =>
    have hadds := hlast.adds
    exact ⟨ih.context.trans hadds.context, hadds.types.trans ih.types, ih.instructions.trans hadds.instructions,
      hadds.params.trans ih.params⟩

/-- One step of lowering a body. Methods are called that `P` allows, each given with the name of its type. -/
inductive Move (e : Scope) (P : QualifiedName → Method → Prop) : BodyState → BodyState → Prop where
  | compute {s s' : BodyState} : e.Compute s s' → Move e P s s'
  | look (s : BodyState) {c : Context} : s.context.Consults False c → Move e P s (s.withContext c)
  | call (s : BodyState) {method : MethodRef} {callee : Method} {values : List InstrId} :
      s.types.methodEntry method = .ok callee → values.length = callee.params.length →
      (∀ v ∈ values, FlowGraph.Defines s.graph.instructions v) →
      P (s.types.get method.type).name callee →
      Move e P s (s.append (.call method values)).2
  | declare (s : BodyState) (name : String) {type : Option TypeId} {init : Option InstrId} :
      e.Provides s type → (∀ v, init = some v → FlowGraph.Defines s.graph.instructions v) →
      Move e P s (s.declare name type init)
  | close (s : BodyState) {flow : Flow} : (∀ target, flow ≠ .jump target) →
      (∀ v, flow = .ret (some v) → FlowGraph.Defines s.graph.instructions v) → Move e P s (s.setFlow flow)

abbrev Moves (e : Scope) (P : QualifiedName → Method → Prop) : BodyState → BodyState → Prop :=
  ReflTransGen (e.Move P)

theorem Computes.moves (h : e.Computes s s') : e.Moves P s s' :=
  h.lift id fun _ _ => .compute

/-- A statement takes some steps, and then it may throw a text. -/
inductive Lowers (e : Scope) (P : QualifiedName → Method → Prop) (s : BodyState) : BodyState → Prop where
  | moves {s' : BodyState} : e.Moves P s s' → Lowers e P s s'
  | raise {s' : BodyState} {ctor : MethodRef} {message : InstrId} : e.Moves P s s' →
      exceptionCtor? s'.types = some ctor → FlowGraph.Defines s'.graph.instructions message →
      Lowers e P s (s'.raise ctor message)

/-! ## Expressions -/

/-- Lowering the expression in the state `s` gives `r`: a new value, or a report, and the type of the expression
is known. -/
structure Evaluates (e : Scope) (s : BodyState) (expr : Expr) (r : Option InstrId × BodyState) : Prop where
  computes : e.Computes s r.2
  defined : ∀ id, r.1 = some id → FlowGraph.Defines r.2.graph.instructions id
  fresh : ∀ id, r.1 = some id → s.graph.instructions.length ≤ id.index
  found : r.2.context.diagnostics = [] → r.1.isSome = true
  inferred : r.2.Informed e → (e.infer s expr).isSome = true

theorem evaluates_append (h : e.Computes s s') (hi : e.Admits s' i)
    (hoperands : ∀ a ∈ i.operands, FlowGraph.Defines s'.graph.instructions a)
    (hinferred : s'.Informed e → (e.infer s expr).isSome = true) :
    e.Evaluates s expr (some (s'.append i).1, (s'.append i).2) where
  computes := h.tail (.value s' hi hoperands)
  defined id hid := by
    cases hid
    exact s'.defines_append hi.isValue
  fresh id hid := by
    cases hid
    exact h.adds.instructions.length_le
  found _ := rfl
  inferred hs := hinferred (informed_of_adds (Compute.value s' hi hoperands).adds hs)

theorem evaluates_none (h : e.Computes s s') (hreported : s'.context.diagnostics ≠ []) :
    e.Evaluates s expr (none, s') :=
  ⟨h, nofun, nofun, fun hsilent => absurd hsilent hreported, fun hs => absurd hs.silent hreported⟩

theorem evaluates_lowerLiteral (span : Span) (hexpected : s.Located e → s.types.Covers expected) :
    e.Evaluates s (.literal l span) (some (lowerLiteral s l expected).1, (lowerLiteral s l expected).2) := by
  have htype := provides_literalConstant l hexpected
  have hconstant : e.Compute s (s.append (.constant (literalConstant s l expected).1 _)).2 :=
    .value s htype (forall_mem_nil _)
  refine evaluates_append (.single hconstant) (i := .load _ _) (htype.of_adds hconstant.adds)
    (fun a ha => ?_) fun hs => ?_
  · rw [mem_singleton.mp ha]
    exact s.defines_append rfl
  · exact isSome_literalType? (informed_of_adds hconstant.adds hs).grounded l

theorem evaluates_lowerIdent (s : BodyState) (name : String) (span : Span) :
    e.Evaluates s (.ident name span) (e.lowerIdent s name span) := by
  cases hmeaning : e.meaning? s.graph name with
  | none =>
    rw [lowerIdent, hmeaning]
    exact evaluates_none (.single (.report s _ _ _ (by decide))) (s.report_ne_nil _ _ _ _)
  | some m =>
    have hnone : m.load.operands = [] := by
      cases m <;> rfl
    rw [lowerIdent_of_meaning hmeaning]
    exact evaluates_append .refl (admits_load hmeaning) (hnone ▸ forall_mem_nil _)
      fun hs => hs.visible _ (infer_ident_mem_visible hmeaning span)

/-- An expression whose expected type is of the table is computed. -/
theorem evaluates_lowerExpr (expr : Expr) (hexpected : s.Located e → s.types.Covers expected) :
    e.Evaluates s expr (e.lowerExpr s expr expected) := by
  induction expr generalizing s expected with
  | literal value span => exact evaluates_lowerLiteral value span hexpected
  | ident name span => exact evaluates_lowerIdent s name span
  | binary op lhs rhs span ihl ihr =>
    have htypes := fun hs => covers_operandTypes hs op lhs rhs (hexpected hs)
    have hleft := ihl fun hs => (htypes hs).1
    have hadds := hleft.computes.adds
    have hshared : _ → (e.lowerExpr s lhs (e.operandTypes s op lhs rhs expected).1).2.types.Covers
        (e.operandTypes s op lhs rhs expected).1 :=
      fun hs => hadds.types ▸ (htypes (located_of_adds hadds hs)).1
    have hright := ihr hshared
    have hboth : e.Computes s _ := hleft.computes.trans hright.computes
    have hknown : _ → (e.infer s (.binary op lhs rhs span)).isSome = true ∧ _ := fun hs =>
      isSome_operator (informed_of_adds hboth.adds hs).grounded op
        (hleft.inferred (informed_of_adds hright.computes.adds hs)) span expected
    unfold lowerExpr
    dsimp only
    split
    next left right hl hr =>
      refine evaluates_append hboth (i := .binary op _ left right) ⟨fun hs => ?_, fun hs => (hknown hs).2⟩
        (fun a ha => ?_) fun hs => (hknown hs).1
      · rw [hboth.adds.types]
        exact (htypes (located_of_adds hboth.adds hs)).2
      · rcases mem_pair.mp ha with rfl | rfl
        · exact (hleft.defined _ hl).mono hright.computes.adds.instructions
        · exact hright.defined _ hr
    next hmissing =>
      refine evaluates_none hboth fun hsilent => ?_
      obtain ⟨left, hl⟩ := isSome_iff_exists.mp (hleft.found (hright.computes.adds.context.silent hsilent))
      obtain ⟨right, hr⟩ := isSome_iff_exists.mp (hright.found hsilent)
      exact hmissing left right hl hr
  | error span => exact evaluates_none (.single (.report s _ _ _ (by decide))) (s.report_ne_nil _ _ _ _)

theorem computes_lowerOptional (value : Option Expr) (hexpected : s.Located e → s.types.Covers expected) :
    e.Computes s (e.lowerOptional s value expected).2 ∧
      ∀ id, (e.lowerOptional s value expected).1 = some id →
        FlowGraph.Defines (e.lowerOptional s value expected).2.graph.instructions id := by
  cases value with
  | none => exact ⟨.refl, nofun⟩
  | some value =>
    have hvalue := evaluates_lowerExpr value hexpected
    exact ⟨hvalue.computes, hvalue.defined⟩

/-! ## Calls -/

/-- Lowering the arguments in the state `s` gives `r`: new values one after the other, or a report. -/
structure EvaluatesAll (e : Scope) (s : BodyState) (args : List (Expr × Option TypeId))
    (r : Option (List InstrId) × BodyState) : Prop where
  computes : e.Computes s r.2
  found : r.2.context.diagnostics = [] → r.1.isSome = true
  length : ∀ values, r.1 = some values → values.length = args.length
  ordered : ∀ values, r.1 = some values → values.Pairwise fun v w => v.index < w.index
  defined : ∀ values, r.1 = some values → ∀ v ∈ values, FlowGraph.Defines r.2.graph.instructions v
  fresh : ∀ values, r.1 = some values → ∀ v ∈ values, s.graph.instructions.length ≤ v.index

theorem evaluatesAll_none (h : e.Computes s s') (hreported : s'.context.diagnostics ≠ []) :
    e.EvaluatesAll s args (none, s') :=
  ⟨h, fun hsilent => absurd hsilent hreported, nofun, nofun, nofun, nofun⟩

theorem evaluatesAll_lowerArgs (hargs : s.Located e → ∀ a ∈ args, s.types.Covers a.2) :
    e.EvaluatesAll s args (e.lowerArgs s args) := by
  induction args generalizing s with
  | nil =>
    refine ⟨.refl, fun _ => rfl, ?_, ?_, ?_, ?_⟩
    all_goals
      rintro values hvalues
      cases hvalues
      simp
  | cons arg args ih =>
    have hfirst := evaluates_lowerExpr (e := e) arg.1 fun hs => hargs hs arg mem_cons_self
    unfold lowerArgs
    cases harg : e.lowerExpr s arg.1 arg.2 with
    | mk id s₁ =>
      rw [harg] at hfirst
      have hadds := hfirst.computes.adds
      cases id with
      | none =>
        refine evaluatesAll_none hfirst.computes fun hsilent => ?_
        cases hfirst.found hsilent
      | some id =>
        have hrest := ih (s := s₁) fun hs a ha =>
          hadds.types ▸ hargs (located_of_adds hadds hs) a (mem_cons_of_mem _ ha)
        obtain ⟨i, hi, -⟩ := hfirst.defined id rfl
        have hlt : id.index < s₁.graph.instructions.length := (List.getElem?_eq_some_iff.mp hi).1
        have hge := hfirst.fresh id rfl
        cases hargs' : e.lowerArgs s₁ args with
        | mk ids s₂ =>
          rw [hargs'] at hrest
          simp only [hargs']
          have hboth : e.Computes s s₂ := hfirst.computes.trans hrest.computes
          cases ids with
          | none =>
            refine evaluatesAll_none hboth fun hsilent => ?_
            cases hrest.found hsilent
          | some ids =>
            have hlater : ∀ v ∈ ids, s₁.graph.instructions.length ≤ v.index := hrest.fresh ids rfl
            refine ⟨hboth, fun _ => rfl, fun values hvalues => ?_, fun values hvalues => ?_,
              fun values hvalues => ?_, fun values hvalues => ?_⟩ <;> cases hvalues
            · rw [length_cons, length_cons, hrest.length ids rfl]
            · exact pairwise_cons.mpr ⟨fun v hv => hlt.trans_le (hlater v hv), hrest.ordered ids rfl⟩
            · exact forall_mem_cons.mpr
                ⟨(hfirst.defined id rfl).mono hrest.computes.adds.instructions, hrest.defined ids rfl⟩
            · exact forall_mem_cons.mpr ⟨hge, fun v hv => by have := hlater v hv; omega⟩

end Scope

namespace Scope
variable {t : TypeTable} {c : Candidate} {cs : List Candidate}

theorem methodEntry_of_mem_candidates {owner : TypeId} {name : String} {needsStatic : Bool}
    (h : c ∈ candidates t owner name needsStatic) :
    c.method.type = owner ∧ ∃ callee, t.methodEntry c.method = .ok callee ∧ callee.name = name ∧
      callee.signature = c.signature ∧ (needsStatic = true → callee.isStatic = true) := by
  obtain ⟨⟨i, callee⟩, hmem, rfl⟩ := mem_map.mp h
  obtain ⟨hnamed, hstatic⟩ := mem_filter.mp hmem
  obtain ⟨hzip, hname⟩ := mem_filter.mp hnamed
  obtain ⟨⟨callee', i'⟩, hzip, heq⟩ := mem_map.mp hzip
  cases heq
  refine ⟨rfl, callee, Defect.entry_eq_ok_iff.mpr (mem_zipIdx_iff_getElem?.mp hzip),
    beq_iff_eq.mp hname, rfl, fun hneeds => ?_⟩
  rwa [hneeds] at hstatic

theorem mem_of_choose? {object : Option TypeId} {args : List (Option TypeId)}
    (h : choose? object args cs = some c) : c ∈ cs := by
  rcases or_eq_some_iff.mp h with hexact | ⟨-, haccepts⟩
  · exact mem_of_find?_eq_some hexact
  · exact mem_of_find?_eq_some haccepts

theorem length_expectedTypes {n : Nat} (h : ∀ c ∈ cs, c.signature.length = n) : (expectedTypes cs n).length = n := by
  unfold expectedTypes
  split
  · exact h _ mem_cons_self
  · exact length_replicate

/-- The candidates with the right number of parameters. -/
def Call.fitting (call : Call) (t : TypeTable) : List Candidate :=
  (candidates t call.owner call.name call.needsStatic).filter (·.signature.length == call.args.length)

/-- The arguments with the types that are expected of them. -/
def Call.expected (call : Call) (t : TypeTable) : List (Expr × Option TypeId) :=
  call.args.zip (expectedTypes (call.fitting t) call.args.length)

theorem Call.length_expected (call : Call) (t : TypeTable) : (call.expected t).length = call.args.length := by
  have hfits : ∀ c ∈ call.fitting t, c.signature.length = call.args.length :=
    fun c hc => beq_iff_eq.mp (mem_filter.mp hc).2
  rw [expected, length_zip, length_expectedTypes hfits, Nat.min_self]

variable {P : QualifiedName → Method → Prop}
  {e : Scope} {s s' : BodyState}

theorem covers_argument (h : s.Located e) (call : Call) {a : Expr × Option TypeId}
    (ha : a ∈ call.expected s.types) : s.types.Covers a.2 := by
  have hfits : ∀ c ∈ call.fitting s.types, ∀ type ∈ c.signature, s.types.Covers type := by
    intro c hc type htype
    obtain ⟨-, callee, hcallee, -, hsignature, -⟩ :=
      methodEntry_of_mem_candidates (mem_filter.mp hc).1
    rw [← hsignature] at htype
    exact h.signatures _ callee (mem_of_getElem? (Defect.entry_eq_ok_iff.mp hcallee)) type htype
  have htype : a.2 ∈ expectedTypes (call.fitting s.types) call.args.length := (of_mem_zip ha).2
  unfold expectedTypes at htype
  split at htype
  next c hone => exact hfits c (hone ▸ mem_cons_self) a.2 htype
  next =>
    rw [eq_of_mem_replicate htype]
    exact s.types.covers_none

theorem evaluatesAll_expected (e : Scope) (s : BodyState) (call : Call) :
    e.EvaluatesAll s (call.expected s.types) (e.lowerArgs s (call.expected s.types)) :=
  evaluatesAll_lowerArgs fun hs _ ha => covers_argument hs call ha

/-- A call passes a value for each parameter of the chosen method. -/
theorem moves_lowerCall {call : Call} (hcall : ∀ callee, callee.name = call.name →
      callee.params.length = call.args.length → (call.needsStatic = true → callee.isStatic = true) →
      P (s.types.get call.owner).name callee) : e.Moves P s (e.lowerCall s call) := by
  have hargs := e.evaluatesAll_expected s call
  unfold lowerCall
  dsimp only
  rw [← Call.fitting, ← Call.expected]
  split
  · exact .single (.compute (.report s _ _ _ (by decide)))
  · split
    next s' hlowered =>
      rw [hlowered] at hargs
      exact hargs.computes.moves
    next values s' hlowered =>
      rw [hlowered] at hargs
      refine ReflTransGen.trans hargs.computes.moves ?_
      split
      next chosen hchosen =>
        obtain ⟨hcandidate, harity⟩ := mem_filter.mp (mem_of_choose? hchosen)
        obtain ⟨hmethod, callee, hcallee, hname, hsignature, hstatic⟩ :=
          methodEntry_of_mem_candidates hcandidate
        have hcount : values.length = call.args.length :=
          (hargs.length values rfl).trans (call.length_expected s.types)
        have hparams : callee.params.length = call.args.length := by
          rw [← beq_iff_eq.mp harity, ← hsignature, Method.signature, length_map]
        have hsame := hargs.computes.adds.types
        refine .single (.call s' (hsame ▸ hcallee) (hcount.trans hparams.symm) (hargs.defined values rfl) ?_)
        rw [hsame, hmethod]
        exact hcall callee hname hparams hstatic
      next => exact .single (.compute (.report s' _ _ _ (by decide)))

theorem moves_lowerPrint (hstatic : ∀ owner callee, callee.isStatic = true → P owner callee) (s : BodyState)
    (args : List Expr) : e.Moves P s (e.lowerPrint s args) := by
  unfold lowerPrint
  split
  · exact .refl
  · refine foldlRecOn (motive := fun s' => e.Moves P s s') args _ .refl fun s' hs' arg _ => ?_
    exact ReflTransGen.trans hs' (moves_lowerCall fun callee _ _ h => hstatic _ callee (h rfl))

/-! ## Statements -/

theorem moves_variableType (e : Scope) (s : BodyState) (type : Option TypeExpr) (value : Option Expr) :
    e.Moves P s (e.variableType s type value).2 ∧
      e.Provides (e.variableType s type value).2 (e.variableType s type value).1 := by
  cases type with
  | none =>
    refine ⟨.refl, fun hs => TypeTable.Covers.or ?_ (s.types.covers_primitive? .object), fun hs => ?_⟩
    · cases value with
      | none => exact s.types.covers_none
      | some value => exact covers_infer hs value
    · have hobject : (s.types.primitive? .object).isSome = true := hs.grounded.primitives .object
      rw [variableType, isSome_or, hobject, Bool.or_true]
  | some type =>
    have hresolves := Context.resolves_resolveTypeExpr e.module s.context type
    exact ⟨.single (.look s (hresolves.instantiates.mono nofun)), fun _ => hresolves.found,
      fun hs => hresolves.known hs.silent⟩

theorem moves_lowerVar (s : BodyState) (name : String) (type : Option TypeExpr) (value : Option Expr) :
    e.Moves P s (e.lowerVar s name type value) := by
  obtain ⟨htype, hprovides⟩ := moves_variableType (P := P) e s type value
  obtain ⟨hinit, hdefined⟩ := computes_lowerOptional value hprovides.covers
  refine ReflTransGen.tail (htype.trans hinit.moves) (.declare _ name ?_ hdefined)
  exact hprovides.of_adds hinit.adds

theorem lowers_lowerThrow (s : BodyState) (value : Expr) : e.Lowers P s (e.lowerThrow s value) := by
  have hend : ∀ s', e.Computes s s' → e.Lowers P s (s'.setFlow .unreachable) :=
    fun s' h => .moves (ReflTransGen.tail h.moves (.close s' nofun nofun))
  unfold lowerThrow
  dsimp only
  split
  next text span =>
    have hmessage := evaluates_lowerExpr (e := e) (.literal (.string text) span)
      fun _ => s.types.covers_primitive? .string
    split
    next hlowered =>
      rw [hlowered] at hmessage
      exact hend _ hmessage.computes
    next message s' hlowered =>
      rw [hlowered] at hmessage
      split
      next ctor hctor => exact .raise hmessage.computes.moves hctor (hmessage.defined message rfl)
      next => exact hend _ hmessage.computes
  next => exact hend _ (evaluates_lowerExpr value fun _ => s.types.covers_none).computes

end Scope

/-- All methods that a statement may call are allowed by `P`: static ones, unless it gives the name of a type. -/
def Stmt.CallsWithin (module : QualifiedName) (P : QualifiedName → Method → Prop) : Stmt → Prop
  | .call (.unqualified _) _ _ => ∀ owner callee, callee.isStatic = true → P owner callee
  | .call (.qualified type name) args _ => ∀ (t : TypeTable) owner callee,
      t.resolveIn? module type = some owner → callee.name = name → callee.params.length = args.length →
      P (t.get owner).name callee
  | _ => True

namespace Scope
variable {P : QualifiedName → Method → Prop} {R : BodyState → BodyState → Prop}
  {e : Scope} {s s' : BodyState}

theorem lowers_lowerStmt (s : BodyState) {stmt : Stmt} (hstmt : stmt.CallsWithin e.module P) :
    e.Lowers P s (e.lowerStmt s stmt) := by
  cases stmt with
  | var name type value span => exact .moves (moves_lowerVar s name type value)
  | call callee args span =>
    refine .moves ?_
    cases callee with
    | unqualified name =>
      rw [lowerStmt]
      split
      · exact moves_lowerPrint hstmt s args
      · exact moves_lowerCall fun callee _ _ h => hstmt _ callee (h rfl)
    | qualified type name =>
      have hresolves := s.context.resolves_resolveType e.module type span
      rw [lowerStmt]
      rw [Context.resolveType] at hresolves ⊢
      cases hfound : s.context.types.resolveIn? e.module type with
      | none =>
        rw [hfound] at hresolves
        exact .single (.look s (hresolves.instantiates.mono nofun))
      | some owner =>
        exact moves_lowerCall fun callee hname hparams _ => hstmt s.types owner callee hfound hname hparams
  | ret value span =>
    obtain ⟨hvalue, hdefined⟩ := computes_lowerOptional (e := e) (s := s) value fun hs => hs.result
    exact .moves (ReflTransGen.tail hvalue.moves (.close _ nofun fun v hv => hdefined v (Flow.ret.inj hv)))
  | throw value span => exact lowers_lowerThrow s value
  | error span => exact .moves (.single (.compute (.report s _ _ _ (by decide))))

/-! ## Runs -/

/-- The relation holds between the states before and after each step, and so between those before and after
some steps. -/
structure Tracks (e : Scope) (P : QualifiedName → Method → Prop) (R : BodyState → BodyState → Prop) :
    Prop where
  refl : ∀ s, R s s
  trans : ∀ {s s' s''}, R s s' → R s' s'' → R s s''
  move : ∀ {s s'}, e.Move P s s' → R s s'
  raise : ∀ s ctor message, exceptionCtor? s.types = some ctor →
    FlowGraph.Defines s.graph.instructions message → R s (s.raise ctor message)

namespace Tracks

variable (h : e.Tracks P R)
include h

theorem moves (hmoves : e.Moves P s s') : R s s' := by
  induction hmoves with
  | refl => exact h.refl s
  | tail _ hlast ih => exact h.trans ih (h.move hlast)

theorem lowers (hlowers : e.Lowers P s s') : R s s' := by
  cases hlowers with
  | moves hmoves => exact h.moves hmoves
  | raise hmoves hctor hmessage => exact h.trans (h.moves hmoves) (h.raise _ _ _ hctor hmessage)

theorem lowerStmt (s : BodyState) {stmt : Stmt} (hstmt : stmt.CallsWithin e.module P) : R s (e.lowerStmt s stmt) :=
  h.lowers (lowers_lowerStmt s hstmt)

theorem lowerStmts (s : BodyState) {stmts : List Stmt}
    (hstmts : ∀ stmt ∈ stmts, stmt.CallsWithin e.module P) : R s (e.lowerStmts s stmts) := by
  induction stmts generalizing s with
  | nil => exact h.refl s
  | cons stmt stmts ih =>
    obtain ⟨hstmt, hrest⟩ := forall_mem_cons.mp hstmts
    unfold Scope.lowerStmts
    split
    · exact h.refl s
    · exact h.trans (h.lowerStmt s hstmt) (ih (e.lowerStmt s stmt) hrest)

end Tracks

abbrev anyCall : QualifiedName → Method → Prop :=
  fun _ _ => True

theorem callsWithin_anyCall (module : QualifiedName) (stmt : Stmt) : stmt.CallsWithin module anyCall := by
  unfold Stmt.CallsWithin
  split <;> intros <;> trivial

theorem tracks_continues : e.Tracks P BodyState.Continues where
  refl := .refl
  trans := .trans
  move h := by
    cases h with
    | compute h => exact h.adds.continues
    | look h => exact ⟨h, prefix_rfl, fun _ => prefix_rfl⟩
    | call => exact .append _ _
    | declare name => exact .declare _ name _ _
    | close => exact .setFlow _ _
  raise s _ _ _ _ := (BodyState.Continues.append s _).trans (.setFlow _ _)

theorem continues_lowerCall (e : Scope) (s : BodyState) (call : Call) : s.Continues (e.lowerCall s call) :=
  tracks_continues.moves (P := anyCall) (moves_lowerCall fun _ _ _ _ => trivial)

theorem continues_lowerStmt (e : Scope) (s : BodyState) (stmt : Stmt) : s.Continues (e.lowerStmt s stmt) :=
  tracks_continues.lowerStmt s (callsWithin_anyCall _ stmt)

theorem continues_lowerStmts (e : Scope) (s : BodyState) (stmts : List Stmt) : s.Continues (e.lowerStmts s stmts) :=
  tracks_continues.lowerStmts s fun stmt _ => callsWithin_anyCall _ stmt

end Scope

end TreeCompiler
