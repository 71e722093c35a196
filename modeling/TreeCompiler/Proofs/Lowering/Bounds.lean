import TreeCompiler.Proofs.Lowering.Lookups
import TreeCompiler.Proofs.Lowering.Steps

/-!
# Handles within bounds

A handle leads somewhere if its number lies within the list that it counts in. Tables and graphs only grow,
so that a handle that leads somewhere always will.

* `HasMethod`, `HasField`, `HasBinding` : what it means to lead somewhere;
* `Draft t g` : a graph under construction, with one lemma for each way to build it
  (`Draft.append`, `Draft.addParam`);
* `Context.Enlarges c c'` : from `c` to `c'` nothing gets out of bounds, with one lemma for each kind of edit.
-/

namespace TreeCompiler

open List TypeTable FlowGraph Defect
variable (t : TypeTable) (g : FlowGraph)

/-! ## What leads somewhere -/

theorem mapM_eq_ok_map {ε α β : Type} {f : α → Except ε β} {g : α → β} {as : List α}
    (h : ∀ a ∈ as, f a = .ok (g a)) : as.mapM f = .ok (as.map g) := by
  induction as with
  | nil => rfl
  | cons a as ih =>
    rw [mapM_cons, h a mem_cons_self, ih fun a' ha' => h a' (mem_cons_of_mem _ ha')]
    rfl

namespace TypeTable
variable (t : TypeTable)

def HasMethod (m : MethodRef) : Prop :=
  m.type.index < t.size ∧ m.index < (t.get m.type).methods.length

def HasField (f : FieldRef) : Prop :=
  f.type.index < t.size ∧ f.index < (t.get f.type).fields.length

end TypeTable

namespace FlowGraph
variable (g : FlowGraph)

def HasResult (id : InstrId) : Prop :=
  id.index < g.instructions.length

def HasBlock (b : BlockId) : Prop :=
  b.index < g.blocks.length

def HasBinding (b : BindingId) : Prop :=
  g.HasBlock b.block ∧ b.index < (g.block b.block).params.length

end FlowGraph

/-- The types, methods, fields and variables that an instruction names. -/
def Instruction.Refers : Instruction → Prop
  | .constant _ type | .load type _ | .binary _ type _ _ => t.Covers type
  | .loadArg _ => True
  | .loadLocal b => g.HasBinding b
  | .alloca b type _ => g.HasBinding b ∧ t.Covers type
  | .call m _ | .newObject m _ => t.HasMethod m
  | .storeField f _ _ => t.HasField f

structure Instruction.Bounded (t : TypeTable) (g : FlowGraph) (i : Instruction) : Prop where
  operands : ∀ id ∈ i.operands, g.HasResult id
  refers : i.Refers t g

def Flow.Bounded : Flow → Prop
  | .ret value => ∀ id, value = some id → g.HasResult id
  | .jump b => g.HasBlock b
  | .unreachable => True

structure Block.Bounded (t : TypeTable) (g : FlowGraph) (b : Block) : Prop where
  params : ∀ p ∈ b.params, t.Covers p.type
  instructions : ∀ id ∈ b.instructions, g.HasResult id
  flow : b.flow.Bounded g

structure FlowGraph.Bounded (t : TypeTable) (g : FlowGraph) : Prop where
  instructions : ∀ i ∈ g.instructions, i.Bounded t g
  blocks : ∀ b ∈ g.blocks, b.Bounded t g

structure Field.Bounded (t : TypeTable) (f : Field) : Prop where
  type : t.Covers f.type
  attributes : t.HasAttributes f.attributes

structure Method.Bounded (t : TypeTable) (m : Method) : Prop where
  result : t.Covers m.returnType
  params : ∀ p ∈ m.params, t.Covers p.type
  attributes : t.HasAttributes m.attributes
  body : ∀ g, m.body = some g → g.Bounded t

structure Property.Bounded (t : TypeTable) (p : Property) : Prop where
  type : t.Covers p.type
  accessors : ∀ m ∈ p.getter.toList ++ p.setter.toList, m.Bounded t
  attributes : t.HasAttributes p.attributes

structure TypeDef.Bounded (t : TypeTable) (d : TypeDef) : Prop where
  bases : ∀ b ∈ d.bases, b.index < t.size
  definition : t.Covers d.genericDefinition
  args : ∀ a ∈ d.genericArgs, a.index < t.size
  attributes : t.HasAttributes d.attributes
  fields : ∀ f ∈ d.fields, f.Bounded t
  methods : ∀ m ∈ d.methods, m.Bounded t
  properties : ∀ p ∈ d.properties, p.Bounded t

/-- Every handle in a table leads somewhere. -/
def TypeTable.Bounded : Prop :=
  ∀ d ∈ t.defs, d.Bounded t

/-- The handles in the table and the entry point lead somewhere. -/
structure Context.Bounded (c : Context) : Prop where
  types : c.types.Bounded
  entry : ∀ m, c.assembly.entryPoint = some m → c.types.HasMethod m

/-- The methods whose bodies are still to be lowered are there as well. -/
structure Lowering.Bounded (l : Lowering) : Prop where
  context : l.context.Bounded
  queue : ∀ p ∈ l.queue, l.context.types.HasMethod p.method

/-! ## Growth -/

/-- Whatever leads somewhere in `t` does so in `t'`. -/
structure TypeTable.Includes (t t' : TypeTable) : Prop where
  size : t.size ≤ t'.size
  methods : ∀ id, (t.get id).methods.length ≤ (t'.get id).methods.length
  fields : ∀ id, (t.get id).fields.length ≤ (t'.get id).fields.length

/-- Whatever leads somewhere in `g` does so in `g'`. -/
structure FlowGraph.Includes (g g' : FlowGraph) : Prop where
  instructions : g.instructions.length ≤ g'.instructions.length
  blocks : g.blocks.length ≤ g'.blocks.length
  params : ∀ b, (g.block b).params.length ≤ (g'.block b).params.length

theorem FlowGraph.Includes.refl : g.Includes g :=
  ⟨le_rfl, le_rfl, fun _ => le_rfl⟩

section Growth
variable {t t' t'' : TypeTable} {g g' : FlowGraph}

namespace TypeTable
variable {m : MethodRef}

theorem Includes.refl (t : TypeTable) : t.Includes t :=
  ⟨le_rfl, fun _ => le_rfl, fun _ => le_rfl⟩

theorem Includes.trans (h : t.Includes t') (h' : t'.Includes t'') : t.Includes t'' :=
  ⟨h.size.trans h'.size, fun id => (h.methods id).trans (h'.methods id), fun id => (h.fields id).trans (h'.fields id)⟩

theorem HasMethod.mono (h : t.HasMethod m) (ht : t.Includes t') : t'.HasMethod m :=
  ⟨h.1.trans_le ht.size, h.2.trans_le (ht.methods _)⟩

theorem HasField.mono {f : FieldRef} (h : t.HasField f) (ht : t.Includes t') : t'.HasField f :=
  ⟨h.1.trans_le ht.size, h.2.trans_le (ht.fields _)⟩

theorem HasAttributes.mono {as : List Attribute} (h : t.HasAttributes as) (hsize : t.size ≤ t'.size) :
    t'.HasAttributes as :=
  fun a ha => (h a ha).trans_le hsize

theorem HasAttributes.append {as bs : List Attribute} (has : t.HasAttributes as) (hbs : t.HasAttributes bs) :
    t.HasAttributes (as ++ bs) :=
  forall_mem_append.mpr ⟨has, hbs⟩

theorem hasMethod_iff : t.HasMethod m ↔ ∃ c, t.methodEntry m = .ok c := by
  constructor
  · exact fun h => ⟨_, entry_eq_ok_iff.mpr (getElem?_eq_getElem h.2)⟩
  · rintro ⟨c, hc⟩
    exact ⟨lt_size_of_methodEntry hc, (List.getElem?_eq_some_iff.mp (entry_eq_ok_iff.mp hc)).1⟩

theorem HasMethod.methodEntry_eq (h : t.HasMethod m) : t.methodEntry m = .ok (t.method m) := by
  obtain ⟨c, hc⟩ := hasMethod_iff.mp h
  rw [t.method_of_methodEntry m c hc]
  exact hc

theorem entry_eq_get {id : TypeId} (h : id.index < t.size) : entry t.defs id.index = .ok (t.get id) := by
  rw [get_mk_of_lt t h]
  exact entry_eq_ok_iff.mpr (getElem?_eq_getElem h)

theorem hasMethod_of_findMethod? {type : TypeId} {name : String} {arity : Nat}
    (h : t.findMethod? type name arity = some m) : t.HasMethod m := by
  obtain ⟨c, hc, -⟩ := methodEntry_of_findMethod? h
  exact hasMethod_iff.mpr ⟨c, hc⟩

end TypeTable

theorem FlowGraph.HasResult.mono {id : InstrId} (h : g.HasResult id) (hg : g.Includes g') : g'.HasResult id :=
  h.trans_le hg.instructions

theorem FlowGraph.HasBinding.mono {b : BindingId} (h : g.HasBinding b) (hg : g.Includes g') : g'.HasBinding b :=
  ⟨h.1.trans_le hg.blocks, h.2.trans_le (hg.params _)⟩

theorem Instruction.Bounded.mono {i : Instruction} (h : i.Bounded t g) (ht : t.Includes t')
    (hg : g.Includes g') : i.Bounded t' g' := by
  refine ⟨fun id hid => (h.operands id hid).mono hg, ?_⟩
  have hrefers := h.refers
  cases i with
  | constant _ _ | load _ _ | binary _ _ _ _ => exact Covers.mono hrefers ht.size
  | loadArg _ => exact trivial
  | loadLocal b => exact HasBinding.mono hrefers hg
  | alloca b _ _ => exact ⟨HasBinding.mono hrefers.1 hg, hrefers.2.mono ht.size⟩
  | call m _ | newObject m _ => exact HasMethod.mono hrefers ht
  | storeField f _ _ => exact HasField.mono hrefers ht

theorem Flow.Bounded.mono {flow : Flow} (h : flow.Bounded g) (hg : g.Includes g') : flow.Bounded g' := by
  cases flow with
  | ret value => exact fun id hid => (h id hid).mono hg
  | jump b => exact h.trans_le hg.blocks
  | unreachable => exact trivial

theorem Block.Bounded.mono {b : Block} (h : b.Bounded t g) (ht : t.Includes t') (hg : g.Includes g') :
    b.Bounded t' g' :=
  ⟨fun p hp => (h.params p hp).mono ht.size, fun id hid => (h.instructions id hid).mono hg, h.flow.mono hg⟩

theorem FlowGraph.Bounded.mono (h : g.Bounded t) (ht : t.Includes t') : g.Bounded t' :=
  ⟨fun i hi => (h.instructions i hi).mono ht (.refl g), fun b hb => (h.blocks b hb).mono ht (.refl g)⟩

theorem Field.Bounded.mono {f : Field} (h : f.Bounded t) (ht : t.Includes t') : f.Bounded t' :=
  ⟨h.type.mono ht.size, h.attributes.mono ht.size⟩

theorem Method.Bounded.mono {m : Method} (h : m.Bounded t) (ht : t.Includes t') : m.Bounded t' :=
  ⟨h.result.mono ht.size, fun p hp => (h.params p hp).mono ht.size, h.attributes.mono ht.size,
    fun g hg => (h.body g hg).mono ht⟩

theorem Property.Bounded.mono {p : Property} (h : p.Bounded t) (ht : t.Includes t') : p.Bounded t' :=
  ⟨h.type.mono ht.size, fun m hm => (h.accessors m hm).mono ht, h.attributes.mono ht.size⟩

theorem TypeDef.Bounded.mono {d : TypeDef} (h : d.Bounded t) (ht : t.Includes t') : d.Bounded t' where
  bases b hb := (h.bases b hb).trans_le ht.size
  definition := h.definition.mono ht.size
  args a ha := (h.args a ha).trans_le ht.size
  attributes := h.attributes.mono ht.size
  fields f hf := (h.fields f hf).mono ht
  methods m hm := (h.methods m hm).mono ht
  properties p hp := (h.properties p hp).mono ht

end Growth

/-! ## Graphs under construction -/

namespace FlowGraph

theorem includes_of_blocks {g g' : FlowGraph} (hg : g.blocks = [g.block .entry])
    (hg' : g'.blocks = [g'.block .entry]) (hinstructions : g.instructions.length ≤ g'.instructions.length)
    (hparams : (g.block .entry).params.length ≤ (g'.block .entry).params.length) : g.Includes g' := by
  refine ⟨hinstructions, ?_, fun id => ?_⟩
  · rw [hg, hg']
    exact Nat.le_refl 1
  · obtain ⟨index⟩ := id
    cases index with
    | zero => exact hparams
    | succ _ =>
      rw [block, block, hg, hg']
      exact le_rfl

/-- A graph of one block whose handles lead somewhere. -/
structure Draft (t : TypeTable) (g : FlowGraph) : Prop where
  bounded : g.Bounded t
  blocks : g.blocks = [g.block .entry]

namespace Draft
variable {t t' : TypeTable} {g : FlowGraph} {g' : FlowGraph} {flow : Flow}

theorem empty (t : TypeTable) : empty.Draft t := by
  refine ⟨⟨forall_mem_nil _, fun b hb => ?_⟩, rfl⟩
  rw [mem_singleton.mp hb]
  refine ⟨forall_mem_nil _, forall_mem_nil _, fun id hid => ?_⟩
  cases hid

variable (h : g.Draft t)
include h

theorem mono (ht : t.Includes t') : g.Draft t' :=
  ⟨h.bounded.mono ht, h.blocks⟩

theorem entry : (g.block .entry).Bounded t g := by
  refine h.bounded.blocks _ ?_
  rw [h.blocks]
  exact mem_singleton.mpr (block_entry_of_blocks h.blocks)

theorem hasBlock : g.HasBlock .entry := by
  rw [HasBlock, h.blocks]
  exact Nat.lt_succ_self 0

theorem of_blocks (hnew : g'.blocks = [g'.block .entry]) (hincludes : g.Includes g')
    (hinstructions : ∀ i ∈ g'.instructions, i ∈ g.instructions ∨ i.Bounded t g)
    (hentry : (g'.block .entry).Bounded t g') : g'.Draft t := by
  refine ⟨⟨fun i hi => ?_, fun b hb => ?_⟩, hnew⟩
  · rcases hinstructions i hi with hold | hbounded
    · exact (h.bounded.instructions i hold).mono (.refl t) hincludes
    · exact hbounded.mono (.refl t) hincludes
  · rw [hnew] at hb
    exact mem_singleton.mp hb ▸ hentry

/-- An instruction that refers to what is there is appended, and its result is there. -/
theorem append {i : Instruction} (hi : i.Bounded t g) :
    (g.append .entry i).2.Draft t ∧ g.Includes (g.append .entry i).2 ∧
      (g.append .entry i).2.HasResult (g.append .entry i).1 := by
  have hblock := block_append h.blocks i
  have hnew : (g.append .entry i).2.blocks = _ := single_modifyBlock h.blocks _
  have hlength : (g.append .entry i).2.instructions.length = g.instructions.length + 1 :=
    instructionCount_append g .entry i
  have hincludes : g.Includes (g.append .entry i).2 :=
    includes_of_blocks h.blocks hnew (by omega) (hblock ▸ le_rfl)
  have hresult : (g.append .entry i).2.HasResult (g.append .entry i).1 := by
    rw [HasResult, hlength]
    exact Nat.lt_succ_self _
  have hentry := h.entry.mono (.refl t) hincludes
  refine ⟨h.of_blocks hnew hincludes (forall_mem_concat (fun _ => Or.inl) (Or.inr hi)) ?_, hincludes, hresult⟩
  rw [hblock]
  exact ⟨hentry.params, forall_mem_concat hentry.instructions hresult, hentry.flow⟩

/-- A variable is declared. -/
theorem addParam (name : String) {type : Option TypeId} (htype : t.Covers type) :
    (g.addParam .entry name type).2.Draft t ∧ g.Includes (g.addParam .entry name type).2 ∧
      (g.addParam .entry name type).2.HasBinding (g.addParam .entry name type).1 := by
  have hblock := block_addParam h.blocks name type
  have hnew := single_addParam h.blocks name type
  have hmore : (g.block .entry).params.length < ((g.addParam .entry name type).2.block .entry).params.length := by
    rw [hblock, length_append]
    exact Nat.lt_succ_self _
  have hincludes := includes_of_blocks h.blocks hnew le_rfl hmore.le
  have hentry := h.entry.mono (.refl t) hincludes
  have hdraft : (g.addParam .entry name type).2.Draft t := by
    refine h.of_blocks hnew hincludes (fun _ hi => Or.inl hi) ?_
    rw [hblock]
    exact ⟨forall_mem_concat hentry.params htype, hentry.instructions, hentry.flow⟩
  exact ⟨hdraft, hincludes, hdraft.hasBlock, hmore⟩

/-- The block has another end. -/
theorem withFlow (hnew : g'.blocks = [g'.block .entry]) (hinstructions : g'.instructions = g.instructions)
    (hflow : flow.Bounded g) (hblock : g'.block .entry = { g.block .entry with flow? := some flow }) :
    g'.Draft t ∧ g.Includes g' := by
  have hincludes := includes_of_blocks h.blocks hnew (hinstructions ▸ le_rfl) (hblock ▸ le_rfl)
  have hentry := h.entry.mono (.refl t) hincludes
  refine ⟨h.of_blocks hnew hincludes (fun _ hi => Or.inl (hinstructions ▸ hi)) ?_, hincludes⟩
  rw [hblock]
  exact ⟨hentry.params, hentry.instructions, hflow.mono hincludes⟩

theorem setFlow (hflow : flow.Bounded g) : (g.setFlow .entry flow).Draft t ∧ g.Includes (g.setFlow .entry flow) :=
  h.withFlow (single_modifyBlock h.blocks _) rfl hflow (block_setFlow h.blocks flow)

theorem close : g.close.Draft t :=
  (h.withFlow (single_close h.blocks) rfl h.entry.flow (block_close h.blocks)).1

end Draft

end FlowGraph

/-! ## Edits of a table -/

namespace TypeTable
variable {t : TypeTable} {f : TypeDef → TypeDef} {t' : TypeTable}

theorem includes_append (t : TypeTable) (d : TypeDef) : t.Includes { defs := t.defs ++ [d] } := by
  refine ⟨?_, fun id => ?_, fun id => (t.keepsFields_append d id).length_le⟩
  · rw [size_append]
    exact Nat.le_succ _
  · rcases t.get_append_cases d id with ⟨-, hold⟩ | ⟨heq, -⟩ | ⟨hgt, -⟩
    · rw [hold]
    · rw [t.get_of_le heq.symm.le]
      exact Nat.zero_le _
    · rw [t.get_of_le hgt.le]
      exact Nat.zero_le _

theorem includes_modify (t : TypeTable) (type : TypeId) (hmethods : ∀ d, d.methods.length ≤ (f d).methods.length)
    (hfields : ∀ d, d.fields.length ≤ (f d).fields.length) : t.Includes (t.modify type f) := by
  refine ⟨(t.size_modify type f).symm.le, fun id => ?_, fun id => ?_⟩
  · rcases t.get_modify_cases type f id with hsame | ⟨-, -, hnew⟩
    · rw [hsame]
    · rw [hnew]
      exact hmethods _
  · rcases t.get_modify_cases type f id with hsame | ⟨-, -, hnew⟩
    · rw [hsame]
    · rw [hnew]
      exact hfields _

theorem Bounded.get (h : t.Bounded) {id : TypeId} (hid : id.index < t.size) : (t.get id).Bounded t :=
  h _ (t.get_mem_defs hid)

/-- A new type may refer to types that were there before it. -/
theorem Bounded.append (h : t.Bounded) {d : TypeDef} (hd : d.Bounded t) :
    TypeTable.Bounded { defs := t.defs ++ [d] } :=
  forall_mem_concat (fun d' hd' => (h d' hd').mono (t.includes_append d)) (hd.mono (t.includes_append d))

theorem AddsInstance.bounded (h : t.AddsInstance t') (ht : t.Bounded) : t'.Bounded := by
  obtain ⟨definition, args, hmay, -⟩ := h
  refine ht.append ⟨?_, ?_, hmay.args_lt, ?_, ?_, ?_, ?_⟩
  · exact (ht.get hmay.lt_size).bases
  · rintro id hid
    cases hid
    exact hmay.lt_size
  all_goals exact forall_mem_nil _

theorem AddsInstances.bounded (h : t.AddsInstances t') (ht : t.Bounded) : t'.Bounded := by
  induction h with
  | refl => exact ht
  | tail _ hlast ih => exact hlast.bounded ih

theorem AddsInstances.includes (h : t.AddsInstances t') : t.Includes t' := by
  induction h with
  | refl => exact .refl t
  | tail _ hlast ih =>
    obtain ⟨definition, args, -, -⟩ := hlast
    exact ih.trans (includes_append _ _)

end TypeTable

/-! ## What handles lead to -/

/-- Whatever a handle leads to, its own handles lead somewhere. -/
theorem TypeTable.Bounded.method {t : TypeTable} (h : t.Bounded) (m : MethodRef) : (t.method m).Bounded t := by
  unfold TypeTable.method
  rw [getD_eq_getElem?_getD]
  cases hm : (t.get m.type).methods[m.index]? with
  | none =>
    refine ⟨t.covers_none, forall_mem_nil _, forall_mem_nil _, ?_⟩
    intro g hg
    cases hg
  | some method =>
    have hentry : t.methodEntry m = .ok method := entry_eq_ok_iff.mpr hm
    exact (h.get (lt_size_of_methodEntry hentry)).methods method (mem_of_getElem? hm)

theorem FlowGraph.HasBinding.paramEntry_eq {g : FlowGraph} {b : BindingId} (h : g.HasBinding b) :
    g.paramEntry b = .ok (g.param b) := by
  obtain ⟨hblock, hparam⟩ := h
  have hentry : entry g.blocks b.block.index = .ok (g.block b.block) := by
    rw [block, getD_eq_getElem?_getD, getElem?_eq_getElem hblock]
    exact entry_eq_ok_iff.mpr (getElem?_eq_getElem hblock)
  unfold paramEntry param
  rw [hentry, getD_eq_getElem?_getD, getElem?_eq_getElem hparam]
  exact entry_eq_ok_iff.mpr (getElem?_eq_getElem hparam)

namespace FlowGraph.Bounded
variable {t : TypeTable} {g : FlowGraph} (h : g.Bounded t)
include h

theorem param (b : BindingId) : t.Covers (g.param b).type := by
  unfold FlowGraph.param block
  rw [getD_eq_getElem?_getD, getD_eq_getElem?_getD]
  cases hblock : g.blocks[b.block.index]? with
  | none => exact t.covers_none
  | some block =>
    change t.Covers (block.params[b.index]?.getD default).type
    cases hparam : block.params[b.index]? with
    | none => exact t.covers_none
    | some p => exact (h.blocks block (mem_of_getElem? hblock)).params p (mem_of_getElem? hparam)

theorem instruction {id : InstrId} {i : Instruction} (hi : g.instruction? id = some i) : i.Bounded t g :=
  h.instructions i (mem_of_getElem? hi)

theorem resultType (ht : t.Bounded) {m : MethodRef} (hm : t.HasMethod m) (id : InstrId) :
    t.Covers (g.resultType t m.type (t.method m) id) := by
  unfold FlowGraph.resultType
  split
  next hi => exact (h.instruction hi).refers
  next hi => exact (h.instruction hi).refers
  next hi => exact (h.instruction hi).refers
  next =>
    intro id hid
    cases hid
    exact hm.1
  next i _ =>
    cases hparam : (t.method m).params[i]? with
    | none => exact t.covers_none
    | some p => exact (ht.method m).params p (mem_of_getElem? hparam)
  next b _ => exact h.param b
  next callee _ _ => exact (ht.method callee).result
  next hi =>
    intro id hid
    cases hid
    exact (h.instruction hi).refers.1
  all_goals exact t.covers_none

end FlowGraph.Bounded

/-! ## Edits of a state -/

namespace Context

/-- Nothing that leads somewhere in `c` leads nowhere in `c'`, and no handle in `c'` does so if none in `c`
does. -/
structure Enlarges (c c' : Context) : Prop where
  includes : c.types.Includes c'.types
  bounded : c.Bounded → c'.Bounded

namespace Enlarges
variable {c c' c'' : Context} {f : TypeDef → TypeDef} (owner : TypeId) (type : TypeId)

theorem refl (c : Context) : c.Enlarges c :=
  ⟨.refl _, id⟩

theorem trans (h : c.Enlarges c') (h' : c'.Enlarges c'') : c.Enlarges c'' :=
  ⟨h.includes.trans h'.includes, fun hc => h'.bounded (h.bounded hc)⟩

theorem push (c : Context) (d : Diagnostic) : c.Enlarges (c.push d) :=
  ⟨.refl _, fun hc => ⟨hc.types, hc.entry⟩⟩

theorem withTypes {types : TypeTable} (hincludes : c.types.Includes types)
    (h : c.types.Bounded → types.Bounded) : c.Enlarges (c.withTypes types) :=
  ⟨hincludes, fun hc => ⟨h hc.types, fun m hm => (hc.entry m hm).mono hincludes⟩⟩

theorem register {d : TypeDef} (hd : d.Bounded c.types) : c.Enlarges (c.withTypes { defs := c.types.defs ++ [d] }) :=
  withTypes (c.types.includes_append d) fun hc => hc.append hd

theorem modify (hmethods : ∀ d, d.methods.length ≤ (f d).methods.length)
    (hfields : ∀ d, d.fields.length ≤ (f d).fields.length) (hf : ∀ d, d.Bounded c.types → (f d).Bounded c.types) :
    c.Enlarges (c.modifyType type f) := by
  have hincludes := c.types.includes_modify type hmethods hfields
  exact withTypes hincludes fun hc d hd =>
    forall_mem_modify type.index hc hf d hd |>.mono hincludes

theorem addField {f : Field} (hf : f.Bounded c.types) : c.Enlarges (c.withTypes (c.types.addField owner f).2) :=
  modify owner (fun _ => le_rfl) (fun _ => (prefix_append _ _).length_le)
    fun _ hd => { hd with fields := forall_mem_concat hd.fields hf }

theorem addProperty {p : Property} (hp : p.Bounded c.types) :
    c.Enlarges (c.withTypes (c.types.addProperty owner p)) :=
  modify owner (fun _ => le_rfl) (fun _ => le_rfl)
    fun _ hd => { hd with properties := forall_mem_concat hd.properties hp }

theorem addMethod {m : Method} (hm : m.Bounded c.types) : c.Enlarges (c.withTypes (c.types.addMethod owner m).2) :=
  modify owner (fun _ => (prefix_append _ _).length_le) (fun _ => le_rfl)
    fun _ hd => { hd with methods := forall_mem_concat hd.methods hm }

theorem modifyType (hmembers : ∀ d, (f d).members = d.members) (hf : ∀ d, d.Bounded c.types → (f d).Bounded c.types) :
    c.Enlarges (c.modifyType type f) := by
  refine modify type (fun d => ?_) (fun d => ?_) hf
  · have hmethods : (f d).methods = d.methods := congrArg (·.2.1) (hmembers d)
    rw [hmethods]
  · have hfields : (f d).fields = d.fields := congrArg (·.1) (hmembers d)
    rw [hfields]

theorem setBody (m : MethodRef) {g : FlowGraph} (hg : g.Bounded c.types) :
    c.Enlarges (c.withTypes (c.types.setBody m g)) := by
  refine modify m.type (fun d => ?_) (fun _ => le_rfl) fun d hd =>
    { hd with methods := forall_mem_modify m.index hd.methods fun old hold => { hold with body := ?_ } }
  · exact (length_modify _ _ _).symm.le
  · rintro g' ⟨⟩
    exact hg

end Enlarges

theorem Consults.enlarges {firm : Prop} {c c' : Context} (h : c.Consults firm c') : c.Enlarges c' := by
  refine ⟨h.types.includes, fun hc => ⟨h.types.bounded hc.types, fun m hm => ?_⟩⟩
  rw [h.assembly] at hm
  exact (hc.entry m hm).mono h.types.includes

end Context

end TreeCompiler
