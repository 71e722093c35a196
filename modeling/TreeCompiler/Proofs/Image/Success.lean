import TreeCompiler.Proofs.Emission
import TreeCompiler.Proofs.Image.EmittedCode
import TreeCompiler.Proofs.Lowering.Soundness

/-!
# Images that can be built

Every error that can stop the building of an image has its reason in the assembly: a type that is not
known, a handle that leads nowhere, or a number that does not fit its word.
-/

namespace TreeCompiler

open Judgement List Emission CodeScope FlowGraph Defect Instruction

namespace Emission

/-- There is a result, or the error is excused by the lack of `good`. -/
abbrev Succeeds {α : Type} (good : Prop) (x : Emission α) : Prop :=
  ((except good).state References).post x fun _ => True

variable {good : Prop} {α β : Type}

theorem succeeds_pure {a : α} : Succeeds good (pure a) :=
  fun _ => trivial

theorem Succeeds.bind {x : Emission α} {k : α → Emission β} (hx : Succeeds good x)
    (hk : ∀ a, Succeeds good (k a)) : Succeeds good (x >>= k) :=
  post_bind _ hx fun a _ => hk a

theorem post_ofDefect {x : Except Defect α} (hgood : good → ∃ a, x = .ok a) :
    ((except good).state References).post (liftM (EmitError.ofDefect x)) fun a => x = .ok a :=
  fun r => (holds_lift (s := r) (Judgement.post_ofDefect hgood fun _ h => h)).imp fun _ _ h => h.1

/-! ## Tokens and signatures -/

variable (t : TypeTable)

theorem succeeds_typeToken (type : TypeId) : Succeeds good (typeToken t type) := by
  unfold typeToken
  split <;> exact fun _ => trivial

theorem succeeds_typeSignature (place : String) {type : Option TypeId}
    (h : good → type.isSome = true) : Succeeds good (typeSignature t place type) := by
  cases type with
  | none =>
    intro r
    exact ⟨fun _ _ _ heq => (by cases heq), fun hgood => absurd (h hgood) Bool.false_ne_true⟩
  | some type =>
    unfold typeSignature
    dsimp only
    split
    · exact succeeds_pure
    · exact (succeeds_typeToken t type).bind fun _ => succeeds_pure

theorem succeeds_methodSignature (owner : TypeId) {m : Method} (h : good → m.Known) :
    Succeeds good (methodSignature t owner m) := by
  have hresult : ∀ place, Succeeds good (returnSignature t place m) := by
    intro place
    unfold returnSignature
    split
    · exact succeeds_pure
    next hvoid =>
      refine succeeds_typeSignature t place fun hgood => ?_
      rcases (h hgood).result with hsome | hctor
      · exact hsome
      · rw [hctor, Bool.true_or, Bool.and_true, Bool.not_eq_true, Option.isNone_eq_false_iff] at hvoid
        exact hvoid
  unfold methodSignature
  refine (hresult _).bind fun _ => ?_
  refine Succeeds.bind (post_mapM fun p hp => ?_) fun _ => succeeds_pure
  exact succeeds_typeSignature t _ fun hgood => (h hgood).params p hp

theorem succeeds_fieldSignature (owner : TypeDef) {f : Field}
    (h : good → f.type.isSome = true) : Succeeds good (fieldSignature t owner f) :=
  (succeeds_typeSignature t _ h).bind fun _ => succeeds_pure

section Table
variable {arity : Nat → Prop} {t : TypeTable} (ht : good → t.Complete arity)
include ht

theorem succeeds_methodToken {m : MethodRef} (hm : good → ∃ callee, t.methodEntry m = .ok callee) :
    Succeeds good (methodToken t m) := by
  unfold methodToken
  refine post_bind _ (post_ofDefect hm) fun callee hcallee => ?_
  have hmem := mem_of_getElem? (entry_eq_ok_iff.mp hcallee)
  split
  · exact succeeds_pure
  · refine (succeeds_methodSignature t m.type fun hgood => ((ht hgood m.type).methods callee hmem).1).bind fun _ => ?_
    exact (succeeds_typeToken t m.type).bind fun _ => fun _ => trivial

theorem succeeds_fieldToken {f : FieldRef} (hf : good → f.index < (t.get f.type).fields.length) :
    Succeeds good (fieldToken t f) := by
  unfold fieldToken
  have hentry : good → ∃ field, t.fieldEntry f = .ok field := fun hgood =>
    ⟨_, entry_eq_ok_iff.mpr (getElem?_eq_getElem (hf hgood))⟩
  refine post_bind _ (post_ofDefect hentry) fun field hfield => ?_
  have hmem := mem_of_getElem? (entry_eq_ok_iff.mp hfield)
  split
  · exact succeeds_pure
  · refine (succeeds_fieldSignature t _ fun hgood => (ht hgood f.type).fields field hmem).bind fun _ => ?_
    exact (succeeds_typeToken t f.type).bind fun _ => fun _ => trivial

end Table

end Emission

/-! ## Bodies -/

namespace CodeScope
variable {id : InstrId} {b : BindingId} {i : Instruction}

open Judgement (Holds)

/-- The body is in single-assignment form, and everything in it is known if `good`. -/
structure Ready (good : Prop) (e : CodeScope) : Prop where
  finished : e.graph.Finished
  straight : e.graph.Straight e.types e.decl
  complete : good → e.types.Complete (· < wordSize)
  typed : good → e.graph.Typed (· < wordSize) e.types

/-- The judgement about code: errors are excused, and references do not matter. -/
abbrev judgement (good : Prop) : Judgement Emission :=
  (except good).state References

variable {good : Prop} {e : CodeScope} {frame : Frame}

theorem holds_takeSlot (p : Place) {type : Option TypeId} (h : good → type.isSome = true) :
    (judgement good).Holds (e.takeSlot p type) frame fun _ frame' => frame'.places = frame.places ++ [p] := by
  unfold takeSlot
  exact holds_lift_bind (succeeds_typeSignature e.types e.name h) fun signature _ _ => rfl

theorem holds_storeResult (h : good → (e.resultType id).isSome = true) :
    (judgement good).Holds (e.storeResult id) frame fun _ frame' => frame'.places = frame.places ++ [.value id] :=
  (holds_takeSlot (.value id) h).bind fun _ _ hplaces => holds_pure hplaces

theorem holds_bindingSlot (h : good → ∃ p, e.graph.paramEntry b = .ok p ∧ p.type.isSome = true) :
    (judgement good).Holds (e.bindingSlot b) frame fun _ frame' => frame.places <+: frame'.places := by
  unfold bindingSlot
  refine holds_get ?_
  split
  · exact holds_pure prefix_rfl
  · refine holds_lift_bind (post_ofDefect fun hgood => ?_) fun p hp => ?_
    · obtain ⟨p, hp, -⟩ := h hgood
      exact ⟨p, hp⟩
    · refine (holds_takeSlot (.binding b) fun hgood => ?_).imp fun _ _ hplaces => ?_
      · obtain ⟨p', hp', hknown⟩ := h hgood
        cases hp.symm.trans hp'
        exact hknown
      · exact hplaces ▸ prefix_append _ _

theorem holds_loadValue (h : (frame.places.number? (.value id)).isSome = true) :
    (judgement good).Holds (e.loadValue id) frame fun _ frame' => frame' = frame := by
  obtain ⟨slot, hslot⟩ := Option.isSome_iff_exists.mp h
  unfold loadValue
  refine holds_get ?_
  rw [hslot]
  exact holds_pure rfl

theorem holds_loadValues {ids : List InstrId} (h : ∀ id ∈ ids, (frame.places.number? (.value id)).isSome = true)
    (hcount : good → ids.length < wordSize) :
    (judgement good).Holds (e.loadValues ids) frame fun _ frame' => frame' = frame := by
  unfold loadValues
  refine (Holds.mapM (I := fun _ frame' => frame' = frame) (fun done id rest hsplit mid hmid => ?_)
    rfl).bind fun loads mid hmid => ?_
  · subst hmid
    have hmem : id ∈ ids := mem_of_mem_take (hsplit ▸ mem_append_right _ mem_cons_self)
    exact holds_loadValue (h id hmem)
  · split
    · exact holds_pure hmid
    next hmany =>
      exact fun _ => ⟨fun _ _ _ heq => (by cases heq), fun hgood => hmany (hcount hgood)⟩

theorem succeeds_loadConstant (c : Constant) : Succeeds good (loadConstant c) := by
  cases c with
  | int kind v => cases kind <;> exact succeeds_pure
  | string s => exact fun _ => trivial
  | _ => exact succeeds_pure

/-! ## Instructions -/

variable (h : e.Ready good)
include h

theorem exists_param (hb : b ∈ e.graph.instructions.filterMap declared?)
    (hgood : good) : ∃ p, e.graph.paramEntry b = .ok p ∧ p.type.isSome = true := by
  obtain ⟨p, hmem, hp⟩ := h.finished.toAssigned.exists_paramEntry hb
  exact ⟨p, hp, (h.typed hgood).params p hmem⟩

theorem declared_of_loadLocal (hi : e.graph.instruction? id = some (.loadLocal b)) :
    b ∈ e.graph.instructions.filterMap declared? := by
  have hallowed : b ∈ _ := h.straight.allowed _ _ _ (split_of_instruction? hi)
  exact (take_sublist _ _).filterMap _ |>.subset hallowed

theorem isSome_resultType (hi : e.graph.instruction? id = some i)
    (hmade : i.isValue = true ∨ i.makesObject = true) (hgood : good) : (e.resultType id).isSome = true := by
  have htyped := (h.typed hgood).instructions i (mem_of_getElem? hi)
  rw [resultType, FlowGraph.resultType, hi]
  cases i with
  | constant value type | load type source | binary op type lhs rhs => exact htyped
  | newObject ctor args => rfl
  | loadArg arg =>
    cases arg with
    | this => rfl
    | param n =>
      have hn : n < e.decl.params.length :=
        h.straight.allowed _ _ _ (split_of_instruction? hi)
      dsimp only
      rw [getElem?_eq_getElem hn]
      exact (h.complete hgood).params e.method _ (getElem_mem hn)
  | loadLocal b =>
    obtain ⟨p, hp, hknown⟩ := exists_param h (declared_of_loadLocal h hi) hgood
    rw [← e.graph.param_of_paramEntry hp] at hknown
    exact hknown
  | alloca b type init | call m args | storeField f target value => rcases hmade with h | h <;> cases h

theorem exists_argIndex {arg : Argument} (hi : e.graph.instruction? id = some (.loadArg arg)) (hgood : good) :
    ∃ index, argIndex e.decl.isStatic arg = .ok index := by
  cases arg with
  | this => exact ⟨0, rfl⟩
  | param n =>
    have hn : n < e.decl.params.length :=
      h.straight.allowed _ _ _ (split_of_instruction? hi)
    have hcount : e.decl.params.length < wordSize := (h.complete hgood).arity_of_lt hn
    have hsmall : n % wordSize + 1 < wordSize := by
      rw [Nat.mod_eq_of_lt (by omega)]
      omega
    cases e.decl.isStatic with
    | true => exact ⟨_, rfl⟩
    | false => exact ⟨_, next_of_lt _ _ hsmall⟩

/-- The code of an instruction is made from the places of its operands, and what the instruction makes gets
a place. -/
theorem holds_instruction {done rest : Script} (hsplit : e.graph.script = done ++ (id, i) :: rest)
    (hcovers : frame.places.Covers done) : (judgement good).Holds (e.instruction id i) frame
      fun _ frame' => frame'.places.Covers (done ++ [(id, i)]) := by
  obtain ⟨hgraph, hi, -⟩ := split_of_instructionsOf h.straight.numbered hsplit
  have hplaced := h.finished.toAssigned.isSome_number? h.straight.numbered hsplit hcovers
  have htyped : good → i.Typed (· < wordSize) e.types :=
    fun hgood => (h.typed hgood).instructions i (mem_of_getElem? hi)
  -- a result gets the next place
  have hstore : ∀ (mid : Frame) (code : StackInstr → List StackInstr), frame.places <+: mid.places →
      (good → (e.resultType id).isSome = true) → (judgement good).Holds (do return code (← e.storeResult id)) mid
        fun _ frame' => frame'.places.Covers (done ++ [(id, i)]) := by
    intro mid code hmid hknown
    refine (holds_storeResult hknown).bind fun _ frame' hplaces => holds_pure ?_
    rw [hplaces]
    exact (hcovers.mono (hmid.trans (prefix_append _ _))).concat fun _ => Places.isSome_number?_append_self _ _
  -- an instruction without a result
  have hnone : ∀ mid : Frame, frame.places <+: mid.places → i.isValue = false → i.makesObject = false →
      mid.places.Covers (done ++ [(id, i)]) := by
    intro mid hmid hvalue hobject
    exact (hcovers.mono hmid).concat fun hmade => by simp [hvalue, hobject] at hmade
  have hcount : ∀ {n : Nat}, n ≤ 1 ∨ n < wordSize → n < wordSize :=
    fun hn => hn.elim (fun hfew => hfew.trans_lt (by decide)) fun hlt => hlt
  cases i with
  | constant value type =>
    refine holds_lift_bind (succeeds_loadConstant value) fun load _ => ?_
    exact hstore frame _ prefix_rfl (isSome_resultType h hi (Or.inl rfl))
  | load type source =>
    refine (holds_loadValue (hplaced source mem_cons_self)).bind_same fun load => ?_
    exact hstore frame _ prefix_rfl (isSome_resultType h hi (Or.inl rfl))
  | loadArg arg =>
    refine holds_lift_bind (post_ofDefect (exists_argIndex h hi)) fun index _ => ?_
    exact hstore frame _ prefix_rfl (isSome_resultType h hi (Or.inl rfl))
  | loadLocal b =>
    refine (holds_bindingSlot (exists_param h (declared_of_loadLocal h hi))).bind fun slot mid hmid => ?_
    exact hstore mid _ hmid (isSome_resultType h hi (Or.inl rfl))
  | alloca b type init =>
    have hdeclared : b ∈ e.graph.instructions.filterMap declared? :=
      mem_filterMap.mpr ⟨_, mem_of_getElem? hi, rfl⟩
    refine (holds_bindingSlot (exists_param h hdeclared)).bind fun slot mid hmid => ?_
    have hend := hnone mid hmid rfl rfl
    cases init with
    | none => exact holds_pure hend
    | some init =>
      have hinit := Places.isSome_number?_of_prefix (hplaced init mem_cons_self) hmid
      exact (holds_loadValue hinit).bind_same fun load => holds_pure hend
  | binary op type lhs rhs =>
    refine (holds_loadValue (hplaced lhs mem_cons_self)).bind_same fun left => ?_
    refine (holds_loadValue (hplaced rhs (mem_cons_of_mem _ mem_cons_self))).bind_same fun right => ?_
    exact hstore frame _ prefix_rfl (isSome_resultType h hi (Or.inl rfl))
  | call m args =>
    obtain ⟨callee, hcallee, -⟩ := h.straight.allowed _ _ _ hgraph
    refine (holds_loadValues hplaced fun hgood => hcount (htyped hgood)).bind_same fun loads => ?_
    refine holds_lift_bind (succeeds_methodToken h.complete fun _ => ⟨callee, hcallee⟩) fun token _ => ?_
    split
    next hyields =>
      refine hstore frame _ prefix_rfl fun _ => ?_
      rw [resultType, FlowGraph.resultType, hi]
      exact (Bool.and_eq_true_iff.mp hyields).1
    next => exact holds_pure (hnone frame prefix_rfl rfl rfl)
  | newObject ctor args =>
    obtain ⟨callee, hcallee, -⟩ := h.straight.allowed _ _ _ hgraph
    refine (holds_loadValues hplaced fun hgood => hcount (htyped hgood)).bind_same fun loads => ?_
    refine holds_lift_bind (succeeds_methodToken h.complete fun _ => ⟨callee, hcallee⟩) fun token _ => ?_
    exact hstore frame _ prefix_rfl (isSome_resultType h hi (Or.inr rfl))
  | storeField f target value =>
    refine (holds_loadValue (hplaced target mem_cons_self)).bind_same fun object => ?_
    refine (holds_loadValue (hplaced value (mem_cons_of_mem _ mem_cons_self))).bind_same fun load => ?_
    refine holds_lift_bind (succeeds_fieldToken h.complete htyped) fun token _ => ?_
    exact holds_pure (hnone frame prefix_rfl rfl rfl)

theorem holds_flow (hcovers : frame.places.Covers e.graph.script) :
    (judgement good).Holds (e.flow (e.graph.block .entry)) frame fun _ _ => True := by
  have hplaced : ∀ {id : InstrId} {i : Instruction}, e.graph.instruction? id = some i →
      i.isValue = true ∨ i.makesObject = true → (frame.places.number? (.value id)).isSome = true :=
    fun hi hmade => hcovers _ (mem_instructionsOf h.straight.numbered hi) hmade
  unfold flow
  split
  next value hflow =>
    obtain ⟨j, hj, hvalue⟩ := h.finished.returned value hflow
    exact (holds_loadValue (hplaced hj (Or.inl hvalue))).bind fun _ _ _ => holds_pure trivial
  next => exact holds_pure trivial
  next => exact holds_pure trivial
  next =>
    split
    next object hobject =>
      obtain ⟨-, hmakes⟩ := Option.filter_eq_some_iff.mp hobject
      split at hmakes
      next ctor args hi =>
        exact (holds_loadValue (hplaced hi (Or.inr rfl))).bind fun _ _ _ => holds_pure trivial
      next => cases hmakes
    next => exact holds_pure trivial

/-- The code of a body that is ready. -/
theorem succeeds_body : Succeeds good e.body := by
  have hinstructions : ∀ frame : Frame, (judgement good).Holds
      (e.graph.script.mapM fun x => e.instruction x.1 x.2) frame
        fun _ frame' => frame'.places.Covers e.graph.script :=
    fun frame => Holds.mapM (I := fun done (frame : Frame) => frame.places.Covers done)
      (fun done x rest hsplit mid hmid => holds_instruction h hsplit hmid) (Places.covers_nil _)
  have hblocks : (judgement good).Holds (e.graph.blocks.mapM e.block) {} fun _ _ => True := by
    rw [h.straight.blocks]
    refine Holds.mapM (I := fun _ _ => True) (fun done b rest hsplit mid _ => ?_) trivial
    have hb : b = e.graph.block .entry :=
      mem_singleton.mp (hsplit ▸ mem_append_right _ mem_cons_self)
    subst hb
    refine (hinstructions mid).bind fun _ mid' hcovers => ?_
    exact (holds_flow h hcovers).bind fun _ _ _ => holds_pure trivial
  exact post_bind _ hblocks fun _ _ => succeeds_pure

end CodeScope

/-! ## Rows -/

/-- All bodies are in single-assignment form, and everything is known if `good`. -/
structure Assembly.Ready (good : Prop) (a : Assembly) : Prop where
  bodies : ∀ m g, (a.types.method m).body = some g → g.Finished ∧ g.Straight a.types (a.types.method m)
  complete : good → a.types.Complete (· < wordSize)
  typed : good → ∀ m g, (a.types.method m).body = some g → g.Typed (· < wordSize) a.types
  entry : ∀ m, a.entryPoint = some m → ∃ method, a.types.methodEntry m = .ok method

namespace Emission
variable {good : Prop} {a : Assembly} (ha : a.Ready good) {m : Method}
include ha

theorem succeeds_attributeRows (attributes : List Attribute) : Succeeds good (attributeRows a.types attributes) := by
  refine post_mapM fun x _ => Succeeds.bind ?_ fun _ => succeeds_pure
  unfold attributeCtor
  split
  next ctor hctor =>
    obtain ⟨callee, hcallee, -⟩ := TypeTable.methodEntry_of_findMethod? hctor
    exact succeeds_methodToken ha.complete fun _ => ⟨callee, hcallee⟩
  next => exact (succeeds_typeToken _ _).bind fun _ => fun _ => trivial

theorem succeeds_fieldRow (owner : TypeDef) {f : Field} (hf : good → f.type.isSome = true) :
    Succeeds good (fieldRow a.types owner f) :=
  (succeeds_fieldSignature a.types owner hf).bind fun _ =>
    (succeeds_attributeRows ha f.attributes).bind fun _ => succeeds_pure

theorem succeeds_methodHeader (owner : TypeId) (hm : good → m.Known) : Succeeds good (methodHeader a.types owner m) :=
  (succeeds_methodSignature a.types owner hm).bind fun _ =>
    (succeeds_attributeRows ha m.attributes).bind fun _ => succeeds_pure

theorem succeeds_methodRow {ref : MethodRef} (hm : a.types.methodEntry ref = .ok m) :
    Succeeds good (methodRow a.types ref m) := by
  have hmem := mem_of_getElem? (entry_eq_ok_iff.mp hm)
  have hmethod := a.types.method_of_methodEntry ref m hm
  refine (succeeds_methodHeader ha ref.type fun hgood =>
    ((ha.complete hgood ref.type).methods m hmem).1).bind fun row => ?_
  split
  next graph hgraph =>
    rw [← hmethod] at hgraph
    obtain ⟨hfinished, hstraight⟩ := ha.bodies ref graph hgraph
    have hready : Ready good { types := a.types, method := ref, graph } :=
      ⟨hfinished, hstraight, ha.complete, fun hgood => ha.typed hgood ref graph hgraph⟩
    exact (succeeds_body hready).bind fun _ => succeeds_pure
  next => exact succeeds_pure

theorem succeeds_propertyRows (owner : TypeId) (before : Nat) {ps : List Property}
    (hps : good → ∀ p ∈ ps, p.Known) : Succeeds good (propertyRows a.types owner before ps) := by
  induction ps generalizing before with
  | nil => exact succeeds_pure
  | cons p ps ih =>
    have hrow : Succeeds good (propertyRow a.types owner before p) := by
      refine Succeeds.bind (post_mapM fun m hm => ?_) fun _ => ?_
      · exact (succeeds_methodHeader ha owner fun hgood =>
          (hps hgood p mem_cons_self).accessors m hm).bind fun _ => succeeds_pure
      · exact (succeeds_typeSignature a.types p.name fun hgood =>
          (hps hgood p mem_cons_self).type).bind fun _ =>
            (succeeds_attributeRows ha p.attributes).bind fun _ => succeeds_pure
    exact hrow.bind fun _ => (ih _ fun hgood q hq => hps hgood q (mem_cons_of_mem _ hq)).bind fun _ => succeeds_pure

theorem succeeds_typeDefRow (rows : TypeRows) : Succeeds good (typeDefRow a.types rows) := by
  unfold typeDefRow
  refine Succeeds.bind (post_optionMapM fun _ _ => succeeds_typeToken _ _) fun _ => ?_
  refine Succeeds.bind (post_mapM fun _ _ => succeeds_typeToken _ _) fun _ => ?_
  refine Succeeds.bind (post_mapM fun f hf => ?_) fun _ => ?_
  · exact succeeds_fieldRow ha _ fun hgood => (ha.complete hgood rows.type).fields f hf
  refine Succeeds.bind (post_mapM fun m hm => ?_) fun _ => ?_
  · exact succeeds_methodRow ha (entry_eq_ok_iff.mpr (mem_zipIdx_iff_getElem?.mp hm))
  refine (succeeds_propertyRows ha rows.type _ fun hgood =>
    (ha.complete hgood rows.type).properties).bind fun _ => ?_
  exact (succeeds_attributeRows ha _).bind fun _ => succeeds_pure

theorem succeeds_imageRows : Succeeds good (imageRows a) := by
  unfold imageRows
  refine (succeeds_attributeRows ha _).bind fun _ => ?_
  refine Succeeds.bind (post_mapM fun rows _ => succeeds_typeDefRow ha rows) fun _ => ?_
  refine Succeeds.bind (post_optionMapM fun m hm => ?_) fun _ => succeeds_pure
  exact succeeds_methodToken ha.complete fun _ => ha.entry m hm

end Emission

theorem Assembly.excused_of_image {good : Prop} {a : Assembly} (ha : a.Ready good) {e : EmitError}
    (h : a.image = .error e) : e.Excused good := by
  have hpost : (except good).post a.image fun _ => True :=
    (except good).post_bind (succeeds_imageRows ha {}) fun _ _ => trivial
  rw [h] at hpost
  exact hpost

namespace Compilation

/-- A lowered program is ready for emission, as a good one if it has no diagnostics and no method has more
parameters than can be counted. -/
theorem ready_lowered (trees : List Tree) (options : Options) {good : Prop}
    (hsilent : good → (lowered trees options).diagnostics = [])
    (hcounts : good → ∀ t ∈ trees, ∀ d ∈ t.body, ∀ n ∈ d.arities, n < wordSize) :
    (lowered trees options).assembly.Ready good := by
  have hlawful := lawful_lowered trees options
  have hsound : (lowered trees options).context.Sound fun n => good → n < wordSize :=
    sound_lowered (fun n hn _ => hn.trans (by decide))
      (fun t ht d hd n hn hgood => hcounts hgood t ht d hd n hn) options
  have hcount : good → (fun n => good → n < wordSize) = (· < wordSize) := by
    intro hgood
    funext n
    exact propext ⟨fun hn => hn hgood, fun hn _ => hn⟩
  refine ⟨fun m g hg => ⟨hsound.finished m g hg, (hlawful.bodies m g hg).1⟩, fun hgood => ?_,
    fun hgood => ?_, fun m hm => ?_⟩
  · exact hcount hgood ▸ hsound.complete (hsilent hgood)
  · exact hcount hgood ▸ hsound.typed (hsilent hgood)
  · obtain ⟨-, method, hmethod, -⟩ := hsound.entry m hm
    exact ⟨method, hmethod⟩

/-- A program without diagnostics has an image, if no function or method has more than 65535 parameters and
no variant of a union more than 65535 fields. -/
theorem image_eq_ok (trees : List Tree) (options : Options)
    (hcounts : ∀ t ∈ trees, ∀ d ∈ t.body, ∀ n ∈ d.arities, n ≤ 65535)
    (hsilent : (lowered trees options).diagnostics = []) :
    ∃ image, (lowered trees options).assembly.image = .ok image := by
  have hready : (lowered trees options).assembly.Ready True :=
    ready_lowered trees options (fun _ => hsilent)
      fun _ t ht d hd n hn => Nat.lt_succ_of_le (hcounts t ht d hd n hn)
  cases himage : (lowered trees options).assembly.image with
  | ok image => exact ⟨image, rfl⟩
  | error e => exact absurd trivial (Assembly.excused_of_image hready himage).bad

/-- A union with two variants, a class that holds one of them, and a function that computes, prints and
throws. -/
def shapeTree : Tree where
  module := ⟨["Demo"]⟩
  body := [
    .type {
      kind := .classType
      name := "Canvas"
      members := [
        .field { name := "first", type := .named ⟨["Circle"]⟩ {} },
        .property { name := "title", type := .named ⟨["string"]⟩ {}, getter := some {} },
        .method {
          name := "scale"
          params := [{ name := "factor", type := .named ⟨["i64"]⟩ {} }]
          returnType := some (.named ⟨["i64"]⟩ {})
          body := some [
            .var "twice" none (some (.binary .mul (.ofName "factor") (.ofInt 2) {})) {},
            .ret (some (.ofName "twice")) {}] }] },
    .taggedUnion {
      name := "Shape"
      variants := [
        { name := "Circle", fields := [{ name := "radius", type := .named ⟨["f64"]⟩ {} }] },
        { name := "Empty" }] },
    .fn {
      name := "main"
      body := some [
        .call (.unqualified "print") [.ofString "shapes", .ofInt 2] {},
        .throw (.ofString "done") {}] }]

theorem image_eq_ok_shapeTree :
    ((∀ t ∈ [shapeTree], ∀ d ∈ t.body, ∀ n ∈ d.arities, n ≤ 65535) ∧
      (lowered [shapeTree] {}).diagnostics = []) ∧
      ∃ image, (lowered [shapeTree] {}).assembly.image = .ok image := by
  have hcounts : ∀ t ∈ [shapeTree], ∀ d ∈ t.body, ∀ n ∈ d.arities, n ≤ 65535 := by decide
  have hsilent : (lowered [shapeTree] {}).diagnostics = [] := by decide +kernel
  exact ⟨⟨hcounts, hsilent⟩, image_eq_ok [shapeTree] {} hcounts hsilent⟩

end Compilation

end TreeCompiler
