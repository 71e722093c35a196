import TreeCompiler.Proofs.Emission
import TreeCompiler.Proofs.Image.Naming
import TreeCompiler.Proofs.Image.Numbering
import TreeCompiler.Proofs.Reading.Text

/-!
# What the image of an assembly reads

If all handles in an assembly lead somewhere, its image follows none that leads nowhere: the building never
stops at one, and what stands past the end of the table of types makes no difference. Nor do the places where
anything stands in a source.

* `Emission.Alike x y` : `x` and `y` build the same and stop at no handle that leads nowhere; one lemma for
  each part of an image;
* `CodeScope.alike_instruction`, `CodeScope.alike_body` : the code of a method.
-/

namespace TreeCompiler

open Emission Judgement List TypeTable

variable {t : TypeTable}

/-! ## Rows -/

theorem Property.accessors_gist (p : Property) : p.gist.getter.toList ++ p.gist.setter.toList =
    (p.getter.toList ++ p.setter.toList).map Method.gist := by
  rw [map_append, ← Option.toList_map, ← Option.toList_map]
  rfl

theorem TypeDef.methodRowCount_gist (d : TypeDef) : d.gist.methodRowCount = d.methodRowCount := by
  unfold methodRowCount accessors
  simp [flatMap_map, Property.accessors_gist]

theorem number_gist (row fields methods : Nat) (ds : List (TypeId × TypeDef)) :
    TypeRows.number row fields methods (ds.map (Prod.map id TypeDef.gist)) =
      TypeRows.number row fields methods ds := by
  induction ds generalizing row fields methods with
  | nil => rfl
  | cons d ds ih =>
    obtain ⟨type, d⟩ := d
    rw [map_cons, Prod.map_apply, TypeRows.number, TypeRows.number, ih, TypeDef.methodRowCount_gist,
      TypeDef.fields_gist, length_map]
    rfl

/-- The types that an image refers to of its own accord are in the table. -/
structure TypeTable.HasCore (t : TypeTable) : Prop where
  primitives : ∀ p, (t.primitive? p).isSome = true
  valueType : (t.system? "ValueType").isSome = true
  framework : (t.lookup Platform.targetFrameworkName).isSome = true

theorem any_congr {α : Type} {p q : α → Bool} {as : List α} (h : ∀ a ∈ as, p a = q a) : as.any p = as.any q := by
  rw [Bool.eq_iff_iff, any_eq_true, any_eq_true]
  exact exists_congr fun a => and_congr_right fun ha => by rw [h a ha]

namespace Emission

/-- The types that are referred to are in the table. -/
def Within (t : TypeTable) (r : References) : Prop :=
  ∀ id ∈ r.types, id.index < t.size

/-- Both build the same, refer to types of the table and stop at no handle that leads nowhere. -/
abbrev Alike {α : Type} (t : TypeTable) (x y : Emission α) : Prop :=
  (within.keeping (Within t)).Alike x y

open Judgement (alike_pure alike_mapM alike_optionMapM)

theorem alike_throw {α : Type} {e : EmitError} (h : ∀ length index, e ≠ .defect (.outOfBounds length index)) :
    Alike t (throw e : Emission α) (throw e) :=
  ⟨rfl, fun _ _ => h⟩

theorem alike_memberToken (t : TypeTable) (m : MemberRefRow) : Alike t (memberToken m) (memberToken m) :=
  alike_modifyGet_keeping fun _ hr => hr

section Table
variable {t t' : TypeTable} (h : t.ReadsAs t') {owner : TypeId} {m : Method} {f : Field}
  {attributes : List Attribute}
include h

/-! ## Tokens and signatures -/

theorem typeRows_congr : t'.typeRows = t.typeRows := by
  have hrows : ∀ t : TypeTable, t.gist.typeRows = t.typeRows := by
    intro t
    rw [typeRows, defined_gist, number_gist, typeRows]
  rw [← hrows t', typeRows, h.defined, ← typeRows, hrows t]

theorem rowsOf?_congr (type : TypeId) : t'.rowsOf? type = t.rowsOf? type := by
  unfold rowsOf?
  rw [typeRows_congr h]

theorem alike_typeToken {type : TypeId} (htype : type.index < t.size) :
    Alike t (typeToken t' type) (typeToken t type) := by
  unfold typeToken
  rw [rowsOf?_congr h]
  split
  · exact alike_pure
  · refine alike_modifyGet_keeping fun r hr id hid => ?_
    rcases mem_of_mem_intern hid with hold | rfl
    · exact hr id hold
    · exact htype

theorem alike_typeSignature (place : String) {type : Option TypeId} (htype : t.Covers type) :
    Alike t (typeSignature t' place type) (typeSignature t place type) := by
  cases type with
  | none => exact alike_throw fun _ _ heq => by cases heq
  | some id =>
    have hprimitive := h.read (f := TypeDef.primitive) (fun _ => rfl) (htype id rfl)
    have hvalue := h.read (f := TypeDef.isValueType) (fun _ => rfl) (htype id rfl)
    unfold typeSignature
    dsimp only
    rw [hprimitive, hvalue]
    split
    · exact alike_pure
    · exact (alike_typeToken h (htype id rfl)).bind fun _ => alike_pure

theorem alike_methodSignature (howner : owner.index < t.size) (hm : m.Bounded t) :
    Alike t (methodSignature t' owner m) (methodSignature t owner m) := by
  have hresult : ∀ place, Alike t (returnSignature t' place m) (returnSignature t place m) := by
    intro place
    unfold returnSignature
    split
    · exact alike_pure
    · exact alike_typeSignature h place hm.result
  unfold methodSignature
  rw [h.name howner]
  refine (hresult _).bind fun _ => ?_
  refine (alike_mapM fun p hp => ?_).bind fun _ => alike_pure
  exact alike_typeSignature h _ (hm.params p hp)

theorem alike_fieldSignature {owner owner' : TypeDef} (hname : owner'.name = owner.name) (hf : f.Bounded t) :
    Alike t (fieldSignature t' owner' f) (fieldSignature t owner f) := by
  unfold fieldSignature
  rw [hname]
  exact (alike_typeSignature h _ hf.type).bind fun _ => alike_pure

/-! ## Members -/

variable (ht : t.Bounded)
include ht

theorem alike_methodToken {m : MethodRef} (hm : t.HasMethod m) : Alike t (methodToken t' m) (methodToken t m) := by
  obtain ⟨callee, hcallee⟩ := hasMethod_iff.mp hm
  have hmem : callee ∈ (t.get m.type).methods :=
    mem_of_getElem? (Defect.entry_eq_ok_iff.mp hcallee)
  obtain ⟨span, hcallee'⟩ := h.methodEntry hm.1 hcallee
  unfold methodToken
  rw [EmitError.ofDefect_bind hcallee', EmitError.ofDefect_bind hcallee, rowsOf?_congr h]
  split
  · exact alike_pure
  · refine (alike_methodSignature h hm.1 ((ht.get hm.1).methods callee hmem)).bind fun _ => ?_
    exact (alike_typeToken h hm.1).bind fun _ => alike_memberToken t _

theorem alike_fieldToken {f : FieldRef} (hf : t.HasField f) : Alike t (fieldToken t' f) (fieldToken t f) := by
  have hlt : f.index < (t.get f.type).fields.length := hf.2
  have hfield : t.fieldEntry f = .ok (t.get f.type).fields[f.index] :=
    Defect.entry_eq_ok_iff.mpr (getElem?_eq_getElem hlt)
  obtain ⟨span, hfield'⟩ := h.fieldEntry hf.1 hfield
  unfold fieldToken
  rw [EmitError.ofDefect_bind hfield', EmitError.ofDefect_bind hfield, rowsOf?_congr h]
  split
  · exact alike_pure
  · refine (alike_fieldSignature h (h.name hf.1) ((ht.get hf.1).fields _ (getElem_mem hlt))).bind fun _ => ?_
    exact (alike_typeToken h hf.1).bind fun _ => alike_memberToken t _

/-! ## Attributes -/

theorem alike_attributeRows (hattributes : t.HasAttributes attributes) :
    Alike t (attributeRows t' attributes) (attributeRows t attributes) := by
  refine alike_mapM fun a ha => ?_
  have hfind : t'.findMethod? a.type ".ctor" a.args.length = t.findMethod? a.type ".ctor" a.args.length := by
    rw [← findMethod?_gist, findMethod?, get_gist, h.get a.type (hattributes a ha), ← get_gist,
      ← findMethod?, findMethod?_gist]
  have hctor : Alike t (attributeCtor t' a) (attributeCtor t a) := by
    unfold attributeCtor
    rw [hfind]
    split
    next ctor hctor => exact alike_methodToken h ht (hasMethod_of_findMethod? hctor)
    next => exact (alike_typeToken h (hattributes a ha)).bind fun _ => alike_memberToken t _
  exact hctor.bind fun _ => alike_pure

omit ht in
theorem marksSpecialName_congr (hattributes : t.HasAttributes attributes) :
    marksSpecialName t' attributes = marksSpecialName t attributes := by
  refine any_congr fun a ha => ?_
  rw [h.name (hattributes a ha)]

/-! ## Rows of fields and methods -/

theorem alike_fieldRow (owner : TypeDef) (hf : f.Bounded t) : Alike t (fieldRow t' owner f) (fieldRow t owner f) := by
  have hflags : f.flags t' = f.flags t := by
    unfold Field.flags
    rw [marksSpecialName_congr h hf.attributes]
  unfold fieldRow
  rw [hflags]
  refine (alike_fieldSignature h rfl hf).bind fun _ => ?_
  exact (alike_attributeRows h ht hf.attributes).bind fun _ => alike_pure

theorem alike_methodHeader (howner : owner.index < t.size) (hm : m.Bounded t) :
    Alike t (methodHeader t' owner m) (methodHeader t owner m) := by
  have hflags : m.flags t' = m.flags t := by
    unfold Method.flags
    rw [marksSpecialName_congr h hm.attributes]
  unfold methodHeader
  rw [hflags]
  refine (alike_methodSignature h howner hm).bind fun _ => ?_
  exact (alike_attributeRows h ht hm.attributes).bind fun _ => alike_pure

end Table

end Emission

/-! ## Code -/

theorem FlowGraph.resultType_congr {t' : TypeTable} (h : t.ReadsAs t') {g : FlowGraph} (hg : g.Bounded t)
    (owner : TypeId) (m : Method) (id : InstrId) : g.resultType t' owner m id = g.resultType t owner m id := by
  unfold resultType
  cases hi : g.instruction? id with
  | none => rfl
  | some i =>
    cases i with
    | call callee args => exact h.readMethod (f := Method.returnType) (fun _ => rfl) (hg.instruction hi).refers
    | loadArg arg => cases arg <;> rfl
    | _ => rfl

namespace CodeScope

open Judgement (alike_pure alike_mapM alike_get)
variable {α : Type}

/-- Both make the same code and stop at no handle that leads nowhere. -/
abbrev Alike (t : TypeTable) (x y : Coding α) : Prop :=
  ((within.keeping (Emission.Within t)).state Frame).Alike x y

def withTypes (e : CodeScope) (types : TypeTable) : CodeScope :=
  { e with types }

/-- The method is there, and all handles in its body lead somewhere. -/
structure Fits (e : CodeScope) : Prop where
  types : e.types.Bounded
  core : e.types.HasCore
  method : e.types.HasMethod e.method
  graph : e.graph.Bounded e.types

theorem alike_throw {e : EmitError} (h : ∀ length index, e ≠ .defect (.outOfBounds length index)) :
    Alike t (throw e : Coding α) (throw e) :=
  ⟨rfl, fun _ _ _ => h⟩

theorem alike_loadConstant (t : TypeTable) (c : Constant) : Emission.Alike t (loadConstant c) (loadConstant c) := by
  cases c with
  | int kind v => cases kind <;> exact alike_pure
  | string s => exact (alike_modifyGet_keeping fun _ hr => hr).bind fun _ => alike_pure
  | _ => exact alike_pure

theorem alike_argIndex (isStatic : Bool) (arg : Argument) : within.Alike
    (EmitError.ofDefect (argIndex isStatic arg)) (EmitError.ofDefect (argIndex isStatic arg)) := by
  cases arg with
  | this => exact alike_pure
  | param i =>
    cases isStatic with
    | true => exact alike_pure
    | false => exact alike_next _ _

section Scope
variable {e : CodeScope} {t' : TypeTable} (h : e.types.ReadsAs t') (he : e.Fits) {type : Option TypeId}
  {i : Instruction} (s : StackSize) (b : Block)
include h he

theorem name_congr : (e.withTypes t').name = e.name :=
  h.methodName he.method

variable (id : InstrId)

theorem resultType_congr : (e.withTypes t').resultType id = e.resultType id :=
  (FlowGraph.resultType_congr h he.graph _ _ id).trans
    (h.readMethod (f := (e.graph.resultType e.types e.method.type · id)) (fun _ => rfl) he.method)

theorem alike_takeSlot (p : Place) (htype : e.types.Covers type) :
    Alike e.types ((e.withTypes t').takeSlot p type) (e.takeSlot p type) := by
  unfold takeSlot
  rw [name_congr h he]
  exact (alike_typeSignature h e.name htype).lift.bind fun _ => alike_modifyGet _

theorem alike_storeResult : Alike e.types ((e.withTypes t').storeResult id) (e.storeResult id) := by
  unfold storeResult
  rw [resultType_congr h he]
  exact (alike_takeSlot h he _ (he.graph.resultType he.types he.method id)).bind fun _ => alike_pure

theorem alike_bindingSlot {b : BindingId} (hb : e.graph.HasBinding b) :
    Alike e.types ((e.withTypes t').bindingSlot b) (e.bindingSlot b) := by
  unfold bindingSlot
  refine alike_get.bind fun frame => ?_
  split
  · exact alike_pure
  · change Alike e.types (liftM (EmitError.ofDefect (e.graph.paramEntry b)) >>= _) _
    rw [hb.paramEntry_eq]
    exact alike_takeSlot h he (.binding b) (he.graph.param b)

theorem alike_loadValue : Alike e.types ((e.withTypes t').loadValue id) (e.loadValue id) := by
  unfold loadValue
  rw [name_congr h he]
  refine alike_get.bind fun frame => ?_
  split
  · exact alike_pure
  · exact alike_throw fun _ _ heq => by cases heq

theorem alike_loadValues (ids : List InstrId) :
    Alike e.types ((e.withTypes t').loadValues ids) (e.loadValues ids) := by
  unfold loadValues
  refine (alike_mapM fun id _ => alike_loadValue h he id).bind fun loads => ?_
  split
  · exact alike_pure
  · exact alike_throw fun _ _ heq => by cases heq

omit he in
theorem isUnsigned_congr (htype : e.types.Covers type) : (e.withTypes t').isUnsigned type = e.isUnsigned type := by
  cases type with
  | none => rfl
  | some id =>
    unfold isUnsigned primitiveOf?
    simp only [Option.bind_some]
    rw [show ((e.withTypes t').types.get id).primitive = _ from h.read (fun _ => rfl) (htype id rfl)]

theorem yields_congr {m : MethodRef} (hm : e.types.HasMethod m) : (e.withTypes t').yields m = e.yields m := by
  have hvoid : t'.primitive? .void = e.types.primitive? .void := h.lookup _ (he.core.primitives .void)
  unfold yields
  change ((t'.method m).returnType.isSome && (t'.method m).returnType != t'.primitive? .void) = _
  rw [hvoid, h.readMethod (f := Method.returnType) (fun _ => rfl) hm]

/-! ## Instructions -/

theorem alike_instruction (hi : i.Bounded e.types e.graph) :
    Alike e.types ((e.withTypes t').instruction id i) (e.instruction id i) := by
  have hstore := alike_storeResult h he id
  cases i with
  | constant value type =>
    exact (alike_loadConstant e.types value).lift.bind fun _ => hstore.bind fun _ => alike_pure
  | load type source =>
    exact (alike_loadValue h he source).bind fun _ => hstore.bind fun _ => alike_pure
  | loadArg arg =>
    unfold instruction
    dsimp only
    rw [show ((e.withTypes t').types.method (e.withTypes t').method).isStatic = _ from
      h.readMethod (fun _ => rfl) he.method]
    exact ((alike_argIndex _ arg).liftKeeping _).lift.bind fun _ => hstore.bind fun _ => alike_pure
  | loadLocal b =>
    exact (alike_bindingSlot h he hi.refers).bind fun _ => hstore.bind fun _ => alike_pure
  | alloca b type init =>
    refine (alike_bindingSlot h he hi.refers.1).bind fun _ => ?_
    cases init with
    | none => exact alike_pure
    | some init => exact (alike_loadValue h he init).bind fun _ => alike_pure
  | binary op type lhs rhs =>
    unfold instruction
    dsimp only
    have hleft : e.types.Covers (e.resultType lhs) := he.graph.resultType he.types he.method lhs
    rw [resultType_congr h he, isUnsigned_congr h hleft, isUnsigned_congr h hi.refers]
    refine (alike_loadValue h he lhs).bind fun _ => (alike_loadValue h he rhs).bind fun _ => ?_
    exact hstore.bind fun _ => alike_pure
  | call m args =>
    unfold instruction
    dsimp only
    rw [yields_congr h he hi.refers]
    refine (alike_loadValues h he args).bind fun _ => ?_
    refine (alike_methodToken h he.types hi.refers).lift.bind fun _ => ?_
    split
    · exact hstore.bind fun _ => alike_pure
    · exact alike_pure
  | newObject ctor args =>
    refine (alike_loadValues h he args).bind fun _ => ?_
    refine (alike_methodToken h he.types hi.refers).lift.bind fun _ => ?_
    exact hstore.bind fun _ => alike_pure
  | storeField field target value =>
    refine (alike_loadValue h he target).bind fun _ => (alike_loadValue h he value).bind fun _ => ?_
    exact (alike_fieldToken h he.types hi.refers).lift.bind fun _ => alike_pure

theorem alike_flow : Alike e.types ((e.withTypes t').flow b) (e.flow b) := by
  have hthrown : (e.withTypes t').thrown? b = e.thrown? b := rfl
  unfold flow
  rw [hthrown]
  split
  · exact (alike_loadValue h he _).bind fun _ => alike_pure
  · exact alike_pure
  · exact alike_pure
  · split
    · exact (alike_loadValue h he _).bind fun _ => alike_pure
    · exact alike_pure

theorem alike_block : Alike e.types ((e.withTypes t').block b) (e.block b) := by
  refine (alike_mapM fun x hx => ?_).bind fun _ => (alike_flow h he b).bind fun _ => alike_pure
  exact alike_instruction h he x.1 (he.graph.of_mem_instructionsOf hx)

theorem count_congr (hi : i.Refers e.types e.graph) : (e.withTypes t').count s i = e.count s i := by
  cases i with
  | call m args =>
    unfold count
    dsimp only
    rw [yields_congr h he hi]
  | alloca b type init => cases init <;> rfl
  | _ => rfl

theorem countBlock_congr : (e.withTypes t').countBlock s b = e.countBlock s b := by
  have hfold : (e.graph.instructionsOf b).foldl (fun s i => (e.withTypes t').count s i.2) s =
      (e.graph.instructionsOf b).foldl (fun s i => e.count s i.2) s :=
    foldl_ext _ _ _ fun s x hx => count_congr h he s (he.graph.of_mem_instructionsOf hx).refers
  unfold countBlock
  rw [← hfold]
  rfl

theorem maxStack_congr : (e.withTypes t').maxStack = e.maxStack := by
  unfold maxStack
  rw [show (e.withTypes t').countBlock = e.countBlock from funext₂ (countBlock_congr h he)]
  rfl

/-- The code of a method whose handles lead somewhere. -/
theorem alike_body : Emission.Alike e.types (e.withTypes t').body e.body := by
  unfold body
  rw [maxStack_congr h he]
  exact ((alike_mapM fun b _ => alike_block h he b).run {}).bind fun _ => alike_pure

end Scope

end CodeScope

/-! ## Rows of types -/

theorem TypeDef.flags_congr {t' : TypeTable} (h : t.ReadsAs t') {d : TypeDef} (hd : d.Bounded t) :
    d.flags t' = d.flags t := by
  have hlayout : d.hasExplicitLayout t' = d.hasExplicitLayout t := by
    refine any_congr fun a ha => ?_
    rw [h.name (hd.attributes a ha)]
  unfold flags layoutFlags
  rw [hlayout]

namespace Emission

open Judgement (alike_pure alike_mapM alike_optionMapM)

section Table
variable {t t' : TypeTable} (h : t.ReadsAs t') (ht : t.Bounded) {owner : TypeId} {d : TypeDef}
include h ht

theorem alike_methodRow (hcore : t.HasCore) {ref : MethodRef} (href : t.HasMethod ref) {m : Method}
    (hm : m.Bounded t) : Alike t (methodRow t' ref m) (methodRow t ref m) := by
  refine (alike_methodHeader h ht href.1 hm).bind fun row => ?_
  split
  next g hg =>
    have hfits : CodeScope.Fits { types := t, method := ref, graph := g } := ⟨ht, hcore, href, hm.body g hg⟩
    exact (CodeScope.alike_body h hfits).bind fun _ => alike_pure
  next => exact alike_pure

theorem alike_propertyRow (howner : owner.index < t.size) (before : Nat) {p : Property} (hp : p.Bounded t) :
    Alike t (propertyRow t' owner before p) (propertyRow t owner before p) := by
  refine Judgement.Alike.bind (alike_mapM fun m hm => ?_) fun _ => ?_
  · exact (alike_methodHeader h ht howner (hp.accessors m hm)).bind fun _ => alike_pure
  · refine (alike_typeSignature h p.name hp.type).bind fun _ => ?_
    exact (alike_attributeRows h ht hp.attributes).bind fun _ => alike_pure

theorem alike_propertyRows (howner : owner.index < t.size) (before : Nat) {ps : List Property}
    (hps : ∀ p ∈ ps, p.Bounded t) : Alike t (propertyRows t' owner before ps) (propertyRows t owner before ps) := by
  induction ps generalizing before with
  | nil => exact alike_pure
  | cons p ps ih =>
    refine (alike_propertyRow h ht howner before (hps p mem_cons_self)).bind fun row => ?_
    exact (ih _ fun q hq => hps q (mem_cons_of_mem _ hq)).bind fun _ => alike_pure

omit ht in
theorem classBase?_congr (hd : d.Bounded t) : classBase? t' d = classBase? t d := by
  unfold classBase?
  cases hbase : d.baseClass? with
  | none => rfl
  | some base =>
    have hlt : base.index < t.size := hd.bases base (mem_of_mem_head? hbase)
    simp only [Option.filter, h.read (f := TypeDef.isInterface) (fun _ => rfl) hlt]

omit ht in
theorem alike_baseToken (hcore : t.HasCore) (hd : d.Bounded t) : Alike t (baseToken t' d) (baseToken t d) := by
  have hobject : t'.primitive? .object = t.primitive? .object := h.lookup _ (hcore.primitives .object)
  unfold baseToken
  rw [classBase?_congr h hd, hobject]
  refine alike_optionMapM fun base hbase => alike_typeToken h ?_
  rcases Option.or_eq_some_iff.mp hbase with hclass | ⟨-, hroot⟩
  · have hfirst := Option.filter_eq_some_iff.mp hclass
    exact hd.bases base (mem_of_mem_head? hfirst.1)
  · split at hroot
    · cases hroot
    · exact t.covers_primitive? .object base hroot

omit ht in
theorem layout?_congr (hcore : t.HasCore) (hd : d.Bounded t) : layout? t' d = layout? t d := by
  have hvalue : t'.system? "ValueType" = t.system? "ValueType" := h.lookup _ hcore.valueType
  unfold layout?
  rw [classBase?_congr h hd, hvalue]

omit h ht in
theorem propertyRows_gist (owner : TypeId) (before : Nat) (ps : List Property) :
    propertyRows t owner before (ps.map Property.gist) = propertyRows t owner before ps := by
  have hrow : ∀ before (p : Property), propertyRow t owner before p.gist = propertyRow t owner before p := by
    intro before p
    have haccessor : accessorRow t owner ∘ Method.gist = accessorRow t owner := rfl
    unfold propertyRow
    rw [p.accessors_gist, mapM_map, haccessor]
    simp [Property.gist, Function.comp_def, Option.toList_map]
  induction ps generalizing before with
  | nil => rfl
  | cons p ps ih => simp [propertyRows, hrow, ih]

theorem alike_typeDefRow (hcore : t.HasCore) {rows : TypeRows} (hrows : rows.type.index < t.size) :
    Alike t (typeDefRow t' rows) (typeDefRow t rows) := by
  have hd := ht.get hrows
  have hinterfaces : ((t.get rows.type).bases.filter fun b => (t'.get b).isInterface) =
      (t.get rows.type).bases.filter fun b => (t.get b).isInterface := by
    refine filter_congr fun b hb => ?_
    rw [h.read (f := TypeDef.isInterface) (fun _ => rfl) (hd.bases b hb)]
  -- the type itself is read without its places
  have hfields := h.read (f := fun d => d.fields.mapM (fieldRow t' d)) (fun d => mapM_map ..) hrows
  have hmethods := h.read (f := fun d => d.methods.zipIdx.mapM fun x => methodRow t' ⟨rows.type, x.2⟩ x.1)
    (fun d => by rw [TypeDef.methods_gist, zipIdx_map, mapM_map]; rfl) hrows
  have hproperties := h.read
    (f := fun d => propertyRows t' rows.type (rows.methodsBefore + d.methods.length) d.properties)
    (fun d => by simp [propertyRows_gist]) hrows
  unfold typeDefRow
  dsimp only
  rw [hfields, hmethods, hproperties, h.read (f := baseToken t') (fun _ => rfl) hrows,
    h.read (f := TypeDef.bases) (fun _ => rfl) hrows, h.read (f := TypeDef.attributes) (fun _ => rfl) hrows,
    h.read (f := TypeDef.flags t') (fun _ => rfl) hrows, h.read (f := layout? t') (fun _ => rfl) hrows, h.name hrows,
    TypeDef.flags_congr h hd, layout?_congr h hcore hd, hinterfaces]
  refine (alike_baseToken h hcore hd).bind fun _ => ?_
  refine (alike_mapM fun b hb => alike_typeToken h (hd.bases b (mem_of_mem_filter hb))).bind fun _ => ?_
  refine (alike_mapM fun f hf => alike_fieldRow h ht _ (hd.fields f hf)).bind fun _ => ?_
  refine (alike_mapM fun x hx => ?_).bind fun _ => ?_
  · obtain ⟨m, i⟩ := x
    obtain ⟨hi, hm⟩ := List.getElem?_eq_some_iff.mp (List.mk_mem_zipIdx_iff_getElem?.mp hx)
    exact alike_methodRow h ht hcore ⟨hrows, hi⟩ (hd.methods m (fst_mem_of_mem_zipIdx hx))
  · refine (alike_propertyRows h ht hrows _ hd.properties).bind fun _ => ?_
    exact (alike_attributeRows h ht hd.attributes).bind fun _ => alike_pure

end Table

end Emission

/-! ## Images -/

theorem TypeTable.lt_size_of_mem_typeRows {rows : TypeRows} (h : rows ∈ t.typeRows) : rows.type.index < t.size := by
  have hmem : rows.type ∈ t.defined.map Prod.fst := t.typeRows_map_type ▸ mem_map_of_mem h
  obtain ⟨d, hd, htype⟩ := mem_map.mp hmem
  rw [← htype]
  exact (List.getElem?_eq_some_iff.mp (mem_numbered_iff.mp (List.mem_of_mem_filter hd))).1

namespace Assembly.Bounded
variable {a : Assembly} (ha : a.Bounded) (hcore : a.types.HasCore) {types : TypeTable}
  (h : a.types.ReadsAs types)
include ha hcore h

theorem alike_imageRows : Emission.Alike a.types (imageRows (a.withTypes types)) (imageRows a) := by
  have hframework : frameworkAttribute? types = frameworkAttribute? a.types := by
    unfold frameworkAttribute?
    rw [h.lookup _ hcore.framework]
  have hattributes : a.types.HasAttributes (frameworkAttribute? a.types).toList := by
    intro x hx
    obtain ⟨type, htype, rfl⟩ := Option.map_eq_some_iff.mp (Option.mem_toList.mp hx)
    exact a.types.covers_lookup _ type htype
  unfold imageRows Assembly.withTypes
  dsimp only
  rw [hframework, typeRows_congr h]
  refine (alike_attributeRows h ha.types hattributes).bind fun _ => ?_
  refine (alike_mapM fun rows hmem =>
    alike_typeDefRow h ha.types hcore (lt_size_of_mem_typeRows hmem)).bind fun _ => ?_
  refine (alike_optionMapM fun m hm =>
    alike_methodToken h ha.types (ha.entry m hm)).bind fun _ => ?_
  exact alike_pure

/-- The image is the same whatever stands past the end of the table, and its building stops at no handle that
leads nowhere. -/
theorem alike_image : within.Alike (a.withTypes types).image a.image := by
  have hrows := ha.alike_imageRows hcore h
  have hend := hrows.fine {} fun _ hid => (not_mem_nil hid).elim
  unfold Assembly.image
  rw [hrows.eq]
  cases hrun : (imageRows a).run {} with
  | error e =>
    rw [hrun] at hend
    exact ⟨rfl, hend⟩
  | ok out =>
    rw [hrun] at hend
    have hrefs : out.2.types.map (typeRefRow types) = out.2.types.map (typeRefRow a.types) := by
      refine map_congr_left fun id hid => ?_
      unfold typeRefRow
      rw [h.name (hend.2 id hid)]
    refine ⟨?_, trivial⟩
    change Except.ok { out.1 with
        typeRefs := out.2.types.map (typeRefRow types)
        memberRefs := out.2.members
        userStrings := out.2.strings } = _
    rw [hrefs]
    rfl

end Assembly.Bounded

end TreeCompiler
