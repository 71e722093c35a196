import TreeCompiler.Assembly.Text
import TreeCompiler.Proofs.Lowering.Bounds
import TreeCompiler.Proofs.Places.Tables

/-!
# What the text of an assembly reads

If all handles in an assembly lead somewhere, its text follows none that leads nowhere: whatever stands past
the end of the table of types makes no difference, and all methods that the text names are there.

* `Instruction.text_congr`, `Method.text_congr`, `TypeDef.text_congr` : texts do not tell the two apart;
* `Assembly.Bounded.text_eq`, `Assembly.Bounded.checkedText_eq` : neither does the text of an assembly.
-/

namespace TreeCompiler

open List Defect

variable {t : TypeTable}

/-! ## Tables that agree -/

/-- Whoever follows no handle past the end of `t`, and reads no place, finds the same in `t'`. -/
structure TypeTable.ReadsAs (t t' : TypeTable) : Prop where
  get : ∀ id : TypeId, id.index < t.size → (t'.get id).gist = (t.get id).gist
  defined : t'.gist.defined = t.gist.defined
  lookup : ∀ name, (t.lookup name).isSome = true → t'.lookup name = t.lookup name

theorem TypeDef.gist_gist (d : TypeDef) : d.gist.gist = d.gist := by
  simp [gist, Field.gist, Method.gist, Property.gist, Function.comp_def]
  exact fun _ _ => ⟨rfl, rfl⟩

namespace TypeTable
variable {extra : List TypeDef}

theorem readsAs_gist (t : TypeTable) : t.ReadsAs t.gist where
  get id _ := by rw [get_gist, TypeDef.gist_gist]
  defined := by simp [gist, Function.comp_def, TypeDef.gist_gist]
  lookup name _ := t.lookup_gist name

theorem defined_gist (t : TypeTable) : t.gist.defined = t.defined.map (Prod.map id TypeDef.gist) := by
  unfold defined numbered gist
  rw [zipIdx_map, map_map, filter_map, filter_map, map_map]
  rfl

/-- Types that are not of the program come after the others. -/
theorem defined_append (t : TypeTable) (hextra : ∀ d ∈ extra, d.origin = .external) :
    defined { defs := t.defs ++ extra } = t.defined := by
  have hnone : (extra.zipIdx (0 + t.defs.length)).filter (fun x => x.1.origin == .defined) = [] := by
    rw [filter_eq_nil_iff]
    intro x hx
    rw [hextra x.1 (fst_mem_of_mem_zipIdx hx)]
    decide
  unfold defined numbered
  rw [zipIdx_append, map_append, filter_append, filter_map, filter_map]
  change _ ++ map _ ((extra.zipIdx (0 + t.defs.length)).filter fun x => x.1.origin == .defined) = _
  rw [hnone, map_nil, append_nil]

theorem readsAs_append (t : TypeTable) (hextra : ∀ d ∈ extra, d.origin = .external) :
    t.ReadsAs { defs := t.defs ++ extra } where
  get id hid := by
    simp only [get, getD_eq_getElem?_getD, getElem?_append_left hid]
  defined := by rw [defined_gist, defined_gist, t.defined_append hextra]
  lookup name hname := by
    obtain ⟨id, hid⟩ := Option.isSome_iff_exists.mp hname
    obtain ⟨i, hi, -⟩ := Option.map_eq_some_iff.mp hid
    unfold lookup
    rw [findIdx?_append, hi]
    rfl

theorem Defect.exists_entry {α : Type} {u : α → α} {as bs : List α} (h : as.map u = bs.map u) {i : Nat} {b : α}
    (hb : entry bs i = .ok b) : ∃ a, entry as i = .ok a ∧ u a = u b := by
  have hsame : as[i]?.map u = some (u b) := by
    rw [← getElem?_map, h, getElem?_map, entry_eq_ok_iff.mp hb, Option.map_some]
  obtain ⟨a, ha, heq⟩ := Option.map_eq_some_iff.mp hsame
  exact ⟨a, entry_eq_ok_iff.mpr ha, heq⟩

namespace ReadsAs
variable {t t' : TypeTable} (h : t.ReadsAs t') {m : MethodRef} {id : TypeId} {β : Type}
include h

/-- What is the same without places. -/
theorem read {f : TypeDef → β} (hf : ∀ d, f d.gist = f d) (hid : id.index < t.size) :
    f (t'.get id) = f (t.get id) := by
  rw [← hf, h.get id hid, hf]

theorem name (hid : id.index < t.size) : (t'.get id).name = (t.get id).name :=
  h.read (fun _ => rfl) hid

theorem nameOf {type : Option TypeId} (htype : t.Covers type) : t'.nameOf type = t.nameOf type := by
  cases type with
  | none => rfl
  | some id => simp only [TypeTable.nameOf, h.name (htype id rfl)]

theorem methodEntry (hm : m.type.index < t.size) {c : Method} (hc : t.methodEntry m = .ok c) :
    ∃ span, t'.methodEntry m = .ok { c with span } := by
  obtain ⟨c', hc', hsame⟩ := Defect.exists_entry (congrArg TypeDef.methods (h.get m.type hm)) hc
  refine ⟨c'.span, hc'.trans (congrArg Except.ok ?_)⟩
  exact congrArg (fun m : Method => { m with span := c'.span }) hsame

theorem fieldEntry {f : FieldRef} (hf : f.type.index < t.size) {c : Field} (hc : t.fieldEntry f = .ok c) :
    ∃ span, t'.fieldEntry f = .ok { c with span } := by
  obtain ⟨c', hc', hsame⟩ := Defect.exists_entry (congrArg TypeDef.fields (h.get f.type hf)) hc
  refine ⟨c'.span, hc'.trans (congrArg Except.ok ?_)⟩
  exact congrArg (fun f : Field => { f with span := c'.span }) hsame

theorem readMethod {f : Method → β} (hf : ∀ c, f c.gist = f c) (hm : t.HasMethod m) :
    f (t'.method m) = f (t.method m) := by
  obtain ⟨span, hentry⟩ := h.methodEntry hm.1 hm.methodEntry_eq
  rw [t'.method_of_methodEntry m _ hentry, ← hf]
  exact hf (t.method m)

theorem methodName (hm : t.HasMethod m) : t'.methodName m = t.methodName m := by
  unfold TypeTable.methodName
  rw [h.name hm.1, h.readMethod (f := Method.name) (fun _ => rfl) hm]

end ReadsAs

end TypeTable

theorem FlowGraph.Bounded.of_mem_instructionsOf {g : FlowGraph} (h : g.Bounded t) {b : Block}
    {x : InstrId × Instruction} (hx : x ∈ g.instructionsOf b) : x.2.Bounded t g := by
  obtain ⟨id, -, hid⟩ := mem_filterMap.mp hx
  obtain ⟨i, hi, rfl⟩ := Option.map_eq_some_iff.mp hid
  exact h.instruction hi

/-! ## Texts -/

section Congruence
variable {t t' : TypeTable} (h : t.ReadsAs t') {g : FlowGraph}
include h

theorem Instruction.text_congr {i : Instruction} (hi : i.Refers t g) : i.text t' = i.text t := by
  cases i with
  | constant value type | load type source | binary op type lhs rhs => simp only [text, h.nameOf hi]
  | loadArg arg =>
    cases arg with
    | this => rfl
    | param index => rfl
  | loadLocal binding => rfl
  | alloca binding type init => simp only [text, h.nameOf hi.2]
  | call method args | newObject ctor args => simp only [text, h.methodName hi]
  | storeField field target value =>
    have hname := h.read (f := fun d => (d.fields[field.index]?.map (·.name)).getD "?")
      (fun d => by simp [Function.comp_def]) hi.1
    simp only [text, hname]

theorem typedName_congr (name : String) {type : Option TypeId} (htype : t.Covers type) :
    typedName t' name type = typedName t name type :=
  congrArg (name ++ ": " ++ ·) (h.nameOf htype)

theorem Block.text_congr (hg : g.Bounded t) {b : Block} (hb : b.Bounded t g) : b.text t' g = b.text t g := by
  have hparams : (b.params.map fun p => typedName t' p.name p.type) =
      b.params.map fun p => typedName t p.name p.type :=
    map_congr_left fun p hp => typedName_congr h p.name (hb.params p hp)
  unfold text
  rw [hparams]
  -- what is left to compare are the lines of the instructions
  congr 4
  refine congrArg String.join (map_congr_left fun x hx => ?_)
  dsimp only
  rw [Instruction.text_congr h (hg.of_mem_instructionsOf hx).refers]

theorem Method.text_congr {m : Method} (hm : m.Bounded t) : m.text t' = m.text t := by
  have hparams : (m.params.map fun p => typedName t' p.name p.type) =
      m.params.map fun p => typedName t p.name p.type :=
    map_congr_left fun p hp => typedName_congr h p.name (hm.params p hp)
  have hbody : ∀ g, m.body = some g → g.blocks.map (Block.text t' g) = g.blocks.map (Block.text t g) :=
    fun g hg => map_congr_left fun b hb => Block.text_congr h (hm.body g hg) ((hm.body g hg).blocks b hb)
  unfold text
  rw [hparams, h.nameOf hm.result]
  split
  · rfl
  next g hg => rw [hbody g hg]

theorem Field.text_congr {f : Field} (hf : f.Bounded t) : f.text t' = f.text t := by
  unfold text
  rw [typedName_congr h f.name hf.type]

theorem Property.text_congr {p : Property} (hp : p.Bounded t) : p.text t' = p.text t := by
  unfold text
  rw [typedName_congr h p.name hp.type]

theorem TypeDef.text_congr {d : TypeDef} (hd : d.Bounded t) : d.text t' = d.text t := by
  have hattributes : (d.attributes.map fun a => "[" ++ (t'.get a.type).name.text ++ "]\n") =
      d.attributes.map fun a => "[" ++ (t.get a.type).name.text ++ "]\n" := by
    refine map_congr_left fun a ha => ?_
    rw [h.name (hd.attributes a ha)]
  have hbases : (d.bases.map fun b => (t'.get b).name.text) = d.bases.map fun b => (t.get b).name.text := by
    refine map_congr_left fun b hb => ?_
    rw [h.name (hd.bases b hb)]
  have hfields : d.fields.map (Field.text t') = d.fields.map (Field.text t) :=
    map_congr_left fun f hf => Field.text_congr h (hd.fields f hf)
  have hproperties : d.properties.map (Property.text t') = d.properties.map (Property.text t) :=
    map_congr_left fun p hp => Property.text_congr h (hd.properties p hp)
  have hmethods : d.methods.map (Method.text t') = d.methods.map (Method.text t) :=
    map_congr_left fun m hm => Method.text_congr h (hd.methods m hm)
  unfold text
  rw [hattributes, hbases, hfields, hproperties, hmethods]

end Congruence

/-! ## Assemblies -/

/-- The handles in the table and the entry point lead somewhere. -/
structure Assembly.Bounded (a : Assembly) : Prop where
  types : a.types.Bounded
  entry : ∀ m, a.entryPoint = some m → a.types.HasMethod m

def Assembly.withTypes (a : Assembly) (types : TypeTable) : Assembly :=
  { a with types }

theorem TypeTable.Bounded.of_mem_defined (h : t.Bounded) {d : TypeId × TypeDef} (hd : d ∈ t.defined) :
    d.2.Bounded t := by
  obtain ⟨⟨d, i⟩, hmem, rfl⟩ := mem_map.mp (mem_filter.mp hd).1
  exact h d (fst_mem_of_mem_zipIdx hmem)

namespace Assembly.Bounded
variable {a : Assembly} (h : a.Bounded)
include h

theorem text_eq {types : TypeTable} (hreads : a.types.ReadsAs types) (hdefined : types.defined = a.types.defined) :
    (a.withTypes types).text = a.text := by
  have htypes : (types.defined.map fun d => "\n" ++ d.2.text types) =
      a.types.defined.map fun d => "\n" ++ d.2.text a.types := by
    rw [hdefined]
    refine map_congr_left fun d hd => ?_
    rw [TypeDef.text_congr hreads (h.types.of_mem_defined hd)]
  have hentry : ∀ m, a.entryPoint = some m → types.methodName m = a.types.methodName m :=
    fun m hm => hreads.methodName (h.entry m hm)
  obtain ⟨name, t, entryPoint⟩ := a
  unfold Assembly.text Assembly.withTypes
  dsimp only at htypes hentry ⊢
  rw [htypes]
  cases entryPoint with
  | none => rfl
  | some m => simp only [hentry m rfl]

theorem hasMethod_of_mem_namedMethods {m : MethodRef} (hm : m ∈ a.namedMethods) : a.types.HasMethod m := by
  rcases mem_append.mp hm with hentry | hcallee
  · exact h.entry m (Option.mem_toList.mp hentry)
  · obtain ⟨d, hd, hcallee⟩ := mem_flatMap.mp hcallee
    obtain ⟨method, hmethod, hcallee⟩ := mem_flatMap.mp hcallee
    have hbounded := (h.types.of_mem_defined hd).methods method hmethod
    cases hbody : method.body with
    | none =>
      rw [hbody] at hcallee
      exact (not_mem_nil hcallee).elim
    | some g =>
      rw [hbody] at hcallee
      obtain ⟨b, -, hcallee⟩ := mem_flatMap.mp hcallee
      obtain ⟨x, hx, hcallee⟩ := mem_filterMap.mp hcallee
      have hrefers := ((hbounded.body g hbody).of_mem_instructionsOf hx).refers
      obtain ⟨id, i⟩ := x
      cases i with
      | call method args | newObject ctor args =>
        cases hcallee
        exact hrefers
      | _ => cases hcallee

theorem checkedText_eq : a.checkedText = .ok a.text := by
  have hnamed : a.namedMethods.mapM a.types.methodEntry = .ok (a.namedMethods.map a.types.method) :=
    mapM_eq_ok_map fun m hm => (h.hasMethod_of_mem_namedMethods hm).methodEntry_eq
  unfold Assembly.checkedText
  rw [hnamed]
  rfl

end Assembly.Bounded

end TreeCompiler
