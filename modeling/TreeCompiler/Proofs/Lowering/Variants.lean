import TreeCompiler.Proofs.Lowering.FilledTypes

/-!
# Variants of tagged unions

A variant is a type under the base of its union, with the fields that are written and a constructor that is made
for them. The constructor calls that of objects and stores its parameters in the fields, each in its own.
-/

namespace TreeCompiler

open List Lowering Context FlowGraph Option Bindings

/-! ## The constructor -/

section Runs
variable {V : Type} {e : CodeScope} {I : Interpretation V} {call : Invocation V} {g : FlowGraph} {s s' : Bindings V}

/-- The instructions of a graph, in order, lead to the bindings `s`. -/
def CodeScope.Runs (e : CodeScope) (I : Interpretation V) (call : Invocation V) (g : FlowGraph) (s : Bindings V) :
    Prop :=
  e.steps I call .empty (g.instructions.zipIdx.map fun x => (⟨x.2⟩, x.1)) = some s

namespace CodeScope.Runs

theorem append {i : Instruction} (h : e.Runs I call g s)
    (hstep : e.step I call s ⟨g.instructions.length⟩ i = some s') : e.Runs I call (g.append .entry i).2 s' := by
  change e.steps I call .empty (map _ (g.instructions ++ [i]).zipIdx) = some s'
  rw [zipIdx_append, map_append, CodeScope.steps_append]
  rw [Runs] at h
  rw [h, bind_some]
  change (e.step I call s ⟨0 + g.instructions.length⟩ i).bind some = some s'
  rw [Nat.zero_add, hstep]
  rfl

/-- One parameter is stored in a field of the object. -/
theorem store {this v : V} {k : Nat} (h : e.Runs I call g s) (hpos : 0 < g.instructions.length)
    (hthis : s.values ⟨0⟩ = some this) (hv : call.params[k]? = some v) (field : FieldRef) :
    ∃ s', e.Runs I call ((g.append .entry (.loadArg (.param k))).2.append .entry
        (.storeField field ⟨0⟩ (g.append .entry (.loadArg (.param k))).1)).2 s' ∧
      s'.values ⟨0⟩ = some this ∧ s'.events = s.events ++ [.storeField field this v] := by
  have hload : e.Runs I call (g.append .entry (.loadArg (.param k))).2 (s.bind ⟨g.instructions.length⟩ v) :=
    h.append (by rw [step, Invocation.get?, hv]; rfl)
  have hkept : (s.bind ⟨g.instructions.length⟩ v).values ⟨0⟩ = some this := by
    rw [values_bind_of_ne s v fun heq => Nat.ne_of_lt hpos (congrArg InstrId.index heq)]
    exact hthis
  refine ⟨(s.bind ⟨g.instructions.length⟩ v).perform (.storeField field this v), hload.append ?_, hkept, rfl⟩
  rw [step]
  change ((s.bind ⟨g.instructions.length⟩ v).values ⟨0⟩).bind _ = _
  rw [hkept, bind_some]
  change ((s.bind ⟨g.instructions.length⟩ v).values ⟨g.instructions.length⟩).bind _ = _
  rw [values_bind_self]
  rfl

theorem stores {this : V} (fields : List FieldRef) (h : e.Runs I call g s) (hpos : 0 < g.instructions.length)
    (hthis : s.values ⟨0⟩ = some this) {k : Nat} {vs : List V} (hvs : call.params.drop k = vs)
    (hlength : vs.length = fields.length) : ∃ s', e.Runs I call ((fields.zipIdx k).foldl (fun g store =>
        ((g.append .entry (.loadArg (.param store.2))).2.append .entry
          (.storeField store.1 ⟨0⟩ (g.append .entry (.loadArg (.param store.2))).1)).2) g) s' ∧
      s'.events = s.events ++ (fields.zip vs).map fun store => .storeField store.1 this store.2 := by
  induction fields generalizing g s k vs with
  | nil => exact ⟨s, h, by simp⟩
  | cons field fields ih =>
    cases vs with
    | nil => cases hlength
    | cons v vs =>
      have hv : call.params[k]? = some v := by
        rw [← head?_drop, hvs]
        rfl
      have hrest : call.params.drop (k + 1) = vs := by
        rw [← tail_drop, hvs]
        rfl
      obtain ⟨s₁, hruns, hkept, hevents⟩ := h.store hpos hthis hv field
      obtain ⟨s₂, hruns', hevents'⟩ := ih hruns (by simp [FlowGraph.append, modifyBlock]) hkept hrest
        (Nat.succ.inj hlength)
      refine ⟨s₂, hruns', ?_⟩
      rw [hevents', hevents, append_assoc]
      rfl

end CodeScope.Runs

theorem FlowGraph.flow_of_blocks_setFlow {flow : Flow} {b : Block} (h : (g.setFlow .entry flow).blocks = [b]) :
    b.flow = flow := by
  have hblocks : g.blocks.modify 0 (fun block => { block with flow? := some flow }) = [b] := h
  cases hold : g.blocks with
  | nil =>
    rw [hold] at hblocks
    cases hblocks
  | cons first rest =>
    rw [hold] at hblocks
    cases hblocks
    rfl

/-- The constructor of a variant calls that of objects on the new object and then stores each of its parameters
in the field at its place. -/
theorem CodeScope.hasOutcome_variantBody {t : TypeTable} {m : Method} {ctor : MethodRef} {fields : List FieldRef}
    (hstraight : (variantBody (some ctor) fields).Straight t m) (hgraph : e.graph = variantBody (some ctor) fields)
    {this : V} (hthis : call.this = some this) (hparams : call.params.length = fields.length) :
    e.HasOutcome I call ⟨.call ctor [this] :: (fields.zip call.params).map fun store =>
      .storeField store.1 this store.2, .returned none⟩ := by
  have hload : e.Runs I call (empty.append .entry (.loadArg .this)).2 ((empty : Bindings V).bind ⟨0⟩ this) := by
    refine Runs.append (g := .empty) (s := .empty) rfl ?_
    rw [step, Invocation.get?, hthis]
    rfl
  obtain ⟨s, hcall, hkept, hevents⟩ : ∃ s, e.Runs I call ((empty.append .entry
      (.loadArg .this)).2.append .entry (.call ctor [⟨0⟩])).2 s ∧ s.values ⟨0⟩ = some this ∧
        s.events = [.call ctor [this]] := by
    refine ⟨_, hload.append rfl, ?_, ?_⟩
    · split
      · exact values_bind_of_ne _ _ (by decide)
      · rfl
    · split <;> rfl
  obtain ⟨s', hruns, hall⟩ := hcall.stores fields (Nat.zero_lt_succ 1) hkept (k := 0) rfl hparams
  refine ⟨e.graph.block .entry, ?_, ?_⟩
  · rw [hgraph, hstraight.blocks]
    rfl
  · have hsteps : e.steps I call .empty e.graph.script = some s' := by
      rw [hgraph, script, instructionsOf_eq_zipIdx hstraight.numbered]
      exact hruns
    have hflow : (e.graph.block .entry).flow = .ret none := by
      rw [hgraph]
      exact flow_of_blocks_setFlow hstraight.blocks
    have houtcome := Evaluates.ret hsteps hflow
    rw [hall, hevents] at houtcome
    exact houtcome

end Runs

/-- The values that events store in a field, in order. -/
def Event.written {V : Type} (field : FieldRef) (events : List (Event V)) : List V :=
  events.filterMap fun
    | .storeField f _ value => if f = field then some value else none
    | _ => none

theorem filterMap_zipIdx {V : Type} (args : List V) (n k : Nat) :
    (args.zipIdx n).filterMap (fun a => if a.2 = n + k then some a.1 else none) = args[k]?.toList := by
  induction args generalizing n k with
  | nil => rfl
  | cons a args ih =>
    rw [zipIdx_cons, filterMap_cons]
    cases k with
    | zero =>
      have hrest : (args.zipIdx (n + 1)).filterMap (fun a => if a.2 = n + 0 then some a.1 else none) = [] := by
        refine filterMap_eq_nil_iff.mpr fun x hx => if_neg ?_
        have hlt := le_snd_of_mem_zipIdx hx
        omega
      rw [hrest]
      simp
    | succ k =>
      have hrest := ih (n + 1) k
      rw [Nat.add_assoc, Nat.add_comm 1 k] at hrest
      rw [hrest]
      simp

theorem Event.written_stores {V : Type} (ctor : MethodRef) (this : V) (args : List V) (id : TypeId) (k : Nat) :
    written ⟨id, k⟩ (.call ctor [this] :: args.zipIdx.map fun a => .storeField ⟨id, a.2⟩ this a.1) =
      args[k]?.toList := by
  rw [← filterMap_zipIdx args 0 k, written, filterMap_cons, filterMap_map]
  refine congrArg (filterMap · _) (funext fun a => ?_)
  simp

/-! ## The fields -/

def Field.parameter (f : Field) : Parameter :=
  { name := f.name, type := f.type }

namespace Compilation
variable {trees : List Tree} {options : Options} {before after : List (Declaration × Declared)}
  {module : QualifiedName} {c : Context} {id base : TypeId} {v : Variant}

def WritesField (trees : List Tree) (options : Options) (module : QualifiedName) (f : VariantField)
    (field : Field) : Prop :=
  field = { name := f.name, type := field.type, isMutable := f.modifiers.contains .mutable, span := f.span } ∧
    Annotates trees options module none (some f.type) field.type

theorem fields_addVariantFields (hc : Filling trees options c) (hlt : id.index < c.types.size)
    (fields : List VariantField) : ∃ fs, Forall₂ (WritesField trees options module) fields fs ∧
      (traverse (addVariantField module id) c fields).1 =
        (fs.zipIdx (c.types.get id).fields.length).map (fun f => (⟨id, f.2⟩, f.1.parameter)) ∧
      (traverse (addVariantField module id) c fields).2.types.get id =
        { c.types.get id with fields := (c.types.get id).fields ++ fs } := by
  induction fields generalizing c with
  | nil => exact ⟨[], .nil, rfl, by rw [append_nil]; rfl⟩
  | cons f fields ih =>
    have hresolve := (resolves_resolveTypeExpr module c f.type).instantiates
    have hsame := hresolve.extends.get_eq hlt
    have hadd : (addVariantField module id c f).2.types.get id = { c.types.get id with
        fields := (c.types.get id).fields ++ [{ name := f.name
                                                type := (resolveTypeExpr module c f.type).1
                                                isMutable := f.modifiers.contains .mutable
                                                span := f.span }] } := by
      rw [← hsame]
      exact TypeTable.get_modify_self _ id _ (hlt.trans_le hresolve.size)
    have hfills := (edits_addVariantField (π := .filling) module trivial hlt f).1.fills
    obtain ⟨fs, hwrites, hrefs, hget⟩ := ih (hc.trans hfills) (hlt.trans_le hfills.keeps.size)
    refine ⟨⟨f.name, (resolveTypeExpr module c f.type).1, _, _, _, _, _, _, _⟩ :: fs,
      .cons ⟨rfl, c, hc, rfl⟩ hwrites, ?_, ?_⟩
    · rw [traverse_cons, hrefs, hadd, length_append, zipIdx_cons, map_cons, ← hsame]
      rfl
    · rw [traverse_cons, hget, hadd, append_assoc]
      rfl

theorem get_fillVariant (hc : Filling trees options c) (hlt : id.index < c.types.size)
    (hbase : base.index < c.types.size) (objectCtor : Option MethodRef) (void : Option TypeId) (v : Variant) :
    ∃ fs, Forall₂ (WritesField trees options module) v.fields fs ∧
      (fillVariant module base objectCtor void c (v, some id)).types.get id = { c.types.get id with
          bases := (c.types.get id).bases ++ [base]
          fields := (c.types.get id).fields ++ fs
          methods := (c.types.get id).methods ++ [variantCtor objectCtor void v
            ((fs.zipIdx (c.types.get id).fields.length).map fun f => (⟨id, f.2⟩, f.1.parameter))] } := by
  have hrevise : c.Fills .filling _ := (edits_variantBase (π := .filling) module hbase nofun v
    ⟨trivial, trivial, hlt, nofun⟩).fills
  have hself : (c.modifyType id fun d => { d with bases := d.bases ++ [base] }).types.get id =
      { c.types.get id with bases := (c.types.get id).bases ++ [base] } :=
    c.types.get_modify_self id _ hlt
  have hlt' := hlt.trans_le hrevise.keeps.size
  obtain ⟨fs, hwrites, hrefs, hget⟩ := fields_addVariantFields (hc.trans hrevise) hlt' v.fields
  have hkeeps := keeps_addVariantFields module id
    (c.modifyType id fun d => { d with bases := d.bases ++ [base] }) v.fields
  rw [hself] at hrefs hget
  refine ⟨fs, hwrites, (TypeTable.get_modify_self _ id _ (hlt'.trans_le hkeeps.size)).trans ?_⟩
  dsimp only
  rw [hrefs, hget]
  rfl

theorem get_fillTaggedUnion (hc : Filling trees options c) {d : TaggedUnionDecl}
    {variants : List (Option TypeId)} (hbase : base.index < c.types.size) (hne : base ≠ id)
    {vs vs' : List (Variant × Option TypeId)} (hsplit : d.variants.zip variants = vs ++ (v, some id) :: vs')
    (hlt : ∀ w ∈ vs ++ (v, some id) :: vs', ∀ i, w.2 = some i → i.index < c.types.size)
    (hother : ∀ w ∈ vs ++ vs', w.2 ≠ some id) (hempty : (c.types.get id).fields = []) :
    ∃ fs, Forall₂ (WritesField trees options module) v.fields fs ∧
      (fillTaggedUnion c module base variants d).types.get id = { c.types.get id with
          bases := (c.types.get id).bases ++ [base]
          fields := fs
          methods := (c.types.get id).methods ++ [variantCtor c.types.objectCtor?
            (c.types.primitive? .void) v (fs.zipIdx.map fun f => (⟨id, f.2⟩, f.1.parameter))] } := by
  have hid := hlt (v, some id) (by simp) id rfl
  have hspares := (edits_variants (π := .sparing id) module d ⟨hne, trivial, hbase, nofun⟩ (fun _ _ => trivial)
    fun v' hv' id' hid' => ⟨fun heq => hother v' (mem_append_left _ hv')
      (heq ▸ hid'), trivial, hlt v' (mem_append_left _ hv') id' hid', nofun⟩).fills
  have hfills := (edits_variants (π := .filling) module d ⟨trivial, trivial, hbase, nofun⟩ (fun _ _ => trivial)
    fun v' hv' id' hid' => ⟨trivial, trivial, hlt v' (mem_append_left _ hv') id' hid', nofun⟩).fills
  have hsame := hspares.get_eq hid
  have heq : fillTaggedUnion c module base variants d = _ :=
    congrArg (foldl (fillVariant module base c.types.objectCtor? (c.types.primitive? .void))
      (describe (c.attributes module d.annotations .classes).2 base (c.types.system? "Object").toList
        (c.attributes module d.annotations .classes).1 d.modifiers)) hsplit
  rw [heq, foldl_append, foldl_cons]
  generalize vs.foldl _ _ = c₁ at *
  have hkeeps := hfills.keeps
  obtain ⟨fs, hwrites, hget⟩ := get_fillVariant (hc.trans hfills) (hid.trans_le hkeeps.size)
    (hbase.trans_le hkeeps.size) c.types.objectCtor? (c.types.primitive? .void) v
  have hown := hkeeps.trans (keeps_fillVariant module base c.types.objectCtor?
    (c.types.primitive? .void) c₁ (v, some id))
  have howns : ∀ w ∈ vs', ∀ i, w.2 = some i → Grant.Owns (.sparing id)
      (fillVariant module base c.types.objectCtor? (c.types.primitive? .void) c₁ (v, some id)).types i
      { definedType module w.1.name with isSealed := true, span := w.1.span } := fun w hw i hi =>
    ⟨fun heq => hother w (mem_append_right _ hw) (heq ▸ hi), trivial,
      (hlt w (by simp [hw]) i hi).trans_le hown.size, nofun⟩
  have hafter := edits_fillVariants (π := .sparing id) module hown ((c.types.covers_primitive? .void).mono hown.size)
    (hbase.trans_le hown.size) nofun (fun _ _ => trivial) howns
  rw [hafter.fills.get_eq (hid.trans_le hown.size)]
  rw [hsame, hempty] at hget
  exact ⟨fs, hwrites, hget⟩

section Variant
variable {d : TaggedUnionDecl} {variants : List (Option TypeId)}
  (h : registrations trees options = before ++ (⟨module, .taggedUnion d⟩, .taggedUnion base variants) :: after)
  (hv : (v, some id) ∈ d.variants.zip variants)
include h hv

theorem ne_base_of_registrations : id ≠ base := by
  rintro rfl
  obtain ⟨hbase, -⟩ := nodup_cons.mp (nodup_ids_of_registrations h)
  exact hbase (mem_flatMap.mpr ⟨some id, (of_mem_zip hv).2, mem_singleton_self id⟩)

/-- The type of a variant once its union has been filled in. -/
theorem get_variant {l : Lowering} (hl : fillAll { context := allRegistered trees options } before = l) :
    ∃ fs, Forall₂ (WritesField trees options module) v.fields fs ∧
      (fillTaggedUnion l.context module base variants d).types.get id = { l.context.types.get id with
          bases := [base]
          fields := fs
          methods := (l.context.types.get id).methods ++ [variantCtor l.context.types.objectCtor?
            (l.context.types.primitive? .void) v (fs.zipIdx.map fun f => (⟨id, f.2⟩, f.1.parameter))] } := by
  obtain ⟨hfilling, ⟨hbase, hvariants⟩, -⟩ := filled_of_registrations h hl
  obtain ⟨hlength, hall⟩ := forall₂_iff_zip.mp hvariants
  have hstart := (hall hv id rfl).start
  have hids : (variants.flatMap toList).Nodup := (nodup_cons.mp (nodup_ids_of_registrations h)).2
  obtain ⟨vs, vs', hsplit⟩ := append_of_mem hv
  rw [← map_snd_zip hlength.symm.le, hsplit] at hids
  simp only [map_append, map_cons, flatMap_append, flatMap_cons, toList_some] at hids
  obtain ⟨-, hids, hbefore⟩ := nodup_append.mp hids
  have hother : ∀ w ∈ vs ++ vs', w.2 ≠ some id := by
    intro w hw heq
    have hmem : ∀ ws : List (Variant × Option TypeId), w ∈ ws → id ∈ (ws.map Prod.snd).flatMap toList :=
      fun ws hws => mem_flatMap.mpr ⟨w.2, mem_map_of_mem hws, mem_toList.mpr heq⟩
    rcases mem_append.mp hw with hw | hw
    · exact hbefore id (hmem vs hw) id mem_cons_self rfl
    · exact (nodup_cons.mp hids).1 (hmem vs' hw)
  obtain ⟨fs, hwrites, hget⟩ := get_fillTaggedUnion hfilling hbase.lt_size (ne_base_of_registrations h hv).symm
    hsplit (fun w hw i hi => (hall (hsplit ▸ hw) i hi).lt_size) hother (congrArg TypeDef.fields hstart)
  rw [show (l.context.types.get id).bases = [] from congrArg TypeDef.bases hstart] at hget
  exact ⟨fs, hwrites, hget⟩

end Variant

/-- A variant that was registered is under the base of its union, which is abstract, and has the fields that are
written. Its constructor takes a parameter for each field. It calls the constructor of objects, stores each
argument in the field at its place, and does nothing else. -/
theorem variant_constructor_stores {d : TaggedUnionDecl} {variants : List (Option TypeId)}
    (h : registrations trees options =
      before ++ (⟨module, .taggedUnion d⟩, .taggedUnion base variants) :: after)
    (hv : (v, some id) ∈ d.variants.zip variants) :
    let t := (lowered trees options).assembly.types
    (t.get base).name = module.child d.name ∧ (t.get base).isAbstract = true ∧ (t.get id).bases = [base] ∧
    List.Forall₂ (WritesField trees options module) v.fields (t.get id).fields ∧
    ∃ ctor k m g, t.objectCtor? = some ctor ∧ t.methodEntry ⟨id, k⟩ = .ok m ∧ m.isConstructor = true ∧
      m.isStatic = false ∧ m.params = (t.get id).fields.map Field.parameter ∧ m.body = some g ∧
      ∀ (V : Type) (I : Interpretation V) (this : V) (args : List V), args.length = v.fields.length →
        ∃ events, CodeScope.HasOutcome ⟨t, ⟨id, k⟩, g⟩ I ⟨some this, args⟩ ⟨events, .returned none⟩ ∧
          events = .call ctor [this] :: args.zipIdx.map (fun a => .storeField ⟨id, a.2⟩ this a.1) ∧
          ∀ k, Event.written ⟨id, k⟩ events = args[k]?.toList := by
  obtain ⟨-, hunion, hkeeps, -⟩ := filled_of_registrations h rfl
  obtain ⟨fs, hwrites, hget⟩ := get_variant h hv rfl
  have hrun := (run_allRegistered trees options).trans (run_filling trees options h).1
  generalize Lowering.fillAll { context := allRegistered trees options } before = l at *
  have hlater := (Lowering.keeps_fill module l (hunion.imp fun _ _ hf => hf.lt_size)).trans hkeeps
  obtain ⟨hbase, hvariants⟩ := hunion
  have hfashions := (List.forall₂_iff_zip.mp hvariants).2 hv id rfl
  have hshell : ((lowered trees options).assembly.types.get id).shell = _ :=
    hfashions.shell.trans (congrArg TypeDef.shell hget)
  have hfields : ((lowered trees options).assembly.types.get id).fields = fs := congrArg TypeDef.fields hshell
  have hbases := congrArg TypeDef.bases hshell
  have hhead := hlater.head base hbase.lt_size
  obtain ⟨ctor, -, hctor, -⟩ := (lawful_install options.target).object
  have hlocal := (keeps_of_run trees options hrun).objectCtor? hctor
  have hmethod := hfashions.methods (l.context.types.get id).methods.length _
    (by rw [TypeTable.methodEntry, Defect.entry_eq_ok_iff]
        exact (congrArg (fun d => (TypeDef.methods d)[_]?) hget).trans List.getElem?_concat_length) rfl
  rw [hlocal] at hmethod
  have hentry := (TypeTable.hasMethod_iff.mpr ⟨_, hmethod⟩).methodEntry_eq
  have hbody := congrArg Method.body (Except.ok.inj (hentry.symm.trans hmethod))
  have hstraight := ((lawful_lowered trees options).bodies _ _ hbody).1
  refine ⟨TypeDef.name_of_head hhead |>.trans (congrArg TypeDef.name hbase.start),
    (congrArg TypeDef.isAbstract hhead).trans (congrArg TypeDef.isAbstract hbase.start), hbases, hfields ▸ hwrites,
    ctor, _, _, _, hlater.objectCtor? hlocal, hmethod, rfl, rfl, ?_, rfl, fun V I this args hargs => ?_⟩
  · rw [hfields]
    exact List.ext_getElem (by simp [Lowering.variantCtor]) fun i _ _ => by simp [Lowering.variantCtor]
  · have hcount : args.length = fs.length := hargs.trans hwrites.length_eq
    have houtcome : CodeScope.HasOutcome ⟨(lowered trees options).assembly.types,
        ⟨id, (l.context.types.get id).methods.length⟩, _⟩ I ⟨some this, args⟩ _ :=
      CodeScope.hasOutcome_variantBody hstraight rfl rfl (by simp [hcount])
    have hstores : (((fs.zipIdx.map fun f => ((⟨id, f.2⟩ : FieldRef), f.1.parameter)).map Prod.fst).zip args).map
        (fun store => Event.storeField store.1 this store.2) =
          args.zipIdx.map fun a => .storeField ⟨id, a.2⟩ this a.1 :=
      List.ext_getElem (by simp [hcount]) fun i _ _ => by simp
    rw [hstores] at houtcome
    exact ⟨_, houtcome, rfl, Event.written_stores ctor this args id⟩

/-- A union with a variant of which two fields share a name. -/
def figures : TaggedUnionDecl :=
  { name := "Figure"
    variants := [{ name := "Dot", fields := [] }, { name := "Box", fields :=
      [{ name := "side", type := .named ⟨["i32"]⟩ {} }, { name := "side", type := .named ⟨["i64"]⟩ {} }] }] }

def figureTree : Tree :=
  { module := ⟨["Demo"]⟩, body := [.taggedUnion figures] }

theorem variant_constructor_stores_figureTree : ∃ ctor k m g,
    (lowered [figureTree] {}).assembly.types.objectCtor? = some ctor ∧
    (lowered [figureTree] {}).assembly.types.methodEntry ⟨⟨41⟩, k⟩ = .ok m ∧ m.body = some g ∧
    ∀ I, CodeScope.HasOutcome ⟨(lowered [figureTree] {}).assembly.types, ⟨⟨41⟩, k⟩, g⟩ I ⟨some 7, [1, 2]⟩
      ⟨[.call ctor [7], .storeField ⟨⟨41⟩, 0⟩ 7 1, .storeField ⟨⟨41⟩, 1⟩ 7 2], .returned none⟩ := by
  have hdeclared : ((start [figureTree] {}).context.declareAll (Tree.declarations [figureTree])).1 =
      [.taggedUnion ⟨39⟩ [some ⟨40⟩, some ⟨41⟩]] := by
    decide +kernel
  have hregistered : registrations [figureTree] {} =
      [] ++ (⟨⟨["Demo"]⟩, .taggedUnion figures⟩, .taggedUnion ⟨39⟩ [some ⟨40⟩, some ⟨41⟩]) :: [] := by
    rw [registrations, hdeclared]
    rfl
  obtain ⟨-, -, -, -, ctor, k, m, g, hctor, hm, -, -, -, hg, houtcome⟩ :=
    variant_constructor_stores hregistered (List.mem_cons_of_mem _ List.mem_cons_self)
  refine ⟨ctor, k, m, g, hctor, hm, hg, fun I => ?_⟩
  obtain ⟨events, houtcome, rfl, -⟩ := houtcome Nat I 7 [1, 2] rfl
  exact houtcome

end Compilation

end TreeCompiler
