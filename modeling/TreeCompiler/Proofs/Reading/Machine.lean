import TreeCompiler.Proofs.Reading.Image

/-!
# What a program for the machine reads

If all handles in an assembly lead somewhere, the lines written for it follow none that leads nowhere: the
writing never stops at one, and neither what stands past the end of the table of types nor the places in a
source make a difference.

* `MethodScope.alike_instruction`, `MethodScope.alike_lines` : the lines of a method.
-/

namespace TreeCompiler

open Judgement TypeTable

/-- The label of a method names the types of its parameters. -/
theorem TypeTable.symbol_congr {t t' : TypeTable} (h : t.ReadsAs t') (ht : t.Bounded) {m : MethodRef}
    (hm : t.HasMethod m) : t'.symbol m = t.symbol m := by
  have hsegment : ∀ p ∈ (t.method m).params, t'.symbolSegment p.type = t.symbolSegment p.type := by
    intro p hp
    have hcovers := (ht.method m).params p hp
    cases htype : p.type with
    | none => rfl
    | some id =>
      unfold symbolSegment
      dsimp only
      rw [h.name (hcovers id htype)]
  have hsegments : ((t.method m).params.map fun p => "$" ++ t'.symbolSegment p.type) =
      (t.method m).params.map fun p => "$" ++ t.symbolSegment p.type := by
    refine List.map_congr_left fun p hp => ?_
    rw [hsegment p hp]
  unfold symbol
  dsimp only
  rw [h.readMethod (f := Method.name) (fun _ => rfl) hm, h.readMethod (f := Method.params) (fun _ => rfl) hm,
    h.name hm.1, hsegments]

namespace Machine

open Judgement (alike_pure alike_mapM alike_get)

/-- Both write the same and stop at no handle that leads nowhere. -/
abbrev Writer.Alike {α : Type} (x y : Writer α) : Prop :=
  (within.state Writing).Alike x y

open Writer (Alike)

namespace MethodScope

def withTypes (e : MethodScope) (types : TypeTable) : MethodScope :=
  { e with types }

/-- The method is there, and all handles in its body lead somewhere. -/
structure Fits (e : MethodScope) : Prop where
  types : e.types.Bounded
  core : e.types.HasCore
  method : e.types.HasMethod e.method
  graph : e.graph.Bounded e.types

theorem alike_throw {α : Type} {e : EmitError} (h : ∀ length index, e ≠ .defect (.outOfBounds length index)) :
    Alike (throw e : Writer α) (throw e) :=
  ⟨rfl, fun _ => h⟩

theorem alike_constantSource (c : Constant) : Alike (constantSource c) (constantSource c) := by
  have hstring : ∀ s, Alike (stringSource s) (stringSource s) := by
    intro s
    refine alike_get.bind fun w => ?_
    dsimp only
    split
    · exact alike_pure
    · exact (alike_modifyGet _).bind fun _ => alike_pure
  unfold constantSource
  split
  · exact (hstring _).bind fun _ => alike_pure
  · exact alike_pure
  · exact alike_pure
  · exact alike_pure
  · split
    · exact alike_pure
    · exact alike_throw fun _ _ heq => by cases heq

theorem alike_intrinsic {e : MethodScope} {types : TypeTable} (name : String) (args : List InstrId) :
    Alike ((e.withTypes types).intrinsic name args) (e.intrinsic name args) := by
  change Alike (e.intrinsic name args) (e.intrinsic name args)
  unfold intrinsic
  split
  · exact alike_pure
  · exact alike_throw fun _ _ heq => by cases heq

section Scope
variable {e : MethodScope} {t' : TypeTable} (h : e.types.ReadsAs t') (he : e.Fits)
include h he

/-! ## Registers -/

theorem symbol_congr : (e.withTypes t').symbol = e.symbol :=
  TypeTable.symbol_congr h he.types he.method

theorem paramCount_congr : (e.withTypes t').paramCount = e.paramCount :=
  h.readMethod (f := fun m => m.params.length % countSize) (fun _ => rfl) he.method

theorem placeRegister_congr (place : Nat) : (e.withTypes t').placeRegister place = e.placeRegister place := by
  unfold placeRegister
  rw [paramCount_congr h he]

theorem alike_takeRegister (p : Place) : Alike ((e.withTypes t').takeRegister p) (e.takeRegister p) := by
  unfold takeRegister
  refine alike_get.bind fun w => ?_
  rw [placeRegister_congr h he, symbol_congr h he]
  dsimp only
  split
  · exact (alike_modifyGet _).bind fun _ => alike_pure
  · exact alike_throw fun _ _ heq => by cases heq

variable (id : InstrId)

theorem alike_valueRegister : Alike ((e.withTypes t').valueRegister id) (e.valueRegister id) := by
  unfold valueRegister
  refine alike_get.bind fun w => ?_
  split
  · rw [placeRegister_congr h he]
    exact alike_pure
  · rw [symbol_congr h he]
    exact alike_throw fun _ _ heq => by cases heq

theorem alike_bindingRegister (b : BindingId) : Alike ((e.withTypes t').bindingRegister b) (e.bindingRegister b) := by
  unfold bindingRegister
  refine alike_get.bind fun w => ?_
  split
  · rw [placeRegister_congr h he]
    exact alike_pure
  · exact alike_takeRegister h he _

theorem alike_define (source : Source) (note : Option String) :
    Alike ((e.withTypes t').define id source note) (e.define id source note) :=
  (alike_takeRegister h he _).bind fun _ => alike_pure

theorem alike_registersInUse : Alike (e.withTypes t').registersInUse e.registersInUse := by
  unfold registersInUse
  rw [paramCount_congr h he]
  exact alike_get.bind fun _ => alike_pure

/-! ## Instructions -/

theorem alike_call {m : MethodRef} (hm : e.types.HasMethod m) (args : List InstrId) :
    Alike ((e.withTypes t').call id m args) (e.call id m args) := by
  obtain ⟨callee, hcallee⟩ := hasMethod_iff.mp hm
  obtain ⟨span, hentry⟩ : ∃ span, (e.withTypes t').types.methodEntry m = .ok { callee with span } :=
    h.methodEntry hm.1 hcallee
  have htype : ((e.withTypes t').types.get m.type).name = (e.types.get m.type).name := h.name hm.1
  have horigin : ((e.withTypes t').types.get m.type).origin = (e.types.get m.type).origin :=
    h.read (fun _ => rfl) hm.1
  have hname : (e.withTypes t').types.methodName m = e.types.methodName m := h.methodName hm
  have hsymbol : (e.withTypes t').types.symbol m = e.types.symbol m := TypeTable.symbol_congr h he.types hm
  have hyields : (e.withTypes t').yields { callee with span } = e.yields callee := by
    unfold yields
    rw [show (e.withTypes t').types.primitive? .void = e.types.primitive? .void from
      h.lookup _ (he.core.primitives .void)]
  unfold call isIntrinsic
  rw [EmitError.ofDefect_bind hentry, EmitError.ofDefect_bind hcallee, htype, horigin, hname, hsymbol, hyields]
  split
  · exact alike_intrinsic callee.name args
  · split
    · exact alike_throw fun _ _ heq => by cases heq
    · refine (alike_registersInUse h he).bind fun saved => ?_
      refine (alike_mapM fun a _ => alike_valueRegister h he a).bind fun values => ?_
      dsimp only
      split
      · exact (alike_define h he id _ _).bind fun _ => alike_pure
      · exact alike_pure.bind fun _ => alike_pure

theorem alike_instruction {i : Instruction} (hi : i.Refers e.types e.graph) :
    Alike ((e.withTypes t').instruction id i) (e.instruction id i) := by
  cases i with
  | constant value type =>
    refine (alike_takeRegister h he _).bind fun _ => ?_
    exact (alike_constantSource value).bind fun _ => alike_pure
  | load type source =>
    exact (alike_valueRegister h he source).bind fun _ => alike_define h he id _ _
  | loadArg arg =>
    cases arg with
    | this =>
      unfold instruction
      rw [symbol_congr h he]
      exact alike_throw fun _ _ heq => by cases heq
    | param index =>
      refine (alike_takeRegister h he _).bind fun _ => ?_
      exact (alike_next _ _).lift.bind fun _ => alike_pure
  | loadLocal b =>
    exact (alike_bindingRegister h he b).bind fun _ => alike_define h he id _ _
  | alloca b type init =>
    refine (alike_bindingRegister h he b).bind fun _ => ?_
    cases init with
    | none => exact alike_pure
    | some init => exact (alike_valueRegister h he init).bind fun _ => alike_pure
  | binary op type lhs rhs =>
    refine (alike_valueRegister h he lhs).bind fun _ => (alike_valueRegister h he rhs).bind fun _ => ?_
    exact (alike_takeRegister h he _).bind fun _ => alike_pure
  | call m args => exact alike_call h he id hi args
  | newObject ctor args =>
    unfold instruction
    dsimp only
    rw [show ((e.withTypes t').types.get ctor.type).name = _ from h.name hi.1]
    exact alike_define h he id _ _
  | storeField field target value =>
    unfold instruction
    rw [symbol_congr h he]
    exact alike_throw fun _ _ heq => by cases heq

theorem alike_flow (flow : Flow) : Alike ((e.withTypes t').flow flow) (e.flow flow) := by
  cases flow with
  | ret value =>
    cases value with
    | none => exact alike_pure
    | some value => exact (alike_valueRegister h he value).bind fun _ => alike_pure
  | jump b =>
    unfold flow blockLabel
    rw [symbol_congr h he]
    exact alike_pure
  | unreachable => exact alike_pure

theorem alike_block (b : BlockId × Block) : Alike ((e.withTypes t').block b) (e.block b) := by
  unfold block blockLabel
  rw [symbol_congr h he]
  refine (alike_mapM fun x hx => ?_).bind fun _ => (alike_flow h he b.2.flow).bind fun _ => alike_pure
  exact alike_instruction h he x.1 (he.graph.of_mem_instructionsOf hx).refers

/-- The lines of a method whose handles lead somewhere. -/
theorem alike_lines : Alike (e.withTypes t').lines e.lines := by
  unfold lines
  rw [paramCount_congr h he, symbol_congr h he, show (e.withTypes t').types.methodName (e.withTypes t').method =
    e.types.methodName e.method from h.methodName he.method]
  refine (alike_next _ _).lift.bind fun _ => ?_
  exact (alike_mapM fun b _ => alike_block h he b).bind fun _ => alike_pure

end Scope

end MethodScope

/-! ## Whole programs -/

section Table
variable {t t' : TypeTable} (h : t.ReadsAs t') (ht : t.Bounded) (hcore : t.HasCore)
include h ht hcore

theorem alike_methodLines (strings : List String) {ref : MethodRef} (href : t.HasMethod ref) :
    within.Alike (methodLines t' strings ref) (methodLines t strings ref) := by
  unfold methodLines
  dsimp only
  rw [h.readMethod (f := Method.isStatic) (fun _ => rfl) href, h.readMethod (f := Method.body) (fun _ => rfl) href,
    h.methodName href]
  split
  · exact alike_pure
  · split
    · exact alike_pure
    next g hg =>
      have hfits : MethodScope.Fits { types := t, method := ref, graph := g } :=
        ⟨ht, hcore, href, (ht.method ref).body g hg⟩
      exact ((MethodScope.alike_lines h hfits).run _).bind fun _ => alike_pure

theorem alike_methodsLines (strings : List String) {refs : List MethodRef} (hrefs : ∀ ref ∈ refs, t.HasMethod ref) :
    within.Alike (methodsLines t' strings refs) (methodsLines t strings refs) := by
  induction refs generalizing strings with
  | nil => exact alike_pure
  | cons ref refs ih =>
    refine (alike_methodLines h ht hcore strings (hrefs ref List.mem_cons_self)).bind fun out => ?_
    exact (ih out.2 fun other hother => hrefs other (List.mem_cons_of_mem _ hother)).bind fun _ => alike_pure

end Table

theorem hasMethod_of_mem_definedMethods {t : TypeTable} {ref : MethodRef} (h : ref ∈ definedMethods t) :
    t.HasMethod ref := by
  obtain ⟨d, hd, href⟩ := List.mem_flatMap.mp h
  obtain ⟨i, hi, rfl⟩ := List.mem_map.mp href
  have hdef := mem_numbered_iff.mp (List.mem_of_mem_filter hd)
  refine ⟨(List.getElem?_eq_some_iff.mp hdef).1, ?_⟩
  change i < (t.get d.1).methods.length
  rw [get_of_mem_defined hd]
  exact List.mem_range.mp hi

end Machine

namespace Assembly.Bounded
variable {a : Assembly} (ha : a.Bounded) {types : TypeTable} (h : a.types.ReadsAs types)
include ha h

theorem alike_startLines : within.Alike (EmitError.ofDefect (Machine.startLines (a.withTypes types)))
    (EmitError.ofDefect (Machine.startLines a)) := by
  have hmethod : ∀ m, a.entryPoint = some m → ∃ c c', a.types.methodEntry m = .ok c ∧
      types.methodEntry m = .ok c' ∧ types.symbol m = a.types.symbol m := by
    intro m hm
    obtain ⟨c, hc⟩ := hasMethod_iff.mp (ha.entry m hm)
    obtain ⟨span, hc'⟩ := h.methodEntry (ha.entry m hm).1 hc
    exact ⟨c, _, hc, hc', symbol_congr h ha.types (ha.entry m hm)⟩
  obtain ⟨name, t, entryPoint⟩ := a
  unfold Machine.startLines Assembly.withTypes
  cases entryPoint with
  | none => exact alike_pure
  | some m =>
    obtain ⟨c, c', hc, hc', hsymbol⟩ := hmethod m rfl
    simp only [Option.mapM_some, hc, hc', Option.toList_some, List.map_cons, hsymbol]
    exact alike_pure

variable (hcore : a.types.HasCore)
include hcore

/-- The program is the same whatever stands past the end of the table, and its writing stops at no handle that
leads nowhere. -/
theorem alike_machineLines : within.Alike (a.withTypes types).machineLines a.machineLines := by
  have hmethods : Machine.definedMethods types = Machine.definedMethods a.types := by
    have hgist : ∀ t : TypeTable, Machine.definedMethods t.gist = Machine.definedMethods t := by
      intro t
      unfold Machine.definedMethods
      rw [defined_gist, List.flatMap_map]
      simp only [Prod.map, id, TypeDef.methods_gist, List.length_map]
    rw [← hgist types, Machine.definedMethods, h.defined, ← Machine.definedMethods, hgist]
  unfold Assembly.machineLines
  refine (ha.alike_startLines h).bind fun _ => ?_
  rw [show (a.withTypes types).types = types from rfl, hmethods]
  refine Alike.bind ?_ fun _ => alike_pure
  exact Machine.alike_methodsLines h ha.types hcore [] fun ref href =>
    Machine.hasMethod_of_mem_definedMethods href

end Assembly.Bounded

end TreeCompiler
