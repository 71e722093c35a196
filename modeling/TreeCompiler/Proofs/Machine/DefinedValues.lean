import TreeCompiler.Proofs.FlowGraph.Placement
import TreeCompiler.Proofs.Image.Success
import TreeCompiler.Proofs.Machine.WrittenLines

/-!
# Values that are defined

No target finds a value of a lowered program used before it is made. A method for which the machine has all that it
needs is written, unless registers run out.
-/

namespace TreeCompiler

open Judgement List FlowGraph

/-- The constant is a word of the machine, or a text. -/
def Constant.isWord : Constant → Bool
  | .int _ v => IntKind.i64.holds v
  | _ => true

/-- The machine has the instruction. Only methods of the program can be called, and these are not the
operations of the machine. -/
def Instruction.isSupported (t : TypeTable) : Instruction → Bool
  | .constant c _ => c.isWord
  | .loadArg .this | .storeField .. => false
  | .call m _ => !t.isIntrinsic m && (t.get m.type).origin == .defined
  | _ => true

namespace Machine

open Judgement (Holds)

namespace MethodScope
variable {e : MethodScope} {w w' : Writing} {x : InstrId × Instruction} {p : Place} {α : Type}
  {J : Judgement (Except EmitError)} {id : InstrId} {i : Instruction} {done rest : Script}

/-! ## What needs a register -/

/-- The method that is called has a result, and is not an operation of the machine. -/
def answers (e : MethodScope) (m : MethodRef) : Bool :=
  !e.types.isIntrinsic m && e.yields (e.types.method m)

def body (e : MethodScope) : Script :=
  e.graph.script

/-- The results and variables of the body, each of which needs a register. -/
def needs (e : MethodScope) : Places :=
  placesOf e.answers e.body

theorem needs_of_split (hsplit : e.body = done ++ x :: rest) (hplace : x.2.place? e.answers x.1 = some p) :
    e.needs = placesOf e.answers done ++ p :: placesOf e.answers rest := by
  rw [needs, hsplit, placesOf_append]
  exact congrArg (placesOf e.answers done ++ ·) (filterMap_cons_some hplace)

def arity (e : MethodScope) : Nat :=
  e.decl.params.length

/-- Some register is needed, and there are not that many. -/
def Exceeds (e : MethodScope) : Prop :=
  e.needs ≠ [] ∧ registerCount ≤ e.arity + e.needs.length

instance (e : MethodScope) : Decidable e.Exceeds :=
  inferInstanceAs (Decidable (_ ∧ _))

/-- The machine has all that the method needs but for registers. -/
structure Supported (e : MethodScope) : Prop where
  arity : e.arity + 1 < countSize
  supported : ∀ i ∈ e.graph.instructions, i.isSupported e.types = true

theorem Supported.paramCount_eq (h : e.Supported) : e.paramCount = e.arity :=
  Nat.mod_eq_of_lt (Nat.lt_of_succ_lt h.arity)

/-- Errors at which a method may stop: none is the use of a value that is not made, and where the machine has all
else, the only one is that too many registers are needed. -/
structure MayStop (e : MethodScope) (error : EmitError) : Prop where
  defined : ∀ target id name, error ≠ .unsupported target (.undefinedValue id name)
  exhausted : e.Supported → error = .outOfRegisters e.symbol ∧ e.Exceeds

abbrev judgement (e : MethodScope) : Judgement (Except EmitError) :=
  allowing e.MayStop

/-- The places that the instructions `done` need are taken, and there are registers for them. -/
structure Placed (e : MethodScope) (done : Script) (w : Writing) : Prop where
  places : w.places = placesOf e.answers done
  room : w.places ≠ [] → e.paramCount + w.places.length < registerCount

theorem Placed.congr (hw : e.Placed done w) (h : w'.places = w.places) : e.Placed done w' := by
  refine ⟨h.trans hw.places, ?_⟩
  rw [h]
  exact hw.room

theorem Placed.skip (hw : e.Placed done w) (hplace : i.place? e.answers id = none) : e.Placed (done ++ [(id, i)]) w :=
  ⟨(placesOf_concat_none hplace).symm ▸ hw.places, hw.room⟩

/-! ## Lines -/

theorem holds_throw {error : EmitError} {Q : α → Writing → Prop}
    (h : ∀ target id name, error ≠ .unsupported target (.undefinedValue id name)) (hlacks : ¬ e.Supported) :
    e.judgement.Holds (throw error : Writer α) w Q :=
  ⟨h, fun he => absurd he hlacks⟩

theorem post_ofDefect {x : Except Defect α} (h : e.Supported → ∃ a, x = .ok a) :
    e.judgement.post (EmitError.ofDefect x) fun _ => True := by
  cases x with
  | ok a => exact trivial
  | error d =>
    refine ⟨fun _ _ _ heq => (by cases heq), fun he => ?_⟩
    obtain ⟨a, ha⟩ := h he
    cases ha

theorem holds_takeRegister (hsplit : e.body = done ++ (id, i) :: rest)
    (hplace : i.place? e.answers id = some p) (hw : e.Placed done w) :
    e.judgement.Holds (e.takeRegister p) w fun _ w' => e.Placed (done ++ [(id, i)]) w' := by
  have hneeds := needs_of_split hsplit hplace
  unfold takeRegister
  refine holds_get ?_
  dsimp only
  split
  next hroom =>
    change e.paramCount + 1 + w.places.length < registerCount at hroom
    have hafter : e.Placed (done ++ [(id, i)]) { w with places := w.places ++ [p] } := by
      refine ⟨?_, fun _ => ?_⟩
      · rw [placesOf_concat_some hplace, ← hw.places]
      · rw [length_append, length_singleton]
        omega
    exact hafter
  next hfull =>
    change ¬ e.paramCount + 1 + w.places.length < registerCount at hfull
    refine ⟨fun _ _ _ h => (by cases h), fun he => ⟨rfl, ?_, ?_⟩⟩
    · rw [hneeds]
      simp
    · rw [he.paramCount_eq, hw.places] at hfull
      rw [hneeds, length_append, length_cons]
      omega

theorem holds_valueRegister (h : (w.places.number? (.value id)).isSome = true) :
    J.Holds (e.valueRegister id) w fun _ w' => w' = w := by
  obtain ⟨place, hplace⟩ := Option.isSome_iff_exists.mp h
  unfold valueRegister
  refine holds_get ?_
  rw [hplace]
  exact holds_pure rfl

theorem holds_stringSource (text : String) : J.Holds (stringSource text) w fun _ w' => w'.places = w.places := by
  unfold stringSource
  refine holds_get ?_
  dsimp only
  split
  · exact holds_pure rfl
  · exact J.post_pure rfl

theorem holds_constantSource {c : Constant} (h : e.Supported → c.isWord = true) :
    e.judgement.Holds (constantSource c) w fun _ w' => w'.places = w.places := by
  cases c with
  | string text => exact (holds_stringSource text).bind fun _ _ hplaces => holds_pure hplaces
  | int kind v =>
    unfold constantSource
    dsimp only
    split
    · exact holds_pure rfl
    next hnone =>
      refine holds_throw (fun _ _ _ heq => by cases heq) fun he => ?_
      have hv : Constant.asInt? (.int kind v) = some v := if_pos (h he)
      cases hnone.symm.trans hv
  | _ => exact holds_pure rfl

theorem holds_valueRegisters {ids : List InstrId} (h : ∀ id ∈ ids, (w.places.number? (.value id)).isSome = true) :
    J.Holds (ids.mapM e.valueRegister) w fun _ w' => w' = w := by
  refine Holds.mapM (I := fun _ w' => w' = w) (fun done id rest hsplit w' hw' => ?_) rfl
  subst hw'
  exact holds_valueRegister (h id (hsplit ▸ mem_append_right _ mem_cons_self))

theorem mem_instructions (hstraight : e.graph.Straight e.types e.decl)
    (hi : (id, i) ∈ e.body) : i ∈ e.graph.instructions := by
  rw [← hstraight.map_snd_script]
  exact mem_map_of_mem hi

section Body
variable (hfinished : e.graph.Finished) (hstraight : e.graph.Straight e.types e.decl)
include hfinished hstraight

/-- An instruction takes the register that it needs, and values of earlier ones keep theirs. -/
theorem holds_instruction (hsplit : e.body = done ++ (id, i) :: rest) (hw : e.Placed done w) :
    e.judgement.Holds (e.instruction id i) w fun _ w' => e.Placed (done ++ [(id, i)]) w' := by
  have hcovers : w.places.Covers done := hw.places ▸ covers_placesOf e.answers done
  have hplaced := hfinished.toAssigned.isSome_number? hstraight.numbered hsplit hcovers
  have hallowed := hstraight.allowed_of_split hsplit
  have hmem : (id, i) ∈ e.body := hsplit ▸ mem_append_right _ mem_cons_self
  have hsupported : e.Supported → i.isSupported e.types = true :=
    fun he => he.supported i (mem_instructions hstraight hmem)
  have hdefine : i.place? e.answers id = some (.value id) → ∀ source note,
      e.judgement.Holds (e.define id source note) w fun _ w' => e.Placed (done ++ [(id, i)]) w' :=
    fun hplace _ _ => (holds_takeRegister hsplit hplace hw).bind fun _ _ h => holds_pure h
  cases i with
  | constant value type =>
    refine (holds_takeRegister hsplit rfl hw).bind fun _ w' hw' => ?_
    refine (holds_constantSource hsupported).bind fun _ w'' hplaces => holds_pure ?_
    exact hw'.congr hplaces
  | load type source =>
    exact (holds_valueRegister (hplaced source mem_cons_self)).bind_same fun value => hdefine rfl _ _
  | loadArg arg =>
    cases arg with
    | this => exact holds_throw (fun _ _ _ h => by cases h) fun he => by cases hsupported he
    | param n =>
      have hn : n < e.arity := hallowed
      refine (holds_takeRegister hsplit rfl hw).bind fun _ w' hw' => ?_
      refine holds_lift_bind (post_ofDefect fun he => ⟨_, Defect.next_of_lt _ _ ?_⟩) fun _ _ => holds_pure hw'
      exact (Nat.lt_of_le_of_lt hn (Nat.lt_of_succ_lt he.arity)).trans (by decide)
  | loadLocal b =>
    -- the variable has been declared, so that it has its register
    have hb : (w.places.number? (.binding b)).isSome = true := by
      rw [Places.isSome_number?_iff, hw.places, binding_mem_placesOf_iff]
      exact hallowed
    obtain ⟨place, hplace⟩ := Option.isSome_iff_exists.mp hb
    have hregister : e.judgement.Holds (e.bindingRegister b) w fun _ w' => w' = w := by
      unfold bindingRegister
      refine holds_get ?_
      rw [hplace]
      exact holds_pure rfl
    exact hregister.bind_same fun value => hdefine rfl _ _
  | alloca b type init =>
    have hnew : w.places.number? (.binding b) = none := by
      rw [Places.number?_eq_none_iff, hw.places]
      exact hstraight.notMem_placesOf hsplit rfl
    have hregister : e.judgement.Holds (e.bindingRegister b) w fun _ w' =>
        w.places <+: w'.places ∧ e.Placed (done ++ [(id, .alloca b type init)]) w' := by
      unfold bindingRegister
      refine holds_get ?_
      rw [hnew]
      refine (holds_takeRegister hsplit rfl hw).imp fun _ w' hw' => ⟨?_, hw'⟩
      rw [hw'.places, hw.places, placesOf_append]
      exact prefix_append _ _
    refine hregister.bind fun target w' hw' => ?_
    cases init with
    | none => exact holds_pure hw'.2
    | some init =>
      have hinit := Places.isSome_number?_of_prefix (hplaced init mem_cons_self) hw'.1
      exact (holds_valueRegister hinit).bind_same fun value => holds_pure hw'.2
  | binary op type lhs rhs =>
    refine (holds_valueRegister (hplaced lhs mem_cons_self)).bind_same fun left => ?_
    refine (holds_valueRegister (hplaced rhs (mem_cons_of_mem _ mem_cons_self))).bind_same fun right => ?_
    exact (holds_takeRegister hsplit rfl hw).bind fun _ _ h => holds_pure h
  | call m args =>
    obtain ⟨callee, hcallee, -⟩ := hallowed
    have hfound : e.judgement.post (EmitError.ofDefect (e.types.methodEntry m)) fun c => c = callee := by
      rw [hcallee]
      exact rfl
    refine holds_lift_bind hfound fun callee' h => ?_
    subst h
    split
    next hintrinsic =>
      unfold intrinsic
      split
      · exact holds_pure (hw.skip (by simp [Instruction.place?, answers, hintrinsic]))
      · exact holds_throw (fun _ _ _ h => by cases h) (by simpa [Instruction.isSupported, hintrinsic] using hsupported)
    next hmethod =>
      split
      next hexternal =>
        exact holds_throw (fun _ _ _ h => by cases h) (by simpa [Instruction.isSupported, hexternal] using hsupported)
      refine holds_get ?_
      refine (holds_valueRegisters hplaced).bind_same fun values => ?_
      have hanswers : e.answers m = e.yields callee' := by
        rw [answers, Bool.eq_false_iff.mpr hmethod, e.types.method_of_methodEntry m callee' hcallee]
        rfl
      cases hyields : e.yields callee' with
      | true =>
        rw [if_pos rfl]
        refine (hdefine ?_ _ _).bind fun _ _ h => holds_pure h
        rw [Instruction.place?, hanswers, hyields, if_pos rfl]
      | false =>
        rw [if_neg Bool.false_ne_true]
        refine holds_pure (hw.skip ?_)
        rw [Instruction.place?, hanswers, hyields, if_neg Bool.false_ne_true]
  | newObject ctor args => exact hdefine rfl _ _
  | storeField f target value => exact holds_throw (fun _ _ _ h => by cases h) fun he => by cases hsupported he

theorem holds_flow (hw : e.Placed e.body w) :
    e.judgement.Holds (e.flow (e.graph.block .entry).flow) w fun _ w' => w' = w := by
  cases hflow : (e.graph.block .entry).flow with
  | ret value =>
    cases value with
    | none => exact holds_pure rfl
    | some value =>
      obtain ⟨j, hj, hvalue⟩ := hfinished.returned value hflow
      have hcovers : w.places.Covers e.body := hw.places ▸ covers_placesOf e.answers e.body
      have hplaced := hcovers _ (mem_instructionsOf hstraight.numbered hj) (Or.inl hvalue)
      exact (holds_valueRegister hplaced).bind fun _ _ h => holds_pure h
  | jump target | unreachable => exact holds_pure rfl

theorem holds_instructions (hsplit : e.body = done ++ rest) (strings : List String) :
    e.judgement.Holds (e.instructions done) { strings } fun _ w' => e.Placed done w' := by
  refine Holds.mapM (I := e.Placed) (fun before x after hdone w' hw' => ?_) ⟨rfl, fun h => absurd rfl h⟩
  have hbody : e.body = before ++ (x.1, x.2) :: (after ++ rest) := by
    rw [hsplit, hdone, append_assoc, cons_append]
  exact holds_instruction hfinished hstraight hbody hw'

theorem holds_lines (strings : List String) :
    e.judgement.Holds e.lines { strings } fun _ w' => e.Placed e.body w' := by
  have hblocks : e.graph.numberedBlocks = [(.entry, e.graph.block .entry)] := by
    rw [numberedBlocks, hstraight.blocks]
    rfl
  have hblock : e.judgement.Holds (e.block (.entry, e.graph.block .entry)) { strings }
      fun _ w' => e.Placed e.body w' := by
    refine (holds_instructions hfinished hstraight (append_nil _).symm strings).bind fun codes w' hw' => ?_
    exact (holds_flow hfinished hstraight hw').bind_same fun _ => holds_pure hw'
  unfold lines
  refine holds_lift_bind (post_ofDefect fun he => ⟨_, Defect.next_of_lt _ _ (he.paramCount_eq ▸ he.arity)⟩)
    fun _ _ => ?_
  simp only [hblocks, mapM_cons, mapM_nil, pure_bind, bind_assoc]
  exact hblock.bind fun _ _ h => holds_pure h

end Body

end MethodScope

/-! ## Programs -/

/-- The judgement about programs: every error is excused but the use of a value that is not made. -/
abbrev judgement : Judgement (Except EmitError) :=
  except False

section Programs
variable {good : Prop} {a : Assembly} (ha : a.Ready good)
include ha

theorem post_methodLines (strings : List String) (ref : MethodRef) :
    judgement.post (methodLines a.types strings ref) fun _ => True := by
  unfold methodLines
  dsimp only
  split
  · exact trivial
  · split
    · exact trivial
    next graph hgraph =>
      obtain ⟨hfinished, hstraight⟩ := ha.bodies ref graph hgraph
      refine judgement.post_bind (P := fun _ => True) ?_ fun _ _ => trivial
      have hlines := MethodScope.holds_lines (e := { types := a.types, method := ref, graph }) hfinished hstraight
        strings
      rw [Judgement.Holds] at hlines
      generalize StateT.run _ _ = r at hlines ⊢
      cases r with
      | ok out => exact trivial
      | error error => exact ⟨hlines.defined, id⟩

theorem post_methodsLines (strings : List String) (refs : List MethodRef) :
    judgement.post (methodsLines a.types strings refs) fun _ => True := by
  induction refs generalizing strings with
  | nil => exact trivial
  | cons ref refs ih =>
    refine judgement.post_bind (post_methodLines ha strings ref) fun first _ => ?_
    exact judgement.post_bind (ih first.2) fun _ _ => trivial

/-- The program for the machine uses no value that is not made. -/
theorem excused_of_machineLines {e : EmitError} (h : a.machineLines = .error e) : e.Excused False := by
  have hpost : judgement.post a.machineLines fun _ => True := by
    refine judgement.post_bind (Judgement.post_ofDefect (Q := fun _ => True) False.elim fun _ _ => trivial)
      fun _ _ => ?_
    exact judgement.post_bind (post_methodsLines ha [] _) fun _ _ => trivial
  rw [h] at hpost
  exact hpost

end Programs

theorem MethodScope.traces_constant? {e : MethodScope} {m : Method} (h : e.graph.SingleAssignment m)
    (id : InstrId) : e.graph.Traces id (e.constant? id) := by
  rcases Nat.lt_or_ge id.index (e.graph.instructionCount + 1) with hlt | hle
  · exact h.traces_constantOf _ id hlt
  · have hnone : e.graph.instruction? id = none := getElem?_eq_none (Nat.le_of_succ_le hle)
    rw [constant?, constantOf, hnone]
    exact .stop (fun _ _ h => by cases hnone.symm.trans h) fun _ _ h => by cases hnone.symm.trans h

end Machine

/-- All bodies of a lowered program are in single-assignment form, and walks to constants end in them. No
target finds a value used before it is made. -/
theorem Compilation.singleAssignment_lowered (trees : List Tree) (options : Options) :
    (∀ ref graph, ((lowered trees options).assembly.types.method ref).body = some graph →
      graph.SingleAssignment ((lowered trees options).assembly.types.method ref) ∧
        ∀ id, graph.Traces id (Machine.MethodScope.constant?
          { types := (lowered trees options).assembly.types, method := ref, graph } id)) ∧
      ∀ target place id name, Target.emit target (lowered trees options).assembly ≠
        .error (.unsupported place (.undefinedValue id name)) := by
  have hready : (lowered trees options).assembly.Ready False :=
    ready_lowered trees options False.elim False.elim
  refine ⟨fun ref graph hgraph => ?_, fun target place id name hemit => ?_⟩
  · obtain ⟨hfinished, hstraight⟩ := hready.bodies ref graph hgraph
    have hsingle := FlowGraph.singleAssignment_of_finished hstraight hfinished
    exact ⟨hsingle, fun id => Machine.MethodScope.traces_constant? (e := ⟨_, ref, graph⟩) hsingle id⟩
  · cases target with
    | managed =>
      cases himage : (lowered trees options).assembly.image with
      | ok image =>
        rw [Target.emit, himage] at hemit
        cases hemit
      | error e =>
        rw [Target.emit, himage] at hemit
        cases hemit
        exact (Assembly.excused_of_image hready himage).defined _ _ _ rfl
    | machine =>
      cases hlines : (lowered trees options).assembly.machineLines with
      | ok lines =>
        rw [Target.emit, Assembly.machineText, hlines] at hemit
        cases hemit
      | error e =>
        rw [Target.emit, Assembly.machineText, hlines] at hemit
        cases hemit
        exact (Machine.excused_of_machineLines hready hlines).defined _ _ _ rfl

end TreeCompiler
