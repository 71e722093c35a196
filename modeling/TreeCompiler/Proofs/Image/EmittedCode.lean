import TreeCompiler.Proofs.FlowGraph.Evaluation
import TreeCompiler.Proofs.Image.Naming

/-!
# The code that is emitted

What the stack code of an instruction can be, said once and without the order in which slots and rows
are made.

* `CodeScope.Emits e f id frame i code frame'` : in view of the finished references `f`, the code of
  instruction `i` with result `id`, from the slots of `frame` on, is `code` and leaves the slots of
  `frame'`;
* `CodeScope.Emits.grows` : slots are only added, each for something of a known type.
-/

namespace TreeCompiler

/-! ## Slots -/

namespace Frame

/-- `slot` is a new slot for `p`, of a type whose signature is recorded. -/
structure Takes (f : References) (t : TypeTable) (frame : Frame) (p : Place) (type : Option TypeId)
    (slot : Nat) (frame' : Frame) : Prop where
  slot_eq : slot = frame.places.length
  places : frame'.places = frame.places ++ [p]
  signatures : ∃ blob, frame'.signatures = frame.signatures ++ [blob] ∧ t.SignsSome (f.NamesType t) type blob

/-- `slot` is the slot of a variable, taken if the variable had none. -/
def Holds (f : References) (t : TypeTable) (g : FlowGraph) (frame : Frame) (b : BindingId)
    (slot : Nat) (frame' : Frame) : Prop :=
  match frame.places.number? (.binding b) with
  | some s => slot = s ∧ frame' = frame
  | none => ∃ p, g.paramEntry b = .ok p ∧ frame.Takes f t (.binding b) p.type slot frame'

def Slots (frame : Frame) (ids : List InstrId) (slots : List Nat) : Prop :=
  List.Forall₂ (fun id slot => frame.places.number? (.value id) = some slot) ids slots

end Frame

namespace CodeScope

/-! ## Instructions -/

def Loads (f : References) : Constant → StackInstr → Prop
  | .int .i64 v, load | .int .u64 v, load => load = .loadInt64 v
  | .int _ v, load => load = .loadInt32 v
  | .float32 x, load => load = .loadSingle x
  | .float64 x, load => load = .loadDouble x
  | .string s, load => ∃ token, load = .loadString token ∧ f.NamesText token s
  | .char c, load => load = .loadInt32 c.toNat
  | .bool b, load => load = .loadInt32 (if b then 1 else 0)
  | .null, load => load = .loadNull

/-- A new slot for the result of an instruction. -/
def Stores (e : CodeScope) (f : References) (id : InstrId) (frame : Frame) (slot : Nat)
    (frame' : Frame) : Prop :=
  frame.Takes f e.types (.value id) (e.resultType id) slot frame'

/-- The code of an instruction and the slots after it. -/
inductive Emits (e : CodeScope) (f : References) (id : InstrId) :
    Frame → Instruction → List StackInstr → Frame → Prop where
  | constant : Loads f value load → e.Stores f id frame slot frame' →
      Emits e f id frame (.constant value type) [load, .storeLocal slot] frame'
  | load : frame.places.number? (.value source) = some from_ → e.Stores f id frame slot frame' →
      Emits e f id frame (.load type source) [.loadLocal from_, .storeLocal slot] frame'
  | loadArg : argIndex e.decl.isStatic arg = .ok index → e.Stores f id frame slot frame' →
      Emits e f id frame (.loadArg arg) [.loadArg index, .storeLocal slot] frame'
  | loadLocal : frame.Holds f e.types e.graph binding from_ mid → e.Stores f id mid slot frame' →
      Emits e f id frame (.loadLocal binding) [.loadLocal from_, .storeLocal slot] frame'
  | allocaFrom : frame.Holds f e.types e.graph binding slot frame' →
      frame'.places.number? (.value init) = some from_ →
      Emits e f id frame (.alloca binding type (some init)) [.loadLocal from_, .storeLocal slot] frame'
  | alloca : frame.Holds f e.types e.graph binding slot frame' →
      Emits e f id frame (.alloca binding type none) [] frame'
  | binary : frame.places.number? (.value lhs) = some left → frame.places.number? (.value rhs) = some right →
      e.Stores f id frame slot frame' →
      Emits e f id frame (.binary op type lhs rhs)
        (.loadLocal left :: .loadLocal right :: (operator op (e.unsigned type lhs) ++ [.storeLocal slot])) frame'
  | call : frame.Slots args slots → f.NamesMethod e.types token m → e.yields m = true →
      e.Stores f id frame slot frame' →
      Emits e f id frame (.call m args) (slots.map .loadLocal ++ [.call token, .storeLocal slot]) frame'
  | callVoid : frame.Slots args slots → f.NamesMethod e.types token m → e.yields m = false →
      Emits e f id frame (.call m args) (slots.map .loadLocal ++ [.call token]) frame
  | newObject : frame.Slots args slots → f.NamesMethod e.types token ctor → e.Stores f id frame slot frame' →
      Emits e f id frame (.newObject ctor args) (slots.map .loadLocal ++ [.newObject token, .storeLocal slot]) frame'
  | storeField : frame.places.number? (.value target) = some object →
      frame.places.number? (.value value) = some from_ → f.NamesField e.types token field →
      Emits e f id frame (.storeField field target value) [.loadLocal object, .loadLocal from_, .storeField token]
        frame

/-- The code of instructions one after the other. -/
inductive EmitsAll (e : CodeScope) (f : References) :
    Frame → Script → List (List StackInstr) → Frame → Prop where
  | nil : EmitsAll e f frame [] [] frame
  | cons {id : InstrId} : e.Emits f id frame i code mid → EmitsAll e f mid rest codes frame' →
      EmitsAll e f frame ((id, i) :: rest) (code :: codes) frame'

inductive EmitsFlow (e : CodeScope) (frame : Frame) (b : Block) : List StackInstr → Prop where
  | retValue : b.flow = .ret (some value) → frame.places.number? (.value value) = some slot →
      EmitsFlow e frame b [.loadLocal slot, .ret]
  | ret : b.flow = .ret none → EmitsFlow e frame b [.ret]
  | jump : b.flow = .jump target → EmitsFlow e frame b [.jump target]
  | throwObject : b.flow = .unreachable → e.thrown? b = some object →
      frame.places.number? (.value object) = some slot → EmitsFlow e frame b [.loadLocal slot, .throw]
  | throwNull : b.flow = .unreachable → e.thrown? b = none →
      EmitsFlow e frame b [.loadNull, .throw]

inductive EmitsBlocks (e : CodeScope) (f : References) :
    Frame → List Block → List (List StackInstr) → Frame → Prop where
  | nil : EmitsBlocks e f frame [] [] frame
  | cons : e.EmitsAll f frame (e.graph.instructionsOf b) codes mid → e.EmitsFlow mid b end_ →
      EmitsBlocks e f mid rest others frame' →
      EmitsBlocks e f frame (b :: rest) ((codes.flatten ++ end_) :: others) frame'

end CodeScope

/-! ## Slots are only added -/

theorem FlowGraph.param_of_paramEntry (g : FlowGraph) {b : BindingId} {p : BlockParam}
    (h : g.paramEntry b = .ok p) : g.param b = p := by
  unfold paramEntry at h
  cases hblock : Defect.entry g.blocks b.block.index with
  | error d =>
    rw [hblock] at h
    cases h
  | ok block =>
    rw [hblock] at h
    have hfound := Defect.entry_eq_ok_iff.mp hblock
    have hparam := Defect.entry_eq_ok_iff.mp h
    simp only [param, FlowGraph.block, List.getD_eq_getElem?_getD, hfound, Option.getD_some, hparam]

def CodeScope.placeType (e : CodeScope) : Place → Option TypeId
  | .value id => e.resultType id
  | .binding b => (e.graph.param b).type

namespace CodeScope

/-- Slots are taken one after the other, each for something of a known type. -/
inductive Grows (e : CodeScope) (f : References) : Frame → Frame → Prop where
  | refl (frame : Frame) : Grows e f frame frame
  | take : Grows e f frame mid → mid.Takes f e.types p (e.placeType p) slot frame' → Grows e f frame frame'

section Grows
variable {e : CodeScope} {f : References} {frame mid frame' : Frame} {slot : Nat} {id : InstrId}
  {codes : List (List StackInstr)}

theorem Grows.trans (h : e.Grows f frame mid) (h' : e.Grows f mid frame') : e.Grows f frame frame' := by
  induction h' with
  | refl => exact h
  | take _ htakes ih => exact .take ih htakes

theorem Grows.places (h : e.Grows f frame frame') : frame.places <+: frame'.places := by
  induction h with
  | refl => exact List.prefix_rfl
  | take _ htakes ih => exact ih.trans (htakes.places ▸ List.prefix_append _ _)

theorem grows_of_holds {b : BindingId} (h : frame.Holds f e.types e.graph b slot frame') : e.Grows f frame frame' := by
  unfold Frame.Holds at h
  split at h
  · rw [h.2]
    exact .refl _
  · obtain ⟨p, hp, htakes⟩ := h
    have htype : p.type = e.placeType (.binding b) := by
      rw [placeType, e.graph.param_of_paramEntry hp]
    rw [htype] at htakes
    exact .take (.refl _) htakes

theorem grows_of_stores (h : e.Stores f id frame slot frame') : e.Grows f frame frame' :=
  .take (.refl _) h

theorem Emits.grows {i : Instruction} {code : List StackInstr} (h : e.Emits f id frame i code frame') :
    e.Grows f frame frame' := by
  cases h with
  | constant _ hstores | load _ hstores | loadArg _ hstores | binary _ _ hstores | call _ _ _ hstores
  | newObject _ _ hstores =>
    exact grows_of_stores hstores
  | loadLocal hholds hstores => exact (grows_of_holds hholds).trans (grows_of_stores hstores)
  | allocaFrom hholds | alloca hholds => exact grows_of_holds hholds
  | callVoid | storeField => exact .refl _

theorem EmitsAll.grows {is : Script} (h : e.EmitsAll f frame is codes frame') : e.Grows f frame frame' := by
  induction h with
  | nil => exact .refl _
  | cons hfirst _ ih => exact hfirst.grows.trans ih

theorem EmitsBlocks.grows {bs : List Block} (h : e.EmitsBlocks f frame bs codes frame') : e.Grows f frame frame' := by
  induction h with
  | nil => exact .refl _
  | cons hall _ _ ih => exact hall.grows.trans ih

end Grows

end CodeScope

/-! ## What coding ensures -/

namespace Coding

/-- From the slots of `frame` on, `x` ensures `Q` of its result, the slots it leaves and all references
to come. -/
def Ensures {α : Type} (t : TypeTable) (known : References → Prop) (frame : Frame) (x : Coding α)
    (Q : α → Frame → References → Prop) : Prop :=
  Emission.Ensures t known (x.run frame) fun out f => Q out.1 out.2 f

variable {α β : Type} {t : TypeTable} {known : References → Prop} {frame : Frame}

theorem Ensures.bind {x : Coding α} {k : α → Coding β} {P : α → Frame → References → Prop}
    {Q : β → Frame → References → Prop} (hx : Ensures t known frame x P)
    (hk : ∀ a mid, Ensures t (fun f => known f ∧ P a mid f) mid (k a) Q) : Ensures t known frame (x >>= k) Q := by
  unfold Ensures
  rw [StateT.run_bind]
  exact Emission.Ensures.bind hx fun out => hk out.1 out.2

theorem Ensures.imp {x : Coding α} {P Q : α → Frame → References → Prop}
    (hx : Ensures t known frame x P) (h : ∀ a mid f, known f → P a mid f → Q a mid f) : Ensures t known frame x Q :=
  Emission.Ensures.imp hx fun out => h out.1 out.2

theorem Ensures.of_known {x : Coding α} {Q : α → Frame → References → Prop} {A : Prop}
    (hA : ∀ f, known f → A) (hx : A → Ensures t known frame x Q) : Ensures t known frame x Q :=
  Emission.Ensures.of_known hA hx

theorem ensures_pure {a : α} {Q : α → Frame → References → Prop}
    (h : ∀ f, known f → Q a frame f) : Ensures t known frame (pure a) Q :=
  Emission.ensures_pure h

theorem ensures_throw (e : EmitError) {Q : α → Frame → References → Prop} : Ensures t known frame (throw e) Q :=
  Emission.ensures_throw e

theorem ensures_lift_bind {x : Emission α} {k : α → Coding β} {P : α → References → Prop}
    {Q : β → Frame → References → Prop} (hx : Emission.Ensures t known x P)
    (hk : ∀ a, Ensures t (fun f => known f ∧ P a f) frame (k a) Q) : Ensures t known frame (liftM x >>= k) Q := by
  unfold Ensures
  rw [StateT.run_bind]
  change Emission.Ensures t known ((x >>= fun a => pure (a, frame)) >>= fun out => (k out.1).run out.2) _
  simp only [bind_assoc, pure_bind]
  exact hx.bind hk

theorem ensures_get {k : Frame → Coding β} {Q : β → Frame → References → Prop}
    (hk : Ensures t known frame (k frame) Q) : Ensures t known frame (get >>= k) Q := by
  unfold Ensures
  rw [StateT.run_bind, StateT.run_get, pure_bind]
  exact hk

end Coding

namespace CodeScope

open Coding (Ensures)

section Instructions
variable {known : References → Prop} {frame : Frame} (e : CodeScope)

theorem ensures_takeSlot (p : Place) (type : Option TypeId) : Ensures e.types known frame (e.takeSlot p type)
      fun slot frame' f => frame.Takes f e.types p type slot frame' := by
  unfold takeSlot
  refine Coding.ensures_lift_bind (Emission.ensures_typeSignature e.types e.name type) fun signature => ?_
  exact Emission.ensures_pure fun f hf => ⟨rfl, rfl, signature, rfl, hf.2⟩

/-- Code that ends with storing the result. -/
theorem ensures_storeResult {id : InstrId} {code : StackInstr → List StackInstr}
    {Q : List StackInstr → Frame → References → Prop}
    (h : ∀ slot mid f, known f → e.Stores f id frame slot mid → Q (code (.storeLocal slot)) mid f) :
    Ensures e.types known frame (do return code (← e.storeResult id)) Q := by
  unfold storeResult
  rw [bind_assoc]
  refine (ensures_takeSlot e (.value id) (e.resultType id)).bind fun slot mid => ?_
  exact Coding.ensures_pure fun f hf => h slot mid f hf.1 hf.2

theorem ensures_bindingSlot (b : BindingId) : Ensures e.types known frame (e.bindingSlot b)
      fun slot frame' f => frame.Holds f e.types e.graph b slot frame' := by
  unfold bindingSlot
  refine Coding.ensures_get ?_
  unfold Frame.Holds
  cases hslot : frame.places.number? (.binding b) with
  | some slot => exact Coding.ensures_pure fun _ _ => ⟨rfl, rfl⟩
  | none =>
    refine Coding.ensures_lift_bind (Emission.ensures_lift fun p hp f _ => Emission.ofDefect_eq_ok hp) fun p => ?_
    refine Ensures.of_known (fun f hf => hf.2) fun hp => ?_
    exact (ensures_takeSlot e (.binding b) p.type).imp fun slot mid f _ htakes => ⟨p, hp, htakes⟩

section Loading
variable {β : Type} {Q : β → Frame → References → Prop} {k : List StackInstr → Coding β}

/-- A value is loaded from its slot. -/
theorem ensures_loadValue {id : InstrId} {k : StackInstr → Coding β}
    (hk : ∀ slot, frame.places.number? (.value id) = some slot →
      Ensures e.types known frame (k (.loadLocal slot)) Q) :
    Ensures e.types known frame (e.loadValue id >>= k) Q := by
  unfold loadValue
  rw [bind_assoc]
  refine Coding.ensures_get ?_
  cases hslot : frame.places.number? (.value id) with
  | some slot => exact hk slot hslot
  | none => exact Coding.ensures_throw _

theorem ensures_mapM_loadValue {ids : List InstrId}
    (hk : ∀ slots, frame.Slots ids slots → Ensures e.types known frame (k (slots.map .loadLocal)) Q) :
    Ensures e.types known frame (ids.mapM e.loadValue >>= k) Q := by
  induction ids generalizing k with
  | nil => exact hk [] .nil
  | cons id ids ih =>
    rw [List.mapM_cons, bind_assoc]
    refine ensures_loadValue e fun slot hslot => ?_
    rw [bind_assoc]
    exact ih fun slots hslots => hk (slot :: slots) (.cons hslot hslots)

theorem ensures_loadValues {ids : List InstrId}
    (hk : ∀ slots, frame.Slots ids slots → Ensures e.types known frame (k (slots.map .loadLocal)) Q) :
    Ensures e.types known frame (e.loadValues ids >>= k) Q := by
  unfold loadValues
  rw [bind_assoc]
  by_cases hlen : ids.length < wordSize
  · simp only [List.take_of_length_le (Nat.le_of_lt hlen), if_pos hlen]
    exact ensures_mapM_loadValue e hk
  · simp only [if_neg hlen]
    exact ensures_mapM_loadValue e fun _ _ => Coding.ensures_throw _

end Loading

theorem ensures_loadConstant (t : TypeTable) (c : Constant) :
    Emission.Ensures t known (loadConstant c) fun load f => Loads f c load := by
  cases c with
  | int kind v => cases kind <;> exact Emission.ensures_pure fun _ _ => rfl
  | string s =>
    refine (Emission.ensures_stringToken t s).bind fun token => ?_
    exact Emission.ensures_pure fun f hf => ⟨token, rfl, hf.2⟩
  | float32 x | float64 x | char c | bool b | null => exact Emission.ensures_pure fun _ _ => rfl

theorem ensures_instruction (id : InstrId) (i : Instruction) : Ensures e.types known frame (e.instruction id i)
      fun code frame' f => e.Emits f id frame i code frame' := by
  cases i with
  | constant value type =>
    refine Coding.ensures_lift_bind (ensures_loadConstant e.types value) fun load => ?_
    exact ensures_storeResult e fun slot mid f hf hstore => .constant hf.2 hstore
  | load type source =>
    refine ensures_loadValue e fun from_ hfrom => ?_
    exact ensures_storeResult e fun slot mid f _ hstore => .load hfrom hstore
  | loadArg arg =>
    refine Coding.ensures_lift_bind (Emission.ensures_lift
      fun index hindex f _ => Emission.ofDefect_eq_ok hindex) fun index => ?_
    exact ensures_storeResult e fun slot mid f hf hstore => .loadArg hf.2 hstore
  | loadLocal binding =>
    refine (ensures_bindingSlot e binding).bind fun from_ mid => ?_
    exact ensures_storeResult e fun slot mid' f hf hstore => .loadLocal hf.2 hstore
  | alloca binding type init =>
    refine (ensures_bindingSlot e binding).bind fun slot mid => ?_
    cases init with
    | none => exact Coding.ensures_pure fun f hf => .alloca hf.2
    | some init =>
      refine ensures_loadValue e fun from_ hfrom => ?_
      exact Coding.ensures_pure fun f hf => .allocaFrom hf.2 hfrom
  | binary op type lhs rhs =>
    refine ensures_loadValue e fun left hleft => ensures_loadValue e fun right hright => ?_
    refine ensures_storeResult e fun slot mid f _ hstore => ?_
    rw [isUnsigned_eq, isUnsigned_eq]
    exact .binary hleft hright hstore
  | call method args =>
    refine ensures_loadValues e fun slots hslots => ?_
    refine Coding.ensures_lift_bind (Emission.ensures_methodToken e.types method) fun token => ?_
    cases hyields : e.yields method with
    | true =>
      rw [if_pos rfl]
      exact ensures_storeResult e fun slot mid f hf hstore => .call hslots hf.2 hyields hstore
    | false =>
      rw [if_neg (by decide)]
      exact Coding.ensures_pure fun f hf => .callVoid hslots hf.2 hyields
  | newObject ctor args =>
    refine ensures_loadValues e fun slots hslots => ?_
    refine Coding.ensures_lift_bind (Emission.ensures_methodToken e.types ctor) fun token => ?_
    exact ensures_storeResult e fun slot mid f hf hstore => .newObject hslots hf.2 hstore
  | storeField field target value =>
    refine ensures_loadValue e fun object hobject => ensures_loadValue e fun from_ hfrom => ?_
    refine Coding.ensures_lift_bind (Emission.ensures_fieldToken e.types field) fun token => ?_
    exact Coding.ensures_pure fun f hf => .storeField hobject hfrom hf.2

theorem ensures_instructions (is : Script) : Ensures e.types known frame (is.mapM fun (id, i) => e.instruction id i)
      fun codes frame' f => e.EmitsAll f frame is codes frame' := by
  induction is generalizing known frame with
  | nil => exact Coding.ensures_pure fun _ _ => .nil
  | cons i is ih =>
    rw [List.mapM_cons]
    refine (ensures_instruction e i.1 i.2).bind fun code mid => ih.bind fun codes mid' => ?_
    exact Coding.ensures_pure fun f hf => .cons hf.1.2 hf.2

/-! ## Blocks and bodies -/

theorem ensures_flow (b : Block) : Ensures e.types known frame (e.flow b)
      fun code frame' _ => frame' = frame ∧ e.EmitsFlow frame b code := by
  unfold flow
  cases hflow : b.flow with
  | ret value =>
    cases value with
    | none => exact Coding.ensures_pure fun _ _ => ⟨rfl, .ret hflow⟩
    | some value =>
      refine ensures_loadValue e fun slot hslot => ?_
      exact Coding.ensures_pure fun f _ => ⟨rfl, .retValue hflow hslot⟩
  | jump target => exact Coding.ensures_pure fun _ _ => ⟨rfl, .jump hflow⟩
  | unreachable =>
    dsimp only
    cases hthrown : e.thrown? b with
    | none => exact Coding.ensures_pure fun _ _ => ⟨rfl, .throwNull hflow hthrown⟩
    | some object =>
      refine ensures_loadValue e fun slot hslot => ?_
      exact Coding.ensures_pure fun f _ => ⟨rfl, .throwObject hflow hthrown hslot⟩

theorem ensures_blocks (bs : List Block) : Ensures e.types known frame (bs.mapM e.block)
      fun codes frame' f => e.EmitsBlocks f frame bs codes frame' := by
  induction bs generalizing known frame with
  | nil => exact Coding.ensures_pure fun _ _ => .nil
  | cons b bs ih =>
    have hblock : Ensures e.types known frame (e.block b) fun code mid f =>
        ∃ codes end_, e.EmitsAll f frame (e.graph.instructionsOf b) codes mid ∧
          e.EmitsFlow mid b end_ ∧ code = codes.flatten ++ end_ := by
      unfold block
      refine (ensures_instructions e _).bind fun codes mid => ?_
      refine (ensures_flow e b).bind fun end_ mid' => Coding.ensures_pure fun f hf => ?_
      obtain ⟨⟨-, hcodes⟩, rfl, hend⟩ := hf
      exact ⟨codes, end_, hcodes, hend, rfl⟩
    rw [List.mapM_cons]
    refine hblock.bind fun code mid => ih.bind fun others mid' => Coding.ensures_pure fun f hf => ?_
    obtain ⟨⟨-, codes, end_, hcodes, hend, rfl⟩, hothers⟩ := hf
    exact .cons hcodes hend hothers

/-- The code of a method, and the signatures of its slots. -/
theorem ensures_body : Emission.Ensures e.types known e.body fun body f => ∃ codes frame,
      e.EmitsBlocks f {} e.graph.blocks codes frame ∧ body.code = StackCode.assemble codes ∧
        body.locals = frame.signatures := by
  unfold body
  refine Emission.Ensures.bind (ensures_blocks e e.graph.blocks) fun out => ?_
  exact Emission.ensures_pure fun f hf => ⟨out.1, out.2, hf.2, rfl, rfl⟩

end Instructions

end CodeScope

end TreeCompiler
