import TreeCompiler.Proofs.Image.RowTokens
import TreeCompiler.Proofs.StackCode.StraightLine

/-!
# Emitted code does what the graph does

The stack is empty between the instructions of a graph, and the slots hold what is bound. So the code
of one instruction leads from slots that mirror the bindings to slots that mirror the bindings after
the instruction.
-/

namespace TreeCompiler

open List CodeScope Instruction Value Option StackCode Frame

/-! ## Slots that mirror bindings -/

theorem set_of_getElem? {α : Type} {as : List α} {n : Nat} {a : α} (h : as[n]? = some a) : as.set n a = as := by
  obtain ⟨hn, rfl⟩ := List.getElem?_eq_some_iff.mp h
  exact set_getElem_self hn

/-- What the slots hold is what is bound, and slots that are not taken hold nothing. -/
structure Frame.Mirrors (frame : Frame) (s : Bindings Value) (slots : List Value) : Prop
    extends Places.Mirrors frame.places s (slots[·]?) where
  unused : ∀ n, frame.places.length ≤ n → n < slots.length → slots[n]? = some .unset

theorem Frame.Takes.slot_lt {f : References} {t : TypeTable} {frame frame' : Frame} {p : Place} {type : Option TypeId}
    {n room : Nat} (h : frame.Takes f t p type n frame') (hroom : frame'.places.length ≤ room) : n < room := by
  rw [h.places, length_append, length_singleton, ← h.slot_eq] at hroom
  omega

namespace Frame.Mirrors
variable {f : References} {t : TypeTable} {frame frame' : Frame} {s : Bindings Value} {slots : List Value}
  {n : Nat} {done : Script} {g : FlowGraph} {b : BindingId}

theorem empty (n : Nat) : Mirrors {} .empty (replicate n .unset) := by
  refine ⟨Places.Mirrors.empty _, fun k _ hk => ?_⟩
  rw [length_replicate] at hk
  simp [hk]

variable (h : frame.Mirrors s slots)
include h

theorem congr {s' : Bindings Value} (hvalues : s'.values = s.values)
    (hlocals : s'.locals = s.locals) : frame.Mirrors s' slots :=
  ⟨h.toMirrors.congr hvalues hlocals, h.unused⟩

theorem set (v : Value) : Places.Mirrors frame.places s ((slots.set frame.places.length v)[·]?) ∧
      ∀ n, frame.places.length + 1 ≤ n → n < (slots.set frame.places.length v).length →
        (slots.set frame.places.length v)[n]? = some .unset := by
  refine ⟨h.toMirrors.of_held fun n hn => getElem?_set_ne (by omega), fun n hle hlt => ?_⟩
  rw [length_set] at hlt
  rw [getElem?_set_ne (by omega)]
  exact h.unused n (by omega) hlt

theorem put {p : Place} {type : Option TypeId}
    (htakes : frame.Takes f t p type n frame') (hnone : frame.places.number? p = none) (hn : n < slots.length)
    (v : Value) : frame'.Mirrors (s.put p v) (slots.set n v) := by
  obtain rfl := htakes.slot_eq
  obtain ⟨hmirrors, hunused⟩ := h.set v
  refine ⟨?_, ?_⟩
  · rw [htakes.places]
    exact hmirrors.put hnone (getElem?_set_self hn)
  · rw [htakes.places, length_append, length_singleton]
    exact hunused

theorem takes_of_holds (hafter : s.After done) (hfresh : b ∉ declaredBy done)
    (hholds : frame.Holds f t g b n frame') : frame.places.number? (.binding b) = none ∧
      ∃ type, frame.Takes f t (.binding b) type n frame' := by
  have hnone := h.number?_binding hafter hfresh
  simp only [Holds, hnone] at hholds
  obtain ⟨p, -, htakes⟩ := hholds
  exact ⟨hnone, p.type, htakes⟩

theorem slot_of_holds (hafter : s.After done) (hdeclared : b ∈ declaredBy done)
    (hholds : frame.Holds f t g b n frame') : frame' = frame ∧ ∃ v, slots[n]? = some v ∧ s.locals b = some v := by
  obtain ⟨k, hk⟩ := h.exists_number?_binding hafter hdeclared
  simp only [Holds, hk] at hholds
  obtain ⟨rfl, rfl⟩ := hholds
  exact ⟨rfl, h.locals b n hk⟩

end Frame.Mirrors

/-! ## A machine that runs a method -/

def TypeTable.linked (t : TypeTable) (m : MethodRef) : LinkedMethod where
  method := m
  params := (t.method m).params.length
  isStatic := (t.method m).isStatic
  hasResult := t.hasResult m

/-- The tokens that name some of the entities lead to them. -/
structure Linkage.Resolves (link : Linkage) (t : TypeTable) (f : References) (entities : List Entity) :
    Prop where
  text : ∀ s, .text s ∈ entities → ∀ token, f.NamesText token s → link.text token = some s
  callee : ∀ m, .method m ∈ entities → ∀ token, f.NamesMethod t token m →
    link.callee token = some (t.linked m)
  field : ∀ x, .field x ∈ entities → ∀ token, f.NamesField t token x → link.field token = some x

/-- The machine runs a method: it is called with the same values, and tokens lead to what the graph
refers to. -/
structure StackMachine.Hosts (m : StackMachine) (e : CodeScope) (f : References)
    (call : Invocation Value) : Prop where
  args : m.args = call.this.toList ++ call.params
  suits : call.Suits e.decl
  params : e.decl.params.length ≤ 65535
  link : m.link.Resolves e.types f e.graph.entities

/-- A call of a method that needs an object passes one. -/
def Instruction.passesObject (t : TypeTable) : Instruction → Bool
  | .call callee args => (t.method callee).isStatic || args.length == (t.method callee).operands
  | _ => true

theorem CodeScope.thrown?_eq (e : CodeScope) {b : Block}
    (h : b.instructions = (range e.graph.instructions.length).map InstrId.mk) :
    e.thrown? b = ((e.graph.instructionsOf b).getLast?.filter (·.2.makesObject)).map Prod.fst := by
  unfold thrown?
  rw [← FlowGraph.map_fst_instructionsOf h, getLast?_map]
  cases hlast : (e.graph.instructionsOf b).getLast? with
  | none => rfl
  | some x =>
    have hx : e.graph.instruction? x.1 = some x.2 := by
      obtain ⟨id, -, hid⟩ := mem_filterMap.mp (mem_of_getLast? hlast)
      obtain ⟨i, hi, rfl⟩ := Option.map_eq_some_iff.mp hid
      exact hi
    obtain ⟨id, i⟩ := x
    simp only [Option.map_some, Option.filter, hx]
    cases i <;> rfl

/-- The code does a step: from slots that mirror `s` it leads to slots that mirror the bindings after it. -/
def StackMachine.Follows (m : StackMachine) (code : List StackInstr) (s : Bindings Value) (slots : List Value)
    (frame' : Frame) (next : Option (Bindings Value)) : Prop :=
  ∃ s' slots', next = some s' ∧ frame'.Mirrors s' slots' ∧ slots'.length = slots.length ∧
    ∀ tail, m.Reaches ⟨plain (code ++ tail), [], slots, s.events⟩
      ⟨plain tail, [], slots', s'.events⟩

namespace StackMachine.Hosts
variable {declared : List BindingId} {frame frame' : Frame} {id : InstrId} {n : Nat} {s t : Bindings Value}
  {slots : List Value} {args : List InstrId} {ns : List Nat} {ctor method : MethodRef} {token : Token}
  {code : List StackInstr} {done : Script} {codes : List (List StackInstr)}

open StackCode (plain)

variable {m : StackMachine} {e : CodeScope} {f : References} {call : Invocation Value}

theorem getElem?_args (h : m.Hosts e f call) {arg : Argument} {index : Nat}
    (hindex : argIndex e.decl.isStatic arg = .ok index) (hallowed : (loadArg arg).Allowed e.types e.decl declared) :
    ∃ v, call.get? arg = some v ∧ m.args[index]? = some v ∧ index < 65536 := by
  have hthis := h.suits.this
  cases arg with
  | this =>
    have hstatic : e.decl.isStatic = false := hallowed
    rw [hstatic, Bool.not_false, isSome_iff_exists] at hthis
    obtain ⟨v, hv⟩ := hthis
    cases hindex
    refine ⟨v, hv, ?_, by decide⟩
    rw [h.args, hv]
    rfl
  | param n =>
    have hn : n < e.decl.params.length := hallowed
    have hword : n < 65535 := Nat.lt_of_lt_of_le hn h.params
    have hlt : n < call.params.length := by
      rw [h.suits.params]
      exact hn
    have hmod : n % wordSize = n := Nat.mod_eq_of_lt (by unfold wordSize; omega)
    refine ⟨call.params[n], getElem?_eq_getElem hlt, ?_⟩
    cases hstatic : e.decl.isStatic with
    | true =>
      rw [hstatic, Bool.not_true, isSome_eq_false_iff, isNone_iff_eq_none] at hthis
      simp only [argIndex, hstatic, if_true, hmod] at hindex
      cases hindex
      rw [h.args, hthis]
      exact ⟨getElem?_eq_getElem hlt, by omega⟩
    | false =>
      rw [hstatic, Bool.not_false, isSome_iff_exists] at hthis
      obtain ⟨v, hv⟩ := hthis
      have hnext : Defect.next wordSize n = .ok (n + 1) :=
        Defect.next_of_lt _ _ (by unfold wordSize; omega)
      simp only [argIndex, hstatic, Bool.false_eq_true, if_false, hmod, hnext] at hindex
      cases hindex
      rw [h.args, hv]
      exact ⟨getElem?_eq_getElem hlt, by omega⟩

/-- Code that leaves a value on the stack, and then the value is stored. -/
theorem stored (load : List StackInstr) (hstores : e.Stores f id frame n frame') (hmirrors : frame.Mirrors t slots)
    (hnone : frame.places.number? (.value id) = none) (hroom : frame'.places.length ≤ slots.length)
    (hslots : slots.length ≤ 65536) {v : Value} {o : Option Value} {next : Option (Bindings Value)}
    (hnext : next = some { t.bind id v with made := o })
    (hload : ∀ {tail}, m.Reaches ⟨plain (load ++ tail), [], slots, s.events⟩ ⟨plain tail, [v], slots, t.events⟩) :
    m.Follows (load ++ [.storeLocal n]) s slots frame' next := by
  have hn : n < slots.length := Takes.slot_lt hstores hroom
  refine ⟨_, _, hnext, (hmirrors.put hstores hnone hn v).congr rfl rfl, length_set, fun tail => ?_⟩
  rw [append_assoc]
  exact hload.trans (reaches_storeLocal v hn hslots)

theorem arguments (m : StackMachine) (hmirrors : frame.Mirrors s slots) (hargs : frame.Slots args ns)
    (hslots : slots.length ≤ 65536) (events : List (Event Value)) :
    ∃ vs, args.mapM s.values = some vs ∧ args.length = vs.length ∧ ∀ {tail},
      m.Reaches ⟨plain (ns.map .loadLocal ++ tail), [], slots, events⟩ ⟨plain tail, vs.reverse, slots, events⟩ := by
  obtain ⟨vs, hvs, hall⟩ := hmirrors.mapM_values hargs
  refine ⟨vs, hvs, hargs.length_eq.trans hall.length_eq, ?_⟩
  intro tail
  rw [← append_nil vs.reverse]
  exact reaches_loads hall hslots

/-- A call passes all that the method takes if it passes the object where there is one. -/
theorem operands_eq {callee : MethodRef} {method : Method}
    (hallowed : (Instruction.call callee args).Allowed e.types method declared)
    (hpasses : (Instruction.call callee args).passesObject e.types = true) :
    args.length = (e.types.linked callee).operands := by
  obtain ⟨c, hc, hle, hge⟩ := hallowed
  change args.length = (e.types.method callee).operands
  have hmethod := e.types.method_of_methodEntry callee c hc
  rw [passesObject, hmethod] at hpasses
  rw [hmethod]
  cases hstatic : c.isStatic with
  | false =>
    rw [hstatic, Bool.false_or, beq_iff_eq] at hpasses
    exact hpasses
  | true =>
    rw [Method.operands, hstatic] at hge ⊢
    exact Nat.le_antisymm hge hle

theorem params_eq {method : Method} (hallowed : (newObject ctor args).Allowed e.types method declared) :
    args.length = (e.types.linked ctor).params := by
  obtain ⟨c, hc, heq⟩ := hallowed
  change args.length = (e.types.method ctor).params.length
  rw [e.types.method_of_methodEntry ctor c hc]
  exact heq

/-- A call takes its arguments from the stack, and leaves there what it returns. -/
theorem called (h : m.Hosts e f call) (hmirrors : frame.Mirrors s slots) (hslots : slots.length ≤ 65536)
    (hargs : frame.Slots args ns) (htoken : f.NamesMethod e.types token method)
    (hentity : .method method ∈ e.graph.entities)
    (hallowed : (Instruction.call method args).Allowed e.types e.decl declared)
    (hpasses : (Instruction.call method args).passesObject e.types = true) :
    ∃ vs, args.mapM s.values = some vs ∧ ∀ tail,
      m.Reaches ⟨plain (ns.map .loadLocal ++ .call token :: tail), [], slots, s.events⟩
        ⟨plain tail, if e.yields method then [m.answer (s.events ++ [.call method vs])] else [], slots,
          s.events ++ [.call method vs]⟩ := by
  obtain ⟨vs, hvs, hlen, hloads⟩ := arguments m hmirrors hargs hslots s.events
  have hlinked := h.link.callee method hentity token htoken
  refine ⟨vs, hvs, fun tail => hloads.trans ?_⟩
  rw [CodeScope.yields_eq]
  exact reaches_call hlinked (hlen ▸ operands_eq hallowed hpasses)

theorem instruction (h : m.Hosts e f call) {i : Instruction} (hemits : e.Emits f id frame i code frame')
    (hmirrors : frame.Mirrors s slots) (hafter : s.After done) (hfresh : id ∉ done.map Prod.fst)
    (hallowed : i.Allowed e.types e.decl (declaredBy done))
    (hpasses : i.passesObject e.types = true) (horders : m.processor.Orders e s i)
    (hentities : ∀ x ∈ i.entities, x ∈ e.graph.entities) (hroom : frame'.places.length ≤ slots.length)
    (hslots : slots.length ≤ 65536) : m.Follows code s slots frame' (e.step m.interpretation call s id i) := by
  have hnone := hmirrors.number?_value hafter hfresh
  cases hemits with
  | constant hload hstores =>
    refine stored [_] hstores hmirrors hnone hroom hslots (o := none) rfl
      (reaches_constant hload fun text htext token htoken => ?_)
    subst htext
    exact h.link.text text (hentities _ (by simp [entities])) token htoken
  | load hsource hstores =>
    obtain ⟨v, hslot, hv⟩ := hmirrors.values _ _ hsource
    refine stored [_] hstores hmirrors hnone hroom hslots (o := none) ?_ (reaches_loadLocal hslot hslots)
    rw [CodeScope.step, hv]
    rfl
  | loadArg hindex hstores =>
    obtain ⟨v, hv, harg, hword⟩ := h.getElem?_args hindex hallowed
    refine stored [_] hstores hmirrors hnone hroom hslots (o := none) ?_ (reaches_loadArg harg hword)
    rw [CodeScope.step, hv]
    rfl
  | loadLocal hholds hstores =>
    obtain ⟨rfl, v, hslot, hv⟩ := hmirrors.slot_of_holds hafter hallowed hholds
    refine stored [_] hstores hmirrors hnone hroom hslots (o := none) ?_ (reaches_loadLocal hslot hslots)
    rw [CodeScope.step, hv]
    rfl
  | allocaFrom hholds hinit =>
    obtain ⟨hnew, type, htakes⟩ := hmirrors.takes_of_holds hafter hallowed hholds
    rw [htakes.places, Places.number?_append_of_ne _ (by simp)] at hinit
    obtain ⟨v, hslot, hv⟩ := hmirrors.values _ _ hinit
    have hn := htakes.slot_lt hroom
    refine ⟨_, _, ?_, hmirrors.put htakes hnew hn v, length_set, fun tail => ?_⟩
    · rw [CodeScope.step, hv]
      rfl
    · exact (reaches_loadLocal hslot hslots).trans (reaches_storeLocal v hn hslots)
  | alloca hholds =>
    obtain ⟨hnew, type, htakes⟩ := hmirrors.takes_of_holds hafter hallowed hholds
    have hn := htakes.slot_lt hroom
    -- nothing is stored: a slot that was not taken holds the right value already
    have hmirrors' := hmirrors.put htakes hnew hn .unset
    refine ⟨_, _, rfl, ?_, rfl, fun tail => .refl _⟩
    have hunset := hmirrors.unused _ (Nat.le_of_eq htakes.slot_eq.symm) hn
    rw [set_of_getElem? hunset] at hmirrors'
    exact hmirrors'
  | binary hleft hright hstores =>
    rename_i op _ _ _
    obtain ⟨a, hslotA, ha⟩ := hmirrors.values _ _ hleft
    obtain ⟨b, hslotB, hb⟩ := hmirrors.values _ _ hright
    refine stored (_ :: _ :: _) hstores hmirrors hnone hroom hslots (o := none) ?_
      ((reaches_loadLocal hslotA hslots).trans
        ((reaches_loadLocal hslotB hslots).trans (reaches_operator op _ fun hop => horders hop a b ha hb)))
    simp only [CodeScope.step, ha, hb, bind_eq_bind, bind_some]
    rfl
  | call hargs htoken hyields hstores =>
    rename_i callee _ _ _
    obtain ⟨vs, hvs, hcalled⟩ := h.called hmirrors hslots hargs htoken (hentities _ (by simp [entities])) hallowed
      hpasses
    rw [hyields, if_pos rfl] at hcalled
    rw [append_cons]
    refine stored (t := s.perform (.call callee vs)) _ hstores (hmirrors.congr rfl rfl) hnone hroom hslots
      (v := m.answer (s.perform (.call callee vs)).events) (o := none) ?_ fun {tail} => ?_
    · simp only [CodeScope.step, hvs, bind_eq_bind, bind_some, ← yields_eq, hyields, if_true]
      rfl
    · rw [append_assoc]
      exact hcalled _
  | callVoid hargs htoken hyields =>
    rename_i callee _ _
    obtain ⟨vs, hvs, hcalled⟩ := h.called hmirrors hslots hargs htoken (hentities _ (by simp [entities])) hallowed
      hpasses
    rw [hyields, if_neg (by decide)] at hcalled
    refine ⟨s.perform (.call callee vs), slots, ?_, hmirrors.congr rfl rfl, rfl, fun tail => ?_⟩
    · simp only [CodeScope.step, hvs, bind_eq_bind, bind_some, ← yields_eq, hyields, Bool.false_eq_true, if_false]
      rfl
    · rw [append_assoc]
      exact hcalled _
  | newObject hargs htoken hstores =>
    rename_i ctor _ _ _
    obtain ⟨vs, hvs, hlen, hloads⟩ := arguments m hmirrors hargs hslots s.events
    have hlinked := h.link.callee _ (hentities _ (by simp [entities])) _ htoken
    let v := m.answer (s.perform (.newObject ctor vs)).events
    rw [append_cons]
    refine stored (t := s.perform (.newObject ctor vs)) _ hstores (hmirrors.congr rfl rfl) hnone hroom hslots
      (v := v) (o := some v) ?_ fun {tail} => ?_
    · simp only [CodeScope.step, hvs, bind_eq_bind, bind_some]
      rfl
    · rw [append_assoc]
      exact hloads.trans (reaches_newObject hlinked (hlen ▸ params_eq hallowed))
  | storeField htarget hvalue htoken =>
    rename_i field _ _
    obtain ⟨a, hslotA, ha⟩ := hmirrors.values _ _ htarget
    obtain ⟨b, hslotB, hb⟩ := hmirrors.values _ _ hvalue
    have hfield := h.link.field _ (hentities _ (by simp [entities])) _ htoken
    refine ⟨s.perform (.storeField field a b), slots, ?_, hmirrors.congr rfl rfl, rfl, fun tail => ?_⟩
    · simp only [CodeScope.step, ha, hb, bind_eq_bind, bind_some]
      rfl
    · refine (reaches_loadLocal hslotA hslots).trans ((reaches_loadLocal hslotB hslots).trans ?_)
      exact reaches_storeField hfield

theorem instructions (h : m.Hosts e f call) (hstraight : e.graph.Straight e.types e.decl)
    (hpasses : e.graph.instructions.all (passesObject e.types) = true)
    (horders : ∀ s i, e.Executes m.interpretation call i s → m.processor.Orders e s i)
    {is : Script} (hemits : e.EmitsAll f frame is codes frame') (hsplit : e.graph.script = done ++ is)
    (hdone : e.steps m.interpretation call .empty done = some s) (hmirrors : frame.Mirrors s slots)
    (hafter : s.After done) (hroom : frame'.places.length ≤ slots.length) (hslots : slots.length ≤ 65536) :
    m.Follows codes.flatten s slots frame' (e.steps m.interpretation call s is) := by
  induction hemits generalizing s slots done with
  | nil => exact ⟨s, slots, rfl, hmirrors, rfl, fun tail => .refl _⟩
  | @cons frame i code mid rest codes frame' id hfirst hrest ih =>
    have hlisted : (id, i) ∈ e.graph.script := by
      rw [hsplit]
      simp
    have hentities : ∀ x ∈ i.entities, x ∈ e.graph.entities := by
      intro x hx
      refine mem_flatMap.mpr ⟨e.graph.block .entry, by rw [hstraight.blocks]; simp, ?_⟩
      exact mem_flatMap.mpr ⟨(id, i), hlisted, hx⟩
    have hmem : i ∈ e.graph.instructions := by
      rw [← hstraight.map_snd_script]
      exact mem_map_of_mem hlisted
    have hexecutes : e.Executes m.interpretation call i s :=
      ⟨_, _, done, id, rest, .entry (by rw [hstraight.blocks]; rfl), hsplit, hdone⟩
    have hmid : mid.places.length ≤ slots.length :=
      Nat.le_trans hrest.grows.places.length_le hroom
    obtain ⟨s₁, slots₁, hstep, hmirrors₁, hlen₁, hreach₁⟩ := h.instruction hfirst hmirrors hafter
      (hstraight.fresh hsplit) (hstraight.allowed_of_split hsplit) (all_eq_true.mp hpasses i hmem)
      (horders s i hexecutes) hentities hmid hslots
    have hafter₁ := (changes_of_step hstep).after hafter
    have hdone₁ : e.steps m.interpretation call .empty (done ++ [(id, i)]) = some s₁ := by
      rw [steps_append, hdone]
      exact (bind_fun_some _).trans hstep
    rw [← hlen₁] at hroom hslots
    obtain ⟨s₂, slots₂, hsteps, hmirrors₂, hlen₂, hreach₂⟩ := ih
      (by rw [hsplit, append_assoc]; rfl) hdone₁ hmirrors₁ hafter₁ hroom hslots
    refine ⟨s₂, slots₂, ?_, hmirrors₂, hlen₂.trans hlen₁, fun tail => ?_⟩
    · rw [steps, hstep]
      exact hsteps
    · rw [flatten_cons, append_assoc]
      exact (hreach₁ _).trans (hreach₂ tail)

theorem ending (hstraight : e.graph.Straight e.types e.decl) {s' : Bindings Value}
    (hemits : e.EmitsFlow frame (e.graph.block .entry) code) (hmirrors : frame.Mirrors s' slots)
    (hslots : slots.length ≤ 65536) (hsteps : e.steps m.interpretation call s e.graph.script = some s')
    (hmade : s.made = none) :
    ∃ o, e.Evaluates m.interpretation call (e.graph.block .entry) s o ∧
      ∀ o', m.Ends ⟨plain code, [], slots, s'.events⟩ o' ↔ o' = o := by
  have hleft := made_of_steps hsteps hmade
  have hthrown := e.thrown?_eq hstraight.numbered
  cases hemits with
  | retValue hflow hslot =>
    obtain ⟨v, hv, hbound⟩ := hmirrors.values _ _ hslot
    refine ⟨_, .retValue hsteps hflow hbound, fun o' => ?_⟩
    refine (reaches_loadLocal hv hslots).ends_iff.trans (Run.ends_iff_of_ended ?_)
    exact step_plain
  | ret hflow =>
    refine ⟨_, .ret hsteps hflow, fun o' => Run.ends_iff_of_ended ?_⟩
    exact step_plain
  | jump hflow => exact absurd hflow (hstraight.flow _)
  | throwObject hflow hobject hslot =>
    obtain ⟨v, hv, hbound⟩ := hmirrors.values _ _ hslot
    have hmade' : s'.made = some v := by
      rw [hthrown, map_eq_some_iff] at hobject
      obtain ⟨x, hx, rfl⟩ := hobject
      rw [hleft, hx]
      exact hbound
    have hevaluates := Evaluates.unreachable hsteps hflow
    rw [hmade'] at hevaluates
    refine ⟨_, hevaluates, fun o' => ?_⟩
    refine (reaches_loadLocal hv hslots).ends_iff.trans (Run.ends_iff_of_ended ?_)
    exact step_plain
  | throwNull hflow hobject =>
    have hmade' : s'.made = none := by
      rw [hthrown, map_eq_none_iff] at hobject
      rw [hleft, hobject]
      rfl
    have hevaluates := Evaluates.unreachable hsteps hflow
    rw [hmade'] at hevaluates
    refine ⟨_, hevaluates, fun o' => ?_⟩
    have hnull : m.Reaches ⟨plain [.loadNull, .throw], [], slots, s'.events⟩
        ⟨plain [.throw], [.null], slots, s'.events⟩ :=
      reaches_of_execute rfl
    refine hnull.ends_iff.trans (Run.ends_iff_of_ended ?_)
    exact step_plain

/-- The code of a straight graph has the outcome of the graph. -/
theorem outcome (h : m.Hosts e f call) (hstraight : e.graph.Straight e.types e.decl)
    (hpasses : e.graph.instructions.all (passesObject e.types) = true)
    (horders : ∀ s i, e.Executes m.interpretation call i s → m.processor.Orders e s i)
    (hemits : e.EmitsBlocks f {} e.graph.blocks codes frame) (hcode : m.code = assemble codes)
    (hslots : frame.signatures.length ≤ 65536) : ∃ o, e.HasOutcome m.interpretation call o ∧
      ∀ o', m.Ends (m.start frame.signatures.length) o' ↔ o' = o := by
  have hplaces : frame.places.length = frame.signatures.length := (hemits.grows.typed .nil).length_eq
  rw [hstraight.blocks] at hemits
  cases hemits with
  | @cons _ _ codes _ end_ _ _ _ hall hflow hrest =>
    cases hrest
    -- nothing jumps, so it does not matter where blocks start
    have hplain : m.code = plain (codes.flatten ++ end_) := by
      rw [hcode, assemble, flatten_singleton]
      refine encode_eq_plain _ _ _ fun b hb => ?_
      exact (mem_append.mp hb).elim (hall.jump_notMem b) (hflow.jump_notMem hstraight.flow b)
    have hroom : frame.places.length ≤ (replicate frame.signatures.length unset).length := by
      exact Nat.le_of_eq (by rw [length_replicate, hplaces])
    have hword : (replicate frame.signatures.length unset).length ≤ 65536 := by
      rw [length_replicate]
      exact hslots
    obtain ⟨s', slots', hsteps, hmirrors, hlen, hreach⟩ := h.instructions hstraight hpasses horders hall
      (nil_append _).symm rfl (Mirrors.empty _) Bindings.after_empty hroom hword
    obtain ⟨o, ho, hends⟩ := ending hstraight hflow hmirrors (hlen ▸ hword) hsteps rfl
    refine ⟨o, ⟨e.graph.block .entry, by rw [hstraight.blocks]; rfl, ho⟩, fun o' => ?_⟩
    unfold start
    rw [hplain]
    exact (hreach end_).ends_iff.trans (hends o')

end StackMachine.Hosts

end TreeCompiler
