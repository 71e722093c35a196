import TreeCompiler.Proofs.FlowGraph.Placement
import TreeCompiler.Proofs.Machine.RegisterMachine
import TreeCompiler.Proofs.Machine.WrittenLines

/-!
# Written lines do what the graph does

Registers hold the arguments, the values and the variables of a method. The lines of an instruction
write to register 0 and to registers that were not in use, and those of a call bring back all that
were; so they lead from registers that mirror the bindings to registers that mirror the bindings after
the instruction.
-/

namespace TreeCompiler

open List CallSite CodeScope Function
open Machine MethodScope

variable {W : Type} {m : RegisterMachine W} {e : MethodScope} {params : List W} {strings : List String}
  {w w' : Writing} {s s' : Bindings W} {registers registers' : Nat → W} {stack : List W} {calls : List (CallSite W)}
  {object : List (Event W) → W} {tail : List Line}

/-- Registers from 1 to `n` are the same. -/
def Kept (n : Nat) (registers registers' : Nat → W) : Prop :=
  ∀ k, 1 ≤ k → k ≤ n → registers' k = registers k

theorem kept_update {n k : Nat} (h : n < k) (registers : Nat → W) (v : W) : Kept n registers (update registers k v) :=
  fun other _ hle => update_of_ne (by omega) v registers

namespace RegisterMachine

/-! ## Calls -/

theorem nodup_paramRegisters (n : Nat) : ((range n).map paramRegister).Nodup := by
  refine nodup_range.map fun i j hij => ?_
  have hnumber := congrArg Register.number hij
  exact Nat.succ.inj hnumber

theorem mem_paramRegisters {n : Nat} {r : Register} :
    r ∈ (range n).map paramRegister ↔ 1 ≤ r.number ∧ r.number ≤ n := by
  rw [mem_map]
  constructor
  · rintro ⟨i, hi, rfl⟩
    exact ⟨Nat.le_add_left 1 i, mem_range.mp hi⟩
  · rintro ⟨hpos, hle⟩
    refine ⟨r.number - 1, mem_range.mpr (by omega), ?_⟩
    cases r
    exact congrArg Register.mk (Nat.sub_add_cancel hpos)

theorem map_paramRegisters (vs : List W) (d : W) :
    ((range vs.length).map paramRegister).map (fun r => vs.getD (r.number - 1) d) = vs := by
  rw [map_map]
  refine ext_getElem ?_ fun i hi hlt => ?_
  · rw [length_map, length_range]
  · simp [paramRegister, hlt]

theorem reaches_arguments (values : List Register) :
    ∃ registers', m.Reaches ⟨values.map .push ++ (((range values.length).map
          paramRegister).reverse.map .pop ++ tail), registers, stack, calls⟩ ⟨tail, registers', stack, calls⟩ ∧
      ∀ i r, values[i]? = some r → registers' (i + 1) = registers r.number := by
  let params := (List.range values.length).map MethodScope.paramRegister
  let words := values.map fun r => registers r.number
  let f := fun r : Register => words.getD (r.number - 1) (m.words.int 0)
  have hwords : params.reverse.map f = words.reverse := by
    have hlength : values.length = words.length := (length_map _).symm
    simp only [params, hlength, map_reverse]
    exact congrArg reverse (map_paramRegisters words _)
  obtain ⟨registers', hpops, hset, -⟩ : ∃ registers', m.Reaches
      ⟨params.reverse.map .pop ++ tail, registers, params.reverse.map f ++ stack, calls⟩
      ⟨tail, registers', stack, calls⟩ ∧ _ ∧ _ :=
    reaches_pops f (nodup_reverse.mpr (nodup_paramRegisters values.length))
  rw [hwords] at hpops
  refine ⟨registers', (reaches_pushes values).trans hpops, fun i r hi => ?_⟩
  have hlt := (List.getElem?_eq_some_iff.mp hi).1
  have hvalue := hset (MethodScope.paramRegister i) (mem_reverse.mpr (mem_map_of_mem (mem_range.mpr hlt)))
  have hf : f (paramRegister i) = registers r.number := by
    simp [f, words, paramRegister, hi]
  exact hvalue.trans hf

/-- A call finds its values in the registers of arguments, and afterwards the saved registers are what
they were; registers above them are as the result was kept. -/
theorem reaches_callLines (registers : Nat → W) (label : String) (count : Nat)
    (values : List Register) (result : List Line) (kept : Nat → W)
    (hresult : ∀ {tail stack calls'}, m.Reaches ⟨result ++ tail, m.reply calls.length, stack, calls'⟩
      ⟨tail, kept, stack, calls'⟩) :
    ∃ site registers', m.Reaches ⟨callLines label count values result ++ tail, registers, stack, calls⟩
        ⟨tail, registers', stack, calls ++ [site]⟩ ∧
      site.label = label ∧
      (∀ i r, values[i]? = some r → site.registers (i + 1) = registers r.number) ∧
      Kept count registers registers' ∧
      ∀ n, count < n → registers' n = kept n := by
  let saved := (range count).map paramRegister
  let f := fun r : Register => registers r.number
  obtain ⟨passed, harguments, hpassed⟩ : ∃ passed, m.Reaches ⟨values.map .push ++
      (((range values.length).map paramRegister).reverse.map .pop ++
        .call label :: (result ++ (saved.reverse.map .pop ++ tail))), registers,
      (saved.map f).reverse ++ stack, calls⟩ _ ∧ _ := reaches_arguments values
  -- arguments overwrite registers that are saved, but what lies on the stack is from before
  obtain ⟨registers', hpops, hset, hrest⟩ : ∃ registers', m.Reaches
      ⟨saved.reverse.map .pop ++ tail, kept, saved.reverse.map f ++ stack, calls ++ [⟨label, passed⟩]⟩ _ ∧ _ ∧ _ :=
    reaches_pops f (nodup_reverse.mpr (nodup_paramRegisters count))
  refine ⟨⟨label, passed⟩, registers', ?_, rfl, hpassed, fun n hpos hle => ?_, fun n hlt => ?_⟩
  · have hcall : m.step ⟨.call label :: (result ++ (saved.reverse.map .pop ++ tail)), passed,
        (saved.map f).reverse ++ stack, calls⟩ = some (.running
          ⟨result ++ (saved.reverse.map .pop ++ tail), m.reply calls.length,
            (saved.map f).reverse ++ stack, calls ++ [⟨label, passed⟩]⟩) := rfl
    have hsaved : saved.reverse.map f = (saved.map f).reverse := map_reverse
    rw [hsaved] at hpops
    have hall := ((reaches_pushes saved).trans harguments).trans (.head hcall (hresult.trans hpops))
    simpa only [callLines, append_assoc, cons_append] using hall
  · exact hset ⟨n⟩ (mem_reverse.mpr (mem_paramRegisters.mpr ⟨hpos, hle⟩))
  · refine hrest n fun r hr heq => ?_
    obtain ⟨-, hle⟩ := mem_paramRegisters.mp (mem_reverse.mp hr)
    omega

end RegisterMachine

/-! ## Registers that mirror bindings -/

namespace Machine.MethodScope

def codeScope (e : MethodScope) : CodeScope :=
  { types := e.types, method := e.method, graph := e.graph }

/-- The number of the last register in use; all from 1 on are. -/
def lastInUse (e : MethodScope) (w : Writing) : Nat :=
  e.paramCount + w.places.length

theorem yields_eq_hasResult (e : MethodScope) (m : MethodRef) : e.yields (e.types.method m) = e.types.hasResult m :=
  (e.types.hasResult_eq m).symm

/-- Arguments, values and variables are in their registers. -/
structure Mirrors (e : MethodScope) (params : List W) (w : Writing) (s : Bindings W)
    (registers : Nat → W) : Prop
    extends Places.Mirrors w.places s (fun n => some (registers (e.placeRegister n).number)) where
  count : params.length = e.paramCount
  params : ∀ i v, params[i]? = some v → registers (i + 1) = v

theorem Takes.lastInUse_lt {p : Place} {r : Register} (h : e.Takes w p r w') : e.lastInUse w < r.number := by
  rw [h.register]
  change e.paramCount + w.places.length < e.paramCount + 1 + w.places.length
  omega

namespace Mirrors
variable {n : Nat} {done : Script} {b : BindingId} (h : e.Mirrors params w s registers)
include h

theorem congr (hplaces : w'.places = w.places) (hvalues : s'.values = s.values) (hlocals : s'.locals = s.locals) :
    e.Mirrors params w' s' registers :=
  ⟨hplaces ▸ h.toMirrors.congr hvalues hlocals, h.count, h.params⟩

theorem of_kept (hkept : Kept (e.lastInUse w) registers registers') : e.Mirrors params w s registers' := by
  refine ⟨h.toMirrors.of_held fun n hn => congrArg some (hkept _ ?_ ?_), h.count, fun i v hi => ?_⟩
  · change 1 ≤ e.paramCount + 1 + n
    omega
  · change e.paramCount + 1 + n ≤ e.paramCount + w.places.length
    omega
  · have hlt := (List.getElem?_eq_some_iff.mp hi).1
    have hle : i + 1 ≤ e.lastInUse w := by
      rw [h.count] at hlt
      exact Nat.le_trans hlt (Nat.le_add_right _ _)
    rw [hkept (i + 1) (by omega) hle]
    exact h.params i v hi

theorem put {p : Place} {r : Register} (htakes : e.Takes w p r w') (hnone : w.places.number? p = none)
    (hkept : Kept (e.lastInUse w) registers registers') :
    e.Mirrors params w' (s.put p (registers' r.number)) registers' := by
  have h' := h.of_kept hkept
  refine ⟨?_, h'.count, h'.params⟩
  rw [htakes.places, htakes.register]
  exact h'.toMirrors.put hnone rfl

theorem values_eq {id : InstrId} (hn : w.places.number? (.value id) = some n) :
    s.values id = some (registers (e.placeRegister n).number) := by
  obtain ⟨v, hheld, hv⟩ := h.values id n hn
  exact hv.trans hheld.symm

theorem takes_of_holds (hafter : s.After done) (hfresh : b ∉ declaredBy done) (hholds : e.Holds w b n w') :
    w.places.number? (.binding b) = none ∧ e.Takes w (.binding b) (e.placeRegister n) w' := by
  have hnone := h.number?_binding hafter hfresh
  simp only [Holds, hnone] at hholds
  exact ⟨hnone, hholds.2⟩

theorem locals_of_holds (hafter : s.After done) (hdeclared : b ∈ declaredBy done) (hholds : e.Holds w b n w') :
    w' = w ∧ s.locals b = some (registers (e.placeRegister n).number) := by
  obtain ⟨k, hk⟩ := h.exists_number?_binding hafter hdeclared
  simp only [Holds, hk] at hholds
  obtain ⟨rfl, rfl⟩ := hholds
  obtain ⟨v, hheld, hv⟩ := h.locals b n hk
  exact ⟨rfl, hv.trans hheld.symm⟩

theorem mapM_values_eq {ids : List InstrId} {ns : List Nat} (hplaces : InPlaces w ids ns) :
    ids.mapM s.values = some (ns.map fun n => registers (e.placeRegister n).number) := by
  obtain ⟨vs, hvs, hall⟩ := h.toMirrors.mapM_values hplaces
  have heq : vs = ns.map fun n => registers (e.placeRegister n).number := by
    clear hvs hplaces
    induction hall with
    | nil => rfl
    | cons hfirst _ ih =>
      rw [map_cons, ← ih, Option.some.inj hfirst]
  rw [hvs, heq]

end Mirrors

end Machine.MethodScope

/-! ## Calls and constants in words -/

section Words
variable {c : Constant} (words : Words W)

theorem callsOf_append (events : List (Event W)) (event : Event W) :
    callsOf (events ++ [event]) = callsOf events ++ event.call?.toList := by
  rw [callsOf, filterMap_append]
  cases h : event.call? with
  | none | some call => simp [callsOf, h]

theorem Words.ofConstant_of_word? {v : Int} (h : c.word? = some v) : words.ofConstant c = words.int v := by
  cases c <;> cases h <;> rfl

theorem RegisterMachine.textAt_of_getElem? {final : List String} (hdata : m.data = dataLines final)
    (hstrings : strings <+: final) {s : String} {i : Nat} (hi : strings[i]? = some s) :
    textAt (stringLabel i) m.data = some s := by
  obtain ⟨later, rfl⟩ := hstrings
  rw [hdata, textAt_dataLines, List.getElem?_append_left (List.getElem?_eq_some_iff.mp hi).1, hi]

theorem RegisterMachine.value?_of_spells {final : List String} (hdata : m.data = dataLines final)
    (hstrings : strings <+: final) {source : Source} (h : Spells strings c source) :
    m.value? registers source = some (m.words.ofConstant c) := by
  cases h with
  | number hword => rw [value?, m.words.ofConstant_of_word? hword]
  | text hi =>
    rw [value?, textAt_of_getElem? hdata hstrings hi]
    rfl

end Words

/-! ## A machine that runs a method -/

/-- The called method finds the values of a call in the registers of arguments. -/
def CallSite.Performs (t : TypeTable) (call : MethodRef × List W) (site : CallSite W) :
    Prop :=
  site.label = t.symbol call.1 ∧ ∀ i v, call.2[i]? = some v → site.registers (i + 1) = v

namespace RegisterMachine

/-- The lines, wherever they stand, leave the stack as it was, and registers 1 to `n` too. -/
def Restores (m : RegisterMachine W) (code : List Line) (n : Nat) : Prop :=
  ∀ tail registers stack calls, ∃ registers' calls',
    m.Reaches ⟨code ++ tail, registers, stack, calls⟩ ⟨tail, registers', stack, calls'⟩ ∧
      Kept n registers registers'

/-- The machine runs a method with arguments, and has the texts of its program. -/
structure Hosts (m : RegisterMachine W) (e : MethodScope) (params : List W) (strings : List String) :
    Prop where
  data : m.data = dataLines strings
  suits : params.length = e.decl.params.length
  small : e.decl.params.length < 65535

/-- Until `tail` is left, a step is done: registers come to mirror the bindings after it. -/
def Follows (m : RegisterMachine W) (e : MethodScope) (params : List W) (state : RegisterState W)
    (tail : List Line) (w' : Writing) (next : Option (Bindings W)) : Prop :=
  ∃ s' registers' calls', next = some s' ∧ e.Mirrors params w' s' registers' ∧
    Forall₂ (Performs e.types) (callsOf s'.events) calls' ∧
    m.Reaches state { state with rest := tail, registers := registers', calls := calls' }

namespace Hosts
variable {done : Script} {r : Register} {callee : MethodRef} {ns : List Nat} {id : InstrId}
  {args : List InstrId}

theorem count (h : m.Hosts e params strings) : params.length = e.paramCount := by
  have hsmall := h.small
  rw [h.suits, paramCount, countSize, Nat.mod_eq_of_lt (by omega)]

theorem copy {p : Place} {source : Source} {v : W} {u : Writing} {next : Option (Bindings W)}
    (htakes : e.Takes w p r u) (hplaces : w'.places = u.places) (hmirrors : e.Mirrors params w s registers)
    (hnone : w.places.number? p = none) (hcalls : Forall₂ (Performs e.types) (callsOf s.events) calls)
    (hv : m.value? registers source = some v) (hnext : next = some (s.put p v)) {note : Option String} :
    m.Follows e params ⟨[.copy source r note] ++ tail, registers, stack, calls⟩ tail w' next := by
  have hput := hmirrors.put htakes hnone (kept_update htakes.lastInUse_lt registers v)
  rw [update_self] at hput
  have hevents : (s.put p v).events = s.events := by cases p <;> rfl
  exact ⟨_, _, calls, hnext, hput.congr hplaces rfl rfl, hevents ▸ hcalls, reaches_copy hv⟩

theorem performs_append {events : List (Event W)} {site : CallSite W}
    (hcalls : Forall₂ (Performs e.types) (callsOf events) calls) (hlabel : site.label = e.types.symbol callee)
    (hargs : ∀ i r, (ns.map e.placeRegister)[i]? = some r → site.registers (i + 1) = registers r.number) :
    Forall₂ (Performs e.types)
      (callsOf (events ++ [.call callee (ns.map fun n => registers (e.placeRegister n).number)]))
      (calls ++ [site]) := by
  rw [callsOf_append]
  refine rel_append hcalls (.cons ⟨hlabel, fun i v hi => ?_⟩ .nil)
  rw [getElem?_map, Option.map_eq_some_iff] at hi
  obtain ⟨n, hn, rfl⟩ := hi
  exact hargs i (e.placeRegister n) (by rw [getElem?_map, hn]; rfl)

section Calls
variable (m : RegisterMachine W) (hargs : MethodScope.InPlaces w args ns)
  (hmirrors : e.Mirrors params w s registers)
  (hcalls : Forall₂ (Performs e.types) (callsOf s.events) calls)
include hargs hmirrors hcalls

theorem call (hresult : e.types.hasResult callee = false) :
    m.Follows e params ⟨callLines (e.types.symbol callee) (e.lastInUse w) (ns.map e.placeRegister) [] ++ tail,
        registers, stack, calls⟩ tail w
      (e.codeScope.step (m.words.interpretation m.reply object) ⟨none, params⟩ s id (.call callee args)) := by
  obtain ⟨site, registers', hreach, hlabel, hsite, hkept, -⟩ := reaches_callLines registers
    (e.types.symbol callee) (e.lastInUse w) (ns.map e.placeRegister) [] (m.reply calls.length) (.refl _)
  refine ⟨s.perform (.call callee (ns.map fun n => registers (e.placeRegister n).number)), registers',
    calls ++ [site], ?_, (hmirrors.of_kept hkept).congr rfl rfl rfl, performs_append hcalls hlabel hsite, hreach⟩
  simp only [CodeScope.step, hmirrors.mapM_values_eq hargs, Option.bind_eq_bind, Option.bind_some,
    codeScope, hresult, Bool.false_eq_true, if_false]
  rfl

theorem callResult (htakes : e.Takes w (.value id) r w') (hnone : w.places.number? (.value id) = none)
    (hresult : e.types.hasResult callee = true) :
    m.Follows e params ⟨callLines (e.types.symbol callee) (e.lastInUse w) (ns.map e.placeRegister)
        [.copy (.register .result) r] ++ tail, registers, stack, calls⟩ tail w'
      (e.codeScope.step (m.words.interpretation m.reply object) ⟨none, params⟩ s id (.call callee args)) := by
  obtain ⟨site, registers', hreach, hlabel, hsite, hkept, habove⟩ := reaches_callLines registers
    (e.types.symbol callee) (e.lastInUse w) (ns.map e.placeRegister) [.copy (.register .result) r]
    (update (m.reply calls.length) r.number (m.reply calls.length 0)) (reaches_copy rfl)
  let vs := ns.map fun n => registers (e.placeRegister n).number
  have hperformed : e.Mirrors params w (s.perform (.call callee vs)) registers :=
    hmirrors.congr rfl rfl rfl
  -- the register of the result lies above those that come back
  have hanswer : registers' r.number =
      (m.words.interpretation m.reply object).answer (s.events ++ [.call callee vs]) := by
    rw [habove _ htakes.lastInUse_lt, update_self, ← hcalls.length_eq]
    simp [Words.interpretation, callsOf_append, Event.call?]
  refine ⟨(s.perform (.call callee vs)).bind id (registers' r.number), registers', calls ++ [site], ?_,
    hperformed.put htakes hnone hkept, performs_append hcalls hlabel hsite, hreach⟩
  simp only [CodeScope.step, hmirrors.mapM_values_eq hargs, Option.bind_eq_bind, Option.bind_some,
    codeScope, hresult, if_true, hanswer]
  rfl

end Calls

theorem instruction (h : m.Hosts e params strings) {i : Instruction} {code : List Line}
    (hwrites : e.Writes w id i code w') (hstrings : w'.strings <+: strings)
    (hmirrors : e.Mirrors params w s registers) (hafter : s.After done) (hfresh : id ∉ done.map Prod.fst)
    (hallowed : i.Allowed e.types e.decl (declaredBy done)) (hmakes : i.makesObject = false)
    (hcalls : Forall₂ (Performs e.types) (callsOf s.events) calls) :
    m.Follows e params ⟨code ++ tail, registers, stack, calls⟩ tail w'
      (e.codeScope.step (m.words.interpretation m.reply object) ⟨none, params⟩ s id i) := by
  have hnone := hmirrors.number?_value hafter hfresh
  cases hwrites with
  | constant htakes hplaces _ hspells =>
    exact copy htakes hplaces hmirrors hnone hcalls (value?_of_spells h.data hstrings hspells) rfl
  | @load _ n _ _ _ hsource htakes =>
    refine copy htakes rfl hmirrors hnone hcalls rfl ?_
    rw [CodeScope.step, hmirrors.values_eq hsource]
    rfl
  | @loadArg r _ index htakes =>
    have hindex : index < params.length := h.suits ▸ hallowed
    have harg := getElem?_eq_getElem hindex
    refine copy htakes rfl hmirrors hnone hcalls rfl ?_
    have hvalue : registers (paramRegister index).number = params[index] :=
      hmirrors.params index _ harg
    rw [hvalue, CodeScope.step, Invocation.get?, harg]
    rfl
  | @loadLocal _ n _ _ _ hholds htakes =>
    obtain ⟨rfl, hlocal⟩ := hmirrors.locals_of_holds hafter hallowed hholds
    refine copy htakes rfl hmirrors hnone hcalls rfl ?_
    rw [CodeScope.step, hlocal]
    rfl
  | @declare _ _ _ _ k _ hholds hinit =>
    obtain ⟨hnew, htakes⟩ := hmirrors.takes_of_holds hafter hallowed hholds
    rw [htakes.places, Places.number?_append_of_ne _ (by simp)] at hinit
    refine copy htakes rfl hmirrors hnew hcalls rfl ?_
    rw [CodeScope.step, hmirrors.values_eq hinit]
    rfl
  | declareUnset hholds =>
    obtain ⟨hnew, htakes⟩ := hmirrors.takes_of_holds hafter hallowed hholds
    exact copy htakes rfl hmirrors hnew hcalls rfl rfl
  | @binary lhs j rhs k r _ op type hleft hright htakes =>
    have hlast := htakes.lastInUse_lt
    obtain ⟨registers', hreach, htarget, hothers⟩ := reaches_binary op (e.placeRegister j)
      (e.placeRegister k) (show r.number ≠ 0 by omega)
    have hkept : Kept (e.lastInUse w) registers registers' :=
      fun n hpos hle => hothers n (by omega) (by omega)
    refine ⟨_, registers', calls, ?_, hmirrors.put htakes hnone hkept, hcalls, hreach⟩
    simp only [CodeScope.step, hmirrors.values_eq hleft, hmirrors.values_eq hright, Option.bind_eq_bind,
      Option.bind_some, htarget]
    rfl
  | call hyields hargs =>
    rw [yields_eq_hasResult] at hyields
    exact call m hargs hmirrors hcalls hyields
  | callResult hyields hargs htakes =>
    rw [yields_eq_hasResult] at hyields
    exact callResult m hargs hmirrors hcalls htakes hnone hyields
  | newObject => cases hmakes

theorem newObject (m : RegisterMachine W) {id : InstrId} {i : Instruction} {code : List Line}
    (hwrites : e.Writes w id i code w') (hmakes : i.makesObject = true) (hbound : ∀ a ∈ i.operands, s.values a ≠ none)
    (hcalls : Forall₂ (Performs e.types) (callsOf s.events) calls) :
    ∃ s' registers', e.codeScope.step (m.words.interpretation m.reply object) ⟨none, params⟩ s id i =
        some s' ∧ Forall₂ (Performs e.types) (callsOf s'.events) calls ∧
      m.Reaches ⟨code ++ tail, registers, stack, calls⟩ ⟨tail, registers', stack, calls⟩ := by
  cases hwrites with
  | @newObject r _ ctor args note htakes =>
    obtain ⟨vs, hvs⟩ := Bindings.exists_mapM_values hbound
    have hargs : args.mapM s.values = some vs := hvs
    refine ⟨(s.perform (.newObject ctor vs)).make id
      ((m.words.interpretation m.reply object).answer (s.perform (.newObject ctor vs)).events), _, ?_,
      ?_, reaches_copy rfl⟩
    · simp only [CodeScope.step, hargs, Option.bind_eq_bind, Option.bind_some]
      rfl
    · change Forall₂ _ (callsOf (s.events ++ [_])) _
      rw [callsOf_append]
      exact (append_nil (callsOf s.events)).symm ▸ hcalls
  | _ => cases hmakes

/-- The lines of instructions lead from mirrored bindings to mirrored bindings, unless they make an
object to be thrown. -/
theorem instructions (h : m.Hosts e params strings) (hstraight : e.graph.Straight e.types e.decl)
    (hthrows : e.graph.ThrowsObjects) {is : Script} {codes : List (List Line)}
    (hwrites : e.WritesAll w is codes w') (hstrings : w'.strings <+: strings)
    (hsplit : e.graph.script = done ++ is) (hmirrors : e.Mirrors params w s registers)
    (hafter : s.After done) (hcalls : Forall₂ (Performs e.types) (callsOf s.events) calls) :
    ∃ s' registers' calls', e.codeScope.steps (m.words.interpretation m.reply object) ⟨none, params⟩ s is = some s' ∧
      ((e.graph.block .entry).flow ≠ .unreachable → e.Mirrors params w' s' registers') ∧
      Forall₂ (Performs e.types) (callsOf s'.events) calls' ∧
      m.Reaches ⟨codes.flatten ++ tail, registers, stack, calls⟩ ⟨tail, registers', stack, calls'⟩ := by
  induction hwrites generalizing s registers calls done with
  | nil => exact ⟨s, registers, calls, rfl, fun _ => hmirrors, hcalls, .refl _⟩
  | @cons w i code w₁ rest codes w' id hfirst hrest ih =>
    rw [flatten_cons, append_assoc]
    cases hmakes : i.makesObject with
    | true =>
      -- nothing reads the object, so its register need not hold it
      obtain ⟨rfl, hflow, hoperands⟩ := hstraight.last_of_makesObject hthrows hsplit hmakes
      have hbound : ∀ a ∈ i.operands, s.values a ≠ none := by
        intro a ha
        obtain ⟨j, hmem, hvalue⟩ := hoperands a ha
        exact hafter.bound (a, j) hmem hvalue
      obtain ⟨s', registers', hstep, hcalls', hreach⟩ :=
        newObject m hfirst hmakes hbound hcalls
      cases hrest
      refine ⟨s', registers', calls, ?_, fun hne => absurd hflow hne, hcalls', hreach⟩
      rw [steps, hstep]
      rfl
    | false =>
      obtain ⟨s₁, registers₁, calls₁, hstep, hmirrors₁, hcalls₁, hreach₁⟩ := h.instruction hfirst
        (hrest.strings.trans hstrings) hmirrors hafter (hstraight.fresh hsplit)
        (hstraight.allowed_of_split hsplit) hmakes hcalls
      have hafter₁ := (changes_of_step hstep).after hafter
      obtain ⟨s', registers', calls', hsteps, hmirrors', hcalls', hreach⟩ := ih hstrings
        (by rw [hsplit, append_assoc]; rfl) hmirrors₁ hafter₁ hcalls₁
      refine ⟨s', registers', calls', ?_, hmirrors', hcalls', hreach₁.trans hreach⟩
      rw [steps, hstep]
      exact hsteps

end Hosts

end RegisterMachine

/-! ## Ends -/

def Stop.Shows (stop : Stop W) : Ending W → Prop
  | .returned (some v) => stop.halted = false ∧ stop.registers 0 = v
  | .returned none => stop.halted = false
  | .thrown _ => stop.halted = true

/-- A method that stops so made the calls of the outcome, ended as it did, and left the stack as it was. -/
structure Stop.Refines {W : Type} (t : TypeTable) (stack : List W) (o : Outcome W) (stop : Stop W) :
    Prop where
  calls : Forall₂ (Performs t) (callsOf o.events) stop.calls
  ending : stop.Shows o.ending
  stack : stop.stack = stack

namespace RegisterMachine
variable {end_ : List Line}

theorem stops_of_writesFlow {I : Interpretation W} {s s' : Bindings W} {b : Block}
    (hjump : ∀ target, b.flow ≠ .jump target) (hwrites : e.WritesFlow w b.flow end_)
    (hsteps : e.codeScope.steps I ⟨none, params⟩ s (e.graph.instructionsOf b) = some s')
    (hmirrors : b.flow ≠ .unreachable → e.Mirrors params w s' registers)
    (hcalls : Forall₂ (Performs e.types) (callsOf s'.events) calls) :
    ∃ o stop, e.codeScope.Evaluates I ⟨none, params⟩ b s o ∧
      (∀ stop', m.Ends ⟨end_ ++ tail, registers, stack, calls⟩ stop' ↔ stop' = stop) ∧
      stop.Refines e.types stack o := by
  generalize hflow : b.flow = flow at *
  cases hwrites with
  | @retValue value n hn =>
    have hvalue := (hmirrors (fun h => nomatch h)).values_eq hn
    have hcopy : m.Reaches ⟨.copy (.register (e.placeRegister n)) .result :: .ret :: tail, registers,
        stack, calls⟩ ⟨.ret :: tail, _, stack, calls⟩ :=
      reaches_copy rfl
    refine ⟨_, _, .retValue hsteps hflow hvalue, fun stop' => hcopy.ends_iff.trans ends_ret_iff, ?_⟩
    exact ⟨hcalls, ⟨rfl, update_self Register.result.number _ registers⟩, rfl⟩
  | ret =>
    exact ⟨_, _, .ret hsteps hflow, fun stop' => ends_ret_iff, hcalls, rfl, rfl⟩
  | jump => exact absurd rfl (hjump _)
  | unreachable =>
    exact ⟨_, _, .unreachable hsteps hflow, fun stop' => ends_halt_iff, hcalls, rfl, rfl⟩

/-- The lines of a method with a straight graph stop as the graph ends. -/
theorem Hosts.stops (h : m.Hosts e params strings) (hstraight : e.graph.Straight e.types e.decl)
    (hthrows : e.graph.ThrowsObjects) {first : List String} {codes : List (List Line)}
    (hwrites : e.WritesAll { strings := first } e.graph.script codes w')
    (hflow : e.WritesFlow w' (e.graph.block .entry).flow end_) (hstrings : w'.strings <+: strings)
    (hparams : ∀ i v, params[i]? = some v → registers (i + 1) = v) :
    ∃ o stop, e.codeScope.HasOutcome (m.words.interpretation m.reply object) ⟨none, params⟩ o ∧
      (∀ stop', m.Ends ⟨e.layout codes end_ ++ tail, registers, stack, []⟩ stop' ↔ stop' = stop) ∧
      stop.Refines e.types stack o := by
  have hmirrors : e.Mirrors params { strings := first } .empty registers :=
    ⟨Places.Mirrors.empty _, h.count, hparams⟩
  obtain ⟨s', registers', calls', hsteps, hmirrors', hcalls, hreach⟩ := h.instructions hstraight hthrows
    hwrites hstrings (nil_append _).symm hmirrors Bindings.after_empty .nil
  obtain ⟨o, stop, ho, hends, hrefines⟩ :=
    stops_of_writesFlow hstraight.flow hflow hsteps hmirrors' hcalls
  refine ⟨o, stop, ⟨e.graph.block .entry, ?_, ho⟩, fun stop' => ?_, hrefines⟩
  · change e.graph.blocks.head? = _
    rw [hstraight.blocks]
    rfl
  · have hheader : m.Reaches ⟨e.layout codes end_ ++ tail, registers, stack, []⟩
        ⟨codes.flatten ++ (end_ ++ tail), registers, stack, []⟩ := by
      rw [← append_assoc]
      exact .head rfl (.head rfl (.refl _))
    exact (hheader.trans hreach).ends_iff.trans (hends stop')

end RegisterMachine

end TreeCompiler
