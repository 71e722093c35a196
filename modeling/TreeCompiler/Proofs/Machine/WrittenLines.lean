import TreeCompiler.Machine.Program
import Mathlib.Data.List.Forall2

/-!
# Lines that are written for a method

What the writer of a method gives, piece by piece, if it succeeds.

* `MethodScope.Writes e w id i code w'` : `code` are the lines of the instruction `i`, written in the state
  `w`, and leave the state `w'`;
* `MethodScope.writesAll_of_run`, `MethodScope.lines_eq_of_run` : the lines of a method are made of such
  pieces.
-/

namespace TreeCompiler

open List

/-- The number that stands for a constant; there is none for a text. -/
def Constant.word? : Constant → Option Int
  | .int _ v => some v
  | .float32 x => some x.bits.toNat
  | .float64 x => some x.bits.toNat
  | .string _ => none
  | .char c => some c.toNat
  | .bool b => some (if b then 1 else 0)
  | .null => some 0

namespace Machine
variable {source : Source} {t : TypeTable} {strings' : List String} {ref : MethodRef} {lines : List Line}
  {refs : List MethodRef}

/-! ## The writer's monad -/

section Monad
variable {α β : Type} {w : Writing} {w' : Writing} {f : α → Writer β} {as : List α} {bs : List β}

theorem run_bind_eq_ok {x : Writer α} {r : β × Writing} (h : (x >>= f).run w = .ok r) :
    ∃ a w₁, x.run w = .ok (a, w₁) ∧ (f a).run w₁ = .ok r := by
  rw [StateT.run_bind] at h
  cases hx : x.run w with
  | error e =>
    rw [hx] at h
    nomatch h
  | ok p =>
    rw [hx] at h
    exact ⟨p.1, p.2, rfl, h⟩

theorem run_mapM_cons {a : α} (h : ((a :: as).mapM f).run w = .ok (bs, w')) :
    ∃ b w₁ bs', (f a).run w = .ok (b, w₁) ∧ (as.mapM f).run w₁ = .ok (bs', w') ∧ bs = b :: bs' := by
  rw [mapM_cons] at h
  obtain ⟨b, w₁, hb, hrest⟩ := run_bind_eq_ok h
  obtain ⟨bs', w₂, hbs, hpure⟩ := run_bind_eq_ok hrest
  cases hpure
  exact ⟨b, w₁, bs', hb, hbs, rfl⟩

theorem ok_of_lift_ofDefect {x : Except Defect α} {a : α}
    (h : StateT.run (liftM (EmitError.ofDefect x) : Writer α) w = .ok (a, w')) : x = .ok a ∧ w' = w := by
  cases x with
  | error e => nomatch h
  | ok b =>
    cases h
    exact ⟨rfl, rfl⟩

end Monad

/-! ## Registers -/

namespace MethodScope
variable {e : MethodScope} {w w' : Writing} {r : Register} {b : BindingId}

/-- `r` is the next register, now that of `p`. -/
structure Takes (e : MethodScope) (w : Writing) (p : Place) (r : Register) (w' : Writing) : Prop where
  register : r = e.placeRegister w.places.length
  places : w'.places = w.places ++ [p]
  strings : w'.strings = w.strings

/-- Place number `n` is that of a variable, taken if the variable had none. -/
def Holds (e : MethodScope) (w : Writing) (b : BindingId) (n : Nat) (w' : Writing) : Prop :=
  match w.places.number? (.binding b) with
  | some k => n = k ∧ w' = w
  | none => n = w.places.length ∧ e.Takes w (.binding b) (e.placeRegister n) w'

theorem takes_of_run {p : Place} (h : (e.takeRegister p).run w = .ok (r, w')) : e.Takes w p r w' := by
  unfold takeRegister at h
  obtain ⟨_, _, hget, htake⟩ := run_bind_eq_ok h
  cases hget
  dsimp only at htake
  split at htake
  · cases htake
    exact ⟨rfl, rfl, rfl⟩
  · nomatch htake

theorem number?_of_run {id : InstrId} (h : (e.valueRegister id).run w = .ok (r, w')) :
    w' = w ∧ ∃ n, w.places.number? (.value id) = some n ∧ r = e.placeRegister n := by
  unfold valueRegister at h
  obtain ⟨_, _, hget, hfound⟩ := run_bind_eq_ok h
  cases hget
  split at hfound
  next n hn =>
    cases hfound
    exact ⟨rfl, n, hn, rfl⟩
  next => nomatch hfound

theorem holds_of_run (h : (e.bindingRegister b).run w = .ok (r, w')) :
    ∃ n, e.Holds w b n w' ∧ r = e.placeRegister n := by
  unfold bindingRegister at h
  obtain ⟨_, _, hget, hfound⟩ := run_bind_eq_ok h
  cases hget
  split at hfound
  next n hn =>
    cases hfound
    refine ⟨n, ?_, rfl⟩
    simp only [Holds, hn, and_self]
  next hn =>
    have htakes := takes_of_run hfound
    refine ⟨w.places.length, ?_, htakes.register⟩
    simp only [Holds, hn, true_and]
    exact htakes.register ▸ htakes

theorem Holds.strings {n : Nat} (h : e.Holds w b n w') : w'.strings = w.strings := by
  unfold Holds at h
  split at h
  next => rw [h.2]
  next => exact h.2.strings

end MethodScope

/-! ## Constants -/

/-- The source of a constant: a number, or the label of a text. -/
inductive Spells (strings : List String) : Constant → Source → Prop where
  | number : c.word? = some v → Spells strings c (.int v)
  | text : strings[i]? = some s → Spells strings (.string s) (.label (stringLabel i))

theorem getElem?_of_stringSource {s : String} {w w' : Writing}
    (h : (MethodScope.stringSource s).run w = .ok (source, w')) : w'.places = w.places ∧ w.strings <+: w'.strings ∧
      ∃ i, w'.strings[i]? = some s ∧ source = .label (stringLabel i) := by
  unfold MethodScope.stringSource at h
  obtain ⟨_, _, hget, hfound⟩ := run_bind_eq_ok h
  cases hget
  dsimp only at hfound
  split at hfound
  next i hi =>
    cases hfound
    obtain ⟨hlt, heq, -⟩ := findIdx?_eq_some_iff_getElem.mp hi
    refine ⟨rfl, prefix_rfl, i, ?_, rfl⟩
    rw [getElem?_eq_getElem hlt, beq_iff_eq.mp heq]
  next =>
    cases hfound
    exact ⟨rfl, prefix_append _ _, w.strings.length, getElem?_concat_length, rfl⟩

theorem spells_of_constantSource {c : Constant} {note : Option String} {w w' : Writing}
    (h : (MethodScope.constantSource c).run w = .ok ((source, note), w')) :
    w'.places = w.places ∧ w.strings <+: w'.strings ∧ Spells w'.strings c source := by
  cases c with
  | string s =>
    obtain ⟨source', w₁, hsource, hpure⟩ := run_bind_eq_ok h
    cases hpure
    obtain ⟨hplaces, hstrings, i, hi, rfl⟩ := getElem?_of_stringSource hsource
    exact ⟨hplaces, hstrings, .text hi⟩
  | int kind v =>
    simp only [MethodScope.constantSource, Constant.asInt?] at h
    by_cases hholds : IntKind.i64.holds v
    · simp only [hholds, if_true] at h
      cases h
      exact ⟨rfl, prefix_rfl, .number rfl⟩
    · simp only [hholds] at h
      nomatch h
  | float32 _ | float64 _ | char _ | bool _ | null =>
    cases h
    exact ⟨rfl, prefix_rfl, .number rfl⟩

/-! ## Instructions -/

/-- The lines of a call: registers `1` to `count` are saved, the values pass through the stack to the
registers of arguments, and the result is kept before the saved registers come back. -/
def callLines (label : String) (count : Nat) (values : List Register) (result : List Line) :
    List Line :=
  let saved := (range count).map MethodScope.paramRegister
  let params := (range values.length).map MethodScope.paramRegister
  saved.map .push ++ values.map .push ++ params.reverse.map .pop ++
    .call label :: (result ++ saved.reverse.map .pop)

namespace MethodScope

abbrev InPlaces (w : Writing) : List InstrId → List Nat → Prop :=
  Forall₂ fun id n => w.places.number? (.value id) = some n

/-- The lines of an instruction, other than one of the machine's own operations. -/
inductive Writes (e : MethodScope) (w : Writing) (id : InstrId) :
    Instruction → List Line → Writing → Prop where
  | constant : e.Takes w (.value id) r w₁ → w'.places = w₁.places → w₁.strings <+: w'.strings →
      Spells w'.strings value word → Writes e w id (.constant value type) [.copy word r note] w'
  | load : w.places.number? (.value from_) = some n → e.Takes w (.value id) r w' →
      Writes e w id (.load type from_) [.copy (.register (e.placeRegister n)) r] w'
  | loadArg : e.Takes w (.value id) r w' →
      Writes e w id (.loadArg (.param index)) [.copy (.register (paramRegister index)) r] w'
  | loadLocal : e.Holds w b n w₁ → e.Takes w₁ (.value id) r w' →
      Writes e w id (.loadLocal b) [.copy (.register (e.placeRegister n)) r] w'
  | declare : e.Holds w b n w' → w'.places.number? (.value init) = some k →
      Writes e w id (.alloca b type (some init)) [.copy (.register (e.placeRegister k)) (e.placeRegister n)] w'
  | declareUnset : e.Holds w b n w' → Writes e w id (.alloca b type none) [.copy (.int 0) (e.placeRegister n)] w'
  | binary : w.places.number? (.value lhs) = some i → w.places.number? (.value rhs) = some j →
      e.Takes w (.value id) r w' →
      Writes e w id (.binary op type lhs rhs) [.binary op (e.placeRegister i) (e.placeRegister j) r] w'
  | call : e.yields (e.types.method m) = false → InPlaces w args ns →
      Writes e w id (.call m args)
        (callLines (e.types.symbol m) (e.paramCount + w.places.length) (ns.map e.placeRegister) []) w
  | callResult : e.yields (e.types.method m) = true → InPlaces w args ns → e.Takes w (.value id) r w' →
      Writes e w id (.call m args) (callLines (e.types.symbol m) (e.paramCount + w.places.length)
        (ns.map e.placeRegister) [.copy (.register .result) r]) w'
  | newObject : e.Takes w (.value id) r w' → Writes e w id (.newObject ctor args) [.copy (.int 0) r note] w'

inductive WritesAll (e : MethodScope) :
    Writing → Script → List (List Line) → Writing → Prop where
  | nil : WritesAll e w [] [] w
  | cons {id : InstrId} : e.Writes w id i code w₁ → WritesAll e w₁ rest codes w' →
      WritesAll e w ((id, i) :: rest) (code :: codes) w'

inductive WritesFlow (e : MethodScope) (w : Writing) : Flow → List Line → Prop where
  | retValue : w.places.number? (.value value) = some n →
      WritesFlow e w (.ret (some value)) [.copy (.register (e.placeRegister n)) .result, .ret]
  | ret : WritesFlow e w (.ret none) [.ret]
  | jump : WritesFlow e w (.jump b) [.jump (e.blockLabel b)]
  | unreachable : WritesFlow e w .unreachable [.halt]

variable {e : MethodScope} {w w' : Writing} {id : InstrId} {code lines : List Line} {args : List InstrId}
  {i : Instruction} {is : Script} {codes : List (List Line)}

theorem takes_of_define {note : Option String} (h : (e.define id source note).run w = .ok (code, w')) :
    ∃ r, e.Takes w (.value id) r w' ∧ code = [.copy source r note] := by
  unfold define at h
  obtain ⟨r, w₁, hr, hpure⟩ := run_bind_eq_ok h
  cases hpure
  exact ⟨r, takes_of_run hr, rfl⟩

theorem places_of_run {rs : List Register} (h : (args.mapM e.valueRegister).run w = .ok (rs, w')) :
    w' = w ∧ ∃ ns, InPlaces w args ns ∧ rs = ns.map e.placeRegister := by
  induction args generalizing rs w' with
  | nil =>
    cases h
    exact ⟨rfl, [], .nil, rfl⟩
  | cons a args ih =>
    obtain ⟨r, w₁, rs', hr, hrs, rfl⟩ := run_mapM_cons h
    obtain ⟨rfl, n, hn, rfl⟩ := number?_of_run hr
    obtain ⟨rfl, ns, hns, rfl⟩ := ih hrs
    exact ⟨rfl, n :: ns, .cons hn hns, rfl⟩

theorem writes_of_call {m : MethodRef} (hintrinsic : e.types.isIntrinsic m = false)
    (h : (e.call id m args).run w = .ok (code, w')) : e.Writes w id (.call m args) code w' := by
  unfold call at h
  obtain ⟨callee, _, hcallee, hcall⟩ := run_bind_eq_ok h
  obtain ⟨hentry, rfl⟩ := ok_of_lift_ofDefect hcallee
  rw [hintrinsic, if_neg Bool.false_ne_true] at hcall
  rw [← e.types.method_of_methodEntry m callee hentry] at hcall
  split at hcall
  · nomatch hcall
  · obtain ⟨saved, _, hsaved, hrest⟩ := run_bind_eq_ok hcall
    cases hsaved
    obtain ⟨values, _, hvalues, hrest⟩ := run_bind_eq_ok hrest
    obtain ⟨rfl, ns, hns, rfl⟩ := places_of_run hvalues
    have hlength : args.length = (ns.map e.placeRegister).length := by
      rw [hns.length_eq, length_map]
    rw [hlength] at hrest
    cases hyields : e.yields (e.types.method m) with
    | true =>
      rw [hyields, if_pos rfl] at hrest
      obtain ⟨result, _, hresult, hpure⟩ := run_bind_eq_ok hrest
      cases hpure
      obtain ⟨r, htakes, rfl⟩ := takes_of_define hresult
      exact .callResult hyields hns htakes
    | false =>
      rw [hyields, if_neg Bool.false_ne_true] at hrest
      cases hrest
      exact .call hyields hns

theorem writes_of_run (hintrinsic : ∀ m args, i = .call m args → e.types.isIntrinsic m = false)
    (h : (e.instruction id i).run w = .ok (code, w')) : e.Writes w id i code w' := by
  cases i with
  | constant value type =>
    obtain ⟨r, w₁, hr, hrest⟩ := run_bind_eq_ok h
    obtain ⟨⟨source, note⟩, w₂, hsource, hpure⟩ := run_bind_eq_ok hrest
    cases hpure
    obtain ⟨hplaces, hstrings, hspells⟩ := spells_of_constantSource hsource
    exact .constant (takes_of_run hr) hplaces hstrings hspells
  | load type source =>
    obtain ⟨r, w₁, hr, hrest⟩ := run_bind_eq_ok h
    obtain ⟨rfl, n, hn, rfl⟩ := number?_of_run hr
    obtain ⟨target, htakes, rfl⟩ := takes_of_define hrest
    exact .load hn htakes
  | loadArg arg =>
    cases arg with
    | this => nomatch h
    | param index =>
      obtain ⟨r, w₁, hr, hrest⟩ := run_bind_eq_ok h
      obtain ⟨number, w₂, hnumber, hpure⟩ := run_bind_eq_ok hrest
      obtain ⟨hnext, rfl⟩ := ok_of_lift_ofDefect hnumber
      cases hpure
      obtain rfl : number = index + 1 := by
        unfold Defect.next at hnext
        split at hnext
        · exact (Except.ok.inj hnext).symm
        · nomatch hnext
      exact .loadArg (takes_of_run hr)
  | loadLocal b =>
    obtain ⟨r, w₁, hr, hrest⟩ := run_bind_eq_ok h
    obtain ⟨n, hholds, rfl⟩ := holds_of_run hr
    obtain ⟨target, htakes, rfl⟩ := takes_of_define hrest
    exact .loadLocal hholds htakes
  | alloca b type init =>
    obtain ⟨r, w₁, hr, hrest⟩ := run_bind_eq_ok h
    obtain ⟨n, hholds, rfl⟩ := holds_of_run hr
    cases init with
    | none =>
      cases hrest
      exact .declareUnset hholds
    | some init =>
      obtain ⟨value, w₂, hvalue, hpure⟩ := run_bind_eq_ok hrest
      obtain ⟨rfl, k, hk, rfl⟩ := number?_of_run hvalue
      cases hpure
      exact .declare hholds hk
  | binary op type lhs rhs =>
    obtain ⟨left, w₁, hleft, hrest⟩ := run_bind_eq_ok h
    obtain ⟨rfl, j, hj, rfl⟩ := number?_of_run hleft
    obtain ⟨right, w₂, hright, hrest⟩ := run_bind_eq_ok hrest
    obtain ⟨rfl, k, hk, rfl⟩ := number?_of_run hright
    obtain ⟨r, w₃, hr, hpure⟩ := run_bind_eq_ok hrest
    cases hpure
    exact .binary hj hk (takes_of_run hr)
  | call m args => exact writes_of_call (hintrinsic m args rfl) h
  | newObject ctor args =>
    obtain ⟨r, htakes, rfl⟩ := takes_of_define h
    exact .newObject htakes
  | storeField field target value => nomatch h

/-! ## Whole methods -/

def instructions (e : MethodScope) (is : Script) : Writer (List (List Line)) :=
  is.mapM fun x => e.instruction x.1 x.2

/-- The instructions call no operation of the machine. -/
def Plain (e : MethodScope) (is : List Instruction) : Prop :=
  ∀ m args, .call m args ∈ is → e.types.isIntrinsic m = false

theorem writesAll_of_run (hplain : e.Plain (is.map Prod.snd))
    (h : (e.instructions is).run w = .ok (codes, w')) : e.WritesAll w is codes w' := by
  unfold instructions at h
  induction is generalizing codes w with
  | nil =>
    cases h
    exact .nil
  | cons x is ih =>
    obtain ⟨code, w₁, codes', hcode, hcodes, rfl⟩ := run_mapM_cons h
    have hfirst := writes_of_run (fun m args hx => hplain m args (by simp [hx])) hcode
    exact .cons hfirst (ih (fun m args hmem => hplain m args (mem_cons_of_mem _ hmem)) hcodes)

theorem writesFlow_of_run {flow : Flow} (h : (e.flow flow).run w = .ok (code, w')) :
    w' = w ∧ e.WritesFlow w flow code := by
  cases flow with
  | ret value =>
    cases value with
    | none =>
      cases h
      exact ⟨rfl, .ret⟩
    | some value =>
      obtain ⟨r, w₁, hr, hpure⟩ := run_bind_eq_ok h
      obtain ⟨rfl, n, hn, rfl⟩ := number?_of_run hr
      cases hpure
      exact ⟨rfl, .retValue hn⟩
  | jump b =>
    cases h
    exact ⟨rfl, .jump⟩
  | unreachable =>
    cases h
    exact ⟨rfl, .unreachable⟩

/-- A method of one block is its label, its name and the lines of the block. -/
def layout (e : MethodScope) (codes : List (List Line)) (end_ : List Line) : List Line :=
  .label e.symbol :: .note (e.types.methodName e.method) :: (codes.flatten ++ end_)

theorem lines_eq_of_run (hblocks : e.graph.blocks = [e.graph.block .entry]) (h : e.lines.run w = .ok (lines, w')) :
    ∃ codes end_, lines = e.layout codes end_ ∧
      (e.instructions e.graph.script).run w = .ok (codes, w') ∧
      e.WritesFlow w' (e.graph.block .entry).flow end_ := by
  unfold MethodScope.lines at h
  obtain ⟨_, _, hnext, hrest⟩ := run_bind_eq_ok h
  obtain ⟨-, rfl⟩ := ok_of_lift_ofDefect hnext
  obtain ⟨blocks, w₁, hblocks', hpure⟩ := run_bind_eq_ok hrest
  have hentry : e.graph.numberedBlocks = [(.entry, e.graph.block .entry)] := by
    unfold FlowGraph.numberedBlocks
    rw [hblocks]
    rfl
  rw [hentry, mapM_cons, mapM_nil] at hblocks'
  obtain ⟨code, w₂, hblock, hnil⟩ := run_bind_eq_ok hblocks'
  cases hnil
  unfold block at hblock
  obtain ⟨codes, w₃, hcodes, hflow⟩ := run_bind_eq_ok hblock
  obtain ⟨end_, w₄, hend, hpure'⟩ := run_bind_eq_ok hflow
  obtain ⟨rfl, hwrites⟩ := writesFlow_of_run hend
  cases hpure'
  cases hpure
  refine ⟨codes, end_, ?_, hcodes, hwrites⟩
  simp [layout]

/-- The writer puts `code` for an instruction after the lines of the instructions `done`, and is in the
state `w` before. -/
structure Part (e : MethodScope) (strings : List String) (lines : List Line)
    (done : Script) (x : InstrId × Instruction) (w : Writing)
    (code : List Line) : Prop where
  written : ∃ w', (e.instruction x.1 x.2).run w = .ok (code, w')
  place : ∃ codes rest, (e.instructions done).run { strings } = .ok (codes, w) ∧
    lines = e.layout codes (code ++ rest)

theorem part_of_run {strings : List String} {done rest : Script} {x : InstrId × Instruction}
    {end_ : List Line} (h : (e.instructions (done ++ x :: rest)).run { strings } = .ok (codes, w')) :
    ∃ w code w₁ others, e.Part strings (e.layout codes end_) done x w code ∧
      (e.instruction x.1 x.2).run w = .ok (code, w₁) ∧
      (e.instructions rest).run w₁ = .ok (others, w') := by
  unfold instructions at h
  rw [mapM_append] at h
  obtain ⟨before, w, hbefore, hrest⟩ := run_bind_eq_ok h
  obtain ⟨after, w₁, hafter, hpure⟩ := run_bind_eq_ok hrest
  cases hpure
  obtain ⟨code, w₂, others, hcode, hothers, rfl⟩ := run_mapM_cons hafter
  refine ⟨w, code, w₂, others, ⟨⟨w₂, hcode⟩, before, others.flatten ++ end_, hbefore, ?_⟩, hcode, hothers⟩
  simp [layout]

/-! ## Texts -/

theorem Writes.strings (h : e.Writes w id i code w') : w.strings <+: w'.strings := by
  cases h with
  | constant htakes _ hstrings _ => exact htakes.strings ▸ hstrings
  | loadLocal hholds htakes => exact htakes.strings ▸ hholds.strings ▸ prefix_rfl
  | declare hholds | declareUnset hholds => exact hholds.strings ▸ prefix_rfl
  | call _ _ => exact prefix_rfl
  | load _ htakes | loadArg htakes | binary _ _ htakes | callResult _ _ htakes | newObject htakes =>
    exact htakes.strings ▸ prefix_rfl

theorem WritesAll.strings (h : e.WritesAll w is codes w') : w.strings <+: w'.strings := by
  induction h with
  | nil => exact prefix_rfl
  | cons hfirst _ ih => exact hfirst.strings.trans ih

theorem eq_of_intrinsic {name : String} (h : (e.intrinsic name args).run w = .ok (code, w')) :
    w' = w ∧ ∃ texts : List String, code = texts.map .operation := by
  unfold intrinsic at h
  split at h
  next text _ =>
    cases h
    exact ⟨rfl, Text.lines text, rfl⟩
  next => nomatch h

/-- An instruction is written as such, or it is an operation of the machine, which has lines of its own. -/
theorem writes_or_operates (h : (e.instruction id i).run w = .ok (code, w')) :
    ((∀ m args, i = .call m args → e.types.isIntrinsic m = false) ∧ e.Writes w id i code w') ∨
      ∃ m args texts, i = .call m args ∧ e.types.isIntrinsic m = true ∧ w' = w ∧ code = map .operation texts := by
  by_cases hplain : ∀ m args, i = .call m args → e.types.isIntrinsic m = false
  · exact Or.inl ⟨hplain, writes_of_run hplain h⟩
  · obtain ⟨m, args, rfl, hintrinsic⟩ : ∃ m args, i = .call m args ∧ e.types.isIntrinsic m = true := by
      simpa using hplain
    obtain ⟨callee, _, hcallee, hcall⟩ := run_bind_eq_ok h
    obtain ⟨-, rfl⟩ := ok_of_lift_ofDefect hcallee
    rw [hintrinsic, if_pos rfl] at hcall
    obtain ⟨hsame, texts, htexts⟩ := eq_of_intrinsic hcall
    exact Or.inr ⟨m, args, texts, rfl, hintrinsic, hsame, htexts⟩

end MethodScope

theorem methodsLines_cons_eq_ok {strings : List String}
    (h : methodsLines t strings (ref :: refs) = .ok (lines, strings')) :
    ∃ first middle others, methodLines t strings ref = .ok (first, middle) ∧
      methodsLines t middle refs = .ok (others, strings') ∧ lines = .blank :: (first ++ others) := by
  unfold methodsLines at h
  cases hfirst : methodLines t strings ref with
  | error e =>
    rw [hfirst] at h
    nomatch h
  | ok first =>
    rw [hfirst] at h
    cases hothers : methodsLines t first.2 refs with
    | error e =>
      simp only [hothers, bind, Except.bind] at h
      nomatch h
    | ok others =>
      simp only [hothers, bind, Except.bind] at h
      cases h
      exact ⟨first.1, first.2, others.1, rfl, hothers, rfl⟩

end Machine

end TreeCompiler
