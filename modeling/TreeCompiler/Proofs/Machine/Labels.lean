import TreeCompiler.Proofs.Image.Numbering
import TreeCompiler.Proofs.Lowering.Calls
import TreeCompiler.Proofs.Lowering.Soundness
import TreeCompiler.Proofs.Machine.WrittenLines

/-!
# Labels of a program for the machine

A label is defined for each static method with a body and for each text. Calls go to methods of the
program, with or without a label.

* `MethodScope.labels_of_instruction`, `MethodScope.labels_of_lines`,
  `labels_of_methodsLines` : one lemma for each piece.
-/

namespace TreeCompiler

open List TypeTable Instruction Machine Function
variable (t : TypeTable) (m : MethodRef)

/-! ## Lines -/

namespace Machine
variable {lines : List Line} {name : String}

def Line.label? : Line → Option String
  | .label name => some name
  | _ => none

def Line.target? : Line → Option String
  | .call name | .jump name => some name
  | _ => none

/-- The labels that lines define, in order. -/
def definedLabels (lines : List Line) : List String :=
  lines.filterMap Line.label?

/-- The labels that lines call or jump to, in order. -/
def usedLabels (lines : List Line) : List String :=
  lines.filterMap Line.target?

@[simp] theorem definedLabels_append (xs ys : List Line) :
    definedLabels (xs ++ ys) = definedLabels xs ++ definedLabels ys :=
  filterMap_append

@[simp] theorem usedLabels_append (xs ys : List Line) : usedLabels (xs ++ ys) = usedLabels xs ++ usedLabels ys :=
  filterMap_append

theorem mem_definedLabels_iff : name ∈ definedLabels lines ↔ .label name ∈ lines := by
  refine mem_filterMap.trans ⟨?_, fun h => ⟨_, h, rfl⟩⟩
  rintro ⟨line, hline, hname⟩
  cases line with
  | label other =>
    cases hname
    exact hline
  | _ => cases hname

theorem mem_usedLabels_iff : name ∈ usedLabels lines ↔ .call name ∈ lines ∨ .jump name ∈ lines := by
  refine mem_filterMap.trans ⟨?_, ?_⟩
  · rintro ⟨line, hline, hname⟩
    cases line with
    | call other =>
      cases hname
      exact Or.inl hline
    | jump other =>
      cases hname
      exact Or.inr hline
    | _ => cases hname
  · rintro (h | h)
    · exact ⟨_, h, rfl⟩
    · exact ⟨_, h, rfl⟩

end Machine

/-- The method belongs to a type of the program. -/
def TypeTable.Defines : Prop :=
  (t.get m.type).origin = .defined ∧ ∃ c, t.methodEntry m = .ok c

namespace Machine
variable (label : String) (count : Nat) (values : List Register) (result : List Line)

/-- The lines define the labels `names`, and where they go is the labels of the methods `callees`, but for
those that are operations of the machine. -/
structure Labels (t : TypeTable) (lines : List Line) (names : List String) (callees : List MethodRef) :
    Prop where
  defined : definedLabels lines = names
  used : usedLabels lines = (callees.filter fun m => !t.isIntrinsic m).map t.symbol
  callees : ∀ m ∈ callees, t.isIntrinsic m = false → t.Defines m

namespace Labels
variable {t : TypeTable} {lines lines' : List Line} {names names' : List String}
  {callees callees' : List MethodRef}

theorem none (hdefined : definedLabels lines = []) (hused : usedLabels lines = []) : Labels t lines [] [] :=
  ⟨hdefined, hused, fun _ hm => (not_mem_nil hm).elim⟩

theorem append (h : Labels t lines names callees) (h' : Labels t lines' names' callees') :
    Labels t (lines ++ lines') (names ++ names') (callees ++ callees') where
  defined := by rw [definedLabels_append, h.defined, h'.defined]
  used := by rw [usedLabels_append, h.used, h'.used, filter_append, map_append]
  callees m hm := (mem_append.mp hm).elim (h.callees m) (h'.callees m)

end Labels

/-! ## Methods -/

theorem definedLabels_callLines : definedLabels (callLines label count values result) = definedLabels result := by
  simp [callLines, definedLabels, Line.label?, filterMap_cons, filterMap_map, comp_def]

theorem usedLabels_callLines : usedLabels (callLines label count values result) = label :: usedLabels result := by
  simp [callLines, usedLabels, Line.target?, filterMap_map, comp_def]

namespace MethodScope
variable {e : MethodScope} {w w' : Writing} {id : InstrId} {code : List Line} {i : Instruction}

theorem defines_of_call {m : MethodRef} {args : List InstrId} (hintrinsic : e.types.isIntrinsic m = false)
    (h : (e.call id m args).run w = .ok (code, w')) : e.types.Defines m := by
  unfold call at h
  obtain ⟨callee, _, hcallee, hcall⟩ := run_bind_eq_ok h
  obtain ⟨hentry, rfl⟩ := ok_of_lift_ofDefect hcallee
  rw [hintrinsic, if_neg Bool.false_ne_true] at hcall
  split at hcall
  next => cases hcall
  next horigin =>
    refine ⟨?_, callee, hentry⟩
    cases hdefined : (e.types.get m.type).origin with
    | external => exact absurd hdefined horigin
    | defined => rfl

theorem labels_of_writes (h : e.Writes w id i code w') : definedLabels code = [] ∧
      usedLabels code = i.call?.toList.map fun call => e.types.symbol call.1 := by
  cases h with
  | call _ _ | callResult _ _ _ => exact ⟨definedLabels_callLines _ _ _ _, usedLabels_callLines _ _ _ _⟩
  | _ => exact ⟨rfl, rfl⟩

theorem labels_of_instruction (h : (e.instruction id i).run w = .ok (code, w')) :
    Labels e.types code [] (i.call?.toList.map Prod.fst) := by
  rcases writes_or_operates h with ⟨hplain, hwrites⟩ | ⟨m, args, texts, rfl, hintrinsic, -, rfl⟩
  · obtain ⟨hdefined, hused⟩ := labels_of_writes hwrites
    cases i with
    | call m args =>
      have hintrinsic := hplain m args rfl
      refine ⟨hdefined, ?_, fun m' hm' _ => ?_⟩
      · rw [hused]
        simp [call?, hintrinsic]
      · rw [mem_singleton.mp hm']
        exact defines_of_call hintrinsic h
    | _ => exact .none hdefined hused
  · -- an operation of the machine calls nothing
    refine ⟨?_, ?_, fun m' hm' hm => ?_⟩
    · simp [definedLabels, Line.label?, filterMap_map, comp_def]
    · simp [usedLabels, Line.target?, filterMap_map, comp_def, call?, hintrinsic]
    · rw [mem_singleton.mp hm', hintrinsic] at hm
      cases hm

theorem labels_of_instructions {is : Script} {codes : List (List Line)}
    (h : (e.instructions is).run w = .ok (codes, w')) :
    Labels e.types codes.flatten [] (((is.map Prod.snd).filterMap call?).map Prod.fst) := by
  unfold instructions at h
  induction is generalizing codes w with
  | nil =>
    cases h
    exact .none rfl rfl
  | cons x is ih =>
    obtain ⟨code, w₁, codes', hcode, hcodes, rfl⟩ := run_mapM_cons h
    have hall := (labels_of_instruction hcode).append (ih hcodes)
    have hcalls : ((x :: is).map Prod.snd).filterMap call? =
        x.2.call?.toList ++ (is.map Prod.snd).filterMap call? := by
      rw [map_cons, filterMap_cons]
      cases x.2.call? <;> rfl
    rw [hcalls, map_append]
    exact hall

/-- A method defines its own label. -/
theorem labels_of_lines {m : Method} (hstraight : e.graph.Straight e.types m) {lines : List Line}
    (h : e.lines.run w = .ok (lines, w')) : Labels e.types lines [e.symbol] (e.graph.calls.map Prod.fst) := by
  obtain ⟨codes, end_, rfl, hcodes, hflow⟩ := lines_eq_of_run hstraight.blocks h
  have hbody := labels_of_instructions hcodes
  rw [FlowGraph.map_snd_instructionsOf hstraight.numbered] at hbody
  have hend : Labels e.types end_ [] [] := by
    have hnojump := hstraight.flow
    generalize (e.graph.block .entry).flow = flow at hflow hnojump
    cases hflow with
    | jump => exact absurd rfl (hnojump _)
    | _ => exact .none rfl rfl
  have hhead : Labels e.types [.label e.symbol, .note (e.types.methodName e.method)] [e.symbol] [] :=
    ⟨rfl, rfl, fun _ hm => (not_mem_nil hm).elim⟩
  have hall := hhead.append (hbody.append hend)
  simp only [append_nil, nil_append] at hall
  exact hall

end MethodScope

end Machine

/-- The method is written: it is static and has a body. -/
def TypeTable.isWritten : Bool :=
  (t.method m).isStatic && (t.method m).body.isSome

def TypeTable.calleesOf : List MethodRef :=
  (t.method m).body.toList.flatMap fun g => g.calls.map Prod.fst

namespace Machine
variable {t : TypeTable} {strings strings' : List String} {lines : List Line} {a : Assembly} {m : MethodRef}

theorem labels_of_methodLines (hlawful : t.Lawful) {ref : MethodRef}
    (h : methodLines t strings ref = .ok (lines, strings')) : Labels t lines (([ref].filter t.isWritten).map t.symbol)
      (([ref].filter t.isWritten).flatMap t.calleesOf) := by
  have hskipped : ∀ text, t.isWritten ref = false → Labels t [.remark text]
      (([ref].filter t.isWritten).map t.symbol) (([ref].filter t.isWritten).flatMap t.calleesOf) := by
    intro text hwritten
    rw [filter_singleton, hwritten]
    exact .none rfl rfl
  unfold methodLines at h
  dsimp only at h
  split at h
  next hinstance =>
    cases h
    refine hskipped _ ?_
    rw [isWritten, Bool.not_eq_true' _ |>.mp hinstance, Bool.false_and]
  next hstatic =>
    split at h
    next hnone =>
      cases h
      refine hskipped _ ?_
      rw [isWritten, hnone, Option.isSome_none, Bool.and_false]
    next graph hbody =>
      have hwritten : t.isWritten ref = true := by
        simpa [isWritten, hbody] using hstatic
      cases hrun : MethodScope.lines { types := t, method := ref, graph } |>.run { strings } with
      | error e =>
        rw [hrun] at h
        cases h
      | ok out =>
        rw [hrun] at h
        cases h
        have hlabels := MethodScope.labels_of_lines (hlawful.bodies ref graph hbody).1 hrun
        simpa [hwritten, calleesOf, hbody, MethodScope.symbol] using hlabels

theorem labels_of_methodsLines (hlawful : t.Lawful) {refs : List MethodRef}
    (h : methodsLines t strings refs = .ok (lines, strings')) :
    Labels t lines ((refs.filter t.isWritten).map t.symbol) ((refs.filter t.isWritten).flatMap t.calleesOf) := by
  induction refs generalizing strings lines with
  | nil =>
    cases h
    exact .none rfl rfl
  | cons ref refs ih =>
    obtain ⟨first, middle, others, hfirst, hothers, rfl⟩ := methodsLines_cons_eq_ok h
    have hblank : Labels t [.blank] [] [] := .none rfl rfl
    have hall := hblank.append ((labels_of_methodLines hlawful hfirst).append (ih hothers))
    have hrefs : (ref :: refs).filter t.isWritten = [ref].filter t.isWritten ++ refs.filter t.isWritten := by
      rw [← filter_append, singleton_append]
    rw [hrefs, map_append, flatMap_append]
    exact hall

/-! ## Programs -/

theorem labels_texts (t : TypeTable) (strings : List String) (first : Nat) :
    Labels t ((strings.zipIdx first).flatMap fun x => [.label (stringLabel x.2), .string x.1])
      ((range' first strings.length).map stringLabel) [] := by
  induction strings generalizing first with
  | nil => exact .none rfl rfl
  | cons s strings ih =>
    have hfirst : Labels t [.label (stringLabel first), .string s] [stringLabel first] [] :=
      ⟨rfl, rfl, fun _ hm => (not_mem_nil hm).elim⟩
    exact hfirst.append (ih (first + 1))

theorem labels_dataLines (t : TypeTable) (strings : List String) :
    Labels t (dataLines strings) ((range strings.length).map stringLabel) [] := by
  unfold dataLines
  split
  next hempty =>
    rw [isEmpty_iff.mp hempty]
    exact .none rfl rfl
  next =>
    have hhead : Labels t [.blank, .remark "data"] [] [] := .none rfl rfl
    rw [range_eq_range']
    exact hhead.append (labels_texts t strings 0)

theorem labels_of_startLines (h : startLines a = .ok lines) :
    definedLabels lines = [] ∧ usedLabels lines = a.entryPoint.toList.map a.types.symbol := by
  have hlines : lines = [.remark ("Backseater 2k assembly for " ++ a.name),
      .remark s!"Generated by the Backlang compiler, loaded at {entryPoint}", .blank,
      .setStack stackStart] ++ (a.entryPoint.toList.map fun m => .call (a.types.symbol m)) ++ [.halt] := by
    unfold startLines at h
    cases hentry : a.entryPoint.mapM a.types.methodEntry with
    | error e =>
      rw [hentry] at h
      cases h
    | ok entry =>
      rw [hentry] at h
      cases h
      rfl
  rw [hlines]
  cases a.entryPoint <;> exact ⟨rfl, rfl⟩

theorem machineLines_eq_ok (h : a.machineLines = .ok lines) : ∃ start methods strings, startLines a = .ok start ∧
      methodsLines a.types [] (definedMethods a.types) = .ok (methods, strings) ∧
      lines = start ++ methods ++ dataLines strings := by
  unfold Assembly.machineLines at h
  cases hstart : startLines a with
  | error e =>
    rw [hstart] at h
    cases h
  | ok start =>
    rw [hstart] at h
    cases hmethods : methodsLines a.types [] (definedMethods a.types) with
    | error e =>
      simp only [hmethods, bind, Except.bind, EmitError.ofDefect] at h
      cases h
    | ok methods =>
      simp only [hmethods, bind, Except.bind, EmitError.ofDefect] at h
      cases h
      exact ⟨start, methods.1, methods.2, rfl, rfl, rfl⟩

/-- The methods of the program that are written. -/
def writtenMethods (t : TypeTable) : List MethodRef :=
  (definedMethods t).filter t.isWritten

/-- After the call of its entry point, a program defines a label for each method that is written and for
each text. -/
theorem labels_of_machineLines (hlawful : a.types.Lawful) (h : a.machineLines = .ok lines) :
    ∃ count start rest, lines = start ++ rest ∧
      definedLabels start = [] ∧ usedLabels start = a.entryPoint.toList.map a.types.symbol ∧
      Labels a.types rest ((writtenMethods a.types).map a.types.symbol ++ (range count).map stringLabel)
        ((writtenMethods a.types).flatMap a.types.calleesOf) := by
  obtain ⟨start, methods, strings, hstart, hmethods, rfl⟩ := machineLines_eq_ok h
  obtain ⟨hdefined, hused⟩ := labels_of_startLines hstart
  have hrest := (labels_of_methodsLines hlawful hmethods).append (labels_dataLines a.types strings)
  rw [append_nil] at hrest
  exact ⟨strings.length, start, methods ++ dataLines strings, append_assoc _ _ _, hdefined, hused, hrest⟩

theorem mem_definedMethods_iff : m ∈ definedMethods t ↔ t.Defines m := by
  have hentry : (∃ c, t.methodEntry m = .ok c) ↔ m.index < (t.get m.type).methods.length := by
    simp [methodEntry, Defect.entry_eq_ok_iff, ← Option.isSome_iff_exists]
  rw [Defines, hentry]
  unfold definedMethods
  simp only [mem_flatMap, mem_map, mem_range]
  constructor
  · rintro ⟨x, hx, i, hi, rfl⟩
    rw [get_of_mem_defined hx]
    exact ⟨eq_of_beq (mem_filter.mp hx).2, hi⟩
  · rintro ⟨horigin, hindex⟩
    have hlt : m.type.index < t.size := by
      refine Nat.lt_of_not_le fun hle => ?_
      rw [t.get_of_le hle] at horigin
      cases horigin
    refine ⟨(m.type, t.get m.type), mem_filter.mpr ⟨mem_numbered_iff.mpr ?_, ?_⟩, m.index, hindex, rfl⟩
    · rw [getElem?_eq_getElem hlt, ← t.get_mk_of_lt hlt]
    · exact beq_of_eq horigin

theorem mem_writtenMethods_iff : m ∈ writtenMethods t ↔ t.Defines m ∧ t.isWritten m = true := by
  rw [writtenMethods, mem_filter, mem_definedMethods_iff]

end Machine

/-! ## Where control goes -/

namespace Assembly

/-- The program starts with the method, or a method that is written calls it, and it is no operation of the
machine. -/
def Invokes (a : Assembly) (m : MethodRef) : Prop :=
  a.entryPoint = some m ∨
    (∃ caller ∈ writtenMethods a.types, m ∈ a.types.calleesOf caller) ∧
      a.types.isIntrinsic m = false

/-- How the labels of a program hang together. -/
structure Links (a : Assembly) (lines : List Line) : Prop where
  /-- Control goes to the methods that are invoked. -/
  targets : ∀ label, (.call label ∈ lines ∨ .jump label ∈ lines) ↔
    ∃ m, a.Invokes m ∧ a.types.symbol m = label
  /-- These are of the program, and each has its label unless it needs an object or has no body. -/
  labels : ∀ m, a.Invokes m → a.types.Defines m ∧
    (a.types.isWritten m = true → .label (a.types.symbol m) ∈ lines)
  entry : ∀ m, a.entryPoint = some m → (a.types.method m).isStatic = true
  /-- All other labels are those of texts. -/
  defined : ∀ label, .label label ∈ lines →
    (∃ m ∈ writtenMethods a.types, a.types.symbol m = label) ∨ ∃ i, stringLabel i = label

end Assembly

namespace Machine
variable {a : Assembly} {lines : List Line}

theorem links_of_machineLines (hlawful : a.types.Lawful)
    (hentry : ∀ m, a.entryPoint = some m → a.types.Defines m ∧ (a.types.method m).isStatic = true)
    (h : a.machineLines = .ok lines) : a.Links lines := by
  obtain ⟨count, start, rest, rfl, hstart, hentered, hrest⟩ := labels_of_machineLines hlawful h
  refine ⟨fun label => ?_, fun m hm => ?_, fun m hm => (hentry m hm).2, fun label hlabel => ?_⟩
  · rw [← mem_usedLabels_iff, usedLabels_append, mem_append, hentered, hrest.used]
    simp only [Assembly.Invokes, mem_map, mem_filter, mem_flatMap, Option.mem_toList,
      Bool.not_eq_true', ← exists_or, ← or_and_right]
  · have hdefines : a.types.Defines m := by
      rcases hm with hm | ⟨⟨caller, hcaller, hcallee⟩, hintrinsic⟩
      · exact (hentry m hm).1
      · exact hrest.callees m (mem_flatMap.mpr ⟨caller, hcaller, hcallee⟩) hintrinsic
    refine ⟨hdefines, fun hwritten => ?_⟩
    rw [← mem_definedLabels_iff, definedLabels_append, hrest.defined]
    exact mem_append_right _ (mem_append_left _ (mem_map_of_mem (mem_writtenMethods_iff.mpr ⟨hdefines, hwritten⟩)))
  · rw [← mem_definedLabels_iff, definedLabels_append, hstart, nil_append, hrest.defined,
      mem_append, mem_map, mem_map] at hlabel
    exact hlabel.imp_right fun ⟨i, _, hi⟩ => ⟨i, hi⟩

end Machine

namespace Compilation

/-- A call or a jump in a program for the machine goes to a method of the program. Its label is there if
the method is static and has a body; the entry point is static. -/
theorem links_lowered {trees : List Tree} {options : Options} {lines : List Machine.Line}
    (hlines : (lowered trees options).assembly.machineLines = .ok lines) :
    (lowered trees options).assembly.Links lines := by
  have hsound : Context.Sound (fun _ => True) (lowered trees options).context :=
    sound_lowered (fun _ _ => trivial) (fun _ _ _ _ _ _ => trivial) options
  refine Machine.links_of_machineLines (lawful_lowered trees options) (fun m hm => ?_) hlines
  obtain ⟨hname, c, hc, hstatic⟩ := hsound.entry m hm
  have hmethod := TypeTable.method_of_methodEntry _ m c hc
  exact ⟨⟨(namesApart_lowered trees options).functions m.type hname, c, hc⟩,
    (congrArg Method.isStatic hmethod).trans hstatic⟩

/-- A function without a body, a method that needs an object, and calls of both. -/
def danglingTree : Tree :=
  { module := ⟨["Demo"]⟩
    body := [
      .type { kind := .classType, name := "C", members := [.method { name := "m", body := some [] }] },
      .fn { name := "beep" },
      .fn {
        name := "main"
        body := some [.call (.unqualified "beep") [] {}, .call (.qualified ⟨["C"]⟩ "m") [] {}] }] }

theorem links_lowered_danglingTree : ∃ lines,
    (lowered [danglingTree] { target := .machine }).assembly.machineLines = .ok lines ∧
      (lowered [danglingTree] { target := .machine }).assembly.Links lines := by
  have hwritten : (lowered [danglingTree] { target := .machine }).assembly.machineLines.toOption.isSome =
      true := by
    decide +kernel
  cases hlines : (lowered [danglingTree] { target := .machine }).assembly.machineLines with
  | error e =>
    rw [hlines] at hwritten
    cases hwritten
  | ok lines => exact ⟨lines, rfl, links_lowered hlines⟩

def absentTree : Tree :=
  { module := ⟨["Demo"]⟩, body := [.fn { name := "main" }] }

/-- The methods that `main` calls have no label, nor has `main` itself without a body, and nothing is
reported. -/
theorem label_missing :
    ((lowered [danglingTree] { target := .machine }).diagnostics = [] ∧
      ((lowered [danglingTree] { target := .machine }).assembly.machineLines.toOption.map fun lines =>
        (Machine.usedLabels lines, Machine.definedLabels lines)) =
        some (["$Program.Main", "$Program.beep", "$Demo.C.m"], ["$Program.Main"])) ∧
    (lowered [absentTree] { target := .machine }).diagnostics = [] ∧
      ((lowered [absentTree] { target := .machine }).assembly.machineLines.toOption.map fun lines =>
        (Machine.usedLabels lines, Machine.definedLabels lines)) = some (["$Program.Main"], []) := by
  decide +kernel

end Compilation

end TreeCompiler
