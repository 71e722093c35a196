import TreeCompiler.Proofs.Lowering.Meaning
import TreeCompiler.Proofs.Lowering.MethodSources

/-!
# Calls

A call passes a value for each parameter of the method, and before them the object whose method it is. A
call that is written after the name of a type has no object to pass, even if the method needs one.
-/

namespace TreeCompiler

open FlowGraph Method Instruction Lowering

/-! ## Bodies that wait -/

/-- The tree declares the method `name` of the type `owner`, in the type or as a function. -/
inductive Tree.DeclaresMethod (tree : Tree) : QualifiedName → String → FnDecl → Prop where
  | member {d : TypeDecl} {fn : FnDecl} : .type d ∈ tree.body → .method fn ∈ d.members →
      DeclaresMethod tree (tree.module.child d.name) fn.name fn
  | function {fn : FnDecl} : .fn fn ∈ tree.body →
      DeclaresMethod tree programName (if fn.name = "main" then entryName else fn.name) fn

/-- Some tree declares the method that the body waits for, with this body. -/
def PendingBody.From (p : PendingBody) (trees : List Tree) (t : TypeTable) : Prop :=
  ∃ m, t.methodEntry p.method = .ok m ∧ ∃ tree ∈ trees, p.module = tree.module ∧
    ∃ d, tree.DeclaresMethod (t.get p.method.type).name m.name d ∧ d.body = some p.body

theorem PendingBody.From.mono {p : PendingBody} {trees : List Tree} {t t' : TypeTable}
    (h : p.From trees t) (hkeeps : t.Keeps t') : p.From trees t' := by
  obtain ⟨m, hm, tree, htree, hmodule, d, hd, hbody⟩ := h
  obtain ⟨m', hm', hheader⟩ := hkeeps.methodEntry hm
  refine ⟨m', hm', tree, htree, hmodule, d, ?_, hbody⟩
  rw [hkeeps.name (TypeTable.lt_size_of_methodEntry hm), Method.name_of_header hheader]
  exact hd

/-- What trees are sources of, but for variants, they declare. -/
theorem Context.declaresMethod_of_mem_sources {c : Context} {trees : List Tree} {owner module : QualifiedName}
    {name : String} {isStatic : Bool} {d : FnDecl} (h : .declared owner module name isStatic d ∈ c.sources trees) :
    ∃ tree ∈ trees, module = tree.module ∧ tree.DeclaresMethod owner name d := by
  obtain ⟨⟨⟨module', decl⟩, declared⟩, hmem, hsource⟩ := List.mem_flatMap.mp h
  obtain ⟨tree, htree, rfl, hd⟩ := Tree.mem_declarations.mp (List.of_mem_zip hmem).1
  unfold Declaration.sources at hsource
  split at hsource
  next hdecl _ =>
    obtain ⟨m, hm, hsource⟩ := List.mem_filterMap.mp hsource
    cases m with
    | method fn =>
      cases hsource
      exact ⟨tree, htree, rfl, .member (hdecl ▸ hd) hm⟩
    | _ => cases hsource
  next =>
    obtain ⟨v, -, hsource⟩ := List.mem_filterMap.mp hsource
    obtain ⟨-, -, hvariant⟩ := Option.map_eq_some_iff.mp hsource
    cases hvariant
  next hdecl =>
    cases List.mem_singleton.mp hsource
    exact ⟨tree, htree, rfl, .function (hdecl ▸ hd)⟩
  next => cases hsource

/-- The bodies that wait once all declarations are lowered are those of declarations. -/
theorem Compilation.waits_declared (trees : List Tree) (options : Options) :
    ∀ p ∈ (declared trees options).queue, p.From trees (declared trees options).context.types := by
  obtain ⟨es, hsources, haccounts⟩ := accounts_lowerDeclarations trees options
  intro p hp
  rw [haccounts.queue] at hp
  obtain ⟨e, he, hpending⟩ := List.mem_filterMap.mp hp
  have hsource : e.source ∈ (start trees options).context.sources trees := hsources ▸ List.mem_map_of_mem he
  have hplaced := haccounts.placed e he
  have hdescribes := haccounts.describes e he
  obtain ⟨source, method, verdict⟩ := e
  cases source with
  | variant owner v => cases hpending
  | declared owner module name isStatic d =>
    cases verdict with
    | refused report => cases hpending
    | added place =>
      obtain ⟨body, hbody, rfl⟩ := Option.map_eq_some_iff.mp hpending
      obtain ⟨hmethod, howner, -⟩ := hplaced place rfl
      obtain ⟨tree, htree, hmodule, hdeclares⟩ := Context.declaresMethod_of_mem_sources hsource
      obtain ⟨_, _, hmade⟩ := hdescribes
      refine ⟨method, hmethod, tree, htree, hmodule, d, ?_, hbody⟩
      have hname : method.name = name := congrArg Method.name hmade
      rw [howner, hname]
      exact hdeclares

/-! ## Passed values -/

/-- The method that an instruction calls, with the values that it passes. -/
def Instruction.call? : Instruction → Option (MethodRef × List InstrId)
  | .call method args => some (method, args)
  | _ => none

theorem Instruction.call?_eq_some_iff {i : Instruction} {method : MethodRef} {args : List InstrId} :
    i.call? = some (method, args) ↔ i = .call method args := by
  cases i <;> simp [call?]

namespace FlowGraph
variable {g : FlowGraph} {args : List InstrId}

/-- The values are what the method takes: one for each parameter, and before them the object whose method
it is, unless the method is static. -/
inductive Supplies (g : FlowGraph) (m : Method) : List InstrId → Prop where
  | static {args : List InstrId} : m.isStatic = true → args.length = m.params.length → Supplies g m args
  | object {this : InstrId} {args : List InstrId} : m.isStatic = false →
      g.instruction? this = some (.loadArg .this) → args.length = m.params.length →
      Supplies g m (this :: args)

theorem Supplies.of_header {m m' : Method} {args : List InstrId} (h : g.Supplies m args)
    (hheader : m'.header = m.header) : g.Supplies m' args := by
  have hstatic := isStatic_of_header hheader
  have hparams := params_of_header hheader
  cases h with
  | static hm hlength => exact .static (hstatic.trans hm) (hparams ▸ hlength)
  | object hm hthis hlength => exact .object (hstatic.trans hm) hthis (hparams ▸ hlength)

/-- The calls of a graph, in order. -/
def calls (g : FlowGraph) : List (MethodRef × List InstrId) :=
  g.instructions.filterMap call?

theorem mem_calls_iff {method : MethodRef} : (method, args) ∈ g.calls ↔ .call method args ∈ g.instructions := by
  simp [calls, List.mem_filterMap, call?_eq_some_iff]

@[simp] theorem calls_append (g : FlowGraph) (b : BlockId) (i : Instruction) :
    (g.append b i).2.calls = g.calls ++ i.call?.toList := by
  cases h : i.call? <;> simp [calls, append, modifyBlock, h]

theorem instruction?_append_of_some {id : InstrId} {j : Instruction} (h : g.instruction? id = some j)
    (b : BlockId) (i : Instruction) : (g.append b i).2.instruction? id = some j :=
  (List.getElem?_append_left (List.getElem?_eq_some_iff.mp h).1).trans h

@[simp] theorem calls_setFlow (g : FlowGraph) (b : BlockId) (flow : Flow) : (g.setFlow b flow).calls = g.calls :=
  rfl

@[simp] theorem calls_addParam (g : FlowGraph) (b : BlockId) (name : String) (type : Option TypeId) :
    (g.addParam b name type).2.calls = g.calls :=
  rfl

end FlowGraph

/-! ## Steps -/

namespace Scope
variable {e : Scope} {body : List Stmt} {s s' : BodyState}

theorem Compute.calls (h : e.Compute s s') : s'.graph.calls = s.graph.calls := by
  cases h with
  | report => rfl
  | @value i hi =>
    have hnone : i.call? = none := by
      cases i <;> first | rfl | exact hi.elim
    rw [BodyState.append, calls_append, hnone]
    exact List.append_nil _

theorem calls_declare (s : BodyState) (name : String) (type : Option TypeId) (init : Option InstrId) :
    (s.declare name type init).graph.calls = s.graph.calls := by
  simp [BodyState.declare, BodyState.append, call?]

theorem calls_raise (s : BodyState) (ctor : MethodRef) (message : InstrId) :
    (s.raise ctor message).graph.calls = s.graph.calls := by
  simp [BodyState.raise, BodyState.append, BodyState.setFlow, call?]

theorem tracks_calls_eq : e.Tracks (fun _ _ => False) fun s s' => s'.graph.calls = s.graph.calls where
  refl _ := rfl
  trans h h' := h'.trans h
  move h := by
    cases h with
    | compute h => exact h.calls
    | look | close => rfl
    | call _ _ _ hcall => exact hcall.elim
    | declare name => exact calls_declare _ name _ _
  raise s ctor message _ _ := calls_raise s ctor message

theorem Computes.calls (h : e.Computes s s') : s'.graph.calls = s.graph.calls :=
  tracks_calls_eq.moves h.moves

/-! ## Calls -/

/-- One of the statements calls a method `name` with so many arguments, after a name that may mean the type
`owner`. -/
def WritesCall (module : QualifiedName) (body : List Stmt) (owner : QualifiedName) (name : String)
    (arity : Nat) : Prop :=
  ∃ type args span, .call (.qualified type name) args span ∈ body ∧ args.length = arity ∧
    type.MayMean module owner

/-- A call that the statements `body` may give: it has a value for each parameter, and is written after the
name of a type unless the method is static. -/
def CallsAs (t : TypeTable) (module : QualifiedName) (body : List Stmt) (made : MethodRef × List InstrId) :
    Prop :=
  ∃ c, t.methodEntry made.1 = .ok c ∧ made.2.length = c.params.length ∧
    (c.isStatic = true ∨ WritesCall module body (t.get made.1.type).name c.name made.2.length)

theorem CallsAs.mono {t t' : TypeTable} {module : QualifiedName} {made : MethodRef × List InstrId}
    (h : CallsAs t module body made) (hkeeps : t.Keeps t') : CallsAs t' module body made := by
  obtain ⟨c, hc, hlength, hwritten⟩ := h
  obtain ⟨c', hc', hheader⟩ := hkeeps.methodEntry hc
  rw [CallsAs, hkeeps.name (TypeTable.lt_size_of_methodEntry hc)]
  refine ⟨c', hc', ?_, ?_⟩
  · rw [params_of_header hheader]
    exact hlength
  · rw [isStatic_of_header hheader, name_of_header hheader]
    exact hwritten

/-- From `s` to `s'` there are only calls that the statements `body` may give. -/
structure Brings (e : Scope) (body : List Stmt) (s s' : BodyState) : Prop where
  keeps : s.types.Keeps s'.types
  calls : ∀ made ∈ s'.graph.calls, made ∈ s.graph.calls ∨ CallsAs s'.types e.module body made

theorem Brings.of_same (hkeeps : s.types.Keeps s'.types) (hcalls : s'.graph.calls = s.graph.calls) :
    e.Brings body s s' :=
  ⟨hkeeps, fun _ hmade => Or.inl (hcalls ▸ hmade)⟩

theorem tracks_brings (e : Scope) (body : List Stmt) : e.Tracks (fun owner callee =>
    callee.isStatic = true ∨ WritesCall e.module body owner callee.name callee.params.length) (e.Brings body) where
  refl _ := .of_same (.refl _) rfl
  trans h h' := by
    refine ⟨h.keeps.trans h'.keeps, fun made hmade => ?_⟩
    rcases h'.calls made hmade with hold | hnew
    · exact (h.calls made hold).imp_right fun hcalls => hcalls.mono h'.keeps
    · exact Or.inr hnew
  move h := by
    have hkeeps := (tracks_continues.move h).types.evolves.keeps
    cases h with
    | compute h => exact .of_same hkeeps h.calls
    | look | close => exact .of_same hkeeps rfl
    | call hentry hlength _ hcall =>
      refine ⟨hkeeps, fun made hmade => ?_⟩
      rw [BodyState.append, calls_append] at hmade
      rcases List.mem_append.mp hmade with hold | hnew
      · exact Or.inl hold
      · cases List.mem_singleton.mp hnew
        rw [← hlength] at hcall
        exact Or.inr ⟨_, hentry, hlength, hcall⟩
    | declare name => exact .of_same hkeeps (calls_declare _ name _ _)
  raise s ctor message _ _ := .of_same (.refl _) (calls_raise s ctor message)

theorem brings_lowerStmts (e : Scope) (s : BodyState) (stmts : List Stmt) :
    e.Brings stmts s (e.lowerStmts s stmts) := by
  refine (tracks_brings e stmts).lowerStmts s fun stmt hstmt => ?_
  unfold Stmt.CallsWithin
  split
  · exact fun _ _ => Or.inl
  next type name args span =>
    intro t owner callee hfound hname hparams
    exact Or.inr ⟨type, args, span, hname ▸ hstmt, hparams.symm, Context.mayMean_resolveIn? hfound⟩
  · trivial

end Scope

/-! ## The constructor of a variant -/

namespace Lowering

/-- The constructor of a variant calls that of objects, with the object. -/
theorem calls_variantBody (objectCtor : Option MethodRef) (fields : List FieldRef) :
    (variantBody objectCtor fields).calls = objectCtor.toList.map (·, [⟨0⟩]) ∧
      (variantBody objectCtor fields).instruction? ⟨0⟩ = some (.loadArg .this) := by
  unfold variantBody
  dsimp only
  rw [calls_setFlow]
  refine List.foldlRecOn (motive := fun g : FlowGraph => g.calls = objectCtor.toList.map (·, [⟨0⟩]) ∧
    g.instruction? ⟨0⟩ = some (.loadArg .this)) fields.zipIdx _ ?_ ?_
  · cases objectCtor <;> exact ⟨rfl, rfl⟩
  · -- the stores call nothing
    rintro g ⟨hcalls, hthis⟩ ⟨field, i⟩ -
    refine ⟨?_, instruction?_append_of_some (instruction?_append_of_some hthis _ _) _ _⟩
    simp [call?, hcalls]

end Lowering

/-! ## Bodies in a table -/

/-- A body after edits of declarations was there before, or it is that of a variant's constructor. -/
theorem Context.Fills.body_cases {π : Grant} {c c' : Context} {ref : MethodRef} {g : FlowGraph}
    (h : c.Fills π c') (hg : (c'.types.method ref).body = some g) :
    (c.types.method ref).body = some g ∨ ∃ (t : TypeTable) (fields : List FieldRef),
      t.Keeps c'.types ∧ g = variantBody t.objectCtor? fields := by
  induction h with
  | refl => exact Or.inl hg
  | @tail mid last hinit hlast ih =>
    have hkeeps := hlast.evolves.keeps
    have hbefore (hold : (mid.types.method ref).body = some g) : (c.types.method ref).body = some g ∨
        ∃ (t : TypeTable) (fields : List FieldRef), t.Keeps last.types ∧ g = variantBody t.objectCtor? fields :=
      (ih hold).imp_right fun ⟨t, fields, ht, heq⟩ => ⟨t, fields, ht.trans hkeeps, heq⟩
    rcases hlast.methods_cases with hsame | ⟨owner, m, -, htypes, hbody⟩
    · exact hbefore (TypeTable.method_of_methods (hsame ref.type) ▸ hg)
    · rw [htypes] at hg
      rcases mid.types.method_addMethod_cases owner m ref with hsame | ⟨-, hnew⟩
      · exact hbefore (hsame ▸ hg)
      · rw [hnew] at hg
        rcases hbody with hnone | ⟨t, fields, ht, hsome⟩
        · cases hnone.symm.trans hg
        · exact Or.inr ⟨t, fields, ht.trans hkeeps, (Option.some.inj (hsome.symm.trans hg)).symm⟩

namespace TypeTable
variable {t t' : TypeTable} {trees : List Tree} {ref : MethodRef} {g : FlowGraph}

/-- Some tree declares the method `ref` with a body that calls a method `name` of the type `owner` by
its type. -/
def Writes (t : TypeTable) (trees : List Tree) (ref : MethodRef) (owner : QualifiedName) (name : String)
    (arity : Nat) : Prop :=
  ∃ m, t.methodEntry ref = .ok m ∧ ∃ tree ∈ trees, ∃ d body,
    tree.DeclaresMethod (t.get ref.type).name m.name d ∧ d.body = some body ∧
    Scope.WritesCall tree.module body owner name arity

/-- Each call of the body passes what the method takes, but for calls of methods that need an object,
written after the name of the type: these pass the arguments alone. -/
def CallsRight (t : TypeTable) (trees : List Tree) (ref : MethodRef) (g : FlowGraph) : Prop :=
  ∀ callee args, .call callee args ∈ g.instructions → ∃ c, t.methodEntry callee = .ok c ∧
    (g.Supplies c args ∨ c.isStatic = false ∧ args.length = c.params.length ∧
      t.Writes trees ref (t.get callee.type).name c.name args.length)

theorem Writes.mono {owner : QualifiedName} {name : String} {arity : Nat}
    (h : t.Writes trees ref owner name arity) (hkeeps : t.Keeps t') : t'.Writes trees ref owner name arity := by
  obtain ⟨m, hm, tree, htree, d, body, hd, hbody, hwrites⟩ := h
  obtain ⟨m', hm', hheader⟩ := hkeeps.methodEntry hm
  refine ⟨m', hm', tree, htree, d, body, ?_, hbody, hwrites⟩
  rw [hkeeps.name (lt_size_of_methodEntry hm), name_of_header hheader]
  exact hd

theorem CallsRight.mono (h : t.CallsRight trees ref g) (hkeeps : t.Keeps t') : t'.CallsRight trees ref g := by
  intro callee args hcall
  obtain ⟨c, hc, hright⟩ := h callee args hcall
  obtain ⟨c', hc', hheader⟩ := hkeeps.methodEntry hc
  refine ⟨c', hc', hright.imp (·.of_header hheader) ?_⟩
  rintro ⟨hinstance, hlength, hwrites⟩
  rw [isStatic_of_header hheader, params_of_header hheader,
    name_of_header hheader, hkeeps.name (lt_size_of_methodEntry hc)]
  exact ⟨hinstance, hlength, hwrites.mono hkeeps⟩

theorem callsRight_variantBody {t₀ : TypeTable} (hkeeps : t₀.Keeps t) (hobject : t.HasObject)
    (trees : List Tree) (ref : MethodRef) (fields : List FieldRef) :
    t.CallsRight trees ref (variantBody t₀.objectCtor? fields) := by
  intro callee args hcall
  obtain ⟨hcalls, hthis⟩ := calls_variantBody t₀.objectCtor? fields
  rw [← mem_calls_iff, hcalls] at hcall
  obtain ⟨ctor, hctor, hmade⟩ := List.mem_map.mp hcall
  cases hmade
  obtain ⟨c, hc, hinstance, hparams⟩ :=
    entry_of_objectCtor? hkeeps hobject (Option.mem_toList.mp hctor)
  exact ⟨c, hc, Or.inl (.object hinstance hthis hparams.symm)⟩

end TypeTable

/-! ## All bodies -/

namespace Context
variable {trees : List Tree} {c : Context}

/-- The calls of all bodies are right. -/
def CallsRight (c : Context) (trees : List Tree) : Prop :=
  ∀ ref g, (c.types.method ref).body = some g → c.types.CallsRight trees ref g

theorem callsRight_lowerBody (h : c.CallsRight trees) {p : PendingBody} (hp : p.From trees c.types) :
    (c.lowerBody p).CallsRight trees := by
  intro ref g hg
  have hkeeps := (c.evolves_lowerBody p).keeps
  have hextends := ((c.scopeOf p).continues_lowerStmts { context := c } p.body).types
  have hbrings := (c.scopeOf p).brings_lowerStmts { context := c } p.body
  generalize hs : (c.scopeOf p).lowerStmts { context := c } p.body = s at hextends hbrings
  have hbody : (c.lowerBody p).types = s.types.setBody p.method s.graph.close := by
    rw [lowerBody, hs]
    rfl
  rw [hbody] at hg hkeeps ⊢
  rcases s.types.method_setBody_cases p.method s.graph.close ref with hsame | ⟨rfl, hnew⟩
  · rw [hsame, hextends.method_eq] at hg
    exact (h ref g hg).mono hkeeps
  · rw [hnew] at hg
    cases hg
    intro callee args hcall
    have hmade := hbrings.calls (callee, args) (mem_calls_iff.mpr hcall)
    rcases hmade with hempty | hcalls
    · cases hempty
    · obtain ⟨method, hmethod, hlength, hwritten⟩ := hcalls.mono (s.types.keeps_setBody p.method s.graph.close)
      refine ⟨method, hmethod, ?_⟩
      cases hstatic : method.isStatic with
      | true => exact Or.inl (.static hstatic hlength)
      | false =>
        refine Or.inr ⟨rfl, hlength, ?_⟩
        obtain ⟨m, hm, tree, htree, hmodule, d, hd, hdbody⟩ := hp.mono hkeeps
        refine ⟨m, hm, tree, htree, d, p.body, hd, hdbody, hmodule ▸ hwritten.resolve_left ?_⟩
        rw [hstatic]
        exact Bool.false_ne_true

theorem callsRight_lowerBodies (queue : List PendingBody) (h : c.CallsRight trees)
    (hqueue : ∀ p ∈ queue, p.From trees c.types) : (c.lowerBodies queue).CallsRight trees := by
  induction queue generalizing c with
  | nil => exact h
  | cons p queue ih =>
    refine ih (callsRight_lowerBody h (hqueue p List.mem_cons_self)) fun p' hp' => ?_
    exact (hqueue p' (List.mem_cons_of_mem _ hp')).mono (c.evolves_lowerBody p).keeps

end Context

namespace Compilation

theorem eq_variantBody {trees : List Tree} {options : Options} {ref : MethodRef} {g : FlowGraph}
    (hg : ((declared trees options).context.types.method ref).body = some g) :
    ∃ (t : TypeTable) (fields : List FieldRef),
      t.Keeps (declared trees options).context.types ∧ g = variantBody t.objectCtor? fields := by
  obtain ⟨c, hregistered, hfilled⟩ := (start trees options).context.exists_fills trees
  rcases hfilled.body_cases hg with hold | hvariant
  · rw [hregistered.method_eq, types_start, body_install] at hold
    cases hold
  · exact hvariant

theorem callsRight_lowerDeclarations (trees : List Tree) (options : Options) :
    (declared trees options).context.CallsRight trees := by
  intro ref g hg
  have hlawful := ((start trees options).context.evolves_lowerDeclarations trees).lawful
    (types_start trees options ▸ lawful_install options.target)
  obtain ⟨t, fields, hkeeps, rfl⟩ := eq_variantBody hg
  exact TypeTable.callsRight_variantBody hkeeps hlawful.object trees ref fields

/-- Every call in a program passes what the method takes, but for a method that needs an object and is
called by the name of its type. Such a call passes the arguments alone, and the body of a declaration
of the caller writes it. -/
theorem calls_lowered {trees : List Tree} {options : Options} {ref : MethodRef} {m : Method} {g : FlowGraph}
    (hm : (lowered trees options).assembly.types.methodEntry ref = .ok m) (hbody : m.body = some g) :
    (lowered trees options).assembly.types.CallsRight trees ref g := by
  have hcalls := Context.callsRight_lowerBodies _ (callsRight_lowerDeclarations trees options)
    (waits_declared trees options)
  refine hcalls ref g ?_
  have hmethod := TypeTable.method_of_methodEntry _ ref m hm
  exact (congrArg Method.body hmethod).trans hbody

/-- A class with a method that needs an object, and a function that calls it by the name of the class. -/
def bareCallTree : Tree :=
  { module := ⟨["Demo"]⟩
    body := [
      .type { kind := .classType, name := "C", members := [.method { name := "m", body := some [] }] },
      .fn { name := "main", body := some [.call (.qualified ⟨["C"]⟩ "m") [] {}] }] }

theorem calls_lowered_bareCallTree : ∃ ref m g,
    (lowered [bareCallTree] {}).assembly.types.methodEntry ref = .ok m ∧ m.body = some g ∧
      g.calls.length = 1 ∧ (lowered [bareCallTree] {}).assembly.types.CallsRight [bareCallTree] ref g := by
  have hmain : (((lowered [bareCallTree] {}).assembly.types.lookup Lowering.programName).bind
      fun program => (((lowered [bareCallTree] {}).assembly.types.methodEntry ⟨program, 0⟩).toOption.bind
        fun m => m.body).map fun g => g.calls.length) = some 1 := by
    decide +kernel
  obtain ⟨program, -, hmain⟩ := Option.bind_eq_some_iff.mp hmain
  obtain ⟨g, hbody, hcalls⟩ := Option.map_eq_some_iff.mp hmain
  obtain ⟨m, hm, hbody⟩ := Option.bind_eq_some_iff.mp hbody
  have hentry : (lowered [bareCallTree] {}).assembly.types.methodEntry ⟨program, 0⟩ = .ok m := by
    cases hfound : (lowered [bareCallTree] {}).assembly.types.methodEntry ⟨program, 0⟩ with
    | error e =>
      rw [hfound] at hm
      cases hm
    | ok m' =>
      rw [hfound] at hm
      cases hm
      rfl
  exact ⟨_, m, g, hentry, hbody, hcalls, calls_lowered hentry hbody⟩

/-- The function `main` calls the method `m` with no value at all, though `m` is not static, and nothing is
reported. -/
theorem object_not_passed :
    (lowered [bareCallTree] {}).diagnostics = [] ∧
    ((lowered [bareCallTree] {}).assembly.types.defined.flatMap fun d => d.2.methods.map fun m =>
      (m.name, m.isStatic, m.params.length, m.body.toList.flatMap fun g => g.calls.map fun call =>
        ((lowered [bareCallTree] {}).assembly.types.methodName call.1, call.2.length))) =
      [("m", false, 0, []), ("Main", true, 0, [("Demo.C::m", 0)])] := by
  decide +kernel

end Compilation

end TreeCompiler
