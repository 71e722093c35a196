import TreeCompiler.Proofs.Lowering.FirstBases

/-!
# Sound programs

Bodies that lowering makes use values after they are made, and what a body or a member leaves open has been
reported.

* `Context.Sound arity c` : all bodies are finished; without diagnostics all types are known as well, and
  methods have numbers of parameters of which `arity` holds;
* `Step.sound`, `Steps.sound` : no step of lowering spoils this;
* `BodyState.Sound arity e s` : the same for a body that is still lowered;
* `Scope.Move.sound` : a body that is lowered stays sound.
-/

namespace TreeCompiler

open List

/-! ## Known members -/

/-- All types that the members name are known, and no method has too many parameters. -/
structure TypeDef.Known (arity : Nat → Prop) (d : TypeDef) : Prop where
  fields : ∀ f ∈ d.fields, f.type.isSome = true
  methods : ∀ m ∈ d.methods, m.Known ∧ arity m.params.length
  properties : ∀ p ∈ d.properties, p.Known

theorem TypeDef.known_of_members {arity : Nat → Prop} {d : TypeDef} (h : d.members = ([], [], [])) :
    d.Known arity := by
  have hfields : d.fields = [] := congrArg (·.1) h
  have hmethods : d.methods = [] := congrArg (·.2.1) h
  have hproperties : d.properties = [] := congrArg (·.2.2) h
  constructor
  · rw [hfields]
    exact fun _ hf => (not_mem_nil hf).elim
  · rw [hmethods]
    exact fun _ hm => (not_mem_nil hm).elim
  · rw [hproperties]
    exact fun _ hp => (not_mem_nil hp).elim

namespace TypeTable

def Complete (arity : Nat → Prop) (t : TypeTable) : Prop :=
  ∀ id, (t.get id).Known arity

variable {arity : Nat → Prop} {t : TypeTable} (h : t.Complete arity)
include h

theorem Complete.modify (type : TypeId) {f : TypeDef → TypeDef}
    (hf : (f (t.get type)).Known arity) : (t.modify type f).Complete arity := by
  intro id
  rcases t.get_modify_cases type f id with hsame | ⟨rfl, -, hnew⟩
  · exact hsame ▸ h id
  · exact hnew ▸ hf

theorem Complete.append {d : TypeDef} (hd : d.members = ([], [], [])) :
    TypeTable.Complete arity { defs := t.defs ++ [d] } := by
  intro id
  rcases t.get_append_cases d id with ⟨-, hold⟩ | ⟨-, hnew⟩ | ⟨-, hnone⟩
  · exact hold ▸ h id
  · rw [hnew]
    exact TypeDef.known_of_members hd
  · rw [hnone]
    exact TypeDef.known_of_members rfl

theorem Complete.setBody (m : MethodRef) (g : FlowGraph) : (t.setBody m g).Complete arity := by
  have hmethods := forall_mem_modify m.index (h m.type).methods (f := fun old => { old with body := some g })
    fun _ hold => ⟨⟨hold.1.result, hold.1.params⟩, hold.2⟩
  exact h.modify m.type ⟨(h m.type).fields, hmethods, (h m.type).properties⟩

omit h in
theorem method_cases (t : TypeTable) (m : MethodRef) :
    t.method m = default ∨ t.method m ∈ (t.get m.type).methods := by
  rw [method, getD_eq_getElem?_getD]
  cases hm : (t.get m.type).methods[m.index]? with
  | none => exact Or.inl rfl
  | some method => exact Or.inr (mem_of_getElem? hm)

theorem Complete.params (m : MethodRef) : ∀ p ∈ (t.method m).params, p.type.isSome = true := by
  rcases t.method_cases m with hnone | hmem
  · rw [hnone]
    exact fun _ hp => (not_mem_nil hp).elim
  · exact ((h m.type).methods _ hmem).1.params

theorem Complete.arity_of_lt {m : MethodRef} {n : Nat}
    (hn : n < (t.method m).params.length) : arity (t.method m).params.length := by
  rcases t.method_cases m with hnone | hmem
  · rw [hnone] at hn
    exact absurd hn (Nat.not_lt_zero n)
  · exact ((h m.type).methods _ hmem).2

theorem Complete.arity_length {m : MethodRef} {callee : Method}
    (hm : t.methodEntry m = .ok callee) : arity callee.params.length :=
  ((h m.type).methods callee (mem_of_getElem? (Defect.entry_eq_ok_iff.mp hm))).2

end TypeTable

/-! ## Sound states -/

namespace Context

/-- All bodies are finished, the entry point is there, and what is not known has been reported. -/
structure Sound (arity : Nat → Prop) (c : Context) : Prop where
  grounded : c.types.Grounded
  finished : ∀ m g, (c.types.method m).body = some g → g.Finished
  entry : ∀ m, c.assembly.entryPoint = some m → c.types.IsFunction m
  complete : c.diagnostics = [] → c.types.Complete arity
  typed : c.diagnostics = [] → ∀ m g, (c.types.method m).body = some g → g.Typed arity c.types

variable {π : Permit} {c c' : Context} (h : c.Step π c')
include h

theorem Step.body_cases {m : MethodRef} {g : FlowGraph}
    (hg : (c'.types.method m).body = some g) : (c.types.method m).body = some g ∨
      g.Finished ∧ (c.diagnostics = [] → g.Typed π.arity c.types) := by
  have hold : c'.types.method m = c.types.method m → (c.types.method m).body = some g :=
    fun hsame => hsame ▸ hg
  cases h with
  | report d | enter m => exact Or.inl hg
  | register d _ _ hd =>
    exact Or.inl (hold (TypeTable.method_of_methods (c.types.methods_get_append hd.methods m.type)))
  | addField owner f | addProperty owner p =>
    refine Or.inl (hold (c.types.method_modify_of_methods owner ?_ m))
    exact fun _ => rfl
  | revise type f _ hf =>
    exact Or.inl (hold (c.types.method_modify_of_methods type (fun d => congrArg (·.2.1) (hf d).2) m))
  | addMethod owner new _ _ _ hbody =>
    rcases c.types.method_addMethod_cases owner new m with hsame | ⟨-, hnew⟩
    · exact Or.inl (hold hsame)
    · exact Or.inr (hbody g (hnew ▸ hg))
  | setBody target new _ hfinished htyped =>
    rcases c.types.method_setBody_cases target new m with hsame | ⟨-, hbody⟩
    · exact Or.inl (hold hsame)
    · have hnew : ((c.types.setBody target new).method m).body = some new := congrArg Method.body hbody
      cases hnew.symm.trans hg
      exact Or.inr ⟨hfinished, htyped⟩

theorem Step.complete (hsilent : c'.diagnostics = [])
    (hc : c.types.Complete π.arity) : c'.types.Complete π.arity := by
  cases h with
  | report d => exact absurd hsilent (c.push_ne_nil d)
  | register d _ _ hd => exact hc.append hd.members
  | addField owner f _ hf =>
    exact hc.modify owner { hc owner with fields := forall_mem_concat (hc owner).fields (hf hsilent) }
  | addProperty owner p _ hp =>
    exact hc.modify owner { hc owner with properties := forall_mem_concat (hc owner).properties (hp hsilent) }
  | addMethod owner m _ harity hm =>
    exact hc.modify owner { hc owner with methods := forall_mem_concat (hc owner).methods ⟨hm hsilent, harity⟩ }
  | revise type f _ hf =>
    have hmembers := (hf (c.types.get type)).2
    have hfields : (f (c.types.get type)).fields = _ := congrArg (·.1) hmembers
    have hmethods : (f (c.types.get type)).methods = _ := congrArg (·.2.1) hmembers
    have hproperties : (f (c.types.get type)).properties = _ := congrArg (·.2.2) hmembers
    exact hc.modify type ⟨hfields ▸ (hc type).fields, hmethods ▸ (hc type).methods,
      hproperties ▸ (hc type).properties⟩
  | enter m => exact hc
  | setBody m g => exact hc.setBody m g

theorem Step.entry (hc : ∀ m, c.assembly.entryPoint = some m → c.types.IsFunction m) :
    ∀ m, c'.assembly.entryPoint = some m → c'.types.IsFunction m := by
  intro m hm
  have hkeeps := h.keeps
  have hold : c.assembly.entryPoint = some m → c'.types.IsFunction m := fun hm => (hc m hm).mono hkeeps
  cases h with
  | enter m' hentry =>
    have hsame : some m' = some m := hm
    cases hsame
    exact hentry
  | _ => exact hold hm

theorem Step.sound (hc : c.Sound π.arity) : c'.Sound π.arity where
  grounded := h.grounded hc.grounded
  finished m g hg := by
    rcases h.body_cases hg with hold | ⟨hfinished, -⟩
    · exact hc.finished m g hold
    · exact hfinished
  entry := h.entry hc.entry
  complete hsilent := h.complete hsilent (hc.complete (prefix_nil.mp (hsilent ▸ h.diagnostics)))
  typed hsilent m g hg := by
    have hbefore : c.diagnostics = [] := prefix_nil.mp (hsilent ▸ h.diagnostics)
    rcases h.body_cases hg with hold | ⟨-, htyped⟩
    · exact (hc.typed hbefore m g hold).mono h.keepsFields
    · exact (htyped hbefore).mono h.keepsFields

omit h in
theorem Steps.sound (h : c.Steps π c') (hc : c.Sound π.arity) : c'.Sound π.arity := by
  induction h with
  | refl => exact hc
  | tail _ hstep ih => exact hstep.sound ih

end Context

/-! ## Bodies that are still lowered -/

namespace BodyState

/-- The body so far uses values after they are made, and what is not known has been reported. -/
structure Sound (arity : Nat → Prop) (e : Scope) (s : BodyState) : Prop where
  context : s.context.Sound arity
  assigned : s.graph.Assigned
  params : s.context.diagnostics = [] → ∀ p ∈ e.params, p.type.isSome = true
  typed : s.context.diagnostics = [] → s.graph.Typed arity s.types

namespace Sound
variable {arity : Nat → Prop} {e : Scope} {s : BodyState} (h : s.Sound arity e)
include h

theorem informed (hsilent : s.context.diagnostics = []) : s.Informed e := by
  refine ⟨hsilent, h.context.grounded, forall_mem_cons.mpr ⟨rfl, ?_⟩⟩
  exact forall_mem_append.mpr ⟨forall_mem_map.mpr (h.params hsilent), forall_mem_map.mpr (h.typed hsilent).params⟩

theorem withContext {firm : Prop} {c : Context} (hc : s.context.Consults firm c) : (s.withContext c).Sound arity e := by
  have hsteps : s.context.Steps (.upTo arity) c := hc.steps fun _ _ => trivial
  exact ⟨hsteps.sound h.context, h.assigned, fun hsilent => h.params (hc.silent hsilent),
    fun hsilent => (h.typed (hc.silent hsilent)).mono hsteps.keepsFields⟩

theorem append {i : Instruction} (hnone : i.declared? = none)
    (hoperands : ∀ a ∈ i.operands, FlowGraph.Defines s.graph.instructions a)
    (htyped : s.context.diagnostics = [] → i.Typed arity s.types) : (s.append i).2.Sound arity e :=
  ⟨h.context, h.assigned.append hnone hoperands, h.params,
    fun hsilent => (h.typed hsilent).append h.assigned.blocks (htyped hsilent)⟩

theorem setFlow {flow : Flow} (hflow : ∀ v, flow = .ret (some v) → FlowGraph.Defines s.graph.instructions v) :
    (s.setFlow flow).Sound arity e :=
  ⟨h.context, h.assigned.setFlow hflow, h.params, fun hsilent => (h.typed hsilent).setFlow h.assigned.blocks flow⟩

end Sound

end BodyState

namespace Scope
variable {P : QualifiedName → Method → Prop} {arity : Nat → Prop} {e : Scope} {s s' : BodyState}

theorem Admits.typed (hs : s.Informed e) {i : Instruction} (h : e.Admits s i) : i.Typed arity s.types := by
  cases i with
  | constant value type | load type source | binary op type left right => exact h.known hs
  | loadArg arg | loadLocal b => trivial
  | _ => exact h.elim

theorem Move.sound (h : e.Move P s s') (hs : s.Sound arity e) : s'.Sound arity e := by
  cases h with
  | compute h =>
    cases h with
    | report span message label hcode => exact hs.withContext (.report _ ⟨hcode, False.elim⟩ _ _ _)
    | value hi hoperands => exact hs.append hi.plain.1 hoperands fun hsilent => hi.typed (hs.informed hsilent)
  | look hlook => exact hs.withContext hlook
  | @call method callee values hentry hlength hvalues =>
    refine hs.append (i := .call method values) rfl hvalues fun hsilent => Or.inr ?_
    rw [hlength]
    exact (hs.context.complete hsilent).arity_length hentry
  | declare name htype hinit =>
    exact ⟨hs.context, hs.assigned.declare name _ _ hinit, hs.params, fun hsilent =>
      (hs.typed hsilent).declare hs.assigned.blocks name (htype.known (hs.informed hsilent)) _⟩
  | close _ hflow => exact hs.setFlow hflow

theorem tracks_sound : e.Tracks P fun s s' => s.Sound arity e → s'.Sound arity e where
  refl _ := id
  trans h h' hs := h' (h hs)
  move := Move.sound
  raise s ctor message _ hmessage hs := by
    have hobject := hs.append (i := .newObject ctor [message]) rfl (forall_mem_singleton.mpr hmessage)
      fun _ => Or.inl (Nat.le_refl 1)
    exact hobject.setFlow nofun

end Scope

/-! ## Programs -/

namespace Context
variable {c : Context}

variable {π : Permit}

theorem steps_lowerBody (hπ : π.Delegates) (hc : c.Sound π.arity) (p : PendingBody)
    (howner : π.owners p.method.type) : c.Steps π (c.lowerBody p) := by
  have hsteps := ((c.scopeOf p).continues_lowerStmts { context := c } p.body).context.steps hπ
  have hcalls : ∀ stmt ∈ p.body, _ := fun stmt _ => Scope.callsWithin_anyCall (c.scopeOf p).module stmt
  have hsound := Scope.tracks_sound.lowerStmts { context := c } hcalls
    ⟨hc, .empty, fun hsilent => (hc.complete hsilent).params p.method, fun _ => .empty _ _⟩
  refine hsteps.tail (.setBody p.method _ howner hsound.assigned.close fun hsilent => ?_)
  exact (hsound.typed hsilent).close hsound.assigned.blocks

theorem steps_lowerBodies (hπ : π.Delegates) (howners : ∀ id, π.owners id) (hc : c.Sound π.arity)
    (queue : List PendingBody) : c.Steps π (c.lowerBodies queue) :=
  foldl_rel (fun _ => .refl) .trans id queue fun _ hc' p _ =>
    steps_lowerBody hπ (Steps.sound hc' hc) p (howners p.method.type)

end Context

namespace Compilation

variable {arity : Nat → Prop} (hplatform : ∀ n < 4, arity n)
include hplatform

theorem known_install (target : Target) (id : TypeId) : ((target.install Platform.types).get id).Known arity := by
  have htable : ∀ x ∈ (target.install Platform.types).defs.zipIdx, (∀ f ∈ x.1.fields, f.type.isSome = true) ∧
      (∀ m ∈ x.1.methods, (m.returnType.isSome = true ∨ m.isConstructor = true) ∧
        (∀ p ∈ m.params, p.type.isSome = true) ∧ m.params.length < 4) ∧
      x.1.properties = [] := by
    cases target <;> decide +kernel
  refine TypeTable.forall_get_of_zipIdx (P := fun d _ => d.Known arity)
    (fun _ => TypeDef.known_of_members rfl) (fun x hx => ?_) id
  obtain ⟨hfields, hmethods, hproperties⟩ := htable x hx
  refine ⟨hfields, fun m hm => ?_, hproperties ▸ fun _ hp => (not_mem_nil hp).elim⟩
  obtain ⟨hresult, hparams, hfew⟩ := hmethods m hm
  exact ⟨⟨hresult, hparams⟩, hplatform _ hfew⟩

theorem sound_start (trees : List Tree) (options : Options) : (start trees options).context.Sound arity := by
  have hnone : ∀ m g, ((start trees options).context.types.method m).body ≠ some g := by
    intro m g hg
    rw [types_start, body_install] at hg
    cases hg
  constructor
  · exact types_start trees options ▸ grounded_install options.target
  · exact fun m g hg => (hnone m g hg).elim
  · intro m hm
    cases hm
  · intro _ id
    rw [types_start]
    exact known_install hplatform options.target id
  · exact fun _ m g hg => (hnone m g hg).elim

/-- A lowered program is sound. -/
theorem sound_lowered {trees : List Tree}
    (harity : ∀ t ∈ trees, ∀ d ∈ t.body, ∀ n ∈ d.arities, arity n) (options : Options) :
    (lowered trees options).context.Sound arity := by
  have hstart := sound_start hplatform trees options
  have hdeclared : (start trees options).context.Steps (.upTo arity) _ :=
    Context.steps_lowerDeclarations hstart.grounded harity
  have hsound := hdeclared.sound hstart
  exact Context.Steps.sound (Context.steps_lowerBodies (π := .upTo arity) (fun _ _ => trivial)
    (fun _ => trivial) hsound _) hsound

end Compilation

end TreeCompiler
