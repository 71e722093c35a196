import TreeCompiler.Proofs.Lowering.MethodSources

/-!
# Bodies and their methods

Bodies are lowered one after the other. Each goes to the method that it was declared with; all else that
happens to the assembly meanwhile is that delegates are registered.
-/

namespace TreeCompiler

open List TypeTable Option Entry
open Context (instanceName)

/-! ## Tables with bodies -/

/-- The type once some of its methods have been given bodies. -/
def TypeDef.withBodies (d : TypeDef) (bodies : Nat → Option FlowGraph) : TypeDef :=
  { d with methods := d.methods.mapIdx fun i m => { m with body := (bodies i).or m.body } }

namespace TypeDef

theorem withBodies_of_methods {d : TypeDef} (h : d.methods = []) (bodies : Nat → Option FlowGraph) :
    d.withBodies bodies = d := by
  rw [withBodies, h, mapIdx_nil, ← h]

theorem withBodies_none (d : TypeDef) : (d.withBodies fun _ => none) = d := by
  refine congrArg (fun ms => { d with methods := ms }) (ext_getElem? fun k => ?_)
  rw [getElem?_mapIdx]
  cases d.methods[k]? <;> rfl

theorem withBodies_single (d : TypeDef) (i : Nat) (g : FlowGraph) :
    (d.withBodies fun k => if i = k then some g else none) =
      { d with methods := d.methods.modify i fun m => { m with body := some g } } := by
  refine congrArg (fun ms => { d with methods := ms }) (ext_getElem? fun k => ?_)
  rw [getElem?_mapIdx, getElem?_modify]
  by_cases hk : i = k
  · simp [hk]
  · simp [hk]

end TypeDef

namespace TypeTable
variable {t t' : TypeTable} {bodies : MethodRef → Option FlowGraph}

/-- The table once some methods have been given bodies. -/
def withBodies (t : TypeTable) (bodies : MethodRef → Option FlowGraph) : TypeTable :=
  { defs := t.defs.mapIdx fun i d => d.withBodies fun k => bodies ⟨⟨i⟩, k⟩ }

theorem size_withBodies (t : TypeTable) (bodies : MethodRef → Option FlowGraph) :
    (t.withBodies bodies).size = t.size :=
  length_mapIdx

theorem get_withBodies (t : TypeTable) (bodies : MethodRef → Option FlowGraph) (id : TypeId) :
    (t.withBodies bodies).get id = (t.get id).withBodies fun k => bodies ⟨id, k⟩ := by
  rw [get, get, getD_eq_getElem?_getD, getD_eq_getElem?_getD, withBodies, getElem?_mapIdx]
  cases t.defs[id.index]? <;> rfl

theorem methodEntry_withBodies_iff (t : TypeTable) (bodies : MethodRef → Option FlowGraph) (m : MethodRef)
    (c : Method) : (t.withBodies bodies).methodEntry m = .ok c ↔
      ∃ old, t.methodEntry m = .ok old ∧ c = { old with body := (bodies m).or old.body } := by
  unfold methodEntry
  rw [get_withBodies, Defect.entry_eq_ok_iff, TypeDef.withBodies, getElem?_mapIdx, map_eq_some_iff]
  refine exists_congr fun old => ?_
  rw [Defect.entry_eq_ok_iff]
  exact and_congr_right fun _ => eq_comm

theorem withBodies_none (t : TypeTable) : (t.withBodies fun _ => none) = t := by
  refine congrArg mk (ext_getElem? fun i => ?_)
  rw [getElem?_mapIdx]
  cases t.defs[i]? with
  | none => rfl
  | some d => exact congrArg some d.withBodies_none

theorem withBodies_withBodies (t : TypeTable) (bodies later : MethodRef → Option FlowGraph) :
    (t.withBodies bodies).withBodies later = t.withBodies fun m => (later m).or (bodies m) := by
  unfold withBodies TypeDef.withBodies
  simp only [mapIdx_mapIdx, Function.comp_def, Option.or_assoc]

theorem setBody_eq_withBodies (t : TypeTable) (m : MethodRef) (g : FlowGraph) :
    t.setBody m g = t.withBodies fun m' => if m = m' then some g else none := by
  refine congrArg mk (ext_getElem? fun i => ?_)
  rw [getElem?_modify, getElem?_mapIdx]
  cases t.defs[i]? with
  | none => rfl
  | some d =>
    refine congrArg some ?_
    dsimp only
    by_cases hi : m.type.index = i
    · have hsingle : (fun k => if m = ⟨⟨i⟩, k⟩ then some g else none) =
          fun k => if m.index = k then some g else none := by
        funext k
        exact if_congr (by cases m; cases hi; simp) rfl rfl
      rw [if_pos hi, hsingle, TypeDef.withBodies_single]
    · have hnone : (fun k => if m = ⟨⟨i⟩, k⟩ then some g else none) = fun _ => none := by
        funext k
        exact if_neg fun hm => hi (congrArg (·.type.index) hm)
      rw [if_neg hi, hnone, TypeDef.withBodies_none]

theorem instanceOf_withBodies (t : TypeTable) (bodies : MethodRef → Option FlowGraph) (definition : TypeId)
    (args : List TypeId) : (t.withBodies bodies).instanceOf definition args = t.instanceOf definition args := by
  unfold instanceOf instanceName
  simp only [get_withBodies]
  rfl

theorem MayInstantiate.of_withBodies {definition : TypeId} {args : List TypeId}
    (h : (t.withBodies bodies).MayInstantiate definition args) : t.MayInstantiate definition args := by
  obtain ⟨hlt, hargs, hnamed⟩ := h
  rw [size_withBodies] at hlt
  simp only [size_withBodies] at hargs
  rw [get_withBodies] at hnamed
  exact ⟨hlt, hargs, hnamed⟩

theorem lookup_withBodies (t : TypeTable) (bodies : MethodRef → Option FlowGraph) (name : QualifiedName) :
    (t.withBodies bodies).lookup name = none ↔ t.lookup name = none := by
  rw [lookup_eq_none_iff, lookup_eq_none_iff]
  simp only [size_withBodies, get_withBodies]
  rfl

/-- Delegates do not depend on bodies, so they may as well be registered first. -/
theorem exists_of_addsInstances_withBodies (h : (t.withBodies bodies).AddsInstances t') :
    ∃ t₀, t.AddsInstances t₀ ∧ t' = t₀.withBodies bodies := by
  induction h with
  | refl => exact ⟨t, .refl, rfl⟩
  | tail _ hlast ih =>
    obtain ⟨t₀, ht₀, rfl⟩ := ih
    obtain ⟨definition, args, hmay, hfresh⟩ := hlast
    rw [instanceOf_withBodies] at hfresh ⊢
    refine ⟨_, ht₀.tail (.mk definition args hmay.of_withBodies ((lookup_withBodies _ _ _).mp hfresh)), ?_⟩
    refine congrArg mk ?_
    rw [mapIdx_concat, TypeDef.withBodies_of_methods (d := t₀.instanceOf definition args) rfl]
    rfl

end TypeTable

/-! ## The queue -/

namespace Context

def bodyOf (c : Context) (p : PendingBody) : FlowGraph :=
  ((c.scopeOf p).lowerStmts { context := c } p.body).graph.close

/-- The bodies that methods get from a queue; of two for one method the later is kept. -/
def bodies (c : Context) : List PendingBody → MethodRef → Option FlowGraph
  | [], _ => none
  | p :: rest, m => ((c.lowerBody p).bodies rest m).or (if p.method = m then some (c.bodyOf p) else none)

variable (c : Context) (queue : List PendingBody)

theorem isSome_bodies_iff (m : MethodRef) : (c.bodies queue m).isSome = true ↔ m ∈ queue.map (·.method) := by
  induction queue generalizing c with
  | nil => simp [bodies]
  | cons p rest ih =>
    rw [bodies, isSome_or, Bool.or_eq_true, ih, map_cons, mem_cons, or_comm]
    refine or_congr_left ?_
    split
    next heq => simp [heq]
    next hne => simp [Ne.symm hne]

theorem bodies_eq {queue before after : List PendingBody} {p : PendingBody}
    (hdistinct : (queue.map (·.method)).Nodup) (h : queue = before ++ p :: after) :
    c.bodies queue p.method = some ((c.lowerBodies before).bodyOf p) := by
  subst h
  induction before generalizing c with
  | nil =>
    have hnone : (c.lowerBody p).bodies after p.method = none := by
      refine not_isSome_iff_eq_none.mp fun hsome => ?_
      exact (nodup_cons.mp hdistinct).1 ((isSome_bodies_iff _ _ _).mp hsome)
    rw [nil_append, bodies, hnone, if_pos rfl]
    rfl
  | cons first before ih =>
    have hrest := ih (c.lowerBody first) (nodup_cons.mp hdistinct).2
    rw [cons_append, bodies, hrest]
    rfl

theorem exists_lowerBody_eq (p : PendingBody) :
    ∃ t, c.types.AddsInstances t ∧ (c.lowerBody p).duplicates = c.duplicates ∧
      (c.lowerBody p).assembly = { c.assembly with
        types := t.withBodies fun m => if p.method = m then some (c.bodyOf p) else none } := by
  obtain ⟨htypes, hassembly, hduplicates⟩ :=
    ((c.scopeOf p).continues_lowerStmts { context := c } p.body).context
  refine ⟨_, htypes, hduplicates, ?_⟩
  rw [← setBody_eq_withBodies]
  unfold lowerBody withTypes
  dsimp only
  rw [hassembly]
  rfl

/-- All that a queue does to an assembly is to register delegates and to give methods their bodies. -/
theorem exists_lowerBodies_eq : ∃ t, c.types.AddsInstances t ∧ (c.lowerBodies queue).duplicates = c.duplicates ∧
      (c.lowerBodies queue).assembly = { c.assembly with types := t.withBodies (c.bodies queue) } := by
  induction queue generalizing c with
  | nil =>
    refine ⟨c.types, .refl, rfl, ?_⟩
    have hnone : c.types.withBodies (c.bodies []) = c.types := c.types.withBodies_none
    rw [hnone]
    rfl
  | cons p rest ih =>
    obtain ⟨t, ht, hduplicates, hassembly⟩ := c.exists_lowerBody_eq p
    obtain ⟨t', ht', hduplicates', hassembly'⟩ := ih (c.lowerBody p)
    have htypes : (c.lowerBody p).types = t.withBodies fun m => if p.method = m then some (c.bodyOf p) else none :=
      congrArg Assembly.types hassembly
    rw [htypes] at ht'
    obtain ⟨t₀, ht₀, rfl⟩ := exists_of_addsInstances_withBodies ht'
    refine ⟨t₀, ht.trans ht₀, hduplicates'.trans hduplicates, ?_⟩
    change ((c.lowerBody p).lowerBodies rest).assembly = _
    rw [hassembly', hassembly, withBodies_withBodies]
    rfl

theorem methodEntry_lowerBodies_iff (m : MethodRef)
    (new : Method) : (c.lowerBodies queue).types.methodEntry m = .ok new ↔
      ∃ old, c.types.methodEntry m = .ok old ∧ new = { old with body := (c.bodies queue m).or old.body } := by
  obtain ⟨t, ht, -, hassembly⟩ := c.exists_lowerBodies_eq queue
  have htypes : (c.lowerBodies queue).types = t.withBodies (c.bodies queue) :=
    congrArg Assembly.types hassembly
  have hold : t.methodEntry m = c.types.methodEntry m := by
    rw [methodEntry, methodEntry, ht.extends.methods_get]
  rw [htypes, methodEntry_withBodies_iff, hold]

end Context

/-! ## Entries and their bodies -/

/-- The source comes with a body: its declaration has one, or it is a variant, whose constructor is made
with its body. -/
def Source.hasBody : Source → Bool
  | .declared _ _ _ _ d => d.body.isSome
  | .variant .. => true

theorem Entry.place?_of_pending? {e : Entry} {p : PendingBody} (h : e.pending? = some p) :
    e.place? = some p.method := by
  unfold pending? at h
  unfold place?
  split at h
  next hverdict =>
    obtain ⟨body, -, rfl⟩ := map_eq_some_iff.mp h
    rw [hverdict]
  next => cases h

namespace Lowering.Accounts
variable {l : Lowering} {base : List Diagnostic} {es : List Entry} {m : MethodRef} (h : l.Accounts base es)
include h

theorem entry_unique {e e' : Entry} (he : e ∈ es) (he' : e' ∈ es)
    (hplace : e.place? = some m) (hplace' : e'.place? = some m) : e = e' := by
  by_contra hne
  have hpairs := pairwise_filterMap.mp h.distinct
  have hsymm : Std.Symm fun a b : Entry => ∀ m, a.place? = some m → ∀ m', b.place? = some m' → m ≠ m' :=
    ⟨fun _ _ hab m hm m' hm' => (hab m' hm' m hm).symm⟩
  exact hpairs.forall he he' hne m hplace m hplace' rfl

theorem nodup_queue : (l.queue.map (·.method)).Nodup := by
  rw [h.queue, map_filterMap]
  refine pairwise_filterMap.mpr ((pairwise_filterMap.mp h.distinct).imp ?_)
  intro e e' hdistinct m hm m' hm'
  obtain ⟨p, hp, rfl⟩ := map_eq_some_iff.mp hm
  obtain ⟨p', hp', rfl⟩ := map_eq_some_iff.mp hm'
  exact hdistinct _ (place?_of_pending? hp) _ (place?_of_pending? hp')

theorem methodEntry_of_mem_queue {p : PendingBody} (hp : p ∈ l.queue) :
    ∃ m, l.context.types.methodEntry p.method = .ok m ∧ m.body = none ∧
      (l.context.types.get p.method.type).origin = .defined := by
  rw [h.queue] at hp
  obtain ⟨e, he, hpending⟩ := mem_filterMap.mp hp
  obtain ⟨hmethod, -, hdefined⟩ := h.placed e he _ (place?_of_pending? hpending)
  refine ⟨e.method, hmethod, ?_, hdefined⟩
  have hdescribes := h.describes e he
  unfold pending? at hpending
  split at hpending
  next hsource _ =>
    rw [hsource] at hdescribes
    obtain ⟨owner, c, hmethod'⟩ := hdescribes
    rw [hmethod']
    rfl
  next => cases hpending

theorem hasBody_iff {e : Entry} (he : e ∈ es) (hplace : e.place? = some m) :
    m ∈ l.queue.map (·.method) ∨ e.method.body.isSome = true ↔ e.source.hasBody = true := by
  have hqueued : m ∈ l.queue.map (·.method) ↔ e.pending?.isSome = true := by
    rw [h.queue]
    constructor
    · intro hm
      obtain ⟨p, hp, rfl⟩ := mem_map.mp hm
      obtain ⟨e', he', hpending⟩ := mem_filterMap.mp hp
      rw [h.entry_unique he he' hplace (place?_of_pending? hpending), hpending]
      rfl
    · intro hsome
      obtain ⟨p, hpending⟩ := isSome_iff_exists.mp hsome
      refine mem_map.mpr ⟨p, mem_filterMap.mpr ⟨e, he, hpending⟩, ?_⟩
      exact some.inj ((place?_of_pending? hpending).symm.trans hplace)
  have hdescribes := h.describes e he
  rw [hqueued]
  obtain ⟨source, method, verdict⟩ := e
  cases verdict with
  | refused report => cases hplace
  | added place =>
    cases source with
    | declared owner module name isStatic d =>
      obtain ⟨self, c, rfl⟩ := hdescribes
      have hnone : (Lowering.method module self c d name isStatic).1.body = none := rfl
      simp [pending?, Source.hasBody, hnone]
    | variant owner v => simp [Source.hasBody, hdescribes.2.2.2.2.1]

end Lowering.Accounts

/-- `c` is what is left of `l`, with the methods of `es`, once all bodies are lowered. -/
structure Lowering.Completed (l : Lowering) (es : List Entry) (c : Context) : Prop where
  /-- The bodies that wait are those of the declarations that were added, in order. -/
  queue : l.queue = es.filterMap pending?
  distinct : (l.queue.map (·.method)).Nodup
  waiting : ∀ p ∈ l.queue, ∃ m, l.context.types.methodEntry p.method = .ok m ∧ m.body = none
  /-- The assembly has new delegates and new bodies, and is the same but for them. -/
  assembly : ∃ t, l.context.types.AddsInstances t ∧
    c.assembly = { l.context.assembly with types := t.withBodies (l.context.bodies l.queue) }
  types : ∀ id, id.index < l.context.types.size →
    c.types.get id = (l.context.types.get id).withBodies fun k => l.context.bodies l.queue ⟨id, k⟩
  queued : ∀ m, (l.context.bodies l.queue m).isSome = true ↔ m ∈ l.queue.map (·.method)
  /-- The body of a method is lowered from its own statements, after all that wait before it. -/
  bodies : ∀ before p after, l.queue = before ++ p :: after →
    l.context.bodies l.queue p.method = some ((l.context.lowerBodies before).bodyOf p)
  methods : ∀ m new, c.types.methodEntry m = .ok new → (c.types.get m.type).origin = .defined →
    ∃ e ∈ es, e.place? = some m ∧ new.header = e.method.header ∧
      (new.body.isSome = true ↔ e.source.hasBody = true)

theorem Lowering.Accounts.completed {l : Lowering} {base : List Diagnostic} {es : List Entry}
    (h : l.Accounts base es) : l.Completed es (l.context.lowerBodies l.queue) := by
  obtain ⟨t, ht, -, hassembly⟩ := l.context.exists_lowerBodies_eq l.queue
  have htypes : (l.context.lowerBodies l.queue).types = t.withBodies (l.context.bodies l.queue) :=
    congrArg Assembly.types hassembly
  refine ⟨h.queue, h.nodup_queue, fun p hp => ?_, ⟨t, ht, hassembly⟩, fun id hid => ?_,
    Context.isSome_bodies_iff _ _, fun before p after hsplit => ?_, fun m new hnew hdefined => ?_⟩
  · obtain ⟨m, hm, hbody, -⟩ := h.methodEntry_of_mem_queue hp
    exact ⟨m, hm, hbody⟩
  · rw [htypes, get_withBodies, ht.extends.get_eq hid]
  · exact Context.bodies_eq _ h.nodup_queue hsplit
  · obtain ⟨old, hold, rfl⟩ := (l.context.methodEntry_lowerBodies_iff l.queue m new).mp hnew
    have hlt := lt_size_of_methodEntry hold
    rw [htypes, get_withBodies, ht.extends.get_eq hlt] at hdefined
    obtain ⟨e, he, hplace, rfl⟩ := h.exists_entry hold hdefined
    refine ⟨e, he, hplace, rfl, ?_⟩
    rw [isSome_or, Bool.or_eq_true, Context.isSome_bodies_iff]
    exact h.hasBody_iff he hplace

/-- No body is lost, repeated or given to another method. The bodies that wait once declarations are lowered
are those of the declarations that were added, in order, and they wait for different methods. Lowering them
gives each method its own body, registers delegates, and leaves all else as it was. So a method of the
program has a body if its declaration has one, or if it is the constructor of a variant. -/
theorem Compilation.bodies_placed (trees : List Tree) (options : Options) :
    ∃ es : List Entry, es.map Entry.source = (start trees options).context.sources trees ∧
      (declared trees options).Accounts
        ((start trees options).context.declareAll (Tree.declarations trees)).2.duplicates es ∧
      (declared trees options).Completed es (lowered trees options).context := by
  obtain ⟨es, hsources, haccounts⟩ := accounts_lowerDeclarations trees options
  exact ⟨es, hsources, haccounts, haccounts.completed⟩

end TreeCompiler
