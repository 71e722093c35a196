import TreeCompiler.Proofs.Lowering.Constants
import TreeCompiler.Proofs.Lowering.Sequence

/-!
# Declarations are filled in

Whatever a declaration does to fill in what it registered is one of nine edits. There is one lemma for each
function that fills in types; what holds of all edits holds of what the functions do.
-/

namespace TreeCompiler

open List Context TypeTable FlowGraph Lowering

variable {module : QualifiedName} {declared : Declared} {id : TypeId} {d : TypeDef} {π : Grant} {c : Context}
  {trees : List Tree}

open Relation (ReflTransGen)

/-! ## The constructor of a variant -/

namespace Lowering
variable {t : TypeTable} {objectCtor : Option MethodRef} {fields : List FieldRef}

/-- The constructor of a variant refers to its own parameters, and its call of the constructor of
objects passes the object. -/
theorem built_variantBody {m : Method} (hinstance : m.isStatic = false) (hctor : ∀ ctor, objectCtor = some ctor →
      ∃ c, t.methodEntry ctor = .ok c ∧ c.isStatic = false ∧ c.params.length = 0)
    (hfields : fields.length ≤ m.params.length) : (variantBody objectCtor fields).Built t m := by
  have hthis := (Built.empty t m).append (show (Instruction.loadArg .this).Allowed t m _ from hinstance) rfl rfl
  unfold variantBody
  dsimp only
  refine Built.setFlow ?_ (fun _ => Flow.noConfusion)
  refine foldlRecOn (motive := fun g : FlowGraph => g.Built t m) _ _ ?_ fun g hg store hstore => ?_
  · cases objectCtor with
    | none => exact hthis
    | some ctor =>
      obtain ⟨c, hc, hobject, hparams⟩ := hctor ctor rfl
      refine hthis.append ⟨c, hc, hparams.le.trans (Nat.zero_le _), ?_⟩ rfl rfl
      rw [Method.operands, hobject]
      exact Nat.le_add_left _ _
  · have hparam : (Instruction.loadArg (.param store.2)).Allowed t m
        (g.instructions.filterMap Instruction.declared?) :=
      (mem_zipIdx' hstore).1.trans_le hfields
    exact (hg.append hparam rfl rfl).append trivial rfl rfl

/-- The constructor that was found for objects takes the object and nothing else, in any later table. -/
theorem entry_of_objectCtor? {t' : TypeTable} (hkeeps : t.Keeps t') (hobject : t'.HasObject)
    {ctor : MethodRef} (h : t.objectCtor? = some ctor) :
    ∃ c, t'.methodEntry ctor = .ok c ∧ c.isStatic = false ∧ c.params.length = 0 := by
  obtain ⟨found, c, hfound, hc, hinstance⟩ := hobject
  rw [hkeeps.objectCtor? h] at hfound
  cases hfound
  obtain ⟨object, -, hmethod⟩ := Option.bind_eq_some_iff.mp (hkeeps.objectCtor? h)
  obtain ⟨c', hc', -, hparams⟩ := methodEntry_of_findMethod? hmethod
  cases hc.symm.trans hc'
  exact ⟨c, hc, hinstance, hparams⟩

/-- The constructor of a variant uses the object and its parameters after it has loaded them, and stores
them in fields that exist. -/
theorem finished_variantBody (arity : Nat → Prop) (objectCtor : Option MethodRef)
    (hfields : ∀ f ∈ fields, t.HasField f) :
    (variantBody objectCtor fields).Finished ∧ (variantBody objectCtor fields).Typed arity t := by
  have hthis := Assigned.empty.append (i := .loadArg .this) rfl (forall_mem_nil _)
  have hthisTyped := (Typed.empty arity t).append Assigned.empty.blocks (i := .loadArg .this) trivial
  have hdefines : FlowGraph.Defines (empty.append .entry (.loadArg .this)).2.instructions ⟨0⟩ :=
    defines_concat [] rfl
  have hend : ∀ g, Assigned g ∧ Typed arity t g ∧ FlowGraph.Defines g.instructions ⟨0⟩ →
      (g.setFlow .entry (.ret none)).Finished ∧ (g.setFlow .entry (.ret none)).Typed arity t :=
    fun g hg => ⟨⟨hg.1.setFlow nofun, hg.1.isTerminated_setFlow _⟩, hg.2.1.setFlow hg.1.blocks _⟩
  unfold variantBody
  dsimp only
  refine hend _ (foldlRecOn (motive := fun g : FlowGraph => g.Assigned ∧ g.Typed arity t ∧
    FlowGraph.Defines g.instructions ⟨0⟩) _ _ ?_ fun g hg store hstore => ?_)
  · cases objectCtor with
    | none => exact ⟨hthis, hthisTyped, hdefines⟩
    | some ctor =>
      exact ⟨hthis.append rfl (forall_mem_singleton.mpr hdefines),
        hthisTyped.append hthis.blocks (Or.inl (Nat.le_refl 1)), hdefines.mono (prefix_append _ _)⟩
  · obtain ⟨hassigned, htyped, hthis⟩ := hg
    have hload := hassigned.append (i := .loadArg (.param store.2)) rfl (forall_mem_nil _)
    have hloadTyped := htyped.append hassigned.blocks (i := .loadArg (.param store.2)) trivial
    have hlater := hthis.mono (prefix_append _ [Instruction.loadArg (.param store.2)])
    refine ⟨hload.append rfl fun a ha => ?_, hloadTyped.append hload.blocks ?_, hlater.mono (prefix_append _ _)⟩
    · rcases mem_pair.mp ha with rfl | rfl
      · exact hlater
      · exact defines_concat g.instructions rfl
    · exact (hfields _ (fst_mem_of_mem_zipIdx hstore)).2

/-- The constructor of a variant calls a constructor that there is and stores its parameters in fields that
there are. -/
theorem draft_variantBody (hctor : ∀ m, objectCtor = some m → t.HasMethod m)
    (hfields : ∀ f ∈ fields, t.HasField f) : (variantBody objectCtor fields).Draft t := by
  obtain ⟨hthis, -, hresult⟩ := (Draft.empty t).append (i := .loadArg .this) ⟨forall_mem_nil _, trivial⟩
  have hend : ∀ g, Draft t g ∧ g.HasResult ⟨0⟩ → (g.setFlow .entry (.ret none)).Draft t :=
    fun g hg => (hg.1.setFlow (show (Flow.ret none).Bounded g from nofun)).1
  unfold variantBody
  dsimp only
  refine hend _ (foldlRecOn (motive := fun g : FlowGraph => g.Draft t ∧ g.HasResult ⟨0⟩) _ _ ?_
    fun g hg store hstore => ?_)
  · cases objectCtor with
    | none => exact ⟨hthis, hresult⟩
    | some ctor =>
      obtain ⟨hcall, hmore, -⟩ := hthis.append (i := .call ctor [⟨0⟩])
        ⟨forall_mem_singleton.mpr hresult, hctor ctor rfl⟩
      exact ⟨hcall, hresult.mono hmore⟩
  · obtain ⟨hload, hmore, hvalue⟩ := hg.1.append (i := .loadArg (.param store.2)) ⟨forall_mem_nil _, trivial⟩
    have hthis := hg.2.mono hmore
    have hoperands : ∀ id ∈ [⟨0⟩, (g.append .entry (.loadArg (.param store.2))).1],
        (g.append .entry (.loadArg (.param store.2))).2.HasResult id := by
      intro id hid
      rcases mem_pair.mp hid with rfl | rfl
      · exact hthis
      · exact hvalue
    obtain ⟨hstore, hmore, -⟩ := hload.append (i := .storeField store.1 ⟨0⟩ _)
      ⟨hoperands, hfields _ (fst_mem_of_mem_zipIdx hstore)⟩
    exact ⟨hstore, hthis.mono hmore⟩

end Lowering

/-! ## Edits -/

/-- What declarations may do when they are filled in. -/
structure Grant extends Permit where
  /-- Types whose bases may change. -/
  heirs : TypeId → Prop
  /-- The bases of all types are in order, and stay so. -/
  ordered : Prop
  /-- No base is refused. -/
  firm : Prop

namespace Grant

/-- All that a permit allows, in tables that are in order. -/
def strict (π : Permit) : Grant :=
  { π with heirs := fun _ => True, ordered := True, firm := False }

/-- Any change that leaves the bases of all other types. -/
def basesOf (heirs : TypeId → Prop) : Grant :=
  ⟨⟨fun _ => True, fun _ => True, fun _ => True⟩, heirs, False, False⟩

/-- Any change, but no method is added or refused. -/
def noMethods : Grant :=
  ⟨⟨fun _ => False, fun _ => True, fun _ => True⟩, fun _ => True, False, False⟩

/-- `m` may be added to `owner`: its handles lead somewhere, and what stays unknown has been reported. -/
structure Admits (π : Grant) (c : Context) (owner : TypeId) (m : Method) : Prop where
  owner : π.owners owner
  arity : π.arity m.params.length
  bounded : m.Bounded c.types
  known : π.ordered → c.diagnostics = [] → m.Known

structure Owns (π : Grant) (t : TypeTable) (id : TypeId) (d : TypeDef) : Prop where
  owner : π.owners id
  heir : π.heirs id
  lt_size : id.index < t.size
  declares : π.ordered → t.Declares id d

theorem Owns.mono {t t' : TypeTable} (h : π.Owns t id d) (hkeeps : t.Keeps t') : π.Owns t' id d :=
  ⟨h.owner, h.heir, h.lt_size.trans_le hkeeps.size, fun ho => (h.declares ho).mono hkeeps⟩

end Grant

namespace Context

/-- One edit of a declaration. A method comes without a body and is no second one of its signature, unless it
is the constructor of a variant. -/
inductive Fill (π : Grant) (c : Context) : Context → Prop where
  | look {c' : Context} : c.Consults π.firm c' → Fill π c c'
  | refuse (d : Diagnostic) (n : Nat) : π.arity n → (π.firm → d.code ≠ some .invalidInheritance) →
      Fill π c (c.push d)
  | register (d : TypeDef) : π.names d.name → c.types.lookup d.name = none → d.Registrable →
      c.types.Arises d → d.Bounded c.types → Fill π c (c.withTypes { defs := c.types.defs ++ [d] })
  | addField (owner : TypeId) (f : Field) : π.owners owner → f.Bounded c.types →
      (π.ordered → c.diagnostics = [] → f.type.isSome = true) →
      Fill π c (c.withTypes (c.types.addField owner f).2)
  | addProperty (owner : TypeId) (p : Property) : π.owners owner → p.Bounded c.types →
      (π.ordered → c.diagnostics = [] → p.Known) → Fill π c (c.withTypes (c.types.addProperty owner p))
  | addMethod (owner : TypeId) (m : Method) : π.Admits c owner m → m.body = none →
      (∀ first ∈ (c.types.get owner).methods, first.sameSignature m = false) →
      Fill π c (c.withTypes (c.types.addMethod owner m).2)
  | construct (owner : TypeId) (m : Method) (t : TypeTable) (fields : List FieldRef) :
      π.Admits c owner m → t.Keeps c.types → m.isStatic = false →
      m.body = some (Lowering.variantBody t.objectCtor? fields) → fields.length ≤ m.params.length →
      (∀ f ∈ fields, c.types.HasField f) → Fill π c (c.withTypes (c.types.addMethod owner m).2)
  | revise (type : TypeId) (f : TypeDef → TypeDef) : π.owners type → π.heirs type →
      (∀ d, (f d).head = d.head ∧ (f d).members = d.members) →
      (∀ d, d.Bounded c.types → (f d).Bounded c.types) →
      (π.ordered → (c.types.get type).origin = .defined ∧
        c.types.MayInherit type (f (c.types.get type)).bases) → Fill π c (c.modifyType type f)
  | enter (m : MethodRef) : c.types.IsFunction m →
      Fill π c { c with assembly := { c.assembly with entryPoint := some m } }

/-- Some edits of declarations. -/
abbrev Fills (π : Grant) : Context → Context → Prop :=
  ReflTransGen (Fill π)

/-- Name of the delegate of a family for arguments of given names. -/
def delegateInstance (family : String) (args : List QualifiedName) : QualifiedName :=
  let name := delegateName family args.length
  name.withLast (name.last ++ "<" ++ ",".intercalate (args.map QualifiedName.text) ++ ">")

theorem instanceName_eq {t : TypeTable} {definition : TypeId} {family : String} {args : List TypeId}
    (h : (t.get definition).name = delegateName family args.length) :
    instanceName t definition args = delegateInstance family (args.map fun a => (t.get a).name) := by
  rw [instanceName, delegateInstance, h, length_map, map_map]
  rfl

end Context

def Permit.Delegates (π : Permit) : Prop :=
  ∀ family args, π.names (delegateInstance family args)

namespace Context
variable {c c' : Context} {firm : Prop}

theorem steps_of_addsInstances {π : Permit} (hπ : π.Delegates) (c : Context) {t : TypeTable}
    (h : c.types.AddsInstances t) : c.Steps π (c.withTypes t) := by
  induction h with
  | refl => exact .refl
  | tail _ hlast ih =>
    obtain ⟨definition, args, ⟨-, -, family, hname⟩, hlookup⟩ := hlast
    refine ih.tail (.register _ ?_ hlookup ⟨rfl, fun b hb => Or.inr ⟨definition, hb⟩⟩)
    rw [instanceOf, instanceName_eq hname]
    exact hπ _ _

/-- Types are looked up by steps. -/
theorem Consults.steps {π : Permit} (hπ : π.Delegates) (h : c.Consults firm c') : c.Steps π c' := by
  have hreports : ∀ (ds : List Diagnostic) (c : Context),
      c.Steps π { c with diagnostics := c.diagnostics ++ ds } := by
    intro ds
    induction ds with
    | nil =>
      intro c
      rw [append_nil]
    | cons d ds ih =>
      intro c
      have hrest := ih (c.push d)
      rw [Context.push, List.append_assoc] at hrest
      exact ReflTransGen.head (.report d) hrest
  obtain ⟨ds, hds⟩ := h.diagnostics
  have hall := (c.steps_of_addsInstances hπ h.types).trans (hreports ds _)
  have heq : c' = ⟨{ c.assembly with types := c'.types }, c.diagnostics ++ ds⟩ := by
    rw [← h.assembly, hds]
  rw [heq]
  exact hall

theorem Consults.grounded (h : c.Consults firm c') (hc : c.types.Grounded) : c'.types.Grounded :=
  Steps.grounded (h.steps (π := ⟨fun _ => True, fun _ => True, fun _ => True⟩) fun _ _ => trivial) hc

namespace Fill

variable (h : c.Fill π c')
include h

/-- Edits keep the table lawful. -/
theorem evolves : c.types.Evolves c'.types := by
  cases h with
  | look h => exact h.extends.evolves
  | refuse d | enter m => exact .refl
  | register d _ hname hd => exact .single (.register (.mk d hname hd))
  | addField owner f | addProperty owner p => exact .single (.revise owner _ fun _ => ⟨rfl, rfl⟩)
  | addMethod owner m _ hbody =>
    refine .single (.addMethod owner m fun _ g hg => ?_)
    rw [hbody] at hg
    cases hg
  | construct owner m t fields _ hkeeps hinstance hbody hlength =>
    refine .single (.addMethod owner m fun hobject g hg => ?_)
    rw [hbody] at hg
    cases hg
    exact (built_variantBody hinstance (fun _ => entry_of_objectCtor? hkeeps hobject) hlength).body
  | revise type f _ _ hf => exact .single (.revise type f fun d => ⟨(hf d).1, congrArg (·.2.1) (hf d).2⟩)

theorem diagnostics : c.diagnostics <+: c'.diagnostics := by
  cases h with
  | look h => exact h.diagnostics
  | refuse d => exact prefix_append _ _
  | _ => exact prefix_rfl

/-- Edits put no handle out of bounds. -/
theorem enlarges : c.Enlarges c' := by
  cases h with
  | look h => exact h.enlarges
  | refuse d => exact .push c d
  | register d _ _ _ _ hd => exact .register hd
  | addField owner f _ hf => exact .addField owner hf
  | addProperty owner p _ hp => exact .addProperty owner hp
  | addMethod owner m hm | construct owner m _ _ hm => exact .addMethod owner hm.bounded
  | revise type f _ _ hf hbounded => exact .modifyType type (fun d => (hf d).2) hbounded
  | enter m hm =>
    obtain ⟨-, entry, hentry, -⟩ := hm
    refine ⟨.refl _, fun hc => ⟨hc.types, fun m' hm' => ?_⟩⟩
    cases hm'
    exact hasMethod_iff.mpr ⟨entry, hentry⟩

/-- An edit looks types up, registers a type or changes one that the grant names. -/
theorem types_cases : c.types.AddsInstances c'.types ∨
    (∃ d : TypeDef, π.names d.name ∧ c.types.lookup d.name = none ∧ d.Registrable ∧
      c'.types = { defs := c.types.defs ++ [d] }) ∨
    ∃ (type : TypeId) (f : TypeDef → TypeDef), π.owners type ∧ c'.types = c.types.modify type f ∧
      (∀ d, (f d).head = d.head) ∧ (π.heirs type ∨ ∀ d, (f d).bases = d.bases) := by
  cases h with
  | look h => exact Or.inl h.types
  | refuse | enter => exact Or.inl .refl
  | register d hname hfree hd => exact Or.inr (Or.inl ⟨d, hname, hfree, hd, rfl⟩)
  | addField owner _ h | addProperty owner _ h =>
    exact Or.inr (Or.inr ⟨owner, _, h, rfl, fun _ => rfl, Or.inr fun _ => rfl⟩)
  | addMethod owner _ h | construct owner _ _ _ h =>
    exact Or.inr (Or.inr ⟨owner, _, h.owner, rfl, fun _ => rfl, Or.inr fun _ => rfl⟩)
  | revise type f h hheir hf => exact Or.inr (Or.inr ⟨type, f, h, rfl, fun d => (hf d).1, Or.inl hheir⟩)

theorem methods_cases : (∀ id, (c'.types.get id).methods = (c.types.get id).methods) ∨
    ∃ owner m, π.arity m.params.length ∧ c'.types = (c.types.addMethod owner m).2 ∧ (m.body = none ∨
      ∃ (t : TypeTable) (fields : List FieldRef), t.Keeps c.types ∧
        m.body = some (variantBody t.objectCtor? fields)) := by
  have hrevise : ∀ (type : TypeId) (f : TypeDef → TypeDef), (∀ d, (f d).methods = d.methods) →
      ∀ id, ((c.types.modify type f).get id).methods = (c.types.get id).methods := by
    intro type f hf id
    rcases c.types.methods_get_modify type f id with hsame | ⟨rfl, hnew⟩
    · exact hsame
    · exact hnew.trans (hf _)
  cases h with
  | look h => exact Or.inl h.extends.methods_get
  | refuse d | enter m => exact Or.inl fun _ => rfl
  | register d _ _ hd => exact Or.inl (c.types.methods_get_append hd.methods)
  | addField owner f | addProperty owner p => exact Or.inl (hrevise owner _ fun _ => rfl)
  | addMethod owner m hm hbody => exact Or.inr ⟨owner, m, hm.arity, rfl, Or.inl hbody⟩
  | construct owner m t fields hm hkeeps _ hbody =>
    exact Or.inr ⟨owner, m, hm.arity, rfl, Or.inr ⟨t, fields, hkeeps, hbody⟩⟩
  | revise type f _ _ hf => exact Or.inl (hrevise type f fun d => congrArg (·.2.1) (hf d).2)

theorem refusals (hfirm : π.firm) : c'.refusals = c.refusals := by
  cases h with
  | look h => exact h.refusals hfirm
  | refuse d _ _ hcode => exact c.filter_push (hcode hfirm)
  | _ => rfl

theorem step (ho : π.ordered) : c.Consults π.firm c' ∨ c.Step π.toPermit c' := by
  cases h with
  | look h => exact Or.inl h
  | refuse d => exact Or.inr (.report d)
  | register d hname hlookup _ hd => exact Or.inr (.register d hname hlookup hd)
  | addField owner f howner _ hknown => exact Or.inr (.addField owner f howner (hknown ho))
  | addProperty owner p howner _ hknown => exact Or.inr (.addProperty owner p howner (hknown ho))
  | addMethod owner m hm hbody =>
    refine Or.inr (.addMethod owner m hm.owner hm.arity (hm.known ho) fun g hg => ?_)
    rw [hbody] at hg
    cases hg
  | construct owner m t fields hm _ _ hbody _ hfields =>
    refine Or.inr (.addMethod owner m hm.owner hm.arity (hm.known ho) fun g hg => ?_)
    rw [hbody] at hg
    cases hg
    have hfinished := finished_variantBody π.arity t.objectCtor? hfields
    exact ⟨hfinished.1, fun _ => hfinished.2⟩
  | revise type f howner _ hf _ hinherit =>
    exact Or.inr (.revise type f howner hf (hinherit ho).1 (hinherit ho).2)
  | enter m hm => exact Or.inr (.enter m hm)

end Fill

namespace Fills

variable (h : c.Fills π c')
include h

theorem evolves : c.types.Evolves c'.types := by
  induction h with
  | refl => exact .refl
  | tail _ hlast ih => exact ih.trans hlast.evolves

theorem keeps : c.types.Keeps c'.types :=
  h.evolves.keeps

theorem silent (hsilent : c'.diagnostics = []) : c.diagnostics = [] := by
  induction h with
  | refl => exact hsilent
  | tail _ hlast ih => exact ih (prefix_nil.mp (hsilent ▸ hlast.diagnostics))

theorem refusals (hfirm : π.firm) : c'.refusals = c.refusals := by
  induction h with
  | refl => rfl
  | tail _ hlast ih => exact (hlast.refusals hfirm).trans ih

theorem enlarges : c.Enlarges c' := by
  induction h with
  | refl => exact .refl c
  | tail _ hlast ih => exact ih.trans hlast.enlarges

theorem grounded (ho : π.ordered) (hc : c.types.Grounded) : c'.types.Grounded := by
  induction h with
  | refl => exact hc
  | tail _ hlast ih => exact (hlast.step ho).elim (·.grounded ih) (·.grounded ih)

theorem steps (hπ : π.Delegates) (ho : π.ordered) : c.Steps π.toPermit c' := by
  induction h with
  | refl => exact .refl
  | tail _ hlast ih => exact ih.trans ((hlast.step ho).elim (·.steps hπ) .single)

end Fills

theorem Suits.mono {type : Option TypeId} (h : c.Suits type) (hfills : c.Fills π c') : c'.Suits type :=
  ⟨h.found.mono hfills.keeps.size, fun hsilent => h.known (hfills.silent hsilent)⟩

/-- Edits of declarations, none of which adds an integer out of the range of its kind. -/
structure Edits (π : Grant) (c c' : Context) : Prop where
  fills : c.Fills π c'
  fits : c.types.Fits → c'.types.Fits

namespace Edits
variable {c'' : Context}

theorem refl (c : Context) : c.Edits π c :=
  ⟨.refl, id⟩

theorem trans (h : c.Edits π c') (h' : c'.Edits π c'') : c.Edits π c'' :=
  ⟨h.fills.trans h'.fills, h'.fits ∘ h.fits⟩

theorem keeps (h : c.Edits π c') : c.types.Keeps c'.types :=
  h.fills.keeps

theorem silent (h : c.Edits π c') (hsilent : c'.diagnostics = []) : c.diagnostics = [] :=
  h.fills.silent hsilent

end Edits

theorem edits_of_consults (h : c.Consults π.firm c') : c.Edits π c' :=
  ⟨.single (.look h), fun hc => hc.addsInstances h.types⟩

theorem Consults.edits (h : c.Instantiates c') : c.Edits π c' :=
  edits_of_consults (h.mono fun _ => trivial)

theorem Consults.fills (h : c.Instantiates c') : c.Fills π c' :=
  h.edits.fills

end Context

/-! ## Runs over lists -/

theorem foldl_rel {σ α β : Type} {R : β → β → Prop} (hrefl : ∀ b, R b b)
    (htrans : ∀ {a b c}, R a b → R b c → R a c) (state : σ → β) {f : σ → α → σ} (as : List α) {s : σ}
    (hf : ∀ s', R (state s) (state s') → ∀ a ∈ as, R (state s') (state (f s' a))) :
    R (state s) (state (as.foldl f s)) := by
  induction as generalizing s with
  | nil => exact hrefl _
  | cons a as ih =>
    have hfirst := hf s (hrefl _) a mem_cons_self
    exact htrans hfirst (ih fun s' hs' b hb => hf s' (htrans hfirst hs') b (mem_cons_of_mem _ hb))

/-! ## Fields, methods and properties -/

namespace TypeTable
variable {name : QualifiedName} {t : TypeTable}

theorem hasAttributes_toList {f : TypeId → Attribute} (hf : ∀ type, (f type).type = type) :
    t.HasAttributes ((t.lookup name).map f).toList := by
  intro a ha
  obtain ⟨type, htype, rfl⟩ := Option.map_eq_some_iff.mp (Option.mem_toList.mp ha)
  rw [hf]
  exact t.covers_lookup name type htype

theorem lt_size_of_mem_lookup (h : id ∈ (t.lookup name).toList) : id.index < t.size :=
  t.covers_lookup name id (Option.mem_toList.mp h)

end TypeTable

namespace Lowering
variable {owner : TypeId} {l : Lowering}

theorem edits_addField (l : Lowering) (module : QualifiedName) (howner : π.owners owner) (d : FieldDecl) :
    l.context.Edits π (l.addField module owner d).context := by
  have htype := resolves_resolveTypeExpr module l.context d.type
  have hvalue := (resolveTypeExpr module l.context d.type).2.instantiates_optionalConstant d.value
    (resolveTypeExpr module l.context d.type).1 "A field initializer"
  obtain ⟨hattributes, hhas⟩ := instantiates_attributes
    ((resolveTypeExpr module l.context d.type).2.optionalConstant d.value
      (resolveTypeExpr module l.context d.type).1 "A field initializer").2 module d.annotations .fields
  have hsuits := (hvalue.trans hattributes).suits htype.toSuits
  unfold addField
  dsimp only
  refine (htype.instantiates.trans (hvalue.trans hattributes)).edits.trans
    ⟨.single (.addField owner _ howner ⟨hsuits.found, hhas⟩ fun _ => hsuits.known), (·.addField owner ?_)⟩
  simpa [Field.constants] using fits_optionalConstant _ d.value _ "A field initializer"

theorem admits_method (module : QualifiedName) (howner : π.owners owner)
    (hc : π.ordered → c.types.Grounded) (d : FnDecl) (harity : π.arity d.params.length) (name : String)
    (isStatic : Bool) : π.Admits (method module owner c d name isStatic).2 owner
      (method module owner c d name isStatic).1 := by
  obtain ⟨-, hcovers, hresult, -⟩ := resolves_returnType module c d.returnType
  obtain ⟨hparams, hlength, hsuits⟩ :=
    instantiates_parameters module (returnType module c d.returnType).2 d.params
  obtain ⟨hattributes, hhas⟩ := instantiates_attributes
    (traverse (parameter module) (returnType module c d.returnType).2 d.params).2 module d.annotations .methods
  have hparam := fun p hp => hattributes.suits (hsuits p hp)
  refine ⟨howner, hlength ▸ harity, ⟨hcovers.mono (hparams.trans hattributes).size,
    fun p hp => (hparam p hp).found, hhas.append ?_, nofun⟩, fun ho hsilent => ⟨Or.inl ?_,
    fun p hp => (hparam p hp).known hsilent⟩⟩
  · split
    · exact hasAttributes_toList fun _ => rfl
    · exact forall_mem_nil _
  · exact hresult ((hc ho).primitives .void) ((hparams.trans hattributes).silent hsilent)

theorem methodEntry_addMethod (t : TypeTable) (howner : owner.index < t.size) (m : Method) :
    (t.addMethod owner m).2.methodEntry (t.addMethod owner m).1 = .ok m := by
  refine Defect.entry_eq_ok_iff.mpr ?_
  change ((t.modify owner _).get owner).methods[(t.get owner).methods.length]? = some m
  rw [get_modify_self t owner _ howner]
  exact getElem?_concat_length

theorem edits_addMethod (hl : π.ordered → l.context.types.Grounded) (module : QualifiedName)
    (howner : π.owners owner) (d : FnDecl) (harity : π.arity d.params.length) (name : String)
    (isStatic : Bool) : l.context.Edits π (l.addMethod module owner d name isStatic).2.context ∧
      (owner.index < l.context.types.size → ∀ m, (l.addMethod module owner d name isStatic).1 = some m →
        m.type = owner ∧ ∃ c, (l.addMethod module owner d name isStatic).2.context.types.methodEntry m = .ok c ∧
          (isStatic = true → c.isStatic = true)) := by
  have hmethod := instantiates_method module owner l.context d name isStatic
  unfold addMethod
  dsimp only
  split
  · refine ⟨hmethod.edits.trans ⟨.single (.refuse _ _ harity nofun), id⟩, fun _ m hm => ?_⟩
    cases hm
  next hfirst =>
    refine ⟨hmethod.edits.trans ⟨.single (.addMethod owner _ (admits_method module howner hl d harity name isStatic) rfl
      fun first hmem => eq_false_of_ne_true (find?_eq_none.mp hfirst first hmem)),
      (·.addMethod owner (fits_method _ _ _ _ _ _))⟩, fun hlt m hm => ?_⟩
    cases hm
    refine ⟨rfl, _, methodEntry_addMethod _ (hlt.trans_le hmethod.size) _, fun hstatic => ?_⟩
    exact Bool.or_eq_true_iff.mpr (Or.inl hstatic)

theorem forall_accessors (d : PropertyDecl) {type void : Option TypeId} {P : Method → Prop}
    (hget : ∀ a, P (getter d type a)) (hset : ∀ a, P (setter d type void a)) :
    ∀ m ∈ (d.getter.map (getter d type)).toList ++ (d.setter.map (setter d type void)).toList, P m := by
  refine forall_mem_append.mpr ⟨fun m hmem => ?_, fun m hmem => ?_⟩
  · obtain ⟨a, -, rfl⟩ := Option.map_eq_some_iff.mp (Option.mem_toList.mp hmem)
    exact hget a
  · obtain ⟨a, -, rfl⟩ := Option.map_eq_some_iff.mp (Option.mem_toList.mp hmem)
    exact hset a

theorem edits_addProperty (hl : π.ordered → l.context.types.Grounded) (module : QualifiedName)
    (howner : π.owners owner) (d : PropertyDecl) : l.context.Edits π (l.addProperty module owner d).context := by
  have htype := resolves_resolveTypeExpr module l.context d.type
  have hvoid := (resolveTypeExpr module l.context d.type).2.types.covers_primitive? .void
  obtain ⟨hattributes, hhas⟩ := instantiates_attributes
    (resolveTypeExpr module l.context d.type).2 module d.annotations .properties
  have hsuits := hattributes.suits htype.toSuits
  unfold addProperty
  dsimp only
  refine (htype.instantiates.trans hattributes).edits.trans ⟨.single (.addProperty owner _ howner
    ⟨hsuits.found, forall_accessors d (fun _ => ⟨hsuits.found, forall_mem_nil _, forall_mem_nil _, nofun⟩)
      fun _ => ⟨hvoid.mono hattributes.size, forall_mem_singleton.mpr hsuits.found, forall_mem_nil _,
        nofun⟩, hhas⟩ fun ho hsilent => ?_), (·.addProperty owner ?_)⟩
  · have hknown := hsuits.known hsilent
    refine ⟨hknown, forall_accessors d (fun _ => ⟨Or.inl hknown, forall_mem_nil _⟩) fun _ =>
      ⟨Or.inl ?_, forall_mem_singleton.mpr hknown⟩⟩
    exact (htype.instantiates.grounded (hl ho)).primitives .void
  · cases d.getter <;> cases d.setter <;> simp [Property.constants, Method.constants, getter, setter]

end Lowering

/-- The number of parameters of a member that is a method. -/
def Member.arity? : Member → Option Nat
  | .method d => some d.params.length
  | _ => none

/-- The numbers of parameters of the methods that a declaration makes; a variant of a tagged union has a
constructor that takes its fields. -/
def Decl.arities : Decl → List Nat
  | .type d => d.members.filterMap Member.arity?
  | .taggedUnion d => d.variants.map (·.fields.length)
  | .fn d => [d.params.length]
  | _ => []

namespace Lowering
variable {t : TypeTable} {type b base : TypeId} {s : List TypeId × Context}
  {def_ : TypeDef} {l : Lowering} (module) {ds : List (Declaration × Declared)} {vs : List (Variant × Option TypeId)}
  {underlying void : Option TypeId} {owner : TypeId}

theorem edits_addMember (howner : π.owners owner) (l : Lowering) (hl : π.ordered → l.context.types.Grounded)
    (m : Member) (harity : ∀ n, m.arity? = some n → π.arity n) :
    l.context.Edits π (addMember module owner l m).context := by
  cases m with
  | field d => exact l.edits_addField module howner d
  | method d => exact (edits_addMethod hl module howner d (harity _ rfl) d.name false).1
  | property d => exact edits_addProperty hl module howner d
  | error span => exact (Consults.report _ (by decide) _ _ _).edits

theorem edits_addMembers (howner : π.owners owner) (l : Lowering) (hl : π.ordered → l.context.types.Grounded)
    {ms : List Member} (harity : ∀ n ∈ ms.filterMap Member.arity?, π.arity n) :
    l.context.Edits π (ms.foldl (addMember module owner) l).context :=
  foldl_rel .refl .trans context ms fun l' hl' m hm =>
    edits_addMember module howner l' (fun ho => hl'.fills.grounded ho (hl ho)) m fun n hn =>
      harity n (mem_filterMap.mpr ⟨m, hm, hn⟩)

theorem keeps_addMember (owner : TypeId) (l : Lowering) (m : Member) :
    l.context.types.Keeps (addMember module owner l m).context.types :=
  (edits_addMember (π := .basesOf fun _ => False) module trivial l nofun m fun _ _ => trivial).keeps

/-! ## Classes, structs and interfaces -/

theorem lt_size_initial (c : Context) (d : TypeDecl) : ∀ b ∈ initialBases c d, b.index < c.types.size := by
  intro b hb
  unfold initialBases at hb
  split at hb
  · exact lt_size_of_mem_lookup hb
  · cases hb

theorem lt_size_addBases (type : TypeId) (name : String) {bases : List TypeId}
    (hbases : ∀ b ∈ bases, b.index < c.types.size) (types : List TypeExpr) :
    ∀ b ∈ (types.foldl (addBase module type name) (bases, c)).1,
      b.index < (types.foldl (addBase module type name) (bases, c)).2.types.size := by
  obtain ⟨added, hall, -, hadded⟩ := exists_addBases module type name (bases, c) types
  have hsize := (consults_addBases module type name (bases, c) types).size
  rw [hall]
  refine forall_mem_append.mpr ⟨fun b hb => (hbases b hb).trans_le hsize, fun b hb => ?_⟩
  obtain ⟨e, -, c', -, hid, -, -, hextends⟩ := hadded b hb
  exact ((resolves_resolveTypeExpr module c' e).found b hid).trans_le hextends.evolves.keeps.size

theorem lt_size_bases (type : TypeId) (c : Context) (d : TypeDecl) :
    ∀ b ∈ (bases module type c d).1, b.index < (bases module type c d).2.types.size := by
  have hall := lt_size_addBases module type d.name (lt_size_initial c d) d.bases
  obtain ⟨front, heq, hfront⟩ := exists_bases_eq module type c d
  rw [heq]
  exact forall_mem_append.mpr ⟨fun b hb => covers_lookup _ _ b (hfront b (Option.mem_toList.mp hb)).1, hall⟩

theorem isRoot_of_mem_toList (name : String) (hname : name ∈ rootNames)
    (hb : b ∈ (t.system? name).toList) : t.IsRoot b :=
  ⟨name, hname, Option.mem_toList.mp hb⟩

/-- A type gets bases that it may get: those that it is put under are roots, and those that it lists have been
looked at. -/
theorem mayExtend_bases (hground : c.types.Grounded) (d : TypeDecl) (htype : c.types.Declares type def_)
    (hdefined : def_.origin = .defined) (hsealed : d.kind = .structType → def_.isSealed = true) :
    ∀ b ∈ (bases module type c d).1, (bases module type c d).2.types.MayExtend type b := by
  have hbases := consults_bases module type c d
  have hground' := hbases.grounded hground
  have htype' := htype.mono hbases.types.keeps
  obtain ⟨front, heq, hfront⟩ := exists_bases_eq module type c d
  obtain ⟨added, hall, -, hadded⟩ := exists_addBases module type d.name (initialBases c d, c) d.bases
  rw [heq] at hbases hground' htype' ⊢
  rw [hall]
  refine forall_mem_append.mpr ⟨fun b hb => ?_, forall_mem_append.mpr ⟨fun b hb => ?_, fun b hb => ?_⟩⟩
  · have hobject := (hfront b (Option.mem_toList.mp hb)).1
    exact hground'.mayExtend_of_isRoot (htype'.origin.trans hdefined) ⟨"Object", by decide, hobject⟩ (Or.inr hobject)
  · unfold initialBases at hb
    split at hb
    next hkind =>
      exact hground'.mayExtend_of_isRoot (htype'.origin.trans hdefined)
        ⟨"ValueType", by decide, hbases.types.keeps.lookup (Option.mem_toList.mp hb)⟩
        (Or.inl (htype'.isSealed.trans (hsealed hkind)))
    next => cases hb
  · obtain ⟨e, -, c', hc', hid, hunsealed, hchain, hextends⟩ := hadded b hb
    have hresolves := resolves_resolveTypeExpr module c' e
    have hlt := hresolves.found b hid
    refine ⟨hlt.trans_le hextends.evolves.keeps.size, (hextends.get_eq hlt).symm ▸ hunsealed, fun hback => ?_⟩
    have hclosed := ((hc'.trans (hresolves.instantiates.mono False.elim)).grounded hground).closed
    cases hchain.symm.trans ((derivesFrom_iff _ _ _).mpr (reflTransGen_of_extends hclosed hextends hlt hback))

/-- The state once a type has its bases, attributes and visibility, before members are added. -/
def headed (type : TypeId) (c : Context) (d : TypeDecl) : Context :=
  let (attributes, c') := (bases module type c d).2.attributes module d.annotations (attributeTarget d.kind)
  c'.modifyType type fun def_ =>
    { def_ with bases := (bases module type c d).1, attributes, visibility := Modifier.visibility d.modifiers }

theorem exists_types_headed (type : TypeId) (c : Context) (d : TypeDecl) :
    ∃ f, (headed module type c d).types = (bases module type c d).2.types.modify type f ∧
      ∀ d', (f d').head = d'.head ∧ (f d').members = d'.members ∧ (f d').bases = (bases module type c d).1 :=
  ⟨_, congrArg (modify · type _) (types_attributes _ _ _ _), fun _ => ⟨rfl, rfl, rfl⟩⟩

theorem edits_headed (hfirm : ¬ π.firm) (hc : π.ordered → c.types.Grounded) (d : TypeDecl)
    (htype : π.Owns c.types type { d.typeDef module with span := d.span }) : c.Edits π (headed module type c d) := by
  have hbases := consults_bases module type c d
  obtain ⟨hattributes, hhas⟩ := instantiates_attributes (bases module type c d).2 module d.annotations
    (attributeTarget d.kind)
  have hlt := lt_size_bases module type c d
  have hargs := args_attributes (bases module type c d).2 module d.annotations (attributeTarget d.kind)
  refine ((edits_of_consults (hbases.mono hfirm)).trans hattributes.edits).trans ⟨.single (.revise type _
    htype.owner htype.heir (fun _ => ⟨rfl, rfl⟩) (fun _ hd => { hd with
      bases := fun b hb => (hlt b hb).trans_le hattributes.size
      attributes := hhas }) fun ho => ⟨?_, ?_⟩), fun hc => hc.revise type _ (hargs.symm ▸ Constant.allFit_nil) _⟩
  · exact ((htype.declares ho).mono (hbases.types.keeps.trans hattributes.types.keeps)).origin
  · rw [types_attributes]
    have hmay := mayExtend_bases module (hc ho) d (htype.declares ho) rfl fun hkind => by
      simp [TypeDecl.typeDef, hkind]
    exact ⟨fun b hb => Or.inr (Or.inr ⟨(hmay b hb).lt_size, (hmay b hb).unsealed⟩),
      fun b hb => Or.inr (Or.inr (Or.inr (hmay b (mem_of_head? hb)).chain))⟩

theorem edits_fillType (hfirm : ¬ π.firm) (hl : π.ordered → l.context.types.Grounded) (d : TypeDecl)
    (harity : ∀ n ∈ d.members.filterMap Member.arity?, π.arity n)
    (htype : π.Owns l.context.types type { d.typeDef module with span := d.span }) :
    l.context.Edits π (l.fillType module type d).context := by
  have hc := edits_headed module hfirm hl d htype
  exact hc.trans (edits_addMembers module htype.owner (l.withContext _)
    (fun ho => hc.fills.grounded ho (hl ho)) harity)

theorem size_describe (c : Context) (type : TypeId) (bases : List TypeId) (attributes : List Attribute)
    (modifiers : List Modifier) : (describe c type bases attributes modifiers).types.size = c.types.size :=
  size_modify _ _ _

/-- A declared type is put under roots; the first of them is `System.Object`, or the type is sealed. -/
theorem edits_describe (htype : π.Owns c.types type def_) (hdefined : def_.origin = .defined)
    {bases : List TypeId} (hroots : ∀ b ∈ bases, c.types.IsRoot b)
    (hfirst : def_.isSealed = true ∨ ∀ b ∈ bases, c.types.system? "Object" = some b)
    {attributes : List Attribute} (hattributes : c.types.HasAttributes attributes)
    (hargs : Constant.AllFit (Attribute.argsOf attributes)) (modifiers : List Modifier) :
    c.Edits π (describe c type bases attributes modifiers) := by
  refine ⟨.single (.revise type _ htype.owner htype.heir (fun _ => ⟨rfl, rfl⟩) (fun d hd => { hd with
      bases := forall_mem_append.mpr ⟨hd.bases, fun b hb => ?_⟩, attributes := hattributes })
    fun ho => ⟨(htype.declares ho).origin.trans hdefined,
      forall_mem_append.mpr ⟨fun _ => Or.inl, fun b hb => Or.inr (Or.inl (hroots b hb))⟩, fun b hb => ?_⟩),
    fun hc => hc.revise type _ hargs _⟩
  · obtain ⟨name, -, hlookup⟩ := hroots b hb
    exact c.types.covers_lookup _ b hlookup
  · dsimp only at hb
    cases hold : (c.types.get type).bases with
    | cons old rest =>
      rw [hold] at hb
      cases hb
      exact Or.inl (congrArg head? hold)
    | nil =>
      rw [hold] at hb
      rcases hfirst with hsealed | hobject
      · exact Or.inr (Or.inl ((htype.declares ho).isSealed.trans hsealed))
      · exact Or.inr (Or.inr (Or.inl (hobject b (mem_of_head? hb))))

/-! ## Enumerations and unions of fields -/

/-- A member of an enumeration is a field with an integer, added once types have been looked up. -/
theorem exists_addEnumMember_eq (type : TypeId) (underlying : Option Primitive)
    (s : Int × Context) (m : EnumMember) : ∃ (c : Context) (v : Int) (primitive : Option Primitive),
      s.2.Instantiates c ∧ (addEnumMember module type underlying s m).2 = c.withTypes (c.types.addField type
        { name := m.name, type := some type, isStatic := true, isLiteral := true,
          value := some (.ofInt v primitive), span := m.span }).2 := by
  unfold addEnumMember
  dsimp only
  refine ⟨_, _, _, ?_, rfl⟩
  split
  · refine Consults.trans ?_ (resolves_resolveTypeExpr module _ _).instantiates
    split
    · exact .refl _
    · exact .report _ (by decide) _ _ _
    · exact .refl _
  · split
    · exact .refl _
    · exact .report _ (by decide) _ _ _
    · exact .refl _

theorem edits_addEnumMember (howner : π.owners type) (underlying : Option Primitive)
    {s : Int × Context} (hlt : type.index < s.2.types.size) (m : EnumMember) :
    s.2.Edits π (addEnumMember module type underlying s m).2 := by
  obtain ⟨c, v, primitive, hc, heq⟩ := exists_addEnumMember_eq module type underlying s m
  rw [heq]
  refine hc.edits.trans ⟨.single (.addField type _ howner ⟨fun id hid => ?_, forall_mem_nil _⟩ fun _ _ => rfl),
    (·.addField type (forall_mem_singleton.mpr (Constant.fits_ofInt v primitive)))⟩
  cases hid
  exact hlt.trans_le hc.size

theorem edits_addEnumMembers (howner : π.owners type) (underlying : Option Primitive)
    {s : Int × Context} (hlt : type.index < s.2.types.size) (ms : List EnumMember) :
    s.2.Edits π (ms.foldl (addEnumMember module type underlying) s).2 :=
  foldl_rel .refl .trans (fun s : Int × Context => s.2) ms fun _ hs' m _ =>
    edits_addEnumMember module howner underlying (hlt.trans_le hs'.keeps.size) m

/-- The underlying type of an enumeration, `i32` unless it says another. -/
def enumUnderlying (module : QualifiedName) (c : Context) : Option TypeExpr → Option TypeId × Context
  | some type => resolveTypeExpr module c type
  | none => (c.types.primitive? (.int .i32), c)

/-- What an enumeration fills in once its underlying type is known. -/
def fillEnumOver (c : Context) (module : QualifiedName) (type : TypeId) (d : EnumDecl)
    (underlying : Option TypeId) : Context :=
  let (attributes, c) := c.attributes module d.annotations .enums
  let c := describe c type (c.types.system? "Enum").toList attributes d.modifiers
  let c := (d.members.foldl
    (addEnumMember module type (c.types.primitiveOf? underlying)) (-1, c)).2
  c.withTypes (c.types.addField type
    { name := "value__"
      type := underlying
      visibility := .privateAccess
      isMutable := true
      attributes := c.specialName?.toList
      span := d.span }).2

theorem fillEnum_eq (c : Context) (type : TypeId) (d : EnumDecl) :
    fillEnum c module type d = fillEnumOver (enumUnderlying module c d.underlying).2 module type d
      (enumUnderlying module c d.underlying).1 := by
  unfold fillEnum fillEnumOver enumUnderlying
  cases d.underlying <;> rfl

theorem resolves_enumUnderlying (c : Context) (type : Option TypeExpr) :
    c.ResolvesOr (c.types.primitive? (.int .i32)) (enumUnderlying module c type) := by
  cases type with
  | none => exact .absent (c.types.covers_primitive? _)
  | some type => exact (resolves_resolveTypeExpr module c type).orDefault

theorem edits_enumFields (howner : π.owners type) (hlt : type.index < c.types.size) (d : EnumDecl)
    (hcovers : c.types.Covers underlying) (hknown : π.ordered → c.diagnostics = [] → underlying.isSome = true) :
    let c' := (d.members.foldl (addEnumMember module type (c.types.primitiveOf? underlying)) (-1, c)).2
    c.Edits π (c'.withTypes (c'.types.addField type
      { name := "value__", type := underlying, visibility := .privateAccess, isMutable := true
        attributes := c'.specialName?.toList, span := d.span }).2) := by
  have hmembers : c.Edits π _ := edits_addEnumMembers module howner (c.types.primitiveOf? underlying)
    (s := (-1, c)) hlt d.members
  exact hmembers.trans ⟨.single (.addField type _ howner
    ⟨hcovers.mono hmembers.keeps.size, hasAttributes_toList fun _ => rfl⟩
    fun ho hsilent => hknown ho (hmembers.silent hsilent)), (·.addField type (by simp [Field.constants]))⟩

theorem edits_fillEnumOver (d : EnumDecl) (hcovers : c.types.Covers underlying)
    (hknown : π.ordered → c.diagnostics = [] → underlying.isSome = true)
    (htype : π.Owns c.types type { valueTypeDef module d.name with span := d.span }) :
    c.Edits π (fillEnumOver c module type d underlying) := by
  obtain ⟨hattributes, hhas⟩ := c.instantiates_attributes module d.annotations .enums
  have hargs := c.args_attributes module d.annotations .enums
  unfold fillEnumOver
  dsimp only
  generalize c.attributes module d.annotations .enums = r at hattributes hhas hargs
  obtain ⟨attributes, c₁⟩ := r
  have hdescribe := edits_describe (htype.mono hattributes.types.keeps) rfl
    (fun b hb => isRoot_of_mem_toList "Enum" (by decide) hb) (Or.inl rfl) hhas
    (hargs ▸ Constant.allFit_nil) d.modifiers
  dsimp only at hattributes hdescribe ⊢
  generalize describe c₁ type (c₁.types.system? "Enum").toList attributes d.modifiers = c₂ at hdescribe
  have hbefore : c.Edits π c₂ := hattributes.edits.trans hdescribe
  exact hbefore.trans (edits_enumFields module htype.owner (htype.mono hbefore.keeps).lt_size d
    (hcovers.mono hbefore.keeps.size) fun ho hsilent => hknown ho (hbefore.silent hsilent))

theorem edits_fillEnum (hc : π.ordered → c.types.Grounded) (d : EnumDecl)
    (htype : π.Owns c.types type { valueTypeDef module d.name with span := d.span }) :
    c.Edits π (fillEnum c module type d) := by
  obtain ⟨hunderlying, hcovers, hknown, -⟩ := resolves_enumUnderlying module c d.underlying
  rw [fillEnum_eq]
  exact hunderlying.edits.trans (edits_fillEnumOver module d hcovers (fun ho => hknown ((hc ho).primitives _))
    (htype.mono hunderlying.types.keeps))

theorem edits_addUnionField (howner : π.owners type) (c : Context) (f : UnionField) :
    c.Edits π (addUnionField module type c f) := by
  have htype := resolves_resolveTypeExpr module c f.type
  obtain ⟨hattributes, hhas⟩ := instantiates_attributes (resolveTypeExpr module c f.type).2 module
    f.annotations .fields
  have hsuits := hattributes.suits htype.toSuits
  unfold addUnionField
  split
  · exact (Consults.report c (by decide) _ _ _).edits
  next offset hoffset =>
    have hholds : (Constant.i32 offset).Fits :=
      (IntKind.i32.contains_iff_holds offset).mpr (Option.filter_eq_some_iff.mp hoffset).2
    dsimp only
    refine (htype.instantiates.trans hattributes).edits.trans
      ⟨.single (.addField type _ howner ⟨hsuits.found, ?_⟩ fun _ => hsuits.known), (·.addField type ?_)⟩
    · exact ((hasAttributes_toList fun _ => rfl).mono hattributes.size).append hhas
    · simpa [Field.constants] using fits_argument hholds

theorem edits_addUnionFields (howner : π.owners type) (c : Context)
    (fs : List UnionField) : c.Edits π (fs.foldl (addUnionField module type) c) :=
  foldl_rel .refl .trans id fs fun c' _ f _ => edits_addUnionField module howner c' f

theorem edits_fillUnion (d : UnionDecl)
    (htype : π.Owns c.types type { valueTypeDef module d.name with span := d.span }) :
    c.Edits π (fillUnion c module type d) := by
  obtain ⟨hattributes, hhas⟩ := c.instantiates_attributes module d.annotations .structs
  have hlayout : c.types.HasAttributes ((c.types.lookup Platform.structLayoutName).map fun type =>
      ({ type, args := [.i32 Platform.layoutExplicit] } : Attribute)).toList :=
    hasAttributes_toList fun _ => rfl
  have hdescribe := edits_describe (htype.mono hattributes.types.keeps) rfl
    (fun b hb => isRoot_of_mem_toList "ValueType" (by decide) hb) (Or.inl rfl)
    ((hlayout.mono hattributes.size).append hhas)
    (by simpa using fits_argument (x := .i32 Platform.layoutExplicit) (by decide)) d.modifiers
  exact (hattributes.edits.trans hdescribe).trans (edits_addUnionFields module htype.owner _ d.fields)

/-! ## Tagged unions -/

theorem edits_addVariantField (howner : π.owners type) (hlt : type.index < c.types.size) (f : VariantField) :
    c.Edits π (addVariantField module type c f).2 ∧
      (addVariantField module type c f).2.types.HasField (addVariantField module type c f).1.1 ∧
      (addVariantField module type c f).2.Suits (addVariantField module type c f).1.2.type ∧
      (addVariantField module type c f).1.2.default = none := by
  have htype := resolves_resolveTypeExpr module c f.type
  have hadd : (resolveTypeExpr module c f.type).2.Fill π (addVariantField module type c f).2 :=
    .addField type _ howner ⟨htype.found, forall_mem_nil _⟩ fun _ => htype.known
  have hlt := hlt.trans_le htype.instantiates.size
  refine ⟨htype.instantiates.edits.trans ⟨.single hadd, (·.addField type Constant.allFit_nil)⟩,
    ⟨hlt.trans_le hadd.evolves.keeps.size, ?_⟩, htype.toSuits.mono (.single hadd), rfl⟩
  change _ < (((resolveTypeExpr module c f.type).2.types.modify type _).get type).fields.length
  rw [get_modify_self _ type _ hlt]
  change _ < length (_ ++ [_])
  rw [length_append]
  exact Nat.lt_succ_self _

theorem edits_addVariantFields (howner : π.owners type) (hlt : type.index < c.types.size) (fs : List VariantField) :
    c.Edits π (traverse (addVariantField module type) c fs).2 ∧
      (traverse (addVariantField module type) c fs).1.length = fs.length ∧
      ∀ f ∈ (traverse (addVariantField module type) c fs).1,
        (traverse (addVariantField module type) c fs).2.types.HasField f.1 ∧
        (traverse (addVariantField module type) c fs).2.Suits f.2.type ∧ f.2.default = none :=
  traverse_spec (P := fun (c : Context) (f : FieldRef × Parameter) => c.types.HasField f.1 ∧ c.Suits f.2.type ∧
      f.2.default = none)
    .refl .trans (fun _ _ _ hedits h => ⟨h.1.mono hedits.fills.enlarges.includes, h.2.1.mono hedits.fills, h.2.2⟩) fs
      fun _ hc' f _ => edits_addVariantField module howner (hlt.trans_le hc'.keeps.size) f

theorem edits_variantBase (hbase : base.index < c.types.size)
    (hopen : π.ordered → (c.types.get base).isSealed = false) (v : Variant)
    (htype : π.Owns c.types type { definedType module v.name with isSealed := true, span := v.span }) :
    c.Edits π (c.modifyType type fun d => { d with bases := d.bases ++ [base] }) := by
  refine ⟨.single (.revise type _ htype.owner htype.heir (fun _ => ⟨rfl, rfl⟩)
    (fun d hd => { hd with bases := forall_mem_concat hd.bases hbase })
    fun ho => ⟨(htype.declares ho).origin, ?_, fun _ _ => Or.inr (Or.inl (htype.declares ho).isSealed)⟩),
    (·.modify type fun _ hd => hd)⟩
  exact forall_mem_concat (fun _ => Or.inl) (Or.inr (Or.inr ⟨hbase, hopen ho⟩))

theorem edits_fillVariant (hkeeps : t.Keeps c.types) (hvoid : c.types.Covers void) (hbase : base.index < c.types.size)
    (hopen : π.ordered → (c.types.get base).isSealed = false) {v : Variant × Option TypeId}
    (harity : π.arity v.1.fields.length) (htype : ∀ id, v.2 = some id →
      π.Owns c.types id { definedType module v.1.name with isSealed := true, span := v.1.span }) :
    c.Edits π (fillVariant module base t.objectCtor? void c v) := by
  obtain ⟨v, type⟩ := v
  cases type with
  | none => exact .refl c
  | some type =>
    have htype := htype type rfl
    have hrevise := edits_variantBase module hbase hopen v htype
    obtain ⟨hfields, hlength, hall⟩ := edits_addVariantFields module htype.owner
      (htype.mono hrevise.keeps).lt_size v.fields
    have hbefore : c.Edits π _ := hrevise.trans hfields
    have hparams := fun p (hp : p ∈ map Prod.snd _) =>
      (mem_map.mp hp).elim fun f hf => hf.2 ▸ (hall f hf.1).2.1
    have hexist := fun f (hf : f ∈ map Prod.fst _) =>
      (mem_map.mp hf).elim fun f' hf' => hf'.2 ▸ (hall f' hf'.1).1
    refine hbefore.trans ⟨.single (.construct type _ t _ ⟨htype.owner, ?_, ⟨hvoid.mono hbefore.keeps.size,
      fun p hp => (hparams p hp).found, forall_mem_nil _, fun g hg => ?_⟩,
      fun _ hsilent => ⟨Or.inr rfl, fun p hp => (hparams p hp).known hsilent⟩⟩
      (hkeeps.trans hbefore.keeps) rfl rfl ?_ hexist), (·.addMethod type ?_)⟩
    · change π.arity (length (map _ _))
      rw [length_map, hlength]
      exact harity
    · cases hg
      refine (draft_variantBody (fun m hm => ?_) hexist).bounded
      obtain ⟨object, -, hfound⟩ := Option.bind_eq_some_iff.mp ((hkeeps.trans hbefore.keeps).objectCtor? hm)
      exact hasMethod_of_findMethod? hfound
    · exact Nat.le_of_eq (by rw [length_map, length_map])
    · have hdefaults : (map Prod.snd _).filterMap Parameter.default = [] :=
        filterMap_eq_nil_iff.mpr fun p hp => (mem_map.mp hp).elim fun f hf => hf.2 ▸ (hall f hf.1).2.2
      simp [Method.constants, hdefaults, constants_variantBody]

theorem keeps_addVariantFields (id : TypeId) (c : Context) (fields : List VariantField) :
    c.types.Keeps (traverse (addVariantField module id) c fields).2.types :=
  (traverse_spec (R := fun c c' => c.types.Keeps c'.types) (P := fun _ _ => True) (fun _ => .refl _) .trans
    (fun _ _ _ _ h => h) fields fun c' _ f _ => ⟨(resolves_resolveTypeExpr module c'
      f.type).instantiates.types.keeps.trans (keeps_addField _ id _), trivial⟩).1

theorem keeps_fillVariant (base : TypeId) (objectCtor : Option MethodRef)
    (void : Option TypeId) (c : Context) (v : Variant × Option TypeId) :
    c.types.Keeps (fillVariant module base objectCtor void c v).types := by
  obtain ⟨v, id⟩ := v
  cases id with
  | none => exact .refl _
  | some id =>
    have hrevise := c.types.keeps_modify id (f := fun d => { d with bases := d.bases ++ [base] })
      (fun _ => rfl) fun _ => prefix_rfl
    have hfields := keeps_addVariantFields module id
      (c.modifyType id fun d => { d with bases := d.bases ++ [base] }) v.fields
    exact (hrevise.trans hfields).trans (keeps_addMethod _ _ _)

theorem edits_fillVariants (hkeeps : t.Keeps c.types) (hvoid : c.types.Covers void)
    (hbase : base.index < c.types.size) (hopen : π.ordered → (c.types.get base).isSealed = false)
    (harity : ∀ v ∈ vs, π.arity v.1.fields.length) (hvs : ∀ v ∈ vs, ∀ id, v.2 = some id →
      π.Owns c.types id { definedType module v.1.name with isSealed := true, span := v.1.span }) :
    c.Edits π (vs.foldl (fillVariant module base t.objectCtor? void) c) := by
  refine foldl_rel .refl .trans id vs fun c' hc' v hv => ?_
  have hlater := hc'.keeps
  refine edits_fillVariant module (hkeeps.trans hlater) (hvoid.mono hlater.size)
    (hbase.trans_le hlater.size) (fun ho => ?_) (harity v hv) fun id hid => (hvs v hv id hid).mono hlater
  rw [hlater.isSealed hbase]
  exact hopen ho

theorem edits_unionBase (d : TaggedUnionDecl)
    (hbase : π.Owns c.types base { definedType module d.name with isAbstract := true, span := d.span }) :
    c.Edits π (describe (c.attributes module d.annotations .classes).2 base (c.types.system? "Object").toList
      (c.attributes module d.annotations .classes).1 d.modifiers) := by
  obtain ⟨hattributes, hhas⟩ := c.instantiates_attributes module d.annotations .classes
  have hobject : ∀ b ∈ (c.types.system? "Object").toList,
      (c.attributes module d.annotations .classes).2.types.system? "Object" = some b := by
    intro b hb
    rw [types_attributes]
    exact Option.mem_toList.mp hb
  exact hattributes.edits.trans (edits_describe (hbase.mono hattributes.types.keeps) rfl
    (fun b hb => ⟨"Object", by decide, hobject b hb⟩) (Or.inr hobject) hhas (by simp) d.modifiers)

/-- Some of the variants of a union are filled in, after its base. -/
theorem edits_variants (d : TaggedUnionDecl)
    (hbase : π.Owns c.types base { definedType module d.name with isAbstract := true, span := d.span })
    (harity : ∀ v ∈ vs, π.arity v.1.fields.length) (hvs : ∀ v ∈ vs, ∀ id, v.2 = some id →
      π.Owns c.types id { definedType module v.1.name with isSealed := true, span := v.1.span }) :
    c.Edits π (vs.foldl (fillVariant module base c.types.objectCtor? (c.types.primitive? .void))
      (describe (c.attributes module d.annotations .classes).2 base (c.types.system? "Object").toList
        (c.attributes module d.annotations .classes).1 d.modifiers)) := by
  have hbefore : c.Edits π _ := edits_unionBase module d hbase
  have hbase' := hbase.mono hbefore.keeps
  exact hbefore.trans (edits_fillVariants module hbefore.keeps
    ((c.types.covers_primitive? .void).mono hbefore.keeps.size) hbase'.lt_size
    (fun ho => (hbase'.declares ho).isSealed) harity fun v hv id hid => (hvs v hv id hid).mono hbefore.keeps)

theorem edits_fillTaggedUnion {variants : List (Option TypeId)} (d : TaggedUnionDecl)
    (harity : ∀ n ∈ d.variants.map (·.fields.length), π.arity n)
    (hbase : π.Owns c.types base { definedType module d.name with isAbstract := true, span := d.span })
    (hvariants : Forall₂ (fun (v : Variant) type => ∀ id, type = some id →
      π.Owns c.types id { definedType module v.name with isSealed := true, span := v.span })
      d.variants variants) : c.Edits π (fillTaggedUnion c module base variants d) :=
  edits_variants module d hbase (fun _ hv => harity _ (mem_map_of_mem (of_mem_zip hv).1))
    fun _ hv => (forall₂_iff_zip.mp hvariants).2 hv

/-! ## Functions -/

theorem lookup_intern (t : TypeTable) (d : TypeDef) : (t.intern d).2.lookup d.name = some (t.intern d).1 := by
  unfold TypeTable.intern TypeTable.insert
  cases hlookup : t.lookup d.name with
  | some existing => exact hlookup
  | none =>
    dsimp only
    rw [TypeTable.lookup, Option.map_eq_none_iff] at hlookup
    rw [TypeTable.lookup, List.findIdx?_append, hlookup]
    simp [size]

theorem lookup_programType (c : Context) : (programType c).2.types.lookup programName = some (programType c).1 :=
  lookup_intern _ _

theorem registrable_program (bases : Option TypeId) : TypeDef.Registrable
    { name := programName, origin := .defined, bases := bases.toList
      isStatic := true, isSealed := true, isAbstract := true } := by
  refine ⟨rfl, fun _ => Option.length_toList_le, fun _ => ?_, nofun⟩
  exact show programName ≠ .global by decide

theorem extends_programType (c : Context) : c.types.Extends (programType c).2.types := by
  unfold programType TypeTable.intern TypeTable.insert
  dsimp only
  cases hname : c.types.lookup programName with
  | some existing => exact .refl
  | none => exact .single (.mk _ hname (registrable_program _))

theorem edits_programType (hname : π.names programName) (c : Context) : c.Edits π (programType c).2 := by
  unfold programType TypeTable.intern TypeTable.insert
  dsimp only
  cases hlookup : c.types.lookup programName with
  | some existing => exact .refl c
  | none =>
    refine ⟨.single (.register _ hname hlookup (registrable_program _)
      ⟨rfl, fun _ hb => Or.inl (isRoot_of_mem_toList "Object" (by decide) hb)⟩
      ⟨fun b hb => lt_size_of_mem_lookup hb, nofun, ?_, ?_, ?_, ?_, ?_⟩), (·.append rfl)⟩
    all_goals exact forall_mem_nil _

theorem addFunction_eq_addMethod (l : Lowering) (d : FnDecl) :
    let l' := ((l.withContext (programType l.context).2).addMethod module (programType l.context).1 d
      (if d.name = "main" then entryName else d.name) true).2
    ∃ entry, l.addFunction module d = l'.withContext
      { l'.context with assembly := { l'.context.assembly with entryPoint := entry } } := by
  unfold addFunction
  dsimp only
  generalize (if d.name = "main" then entryName else d.name) = name
  generalize (l.withContext (programType l.context).2).addMethod module (programType l.context).1 d name true = r
  obtain ⟨method, l'⟩ := r
  cases method with
  | none => exact ⟨_, rfl⟩
  | some method =>
    dsimp only
    split <;> exact ⟨_, rfl⟩

theorem edits_addFunction (hname : π.names programName) (hl : π.ordered → l.context.types.Grounded)
    (d : FnDecl) (harity : π.arity d.params.length)
    (howner : ∀ id, (programType l.context).2.types.lookup programName = some id → π.owners id) :
    l.context.Edits π (l.addFunction module d).context := by
  have hprogram : l.context.Edits π _ := edits_programType hname l.context
  have hlookup := lookup_programType l.context
  obtain ⟨hlt, hnamed⟩ := lookup_spec hlookup
  unfold addFunction
  dsimp only
  generalize (if d.name = "main" then entryName else d.name) = name
  obtain ⟨hmethod, hentry⟩ := edits_addMethod (l := l.withContext (programType l.context).2)
    (fun ho => hprogram.fills.grounded ho (hl ho)) module (howner _ hlookup) d harity name true
  split
  next hadded =>
    rw [hadded] at hmethod
    exact hprogram.trans hmethod
  next method l' hadded =>
    rw [hadded] at hmethod hentry
    split
    · obtain ⟨htype, c, hc, hstatic⟩ := hentry hlt method rfl
      refine (hprogram.trans hmethod).trans ⟨.single (.enter method ⟨?_, c, hc, hstatic rfl⟩), id⟩
      rw [htype, hmethod.keeps.name hlt]
      exact hnamed
    · exact hprogram.trans hmethod

/-! ## Declarations -/

theorem edits_fill (d : Decl) (hfirm : ∀ d', d = .type d' → ¬ π.firm) (hl : π.ordered → l.context.types.Grounded)
    (declared : Declared) (harity : ∀ n ∈ d.arities, π.arity n) (hprogram : ∀ f, d = .fn f → π.names programName ∧
      ∀ id, (programType l.context).2.types.lookup programName = some id → π.owners id)
    (hdeclared : d.Registered (π.Owns l.context.types) module declared) :
    l.context.Edits π (fill module l (d, declared)).context := by
  unfold fill
  split
  next d id heq =>
    cases heq
    exact edits_fillType module (hfirm d rfl) hl d harity hdeclared
  next d id heq =>
    cases heq
    exact edits_fillEnum module hl d hdeclared
  next d base variants heq =>
    cases heq
    exact edits_fillTaggedUnion module d harity hdeclared.1 hdeclared.2
  next d id heq =>
    cases heq
    exact edits_fillUnion module d hdeclared
  next f _ heq =>
    cases heq
    obtain ⟨hname, howner⟩ := hprogram f rfl
    exact edits_addFunction module hname hl f (harity _ mem_cons_self) howner
  next => exact .refl _

theorem edits_registered (heirs : TypeId → Prop) (l : Lowering) {d : Decl}
    (hdeclared : d.Registered (fun id _ => heirs id ∧ id.index < l.context.types.size) module declared) :
    l.context.Edits (.basesOf heirs) (fill module l (d, declared)).context :=
  edits_fill (π := .basesOf heirs) module d nofun nofun declared (fun _ _ => trivial)
    (fun _ _ => ⟨trivial, fun _ _ => trivial⟩) (hdeclared.imp fun _ _ h => ⟨trivial, h.1, h.2, nofun⟩)

theorem keeps_fill (l : Lowering) {d : Decl}
    (hdeclared : d.Registered (fun id _ => id.index < l.context.types.size) module declared) :
    l.context.types.Keeps (fill module l (d, declared)).context.types :=
  (edits_registered module (fun _ => True) l (hdeclared.imp fun _ _ h => ⟨trivial, h⟩)).keeps

/-- Declarations fill in what they registered, one after the other. -/
theorem edits_fillAll (hfirm : ¬ π.firm) (hname : π.names programName)
    (howner : ∀ t, l.context.types.Keeps t → ∀ id, t.lookup programName = some id → π.owners id)
    (hl : π.ordered → l.context.types.Grounded) (harity : ∀ d ∈ ds, ∀ n ∈ d.1.decl.arities, π.arity n)
    (hds : ∀ d ∈ ds, d.1.decl.Registered (π.Owns l.context.types) d.1.module d.2) :
    l.context.Edits π (l.fillAll ds).context := by
  refine foldl_rel .refl .trans context ds fun l' hl' d hd => ?_
  have hall := hl'.fills
  exact edits_fill d.1.module d.1.decl (fun _ _ => hfirm) (fun ho => hall.grounded ho (hl ho)) d.2 (harity d hd)
    (fun _ _ => ⟨hname, howner _ (hall.keeps.trans (extends_programType _).evolves.keeps)⟩)
    ((hds d hd).imp fun _ _ howns => howns.mono hall.keeps)

theorem edits_registeredAll (l : Lowering)
    (hds : ∀ d ∈ ds, d.1.decl.Registered (fun id _ => id.index < l.context.types.size) d.1.module d.2) :
    l.context.Edits (.basesOf fun _ => True) (l.fillAll ds).context :=
  edits_fillAll (π := .basesOf fun _ => True) nofun trivial (fun _ _ _ _ => trivial) nofun (fun _ _ _ _ => trivial)
    fun d hd => (hds d hd).imp fun _ _ hid => ⟨trivial, trivial, hid, nofun⟩

theorem steps_fillAll {π : Permit} (hπ : π.Delegates) (hname : π.names programName)
    (howner : ∀ t, l.context.types.Keeps t → ∀ id, t.lookup programName = some id → π.owners id)
    (hl : l.context.types.Grounded) (harity : ∀ d ∈ ds, ∀ n ∈ d.1.decl.arities, π.arity n)
    (hds : ∀ d ∈ ds, d.1.decl.Registered (fun id d => π.owners id ∧ l.context.types.Declares id d) d.1.module d.2) :
    l.context.Steps π (l.fillAll ds).context :=
  (edits_fillAll (π := .strict π) not_false hname howner (fun _ => hl) harity fun d hd =>
    (hds d hd).imp fun _ _ h => ⟨h.1, trivial, h.2.lt_size, fun _ => h.2⟩).fills.steps hπ trivial

end Lowering

/-! ## All declarations -/

/-- Methods with certain numbers of parameters, and no other bound. -/
def Permit.upTo (arity : Nat → Prop) : Permit :=
  ⟨arity, fun _ => True, fun _ => True⟩

namespace Context

theorem brings_declareAll (c : Context) (ds : List Declaration) :
    c.types.Brings (c.declareAll ds).2.types ((c.declareAll ds).1.flatMap Declared.ids) :=
  (c.declaring_declareAll (π := .upTo fun _ => True) ds fun _ _ => trivial).1.toBrings

theorem registered_declareAll (c : Context) (ds : List Declaration) : ∀ d ∈ ds.zip (c.declareAll ds).1,
    d.1.decl.Registered (c.declareAll ds).2.types.Holds d.1.module d.2 :=
  (c.declaring_declareAll (π := .upTo fun _ => True) ds fun _ _ => trivial).2

/-- Trees register their types, and then all is filled in. -/
theorem exists_fills (c : Context) (trees : List Tree) : ∃ c' : Context, c.types.Extends c'.types ∧
    c'.Fills (.basesOf fun _ => True) (c.lowerDeclarations trees).context := by
  rw [lowerDeclarations_eq]
  have hedits := edits_registeredAll { context := (c.declareAll (Tree.declarations trees)).2 } fun d hd =>
    (c.registered_declareAll _ d hd).imp fun _ _ hholds => hholds.1
  exact ⟨_, (c.brings_declareAll _).types, hedits.fills⟩

theorem evolves_lowerDeclarations (c : Context) (trees : List Tree) :
    c.types.Evolves (c.lowerDeclarations trees).context.types := by
  obtain ⟨c', hextends, hfills⟩ := c.exists_fills trees
  exact hextends.evolves.trans hfills.evolves

/-- All declarations of all trees are lowered by steps. -/
theorem steps_lowerDeclarations {arity : Nat → Prop} (hc : c.types.Grounded)
    (harity : ∀ t ∈ trees, ∀ d ∈ t.body, ∀ n ∈ d.arities, arity n) :
    c.Steps (.upTo arity) (c.lowerDeclarations trees).context := by
  obtain ⟨hdeclaring, hregistered⟩ := c.declaring_declareAll (π := .upTo arity) (Tree.declarations trees)
    fun _ _ => trivial
  rw [lowerDeclarations_eq]
  refine hdeclaring.steps.trans (steps_fillAll (π := .upTo arity) (l := { context := _ })
    (fun _ _ => trivial) trivial (fun _ _ _ _ => trivial) (hdeclaring.steps.grounded hc) (fun d hd => ?_) fun d hd =>
      (hregistered d hd).imp fun _ _ hholds => ⟨trivial, hholds.declares⟩)
  obtain ⟨t, ht, -, hmem⟩ := Tree.mem_declarations.mp (of_mem_zip hd).1
  exact harity t ht d.1.decl hmem

end Context

end TreeCompiler
