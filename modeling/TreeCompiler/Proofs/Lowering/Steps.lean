import TreeCompiler.Lowering.Members
import TreeCompiler.Proofs.FlowGraph.SingleAssignment
import TreeCompiler.Proofs.TypeTable.Inheritance

/-!
# Steps of lowering

Whatever lowering does to its state is one of eight steps: it records a diagnostic, registers a type, adds
a field, a property or a method, gives a type its bases, names the entry point, or gives a method its body.

* `Context.Step π c c'` : one step from `c` to `c'`, with all that lowering checks before it takes it; the
  permit `π` bounds what may be registered and changed;
* `Step.grounded` : bases stay in the table and make no circles (`Grounded`).
-/

namespace TreeCompiler

open TypeTable List
open Relation (ReflTransGen)

/-! ## Known types -/

/-- The signature of a method can be written; a constructor may be without a return type. -/
structure Method.Known (m : Method) : Prop where
  result : m.returnType.isSome = true ∨ m.isConstructor = true
  params : ∀ p ∈ m.params, p.type.isSome = true

structure Property.Known (p : Property) : Prop where
  type : p.type.isSome = true
  accessors : ∀ m ∈ p.getter.toList ++ p.setter.toList, m.Known

def TypeDef.members (d : TypeDef) : List Field × List Method × List Property :=
  (d.fields, d.methods, d.properties)

namespace TypeTable

/-- A type may be registered: it has no members, and its bases are roots or those of a type that is
there. -/
structure Arises (t : TypeTable) (d : TypeDef) : Prop where
  members : d.members = ([], [], [])
  bases : ∀ b ∈ d.bases, t.IsRoot b ∨ ∃ id, b ∈ (t.get id).bases

theorem Arises.methods {t : TypeTable} {d : TypeDef} (h : t.Arises d) : d.methods = [] :=
  congrArg (·.2.1) h.members

/-- `m` is a static method of the type that holds the functions. -/
def IsFunction (t : TypeTable) (m : MethodRef) : Prop :=
  (t.get m.type).name = Lowering.programName ∧ ∃ c, t.methodEntry m = .ok c ∧ c.isStatic = true

theorem IsFunction.mono {t t' : TypeTable} {m : MethodRef} (h : t.IsFunction m) (hkeeps : t.Keeps t') :
    t'.IsFunction m := by
  obtain ⟨hname, c, hc, hstatic⟩ := h
  obtain ⟨c', hc', hheader⟩ := hkeeps.methodEntry hc
  exact ⟨(hkeeps.name (lt_size_of_methodEntry hc)).trans hname, c', hc',
    (Method.isStatic_of_header hheader).trans hstatic⟩

/-- The platform is there, and all bases are in order. -/
structure Grounded (t : TypeTable) : Prop extends t.Rooted where
  primitives : ∀ p, (t.primitive? p).isSome = true

end TypeTable

/-! ## Steps -/

structure Permit where
  /-- Numbers of parameters that a method may have. -/
  arity : Nat → Prop
  /-- Names under which types may be registered. -/
  names : QualifiedName → Prop
  /-- Types that may be changed. -/
  owners : TypeId → Prop

namespace Context

/-- One step of lowering. What stays unknown in a member has been reported. -/
inductive Step (π : Permit) (c : Context) : Context → Prop where
  | report (d : Diagnostic) : Step π c (c.push d)
  | register (d : TypeDef) : π.names d.name → c.types.lookup d.name = none → c.types.Arises d →
      Step π c (c.withTypes { defs := c.types.defs ++ [d] })
  | addField (owner : TypeId) (f : Field) : π.owners owner →
      (c.diagnostics = [] → f.type.isSome = true) →
      Step π c (c.withTypes (c.types.addField owner f).2)
  | addProperty (owner : TypeId) (p : Property) : π.owners owner →
      (c.diagnostics = [] → p.Known) → Step π c (c.withTypes (c.types.addProperty owner p))
  | addMethod (owner : TypeId) (m : Method) : π.owners owner → π.arity m.params.length →
      (c.diagnostics = [] → m.Known) →
      (∀ g, m.body = some g → g.Finished ∧ (c.diagnostics = [] → g.Typed π.arity c.types)) →
      Step π c (c.withTypes (c.types.addMethod owner m).2)
  | revise (type : TypeId) (f : TypeDef → TypeDef) : π.owners type →
      (∀ d, (f d).head = d.head ∧ (f d).members = d.members) →
      (c.types.get type).origin = .defined →
      c.types.MayInherit type (f (c.types.get type)).bases → Step π c (c.modifyType type f)
  | enter (m : MethodRef) : c.types.IsFunction m →
      Step π c { c with assembly := { c.assembly with entryPoint := some m } }
  | setBody (m : MethodRef) (g : FlowGraph) : π.owners m.type → g.Finished →
      (c.diagnostics = [] → g.Typed π.arity c.types) → Step π c (c.withTypes (c.types.setBody m g))

/-- Some steps of lowering. -/
abbrev Steps (π : Permit) : Context → Context → Prop :=
  ReflTransGen (Step π)

/-! ## What steps keep -/

namespace Step
variable {π : Permit} {c c' : Context}

/-- Types stay where they are, and so do methods. -/
theorem keeps (h : c.Step π c') : c.types.Keeps c'.types := by
  cases h with
  | report d | enter m => exact .refl _
  | register d _ _ hd => exact c.types.keeps_append hd.methods
  | addField owner f => exact keeps_addField _ owner f
  | addProperty owner p => exact keeps_addProperty _ owner p
  | addMethod owner m => exact keeps_addMethod _ owner m
  | revise type f _ hf =>
    refine keeps_modify _ type (fun d => (hf d).1) fun d => ?_
    have hmethods : (f d).methods = d.methods := congrArg (·.2.1) (hf d).2
    exact hmethods.symm ▸ prefix_rfl
  | setBody m g => exact keeps_setBody _ m g

/-- Diagnostics are never taken back. -/
theorem diagnostics (h : c.Step π c') : c.diagnostics <+: c'.diagnostics := by
  cases h with
  | report d => exact prefix_append _ _
  | _ => exact prefix_rfl

end Step

end Context

namespace TypeTable

variable (t : TypeTable) (type : TypeId)

theorem get_modify_cases (f : TypeDef → TypeDef) (id : TypeId) : (t.modify type f).get id = t.get id ∨
      id = type ∧ type.index < t.size ∧ (t.modify type f).get id = f (t.get id) := by
  by_cases hid : id = type
  · subst hid
    rcases Nat.lt_or_ge id.index t.size with hlt | hle
    · exact Or.inr ⟨rfl, hlt, get_modify_self t id f hlt⟩
    · left
      have hsame : t.defs.modify id.index f = t.defs := modify_eq_self hle
      rw [modify, hsame]
  · exact Or.inl (get_modify_of_ne t type f id hid)

theorem keepsFields_modify {f : TypeDef → TypeDef} (hf : ∀ d, d.fields <+: (f d).fields) :
    t.KeepsFields (t.modify type f) := by
  intro id
  rcases t.get_modify_cases type f id with hsame | ⟨-, -, hnew⟩
  · exact hsame.symm ▸ prefix_rfl
  · rw [hnew]
    exact hf _

theorem keepsFields_append (d : TypeDef) : t.KeepsFields { defs := t.defs ++ [d] } := by
  intro id
  rcases Nat.lt_or_ge id.index t.size with hlt | hle
  · rw [get_append_of_lt t d hlt]
  · rw [get_of_le t hle]
    exact nil_prefix

theorem members_get_append {d : TypeDef} (hd : d.members = ([], [], [])) (id : TypeId) :
    (get { defs := t.defs ++ [d] } id).members = (t.get id).members := by
  rcases t.get_append_cases d id with ⟨-, hold⟩ | ⟨heq, hnew⟩ | ⟨hgt, hnone⟩
  · rw [hold]
  · rw [hnew, get_of_le t heq.symm.le, hd]
    rfl
  · rw [hnone, get_of_le t hgt.le]

theorem KeepsFields.trans {t t' t'' : TypeTable} (h : t.KeepsFields t') (h' : t'.KeepsFields t'') :
    t.KeepsFields t'' :=
  fun id => (h id).trans (h' id)

theorem lookup_eq_none_iff (name : QualifiedName) :
    t.lookup name = none ↔ ∀ id : TypeId, id.index < t.size → (t.get id).name ≠ name := by
  rw [lookup, Option.map_eq_none_iff, findIdx?_eq_none_iff]
  constructor
  · intro h id hid hname
    have hne := h _ (t.get_mem_defs hid)
    rw [hname, beq_self_eq_true] at hne
    cases hne
  · intro h d hd
    obtain ⟨i, hi, rfl⟩ := mem_iff_getElem.mp hd
    rw [← get_mk_of_lt t hi]
    exact beq_eq_false_iff_ne.mpr (h ⟨i⟩ hi)

/-- Names come in with new types only. -/
theorem Keeps.lookup_eq_none {t t' : TypeTable} (h : t.Keeps t') (hsize : t'.size = t.size)
    {name : QualifiedName} (hname : t.lookup name = none) : t'.lookup name = none := by
  rw [lookup_eq_none_iff] at hname ⊢
  intro id hid
  have hid : id.index < t.size := hsize ▸ hid
  rw [h.name hid]
  exact hname id hid

end TypeTable

namespace Context.Step
variable {π : Permit} {c c' : Context} {id : TypeId} (h : c.Step π c')
include h

/-- A step leaves the table, registers a type or changes one that the permit names. -/
theorem types_cases : c'.types = c.types ∨
    (∃ d : TypeDef, π.names d.name ∧ c.types.lookup d.name = none ∧ c.types.Arises d ∧
      c'.types = { defs := c.types.defs ++ [d] }) ∨
    ∃ (type : TypeId) (f : TypeDef → TypeDef), π.owners type ∧ c'.types = c.types.modify type f ∧
      (∀ d, d.fields <+: (f d).fields) ∧ ((∀ d, (f d).bases = d.bases) ∨
        (c.types.get type).origin = .defined ∧ c.types.MayInherit type (f (c.types.get type)).bases) := by
  cases h with
  | report d | enter m => exact Or.inl rfl
  | register d hname hfree hd => exact Or.inr (Or.inl ⟨d, hname, hfree, hd, rfl⟩)
  | addField owner f h =>
    exact Or.inr (Or.inr ⟨owner, _, h, rfl, fun _ => prefix_append _ _, Or.inl fun _ => rfl⟩)
  | addProperty owner p h | addMethod owner m h =>
    exact Or.inr (Or.inr ⟨owner, _, h, rfl, fun _ => prefix_rfl, Or.inl fun _ => rfl⟩)
  | revise type f h hf hdefined hbases =>
    refine Or.inr (Or.inr ⟨type, f, h, rfl, fun d => ?_, Or.inr ⟨hdefined, hbases⟩⟩)
    have hfields : (f d).fields = d.fields := congrArg (·.1) (hf d).2
    exact hfields.symm ▸ prefix_rfl
  | setBody m g h =>
    exact Or.inr (Or.inr ⟨m.type, _, h, rfl, fun _ => prefix_rfl, Or.inl fun _ => rfl⟩)

theorem keepsFields : c.types.KeepsFields c'.types := by
  rcases h.types_cases with heq | ⟨d, -, -, -, heq⟩ | ⟨type, f, -, heq, hfields, -⟩ <;> rw [heq]
  · exact fun _ => prefix_rfl
  · exact c.types.keepsFields_append d
  · exact c.types.keepsFields_modify type hfields

/-- Only types that the permit names are changed. -/
theorem get_eq (hid : id.index < c.types.size) (howner : ¬ π.owners id) : c'.types.get id = c.types.get id := by
  rcases h.types_cases with heq | ⟨d, -, -, -, heq⟩ | ⟨type, f, htype, heq, -, -⟩ <;> rw [heq]
  · exact c.types.get_append_of_lt d hid
  · exact c.types.get_modify_of_ne type f id fun hsame => howner (hsame ▸ htype)

/-- Only types that the permit names get members; new types have none. -/
theorem members_eq (howner : ¬ π.owners id) : (c'.types.get id).members = (c.types.get id).members := by
  rcases h.types_cases with heq | ⟨d, -, -, hd, heq⟩ | ⟨type, f, htype, heq, -, -⟩ <;> rw [heq]
  · exact c.types.members_get_append hd.members id
  · rw [c.types.get_modify_of_ne type f id fun hsame => howner (hsame ▸ htype)]

/-- Only names that the permit has are registered. -/
theorem lookup_eq_none {name : QualifiedName} (hname : c.types.lookup name = none)
    (hpermit : ¬ π.names name) : c'.types.lookup name = none := by
  have hkeeps := h.keeps
  rcases h.types_cases with heq | ⟨d, hd, -, -, heq⟩ | ⟨type, f, -, heq, -, -⟩ <;> rw [heq] at hkeeps ⊢
  · exact hname
  · rw [lookup_eq_none_iff] at hname ⊢
    intro id hid
    rcases c.types.get_append_cases d id with ⟨hlt, hold⟩ | ⟨-, hnew⟩ | ⟨hgt, -⟩
    · exact hold ▸ hname id hlt
    · intro hsame
      have hd_name : d.name = name := (congrArg TypeDef.name hnew).symm.trans hsame
      exact hpermit (hd_name ▸ hd)
    · rw [size_append] at hid
      omega
  · exact hkeeps.lookup_eq_none (size_modify _ _ _) hname

theorem rooted (hc : c.types.Rooted) : c'.types.Rooted := by
  have hkeeps := h.keeps
  rcases h.types_cases with heq | ⟨d, -, -, hd, heq⟩ | ⟨type, f, -, heq, -, hbases⟩ <;> rw [heq] at hkeeps ⊢
  · exact hc
  · exact hc.append hkeeps hd.bases
  · rcases hbases with hsame | ⟨hdefined, hbases⟩
    · refine hc.of_bases_eq hkeeps (size_modify _ _ _) fun id => ?_
      rcases c.types.get_modify_cases type f id with hold | ⟨-, -, hnew⟩
      · rw [hold]
      · rw [hnew, hsame]
    · exact hc.modify hkeeps hdefined hbases

theorem grounded (hc : c.types.Grounded) : c'.types.Grounded where
  toRooted := h.rooted hc.toRooted
  primitives p := by
    obtain ⟨id, hid⟩ := Option.isSome_iff_exists.mp (hc.primitives p)
    exact Option.isSome_iff_exists.mpr ⟨id, h.keeps.lookup hid⟩

end Context.Step

/-! ## Runs -/

namespace Context.Steps
variable {π : Permit} {c c' : Context} {id : TypeId} (h : c.Steps π c')
include h

theorem keeps : c.types.Keeps c'.types := by
  induction h with
  | refl => exact .refl _
  | tail _ hstep ih => exact ih.trans hstep.keeps

theorem keepsFields : c.types.KeepsFields c'.types := by
  induction h with
  | refl => exact fun _ => prefix_rfl
  | tail _ hstep ih => exact ih.trans hstep.keepsFields

theorem grounded (hc : c.types.Grounded) : c'.types.Grounded := by
  induction h with
  | refl => exact hc
  | tail _ hstep ih => exact hstep.grounded ih

theorem get_eq (hid : id.index < c.types.size) (howner : ¬ π.owners id) : c'.types.get id = c.types.get id := by
  induction h with
  | refl => rfl
  | tail hinit hstep ih =>
    exact (hstep.get_eq (hid.trans_le (keeps hinit).size) howner).trans ih

theorem members_eq (howner : ¬ π.owners id) : (c'.types.get id).members = (c.types.get id).members := by
  induction h with
  | refl => rfl
  | tail _ hstep ih => exact (hstep.members_eq howner).trans ih

theorem lookup_eq_none {name : QualifiedName} (hname : c.types.lookup name = none)
    (hpermit : ¬ π.names name) : c'.types.lookup name = none := by
  induction h with
  | refl => exact hname
  | tail _ hstep ih => exact hstep.lookup_eq_none ih hpermit

end Context.Steps

end TreeCompiler
