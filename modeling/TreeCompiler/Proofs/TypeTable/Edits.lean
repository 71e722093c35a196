import TreeCompiler.Proofs.FlowGraph.Building
import Mathlib.Logic.Relation

/-!
# Edits of a type table

Whatever is done to a type table is one of four edits: a new type without methods, a change of a type
that leaves its methods alone, a new method at the end of a type, and a body for a method.

* `Evolves.keeps` : edits keep types and methods (`TypeTable.Keeps`);
* `Evolves.lawful` : edits keep all bodies straight (`TypeTable.Lawful`).
-/

namespace TreeCompiler

open List

/-- A type as it is registered: it has no methods yet, one of the program has a name and one base at most,
and the name of one of the platform is qualified. -/
structure TypeDef.Registrable (d : TypeDef) : Prop where
  methods : d.methods = []
  bases : d.origin = .defined → d.bases.length ≤ 1
  named : d.origin = .defined → d.name ≠ .global
  qualified : d.origin = .external → 1 < d.name.length

namespace TypeTable
variable {t t' : TypeTable} {d : TypeDef} {f : TypeDef → TypeDef} {m : MethodRef}

/-! ## The constructor of objects -/

/-- The constructor that every object is made with. -/
def objectCtor? (t : TypeTable) : Option MethodRef :=
  (t.system? "Object").bind fun object => t.findMethod? object ".ctor" 0

/-- There is a constructor for objects, and it takes the object. -/
def HasObject (t : TypeTable) : Prop :=
  ∃ ctor c, t.objectCtor? = some ctor ∧ t.methodEntry ctor = .ok c ∧ c.isStatic = false

theorem Keeps.objectCtor? (h : t.Keeps t') {ctor : MethodRef} (hctor : t.objectCtor? = some ctor) :
    t'.objectCtor? = some ctor := by
  obtain ⟨object, hobject, hfound⟩ := Option.bind_eq_some_iff.mp hctor
  exact Option.bind_eq_some_iff.mpr ⟨object, h.lookup hobject, h.findMethod? hfound⟩

theorem HasObject.mono (h : t.HasObject) (hkeeps : t.Keeps t') : t'.HasObject := by
  obtain ⟨ctor, c, hctor, hc, hinstance⟩ := h
  obtain ⟨c', hc', hheader⟩ := hkeeps.methodEntry hc
  exact ⟨ctor, c', hkeeps.objectCtor? hctor, hc', (Method.isStatic_of_header hheader).trans hinstance⟩

/-! ## Edits -/

inductive Registers (t : TypeTable) : TypeTable → Prop where
  | mk (d : TypeDef) : t.lookup d.name = none → d.Registrable →
      Registers t { defs := t.defs ++ [d] }

/-- One change of a table. A body that comes with a method is straight if objects can be made. -/
inductive Edit (t : TypeTable) : TypeTable → Prop where
  | register {t' : TypeTable} : t.Registers t' → Edit t t'
  | revise (id : TypeId) (f : TypeDef → TypeDef) :
      (∀ d, (f d).head = d.head ∧ (f d).methods = d.methods) → Edit t (t.modify id f)
  | addMethod (owner : TypeId) (m : Method) :
      (t.HasObject → ∀ g, m.body = some g → g.Straight t m ∧ g.ThrowsObjects) →
      Edit t (t.addMethod owner m).2
  | setBody (m : MethodRef) (g : FlowGraph) : g.Straight t (t.method m) → g.ThrowsObjects →
      Edit t (t.setBody m g)

/-- Some new types and nothing else. -/
abbrev Extends : TypeTable → TypeTable → Prop :=
  Relation.ReflTransGen Registers

/-- Some changes of a table. -/
abbrev Evolves : TypeTable → TypeTable → Prop :=
  Relation.ReflTransGen Edit

theorem Extends.evolves (h : t.Extends t') : t.Evolves t' := by
  induction h with
  | refl => exact .refl
  | tail _ hlast ih => exact ih.tail (.register hlast)

/-- Every body is straight and makes objects only to throw them. -/
structure Lawful (t : TypeTable) : Prop where
  object : t.HasObject
  bodies : ∀ m g, (t.method m).body = some g → g.Straight t (t.method m) ∧ g.ThrowsObjects

/-! ## What edits keep -/

theorem get_append_of_lt (t : TypeTable) (d : TypeDef) {id : TypeId} (h : id.index < t.size) :
    get { defs := t.defs ++ [d] } id = t.get id := by
  have hold : (t.defs ++ [d])[id.index]? = t.defs[id.index]? := getElem?_append_left h
  rw [get, get, getD_eq_getElem?_getD, getD_eq_getElem?_getD, hold]

theorem methods_get_append (t : TypeTable) (hd : d.methods = []) (id : TypeId) :
    (get { defs := t.defs ++ [d] } id).methods = (t.get id).methods := by
  rcases Nat.lt_trichotomy id.index t.size with hlt | heq | hgt
  · rw [get_append_of_lt t d hlt]
  · have hnew : (t.defs ++ [d])[id.index]? = some d := by
      rw [heq]
      exact getElem?_concat_length
    rw [methods_get_of_le t id (Nat.le_of_eq heq.symm), get, getD_eq_getElem?_getD, hnew]
    exact hd
  · rw [methods_get_of_le t id (Nat.le_of_lt hgt), methods_get_of_le]
    change (t.defs ++ [d]).length ≤ _
    rw [length_append]
    exact hgt

theorem keeps_append (t : TypeTable) (hd : d.methods = []) : t.Keeps { defs := t.defs ++ [d] } where
  size := by
    change t.defs.length ≤ (t.defs ++ [d]).length
    rw [length_append]
    exact Nat.le_add_right _ _
  head id hid := congrArg TypeDef.head (get_append_of_lt t d hid)
  methods id := (methods_get_append t hd id).symm ▸ prefix_rfl

theorem methods_get_modify (t : TypeTable) (id : TypeId) (f : TypeDef → TypeDef) (other : TypeId) :
    ((t.modify id f).get other).methods = (t.get other).methods ∨
      other = id ∧ ((t.modify id f).get other).methods = (f (t.get id)).methods := by
  by_cases hother : other = id
  · subst hother
    rcases Nat.lt_or_ge other.index t.size with hlt | hle
    · exact Or.inr ⟨rfl, congrArg TypeDef.methods (get_modify_self t other f hlt)⟩
    · rw [methods_get_of_le t other hle, methods_get_of_le]
      · exact Or.inl rfl
      · rw [size_modify]
        exact hle
  · rw [get_modify_of_ne t id f other hother]
    exact Or.inl rfl

theorem keeps_modify (t : TypeTable) (id : TypeId) (hhead : ∀ d, (f d).head = d.head)
    (hmethods : ∀ d, d.methods.map Method.header <+: (f d).methods.map Method.header) : t.Keeps (t.modify id f) where
  size := Nat.le_of_eq (size_modify t id f).symm
  head other hlt := by
    by_cases hother : other = id
    · subst hother
      rw [get_modify_self t other f hlt, hhead]
    · rw [get_modify_of_ne t id f other hother]
  methods other := by
    rcases methods_get_modify t id f other with hsame | ⟨rfl, hnew⟩
    · exact hsame.symm ▸ prefix_rfl
    · rw [hnew]
      exact hmethods _

variable (ms : List Method)

theorem map_header_modify (i : Nat) (g : FlowGraph) :
    (ms.modify i fun m => { m with body := some g }).map Method.header = ms.map Method.header :=
  map_modify_eq (fun _ => by rfl) ms i

theorem keeps_addField (t : TypeTable) (owner : TypeId) (f : Field) : t.Keeps (t.addField owner f).2 :=
  keeps_modify t owner (fun _ => rfl) fun _ => prefix_rfl

theorem keeps_addProperty (t : TypeTable) (owner : TypeId) (p : Property) : t.Keeps (t.addProperty owner p) :=
  keeps_modify t owner (fun _ => rfl) fun _ => prefix_rfl

theorem keeps_addMethod (t : TypeTable) (owner : TypeId) (m : Method) : t.Keeps (t.addMethod owner m).2 := by
  refine keeps_modify t owner (fun _ => rfl) fun d => ?_
  rw [map_append]
  exact prefix_append _ _

theorem keeps_setBody (t : TypeTable) (m : MethodRef) (g : FlowGraph) : t.Keeps (t.setBody m g) := by
  refine keeps_modify t m.type (fun _ => rfl) fun d => ?_
  exact (map_header_modify d.methods m.index g).symm ▸ prefix_rfl

theorem Edit.keeps (h : t.Edit t') : t.Keeps t' := by
  cases h with
  | register h =>
    obtain ⟨d, hname, hd⟩ := h
    exact keeps_append t hd.methods
  | revise id f hf =>
    exact keeps_modify t id (fun d => (hf d).1) fun d => (hf d).2.symm ▸ prefix_rfl
  | addMethod owner m hm => exact keeps_addMethod t owner m
  | setBody m g _ _ => exact keeps_setBody t m g

/-! ## Bodies -/

theorem method_of_methods (h : (t'.get m.type).methods = (t.get m.type).methods) : t'.method m = t.method m := by
  rw [method, method, h]

theorem Registers.methods_get (h : t.Registers t') (id : TypeId) : (t'.get id).methods = (t.get id).methods := by
  obtain ⟨d, hname, hd⟩ := h
  exact methods_get_append t hd.methods id

theorem Extends.methods_get (h : t.Extends t') (id : TypeId) : (t'.get id).methods = (t.get id).methods := by
  induction h with
  | refl => rfl
  | tail _ hlast ih => exact (hlast.methods_get id).trans ih

theorem Extends.method_eq (h : t.Extends t') (m : MethodRef) : t'.method m = t.method m :=
  method_of_methods (h.methods_get m.type)

theorem method_modify_of_methods (t : TypeTable) (id : TypeId) (hf : ∀ d, (f d).methods = d.methods)
    (m : MethodRef) : (t.modify id f).method m = t.method m := by
  refine method_of_methods ?_
  rcases methods_get_modify t id f m.type with hsame | ⟨htype, hnew⟩
  · exact hsame
  · rw [hnew, hf, htype]

theorem getD_concat (new : Method) (k : Nat) : (ms ++ [new]).getD k default = ms.getD k default ∨
      k = ms.length ∧ (ms ++ [new]).getD k default = new := by
  simp only [getD_eq_getElem?_getD]
  rcases Nat.lt_trichotomy k ms.length with hlt | rfl | hgt
  · rw [getElem?_append_left hlt]
    exact Or.inl rfl
  · rw [getElem?_concat_length]
    exact Or.inr ⟨rfl, rfl⟩
  · rw [getElem?_eq_none (Nat.le_of_lt hgt), getElem?_eq_none]
    · exact Or.inl rfl
    · rw [length_append]
      exact hgt

theorem method_addMethod_cases (t : TypeTable) (owner : TypeId) (new : Method) (m : MethodRef) :
    (t.addMethod owner new).2.method m = t.method m ∨
      m = (t.addMethod owner new).1 ∧ (t.addMethod owner new).2.method m = new := by
  rcases methods_get_modify t owner (fun d => { d with methods := d.methods ++ [new] }) m.type with
    hsame | ⟨rfl, hnew⟩
  · exact Or.inl (method_of_methods hsame)
  · have hmethod : (t.addMethod m.type new).2.method m = ((t.get m.type).methods ++ [new]).getD m.index default :=
      congrArg (fun ms => getD ms m.index default) hnew
    rw [hmethod]
    rcases getD_concat (t.get m.type).methods new m.index with hsame | ⟨hindex, hlast⟩
    · exact Or.inl hsame
    · exact Or.inr ⟨congrArg (MethodRef.mk m.type) hindex, hlast⟩

theorem getD_modify_body (i : Nat) (g : FlowGraph) (k : Nat) :
    (ms.modify i fun m => { m with body := some g }).getD k default = ms.getD k default ∨
      i = k ∧ (ms.modify i fun m => { m with body := some g }).getD k default =
        { ms.getD k default with body := some g } := by
  simp only [getD_eq_getElem?_getD, getElem?_modify]
  by_cases hindex : i = k
  · cases ms[k]? with
    | none => exact Or.inl rfl
    | some m => exact Or.inr ⟨hindex, by simp [hindex]⟩
  · simp [hindex]

theorem method_setBody_cases (t : TypeTable) (target : MethodRef) (g : FlowGraph) (m : MethodRef) :
    (t.setBody target g).method m = t.method m ∨
      target = m ∧ (t.setBody target g).method m = { t.method m with body := some g } := by
  rcases methods_get_modify t target.type (fun d =>
      { d with methods := d.methods.modify target.index fun method => { method with body := some g } })
      m.type with hsame | ⟨htype, hmethods⟩
  · exact Or.inl (method_of_methods hsame)
  · have hmethod : (t.setBody target g).method m = ((t.get m.type).methods.modify target.index
        fun method => { method with body := some g }).getD m.index default := by
      rw [htype]
      exact congrArg (fun ms => getD ms m.index default) hmethods
    rw [hmethod]
    rcases getD_modify_body (t.get m.type).methods target.index g m.index with hsame | ⟨hindex, hbody⟩
    · exact Or.inl hsame
    · refine Or.inr ⟨?_, hbody⟩
      cases target
      cases m
      cases htype
      cases hindex
      rfl

theorem Edit.straight_body (h : t.Edit t') (hlawful : t.Lawful) {g : FlowGraph} (hg : (t'.method m).body = some g) :
    ∃ c, (g.Straight t c ∧ g.ThrowsObjects) ∧ (t'.method m).header = c.header := by
  have hold : t'.method m = t.method m →
      ∃ c, (g.Straight t c ∧ g.ThrowsObjects) ∧ (t'.method m).header = c.header := by
    intro hsame
    rw [hsame] at hg ⊢
    exact ⟨_, hlawful.bodies m g hg, rfl⟩
  cases h with
  | register h => exact hold (method_of_methods (h.methods_get m.type))
  | revise id f hf => exact hold (method_modify_of_methods t id (fun d => (hf d).2) m)
  | addMethod owner new hm =>
    rcases method_addMethod_cases t owner new m with hsame | ⟨-, hnew⟩
    · exact hold hsame
    · rw [hnew] at hg ⊢
      exact ⟨new, hm hlawful.object g hg, rfl⟩
  | setBody target new hnew hthrows =>
    rcases method_setBody_cases t target new m with hsame | ⟨rfl, hbody⟩
    · exact hold hsame
    · rw [hbody] at hg ⊢
      cases hg
      exact ⟨t.method target, ⟨hnew, hthrows⟩, rfl⟩

theorem Edit.lawful (h : t.Edit t') (hlawful : t.Lawful) : t'.Lawful where
  object := hlawful.object.mono h.keeps
  bodies m g hg := by
    obtain ⟨c, ⟨hstraight, hthrows⟩, hheader⟩ := h.straight_body hlawful hg
    exact ⟨hstraight.mono h.keeps hheader, hthrows⟩

namespace Evolves
variable {t t' : TypeTable}

theorem keeps (h : t.Evolves t') : t.Keeps t' := by
  induction h with
  | refl => exact .refl t
  | tail _ hedit ih => exact ih.trans hedit.keeps

theorem lawful (h : t.Evolves t') (hlawful : t.Lawful) : t'.Lawful := by
  induction h with
  | refl => exact hlawful
  | tail _ hedit ih => exact hedit.lawful ih

end Evolves

end TypeTable

end TreeCompiler
