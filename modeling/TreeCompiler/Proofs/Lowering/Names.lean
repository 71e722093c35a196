import TreeCompiler.Proofs.Lowering.FirstBases

/-!
# Names are apart

The types of a table have different names, and the static methods of a type of the program differ in name
or in the types of their parameters.
-/

namespace TreeCompiler

open TypeDef

/-- One of the methods needs an object, or they differ in name or in the types of their parameters. -/
def Method.Apart (m m' : Method) : Prop :=
  m.isStatic = true → m'.isStatic = true → m.sameSignature m' = false

namespace TypeTable
variable {t t' : TypeTable}

/-- No two types share a name, and all of the program have one; the type that holds the functions is of
the program; and no two static methods of such a type share a signature. -/
structure NamesApart (t : TypeTable) : Prop where
  types : ∀ id id' : TypeId, id.index < t.size → id'.index < t.size →
    (t.get id).name = (t.get id').name → id = id'
  named : ∀ id, (t.get id).origin = .defined → (t.get id).name ≠ .global
  functions : ∀ id, (t.get id).name = Lowering.programName → (t.get id).origin = .defined
  methods : ∀ id, (t.get id).origin = .defined → (t.get id).methods.Pairwise Method.Apart

/-! ## Types -/

/-- Each type has the head that it had, or it is new, and so is its name. -/
def AddsTypes (t t' : TypeTable) : Prop :=
  ∀ id : TypeId, (id.index < t'.size → id.index < t.size) ∧ (t'.get id).head = (t.get id).head ∨
    id.index = t.size ∧ (t'.get id).Registrable ∧ t.lookup (t'.get id).name = none

theorem addsTypes_modify (t : TypeTable) (type : TypeId) {f : TypeDef → TypeDef}
    (hf : ∀ d, (f d).head = d.head) : t.AddsTypes (t.modify type f) := by
  intro id
  rw [size_modify]
  refine Or.inl ⟨fun hid => hid, ?_⟩
  rcases t.get_modify_cases type f id with hsame | ⟨-, -, hnew⟩
  · rw [hsame]
  · rw [hnew, hf]

theorem Registers.addsTypes (h : t.Registers t') : t.AddsTypes t' := by
  obtain ⟨d, hname, hd⟩ := h
  intro id
  rcases t.get_append_cases d id with ⟨hlt, hsame⟩ | ⟨hlast, hnew⟩ | ⟨hgt, hdefault⟩
  · exact Or.inl ⟨fun _ => hlt, congrArg head hsame⟩
  · rw [hnew]
    exact Or.inr ⟨hlast, hd, hname⟩
  · rw [hdefault, t.get_of_le hgt.le, size_append]
    exact Or.inl ⟨fun hid => by omega, rfl⟩

theorem AddsTypes.name_injective (h : t.AddsTypes t')
    (ht : ∀ id id' : TypeId, id.index < t.size → id'.index < t.size → (t.get id).name = (t.get id').name → id = id')
    (id id' : TypeId) (hid : id.index < t'.size) (hid' : id'.index < t'.size)
    (hname : (t'.get id).name = (t'.get id').name) : id = id' := by
  rcases h id with ⟨hold, hhead⟩ | ⟨hlast, -, hfresh⟩
  · rcases h id' with ⟨hold', hhead'⟩ | ⟨-, -, hfresh'⟩
    · rw [name_of_head hhead, name_of_head hhead'] at hname
      exact ht id id' (hold hid) (hold' hid') hname
    · rw [← hname, name_of_head hhead] at hfresh'
      exact absurd rfl ((t.lookup_eq_none_iff _).mp hfresh' id (hold hid))
  · rcases h id' with ⟨hold', hhead'⟩ | ⟨hlast', -, -⟩
    · rw [hname, name_of_head hhead'] at hfresh
      exact absurd rfl ((t.lookup_eq_none_iff _).mp hfresh id' (hold' hid'))
    · cases id
      cases id'
      exact congrArg TypeId.mk (hlast.trans hlast'.symm)

/-- If the methods of each type stay apart, all names do. -/
theorem AddsTypes.namesApart (h : t.AddsTypes t') (ht : t.NamesApart)
    (hmethods : ∀ id, (t.get id).methods.Pairwise Method.Apart → (t'.get id).methods.Pairwise Method.Apart) :
    t'.NamesApart where
  types := h.name_injective ht.types
  named id hdefined := by
    rcases h id with ⟨-, hhead⟩ | ⟨-, hnew, -⟩
    · rw [origin_of_head hhead] at hdefined
      rw [name_of_head hhead]
      exact ht.named id hdefined
    · exact hnew.named hdefined
  functions id hname := by
    rcases h id with ⟨-, hhead⟩ | ⟨-, hnew, -⟩
    · rw [name_of_head hhead] at hname
      rw [origin_of_head hhead]
      exact ht.functions id hname
    · cases horigin : (t'.get id).origin with
      | defined => rfl
      | external =>
        have hqualified := hnew.qualified horigin
        rw [hname] at hqualified
        exact absurd hqualified (by decide)
  methods id hdefined := by
    rcases h id with ⟨-, hhead⟩ | ⟨-, hnew, -⟩
    · rw [origin_of_head hhead] at hdefined
      exact hmethods id (ht.methods id hdefined)
    · rw [hnew.methods]
      exact .nil

/-! ## Methods -/

theorem Registers.namesApart (h : t.Registers t') (ht : t.NamesApart) : t'.NamesApart :=
  h.addsTypes.namesApart ht fun id hid => (h.methods_get id).symm ▸ hid

namespace NamesApart

theorem revise (h : t.NamesApart) (type : TypeId) {f : TypeDef → TypeDef}
    (hf : ∀ d, (f d).head = d.head ∧ (f d).methods = d.methods) : (t.modify type f).NamesApart := by
  refine (t.addsTypes_modify type fun d => (hf d).1).namesApart h fun id hid => ?_
  rcases t.methods_get_modify type f id with hsame | ⟨rfl, hmethods⟩
  · exact hsame ▸ hid
  · rw [hmethods, (hf _).2]
    exact hid

theorem addMethod (h : t.NamesApart) (owner : TypeId) {new : Method}
    (hnew : ∀ first ∈ (t.get owner).methods, first.Apart new) : (t.addMethod owner new).2.NamesApart := by
  have hadds : t.AddsTypes (t.addMethod owner new).2 := t.addsTypes_modify owner fun _ => rfl
  refine hadds.namesApart h fun id hid => ?_
  rcases t.methods_get_modify owner (fun d => { d with methods := d.methods ++ [new] }) id with
    hsame | ⟨rfl, hmethods⟩
  · exact hsame ▸ hid
  · refine hmethods.symm ▸ List.pairwise_append.mpr ⟨hid, List.pairwise_singleton _ _, fun first hfirst m hm => ?_⟩
    rw [List.mem_singleton.mp hm]
    exact hnew first hfirst

theorem setBody (h : t.NamesApart) (m : MethodRef) (g : FlowGraph) : (t.setBody m g).NamesApart := by
  have hadds : t.AddsTypes (t.setBody m g) := t.addsTypes_modify m.type fun _ => rfl
  -- what is said of two methods says nothing of their bodies
  have hheaders : ∀ ms : List Method, (ms.map Method.header).Pairwise Method.Apart ↔ ms.Pairwise Method.Apart :=
    fun _ => List.pairwise_map
  refine hadds.namesApart h fun id hid => ?_
  rcases t.methods_get_modify m.type (fun d =>
      { d with methods := d.methods.modify m.index fun method => { method with body := some g } }) id with
    hsame | ⟨rfl, hmethods⟩
  · exact hsame ▸ hid
  · refine hmethods.symm ▸ (hheaders _).mp ?_
    rw [map_header_modify]
    exact (hheaders _).mpr hid

end NamesApart

theorem Extends.namesApart (h : t.Extends t') (ht : t.NamesApart) : t'.NamesApart := by
  induction h with
  | refl => exact ht
  | tail _ hlast ih => exact hlast.namesApart ih

end TypeTable

namespace Context
variable {π : Grant} {c c' : Context}

/-- An edit of a declaration keeps the names apart: a second method of one signature is refused. -/
theorem Fill.namesApart (h : c.Fill π c') (hc : c.types.NamesApart) : c'.types.NamesApart := by
  cases h with
  | look h => exact h.extends.namesApart hc
  | refuse d | enter m => exact hc
  | register d _ hname hd => exact TypeTable.Registers.namesApart (.mk d hname hd) hc
  | addField owner f | addProperty owner p => exact hc.revise owner fun _ => ⟨rfl, rfl⟩
  | addMethod owner m _ _ hfirst => exact hc.addMethod owner fun first hmem _ _ => hfirst first hmem
  | construct owner m _ _ _ _ hinstance =>
    refine hc.addMethod owner fun first _ _ hstatic => ?_
    rw [hinstance] at hstatic
    cases hstatic
  | revise type f _ _ hf => exact hc.revise type fun d => ⟨(hf d).1, congrArg (·.2.1) (hf d).2⟩

theorem Fills.namesApart (h : c.Fills π c') (hc : c.types.NamesApart) : c'.types.NamesApart := by
  induction h with
  | refl => exact hc
  | tail _ hlast ih => exact hlast.namesApart ih

end Context

/-! ## Programs -/

namespace Compilation

theorem external_install (target : Target) :
    (∀ d ∈ (target.install Platform.types).defs, d.origin = .external ∧ d.name ≠ Lowering.programName) ∧
      (target.install Platform.types).system? "Object" = some ⟨0⟩ ∧
      ((target.install Platform.types).get ⟨0⟩).isInterface = false := by
  cases target <;> decide +kernel

theorem namesApart_install (target : Target) : (target.install Platform.types).NamesApart := by
  have hexternal := (external_install target).1
  have hnodup : ((target.install Platform.types).defs.map name).Nodup := by
    cases target <;> decide +kernel
  generalize target.install Platform.types = t at hexternal hnodup
  have hget := TypeTable.forall_get (P := fun d => d.origin = .external ∧ d.name ≠ Lowering.programName)
    (by decide) hexternal
  refine ⟨fun id id' hid hid' hname => ?_, fun id hdefined => ?_, fun id hname => ?_, fun id hdefined => ?_⟩
  · have hindex : (t.defs.map name)[id.index]? = (t.defs.map name)[id'.index]? := by
      rw [List.getElem?_map, List.getElem?_map, List.getElem?_eq_getElem hid,
        List.getElem?_eq_getElem hid', ← t.get_mk_of_lt hid, ← t.get_mk_of_lt hid']
      exact congrArg some hname
    cases id
    cases id'
    exact congrArg TypeId.mk ((List.getElem?_inj (by rwa [List.length_map]) hnodup).mp hindex)
  · cases (hget id).1.symm.trans hdefined
  · exact absurd hname (hget id).2
  · cases (hget id).1.symm.trans hdefined

/-- The names of a lowered program are apart. -/
theorem namesApart_lowered (trees : List Tree) (options : Options) :
    (lowered trees options).assembly.types.NamesApart := by
  obtain ⟨c, hregistered, hfilled⟩ := (start trees options).context.exists_fills trees
  rw [types_start] at hregistered
  exact Context.invariant_lowerBodies (Q := TypeTable.NamesApart) (fun _ _ hnew h => hnew.namesApart h)
    (fun _ m g h => h.setBody m g) 
    (hfilled.namesApart (hregistered.namesApart (namesApart_install options.target))) _

end Compilation

end TreeCompiler
