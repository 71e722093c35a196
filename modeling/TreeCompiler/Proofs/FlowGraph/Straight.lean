import TreeCompiler.Proofs.FlowGraph.Evaluation
import Mathlib.Data.List.Induction
import Mathlib.Data.List.Nodup

/-!
# Straight graphs

A graph is straight if it has one block, which does not jump, and if every instruction of it may stand
where it stands: its number is new, a variable is declared once and before it is read, and calls have
no more arguments than their methods take.

* `FlowGraph.Straight t m g` : `g` is such a body of the method `m`.
-/

namespace TreeCompiler

open List

theorem forall_mem_concat {α : Type} {P : α → Prop} {as : List α} {a : α} (h : ∀ x ∈ as, P x) (ha : P a) :
    ∀ x ∈ as ++ [a], P x :=
  forall_mem_append.mpr ⟨h, forall_mem_singleton.mpr ha⟩

theorem forall_mem_modify {α : Type} {P : α → Prop} {as : List α} {f : α → α} (i : Nat) (h : ∀ a ∈ as, P a)
    (hf : ∀ a, P a → P (f a)) : ∀ a ∈ as.modify i f, P a := by
  intro a ha
  obtain ⟨j, hj⟩ := mem_iff_getElem?.mp ha
  rw [getElem?_modify] at hj
  obtain ⟨b, hb, rfl⟩ := Option.map_eq_some_iff.mp hj
  have hold := h b (mem_of_getElem? hb)
  split
  · exact hf b hold
  · exact hold

theorem map_modify_eq {α β : Type} {f : α → α} {g : α → β} (hf : ∀ a, g (f a) = g a) (as : List α) (i : Nat) :
    (as.modify i f).map g = as.map g := by
  refine ext_getElem? fun k => ?_
  rw [getElem?_map, getElem?_map, getElem?_modify]
  cases as[k]? with
  | none => rfl
  | some a =>
    rw [Option.map_eq_map, Option.map_some, Option.map_some, Option.map_some]
    split
    · rw [hf]
    · rfl

def Instruction.declared? : Instruction → Option BindingId
  | .alloca b _ _ => some b
  | _ => none

def Instruction.makesObject : Instruction → Bool
  | .newObject .. => true
  | _ => false

def Instruction.isValue : Instruction → Bool
  | .constant .. | .load .. | .loadArg _ | .loadLocal _ | .binary .. => true
  | _ => false

def declaredBy (is : Script) : List BindingId :=
  is.filterMap (·.2.declared?)

theorem declaredBy_append (is js : Script) : declaredBy (is ++ js) = declaredBy is ++ declaredBy js :=
  filterMap_append

/-- The values that a method takes: its parameters and the object whose method it is. -/
def Method.operands (m : Method) : Nat :=
  m.params.length + if m.isStatic then 0 else 1

/-- An instruction refers to arguments of `m`, to variables that are declared, and to methods of `t`. What it
passes is a value for every parameter, and before them the object or none. -/
def Instruction.Allowed (t : TypeTable) (m : Method) (declared : List BindingId) : Instruction → Prop
  | .loadArg .this => m.isStatic = false
  | .loadArg (.param n) => n < m.params.length
  | .loadLocal b => b ∈ declared
  | .alloca b _ _ => b ∉ declared
  | .call callee args => ∃ c, t.methodEntry callee = .ok c ∧ c.params.length ≤ args.length ∧
    args.length ≤ c.operands
  | .newObject ctor args => ∃ c, t.methodEntry ctor = .ok c ∧ args.length = c.params.length
  | _ => True

namespace FlowGraph
variable {g : FlowGraph} {b : Block}

/-- One block that does not jump, of all instructions in their order, each of which may stand where it
stands. -/
structure Straight (t : TypeTable) (m : Method) (g : FlowGraph) : Prop where
  blocks : g.blocks = [g.block .entry]
  flow : ∀ target, (g.block .entry).flow ≠ .jump target
  numbered : (g.block .entry).instructions = (range g.instructions.length).map InstrId.mk
  allowed : ∀ done i rest, g.instructions = done ++ i :: rest →
    i.Allowed t m (done.filterMap Instruction.declared?)

/-- An object is made by the last instruction only, of results that there are, and then to be thrown. -/
def ThrowsObjects (g : FlowGraph) : Prop :=
  ∀ done i rest, g.instructions = done ++ i :: rest → i.makesObject = true →
    rest = [] ∧ (g.block .entry).flow = .unreachable ∧
      ∀ id ∈ i.operands, ∃ j, done[id.index]? = some j ∧ j.isValue = true

theorem filterMap_range_getElem? (is : List Instruction) :
    (range is.length).filterMap (fun k => (is[k]?).map (InstrId.mk k, ·)) = is.zipIdx.map fun x => (⟨x.2⟩, x.1) := by
  induction is using reverseRecOn with
  | nil => rfl
  | append_singleton is i ih =>
    have hold : ∀ k ∈ range is.length, ((is ++ [i])[k]?).map (InstrId.mk k, ·) = (is[k]?).map (InstrId.mk k, ·) := by
      intro k hk
      rw [getElem?_append_left (mem_range.mp hk)]
    rw [length_append, length_singleton, range_succ, filterMap_append,
      filterMap_congr hold, ih, zipIdx_append, map_append]
    simp

section Numbered
variable (h : b.instructions = (range g.instructions.length).map InstrId.mk)
include h

theorem instructionsOf_eq_zipIdx : g.instructionsOf b = g.instructions.zipIdx.map fun x => (⟨x.2⟩, x.1) := by
  rw [instructionsOf, h, filterMap_map]
  exact filterMap_range_getElem? g.instructions

theorem map_fst_instructionsOf : (g.instructionsOf b).map Prod.fst = b.instructions := by
  rw [instructionsOf_eq_zipIdx h, h, map_map, range_eq_range', ← zipIdx_map_snd, map_map]
  rfl

theorem map_snd_instructionsOf : (g.instructionsOf b).map Prod.snd = g.instructions := by
  rw [instructionsOf_eq_zipIdx h, map_map]
  exact zipIdx_map_fst 0 g.instructions

end Numbered

namespace Straight
variable {t : TypeTable} {m : Method} {g : FlowGraph} {done rest : Script}
  {id : InstrId} {i : Instruction}

theorem map_snd_script (h : g.Straight t m) : g.script.map Prod.snd = g.instructions :=
  map_snd_instructionsOf h.numbered

theorem fresh (h : g.Straight t m) (hsplit : g.script = done ++ (id, i) :: rest) : id ∉ done.map Prod.fst := by
  have hnodup : (g.script.map Prod.fst).Nodup := by
    rw [map_fst_instructionsOf h.numbered, h.numbered]
    exact nodup_range.map fun j k hjk => congrArg InstrId.index hjk
  rw [hsplit, map_append, map_cons] at hnodup
  intro hmem
  exact (disjoint_of_nodup_append hnodup) hmem (by simp)

theorem allowed_of_split (h : g.Straight t m) (hsplit : g.script = done ++ (id, i) :: rest) :
    i.Allowed t m (declaredBy done) := by
  have hsnd := h.map_snd_script
  rw [hsplit, map_append, map_cons] at hsnd
  have hallowed := h.allowed _ _ _ hsnd.symm
  rwa [filterMap_map] at hallowed

theorem last_of_makesObject (h : g.Straight t m) (hthrows : g.ThrowsObjects)
    (hsplit : g.script = done ++ (id, i) :: rest) (hmakes : i.makesObject = true) :
    rest = [] ∧ (g.block .entry).flow = .unreachable ∧
      ∀ a ∈ i.operands, ∃ j, (a, j) ∈ done ∧ j.isValue = true := by
  have hsnd := h.map_snd_script
  rw [hsplit, map_append, map_cons] at hsnd
  obtain ⟨hrest, hflow, hoperands⟩ := hthrows _ _ _ hsnd.symm hmakes
  refine ⟨map_eq_nil_iff.mp hrest, hflow, fun a ha => ?_⟩
  obtain ⟨j, hj, hvalue⟩ := hoperands a ha
  rw [getElem?_map, Option.map_eq_some_iff] at hj
  obtain ⟨⟨a', j⟩, hx, rfl⟩ := hj
  -- the instruction in place `k` of the block has the number `k`
  have hnumber : g.script[a.index]? = some (a', j) := by
    rw [hsplit, List.getElem?_append_left (List.getElem?_eq_some_iff.mp hx).1, hx]
  rw [script, instructionsOf_eq_zipIdx h.numbered, getElem?_map, getElem?_zipIdx,
    Option.map_map, Option.map_eq_some_iff] at hnumber
  obtain ⟨k, -, heq⟩ := hnumber
  simp only [Function.comp_apply, Prod.mk.injEq, Nat.zero_add] at heq
  obtain ⟨rfl, rfl⟩ := heq
  exact ⟨k, mem_of_getElem? hx, hvalue⟩

end Straight

end FlowGraph

namespace Bindings
variable {V : Type} {s s' : Bindings V} {done : Script} {id : InstrId} {i : Instruction}

/-- Only results of `done` are bound, those that there always are among them, and just the variables that
`done` declares. -/
structure After (s : Bindings V) (done : Script) : Prop where
  values : ∀ id, s.values id ≠ none → id ∈ done.map Prod.fst
  bound : ∀ x ∈ done, x.2.isValue = true → s.values x.1 ≠ none
  locals : ∀ b, s.locals b ≠ none ↔ b ∈ declaredBy done

theorem after_empty : (empty : Bindings V).After [] :=
  ⟨fun _ h => absurd rfl h, fun _ h => (not_mem_nil h).elim, fun _ => ⟨fun h => absurd rfl h, fun h => nomatch h⟩⟩

theorem exists_mapM_values {ids : List InstrId} (h : ∀ id ∈ ids, s.values id ≠ none) :
    ∃ vs, ids.mapM s.values = some vs := by
  induction ids with
  | nil => exact ⟨[], rfl⟩
  | cons id ids ih =>
    obtain ⟨v, hv⟩ := Option.ne_none_iff_exists'.mp (h id mem_cons_self)
    obtain ⟨vs, hvs⟩ := ih fun other hother => h other (mem_cons_of_mem _ hother)
    refine ⟨v :: vs, ?_⟩
    rw [mapM_cons, hv, hvs]
    rfl

/-- What an instruction can do to the bindings. -/
inductive Changes (s : Bindings V) (id : InstrId) (i : Instruction) : Bindings V → Prop where
  | bind (v : V) : i.declared? = none → i.makesObject = false → Changes s id i (s.bind id v)
  | declare (b : BindingId) (v : V) : i.declared? = some b → i.makesObject = false →
      Changes s id i (s.declare b v)
  | perform (event : Event V) : i.declared? = none → i.makesObject = false → i.isValue = false →
      Changes s id i (s.perform event)
  | answer (event : Event V) (v : V) : i.declared? = none → i.makesObject = false →
      Changes s id i ((s.perform event).bind id v)
  | make (event : Event V) (v : V) : i.declared? = none → i.makesObject = true →
      Changes s id i ((s.perform event).make id v)

theorem After.of_value (h : s.After done) (hi : i.declared? = none)
    (hvalues : ∀ other, other ≠ id → s'.values other = s.values other)
    (hid : s'.values id ≠ none ∨ i.isValue = false ∧ s'.values id = s.values id)
    (hlocals : s'.locals = s.locals) : s'.After (done ++ [(id, i)]) := by
  refine ⟨?_, ?_, ?_⟩
  · intro other hother
    rw [map_append, mem_append]
    by_cases heq : other = id
    · exact Or.inr (by simp [heq])
    · rw [hvalues other heq] at hother
      exact Or.inl (h.values other hother)
  · intro x hx hvalue
    by_cases heq : x.1 = id
    · rw [heq]
      refine hid.elim (fun h => h) fun hsame => ?_
      rcases mem_append.mp hx with hold | hnew
      · rw [hsame.2, ← heq]
        exact h.bound x hold hvalue
      · rw [mem_singleton.mp hnew, hsame.1] at hvalue
        nomatch hvalue
    · rw [hvalues x.1 heq]
      rcases mem_append.mp hx with hold | hnew
      · exact h.bound x hold hvalue
      · exact absurd (congrArg Prod.fst (mem_singleton.mp hnew)) heq
  · intro b
    have hnone : declaredBy [(id, i)] = [] := filterMap_cons_none hi
    rw [declaredBy_append, hnone, append_nil, hlocals]
    exact h.locals b

theorem After.of_declare {b : BindingId} (h : s.After done) (id : InstrId) (v : V) (hi : i.declared? = some b) :
    (s.declare b v).After (done ++ [(id, i)]) := by
  refine ⟨?_, ?_, ?_⟩
  · intro other hother
    rw [map_append, mem_append]
    exact Or.inl (h.values other hother)
  · intro x hx hvalue
    rcases mem_append.mp hx with hold | hnew
    · exact h.bound x hold hvalue
    · obtain rfl := mem_singleton.mp hnew
      cases i <;> cases hi
      cases hvalue
  · intro other
    have hsome : declaredBy [(id, i)] = [b] := filterMap_cons_some hi
    rw [declaredBy_append, hsome, mem_append, mem_singleton]
    by_cases heq : other = b
    · subst heq
      rw [locals_declare_self]
      simp
    · rw [locals_declare_of_ne s v heq, h.locals other]
      exact ⟨Or.inl, fun hor => hor.resolve_right heq⟩

theorem Changes.after (hchanges : s.Changes id i s') (h : s.After done) : s'.After (done ++ [(id, i)]) := by
  cases hchanges with
  | bind v hi _ => exact h.of_value hi (fun _ hne => values_bind_of_ne s v hne) (.inl (by simp)) rfl
  | declare b v hi _ => exact h.of_declare id v hi
  | perform event hi _ hvalue => exact h.of_value hi (fun _ _ => rfl) (.inr ⟨hvalue, rfl⟩) rfl
  | answer event v hi _ =>
    exact h.of_value hi (fun _ hne => values_bind_of_ne _ v hne) (.inl (by simp)) rfl
  | make event v hi _ =>
    refine h.of_value hi (fun _ hne => values_bind_of_ne _ v hne) (.inl ?_) rfl
    change ((s.perform event).bind id v).values id ≠ none
    simp

/-- An object is left for an unreachable end just if the latest instruction made it. -/
theorem Changes.made (hchanges : s.Changes id i s') : s'.made = if i.makesObject then s'.values id else none := by
  cases hchanges with
  | bind v _ hi | declare b v _ hi | perform event _ hi _ | answer event v _ hi => rw [hi]; rfl
  | make event v _ hi =>
    rw [hi, if_pos rfl]
    exact (values_bind_self _ _ _).symm

end Bindings

namespace CodeScope
variable {V : Type} {e : CodeScope} {I : Interpretation V} {call : Invocation V} {s s' : Bindings V}

/-- An instruction binds its own result or variable and nothing else. -/
theorem changes_of_step {id : InstrId} {i : Instruction} (hstep : e.step I call s id i = some s') :
    s.Changes id i s' := by
  cases i with
  | constant c type =>
    cases hstep
    exact .bind _ rfl rfl
  | load type source | loadArg arg | loadLocal b =>
    obtain ⟨v, -, rfl⟩ := Option.map_eq_some_iff.mp hstep
    exact .bind v rfl rfl
  | alloca b type init =>
    cases init with
    | none =>
      cases hstep
      exact .declare b _ rfl rfl
    | some init =>
      obtain ⟨v, -, rfl⟩ := Option.map_eq_some_iff.mp hstep
      exact .declare b v rfl rfl
  | binary op type lhs rhs =>
    simp only [step, Option.bind_eq_bind, Option.bind_eq_some_iff] at hstep
    obtain ⟨left, -, right, -, hs⟩ := hstep
    cases hs
    exact .bind _ rfl rfl
  | call m args =>
    simp only [step, Option.bind_eq_bind, Option.bind_eq_some_iff] at hstep
    obtain ⟨values, -, hs⟩ := hstep
    cases hs
    split
    · exact .answer _ _ rfl rfl
    · exact .perform _ rfl rfl rfl
  | newObject ctor args =>
    simp only [step, Option.bind_eq_bind, Option.bind_eq_some_iff] at hstep
    obtain ⟨values, -, hs⟩ := hstep
    cases hs
    exact .make _ _ rfl rfl
  | storeField field target value =>
    simp only [step, Option.bind_eq_bind, Option.bind_eq_some_iff] at hstep
    obtain ⟨target, -, value, -, hs⟩ := hstep
    cases hs
    exact .perform _ rfl rfl rfl

theorem steps_append (s : Bindings V) (is js : Script) :
    e.steps I call s (is ++ js) = (e.steps I call s is).bind (e.steps I call · js) := by
  induction is generalizing s with
  | nil => rfl
  | cons x is ih =>
    rw [cons_append, steps, steps, Option.bind_assoc]
    exact congrArg _ (funext fun mid => ih mid)

/-- The object that is left after some instructions. -/
theorem made_of_steps {is : Script} (hsteps : e.steps I call s is = some s')
    (hmade : s.made = none) : s'.made = (is.getLast?.filter (·.2.makesObject)).bind fun x => s'.values x.1 := by
  rcases eq_nil_or_concat is with rfl | ⟨init, x, rfl⟩
  · cases hsteps
    exact hmade
  · rw [concat_eq_append, steps_append, Option.bind_eq_some_iff] at hsteps
    obtain ⟨mid, -, hlast⟩ := hsteps
    obtain ⟨last, hstep, hs⟩ := Option.bind_eq_some_iff.mp hlast
    cases hs
    rw [concat_eq_append, getLast?_concat, (changes_of_step hstep).made]
    cases hx : x.2.makesObject with
    | true | false => simp [Option.filter, hx]

end CodeScope

end TreeCompiler
