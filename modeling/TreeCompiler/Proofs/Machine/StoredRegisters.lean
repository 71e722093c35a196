import TreeCompiler.Proofs.Machine.Labels
import TreeCompiler.Proofs.Machine.Registers

/-!
# Registers that a method stores to

A method stores what it makes and declares in one register after the other. The first of them follows those of the
parameters, as far as their number fits in its word of two bytes.

* `MethodScope.Writes.stored_eq`, `MethodScope.stored_of_instruction` : an instruction takes the place that it needs,
  and stores to its register.
-/

namespace TreeCompiler.Machine

open List

variable {lines : List Line}

/-- The registers that lines store to, in order. -/
def stored (lines : List Line) : List Register :=
  lines.filterMap Line.stored?

theorem stored_append (lines lines' : List Line) : stored (lines ++ lines') = stored lines ++ stored lines' :=
  filterMap_append

theorem stored_eq_nil (h : ∀ line ∈ lines, line.stored? = none) : stored lines = [] :=
  filterMap_eq_nil_iff.mpr h

theorem stored_push (rs : List Register) : stored (rs.map .push) = [] :=
  stored_eq_nil (forall_mem_map.mpr fun _ _ => rfl)

theorem stored_pop (rs : List Register) : stored (rs.map .pop) = [] :=
  stored_eq_nil (forall_mem_map.mpr fun _ _ => rfl)

theorem stored_callLines (label : String) (count : Nat) (values : List Register) (result : List Line) :
    stored (callLines label count values result) = stored result := by
  rw [callLines, ← singleton_append]
  simp only [stored_append, stored_push, stored_pop, nil_append, append_nil]
  rfl

namespace MethodScope
variable {e : MethodScope} {w w' : Writing} {b : BindingId} {n : Nat}

/-! ## Instructions -/

theorem places_of_holds (h : e.Holds w b n w') :
    w'.places = if .binding b ∈ w.places then w.places else w.places ++ [.binding b] := by
  unfold MethodScope.Holds at h
  split at h
  next k hk => rw [h.2, if_pos (Places.mem_of_number? hk)]
  next hk => rw [if_neg (Places.number?_eq_none_iff.mp hk), h.2.places]

theorem eq_length_of_holds (h : e.Holds w b n w') (hnew : .binding b ∉ w.places) : n = w.places.length := by
  unfold MethodScope.Holds at h
  rw [Places.number?_eq_none_iff.mpr hnew] at h
  exact h.1

section Instruction
variable {id : InstrId} {i : Instruction} {code : List Line} (hread : ∀ b, i = .loadLocal b → .binding b ∈ w.places)
  (hnew : ∀ b, i.declared? = some b → .binding b ∉ w.places)
include hread hnew

theorem Writes.stored_eq (h : e.Writes w id i code w')
    (hplain : ∀ m args, i = .call m args → e.types.isIntrinsic m = false) :
    w'.places = w.places ++ (i.place? e.answers id).toList ∧
      stored code = (i.place? e.answers id).toList.map fun _ => e.placeRegister w.places.length := by
  cases h with
  | constant htakes hplaces =>
    rw [hplaces, htakes.places, htakes.register]
    exact ⟨rfl, rfl⟩
  | load _ htakes | loadArg htakes | binary _ _ htakes | newObject htakes =>
    rw [htakes.places, htakes.register]
    exact ⟨rfl, rfl⟩
  | loadLocal hholds htakes =>
    have hplaces := places_of_holds hholds
    rw [if_pos (hread _ rfl)] at hplaces
    rw [htakes.places, htakes.register, hplaces]
    exact ⟨rfl, rfl⟩
  | declare hholds | declareUnset hholds =>
    rw [places_of_holds hholds, if_neg (hnew _ rfl), eq_length_of_holds hholds (hnew _ rfl)]
    exact ⟨rfl, rfl⟩
  | @call m args _ hyields =>
    have hplace : (Instruction.call m args).place? e.answers id = none := by
      rw [Instruction.place?, answers, hyields, Bool.and_false, if_neg Bool.false_ne_true]
    rw [hplace, stored_callLines]
    exact ⟨(append_nil _).symm, rfl⟩
  | @callResult m args _ _ _ hyields _ htakes =>
    have hplace : (Instruction.call m args).place? e.answers id = some (.value id) := by
      rw [Instruction.place?, answers, hyields, hplain _ _ rfl]
      rfl
    rw [hplace, stored_callLines, htakes.places, htakes.register]
    exact ⟨rfl, rfl⟩

/-- An instruction takes the place that it needs, and stores to the register of it. -/
theorem stored_of_instruction (h : (e.instruction id i).run w = .ok (code, w')) :
    w'.places = w.places ++ (i.place? e.answers id).toList ∧
      stored code = (i.place? e.answers id).toList.map fun _ => e.placeRegister w.places.length := by
  rcases writes_or_operates h with ⟨hplain, hwrites⟩ | ⟨m, args, texts, rfl, hintrinsic, rfl, rfl⟩
  · exact hwrites.stored_eq hread hnew hplain
  · have hplace : (Instruction.call m args).place? e.answers id = none := by
      rw [Instruction.place?, answers, hintrinsic]
      rfl
    rw [hplace]
    exact ⟨(append_nil _).symm, stored_eq_nil (forall_mem_map.mpr fun _ _ => rfl)⟩

end Instruction

/-! ## Methods -/

theorem WritesFlow.stored_eq {flow : Flow} {code : List Line} (h : e.WritesFlow w flow code) :
    ∀ r ∈ stored code, r = .result := by
  cases h with
  | retValue => exact forall_mem_singleton.mpr rfl
  | ret | jump | unreachable => exact forall_mem_nil _

section Straight
variable (hstraight : e.graph.Straight e.types e.decl)
include hstraight

theorem stored_of_instructions {done rest : Script} {codes : List (List Line)}
    (h : (e.instructions rest).run w = .ok (codes, w')) (hsplit : e.body = done ++ rest)
    (hw : w.places = placesOf e.answers done) :
    stored codes.flatten = (placesOf e.answers rest).map e.registerOf := by
  unfold instructions at h
  induction rest generalizing done codes w with
  | nil =>
    cases h
    rfl
  | cons x rest ih =>
    obtain ⟨id, i⟩ := x
    obtain ⟨code, w₁, codes', hcode, hcodes, rfl⟩ := run_mapM_cons h
    obtain ⟨hplaces, hstored⟩ := stored_of_instruction (i := i) (fun b hb => by
        subst hb
        rw [hw]
        exact binding_mem_placesOf_iff.mpr (hstraight.allowed_of_split hsplit))
      (fun b hb => hw ▸ hstraight.notMem_placesOf hsplit (Instruction.place?_eq_binding_iff.mpr hb)) hcode
    have hfirst : stored code = (i.place? e.answers id).toList.map e.registerOf := by
      rw [hstored, hw]
      cases hplace : i.place? e.answers id with
      | none => rfl
      | some p => exact congrArg ([·]) (registerOf_eq hstraight hsplit hplace).symm
    have hw₁ : w₁.places = placesOf e.answers (done ++ [(id, i)]) := by
      rw [hplaces, hw, placesOf_append, placesOf_singleton]
    have hsplit' : e.body = done ++ [(id, i)] ++ rest := by rw [hsplit, append_assoc, singleton_append]
    rw [flatten_cons, stored_append, hfirst, ih hcodes hsplit' hw₁, ← map_append, ← placesOf_singleton,
      ← placesOf_append, singleton_append]

/-- A method stores to the register of each result and variable in turn, and at last perhaps to that of its own
result. -/
theorem stored_of_lines {strings : List String} (h : e.lines.run { strings } = .ok (lines, w')) :
    ∃ last, stored lines = e.needs.map e.registerOf ++ last ∧ ∀ r ∈ last, r = .result := by
  obtain ⟨codes, end_, rfl, hcodes, hend⟩ := lines_eq_of_run hstraight.blocks h
  refine ⟨stored end_, ?_, hend.stored_eq⟩
  have hbody := stored_of_instructions hstraight hcodes (nil_append _).symm rfl
  have hlayout : stored (e.layout codes end_) = stored (codes.flatten ++ end_) := rfl
  rw [hlayout, stored_append, hbody]
  rfl

end Straight

/-! ## The first register -/

/-- The lines of a method store to the register of each result and variable in turn. The first register follows those
of the parameters, whose number is narrowed to two bytes, and so lies above all of them just if it fits. -/
structure Begins (e : MethodScope) (lines : List Line) : Prop where
  stores : ∃ last, stored lines = e.needs.map e.registerOf ++ last ∧ ∀ r ∈ last, r = .result
  first : ∀ p, e.needs.head? = some p → e.registerOf p = ⟨e.arity % countSize + 1⟩ ∧
    ((∀ k < e.arity, (paramRegister k).number < (e.registerOf p).number) ↔ e.arity < countSize)

theorem registerOf_head {p : Place} (h : e.needs.head? = some p) : e.registerOf p = ⟨e.arity % countSize + 1⟩ := by
  obtain ⟨rest, hneeds⟩ := head?_eq_some_iff.mp h
  rw [registerOf, hneeds, idxOf_cons_self]
  rfl

theorem above_params_iff (n : Nat) : (∀ k < n, (paramRegister k).number < n % countSize + 1) ↔ n < countSize := by
  constructor
  · intro h
    by_contra hlarge
    have hwide : countSize ≤ n := Nat.le_of_not_lt hlarge
    have hlast : n - 1 + 1 < n % countSize + 1 :=
      h (n - 1) (Nat.sub_one_lt_of_lt ((by decide : 0 < countSize).trans_le hwide))
    have hmod : n % countSize < countSize := Nat.mod_lt n (by decide)
    omega
  · intro hsmall k hk
    rw [Nat.mod_eq_of_lt hsmall]
    exact Nat.succ_lt_succ hk

theorem begins_of_run (hstraight : e.graph.Straight e.types e.decl) {strings : List String}
    (h : e.lines.run { strings } = .ok (lines, w')) : e.Begins lines where
  stores := stored_of_lines hstraight h
  first p hp := by
    rw [registerOf_head hp]
    exact ⟨rfl, above_params_iff e.arity⟩

end MethodScope

/-! ## Programs -/

theorem infix_of_methodsLines {t : TypeTable} {strings strings' : List String} {refs : List MethodRef}
    (h : methodsLines t strings refs = .ok (lines, strings')) {ref : MethodRef} (href : ref ∈ refs) :
    ∃ before own after, methodLines t before ref = .ok (own, after) ∧ own <:+: lines := by
  induction refs generalizing strings lines with
  | nil => cases href
  | cons other refs ih =>
    obtain ⟨first, middle, others, hfirst, hothers, rfl⟩ := methodsLines_cons_eq_ok h
    rcases mem_cons.mp href with rfl | href
    · exact ⟨strings, first, middle, hfirst, [.blank], others, rfl⟩
    · obtain ⟨before, own, after, hown, hinfix⟩ := ih hothers href
      exact ⟨before, own, after, hown, hinfix.trans ⟨.blank :: first, [], by simp⟩⟩

/-- The static methods of a program begin above their parameters, as far as those are counted. -/
theorem begins_of_machineLines {a : Assembly} (h : a.machineLines = .ok lines)
    (hbodies : ∀ m g, (a.types.method m).body = some g → g.Straight a.types (a.types.method m)) {e : MethodScope}
    (htypes : e.types = a.types) (hdefined : e.method ∈ definedMethods e.types)
    (hstatic : e.decl.isStatic = true) (hbody : e.decl.body = some e.graph) :
    ∃ before own after, methodLines e.types before e.method = .ok (own, after) ∧ own <:+: lines ∧ e.Begins own := by
  obtain ⟨start, methods, strings, -, hmethods, rfl⟩ := machineLines_eq_ok h
  rw [← htypes] at hmethods hbodies
  obtain ⟨before, own, after, hown, hinfix⟩ := infix_of_methodsLines hmethods hdefined
  refine ⟨before, own, after, hown, hinfix.trans ⟨start, dataLines strings, rfl⟩, ?_⟩
  rw [MethodScope.methodLines_eq_map before hstatic hbody] at hown
  cases hrun : e.lines.run { strings := before } with
  | error error =>
    rw [hrun] at hown
    cases hown
  | ok out =>
    rw [hrun] at hown
    cases hown
    exact MethodScope.begins_of_run (hbodies _ _ hbody) hrun

end TreeCompiler.Machine
