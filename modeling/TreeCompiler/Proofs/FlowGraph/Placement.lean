import TreeCompiler.Proofs.Emission
import Mathlib.Data.List.Forall2

/-!
# Places of values and variables

Both targets keep the result of an instruction and every variable in a place of its own. Which places a body
needs can be read from its instructions. Places mirror bindings if what a place holds is what is bound to the
value or to the variable that the place was taken for.

* `FlowGraph.Straight.nodup_placesOf` : a straight body needs different places.
-/

namespace TreeCompiler

namespace Bindings
variable {V : Type} (s : Bindings V)

/-- What the value or the variable of a place is bound to. -/
def get? : Place → Option V
  | .value id => s.values id
  | .binding b => s.locals b

/-- Binds the value or the variable of a place. -/
def put : Place → V → Bindings V
  | .value id, v => s.bind id v
  | .binding b, v => s.declare b v

theorem get?_put_self (p : Place) (v : V) : (s.put p v).get? p = some v := by
  cases p with
  | value id => exact values_bind_self s id v
  | binding b => exact locals_declare_self s b v

theorem get?_put_of_ne {p q : Place} (v : V) (h : q ≠ p) : (s.put p v).get? q = s.get? q := by
  cases p with
  | value id =>
    cases q with
    | value other => exact values_bind_of_ne s v fun heq => h (congrArg Place.value heq)
    | binding b => rfl
  | binding b =>
    cases q with
    | value id => rfl
    | binding other => exact locals_declare_of_ne s v fun heq => h (congrArg Place.binding heq)

end Bindings

namespace Places
variable {V : Type} {ps : Places} {s s' : Bindings V} {held held' : Nat → Option V}

/-- What is in the places is what is bound, and variables that are bound have a place. -/
structure Mirrors (ps : Places) (s : Bindings V) (held : Nat → Option V) : Prop where
  holds : ∀ p n, ps.number? p = some n → ∃ v, held n = some v ∧ s.get? p = some v
  declared : ∀ b, s.locals b ≠ none → ps.number? (.binding b) ≠ none

namespace Mirrors
variable {done : Script} {b : BindingId}

theorem empty (held : Nat → Option V) : Mirrors [] .empty held :=
  ⟨fun _ _ h => (nomatch h), fun _ h => absurd rfl h⟩

variable (h : ps.Mirrors s held)
include h

theorem values (id : InstrId) (n : Nat)
    (hn : ps.number? (.value id) = some n) : ∃ v, held n = some v ∧ s.values id = some v :=
  h.holds (.value id) n hn

theorem locals (b : BindingId) (n : Nat)
    (hn : ps.number? (.binding b) = some n) : ∃ v, held n = some v ∧ s.locals b = some v :=
  h.holds (.binding b) n hn

theorem congr (hvalues : s'.values = s.values) (hlocals : s'.locals = s.locals) : ps.Mirrors s' held := by
  have hget : s'.get? = s.get? := by
    funext p
    cases p with
    | value id => exact congrFun hvalues id
    | binding b => exact congrFun hlocals b
  refine ⟨?_, ?_⟩
  · rw [hget]
    exact h.holds
  · rw [hlocals]
    exact h.declared

theorem of_held (hheld : ∀ n, n < ps.length → held' n = held n) : ps.Mirrors s held' := by
  refine ⟨fun p n hn => ?_, h.declared⟩
  rw [hheld n (lt_length_of_number? hn)]
  exact h.holds p n hn

/-- What the next place is taken for is bound to what the place holds. -/
theorem put {p : Place} {v : V} (hnone : ps.number? p = none)
    (hheld : held ps.length = some v) : (ps ++ [p] : Places).Mirrors (s.put p v) held := by
  refine ⟨?_, ?_⟩
  · intro q n hn
    by_cases heq : q = p
    · subst heq
      rw [number?_append_self hnone] at hn
      cases hn
      exact ⟨v, hheld, s.get?_put_self q v⟩
    · rw [number?_append_of_ne _ heq] at hn
      rw [s.get?_put_of_ne v heq]
      exact h.holds q n hn
  · intro b hb
    by_cases heq : .binding b = p
    · subst heq
      rw [number?_append_self hnone]
      exact Option.some_ne_none _
    · rw [number?_append_of_ne _ heq]
      have hold : s.locals b = (s.put p v).locals b := (s.get?_put_of_ne v heq).symm
      exact h.declared b (hold ▸ hb)

/-- A result that is new has no place. -/
theorem number?_value (hafter : s.After done) {id : InstrId}
    (hfresh : id ∉ done.map Prod.fst) : ps.number? (.value id) = none := by
  cases hnumber : ps.number? (.value id) with
  | none => rfl
  | some n =>
    obtain ⟨v, -, hv⟩ := h.values id n hnumber
    exact absurd (hafter.values id (by simp [hv])) hfresh

/-- A variable that is new has no place. -/
theorem number?_binding (hafter : s.After done) (hfresh : b ∉ declaredBy done) : ps.number? (.binding b) = none := by
  cases hnumber : ps.number? (.binding b) with
  | none => rfl
  | some n =>
    obtain ⟨v, -, hv⟩ := h.locals b n hnumber
    exact absurd ((hafter.locals b).mp (by simp [hv])) hfresh

theorem exists_number?_binding (hafter : s.After done)
    (hdeclared : b ∈ declaredBy done) : ∃ n, ps.number? (.binding b) = some n :=
  Option.ne_none_iff_exists'.mp (h.declared b ((hafter.locals b).mpr hdeclared))

theorem mapM_values {ids : List InstrId} {ns : List Nat}
    (hplaces : List.Forall₂ (fun id n => ps.number? (.value id) = some n) ids ns) :
    ∃ vs, ids.mapM s.values = some vs ∧ List.Forall₂ (fun n v => held n = some v) ns vs := by
  induction hplaces with
  | nil => exact ⟨[], rfl, .nil⟩
  | @cons id n ids ns hn _ ih =>
    obtain ⟨v, hheld, hv⟩ := h.values id n hn
    obtain ⟨vs, hvs, hall⟩ := ih
    refine ⟨v :: vs, ?_, .cons hheld hall⟩
    rw [List.mapM_cons, hv, hvs]
    rfl

end Mirrors

end Places

/-! ## Places that a body needs -/

open List

/-- The place that an instruction needs, for its result or for the variable that it declares. A call needs one
if its method has a result. -/
def Instruction.place? (yields : MethodRef → Bool) (id : InstrId) : Instruction → Option Place
  | .alloca b _ _ => some (.binding b)
  | .call m _ => if yields m then some (.value id) else none
  | .storeField .. => none
  | _ => some (.value id)

/-- The places that instructions need, in order. -/
def placesOf (yields : MethodRef → Bool) (is : Script) : Places :=
  is.filterMap fun x => x.2.place? yields x.1

variable {yields : MethodRef → Bool} {is done rest : Script} {id : InstrId} {i : Instruction}

theorem placesOf_append (yields : MethodRef → Bool) (is js : Script) :
    placesOf yields (is ++ js) = placesOf yields is ++ placesOf yields js :=
  filterMap_append

theorem placesOf_singleton (yields : MethodRef → Bool) (id : InstrId) (i : Instruction) :
    placesOf yields [(id, i)] = (i.place? yields id).toList := by
  cases h : i.place? yields id with
  | none => exact filterMap_cons_none h
  | some p => exact filterMap_cons_some h

theorem placesOf_concat_some {p : Place} (h : i.place? yields id = some p) :
    placesOf yields (is ++ [(id, i)]) = placesOf yields is ++ [p] := by
  rw [placesOf_append, placesOf_singleton, h]
  rfl

theorem placesOf_concat_none (h : i.place? yields id = none) :
    placesOf yields (is ++ [(id, i)]) = placesOf yields is := by
  rw [placesOf_append, placesOf_singleton, h]
  exact append_nil _

namespace Instruction

theorem place?_of_isValue (h : i.isValue = true ∨ i.makesObject = true) : i.place? yields id = some (.value id) := by
  cases i <;> first | rfl | (rcases h with h | h <;> cases h)

theorem place?_eq_binding_iff {b : BindingId} : i.place? yields id = some (.binding b) ↔ i.declared? = some b := by
  cases i with
  | call m args => by_cases hm : yields m <;> simp [place?, declared?, hm]
  | _ => simp [place?, declared?]

theorem eq_of_place?_eq_value {id' : InstrId} (h : i.place? yields id = some (.value id')) : id' = id := by
  cases i with
  | call m args =>
    by_cases hm : yields m
    · simpa [place?, hm] using h.symm
    · simp [place?, hm] at h
  | _ => simp_all [place?]

end Instruction

theorem binding_mem_placesOf_iff {b : BindingId} : .binding b ∈ placesOf yields is ↔ b ∈ declaredBy is := by
  simp [placesOf, declaredBy, mem_filterMap, Instruction.place?_eq_binding_iff]

theorem mem_map_fst_of_value_mem_placesOf (h : .value id ∈ placesOf yields is) : id ∈ is.map Prod.fst := by
  obtain ⟨x, hx, hplace⟩ := mem_filterMap.mp h
  rw [Instruction.eq_of_place?_eq_value hplace]
  exact mem_map_of_mem hx

namespace Places
variable {ps : Places} {p : Place} {n : Nat}

theorem number?_eq_none_iff : ps.number? p = none ↔ p ∉ ps := by
  rw [number?, findIdx?_eq_none_iff]
  simp only [beq_eq_false_iff_ne, ne_eq]
  exact ⟨fun h hp => h p hp rfl, fun h q hq heq => h (heq ▸ hq)⟩

theorem isSome_number?_iff : (ps.number? p).isSome = true ↔ p ∈ ps := by
  rw [Option.isSome_iff_ne_none, ne_eq, number?_eq_none_iff, not_not]

theorem mem_of_number? (h : ps.number? p = some n) : p ∈ ps := by
  rw [← isSome_number?_iff, h]
  rfl

theorem idxOf_of_number? (h : ps.number? p = some n) : ps.idxOf p = n :=
  (findIdx?_eq_some_iff_findIdx_eq.mp h).2

end Places

theorem covers_placesOf (yields : MethodRef → Bool) (done : Script) : (placesOf yields done).Covers done := by
  intro x hx hmade
  rw [Places.isSome_number?_iff]
  exact mem_filterMap.mpr ⟨x, hx, Instruction.place?_of_isValue hmade⟩

namespace FlowGraph.Straight
variable {t : TypeTable} {m : Method} {g : FlowGraph}

/-- The place of an instruction is not one of those before it. -/
theorem notMem_placesOf (h : g.Straight t m) {p : Place} (hsplit : g.script = done ++ (id, i) :: rest)
    (hplace : i.place? yields id = some p) : p ∉ placesOf yields done := by
  cases p with
  | value id' =>
    obtain rfl := Instruction.eq_of_place?_eq_value hplace
    exact fun hmem => h.fresh hsplit (mem_map_fst_of_value_mem_placesOf hmem)
  | binding b =>
    obtain ⟨type, init, rfl⟩ := declared?_eq_some_iff.mp (Instruction.place?_eq_binding_iff.mp hplace)
    rw [binding_mem_placesOf_iff]
    exact h.allowed_of_split hsplit

theorem nodup_placesOf (h : g.Straight t m) (yields : MethodRef → Bool) : (placesOf yields g.script).Nodup := by
  -- the induction is on the instructions that are done
  have hdone : ∀ done rest, g.script = done ++ rest → (placesOf yields done).Nodup := by
    intro done
    induction done using reverseRecOn with
    | nil => exact fun _ _ => nodup_nil
    | append_singleton done x ih =>
      intro rest hsplit
      rw [append_assoc] at hsplit
      have hbefore := ih _ hsplit
      cases hplace : x.2.place? yields x.1 with
      | none =>
        rw [placesOf_concat_none hplace]
        exact hbefore
      | some p =>
        rw [placesOf_concat_some hplace]
        exact concat_eq_append ▸ hbefore.concat (h.notMem_placesOf hsplit hplace)
  exact hdone _ [] (append_nil _).symm

end FlowGraph.Straight

end TreeCompiler
