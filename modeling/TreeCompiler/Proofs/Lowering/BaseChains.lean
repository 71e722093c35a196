import TreeCompiler.Proofs.Lowering.Registration

/-!
# Chains of first bases end

What a type derives from is found by following first bases, without a limit. Declarations may ask for circles; still,
in every state in which they are lowered, the search ends.

* `TypeTable.Search` : the search, as it goes from type to type;
* `TypeTable.iterate_ascend_eq_none` : where no type leads back to itself, a chain is no longer than the table.
-/

namespace TreeCompiler

open Relation (ReflTransGen TransGen)

namespace TypeTable
variable {t : TypeTable} {ancestor id : TypeId} {current : Option TypeId} {answer answer' : Bool} {n n' : Nat}

/-- The search for an ancestor that has come to `current` ends with an answer, after a number of further types. -/
inductive Search (t : TypeTable) (ancestor : TypeId) : Option TypeId → Bool → Nat → Prop where
  | missed : Search t ancestor none false 0
  | found : Search t ancestor (some ancestor) true 0
  | next {id : TypeId} {answer : Bool} {n : Nat} : id ≠ ancestor →
      Search t ancestor (t.get id).baseClass? answer n → Search t ancestor (some id) answer (n + 1)

theorem Search.unique (h : t.Search ancestor current answer n) (h' : t.Search ancestor current answer' n') :
    answer = answer' ∧ n = n' := by
  induction h generalizing n' with
  | missed =>
    cases h'
    exact ⟨rfl, rfl⟩
  | found =>
    cases h' with
    | found => exact ⟨rfl, rfl⟩
    | next hne => exact absurd rfl hne
  | next hne _ ih =>
    cases h' with
    | found => exact absurd rfl hne
    | next _ hrest =>
      obtain ⟨rfl, rfl⟩ := ih hrest
      exact ⟨rfl, rfl⟩

/-- A chain that ends within the fuel is searched to its end. -/
theorem exists_search (ancestor : TypeId) {fuel : Nat} (h : t.ascend^[fuel] (some id) = none) :
    ∃ n ≤ fuel, t.Search ancestor (some id) (t.reaches ancestor fuel id) n := by
  induction fuel generalizing id with
  | zero => cases h
  | succ fuel ih =>
    by_cases hid : id = ancestor
    · subst hid
      refine ⟨0, Nat.zero_le _, ?_⟩
      rw [reaches, beq_self_eq_true, Bool.true_or]
      exact .found
    · rw [reaches, beq_eq_false_iff_ne.mpr hid, Bool.false_or]
      cases hbase : (t.get id).baseClass? with
      | none =>
        refine ⟨1, Nat.succ_le_succ (Nat.zero_le _), .next hid ?_⟩
        rw [hbase]
        exact .missed
      | some base =>
        have hrest : t.ascend^[fuel] (some base) = none := by
          rw [← hbase]
          exact h
        obtain ⟨n, hn, hsearch⟩ := ih hrest
        exact ⟨n + 1, Nat.succ_le_succ hn, .next hid (hbase.symm ▸ hsearch)⟩

theorem transGen_of_iterate {k : Nat} (h : t.ascend^[k + 1] (some id) = some ancestor) :
    TransGen t.FirstBase id ancestor := by
  obtain ⟨base, hbase, hrest⟩ := exists_of_iterate_ascend h
  exact .head' hbase (reflTransGen_iff_iterate.mpr ⟨k, hrest⟩)

/-- If a chain were longer than the table, its last type would stand in it twice. -/
theorem iterate_ascend_eq_none (h : t.Acyclic) (id : TypeId) : t.ascend^[t.size + 1] (some id) = none := by
  by_contra hlong
  obtain ⟨last, hlast⟩ := Option.ne_none_iff_exists'.mp hlong
  obtain ⟨n, hn, hfirst⟩ := exists_iterate_le_size ⟨_, hlast⟩
  rw [show t.size + 1 = (t.size - n) + 1 + n by omega, Function.iterate_add_apply, hfirst] at hlast
  exact h last (transGen_of_iterate hlast)

/-- A chain that ends has a last type. -/
theorem exists_root {k : Nat} (h : t.ascend^[k + 1] (some id) = none) :
    ∃ n ≤ k, ∃ root, t.ascend^[n] (some id) = some root ∧ (t.get root).bases = [] := by
  induction k generalizing id with
  | zero => exact ⟨0, Nat.le_refl 0, id, rfl, List.head?_eq_none_iff.mp h⟩
  | succ k ih =>
    cases hbase : (t.get id).baseClass? with
    | none => exact ⟨0, Nat.zero_le _, id, rfl, List.head?_eq_none_iff.mp hbase⟩
    | some base =>
      have hstep : t.ascend (some id) = some base := hbase
      rw [Function.iterate_succ_apply, hstep] at h
      obtain ⟨n, hn, root, hroot, hbases⟩ := ih h
      refine ⟨n + 1, Nat.succ_le_succ hn, root, ?_, hbases⟩
      rw [Function.iterate_succ_apply, hstep, hroot]

end TypeTable

namespace Compilation

/-- The search along first bases always ends. In every state that the steps of lowering lead to, among them those in
between the bases that one type lists, first bases lead from any type to one without bases, past no more types than
there are. For any two types the search ends, with the one answer that `derivesFrom` gives. -/
theorem base_search_ends (trees : List Tree) (options : Options) :
    (∀ c, Visits trees options c → Run options (start trees options).context c) ∧
    (∀ c module self name bases (exprs : List TypeExpr), Run options (start trees options).context c →
      Run options (start trees options).context (exprs.foldl (Lowering.addBase module self name) (bases, c)).2) ∧
    ∀ c, Run options (start trees options).context c → ∀ type,
      (∃ n ≤ c.types.size, ∃ root, c.types.ascend^[n] (some type) = some root ∧ (c.types.get root).bases = []) ∧
      ∀ ancestor, ∃ n ≤ c.types.size + 1,
        c.types.Search ancestor (some type) (c.types.derivesFrom type ancestor) n ∧
        ∀ answer n', c.types.Search ancestor (some type) answer n' →
          answer = c.types.derivesFrom type ancestor ∧ n' = n := by
  refine ⟨fun c h => (run_of_visits trees options h).1, fun c module self name bases exprs h => ?_,
    fun c h type => ?_⟩
  · exact h.trans ((Lowering.consults_addBases module self name (bases, c) exprs).steps fun _ _ => trivial)
  · have hend := TypeTable.iterate_ascend_eq_none (sound_of_run trees options h).grounded.acyclic type
    refine ⟨TypeTable.exists_root hend, fun ancestor => ?_⟩
    obtain ⟨n, hn, hsearch⟩ := TypeTable.exists_search ancestor hend
    exact ⟨n, hn, hsearch, fun _ _ hother => hother.unique hsearch⟩

/-- Two classes, each under the other. -/
def ringTree : Tree :=
  { module := ⟨["Demo"]⟩
    body := [.type { kind := .classType, name := "A", bases := [.named ⟨["B"]⟩ {}] },
      .type { kind := .classType, name := "B", bases := [.named ⟨["A"]⟩ {}] }] }

theorem base_search_ends_ringTree : ∃ c, Run {} (start [ringTree] {}).context c ∧ ∃ a b,
    c.types.lookup ⟨["Demo", "A"]⟩ = some a ∧ c.types.lookup ⟨["Demo", "B"]⟩ = some b ∧
    c.diagnostics.map Diagnostic.code = [some .invalidInheritance] ∧
    (∃ n, c.types.Search b (some a) true n) ∧ ∃ n, c.types.Search a (some b) false n := by
  obtain ⟨-, -, hends⟩ := base_search_ends [ringTree] {}
  have hrun := run_declared [ringTree] {}
  generalize hc : (declared [ringTree] {}).context = c at hrun
  obtain ⟨a, b, hlookups, hcodes, hup, hdown⟩ : ∃ a b : TypeId,
      (c.types.lookup ⟨["Demo", "A"]⟩ = some a ∧ c.types.lookup ⟨["Demo", "B"]⟩ = some b) ∧
      c.diagnostics.map Diagnostic.code = [some .invalidInheritance] ∧
      c.types.derivesFrom a b = true ∧ c.types.derivesFrom b a = false := by
    subst hc
    exact ⟨⟨Platform.types.size⟩, ⟨Platform.types.size + 1⟩, by decide +kernel⟩
  obtain ⟨n, -, hab, -⟩ := (hends c hrun a).2 b
  obtain ⟨m, -, hba, -⟩ := (hends c hrun b).2 a
  exact ⟨c, hrun, a, b, hlookups.1, hlookups.2, hcodes, ⟨n, hup ▸ hab⟩, m, hdown ▸ hba⟩

end Compilation

end TreeCompiler
