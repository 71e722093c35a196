import TreeCompiler.Image.Reference
import Mathlib.Data.List.Nodup
import Mathlib.Data.List.Forall2

/-!
# Where the rows of definitions lie

Definitions are numbered before any of their rows is made. The rows of the type at place `k` of the
definitions lie after those of the types before it.

* `TypeTable.defined_nodup`, `TypeTable.get_of_mem_defined` : a defined type has one place, and its
  definition there is the one in the table.
-/

namespace TreeCompiler

open List

namespace TypeTable
variable {t : TypeTable} {x : TypeId × TypeDef}

/-! ## Places of definitions -/

theorem mem_numbered_iff : x ∈ t.numbered ↔ t.defs[x.1.index]? = some x.2 := by
  unfold numbered
  simp only [mem_map, Prod.exists]
  constructor
  · rintro ⟨d, i, hmem, rfl⟩
    exact mem_zipIdx_iff_getElem?.mp hmem
  · intro h
    exact ⟨x.2, x.1.index, mem_zipIdx_iff_getElem?.mpr h, rfl⟩

theorem get_of_mem_defined (h : x ∈ t.defined) : t.get x.1 = x.2 := by
  have hdef := mem_numbered_iff.mp (mem_of_mem_filter h)
  simp [get, getD_eq_getElem?_getD, hdef]

theorem defined_nodup (t : TypeTable) : (t.defined.map Prod.fst).Nodup := by
  have hnumbered : (t.numbered.map Prod.fst).Nodup := by
    have hids : t.numbered.map Prod.fst = (range' 0 t.defs.length).map TypeId.mk := by
      rw [numbered, map_map, ← zipIdx_map_snd 0 t.defs, map_map]
      rfl
    rw [hids]
    exact (nodup_range' (s := 0) (n := t.defs.length)).map fun i j hij => congrArg TypeId.index hij
  exact hnumbered.sublist (filter_sublist.map _)

/-- Rows of fields before those of the type at place `k`. -/
def fieldsBefore (t : TypeTable) (k : Nat) : Nat :=
  ((t.defined.take k).flatMap (·.2.fields)).length

/-- Rows of methods and accessors before those of the type at place `k`. -/
def methodsBefore (t : TypeTable) (k : Nat) : Nat :=
  ((t.defined.take k).flatMap fun x => x.2.methods ++ x.2.accessors).length

end TypeTable

/-! ## Numbers -/

theorem TypeRows.getElem?_number (row fields methods : Nat) (ds : List (TypeId × TypeDef)) (k : Nat) :
    (number row fields methods ds)[k]? = ds[k]?.map fun x =>
      { type := x.1
        row := row + k + 1
        fieldsBefore := fields + ((ds.take k).flatMap (·.2.fields)).length
        methodsBefore :=
          methods + ((ds.take k).flatMap fun x => x.2.methods ++ x.2.accessors).length } := by
  induction ds generalizing row fields methods k with
  | nil => simp [number]
  | cons d ds ih =>
    cases k with
    | zero => simp [number]
    | succ k =>
      simp only [number, getElem?_cons_succ, ih, TypeDef.methodRowCount, take_succ_cons,
        flatMap_cons, length_append, Nat.add_assoc, Nat.add_comm 1 k]

namespace TypeTable
variable {t : TypeTable} {rows : TypeRows} {type : TypeId}

theorem getElem?_typeRows (t : TypeTable) (k : Nat) : t.typeRows[k]? = t.defined[k]?.map fun x =>
      ⟨x.1, k + 1, t.fieldsBefore k, t.methodsBefore k⟩ := by
  rw [typeRows, TypeRows.getElem?_number]
  simp only [Nat.zero_add, fieldsBefore, methodsBefore]

theorem typeRows_map_type (t : TypeTable) : t.typeRows.map (·.type) = t.defined.map Prod.fst := by
  apply ext_getElem?
  intro k
  rw [getElem?_map, getElem?_map, getElem?_typeRows, Option.map_map]
  rfl

theorem forall₂_defined_of_typeRows (t : TypeTable) {β : Type} {R : TypeId → TypeDef → β → Prop}
    {bs : List β} (h : Forall₂ (fun rows b => R rows.type (t.get rows.type) b) t.typeRows bs) :
    Forall₂ (fun d b => R d.1 d.2 b) t.defined bs := by
  have hids : Forall₂ (fun id b => R id (t.get id) b) (t.defined.map Prod.fst) bs := by
    rw [← typeRows_map_type, forall₂_map_left_iff]
    exact h
  rw [forall₂_map_left_iff] at hids
  have hmem := (forall₂_and_left t.defined bs).mpr ⟨fun _ hd => hd, hids⟩
  refine hmem.imp ?_
  rintro d b ⟨hmem, hR⟩
  rwa [get_of_mem_defined hmem] at hR

theorem rowsOf?_of_mem (h : rows ∈ t.typeRows) : t.rowsOf? rows.type = some rows := by
  have hnodup : (t.typeRows.map (·.type)).Nodup := by
    rw [typeRows_map_type]
    exact t.defined_nodup
  unfold rowsOf?
  generalize t.typeRows = all at h hnodup
  induction all with
  | nil => cases h
  | cons first rest ih =>
    rw [map_cons, nodup_cons] at hnodup
    rcases mem_cons.mp h with rfl | hrest
    · simp
    · have hne : first.type ≠ rows.type := by
        intro heq
        exact hnodup.1 (heq ▸ mem_map_of_mem hrest)
      rw [find?_cons_of_neg (by simpa using hne)]
      exact ih hrest hnodup.2

/-- The numbers of a defined type follow from its place. -/
theorem rowsOf?_eq_some_iff : t.rowsOf? type = some rows ↔ ∃ k d, t.defined[k]? = some (type, d) ∧
      rows = ⟨type, k + 1, t.fieldsBefore k, t.methodsBefore k⟩ := by
  constructor
  · intro h
    obtain ⟨k, hk⟩ := getElem?_of_mem (mem_of_find?_eq_some h)
    have htype : rows.type = type := by simpa using find?_some h
    rw [getElem?_typeRows] at hk
    obtain ⟨⟨id, d⟩, hdef, rfl⟩ := Option.map_eq_some_iff.mp hk
    subst htype
    exact ⟨k, d, hdef, rfl⟩
  · rintro ⟨k, d, hdef, rfl⟩
    have hrows := getElem?_typeRows t k
    rw [hdef] at hrows
    exact rowsOf?_of_mem (mem_of_getElem? hrows)

theorem rowsOf?_eq_none_iff : t.rowsOf? type = none ↔ ∀ d, (type, d) ∉ t.defined := by
  constructor
  · intro h d hmem
    obtain ⟨k, hk⟩ := getElem?_of_mem hmem
    have hsome := rowsOf?_eq_some_iff.mpr ⟨k, d, hk, rfl⟩
    rw [h] at hsome
    cases hsome
  · intro h
    cases hrows : t.rowsOf? type with
    | none => rfl
    | some rows =>
      obtain ⟨k, d, hk, -⟩ := rowsOf?_eq_some_iff.mp hrows
      exact absurd (mem_of_getElem? hk) (h d)

end TypeTable

end TreeCompiler
