import TreeCompiler.Proofs.Lowering.Steps

/-!
# The index of a type table

A table may keep an index of names beside its types, and look names up in the index alone.

* `IndexedTable.Agrees` : the index finds a name where a search among the types finds it;
* `Agrees.insert`, `Agrees.modify` : it is still so after a type is registered, and after a type is changed that
  keeps its name.
-/

namespace TreeCompiler

open List TypeTable

/-- A name is looked up after a type was registered under a new name. -/
theorem TypeTable.lookup_append {t : TypeTable} {d : TypeDef} (hfree : t.lookup d.name = none) (name : QualifiedName) :
    lookup { defs := t.defs ++ [d] } name = if name = d.name then some ⟨t.size⟩ else t.lookup name := by
  have hnone : t.defs.findIdx? (·.name == d.name) = none := Option.map_eq_none_iff.mp hfree
  unfold lookup
  rw [findIdx?_append]
  by_cases hname : name = d.name
  · subst hname
    rw [hnone, if_pos rfl]
    simp [size]
  · have hother : (d.name == name) = false := beq_false_of_ne (Ne.symm hname)
    rw [if_neg hname]
    simp [findIdx?_cons, hother]

theorem TypeTable.Keeps.lookup_eq {t t' : TypeTable} (h : t.Keeps t') (hsize : t'.size = t.size)
    (name : QualifiedName) : t'.lookup name = t.lookup name := by
  cases hfound : t.lookup name with
  | some id => exact h.lookup hfound
  | none =>
    rw [lookup_eq_none_iff] at hfound ⊢
    intro id hid
    rw [hsize] at hid
    exact h.name hid ▸ hfound id hid

structure IndexedTable where
  defs : List TypeDef := []
  /-- The latest name comes first. -/
  byName : List (QualifiedName × TypeId) := []

namespace IndexedTable
variable {x : IndexedTable}

def lookup (x : IndexedTable) (name : QualifiedName) : Option TypeId :=
  x.byName.lookup name

def insert (x : IndexedTable) (d : TypeDef) : Except TypeId (TypeId × IndexedTable) :=
  match x.lookup d.name with
  | some existing => .error existing
  | none => .ok (⟨x.defs.length⟩, ⟨x.defs ++ [d], (d.name, ⟨x.defs.length⟩) :: x.byName⟩)

def modify (x : IndexedTable) (id : TypeId) (f : TypeDef → TypeDef) : IndexedTable :=
  { x with defs := x.defs.modify id.index f }

/-- The types by themselves. -/
def table (x : IndexedTable) : TypeTable :=
  { defs := x.defs }

def Agrees (x : IndexedTable) : Prop :=
  ∀ name, x.lookup name = x.table.lookup name

/-- A type is registered in a table with an index as it is in the table, and the index stays right. -/
theorem Agrees.insert (h : x.Agrees) (d : TypeDef) :
    (x.insert d).map (Prod.map id table) = x.table.insert d ∧ ∀ y, x.insert d = .ok y → y.2.Agrees := by
  unfold IndexedTable.insert TypeTable.insert
  rw [h]
  cases hfree : x.table.lookup d.name with
  | some existing => exact ⟨rfl, fun _ hy => by cases hy⟩
  | none =>
    refine ⟨rfl, fun y hy name => ?_⟩
    cases hy
    change ((d.name, _) :: x.byName).lookup name = TypeTable.lookup { defs := x.table.defs ++ [d] } name
    rw [lookup_cons, lookup_append hfree, ← h name]
    by_cases hname : name = d.name
    · subst hname
      rw [beq_self_eq_true, if_pos rfl]
      rfl
    · rw [beq_false_of_ne hname, if_neg hname]
      rfl

/-- A type is changed in place, and under its name. -/
theorem Agrees.modify (h : x.Agrees) {id : TypeId} {f : TypeDef → TypeDef}
    (hkeeps : x.table.Keeps (x.table.modify id f)) : (x.modify id f).Agrees :=
  fun name => (h name).trans (hkeeps.lookup_eq (size_modify _ _ _) name).symm

/-- The types of a list, registered one after the other. -/
def ofList (ds : List TypeDef) : IndexedTable :=
  ds.foldl (fun x d => ((x.insert d).toOption.map Prod.snd).getD x) {}

theorem Agrees.ofList (ds : List TypeDef) : (ofList ds).Agrees := by
  refine foldlRecOn (motive := Agrees) ds _ (fun _ => rfl) fun x hx d _ => ?_
  cases hinsert : x.insert d with
  | error existing => exact hx
  | ok y => exact (hx.insert d).2 y hinsert

end IndexedTable

end TreeCompiler
