import TreeCompiler.Proofs.Lowering.Declarations

/-!
# Declarations one after the other

Trees are lowered declaration by declaration: where one tree ends and the next one begins makes no
difference.

* `declarations` : the declarations of some trees, each with its module.
-/

namespace TreeCompiler

open List Tree Lowering
variable (trees : List Tree)

structure Declaration where
  module : QualifiedName
  decl : Decl

def Tree.declarations : List Declaration :=
  trees.flatMap fun t => t.body.map (⟨t.module, ·⟩)

theorem Tree.mem_declarations {trees : List Tree} {d : Declaration} :
    d ∈ declarations trees ↔ ∃ t ∈ trees, t.module = d.module ∧ d.decl ∈ t.body := by
  obtain ⟨module, d⟩ := d
  simp only [declarations, mem_flatMap, mem_map, Declaration.mk.injEq]
  constructor
  · rintro ⟨t, ht, d', hd, hmodule, rfl⟩
    exact ⟨t, ht, hmodule, hd⟩
  · rintro ⟨t, ht, hmodule, hd⟩
    exact ⟨t, ht, d, hd, hmodule, rfl⟩

theorem Tree.flatMap_declarations {γ : Type} (g : QualifiedName → Decl → List γ) (trees : List Tree) :
    (trees.flatMap fun t => t.body.flatMap (g t.module)) =
      (declarations trees).flatMap fun d => g d.module d.decl := by
  simp only [declarations, flatMap_assoc, flatMap_map]

theorem Tree.flatMap_typeNames :
    trees.flatMap typeNames = (declarations trees).flatMap fun d => d.decl.typeNames d.module :=
  flatMap_declarations Decl.typeNames trees

namespace Context
variable (c : Context)

/-- Registers the types of declarations, one declaration after the other. -/
def declareAll (ds : List Declaration) : List Declared × Context :=
  traverse (fun c d => d.decl.declare d.module c) c ds

/-! ## Runs over lists -/

section Traverse
variable {σ α β γ : Type} (f : σ → α → β × σ) (s : σ)

theorem traverse_cons (a : α) (as : List α) : traverse f s (a :: as) =
      ((f s a).1 :: (traverse f (f s a).2 as).1, (traverse f (f s a).2 as).2) :=
  rfl

theorem traverse_append (as bs : List α) :
    traverse f s (as ++ bs) = ((traverse f s as).1 ++ (traverse f (traverse f s as).2 bs).1,
      (traverse f (traverse f s as).2 bs).2) := by
  induction as generalizing s with
  | nil => rfl
  | cons a as ih =>
    rw [cons_append, traverse_cons, traverse_cons, ih]
    rfl

theorem traverse_map (f : σ → β → γ × σ) (g : α → β) (s : σ) (as : List α) :
    traverse f s (as.map g) = traverse (fun s a => f s (g a)) s as := by
  induction as generalizing s with
  | nil => rfl
  | cons a as ih =>
    rw [map_cons, traverse_cons, traverse_cons, ih]

@[simp] theorem length_traverse (as : List α) : (traverse f s as).1.length = as.length := by
  induction as generalizing s with
  | nil => rfl
  | cons a as ih => exact congrArg (· + 1) (ih (f s a).2)

end Traverse

@[simp] theorem length_declareAll (ds : List Declaration) : (c.declareAll ds).1.length = ds.length :=
  length_traverse _ c ds

theorem declareAll_append (ds ds' : List Declaration) :
    c.declareAll (ds ++ ds') = ((c.declareAll ds).1 ++ ((c.declareAll ds).2.declareAll ds').1,
      ((c.declareAll ds).2.declareAll ds').2) :=
  traverse_append _ c ds ds'

end Context

theorem Tree.declare_eq (c : Context) (t : Tree) : t.declare c = c.declareAll (t.body.map (⟨t.module, ·⟩)) :=
  (Context.traverse_map (fun (c : Context) (d : Declaration) => d.decl.declare d.module c)
    (Declaration.mk t.module) c t.body).symm

namespace Lowering
variable (l : Lowering)

/-- Fills in what declarations registered, one declaration after the other. -/
def fillAll (ds : List (Declaration × Declared)) : Lowering :=
  ds.foldl (fun l d => fill d.1.module l (d.1.decl, d.2)) l

theorem fillAll_append (ds ds' : List (Declaration × Declared)) :
    l.fillAll (ds ++ ds') = (l.fillAll ds).fillAll ds' :=
  foldl_append

theorem fillTree_eq (t : Tree) (declared : List Declared) :
    l.fillTree (t, declared) = l.fillAll ((t.body.map (⟨t.module, ·⟩)).zip declared) := by
  rw [fillTree, fillAll, zip_map_left, foldl_map]
  rfl

end Lowering

namespace Context
variable (c : Context)

/-- What trees register is what their declarations register, and it is filled in in the same order. -/
theorem fillTrees_eq (l : Lowering) (trees : List Tree) :
    (traverse declare c trees).2 = (c.declareAll (declarations trees)).2 ∧
      (trees.zip (traverse declare c trees).1).foldl fillTree l =
        l.fillAll ((declarations trees).zip (c.declareAll (declarations trees)).1) := by
  induction trees generalizing c l with
  | nil => exact ⟨rfl, rfl⟩
  | cons t trees ih =>
    have hdeclarations : declarations (t :: trees) = t.body.map (⟨t.module, ·⟩) ++ declarations trees := flatMap_cons
    obtain ⟨hstate, hfill⟩ := ih (t.declare c).2 (l.fillTree (t, (t.declare c).1))
    have hlength : (t.body.map (Declaration.mk t.module)).length = (t.declare c).1.length := by
      rw [t.declare_eq, length_declareAll]
    rw [hdeclarations, declareAll_append, ← t.declare_eq]
    refine ⟨hstate, ?_⟩
    rw [zip_append hlength, fillAll_append, ← fillTree_eq]
    exact hfill

/-- Trees are lowered declaration by declaration, twice. -/
theorem lowerDeclarations_eq (trees : List Tree) : c.lowerDeclarations trees =
      fillAll { context := (c.declareAll (declarations trees)).2 }
        ((declarations trees).zip (c.declareAll (declarations trees)).1) := by
  obtain ⟨hstate, hfill⟩ := c.fillTrees_eq { context := (traverse declare c trees).2 } trees
  rw [← hstate]
  exact hfill

/-- Declarations register what they say, where their names are not taken. -/
theorem declaring_declareAll {π : Permit} (ds : List Declaration)
    (hnames : ∀ n ∈ ds.flatMap fun d => d.decl.typeNames d.module, π.names n) :
    c.Declaring π (c.declareAll ds).2 ((c.declareAll ds).1.flatMap Declared.ids) ∧
      ∀ d ∈ ds.zip (c.declareAll ds).1, d.1.decl.Registered (c.declareAll ds).2.types.Holds d.1.module d.2 := by
  obtain ⟨hdeclaring, hregistered⟩ := declaring_traverse (π := π)
    Declared.ids (P := fun t (d : Declaration) declared => d.decl.Registered t.Holds d.module declared)
    (fun _ _ _ _ hextends hd => hd.imp fun _ _ hholds => hholds.mono hextends) ds
    (fun c d hd => d.decl.declaring_declare d.module c fun n hn =>
      hnames n (mem_flatMap.mpr ⟨d, hd, hn⟩)) c
  exact ⟨hdeclaring, fun d hd => (forall₂_iff_zip.mp hregistered).2 hd⟩

end Context

end TreeCompiler
