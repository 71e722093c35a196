import TreeCompiler.Proofs.Lowering.Scoping
import TreeCompiler.Proofs.Lowering.Storing

/-!
# Types as they are filled in

Each type is filled in by its own declaration. Other declarations leave it alone, but for functions, which go
into the type that holds them, whatever that was declared as. So all of a type but its methods is at last what
its declaration has made of it, and its methods are only added to.

* `Compilation.filled_of_registrations` : a declaration of a program from the state in which it is filled in to
  the end.
-/

namespace TreeCompiler

open List Lowering Context TypeDef TypeTable

/-- All of a type but its methods. -/
def TypeDef.shell (d : TypeDef) : TypeDef :=
  { d with methods := [] }

theorem TypeTable.shell_get_addMethod (t : TypeTable) (owner id : TypeId) (m : Method) :
    ((t.addMethod owner m).2.get id).shell = (t.get id).shell := by
  rcases t.get_modify_cases owner (fun d => { d with methods := d.methods ++ [m] }) id with
    hsame | ⟨-, -, hnew⟩
  · exact congrArg shell hsame
  · exact Eq.trans (congrArg shell hnew) rfl

theorem TypeTable.methodEntry_of_prefix {t t' : TypeTable} {m : MethodRef} {c : Method}
    (h : (t.get m.type).methods <+: (t'.get m.type).methods) (hc : t.methodEntry m = .ok c) :
    t'.methodEntry m = .ok c := by
  obtain ⟨rest, hrest⟩ := h
  rw [methodEntry, Defect.entry_eq_ok_iff] at hc ⊢
  rw [← hrest, List.getElem?_append_left (List.getElem?_eq_some_iff.mp hc).1]
  exact hc

/-- Any change, but the only type that is registered, apart from delegates, is the one that holds the functions. -/
def Grant.filling : Grant :=
  ⟨⟨fun _ => True, (· = programName), fun _ => True⟩, fun _ => True, False, False⟩

/-- Any change that leaves one type. -/
def Grant.sparing (id : TypeId) : Grant :=
  ⟨⟨fun _ => True, fun _ => True, (· ≠ id)⟩, fun _ => True, False, False⟩

namespace Context
variable {π : Grant} {c c' : Context} {id : TypeId}

theorem Fill.get_eq (h : c.Fill (.sparing id) c') (hid : id.index < c.types.size) :
    c'.types.get id = c.types.get id := by
  rcases h.types_cases with hadds | ⟨d, -, -, -, heq⟩ | ⟨type, f, htype, heq, -⟩
  · exact hadds.extends.get_eq hid
  · exact heq ▸ c.types.get_append_of_lt d hid
  · exact heq ▸ c.types.get_modify_of_ne type f id (Ne.symm htype)

theorem Fill.methods (h : c.Fill π c') (id : TypeId) : (c.types.get id).methods <+: (c'.types.get id).methods := by
  rcases h.methods_cases with hsame | ⟨owner, m, -, htypes, -⟩
  · exact hsame id ▸ prefix_rfl
  · rw [htypes]
    rcases c.types.methods_get_modify owner (fun d => { d with methods := d.methods ++ [m] }) id with
      hsame | ⟨rfl, hnew⟩
    · exact hsame.symm ▸ prefix_rfl
    · exact hnew ▸ prefix_append _ _

namespace Fills

theorem get_eq (h : c.Fills (.sparing id) c') (hid : id.index < c.types.size) : c'.types.get id = c.types.get id := by
  induction h with
  | refl => rfl
  | tail hinit hlast ih => exact (hlast.get_eq (hid.trans_le (keeps hinit).size)).trans ih

theorem methods (h : c.Fills π c') (id : TypeId) : (c.types.get id).methods <+: (c'.types.get id).methods := by
  induction h with
  | refl => exact prefix_rfl
  | tail _ hlast ih => exact ih.trans (hlast.methods id)

theorem diagnostics (h : c.Fills π c') : c.diagnostics <+: c'.diagnostics := by
  induction h with
  | refl => exact prefix_rfl
  | tail _ hlast ih => exact ih.trans hlast.diagnostics

end Fills

end Context

namespace Lowering
variable {l : Lowering} {id : TypeId}

/-! ## Declarations of other types -/

theorem shell_addFunction (hid : id.index < l.context.types.size) (module : QualifiedName) (d : FnDecl) :
    ((l.addFunction module d).context.types.get id).shell = (l.context.types.get id).shell := by
  obtain ⟨entry, heq⟩ := l.addFunction_eq_addMethod module d
  have hprogram := extends_programType l.context
  have hlt := hid.trans_le hprogram.evolves.keeps.size
  rw [heq, ← hprogram.get_eq hid]
  generalize (if d.name = "main" then entryName else d.name) = name
  have hmethod := (instantiates_method module (programType l.context).1 (programType l.context).2 d name
    true).extends.get_eq hlt
  rcases (l.withContext (programType l.context).2).addMethod_cases module (programType l.context).1 d name true
    with ⟨-, -, -, htypes⟩ | htypes
  · exact (congrArg (fun t => (get t id).shell) htypes).trans (congrArg shell hmethod)
  · exact (congrArg (fun t => (get t id).shell) htypes).trans
      ((shell_get_addMethod _ _ _ _).trans (congrArg shell hmethod))

/-- A declaration leaves the types that it did not register, but for their methods. -/
theorem shell_fill {module : QualifiedName} {d : Decl} {declared : Declared}
    (hdeclared : d.Registered (fun id _ => id.index < l.context.types.size) module declared)
    (hid : id.index < l.context.types.size) (hother : id ∉ declared.ids) :
    ((fill module l (d, declared)).context.types.get id).shell = (l.context.types.get id).shell := by
  by_cases hfn : ∃ f, d = .fn f
  · obtain ⟨f, rfl⟩ := hfn
    exact shell_addFunction hid module f
  · have hedits : l.context.Edits (.sparing id) (fill module l (d, declared)).context :=
      edits_fill (π := .sparing id) module d nofun nofun declared (fun _ _ => trivial) (fun f hf => absurd ⟨f, hf⟩ hfn)
        (hdeclared.imp_of_mem fun other hmem _ _ hlt =>
          ⟨fun heq => hother (heq ▸ hmem), trivial, hlt, nofun⟩)
    exact congrArg shell (hedits.fills.get_eq hid)

theorem shell_fillAll {ds : List (Declaration × Declared)}
    (hds : ∀ d ∈ ds, d.1.decl.Registered (fun id _ => id.index < l.context.types.size) d.1.module d.2)
    (hid : id.index < l.context.types.size) (hother : ∀ d ∈ ds, id ∉ d.2.ids) :
    ((l.fillAll ds).context.types.get id).shell = (l.context.types.get id).shell := by
  induction ds generalizing l with
  | nil => rfl
  | cons d ds ih =>
    have hfirst := hds d mem_cons_self
    have hsize := (keeps_fill d.1.module l hfirst).size
    refine (ih (fun d' hd' => ?_) (hid.trans_le hsize) fun d' hd' =>
      hother d' (mem_cons_of_mem _ hd')).trans (shell_fill hfirst hid (hother d mem_cons_self))
    exact (hds d' (mem_cons_of_mem _ hd')).imp fun _ _ hlt => hlt.trans_le hsize

end Lowering

/-! ## Programs -/

namespace Compilation
variable {trees : List Tree} {options : Options} {before after : List (Declaration × Declared)}
  {module : QualifiedName} {d : Decl} {declared' : Declared}

/-- States in which declarations of a program are filled in. -/
abbrev Filling (trees : List Tree) (options : Options) (c : Context) : Prop :=
  (allRegistered trees options).Fills .filling c

/-- `id` is what the annotation gives in a state in which declarations are filled in, or the default where there
is no annotation. -/
def Annotates (trees : List Tree) (options : Options) (module : QualifiedName) (default : Option TypeId)
    (written : Option TypeExpr) (id : Option TypeId) : Prop :=
  match written with
  | some type => ∃ c, Filling trees options c ∧ (resolveTypeExpr module c type).1 = id
  | none => id = default

/-- From the state `c`, in which a declaration is filled in, to the state `c'` after that: a type that it
registered is `start` in `c`, but for methods, and from `c'` on it gets methods only. -/
structure Fashions (trees : List Tree) (options : Options) (c c' : Context) (id : TypeId) (start : TypeDef) :
    Prop where
  lt_size : id.index < c.types.size
  start : (c.types.get id).shell = start.shell
  shell : ((lowered trees options).assembly.types.get id).shell = (c'.types.get id).shell
  /-- Methods that have their bodies stay as they are. -/
  methods : ∀ k m, c'.types.methodEntry ⟨id, k⟩ = .ok m → m.body.isSome = true →
    (lowered trees options).assembly.types.methodEntry ⟨id, k⟩ = .ok m

theorem nodup_registrations (trees : List Tree) (options : Options) :
    ((registrations trees options).flatMap (·.2.ids)).Nodup := by
  rw [← flatMap_map, map_snd_zip (by rw [length_declareAll])]
  exact (brings_declareAll _ _).nodup

theorem registered_of_mem {e : Declaration × Declared} (he : e ∈ registrations trees options) :
    e.1.decl.Registered (allRegistered trees options).types.Holds e.1.module e.2 :=
  registered_declareAll _ _ e he

theorem Filling.fillAll {l : Lowering} (hl : Filling trees options l.context)
    {ds : List (Declaration × Declared)} (hds : ∀ e ∈ ds, e ∈ registrations trees options) :
    l.context.Fills .filling (l.fillAll ds).context :=
  (edits_fillAll (π := .filling) nofun rfl (fun _ _ _ _ => trivial) nofun (fun _ _ _ _ => trivial)
    fun e he => (registered_of_mem (hds e he)).imp fun _ _ hholds =>
      ⟨trivial, trivial, hholds.1.trans_le (Fills.keeps hl).size, nofun⟩).fills

theorem declared_eq (trees : List Tree) (options : Options) :
    declared trees options = fillAll { context := allRegistered trees options } (registrations trees options) := by
  rw [declared, lowerDeclarations_eq]

variable (h : registrations trees options = before ++ (⟨module, d⟩, declared') :: after)
include h

theorem not_mem_ids_of_registrations {id : TypeId} (hid : id ∈ declared'.ids) :
    ∀ other ∈ before ++ after, id ∉ other.2.ids := by
  have hids := nodup_registrations trees options
  rw [h, flatMap_append, flatMap_cons] at hids
  obtain ⟨-, hrest, hbefore⟩ := nodup_append.mp hids
  obtain ⟨-, -, hafter⟩ := nodup_append.mp hrest
  intro other hother hmem
  rcases mem_append.mp hother with hother | hother
  · exact hbefore id (mem_flatMap.mpr ⟨other, hother, hmem⟩) id (mem_append_left _ hid) rfl
  · exact hafter id hid id (mem_flatMap.mpr ⟨other, hother, hmem⟩) rfl

theorem nodup_ids_of_registrations : declared'.ids.Nodup := by
  have hids := nodup_registrations trees options
  rw [h, flatMap_append, flatMap_cons] at hids
  exact (nodup_append.mp (nodup_append.mp hids).2.1).1

theorem filled_of_registrations {l : Lowering} (hl : fillAll { context := allRegistered trees options } before = l) :
    Filling trees options l.context ∧
      d.Registered (Fashions trees options l.context (fill module l (d, declared')).context) module declared' ∧
      (fill module l (d, declared')).context.types.Keeps (lowered trees options).assembly.types ∧
      (fill module l (d, declared')).context.diagnostics <+: (lowered trees options).diagnostics := by
  have hall : ∀ e ∈ before ++ (⟨module, d⟩, declared') :: after, e ∈ registrations trees options :=
    fun e he => h ▸ he
  have hbefore : Filling trees options l.context :=
    hl ▸ Filling.fillAll (l := { context := _ }) .refl fun e he => hall e (mem_append_left _ he)
  have hfirst := hbefore.fillAll fun e (he : e ∈ [(⟨module, d⟩, declared')]) => hall e (by simp_all)
  have hown : Filling trees options (fill module l (d, declared')).context := hbefore.trans hfirst
  have hafter := hown.fillAll fun e (he : e ∈ after) => hall e (by simp_all)
  have hdeclared : declared trees options = (fill module l (d, declared')).fillAll after := by
    rw [declared_eq, h, fillAll_append, hl]
    rfl
  rw [← hdeclared] at hafter
  have hkeeps := ((declared trees options).context.evolves_lowerBodies (declared trees options).queue).keeps
  obtain ⟨es, -, haccounts⟩ := accounts_lowerDeclarations trees options
  refine ⟨hbefore, ?_, hafter.keeps.trans hkeeps, hafter.diagnostics.trans (prefix_diagnostics_lowerBodies _ _)⟩
  refine (registered_of_mem (hall (⟨module, d⟩, declared') (by simp))).imp_of_mem fun id hid start _ hholds => ?_
  have hother := not_mem_ids_of_registrations h hid
  have hlt := hholds.1.trans_le hbefore.keeps.size
  have hlater := hholds.1.trans_le hown.keeps.size
  refine ⟨hlt, ?_, ?_, fun k m hm hbody => ?_⟩
  · rw [← hl, ← hholds.2]
    exact shell_fillAll (fun e he => (registered_of_mem (hall e (mem_append_left _ he))).imp fun _ _ h => h.1)
      hholds.1 fun e he => hother e (mem_append_left _ he)
  · have hshell := shell_fillAll (l := fill module l (d, declared'))
      (fun e he => (registered_of_mem (hall e (by simp_all))).imp fun _ _ h =>
        h.1.trans_le hown.keeps.size) hlater fun e he => hother e (mem_append_right _ he)
    rw [← hdeclared] at hshell
    rw [← hshell]
    exact Eq.trans (congrArg shell (haccounts.completed.types id (hlater.trans_le hafter.keeps.size))) rfl
  · have hmethod := methodEntry_of_prefix (hafter.methods id) hm
    refine (methodEntry_lowerBodies_iff _ (declared trees options).queue ⟨id, k⟩ m).mpr ⟨m, hmethod, ?_⟩
    have hnone : (declared trees options).context.bodies (declared trees options).queue ⟨id, k⟩ = none := by
      refine Option.not_isSome_iff_eq_none.mp fun hsome => ?_
      obtain ⟨p, hp, hplace⟩ := mem_map.mp ((isSome_bodies_iff _ _ _).mp hsome)
      obtain ⟨m', hm', hempty, -⟩ := haccounts.methodEntry_of_mem_queue hp
      rw [hplace] at hm'
      cases hmethod.symm.trans hm'
      rw [hempty] at hbody
      cases hbody
    rw [hnone]
    rfl

end Compilation

end TreeCompiler
