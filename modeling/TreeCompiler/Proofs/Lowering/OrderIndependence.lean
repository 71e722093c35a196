import TreeCompiler.Proofs.Lowering.FirstBases
import TreeCompiler.Proofs.Lowering.Storing

/-!
# The order of declarations

All types are registered before any type name is looked up. So where no two types have the same name, a
type name means the same in whatever order trees and declarations stand. There is one exception: the type
that holds the functions, and delegates, are registered when they are first used, and a name that is theirs
finds them only from then on.
-/

namespace TreeCompiler

open List Tree Option TypeTable Context Written

variable {γ : Type} {trees : List Tree} {d : Decl}

open TypeTable (Stores)
open Context (delegateName delegateInstance)
open Lowering (programName)

/-! ## Names that come in late -/

/-- A name under which a type is registered when it is first used. -/
def LateName (n : QualifiedName) : Prop :=
  n = programName ∨ ∃ family args, n = delegateInstance family args

theorem isDigit_of_mem_toString {n : Nat} {c : Char} (h : c ∈ (toString n).toList) : c.isDigit = true := by
  rw [Nat.toString_eq_repr, Nat.repr_eq_ofList_toDigits, String.toList_ofList] at h
  exact Nat.isDigit_of_mem_toDigits (by decide) (by decide) h

theorem not_lateName_delegateName (family : String) (n : Nat) : ¬ LateName (delegateName family n) := by
  rintro (hprogram | ⟨other, args, hinstance⟩)
  · cases congrArg (fun name : QualifiedName => name.segments.length) hprogram
  · have hlast : family ++ "`" ++ toString n = (delegateName other args.length).last ++ "<" ++
        ",".intercalate (args.map QualifiedName.text) ++ ">" :=
      congrArg QualifiedName.last hinstance
    have hbracket : '>' ∈ (toString n).toList := by
      have hend := congrArg (fun text => text.toList.getLast?) hlast
      have htick : "`".toList.getLast? = some (Char.ofNat 96) := by decide
      have hclose : ">".toList.getLast? = some '>' := by decide
      simp only [String.toList_append, getLast?_append, htick, hclose, some_or] at hend
      cases hdigit : (toString n).toList.getLast? with
      | none =>
        rw [hdigit, none_or] at hend
        cases hend
      | some c =>
        rw [hdigit, some_or] at hend
        cases hend
        exact mem_of_getLast? hdigit
    exact absurd (isDigit_of_mem_toString hbracket) (by decide)

/-! ## Registration -/

/-- Types of certain names may be registered, and nothing else is changed. -/
def Permit.registering (names : List QualifiedName) : Permit :=
  ⟨fun _ => True, (· ∈ names), fun _ => False⟩

namespace Context

theorem lookup_declareType (c : Context) (d : TypeDef) (span : Span)
    (hfresh : c.types.lookup d.name = none) : ∃ id, (c.declareType d span).1 = some id ∧
      (c.declareType d span).2.types.lookup d.name = some id := by
  have hlookup := Lowering.lookup_intern c.types { d with span }
  unfold TypeTable.intern TypeTable.insert at hlookup
  unfold declareType TypeTable.insert
  rw [hfresh] at hlookup ⊢
  exact ⟨_, rfl, hlookup⟩

theorem found_traverse {α β : Type} {f : Context → α → β × Context} (names : α → List QualifiedName)
    {P : TypeTable → α → β → Prop} (hmono : ∀ t t' a b, Keeps t t' → P t a b → P t' a b)
    (hsteps : ∀ c a, Steps (.registering (names a)) c (f c a).2)
    (hf : ∀ c a, (names a).Nodup → (∀ n ∈ names a, (types c).lookup n = none) → P (f c a).2.types a (f c a).1)
    (as : List α) {c : Context} (hdistinct : (as.flatMap names).Nodup)
    (hfresh : ∀ n ∈ as.flatMap names, c.types.lookup n = none) : c.types.Keeps (traverse f c as).2.types ∧
      Forall₂ (P (traverse f c as).2.types) as (traverse f c as).1 := by
  induction as generalizing c with
  | nil => exact ⟨.refl _, .nil⟩
  | cons a as ih =>
    rw [flatMap_cons] at hdistinct hfresh
    obtain ⟨hfirst, hrest, hdisjoint⟩ := nodup_append.mp hdistinct
    have hnow := hf c a hfirst fun n hn => hfresh n (mem_append_left _ hn)
    obtain ⟨hkeeps, hall⟩ := ih hrest fun n hn => (hsteps c a).lookup_eq_none
      (hfresh n (mem_append_right _ hn)) fun hmem => hdisjoint n hmem n hn rfl
    exact ⟨(hsteps c a).keeps.trans hkeeps, .cons (hmono _ _ _ _ hkeeps hnow) hall⟩

end Context

theorem exists_of_forall₂ {α β : Type} {R : α → β → Prop} {as : List α} {bs : List β}
    (h : Forall₂ R as bs) {a : α} (ha : a ∈ as) : ∃ b, R a b := by
  induction h with
  | nil => cases ha
  | cons hab _ ih =>
    rcases mem_cons.mp ha with rfl | hmem
    · exact ⟨_, hab⟩
    · exact ih hmem

namespace Decl

theorem found_declaredType {c : Context} {d : TypeDef} {span : Span} (hfresh : c.types.lookup d.name = none) :
    ∃ id, (declaredType (c.declareType d span)).1 = .type id ∧
      (declaredType (c.declareType d span)).2.types.lookup d.name = some id := by
  obtain ⟨id, hid, hlookup⟩ := c.lookup_declareType d span hfresh
  generalize c.declareType d span = r at hid hlookup
  obtain ⟨type, c'⟩ := r
  cases hid
  exact ⟨id, rfl, hlookup⟩

theorem found_declare (module : QualifiedName) (c : Context) (d : Decl) (hdistinct : (d.typeNames module).Nodup)
    (hfresh : ∀ n ∈ d.typeNames module, c.types.lookup n = none) :
    d.Found (d.declare module c).2.types module (d.declare module c).1 := by
  cases d with
  | type d => exact found_declaredType (d := d.typeDef module) (hfresh _ mem_cons_self)
  | enum d | union d => exact found_declaredType (d := valueTypeDef module d.name) (hfresh _ mem_cons_self)
  | taggedUnion d =>
    obtain ⟨hbase, hvariants⟩ := nodup_cons.mp hdistinct
    obtain ⟨base, hid, hlookup⟩ := c.lookup_declareType
      { definedType module d.name with isAbstract := true } d.span (hfresh _ mem_cons_self)
    have hsteps := (c.declaring_declareType (π := .registering [module.child d.name])
      (d := { definedType module d.name with isAbstract := true }) mem_cons_self rfl rfl rfl rfl d.span).1.steps
    rw [declare]
    generalize c.declareType { definedType module d.name with isAbstract := true } d.span = r
      at hid hlookup hsteps
    obtain ⟨type, c'⟩ := r
    cases hid
    have hnames : d.variants.flatMap (fun v => [module.child v.name]) =
        d.variants.map (module.child ·.name) := map_eq_flatMap.symm
    have hnew : ∀ n ∈ d.variants.flatMap (fun v => [module.child v.name]), c'.types.lookup n = none := by
      intro n hn
      rw [hnames] at hn
      refine Steps.lookup_eq_none hsteps (hfresh n (mem_cons_of_mem _ hn)) fun hmem => ?_
      exact hbase (mem_singleton.mp hmem ▸ hn)
    obtain ⟨hkeeps, hall⟩ := found_traverse (f := Variant.declare module) (fun v => [module.child v.name])
      (P := fun t v type => ∃ id, type = some id ∧ t.lookup (module.child v.name) = some id)
      (fun _ _ _ _ hkeeps h => h.imp fun _ hid => ⟨hid.1, hkeeps.lookup hid.2⟩)
      (fun c v => (c.declaring_declareType mem_cons_self rfl rfl rfl rfl v.span).1.steps)
      (fun c v _ hnew => c.lookup_declareType _ v.span (hnew _ mem_cons_self)) d.variants (hnames ▸ hvariants) hnew
    exact ⟨base, _, rfl, hkeeps.lookup hlookup, hall⟩
  | fn d | error span => trivial

theorem Found.exists_lookup {t : TypeTable} {module : QualifiedName} {declared : Declared}
    (h : d.Found t module declared) {n : QualifiedName} (hn : n ∈ d.typeNames module) :
    ∃ id, t.lookup n = some id := by
  cases d with
  | type d | enum d | union d =>
    obtain ⟨id, -, hid⟩ := h
    exact ⟨id, mem_singleton.mp hn ▸ hid⟩
  | taggedUnion d =>
    obtain ⟨base, variants, -, hbase, hvariants⟩ := h
    rcases mem_cons.mp hn with rfl | hmem
    · exact ⟨base, hbase⟩
    · obtain ⟨v, hv, rfl⟩ := mem_map.mp hmem
      obtain ⟨type, id, -, hid⟩ := exists_of_forall₂ hvariants hv
      exact ⟨id, hid⟩
  | fn d | error span => cases hn

end Decl

/-! ## What is written of one type -/

theorem flatMap_eq_of_mem {α κ : Type} (keys : α → List κ) {g : α → List γ} {k : κ}
    (hother : ∀ a, k ∉ keys a → g a = []) {as : List α} (hdistinct : (as.flatMap keys).Nodup) {a : α}
    (ha : a ∈ as) (hk : k ∈ keys a) : as.flatMap g = g a := by
  induction as with
  | nil => cases ha
  | cons b as ih =>
    rw [flatMap_cons] at hdistinct ⊢
    obtain ⟨-, hrest, hdisjoint⟩ := nodup_append.mp hdistinct
    rcases mem_cons.mp ha with rfl | hmem
    · have hnone : as.flatMap g = [] := by
        refine flatMap_eq_nil_iff.mpr fun c hc => hother c fun hkc => ?_
        exact hdisjoint k hk k (mem_flatMap.mpr ⟨c, hc, hkc⟩) rfl
      rw [hnone, append_nil]
    · have hkb : k ∉ keys b := fun hkb =>
        hdisjoint k hkb k (mem_flatMap.mpr ⟨a, hmem, hk⟩) rfl
      rw [hother b hkb, nil_append]
      exact ih hrest hmem

namespace Written

def owner : Written → QualifiedName
  | .field owner _ => owner
  | .property owner _ => owner
  | .method owner _ => owner

end Written

namespace Decl
variable {s : Site} {d : Decl}

theorem owner_mem_typeNames {w : Written} (hw : w ∈ d.written s) :
    w.owner ∈ d.typeNames s.module ∨ ∃ h, w = .method programName h := by
  cases d with
  | type d =>
    obtain ⟨m, -, hm⟩ := mem_flatMap.mp hw
    cases m with
    | field d | method d | property d =>
      cases mem_singleton.mp hm
      exact Or.inl mem_cons_self
    | error span => cases hm
  | enum d =>
    cases mem_singleton.mp hw
    exact Or.inl mem_cons_self
  | union d =>
    obtain ⟨f, -, hf⟩ := mem_flatMap.mp hw
    unfold UnionField.written at hf
    split at hf
    · cases mem_singleton.mp hf
      exact Or.inl mem_cons_self
    · cases hf
  | taggedUnion d =>
    obtain ⟨v, hv, hmem⟩ := mem_flatMap.mp hw
    have howner : w.owner = s.module.child v.name := by
      rcases mem_append.mp hmem with hfield | hctor
      · obtain ⟨f, -, rfl⟩ := mem_map.mp hfield
        rfl
      · cases mem_singleton.mp hctor
        rfl
    rw [howner]
    exact Or.inl (mem_cons_of_mem _ (mem_map_of_mem hv))
  | fn d => exact Or.inr ⟨_, mem_singleton.mp hw⟩
  | error span => cases hw

theorem filterMap_written_eq_nil {owner : QualifiedName} (howner : owner ∉ d.typeNames s.module) :
    (d.written s).filterMap (field? owner) = [] ∧
      (d.written s).filterMap (property? owner) = [] := by
  have hnone : ∀ w ∈ d.written s, field? owner w = none ∧ property? owner w = none := by
    intro w hw
    rcases owner_mem_typeNames hw with hmem | ⟨h, rfl⟩
    · have hne : w.owner ≠ owner := fun heq => howner (heq ▸ hmem)
      cases w with
      | field owner' slot => exact ⟨if_neg hne, rfl⟩
      | property owner' slot => exact ⟨rfl, if_neg hne⟩
      | method owner' h => exact ⟨rfl, rfl⟩
    · exact ⟨rfl, rfl⟩
  exact ⟨filterMap_eq_nil_iff.mpr fun w hw => (hnone w hw).1, filterMap_eq_nil_iff.mpr fun w hw => (hnone w hw).2⟩

end Decl

theorem filterMap_written {known : QualifiedName → Bool} {p : Written → Option γ} {owner : QualifiedName}
    (hother : ∀ (s : Site) (d : Decl), owner ∉ d.typeNames s.module → (d.written s).filterMap p = [])
    (hdistinct : (trees.flatMap typeNames).Nodup) {d : Declaration} (hd : d ∈ declarations trees)
    (howner : owner ∈ d.decl.typeNames d.module) : (trees.flatMap (written known)).filterMap p =
      (d.decl.written ⟨d.module, known⟩).filterMap p := by
  rw [flatMap_typeNames] at hdistinct
  rw [flatMap_written, filterMap_flatMap]
  exact flatMap_eq_of_mem _ (fun d => hother ⟨d.module, known⟩ d.decl) hdistinct hd howner

/-! ## One lowering -/

namespace Compilation
variable {n : QualifiedName} {id : TypeId}

/-- Names that have a type before any type name is looked up. -/
def knownNames (options : Options) (trees : List Tree) (n : QualifiedName) : Bool :=
  ((options.target.install Platform.types).lookup n).isSome || (trees.flatMap typeNames).contains n

/-- The types when all declarations are lowered. -/
def declaredTypes (options : Options) (trees : List Tree) : TypeTable :=
  ((start trees options).context.lowerDeclarations trees).context.types

/-- What was registered, and the state after it. -/
def registered (options : Options) (trees : List Tree) : List Declared × Context :=
  (start trees options).context.declareAll (declarations trees)

variable {options : Options} {trees : List Tree}

theorem lowerDeclarations_registered (options : Options) (trees : List Tree) :
    (start trees options).context.lowerDeclarations trees = Lowering.fillAll
      { context := (registered options trees).2 } ((declarations trees).zip (registered options trees).1) :=
  lowerDeclarations_eq _ trees

theorem declaring_registered (options : Options) (trees : List Tree) :
    (start trees options).context.Declaring (.registering (trees.flatMap typeNames))
        (registered options trees).2 ((registered options trees).1.flatMap Declared.ids) ∧
      ∀ d ∈ (declarations trees).zip (registered options trees).1,
        d.1.decl.Registered (registered options trees).2.types.Holds d.1.module d.2 :=
  declaring_declareAll _ _ fun _ hn => (flatMap_typeNames trees).symm ▸ hn

theorem known_of_registered (h : (registered options trees).2.types.lookup n = some id) :
    knownNames options trees n = true := by
  rw [knownNames, Bool.or_eq_true, contains_iff_mem]
  by_contra hunknown
  obtain ⟨hplatform, hdeclared⟩ := not_or.mp hunknown
  rw [Bool.not_eq_true, isSome_eq_false_iff, isNone_iff_eq_none] at hplatform
  rw [← types_start trees options] at hplatform
  rw [(declaring_registered options trees).1.steps.lookup_eq_none hplatform hdeclared] at h
  cases h

theorem steps_declaredTypes (options : Options) (trees : List Tree) :
    (registered options trees).2.Steps ⟨fun _ => True, LateName, fun _ => True⟩ (declared trees options).context := by
  have hground : (start trees options).context.types.Grounded :=
    types_start trees options ▸ grounded_install options.target
  obtain ⟨hdeclaring, hregistered⟩ := declaring_registered options trees
  rw [declared, lowerDeclarations_registered]
  exact Lowering.steps_fillAll (π := ⟨fun _ => True, LateName, fun _ => True⟩) (l := { context := _ })
    (fun family args => Or.inr ⟨family, args, rfl⟩) (Or.inl rfl) (fun _ _ _ _ => trivial)
    (hdeclaring.steps.grounded hground) (fun _ _ _ _ => trivial) fun d hd =>
      (hregistered d hd).imp fun _ _ hholds => ⟨trivial, hholds.declares⟩

/-- A name has a type when all declarations are lowered. -/
def Made (options : Options) (trees : List Tree) (n : QualifiedName) : Prop :=
  ((declaredTypes options trees).lookup n).isSome = true

theorem closed_made (options : Options) (trees : List Tree) (module : QualifiedName) :
    Site.Closed ⟨module, knownNames options trees⟩ (Made options trees) := by
  refine ⟨?_, fun family n hmade => ?_⟩
  · exact Bool.or_eq_true_iff.mpr (Or.inl ((grounded_install options.target).primitives .void))
  · by_contra hunknown
    have hnone : (registered options trees).2.types.lookup (delegateName family n) = none :=
      eq_none_iff_forall_ne_some.mpr fun id hid => hunknown (known_of_registered hid)
    have hlater := (steps_declaredTypes options trees).lookup_eq_none hnone (not_lateName_delegateName family n)
    rw [Made, declaredTypes, hlater] at hmade
    cases hmade

theorem members_registered {t : TypeTable} (hfree : (options.target.install Platform.types).lookup n = none)
    (hkeeps : (registered options trees).2.types.Keeps t) (hid : t.lookup n = some id) :
    ((registered options trees).2.types.get id).members = ([], [], []) := by
  have hsteps := (declaring_registered options trees).1.steps
  have hno : ¬ (Permit.registering (trees.flatMap typeNames)).owners id := fun h => h
  rw [hsteps.members_eq hno, types_start]
  have hsize : (options.target.install Platform.types).size ≤ id.index := by
    refine Nat.le_of_not_lt fun hlt => ?_
    have hname := ((types_start trees options ▸ hsteps.keeps).trans hkeeps).name hlt
    rw [(lookup_spec hid).2] at hname
    exact (lookup_eq_none_iff _ _).mp hfree id hlt hname.symm
  rw [get_of_le _ hsize]
  rfl

theorem lookup_programName (target : Target) : (target.install Platform.types).lookup programName = none := by
  cases target <;> decide +kernel

end Compilation

/-- The table `t` has what the declaration `d` writes: of every type that it introduces the fields and the
properties, in order, and every method, which is as `d` or a declaration of the same signature writes it. -/
structure TypeTable.Agrees (t : TypeTable) (made : QualifiedName → Prop) (program : List Written)
    (s : Site) (d : Decl) : Prop where
  members : ∀ owner ∈ d.typeNames s.module, ∃ id, t.lookup owner = some id ∧
    Forall₂ (fun slot (f : Field) => slot.Describes made t f.name f.type)
      ((d.written s).filterMap (field? owner)) (t.get id).storage ∧
    Forall₂ (fun slot (p : Property) => slot.Describes made t p.name p.type)
      ((d.written s).filterMap (property? owner)) (t.get id).properties
  methods : ∀ owner h, .method owner h ∈ d.written s → ∃ id, t.lookup owner = some id ∧
    ∃ m ∈ (t.get id).methods, h.Signs made t m ∧
      ∃ h', .method owner h' ∈ program ∧ h'.Describes made t m

namespace Compilation

variable {options : Options} {trees : List Tree} (hdistinct : (trees.flatMap typeNames).Nodup)
  (hfree : ∀ n ∈ trees.flatMap typeNames, (options.target.install Platform.types).lookup n = none)
include hdistinct hfree

/-- Where names are distinct and free, every type is registered under its name. -/
theorem found_registered :
    Forall₂ (fun d => d.decl.Found (registered options trees).2.types d.module) (declarations trees)
      (registered options trees).1 := by
  rw [flatMap_typeNames] at hdistinct hfree
  exact (found_traverse (fun d : Declaration => d.decl.typeNames d.module)
    (P := fun t d r => d.decl.Found t d.module r) (fun _ _ _ _ hkeeps h => h.mono hkeeps)
    (fun c d => (d.decl.declaring_declare d.module c fun _ hn => hn).1.steps)
    (fun c d => d.decl.found_declare d.module c) _ hdistinct (types_start trees options ▸ hfree)).2

theorem ready_registered (module : QualifiedName) :
    Site.Ready ⟨module, knownNames options trees⟩ (registered options trees).2.types := by
  intro n hn
  have hknown : knownNames options trees n = true := hn
  rw [knownNames, Bool.or_eq_true, contains_iff_mem] at hknown
  rw [isSome_iff_exists] at hknown ⊢
  rcases hknown with ⟨id, hid⟩ | hmem
  · rw [← types_start trees options] at hid
    exact ⟨id, (declaring_registered options trees).1.steps.keeps.lookup hid⟩
  · rw [flatMap_typeNames] at hmem
    obtain ⟨d, hd, hname⟩ := mem_flatMap.mp hmem
    obtain ⟨r, hr⟩ := exists_of_forall₂ (found_registered hdistinct hfree) hd
    exact hr.exists_lookup hname

/-- Lowering stores what all trees write. -/
theorem stores_lowered :
    Stores (Made options trees) (fun _ => True) (trees.flatMap (written (knownNames options trees)))
      (registered options trees).2.types (lowered trees options).context.types := by
  have hdeclarations := stores_fillAll (closed_made options trees)
    (ready_registered hdistinct hfree) (found_registered hdistinct hfree)
  rw [← lowerDeclarations_registered, ← flatMap_written] at hdeclarations
  have hbodies := stores_lowerBodies (Made options trees) (fun _ => True) (declared trees options).context
    (declared trees options).queue
  have hall := (hdeclarations.settle fun n id hid => isSome_iff_exists.mpr ⟨id, hid⟩).append hbodies
  rwa [append_nil] at hall

theorem agrees_lowered {d : Declaration} (hd : d ∈ declarations trees) :
    (lowered trees options).context.types.Agrees (Made options trees)
      (trees.flatMap (written (knownNames options trees))) ⟨d.module, knownNames options trees⟩ d.decl := by
  have hstores := stores_lowered hdistinct hfree
  have hname : ∀ n ∈ d.decl.typeNames d.module, n ∈ trees.flatMap typeNames := fun n hn =>
    flatMap_typeNames trees ▸ mem_flatMap.mpr ⟨d, hd, hn⟩
  refine ⟨fun owner howner => ?_, fun owner h hw => ?_⟩
  · obtain ⟨id, hid⟩ := isSome_iff_exists.mp (ready_registered hdistinct hfree d.module owner
      (Bool.or_eq_true_iff.mpr (Or.inr (contains_iff_mem.mpr (hname owner howner)))))
    have hmembers := members_registered (hfree owner (hname owner howner)) (.refl _) hid
    obtain ⟨⟨fs, hfs, hfields⟩, ps, hps, hproperties⟩ := hstores.gains hid
    rw [filterMap_written (fun s d hs => (Decl.filterMap_written_eq_nil hs).1) hdistinct hd howner]
      at hfields
    rw [filterMap_written (fun s d hs => (Decl.filterMap_written_eq_nil hs).2) hdistinct hd howner]
      at hproperties
    have hstorage : ((registered options trees).2.types.get id).storage = [] := by
      have hnone : ((registered options trees).2.types.get id).fields = [] := congrArg (·.1) hmembers
      rw [TypeDef.storage, hnone, filter_nil]
    have hnone : ((registered options trees).2.types.get id).properties = [] := congrArg (·.2.2) hmembers
    rw [hstorage, nil_append] at hfs
    rw [hnone, nil_append] at hps
    exact ⟨id, hstores.keeps.lookup hid, hfs ▸ hfields, hps ▸ hproperties⟩
  · have howner : (options.target.install Platform.types).lookup owner = none := by
      rcases Decl.owner_mem_typeNames hw with hmem | ⟨h', heq⟩
      · exact hfree owner (hname owner hmem)
      · cases heq
        exact lookup_programName options.target
    refine hstores.exists_describes (fun id hid => ?_) ?_
    · exact congrArg (·.2.1) (members_registered howner hstores.keeps hid)
    · exact flatMap_written _ _ ▸ mem_flatMap.mpr ⟨d, hd, hw⟩

end Compilation

/-! ## Two orders -/

/-- The same trees in another order, each with its declarations in another order. -/
def Rearranged (trees trees' : List Tree) : Prop :=
  ∃ middle, trees.Perm middle ∧
    Forall₂ (fun t t' => ∃ body, t.body.Perm body ∧ t' = { t with body }) middle trees'

theorem Rearranged.perm_declarations {trees' : List Tree} (h : Rearranged trees trees') :
    (declarations trees).Perm (declarations trees') := by
  obtain ⟨middle, hperm, hbodies⟩ := h
  refine (hperm.flatMap_right _).trans ?_
  clear hperm
  unfold declarations
  induction hbodies with
  | nil => exact .refl _
  | cons hfirst _ ih =>
    obtain ⟨body, hbody, rfl⟩ := hfirst
    rw [flatMap_cons, flatMap_cons]
    exact (hbody.map _).append ih

theorem Rearranged.perm_flatMap {trees' : List Tree} (h : Rearranged trees trees')
    (g : QualifiedName → Decl → List γ) : (trees.flatMap fun t => t.body.flatMap (g t.module)).Perm
      (trees'.flatMap fun t => t.body.flatMap (g t.module)) := by
  rw [flatMap_declarations, flatMap_declarations]
  exact h.perm_declarations.flatMap_right _

namespace TypeTable.Agrees

theorem mono {t : TypeTable} {made : QualifiedName → Prop} {program program' : List Written} {s : Site}
    (h : t.Agrees made program s d) (hprogram : program ⊆ program') : t.Agrees made program' s d := by
  refine ⟨h.members, fun owner heading hw => ?_⟩
  obtain ⟨id, hid, m, hm, hsigns, h', hw', hdescribes⟩ := h.methods owner heading hw
  exact ⟨id, hid, m, hm, hsigns, h', hprogram hw', hdescribes⟩

end TypeTable.Agrees

namespace Compilation

theorem knownNames_of_rearranged (options : Options) {trees trees' : List Tree}
    (h : Rearranged trees trees') : knownNames options trees' = knownNames options trees := by
  funext n
  have hnames : n ∈ trees'.flatMap typeNames ↔ n ∈ trees.flatMap typeNames :=
    (h.perm_flatMap Decl.typeNames).symm.mem_iff
  simp only [knownNames, contains_eq_mem, hnames]

/-- Whatever the order of trees and declarations, a declaration is stored as it is written, and each of its
type expressions that is settled as the type that it means. What it means is a matter of the names that are
known, which the order does not change. -/
theorem agrees_of_rearranged (options : Options) {trees trees' : List Tree}
    (hdistinct : (trees.flatMap Tree.typeNames).Nodup)
    (hfree : ∀ n ∈ trees.flatMap Tree.typeNames, (options.target.install Platform.types).lookup n = none)
    (hrearranged : Rearranged trees trees') {t : Tree} (ht : t ∈ trees) {d : Decl} (hd : d ∈ t.body) :
    (lowered trees options).context.types.Agrees (Made options trees)
        (trees.flatMap (Tree.written (knownNames options trees)))
        ⟨t.module, knownNames options trees⟩ d ∧
      (lowered trees' options).context.types.Agrees (Made options trees')
        (trees.flatMap (Tree.written (knownNames options trees)))
        ⟨t.module, knownNames options trees⟩ d := by
  have hmem : ⟨t.module, d⟩ ∈ Tree.declarations trees := Tree.mem_declarations.mpr ⟨t, ht, rfl, hd⟩
  refine ⟨agrees_lowered hdistinct hfree hmem, ?_⟩
  have hnames := hrearranged.perm_flatMap Decl.typeNames
  have hagrees := agrees_lowered (hnames.nodup_iff.mp hdistinct)
    (fun n hn => hfree n (hnames.mem_iff.mpr hn)) (hrearranged.perm_declarations.mem_iff.mp hmem)
  rw [knownNames_of_rearranged options hrearranged] at hagrees
  refine hagrees.mono (hrearranged.perm_flatMap fun module d => d.written ⟨module, _⟩).symm.subset

/-- A list whose nodes are declared after it, with a function type, and a function. -/
def listTree : Tree :=
  let node : TypeExpr := .named ⟨["Node"]⟩ {}
  { module := ⟨["Demo"]⟩
    body := [
      .type { kind := .classType, name := "List",
              members := [
                .field { name := "head", type := node },
                .method { name := "each", params := [{ name := "f", type := .function [node] none {} }] }] },
      .fn { name := "first", params := [{ name := "list", type := .named ⟨["List"]⟩ {} }],
            returnType := some node }] }

def nodeTree : Tree :=
  { module := ⟨["Demo"]⟩
    body := [
      .enum { name := "Color", underlying := some (.named ⟨["u8"]⟩ {}), members := [] },
      .type { kind := .classType, name := "Node",
              members := [.property { name := "next", type := .named ⟨["Demo", "Node"]⟩ {} }] }] }

/-- The trees of a list and its nodes, and both turned around. -/
theorem agrees_of_rearranged_listTree :
    (([listTree, nodeTree].flatMap Tree.typeNames).Nodup ∧
      (∀ n ∈ [listTree, nodeTree].flatMap Tree.typeNames,
        (Target.managed.install Platform.types).lookup n = none) ∧
      Rearranged [listTree, nodeTree]
        [{ nodeTree with body := nodeTree.body.reverse }, { listTree with body := listTree.body.reverse }]) ∧
    ∀ d ∈ listTree.body,
      (lowered [listTree, nodeTree] {}).context.types.Agrees (Made {} [listTree, nodeTree])
          ([listTree, nodeTree].flatMap (Tree.written (knownNames {} [listTree, nodeTree])))
          ⟨listTree.module, knownNames {} [listTree, nodeTree]⟩ d ∧
        (lowered [{ nodeTree with body := nodeTree.body.reverse },
            { listTree with body := listTree.body.reverse }] {}).context.types.Agrees
          (Made {} [{ nodeTree with body := nodeTree.body.reverse },
            { listTree with body := listTree.body.reverse }])
          ([listTree, nodeTree].flatMap (Tree.written (knownNames {} [listTree, nodeTree])))
          ⟨listTree.module, knownNames {} [listTree, nodeTree]⟩ d := by
  have hdistinct : ([listTree, nodeTree].flatMap Tree.typeNames).Nodup := by decide
  have hfree : ∀ n ∈ [listTree, nodeTree].flatMap Tree.typeNames,
      (Target.managed.install Platform.types).lookup n = none := by decide +kernel
  have hrearranged : Rearranged [listTree, nodeTree]
      [{ nodeTree with body := nodeTree.body.reverse }, { listTree with body := listTree.body.reverse }] :=
    ⟨[nodeTree, listTree], .swap _ _ _, .cons ⟨_, (List.reverse_perm _).symm, rfl⟩
      (.cons ⟨_, (List.reverse_perm _).symm, rfl⟩ .nil)⟩
  exact ⟨⟨hdistinct, hfree, hrearranged⟩, fun d hd =>
    agrees_of_rearranged {} hdistinct hfree hrearranged List.mem_cons_self hd⟩

end Compilation

/-! ## A name that depends on the order -/

def TypeTable.storedTypes (t : TypeTable) (owner : QualifiedName) : List (Option QualifiedName) :=
  match t.lookup owner with
  | some id => (t.get id).storage.map fun f => f.type.map fun type => (t.get type).name
  | none => []

namespace Compilation

/-- A class with a field of the type that holds the functions, and a function. -/
def hostTree : Tree :=
  { module := ⟨["Demo"]⟩
    body := [
      .type { kind := .classType, name := "C",
              members := [.field { name := "host", type := .named programName {} }] },
      .fn { name := "run" }] }

/-- The type that holds the functions is found after the first function, and not before. -/
theorem host_depends_on_order :
    (([hostTree].flatMap Tree.typeNames).Nodup ∧
      (∀ n ∈ [hostTree].flatMap Tree.typeNames,
        (Target.managed.install Platform.types).lookup n = none) ∧
      Rearranged [hostTree] [{ hostTree with body := hostTree.body.reverse }]) ∧
    (lowered [hostTree] {}).context.types.storedTypes ⟨["Demo", "C"]⟩ = [none] ∧
    (lowered [{ hostTree with body := hostTree.body.reverse }] {}).context.types.storedTypes
      ⟨["Demo", "C"]⟩ = [some programName] := by
  refine ⟨⟨by decide, by decide +kernel, [hostTree], .refl _, ?_⟩, by decide +kernel⟩
  exact .cons ⟨_, (List.reverse_perm _).symm, rfl⟩ .nil

end Compilation

end TreeCompiler
