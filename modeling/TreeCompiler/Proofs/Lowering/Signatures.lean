import TreeCompiler.Proofs.Lowering.Registration

/-!
# Methods of one signature

A type of the program has no two methods of the same name and the same types of parameters, with one
exception. The constructor of a variant is added whatever methods its type has, and a variant may be
registered under the name of the type that holds the functions; so it may come after a function that has
the name and the parameters of the constructor.
-/

namespace TreeCompiler

open List Method Declaration Source

variable {α : Type}

open Lowering (programName)

/-! ## Names of registered types -/

/-- Names of the types that a declaration registered. -/
def Declaration.names (t : TypeTable) (d : Declaration × Declared) : List QualifiedName :=
  ((d.1.decl.answers d.2).filterMap id).map fun type => (t.get type).name

namespace Compilation
variable (trees : List Tree) (options : Options)

/-- No two types that declarations registered have the same name. -/
theorem nodup_names : ((registrations trees options).flatMap (names (allRegistered trees options).types)).Nodup := by
  obtain ⟨hnodup, -, hrange⟩ := (start trees options).context.nodup_answers (asked trees options)
  have hapart := (accounts_declareAll trees options (Tree.declarations trees)).apart.types
  rw [serveAll_asked] at hnodup hrange
  have hnames : (registrations trees options).flatMap (names (allRegistered trees options).types) =
        (((registrations trees options).flatMap fun d => d.1.decl.answers d.2).filterMap id).map
          fun type => ((allRegistered trees options).types.get type).name := by
    rw [filterMap_flatMap, map_flatMap]
    rfl
  rw [hnames]
  refine hnodup.map_on fun type htype type' htype' hname => ?_
  exact hapart type type' (hrange type htype).2 (hrange type' htype').2 hname

end Compilation

/-! ## Sources -/

namespace Source

def IsFunction (s : Source) : Prop :=
  ∃ module name f, s = .declared programName module name true f

/-- The constructor of a variant goes to a type that got no method from `s`, unless `s` is a function. -/
def Separate (s s' : Source) : Prop :=
  ∀ owner v, s' = .variant owner v → s.owner = owner → s.IsFunction

end Source

theorem owners_variants {t : TypeTable} {module : QualifiedName} {vs : List Variant} {types : List (Option TypeId)}
    (h : Forall₂ (fun (v : Variant) type => ∀ id, type = some id →
      t.Holds id { definedType module v.name with isSealed := true, span := v.span }) vs types) :
    ((vs.zip types).filterMap (Variant.source? module)).map owner =
      (types.filterMap id).map fun type => (t.get type).name := by
  induction h with
  | nil => rfl
  | @cons v type vs types hfirst _ ih =>
    cases type with
    | none => exact ih
    | some self =>
      have hname : (t.get self).name = module.child v.name := congrArg TypeDef.name (hfirst self rfl).2
      simp only [zip_cons_cons, filterMap_cons, Variant.source?, Option.map_some, map_cons, id, hname]
      exact congrArg (_ :: ·) ih

namespace Declaration
variable {t : TypeTable} {d : Declaration} {declared : Declared}

theorem owner_mem_names (h : d.decl.Registered t.Holds d.module declared) {s : Source}
    (hs : s ∈ d.sources declared) : s.IsFunction ∨ s.owner ∈ names t (d, declared) := by
  obtain ⟨module, decl⟩ := d
  cases decl with
  | type d =>
    cases declared with
    | type id =>
      obtain ⟨m, -, hm⟩ := mem_filterMap.mp hs
      have howner : s.owner = module.child d.name := by
        cases m <;> cases hm
        rfl
      have hname : (t.get id).name = module.child d.name := congrArg TypeDef.name h.2
      exact Or.inr (mem_singleton.mpr (howner.trans hname.symm))
    | _ => cases hs
  | taggedUnion d =>
    cases declared with
    | taggedUnion base variants =>
      refine Or.inr (mem_cons_of_mem _ ?_)
      have howner := mem_map_of_mem (f := owner) hs
      exact owners_variants h.2 ▸ howner
    | _ => cases hs
  | fn f =>
    refine Or.inl ⟨module, Lowering.functionName f, f, ?_⟩
    cases declared <;> exact mem_singleton.mp hs
  | enum d | union d | error span => cases declared <;> cases hs

theorem pairwise_sources (h : d.decl.Registered t.Holds d.module declared)
    (hnames : (names t (d, declared)).Nodup) : (d.sources declared).Pairwise Separate := by
  obtain ⟨module, decl⟩ := d
  cases decl with
  | type d =>
    cases declared with
    | type id =>
      refine pairwise_of_forall_mem_list fun s _ s' hs' owner v hvariant => ?_
      obtain ⟨m, -, hm⟩ := mem_filterMap.mp hs'
      cases m <;> cases hm
      cases hvariant
    | _ => exact .nil
  | taggedUnion d =>
    cases declared with
    | taggedUnion base variants =>
      have hnodup := (nodup_cons.mp hnames).2
      rw [← owners_variants h.2] at hnodup
      refine (pairwise_map.mp hnodup).imp fun hne owner v hvariant howner => ?_
      rw [hvariant] at hne
      exact absurd howner hne
    | _ => exact .nil
  | fn f => cases declared <;> exact pairwise_singleton _ _
  | enum d | union d | error span => cases declared <;> exact .nil

end Declaration

namespace Compilation

theorem pairwise_sources (trees : List Tree) (options : Options) :
    ((start trees options).context.sources trees).Pairwise Separate := by
  have hregistered := (start trees options).context.registered_declareAll (Tree.declarations trees)
  obtain ⟨hone, hdisjoint⟩ := nodup_flatMap.mp (nodup_names trees options)
  refine pairwise_flatMap.mpr ⟨fun d hd => ?_, ?_⟩
  · exact Declaration.pairwise_sources (hregistered d hd) (hone d hd)
  · refine hdisjoint.imp_of_mem fun {d d'} hd hd' hdisjoint s hs s' hs' owner v hvariant howner => ?_
    rcases owner_mem_names (hregistered d hd) hs with hfunction | hmem
    · exact hfunction
    · rcases owner_mem_names (hregistered d' hd') hs' with ⟨_, _, _, hfunction⟩ | hmem'
      · rw [hvariant] at hfunction
        cases hfunction
      · rw [hvariant] at hmem'
        exact absurd (howner ▸ hmem) fun hmem => hdisjoint hmem hmem'

end Compilation

/-! ## Entries -/

theorem sublist_pair_of_mem {as : List α} {a b : α} (ha : a ∈ as) (hb : b ∈ as) (hne : a ≠ b) :
    [a, b].Sublist as ∨ [b, a].Sublist as := by
  obtain ⟨before, after, rfl⟩ := mem_iff_append.mp ha
  rcases mem_append.mp hb with hbefore | hafter
  · refine Or.inr ?_
    exact (singleton_sublist.mpr hbefore).append (singleton_sublist.mpr mem_cons_self)
  · rcases mem_cons.mp hafter with rfl | hafter
    · exact absurd rfl hne
    · refine Or.inl (Sublist.trans ?_ (sublist_append_right before _))
      exact (singleton_sublist.mpr hafter).cons_cons a

theorem exists_split_of_sublist {as : List α} {a b : α} (h : [a, b].Sublist as) :
    ∃ before after, as = before ++ b :: after ∧ a ∈ before := by
  obtain ⟨first, rest, rfl, ha, hb⟩ := cons_sublist_iff.mp h
  obtain ⟨between, after, rfl⟩ := mem_iff_append.mp (singleton_sublist.mp hb)
  exact ⟨first ++ between, after, (append_assoc _ _ _).symm, mem_append_left _ ha⟩

namespace Lowering
variable {l : Lowering} {base : List Diagnostic} {es : List Entry}

/-- At `m` is a function with the name of a constructor, and at `m'` the constructor of a variant that comes
after it. -/
def Clash (es : List Entry) (m m' : MethodRef) : Prop :=
  ∃ e e', [e, e'].Sublist es ∧ e.place? = some m ∧ e'.place? = some m' ∧
    (∃ module f, e.source = .declared programName module ".ctor" true f) ∧
    ∃ v, e'.source = .variant programName v

variable (h : l.Accounts base es)
include h

/-- A method that was added and has the signature of an earlier one of its type is the constructor of a
variant. -/
theorem Accounts.clash (hseparate : (es.map Entry.source).Pairwise Separate)
    {e e' : Entry} (hpair : [e, e'].Sublist es) {m m' : MethodRef} (hplace : e.place? = some m)
    (hplace' : e'.place? = some m') (howner : e.source.owner = e'.source.owner)
    (hsame : e.method.sameSignature e'.method = true) : Clash es m m' := by
  obtain ⟨before, after, hsplit, hmem⟩ := exists_split_of_sublist hpair
  have hsettled := h.settled before e' after hsplit
  have hdescribes := h.describes e (hpair.subset mem_cons_self)
  have hdescribes' := h.describes e' (hpair.subset (mem_cons_of_mem _ mem_cons_self))
  have hapart := pairwise_iff_forall_sublist.mp (pairwise_map.mp hseparate) hpair
  have hname : e.method.name = e'.method.name := by
    rw [sameSignature, Bool.and_eq_true, beq_iff_eq] at hsame
    exact hsame.1
  cases hsource' : e'.source with
  | declared owner module name isStatic d =>
    rw [Entry.Settled, hsource', Entry.place?_eq_some_iff.mp hplace'] at hsettled
    exact absurd ⟨Option.isSome_iff_exists.mpr ⟨m, hplace⟩, howner, hsame⟩ (hsettled e hmem)
  | variant owner v =>
    rw [hsource'] at howner hdescribes'
    obtain ⟨module, name, f, hsource⟩ := hapart owner v hsource' howner
    rw [hsource] at howner hdescribes
    obtain ⟨self, c, hmethod⟩ := hdescribes
    have hctor : name = ".ctor" := by
      rw [hmethod] at hname
      exact hname.trans hdescribes'.1
    refine ⟨e, e', hpair, hplace, hplace', ⟨module, f, hctor ▸ hsource⟩, v, ?_⟩
    rw [hsource']
    exact congrArg (variant · v) howner.symm

theorem Accounts.name_of_clash {m m' : MethodRef} (hclash : Clash es m m') :
    (l.context.types.get m.type).name = programName ∧ (l.context.types.get m'.type).name = programName := by
  obtain ⟨e, e', hpair, hplace, hplace', ⟨module, f, hsource⟩, v, hsource'⟩ := hclash
  have howner := (h.placed e (hpair.subset mem_cons_self) m hplace).2.1
  have howner' :=
    (h.placed e' (hpair.subset (mem_cons_of_mem _ mem_cons_self)) m' hplace').2.1
  rw [hsource] at howner
  rw [hsource'] at howner'
  exact ⟨howner, howner'⟩

end Lowering

/-! ## Programs -/

namespace Compilation

section Programs
variable {trees : List Tree} {options : Options} {es : List Entry}
  (haccounts : (declared trees options).Accounts (allRegistered trees options).duplicates es)
include haccounts

/-- A refused declaration repeats the signature of an earlier one, and its report says where that one is. -/
theorem first_of_report {before after : List Entry} {e : Entry} {report : Diagnostic}
    (hsplit : es = before ++ e :: after) (hreport : e.report? = some report) : ∃ first ∈ before, first.Rivals e ∧
      report = .duplicate s!"Function '{e.source.owner.text}.{e.source.name}' is already defined."
        e.source.span first.method.span ∧
      ∃ m body, first.place? = some m ∧
        (declared trees options).context.types.methodEntry m = .ok first.method ∧
        (lowered trees options).context.types.methodEntry m = .ok { first.method with body } := by
  have hsettled := haccounts.settled before e after hsplit
  obtain ⟨source, method, verdict⟩ := e
  cases verdict with
  | added place => cases hreport
  | refused report' =>
    cases hreport
    cases source with
    | variant owner v => exact hsettled.elim
    | declared owner module name isStatic d =>
      obtain ⟨first, hmem, hrivals, hreport⟩ := hsettled
      obtain ⟨m, hplace⟩ := Option.isSome_iff_exists.mp hrivals.added
      have hmethod := (haccounts.placed first (hsplit ▸ mem_append_left _ hmem) m hplace).1
      exact ⟨first, hmem, hrivals, hreport, m, _, hplace, hmethod,
        (Context.methodEntry_lowerBodies_iff _ _ m _).mpr ⟨first.method, hmethod, rfl⟩⟩

theorem entry_of_lowered {m : MethodRef} {c : Method}
    (hdefined : ((lowered trees options).context.types.get m.type).origin = .defined)
    (hc : (lowered trees options).context.types.methodEntry m = .ok c) :
    ∃ e ∈ es, e.place? = some m ∧ e.method.name = c.name ∧ e.method.signature = c.signature ∧
      e.source.owner = ((lowered trees options).context.types.get m.type).name := by
  obtain ⟨e, he, hplace, hheader, -⟩ := haccounts.completed.methods m c hc hdefined
  obtain ⟨hmethod, howner, -⟩ := haccounts.placed e he m hplace
  have htypes := haccounts.completed.types m.type (TypeTable.lt_size_of_methodEntry hmethod)
  have hkept := congrArg TypeDef.name htypes
  refine ⟨e, he, hplace, (name_of_header hheader).symm, ?_, howner.symm.trans hkept.symm⟩
  rw [signature, signature, params_of_header hheader]

theorem clash_of_signature (hsources : es.map Entry.source = (start trees options).context.sources trees)
    {m m' : MethodRef} {c c' : Method} (htype : m.type = m'.type) (hne : m ≠ m')
    (hdefined : ((lowered trees options).context.types.get m.type).origin = .defined)
    (hc : (lowered trees options).context.types.methodEntry m = .ok c)
    (hc' : (lowered trees options).context.types.methodEntry m' = .ok c')
    (hname : c.name = c'.name) (hsignature : c.signature = c'.signature) :
    ((lowered trees options).context.types.get m.type).name = programName ∧
      (Lowering.Clash es m m' ∨ Lowering.Clash es m' m) := by
  have hseparate := pairwise_sources trees options
  rw [← hsources] at hseparate
  obtain ⟨e, he, hplace, hnames, hsignatures, howner⟩ := entry_of_lowered haccounts hdefined hc
  obtain ⟨e', he', hplace', hnames', hsignatures', howner'⟩ :=
    entry_of_lowered haccounts (htype ▸ hdefined) hc'
  have hother : e ≠ e' := by
    rintro rfl
    exact hne (Option.some.inj (hplace.symm.trans hplace'))
  have howners : e.source.owner = e'.source.owner := by rw [howner, howner', htype]
  have hsame : e.method.name = e'.method.name ∧ e.method.signature = e'.method.signature := by
    rw [hnames, hnames', hsignatures, hsignatures']
    exact ⟨hname, hsignature⟩
  rw [← howner, ← (haccounts.placed e he m hplace).2.1]
  rcases sublist_pair_of_mem he he' hother with hpair | hpair
  · have hclash := haccounts.clash hseparate hpair hplace hplace' howners (by simp [sameSignature, hsame])
    exact ⟨(haccounts.name_of_clash hclash).1, Or.inl hclash⟩
  · have hclash := haccounts.clash hseparate hpair hplace' hplace howners.symm (by simp [sameSignature, hsame])
    exact ⟨(haccounts.name_of_clash hclash).2, Or.inr hclash⟩

end Programs

/-- Two methods of one type of the program have the same name and the same types of parameters only if one
is a function named like a constructor and the other the constructor of a later variant, in the type that
holds the functions. Each declaration that was refused because of its signature has one report, which shows
the first of the signature, and that one is as it was declared. -/
theorem signatures_apart (trees : List Tree) (options : Options) :
    ∃ es : List Entry, es.map Entry.source = (start trees options).context.sources trees ∧
      (declared trees options).Accounts (allRegistered trees options).duplicates es ∧
      (lowered trees options).context.duplicates =
        (allRegistered trees options).duplicates ++ es.filterMap Entry.report? ∧
      (∀ before e after report, es = before ++ e :: after → e.report? = some report →
        ∃ first ∈ before, first.Rivals e ∧
          report = .duplicate s!"Function '{e.source.owner.text}.{e.source.name}' is already defined."
            e.source.span first.method.span ∧
          ∃ m body, first.place? = some m ∧
            (declared trees options).context.types.methodEntry m = .ok first.method ∧
            (lowered trees options).context.types.methodEntry m = .ok { first.method with body }) ∧
      ∀ m m' c c', m.type = m'.type → m ≠ m' →
        ((lowered trees options).context.types.get m.type).origin = .defined →
        (lowered trees options).context.types.methodEntry m = .ok c →
        (lowered trees options).context.types.methodEntry m' = .ok c' →
        c.name = c'.name → c.signature = c'.signature →
        ((lowered trees options).context.types.get m.type).name = programName ∧
          (Lowering.Clash es m m' ∨ Lowering.Clash es m' m) := by
  obtain ⟨es, hsources, haccounts⟩ := accounts_lowerDeclarations trees options
  obtain ⟨-, -, hduplicates, -⟩ :=
    (declared trees options).context.exists_lowerBodies_eq (declared trees options).queue
  refine ⟨es, hsources, haccounts, hduplicates.trans haccounts.duplicates, ?_, ?_⟩
  · intro before e after report hsplit hreport
    exact first_of_report haccounts hsplit hreport
  · intro m m' c c' htype hne hdefined hc hc' hname hsignature
    exact clash_of_signature haccounts hsources htype hne hdefined hc hc' hname hsignature

/-- A function named like a constructor, and a variant under the name of the type that holds it. -/
def ctorTree : Tree :=
  { module := .global
    body := [.fn { name := ".ctor", body := some [] },
      .taggedUnion { name := "U", variants := [{ name := "Program" }] }] }

/-- The constructor of a variant comes after a function of the same name without parameters, and nothing is
reported. -/
theorem constructor_twice :
    ((lowered [ctorTree] {}).context.types.lookup programName).map (fun id =>
        ((lowered [ctorTree] {}).context.types.get id).methods.map fun m => (m.name, m.signature)) =
      some [(".ctor", []), (".ctor", [])] ∧
    (lowered [ctorTree] {}).context.diagnostics = [] := by
  decide +kernel

end Compilation

end TreeCompiler
