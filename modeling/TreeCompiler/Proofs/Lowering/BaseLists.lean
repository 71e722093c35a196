import TreeCompiler.Proofs.Lowering.Variants

/-!
# Lists of bases

The first base of a type may be a class, and interfaces come after it. A declaration that is filled in
keeps to this as long as its own list does: it puts a root in front where no class is written, but takes
the bases over in the order in which they are written.
-/

theorem List.eq_nil_or_eq_singleton {α : Type} {l : List α} (h : l.length ≤ 1) : l = [] ∨ ∃ a, l = [a] := by
  rcases l with _ | ⟨a, rest⟩
  · exact Or.inl rfl
  · rw [length_cons] at h
    have hrest : rest = [] := eq_nil_of_length_eq_zero (by omega)
    exact Or.inr ⟨a, by rw [hrest]⟩

namespace TreeCompiler

open List Lowering TypeTable

variable {t t' : TypeTable}

/-! ## Written bases -/

/-- The bases that a declaration writes where interfaces are expected: a struct has a class already, and
any other type may start with one. -/
def TypeDecl.laterBases (d : TypeDecl) : List TypeExpr :=
  if d.kind = .structType then d.bases else d.bases.tail

/-- A declaration of the type `type` writes what may mean `base` where interfaces are expected. -/
def WritesLater (trees : List Tree) (type base : QualifiedName) : Prop :=
  ∃ tree ∈ trees, ∃ d, .type d ∈ tree.body ∧ type = tree.module.child d.name ∧
    ∃ e ∈ d.laterBases, e.MayMean tree.module base

namespace TypeTable

/-- No base is listed twice, and those after the first are interfaces, or trees write them there. -/
structure ListsBases (t : TypeTable) (trees : List Tree) (id : TypeId) : Prop where
  nodup : (t.get id).bases.Nodup
  later : ∀ b ∈ (t.get id).bases.tail, b.index < t.size ∧
    ((t.get b).isInterface = true ∨ WritesLater trees (t.get id).name (t.get b).name)

variable {t t' : TypeTable} {trees : List Tree} {id : TypeId}

theorem Keeps.isInterface (h : t.Keeps t') (hid : id.index < t.size) :
    (t'.get id).isInterface = (t.get id).isInterface := by
  have hinterface := congrArg TypeDef.isInterface (h.head id hid)
  exact hinterface

theorem ListsBases.of_length (h : (t.get id).bases.length ≤ 1) : t.ListsBases trees id := by
  rcases eq_nil_or_eq_singleton h with hnil | ⟨a, hone⟩
  · exact ⟨by simp [hnil], by simp [hnil]⟩
  · exact ⟨by simp [hone], by simp [hone]⟩

theorem ListsBases.mono (h : t.ListsBases trees id) (hkeeps : t.Keeps t') (hid : id.index < t.size)
    (hbases : (t'.get id).bases = (t.get id).bases) : t'.ListsBases trees id := by
  refine ⟨hbases ▸ h.nodup, fun b hb => ?_⟩
  obtain ⟨hlt, hkind⟩ := h.later b (hbases ▸ hb)
  refine ⟨hlt.trans_le hkeeps.size, ?_⟩
  rw [hkeeps.isInterface hlt, hkeeps.name hid, hkeeps.name hlt]
  exact hkind

/-! ## Types that are left alone -/

theorem bases_modify_of_same (t : TypeTable) (type : TypeId) {f : TypeDef → TypeDef}
    (hf : ∀ d, (f d).bases = d.bases) (id : TypeId) : ((t.modify type f).get id).bases = (t.get id).bases := by
  rcases t.get_modify_cases type f id with hsame | ⟨-, -, hnew⟩
  · rw [hsame]
  · rw [hnew, hf]

/-- A type of the program has one base at most. -/
def OneBase (t : TypeTable) (id : TypeId) : Prop :=
  (t.get id).origin = .defined → (t.get id).bases.length ≤ 1

theorem OneBase.registers (h : t.OneBase id) (hnew : t.Registers t') : t'.OneBase id := by
  obtain ⟨d, -, hd⟩ := hnew
  rw [OneBase] at h ⊢
  rcases t.get_append_cases d id with ⟨-, hsame⟩ | ⟨-, hnew⟩ | ⟨-, hdefault⟩
  · exact hsame ▸ h
  · rw [hnew]
    exact hd.bases
  · exact fun _ => hdefault ▸ Nat.zero_le 1

theorem OneBase.extends (h : t.OneBase id) (hextends : t.Extends t') : t'.OneBase id := by
  induction hextends with
  | refl => exact h
  | tail _ hlast ih => exact ih.registers hlast

theorem OneBase.modify (h : t.OneBase id) (type : TypeId) {f : TypeDef → TypeDef}
    (hf : ∀ d, (f d).head = d.head ∧ (f d).bases = d.bases) : (t.modify type f).OneBase id := by
  rw [OneBase] at h ⊢
  rcases t.get_modify_cases type f id with hsame | ⟨-, -, hnew⟩
  · exact hsame ▸ h
  · have horigin := congrArg TypeDef.origin (hf (t.get id)).1
    rw [hnew, (hf _).2, show (f (t.get id)).origin = (t.get id).origin from horigin]
    exact h

end TypeTable

namespace Context
variable {π : Grant} {c c' : Context} {id : TypeId}

theorem Fill.bases_eq (h : c.Fill π c') (hid : id.index < c.types.size) (hheir : ¬ π.heirs id) :
    (c'.types.get id).bases = (c.types.get id).bases := by
  rcases h.types_cases with hadds | ⟨d, -, -, -, heq⟩ | ⟨type, f, -, heq, -, htype | hsame⟩
  · rw [hadds.extends.get_eq hid]
  · rw [heq, c.types.get_append_of_lt d hid]
  · rw [heq, c.types.get_modify_of_ne type f id fun heq => hheir (heq ▸ htype)]
  · rw [heq, c.types.bases_modify_of_same type hsame id]

theorem Fills.bases_eq (h : c.Fills π c') (hid : id.index < c.types.size) (hheir : ¬ π.heirs id) :
    (c'.types.get id).bases = (c.types.get id).bases := by
  induction h with
  | refl => rfl
  | tail hinit hlast ih =>
    exact (hlast.bases_eq (hid.trans_le (keeps hinit).size) hheir).trans ih

theorem Fill.oneBase (h : c.Fill π c') (hheir : ¬ π.heirs id) (hid : c.types.OneBase id) : c'.types.OneBase id := by
  rcases h.types_cases with hadds | ⟨d, -, hfree, hd, heq⟩ | ⟨type, f, -, heq, hhead, htype | hsame⟩
  · exact hid.extends hadds.extends
  · exact heq ▸ hid.registers (.mk d hfree hd)
  · have hsame := c.types.get_modify_of_ne type f id fun heq => hheir (heq ▸ htype)
    rw [heq, TypeTable.OneBase, hsame]
    exact hid
  · exact heq ▸ hid.modify type fun d => ⟨hhead d, hsame d⟩

/-- Types that are not filled in keep their lists, and new ones have short lists. -/
theorem Fills.oneBase (h : c.Fills π c') (hheir : ¬ π.heirs id) (hid : c.types.OneBase id) : c'.types.OneBase id := by
  induction h with
  | refl => exact hid
  | tail _ hlast ih => exact hlast.oneBase hheir ih

end Context

/-! ## The list of a declaration -/

def TypeTable.HasRootClass (t : TypeTable) : Prop :=
  ∃ object, t.system? "Object" = some object ∧ (t.get object).isInterface = false

theorem TypeTable.HasRootClass.mono (h : t.HasRootClass) (hkeeps : t.Keeps t') : t'.HasRootClass := by
  obtain ⟨object, hobject, hclass⟩ := h
  refine ⟨object, hkeeps.lookup hobject, ?_⟩
  rw [hkeeps.isInterface (lookup_spec hobject).1]
  exact hclass

namespace Lowering
variable {c : Context} {self : TypeId} {tree : Tree} {l : Lowering} (module : QualifiedName)

theorem mem_of_mem_tail_append {α : Type} {as bs : List α} {b : α} (h : b ∈ (as ++ bs).tail)
    (has : as.length ≤ 1) : b ∈ bs := by
  rcases eq_nil_or_eq_singleton has with rfl | ⟨a, rfl⟩
  · exact mem_of_mem_tail h
  · exact h

theorem later_addBases (self : TypeId) (name : String) (exprs : List TypeExpr) {s : List TypeId × Context}
    (hs : s.1.length ≤ 1) : ∀ b ∈ (exprs.foldl (addBase module self name) s).1.tail,
      b.index < (exprs.foldl (addBase module self name) s).2.types.size ∧ ∃ e ∈ exprs,
        e.MayMean module ((exprs.foldl (addBase module self name) s).2.types.get b).name := by
  obtain ⟨added, hall, -, hadded⟩ := exists_addBases module self name s exprs
  intro b hb
  rw [hall] at hb
  obtain ⟨e, he, c, -, hid, -, -, hextends⟩ := hadded b (mem_of_mem_tail_append hb hs)
  have hlt := (Context.resolves_resolveTypeExpr module c e).found b hid
  have hkeeps := hextends.evolves.keeps
  exact ⟨hlt.trans_le hkeeps.size, e, he, (hkeeps.name hlt).symm ▸ Context.mayMean_resolveTypeExpr hid⟩

theorem length_initialBases_le (c : Context) (d : TypeDecl) : (initialBases c d).length ≤ 1 := by
  unfold initialBases
  split
  · exact Option.length_toList_le
  · exact Nat.zero_le 1

theorem later_writtenBases (self : TypeId) (c : Context) (d : TypeDecl) :
    let s := d.bases.foldl (addBase module self d.name) (initialBases c d, c)
    ∀ b ∈ s.1.tail, b.index < s.2.types.size ∧ ∃ e ∈ d.laterBases, e.MayMean module (s.2.types.get b).name := by
  unfold TypeDecl.laterBases
  split_ifs with hstruct
  · exact later_addBases module self d.name d.bases (length_initialBases_le c d)
  · -- the first written base is the first of all, if it is not left out
    rw [initialBases, if_neg hstruct]
    cases d.bases with
    | nil => exact forall_mem_nil _
    | cons expr exprs =>
      refine later_addBases module self d.name exprs ?_
      rcases addBase_cases module self d.name ([], c) expr with ⟨hsame, -⟩ | ⟨id, -, hnew, -⟩
      · rw [hsame]
        exact Nat.zero_le 1
      · rw [hnew]
        exact Nat.le_refl 1

/-- A declaration lists no base twice, and after the first it lists interfaces, and what it writes where
interfaces are expected. -/
theorem lists_bases (self : TypeId) (d : TypeDecl) (hroot : c.types.HasRootClass) : (bases module self c d).1.Nodup ∧
      ∀ b ∈ (bases module self c d).1.tail, b.index < (bases module self c d).2.types.size ∧
        (((bases module self c d).2.types.get b).isInterface = true ∨
          ∃ e ∈ d.laterBases, e.MayMean module ((bases module self c d).2.types.get b).name) := by
  have hroot' := hroot.mono (consults_bases module self c d).types.keeps
  have hlater := later_writtenBases module self c d
  obtain ⟨added, hall, hnodup, -⟩ := exists_addBases module self d.name (initialBases c d, c) d.bases
  have hnodup := hnodup (by
    rcases eq_nil_or_eq_singleton (length_initialBases_le c d) with heq | ⟨a, heq⟩ <;> simp [heq])
  rw [← hall] at hnodup
  obtain ⟨front, heq, hfront⟩ := exists_bases_eq module self c d
  rw [heq] at hroot' ⊢
  cases front with
  | none => exact ⟨hnodup, fun b hb => (hlater b hb).imp_right Or.inr⟩
  | some object =>
    -- there are interfaces only, and the class at the root comes before them
    obtain ⟨hobject, hinterface⟩ := hfront object rfl
    obtain ⟨object', hobject', hclass⟩ := hroot'
    cases hobject.symm.trans hobject'
    refine ⟨nodup_cons.mpr ⟨fun hmem => ?_, hnodup⟩, fun b hb => ⟨?_, Or.inl (hinterface b hb)⟩⟩
    · cases (hinterface _ hmem).symm.trans hclass
    · exact lt_size_addBases module self d.name (lt_size_initial c d) d.bases b hb

/-! ## Types that are filled in -/

variable {trees : List Tree}

/-- A type gets the bases that its declaration makes, and its members leave them. -/
theorem bases_fillType (hself : self.index < l.context.types.size) (d : TypeDecl) :
    (bases module self l.context d).2.types.Keeps (l.fillType module self d).context.types ∧
      ((l.fillType module self d).context.types.get self).bases = (bases module self l.context d).1 := by
  obtain ⟨f, htypes, hf⟩ := exists_types_headed module self l.context d
  have hlt := hself.trans_le (consults_bases module self l.context d).size
  have hmembers : (headed module self l.context d).Edits _ (l.fillType module self d).context :=
    edits_addMembers (π := .basesOf fun _ => False) module trivial (l.withContext _) nofun fun _ _ => trivial
  constructor
  · have hrevise := (bases module self l.context d).2.types.keeps_modify self (fun d' => (hf d').1)
      fun d' => (congrArg (·.2.1.map Method.header) (hf d').2.1).symm ▸ prefix_rfl
    exact (htypes ▸ hrevise).trans hmembers.keeps
  · rw [hmembers.fills.bases_eq ((congrArg size htypes).trans (size_modify _ _ _) ▸ hlt)
      not_false, htypes, get_modify_self _ self f hlt]
    exact (hf _).2.2

theorem listsBases_fillType (htree : tree ∈ trees) {d : TypeDecl} (hd : .type d ∈ tree.body)
    (hroot : l.context.types.HasRootClass) (hself : self.index < l.context.types.size)
    (hname : (l.context.types.get self).name = tree.module.child d.name) :
    (l.fillType tree.module self d).context.types.ListsBases trees self := by
  have hbefore := (consults_bases tree.module self l.context d).types.keeps
  obtain ⟨hnodup, hlater⟩ := lists_bases tree.module self d hroot
  obtain ⟨hkeeps, hbases⟩ := bases_fillType tree.module hself d
  refine ⟨hbases ▸ hnodup, fun b hb => ?_⟩
  obtain ⟨hlt, hkind⟩ := hlater b (hbases ▸ hb)
  refine ⟨hlt.trans_le hkeeps.size, ?_⟩
  rw [hkeeps.isInterface hlt, hkeeps.name hlt, (hbefore.trans hkeeps).name hself, hname]
  exact hkind.imp_right fun ⟨e, he, hmeans⟩ => ⟨tree, htree, d, hd, rfl, e, he, hmeans⟩

theorem length_bases_describe {π : Grant} {c₀ c' : Context} (hheir : ¬ π.heirs self)
    (hself : self.index < c₀.types.size) (hempty : (c₀.types.get self).bases = []) (hbefore : c₀.Instantiates c)
    {bases : List TypeId} (hbases : bases.length ≤ 1) (attributes : List Attribute) (modifiers : List Modifier)
    (hafter : (describe c self bases attributes modifiers).Edits π c') : (c'.types.get self).bases.length ≤ 1 := by
  have hlt := hself.trans_le hbefore.size
  have hdescribed : ((describe c self bases attributes modifiers).types.get self).bases =
      (c.types.get self).bases ++ bases :=
    congrArg TypeDef.bases (c.types.get_modify_self self _ hlt)
  rw [hafter.fills.bases_eq (hlt.trans_eq (size_modify _ _ _).symm) hheir, hdescribed,
    hbefore.extends.get_eq hself, hempty]
  exact hbases

variable (hself : self.index < c.types.size) (hempty : (c.types.get self).bases = [])
include hself hempty

theorem length_bases_fillEnum (d : EnumDecl) : ((fillEnum c module self d).types.get self).bases.length ≤ 1 := by
  obtain ⟨hunderlying, hcovers, -, -⟩ := resolves_enumUnderlying module c d.underlying
  have hattributes := ((enumUnderlying module c d.underlying).2.instantiates_attributes module d.annotations .enums).1
  rw [fillEnum_eq]
  refine length_bases_describe (π := .basesOf fun _ => False) not_false hself hempty
    (hunderlying.trans hattributes) Option.length_toList_le _ d.modifiers
    (edits_enumFields module trivial ?_ d (fun id hid => ?_) nofun)
  · rw [size_describe]
    exact hself.trans_le (hunderlying.trans hattributes).size
  · rw [size_describe]
    exact (hcovers id hid).trans_le hattributes.size

theorem length_bases_fillUnion (d : UnionDecl) : ((fillUnion c module self d).types.get self).bases.length ≤ 1 :=
  length_bases_describe (π := .basesOf fun _ => False) not_false hself hempty
    (c.instantiates_attributes module d.annotations .structs).1 Option.length_toList_le _ d.modifiers
    (edits_addUnionFields module trivial _ d.fields)

theorem length_bases_fillTaggedUnion {variants : List (Option TypeId)} {d : TaggedUnionDecl}
    (hvariants : ∀ v ∈ d.variants.zip variants, ∀ id, v.2 = some id → id ≠ self ∧ id.index < c.types.size) :
    ((fillTaggedUnion c module self variants d).types.get self).bases.length ≤ 1 := by
  have hattributes := (c.instantiates_attributes module d.annotations .classes).1
  have hkeeps : c.types.Keeps (describe (c.attributes module d.annotations .classes).2 self
      (c.types.system? "Object").toList (c.attributes module d.annotations .classes).1 d.modifiers).types :=
    hattributes.types.keeps.trans (keeps_modify _ self (fun _ => rfl) fun _ => prefix_rfl)
  refine length_bases_describe (π := .basesOf (· ≠ self)) (not_not.mpr rfl) hself hempty hattributes
    Option.length_toList_le _ d.modifiers (edits_fillVariants (π := .basesOf (· ≠ self)) module hkeeps
      ((c.types.covers_primitive? .void).mono hkeeps.size) (hself.trans_le hkeeps.size) nofun
      (fun _ _ => trivial) fun v hv id hid => ?_)
  obtain ⟨hother, hlt⟩ := hvariants v hv id hid
  exact ⟨trivial, hother, hlt.trans_le hkeeps.size, nofun⟩

end Lowering

/-! ## All types -/

namespace Compilation
variable {trees : List Tree} {options : Options} {before after : List (Declaration × Declared)}
  {module : QualifiedName} {d : Decl} {declared' : Declared}

theorem hasRootClass_of_run {c : Context} (h : Run options (start trees options).context c) :
    c.types.HasRootClass := by
  obtain ⟨-, hobject, hclass⟩ := external_install options.target
  have hroot : (platform options).HasRootClass := ⟨⟨0⟩, hobject, hclass⟩
  exact hroot.mono (keeps_of_run trees options h)

theorem hasRootClass_lowered (trees : List Tree) (options : Options) :
    (lowered trees options).assembly.types.HasRootClass :=
  hasRootClass_of_run ((run_declared trees options).trans (run_completing trees options (append_nil _).symm).1)

/-- The lists of the types that a declaration registered, at the end. -/
theorem listsBases_registered (h : registrations trees options = before ++ (⟨module, d⟩, declared') :: after) :
    d.Registered (fun id _ => (lowered trees options).assembly.types.ListsBases trees id) module declared' := by
  obtain ⟨-, hregistered, hkeeps, -⟩ := filled_of_registrations h rfl
  have hroot := hasRootClass_of_run ((run_allRegistered trees options).trans (run_filling trees options h).1)
  have hmem : ((⟨module, d⟩, declared') : Declaration × Declared) ∈ registrations trees options := by simp [h]
  obtain ⟨tree, htree, rfl, hd⟩ := Tree.mem_declarations.mp (of_mem_zip hmem).1
  generalize hl : fillAll { context := allRegistered trees options } before = l at *
  have hown := keeps_fill tree.module l (hregistered.imp fun _ _ hf => hf.lt_size)
  have hlast : ∀ {id : TypeId} {first : TypeDef}, Fashions trees options l.context
      (fill tree.module l (d, declared')).context id first →
      (fill tree.module l (d, declared')).context.types.ListsBases trees id →
      (lowered trees options).assembly.types.ListsBases trees id := by
    intro id first hf hlists
    have hbases := congrArg TypeDef.bases hf.shell
    exact hlists.mono hkeeps (hf.lt_size.trans_le hown.size) hbases
  cases d with
  | type d =>
    cases declared' with
    | type id =>
      exact hlast hregistered (listsBases_fillType htree hd hroot hregistered.lt_size
        (congrArg TypeDef.name hregistered.start))
    | _ => trivial
  | enum d =>
    cases declared' with
    | type id =>
      exact hlast hregistered (.of_length (length_bases_fillEnum tree.module hregistered.lt_size
        (congrArg TypeDef.bases hregistered.start) d))
    | _ => trivial
  | union d =>
    cases declared' with
    | type id =>
      exact hlast hregistered (.of_length (length_bases_fillUnion tree.module hregistered.lt_size
        (congrArg TypeDef.bases hregistered.start) d))
    | _ => trivial
  | taggedUnion d =>
    cases declared' with
    | taggedUnion base variants =>
      obtain ⟨hbase, hvariants⟩ := hregistered
      obtain ⟨hlength, hall⟩ := forall₂_iff_zip.mp hvariants
      refine ⟨hlast hbase (.of_length (length_bases_fillTaggedUnion tree.module hbase.lt_size
        (congrArg TypeDef.bases hbase.start) fun v hv id hid => ?_)),
        forall₂_iff_zip.mpr ⟨hlength, fun hv id hid => ?_⟩⟩
      · obtain ⟨v, type⟩ := v
        cases hid
        exact ⟨ne_base_of_registrations h hv, (hall hv id rfl).lt_size⟩
      · cases hid
        obtain ⟨fs, -, hget⟩ := get_variant h hv hl
        exact hlast (hall hv id rfl) (.of_length (congrArg (·.bases.length) hget).le)
    | _ => trivial
  | _ => trivial

/-- No type of a program lists a base twice, and after the first it lists interfaces, and what its
declaration writes where interfaces are expected. -/
theorem listsBases_lowered (trees : List Tree) (options : Options) {id : TypeId}
    (hdefined : ((lowered trees options).assembly.types.get id).origin = .defined) :
    (lowered trees options).assembly.types.ListsBases trees id := by
  by_contra hother
  -- no declaration registered the type, so it has the bases that it came with
  have hbrings := (start trees options).context.brings_declareAll (Tree.declarations trees)
  have hplatform : (start trees options).context.types.OneBase id := by
    intro hdefined
    rw [types_start] at hdefined
    have horigin := forall_get (P := fun d => d.origin = .external) rfl
      (fun d hd => ((external_install options.target).1 d hd).1) id
    cases horigin.symm.trans hdefined
  have hfills : (allRegistered trees options).Fills
      (.basesOf fun id => (lowered trees options).assembly.types.ListsBases trees id)
      (declared trees options).context := by
    rw [declared_eq]
    refine (edits_fillAll (π := .basesOf _) (l := { context := _ }) nofun trivial (fun _ _ _ _ => trivial) nofun
      (fun _ _ _ _ => trivial) fun e he => ?_).fills
    obtain ⟨before, after, hsplit⟩ := append_of_mem he
    refine (listsBases_registered hsplit).imp_of_mem fun id hid _ _ hlists => ⟨trivial, hlists, ?_, nofun⟩
    exact (hbrings.range id (mem_flatMap.mpr ⟨e.2, (of_mem_zip he).2, hid⟩)).2
  have hdeclared := hfills.oneBase hother (hplatform.extends hbrings.types)
  have hlowered := Context.invariant_lowerBodies (Q := (TypeTable.OneBase · id)) (fun _ _ hnew h => h.registers hnew)
    (fun _ m g h => h.modify m.type fun _ => ⟨rfl, rfl⟩) hdeclared (declared trees options).queue
  exact hother (.of_length (hlowered hdefined))

end Compilation

end TreeCompiler
