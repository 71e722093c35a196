import TreeCompiler.Proofs.Image.Denotation
import TreeCompiler.Proofs.Lowering.BaseLists

/-!
# Bases in an image

The row of a type has one place for what the type extends and a list of interfaces. A base that is an
interface is put in the list; of the other bases only the first of all bases has a place.
-/

namespace TreeCompiler

/-! ## Tokens of types -/

theorem Token.ofRow_inj {table table' : UInt8} {row row' : Nat} (hrow : row < 2 ^ 24)
    (hrow' : row' < 2 ^ 24) (h : ofRow table row = ofRow table' row') : table = table' ∧ row = row' := by
  constructor
  · rw [← table_ofRow table row, h, table_ofRow]
  · rw [← row_ofRow table hrow, h, row_ofRow table' hrow']

namespace Assembly.Finished
variable {a : Assembly} {f : References} {i : Image} {token : Token}

/-- The token of a type leads to its place among the definitions, or among the types of libraries. -/
theorem place_of_namesType (h : a.Finished f i) (hfits : i.Fits) {id : TypeId}
    (hid : f.NamesType a.types token id) : ∃ table n, token = .ofRow table (n + 1) ∧ n + 1 < 2 ^ 24 ∧
      (table = 0x02 ∧ (a.types.defined.map Prod.fst)[n]? = some id ∨
        table = 0x01 ∧ f.types[n]? = some id) := by
  have htypeDefs : a.types.defined.length < 2 ^ 24 := h.described.typeDefs.length_eq ▸ hfits.typeDefs
  have htypeRefs : f.types.length < 2 ^ 24 := by
    have hlength := hfits.typeRefs
    rwa [h.typeRefs, List.length_map] at hlength
  unfold References.NamesType at hid
  cases hrows : a.types.rowsOf? id with
  | some rows =>
    rw [hrows] at hid
    obtain ⟨k, d, hk, rfl⟩ := TypeTable.rowsOf?_eq_some_iff.mp hrows
    have hlt := (List.getElem?_eq_some_iff.mp hk).1
    refine ⟨0x02, k, hid, by omega, Or.inl ⟨rfl, ?_⟩⟩
    rw [List.getElem?_map, hk]
    rfl
  | none =>
    rw [hrows] at hid
    obtain ⟨n, hn, hid⟩ := hid
    have hlt := (List.getElem?_eq_some_iff.mp hn).1
    exact ⟨0x01, n, hid, by omega, Or.inr ⟨rfl, hn⟩⟩

/-- A token stands for one type. -/
theorem namesType_inj (h : a.Finished f i) (hfits : i.Fits) {id id' : TypeId}
    (hid : f.NamesType a.types token id) (hid' : f.NamesType a.types token id') : id = id' := by
  obtain ⟨table, n, htoken, hn, hplace⟩ := h.place_of_namesType hfits hid
  obtain ⟨table', n', htoken', hn', hplace'⟩ := h.place_of_namesType hfits hid'
  obtain ⟨htable, hrow⟩ := Token.ofRow_inj hn hn' (htoken.symm.trans htoken')
  cases Nat.succ.inj hrow
  rcases hplace with ⟨rfl, hid⟩ | ⟨rfl, hid⟩ <;> rcases hplace' with ⟨rfl, hid'⟩ | ⟨rfl, hid'⟩
  · exact Option.some.inj (hid.symm.trans hid')
  · exact absurd htable (by decide)
  · exact absurd htable (by decide)
  · exact Option.some.inj (hid.symm.trans hid')

end Assembly.Finished

/-! ## Rows -/

theorem exists_mem_of_forall₂ {α β : Type} {R : α → β → Prop} {as : List α} {bs : List β}
    (h : List.Forall₂ R as bs) {b : β} (hb : b ∈ bs) : ∃ a ∈ as, R a b := by
  obtain ⟨k, hk⟩ := List.mem_iff_getElem?.mp hb
  obtain ⟨a, ha, hab⟩ := h.flip.exists_getElem? hk
  exact ⟨a, List.mem_of_getElem? ha, hab⟩

theorem nodup_of_forall₂ {α β : Type} {R : α → β → Prop} (hR : ∀ a a' b, R a b → R a' b → a = a')
    {as : List α} {bs : List β} (h : List.Forall₂ R as bs) (has : as.Nodup) : bs.Nodup := by
  induction h with
  | nil => exact List.nodup_nil
  | cons hab hrest ih =>
    obtain ⟨hnew, hnodup⟩ := List.nodup_cons.mp has
    refine List.nodup_cons.mpr ⟨fun hb => ?_, ih hnodup⟩
    obtain ⟨a', ha', hab'⟩ := exists_mem_of_forall₂ hrest hb
    exact hnew (hR _ _ _ hab hab' ▸ ha')

/-- The token of a base stands in a row once: among the interfaces if the base is one, else as what the
type extends. -/
def References.ShowsOnce (f : References) (t : TypeTable) (row : TypeDefRow) (base : TypeId) : Prop :=
  ∃ token, f.NamesType t token base ∧
    if (t.get base).isInterface then row.interfaces.count token = 1 ∧ row.base ≠ some token
    else row.base = some token ∧ token ∉ row.interfaces

namespace TypeTable
variable {t : TypeTable} {d : TypeDef} {b : TypeId}

theorem isInterface_of_baseType? (hroot : t.HasRootClass) (h : t.baseType? d = some b) :
    (t.get b).isInterface = false := by
  rcases Option.or_eq_some_iff.mp h with hclass | ⟨-, hobject⟩
  · simpa using (Option.filter_eq_some_iff.mp hclass).2
  · obtain ⟨object, hroot, hnone⟩ := hroot
    split_ifs at hobject
    have hsame : some object = some b := hroot.symm.trans hobject
    cases hsame
    exact hnone

theorem baseType?_of_head (hb : d.bases.head? = some b) (hclass : (t.get b).isInterface = false) :
    t.baseType? d = some b := by
  have hbase : Emission.classBase? t d = some b :=
    Option.filter_eq_some_iff.mpr ⟨hb, by rw [hclass]; rfl⟩
  rw [baseType?, hbase]
  rfl

namespace DescribesType
variable {t : TypeTable} {f : References} {type : TypeId} {d : TypeDef} {row : TypeDefRow}
  (hrow : t.DescribesType (f.Names t) type d row) {token : Token}
include hrow

theorem exists_baseType? (htoken : row.base = some token) : ∃ id, t.baseType? d = some id ∧ f.NamesType t token id := by
  have hrel := hrow.base
  rw [htoken] at hrel
  generalize t.baseType? d = base at hrel
  cases hrel with
  | some hnames => exact ⟨_, rfl, hnames⟩

theorem exists_base {id : TypeId} (hid : t.baseType? d = some id) :
    ∃ token, row.base = some token ∧ f.NamesType t token id := by
  have hrel := hrow.base
  rw [hid] at hrel
  generalize row.base = base at hrel
  cases hrel with
  | some hnames => exact ⟨_, rfl, hnames⟩

theorem exists_interface (htoken : token ∈ row.interfaces) :
    ∃ id, (t.get id).isInterface = true ∧ f.NamesType t token id := by
  obtain ⟨id, hid, hnames⟩ := exists_mem_of_forall₂ hrow.interfaces htoken
  exact ⟨id, (List.mem_filter.mp hid).2, hnames⟩

end DescribesType

end TypeTable

namespace Assembly.Finished
variable {a : Assembly} {f : References} {i : Image} {type b : TypeId} {d : TypeDef} {row : TypeDefRow}
  (h : a.Finished f i) (hfits : i.Fits) (hroot : a.types.HasRootClass)
  (hrow : a.types.DescribesType (f.Names a.types) type d row)
include h hfits hroot hrow

theorem showsOnce_of_interface (hnodup : d.bases.Nodup) (hb : b ∈ d.bases)
    (hinterface : (a.types.get b).isInterface = true) : f.ShowsOnce a.types row b := by
  have hmem : b ∈ d.bases.filter fun b => (a.types.get b).isInterface :=
    List.mem_filter.mpr ⟨hb, hinterface⟩
  obtain ⟨k, hk⟩ := List.mem_iff_getElem?.mp hmem
  obtain ⟨token, htoken, hnames⟩ := hrow.interfaces.exists_getElem? hk
  have htokens : row.interfaces.Nodup :=
    nodup_of_forall₂ (R := fun id token => f.NamesType a.types token id)
      (fun _ _ _ hid hid' => h.namesType_inj hfits hid hid') hrow.interfaces (hnodup.filter _)
  refine ⟨token, hnames, ?_⟩
  rw [if_pos hinterface]
  refine ⟨List.count_eq_one_of_mem htokens (List.mem_of_getElem? htoken), fun hextends => ?_⟩
  obtain ⟨id, hid, hnames'⟩ := hrow.exists_baseType? hextends
  rw [h.namesType_inj hfits hnames hnames', TypeTable.isInterface_of_baseType? hroot hid] at hinterface
  cases hinterface

theorem showsOnce_of_baseType? (hextends : a.types.baseType? d = some b) : f.ShowsOnce a.types row b := by
  have hclass := TypeTable.isInterface_of_baseType? hroot hextends
  obtain ⟨token, htoken, hnames⟩ := hrow.exists_base hextends
  refine ⟨token, hnames, ?_⟩
  rw [if_neg (Bool.eq_false_iff.mp hclass)]
  refine ⟨htoken, fun hmem => ?_⟩
  obtain ⟨id, hid, hnames'⟩ := hrow.exists_interface hmem
  rw [← h.namesType_inj hfits hnames hnames', hclass] at hid
  cases hid

/-- A row shows the bases that are interfaces and the one that the type extends. -/
theorem showsOnce_iff (hnodup : d.bases.Nodup) (hb : b ∈ d.bases) : f.ShowsOnce a.types row b ↔
      (a.types.get b).isInterface = true ∨ a.types.baseType? d = some b := by
  constructor
  · rintro ⟨token, hnames, hplace⟩
    split_ifs at hplace with hinterface
    · exact Or.inl hinterface
    · obtain ⟨id, hid, hnames'⟩ := hrow.exists_baseType? hplace.1
      rw [h.namesType_inj hfits hnames hnames']
      exact Or.inr hid
  · rintro (hinterface | hextends)
    · exact h.showsOnce_of_interface hfits hroot hrow hnodup hb hinterface
    · exact h.showsOnce_of_baseType? hfits hroot hrow hextends

end Assembly.Finished

/-! ## Programs -/

instance (i : Image) : Decidable i.Fits :=
  decidable_of_iff (i.typeRefs.length < 2 ^ 24 ∧ i.memberRefs.length < 2 ^ 24 ∧
      i.userStrings.length < 2 ^ 24 ∧ i.typeDefs.length < 2 ^ 24 ∧
      (i.typeDefs.flatMap (·.fields)).length < 2 ^ 24 ∧
      (i.typeDefs.flatMap (·.methods)).length < 2 ^ 24)
    ⟨fun ⟨h₁, h₂, h₃, h₄, h₅, h₆⟩ => ⟨h₁, h₂, h₃, h₄, h₅, h₆⟩, fun ⟨h₁, h₂, h₃, h₄, h₅, h₆⟩ =>
      ⟨h₁, h₂, h₃, h₄, h₅, h₆⟩⟩

/-- What is true of the bases of a type and of its row. -/
structure TypeTable.ShowsBases (t : TypeTable) (trees : List Tree) (f : References) (d : TypeDef)
    (row : TypeDefRow) : Prop where
  nodup : d.bases.Nodup
  /-- After the first base there are interfaces, and what the declaration writes where interfaces are
  expected. -/
  later : ∀ b ∈ d.bases.tail,
    (t.get b).isInterface = true ∨ WritesLater trees d.name (t.get b).name
  /-- Interfaces are shown, and the one base that the type extends. -/
  shown_iff : ∀ b ∈ d.bases,
    f.ShowsOnce t row b ↔ (t.get b).isInterface = true ∨ t.baseType? d = some b
  /-- Where only interfaces come after the first base, no base is lost. -/
  complete : (∀ b ∈ d.bases.tail, (t.get b).isInterface = true) → ∀ b ∈ d.bases, f.ShowsOnce t row b

namespace Compilation

/-- In an image with fewer than 2 ^ 24 rows to a table, the row of a type shows each of its bases once, but
for classes that come after the first base; and these are written so. -/
theorem shows_bases {trees : List Tree} {options : Options} {image : Image}
    (himage : (lowered trees options).assembly.image = .ok image) (hfits : image.Fits) :
    ∃ f, (lowered trees options).assembly.Finished f image ∧
      ∀ (k : Nat) id d, (lowered trees options).assembly.types.defined[k]? = some (id, d) →
        ∃ row, image.typeDefs[k]? = some row ∧
          (lowered trees options).assembly.types.ShowsBases trees f d row := by
  have hroot := hasRootClass_lowered trees options
  have hlists := @listsBases_lowered trees options
  generalize (lowered trees options).assembly = a at himage hroot hlists ⊢
  obtain ⟨f, hfinished⟩ := Assembly.finished_of_image himage
  refine ⟨f, hfinished, fun k id d hk => ?_⟩
  have hmem := List.mem_of_getElem? hk
  have hd : a.types.get id = d := TypeTable.get_of_mem_defined hmem
  have hdefined : d.origin = .defined := by simpa using (List.mem_filter.mp hmem).2
  have hlist : a.types.ListsBases trees id := hlists (hd ▸ hdefined)
  obtain ⟨row, hrow, hdescribes⟩ := hfinished.typeDef hk
  have hnodup : d.bases.Nodup := hd ▸ hlist.nodup
  have hshown := fun b => hfinished.showsOnce_iff hfits hroot hdescribes hnodup (b := b)
  refine ⟨row, hrow, hnodup, fun b hb => ?_, hshown, fun hlater b hb => (hshown b hb).mpr ?_⟩
  · rw [← hd] at hb ⊢
    exact (hlist.later b hb).2
  · -- a base that is no interface is the first
    by_cases hinterface : (a.types.get b).isInterface = true
    · exact Or.inl hinterface
    · refine Or.inr (TypeTable.baseType?_of_head ?_ (eq_false_of_ne_true hinterface))
      cases hbases : d.bases with
      | nil =>
        rw [hbases] at hb
        cases hb
      | cons first rest =>
        rw [hbases] at hb hlater
        rcases List.mem_cons.mp hb with rfl | hrest
        · rfl
        · exact absurd (hlater b hrest) hinterface

/-- An interface `I`, a class `A`, and a class under both, the interface first. -/
def lateClassTree : Tree :=
  { module := ⟨["Demo"]⟩
    body := [
      .type { kind := .interfaceType, name := "I" },
      .type { kind := .classType, name := "A" },
      .type { kind := .classType, name := "C", bases := [.named ⟨["I"]⟩ {}, .named ⟨["A"]⟩ {}] }] }

theorem shows_bases_lateClassTree : ∃ image, (lowered [lateClassTree] {}).assembly.image = .ok image ∧
    image.Fits ∧ ∃ f, (lowered [lateClassTree] {}).assembly.Finished f image ∧
      ∀ (k : Nat) id d, (lowered [lateClassTree] {}).assembly.types.defined[k]? = some (id, d) →
        ∃ row, image.typeDefs[k]? = some row ∧
          (lowered [lateClassTree] {}).assembly.types.ShowsBases [lateClassTree] f d row := by
  have hbuilt : ((lowered [lateClassTree] {}).assembly.image.toOption.any fun image =>
      decide image.Fits) = true := by decide +kernel
  cases himage : (lowered [lateClassTree] {}).assembly.image with
  | error e =>
    rw [himage] at hbuilt
    cases hbuilt
  | ok image =>
    have hfits : image.Fits := by
      rw [himage] at hbuilt
      exact of_decide_eq_true hbuilt
    exact ⟨image, rfl, hfits, shows_bases himage hfits⟩

/-- The class `C` has the bases `I` and `A`, but its row says that it extends the class at the root and
has the interface `I`; nothing in it stands for `A`. -/
theorem second_class_lost :
    (lowered [lateClassTree] {}).diagnostics = [] ∧
    ((lowered [lateClassTree] {}).assembly.types.defined.map fun d =>
      (d.2.name.text, d.2.bases.map fun b =>
        ((lowered [lateClassTree] {}).assembly.types.get b).name.text)) =
      [("Demo.I", []), ("Demo.A", ["System.Object"]), ("Demo.C", ["Demo.I", "Demo.A"])] ∧
    ((lowered [lateClassTree] {}).assembly.image.toOption.map fun image =>
      (image.typeDefs.map fun row => (row.name, row.base, row.interfaces),
        image.typeRefs.map fun row => row.name)) =
      some ([("I", none, []), ("A", some (.typeRef 2), []),
        ("C", some (.typeRef 2), [.typeDef 1])], ["TargetFrameworkAttribute", "Object"]) := by
  decide +kernel

end Compilation

end TreeCompiler
