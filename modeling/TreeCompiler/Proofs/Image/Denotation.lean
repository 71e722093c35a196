import TreeCompiler.Proofs.Image.RowTokens
import Mathlib.Algebra.Group.Nat.Defs

/-!
# What the tokens of a finished image denote

A reader of an image takes a token apart into the number of a table and a row of it. The rows of fields
and methods are those of all types, one type after the other.
-/

theorem List.Forall₂.exists_getElem? {α β : Type} {R : α → β → Prop} {as : List α} {bs : List β}
    (h : Forall₂ R as bs) {k : Nat} {a : α} (ha : as[k]? = some a) : ∃ b, bs[k]? = some b ∧ R a b := by
  induction h generalizing k with
  | nil => cases ha
  | cons hab _ ih =>
    cases k with
    | zero =>
      cases ha
      exact ⟨_, rfl, hab⟩
    | succ k => exact ih ha

namespace TreeCompiler

open List TypeTable Emission References Token TypeDef

/-! ## Tokens -/

namespace Token

variable (table : UInt8) (row : Nat)

theorem toNat_ofRow : (ofRow table row).raw.toNat = table.toNat * 2 ^ 24 + row % 2 ^ 24 := by
  have htable := table.toNat_lt
  have hlow : (UInt32.ofNat row &&& 0xFFFFFF).toNat = row % 2 ^ 24 := by
    rw [UInt32.toNat_and, show (0xFFFFFF : UInt32).toNat = 2 ^ 24 - 1 from rfl,
      Nat.and_two_pow_sub_one_eq_mod, UInt32.toNat_ofNat']
    omega
  have hhigh : (table.toUInt32 <<< 24).toNat = table.toNat <<< 24 := by
    rw [UInt32.toNat_shiftLeft, UInt8.toNat_toUInt32]
    change table.toNat <<< 24 % 2 ^ 32 = _
    rw [Nat.shiftLeft_eq]
    omega
  change (table.toUInt32 <<< 24 ||| (UInt32.ofNat row &&& 0xFFFFFF)).toNat = _
  rw [UInt32.toNat_or, hhigh, hlow, ← Nat.shiftLeft_add_eq_or_of_lt (Nat.mod_lt _ (by decide)), Nat.shiftLeft_eq]

theorem table_ofRow : (ofRow table row).table = table := by
  have htable := table.toNat_lt
  apply UInt8.toNat_inj.mp
  rw [Token.table, UInt32.toNat_toUInt8, UInt32.toNat_shiftRight, toNat_ofRow]
  change (table.toNat * 2 ^ 24 + row % 2 ^ 24) >>> 24 % 2 ^ 8 = table.toNat
  rw [Nat.shiftRight_eq_div_pow]
  omega

theorem row_ofRow {row : Nat} (h : row < 2 ^ 24) : (ofRow table row).row.toNat = row := by
  rw [Token.row, UInt32.toNat_and, toNat_ofRow, show (0xFFFFFF : UInt32).toNat = 2 ^ 24 - 1 from rfl,
    Nat.and_two_pow_sub_one_eq_mod]
  omega

/-- The token leads to a row of the table of a number, whose rows are `rows`. -/
structure LeadsTo {α : Type} (token : Token) (table : UInt8) (rows : List α) (row : α) : Prop where
  table_eq : token.table = table
  row_pos : 0 < token.row.toNat
  getElem?_row : rows[token.row.toNat - 1]? = some row

theorem leadsTo_ofRow {α : Type} {rows : List α} {n : Nat} {row : α}
    (hrow : rows[n]? = some row) (hrows : rows.length < 2 ^ 24) :
    (ofRow table (n + 1)).LeadsTo table rows row ∧ (ofRow table (n + 1)).row.toNat = n + 1 := by
  have hn : n < rows.length := (List.getElem?_eq_some_iff.mp hrow).1
  have hnum : (ofRow table (n + 1)).row.toNat = n + 1 := row_ofRow table (by omega)
  refine ⟨⟨table_ofRow table _, ?_, ?_⟩, hnum⟩
  · omega
  · rw [hnum]
    exact hrow

end Token

/-! ## Rows of all types -/

section Rows
variable {α β γ δ : Type} {bs : List β}

theorem length_flatMap_of_forall₂ {R : α → β → Prop} {g : α → List γ} {h : β → List δ}
    (hlen : ∀ a b, R a b → (g a).length = (h b).length) {as : List α} (hR : Forall₂ R as bs) :
    (as.flatMap g).length = (bs.flatMap h).length := by
  induction hR with
  | nil => rfl
  | cons hab _ ih =>
    rw [flatMap_cons, flatMap_cons, length_append, length_append, hlen _ _ hab, ih]

theorem getElem?_flatMap_take {h : β → List δ} {k j : Nat} {b : β} {d : δ} (hb : bs[k]? = some b)
    (hd : (h b)[j]? = some d) : (bs.flatMap h)[((bs.take k).flatMap h).length + j]? = some d := by
  have hsplit : bs = bs.take k ++ b :: bs.drop (k + 1) := by
    obtain ⟨hk, rfl⟩ := List.getElem?_eq_some_iff.mp hb
    rw [getElem_cons_drop, take_append_drop]
  have hj : j < (h b).length := (List.getElem?_eq_some_iff.mp hd).1
  have hflat : bs.flatMap h = (bs.take k).flatMap h ++ (h b ++ (bs.drop (k + 1)).flatMap h) := by
    rw [← flatMap_cons, ← flatMap_append, ← hsplit]
  rw [hflat, getElem?_append_right (Nat.le_add_right _ _), Nat.add_sub_cancel_left, getElem?_append_left hj, hd]

end Rows

namespace Image

/-- The token leads to the row that the type at place `k` has at place `j`, among the rows of all
types. -/
structure LeadsInto {α : Type} (i : Image) (token : Token) (table : UInt8)
    (rows : TypeDefRow → List α) (k j : Nat) (row : α) : Prop where
  leadsTo : token.LeadsTo table (i.typeDefs.flatMap rows) row
  own : ∃ d, i.typeDefs[k]? = some d ∧ (rows d)[j]? = some row
  row_eq : token.row.toNat = ((i.typeDefs.take k).flatMap rows).length + j + 1

/-- No table has more rows than a token can tell apart. -/
structure Fits (i : Image) : Prop where
  typeRefs : i.typeRefs.length < 2 ^ 24
  memberRefs : i.memberRefs.length < 2 ^ 24
  userStrings : i.userStrings.length < 2 ^ 24
  typeDefs : i.typeDefs.length < 2 ^ 24
  fields : (i.typeDefs.flatMap (·.fields)).length < 2 ^ 24
  methods : (i.typeDefs.flatMap (·.methods)).length < 2 ^ 24

/-! ## Entities -/

section Denotes
variable (i : Image) (t : TypeTable) (token : Token)

/-- The token leads to the row of a type: among the definitions if the program defines it, else among
the types of libraries. -/
def DenotesType (id : TypeId) : Prop :=
  (∃ k d row, t.defined[k]? = some (id, d) ∧ token.LeadsTo 0x02 i.typeDefs row ∧
    token.row.toNat = k + 1 ∧ row.namespaceName = d.name.qualifier.text ∧ row.name = d.name.last) ∨
  (∀ d, (id, d) ∉ t.defined) ∧ ∃ row, token.LeadsTo 0x01 i.typeRefs row ∧
    row.namespaceName = (t.get id).name.qualifier.text ∧ row.name = (t.get id).name.last

/-- The token leads to the row of the method or accessor that a defined type has at a place. -/
def DenotesMethodRow (type : TypeId) (j : Nat) (m : Method) : Prop :=
  ∃ k d row, t.defined[k]? = some (type, d) ∧ (d.methods ++ d.accessors)[j]? = some m ∧
    i.LeadsInto token 0x06 (·.methods) k j row ∧ row.name = m.name ∧
    t.SignsMethod (i.DenotesType t) m row.signature

/-- The token leads to the row of the field that a defined type has at a place. -/
def DenotesFieldRow (type : TypeId) (j : Nat) (x : Field) : Prop :=
  ∃ k d row, t.defined[k]? = some (type, d) ∧ d.fields[j]? = some x ∧
    i.LeadsInto token 0x04 (·.fields) k j row ∧ row.name = x.name ∧
    t.SignsField (i.DenotesType t) x row.signature

/-- The token leads to a member row with the parent, the name and the signature of a member. -/
def DenotesMember (member : Entity) : Prop :=
  ∃ row, token.LeadsTo 0x0A i.memberRefs row ∧ t.Depicts (i.DenotesType t) row member

/-- The token leads to the row of an entity. -/
def Denotes : Entity → Prop
  | .type id => i.DenotesType t token id
  | .method m => (∃ callee, t.methodEntry m = .ok callee ∧
      i.DenotesMethodRow t token m.type m.index callee) ∨
      (∀ d, (m.type, d) ∉ t.defined) ∧ i.DenotesMember t token (.method m)
  | .field x => (∃ field, t.fieldEntry x = .ok field ∧
      i.DenotesFieldRow t token x.type x.index field) ∨
      (∀ d, (x.type, d) ∉ t.defined) ∧ i.DenotesMember t token (.field x)
  | .constructor a => i.DenotesMember t token (.constructor a)
  | .getter type n => ∃ p getter, (t.get type).properties[n]? = some p ∧ p.getter = some getter ∧
      i.DenotesMethodRow t token type
        ((t.get type).methods.length + (t.get type).accessorsBefore n) getter
  | .setter type n => ∃ p setter, (t.get type).properties[n]? = some p ∧ p.setter = some setter ∧
      i.DenotesMethodRow t token type
        ((t.get type).methods.length + (t.get type).accessorsBefore n + p.getter.toList.length) setter
  | .text s => token.LeadsTo 0x70 i.userStrings s

end Denotes

end Image

/-! ## Finished images -/

/-- The image holds the rows of `f`, and its other rows are made in view of them. -/
structure Assembly.Finished (a : Assembly) (f : References) (i : Image) : Prop where
  described : a.DescribesImage (f.Names a.types) i
  sound : f.Sound a.types
  typeRefs : i.typeRefs = f.types.map (typeRefRow a.types)
  memberRefs : i.memberRefs = f.members
  userStrings : i.userStrings = f.strings

theorem Assembly.finished_of_image {a : Assembly} {i : Image} (h : a.image = .ok i) : ∃ f, a.Finished f i := by
  unfold image at h
  cases hrows : (imageRows a).run {} with
  | error e =>
    rw [hrows] at h
    cases h
  | ok out =>
    obtain ⟨rows, f⟩ := out
    rw [hrows] at h
    cases h
    have hensures : Ensures a.types (fun _ => True) (imageRows a) _ :=
      ensures_imageRows a
    obtain ⟨-, hsound, hdescribed⟩ := hensures {} (fun _ _ => trivial) rows f hrows
    have hrows := hdescribed f (.refl f)
    exact ⟨f, ⟨hrows.attributes, hrows.typeDefs, hrows.entryPoint⟩, hsound (sound_empty a.types), rfl, rfl, rfl⟩

/-! ## Accessors -/

namespace TypeDef
variable {d : TypeDef} {n : Nat} {p : Property}

theorem getElem?_methods_append {j : Nat} {m : Method} (h : d.accessors[j]? = some m) :
    (d.methods ++ d.accessors)[d.methods.length + j]? = some m := by
  rw [getElem?_append_right (Nat.le_add_right _ _), Nat.add_sub_cancel_left, h]

theorem getElem?_accessors_getter {getter : Method} (hp : d.properties[n]? = some p)
    (hgetter : p.getter = some getter) : d.accessors[d.accessorsBefore n]? = some getter := by
  refine getElem?_flatMap_take (j := 0) hp ?_
  rw [hgetter]
  rfl

theorem getElem?_accessors_setter {setter : Method} (hp : d.properties[n]? = some p)
    (hsetter : p.setter = some setter) :
    d.accessors[d.accessorsBefore n + p.getter.toList.length]? = some setter := by
  refine getElem?_flatMap_take hp ?_
  rw [getElem?_append_right (Nat.le_refl _), Nat.sub_self, hsetter]
  rfl

end TypeDef

namespace Assembly.Finished

section Rows
variable {a : Assembly} {f : References} {i : Image} {type : TypeId} {d : TypeDef} {j : Nat} {token : Token}
  {rows : TypeRows} (h : a.Finished f i) {k : Nat}
include h

theorem typeDef (hk : a.types.defined[k]? = some (type, d)) :
    ∃ row, i.typeDefs[k]? = some row ∧ a.types.DescribesType (f.Names a.types) type d row :=
  h.described.typeDefs.exists_getElem? hk

theorem leadsInto {α β : Type} (table : UInt8) {has : TypeDef → List α} {rows : TypeDefRow → List β}
    {R : α → β → Prop}
    (hrows : ∀ type d row, a.types.DescribesType (f.Names a.types) type d row → Forall₂ R (has d) (rows row))
    (hfits : (i.typeDefs.flatMap rows).length < 2 ^ 24) {x : α} (hk : a.types.defined[k]? = some (type, d))
    (hx : (has d)[j]? = some x) : ∃ row, R x row ∧ i.LeadsInto
      (.ofRow table (((a.types.defined.take k).flatMap fun d => has d.2).length + j + 1)) table rows k j row := by
  obtain ⟨typeRow, htypeRow, hdescribes⟩ := h.typeDef hk
  obtain ⟨row, hrow, hR⟩ := (hrows _ _ _ hdescribes).exists_getElem? hx
  have hbefore : ((a.types.defined.take k).flatMap fun d => has d.2).length =
      ((i.typeDefs.take k).flatMap rows).length :=
    length_flatMap_of_forall₂ (fun d row hd => (hrows d.1 d.2 row hd).length_eq) (forall₂_take k h.described.typeDefs)
  rw [hbefore]
  obtain ⟨hleads, hnum⟩ := leadsTo_ofRow table (getElem?_flatMap_take htypeRow hrow) hfits
  exact ⟨row, hR, hleads, ⟨typeRow, htypeRow, hrow⟩, hnum⟩

variable (hfits : i.Fits)
include hfits

theorem denotesType {id : TypeId} (hnames : f.NamesType a.types token id) : i.DenotesType a.types token id := by
  unfold NamesType at hnames
  cases hrows : a.types.rowsOf? id with
  | some rows =>
    rw [hrows] at hnames
    obtain ⟨k, d, hk, rfl⟩ := rowsOf?_eq_some_iff.mp hrows
    obtain ⟨row, hrow, hdescribes⟩ := h.typeDef hk
    obtain ⟨hleads, hnum⟩ := leadsTo_ofRow 0x02 hrow hfits.typeDefs
    subst hnames
    exact .inl ⟨k, d, row, hk, hleads, hnum, hdescribes.namespaceName, hdescribes.name⟩
  | none =>
    rw [hrows] at hnames
    obtain ⟨n, hn, rfl⟩ := hnames
    have hrow : i.typeRefs[n]? = some (typeRefRow a.types id) := by
      rw [h.typeRefs, getElem?_map, hn]
      rfl
    obtain ⟨hleads, -⟩ := leadsTo_ofRow 0x01 hrow hfits.typeRefs
    exact .inr ⟨rowsOf?_eq_none_iff.mp hrows, _, hleads, rfl, rfl⟩

theorem denotesMember {member : Entity}
    (hnames : f.NamesMember a.types token member) : i.DenotesMember a.types token member := by
  obtain ⟨n, row, hrow, rfl, hdepicts⟩ := hnames
  rw [← h.memberRefs] at hrow
  obtain ⟨hleads, -⟩ := leadsTo_ofRow 0x0A hrow hfits.memberRefs
  exact ⟨row, hleads, hdepicts.imp fun _ _ => h.denotesType hfits⟩

theorem denotesMethodRow {m : Method} (hrows : a.types.rowsOf? type = some rows)
    (hm : ((a.types.get type).methods ++ (a.types.get type).accessors)[j]? = some m) :
    i.DenotesMethodRow a.types (.methodDef (rows.methodsBefore + j + 1)) type j m := by
  obtain ⟨k, d, hk, rfl⟩ := rowsOf?_eq_some_iff.mp hrows
  have hd : a.types.get type = d := get_of_mem_defined (mem_of_getElem? hk)
  rw [hd] at hm
  obtain ⟨row, hrow, hleads⟩ := h.leadsInto 0x06 (fun _ _ _ hd => hd.forall₂_methods) hfits.methods hk hm
  exact ⟨k, d, row, hk, hm, hleads, hrow.name, hrow.signature.imp fun _ _ => h.denotesType hfits⟩

theorem denotesFieldRow {x : Field}
    (hrows : a.types.rowsOf? type = some rows) (hx : (a.types.get type).fields[j]? = some x) :
    i.DenotesFieldRow a.types (.field (rows.fieldsBefore + j + 1)) type j x := by
  obtain ⟨k, d, hk, rfl⟩ := rowsOf?_eq_some_iff.mp hrows
  have hd : a.types.get type = d := get_of_mem_defined (mem_of_getElem? hk)
  rw [hd] at hx
  obtain ⟨row, hrow, hleads⟩ := h.leadsInto 0x04 (fun _ _ _ hd => hd.fields) hfits.fields hk hx
  exact ⟨k, d, row, hk, hx, hleads, hrow.name, hrow.signature.imp fun _ _ => h.denotesType hfits⟩

/-- What a token names in view of the references, it denotes in the image. -/
theorem denotes {entity : Entity} (hnames : f.Names a.types token entity) : i.Denotes a.types token entity := by
  cases entity with
  | type id => exact h.denotesType hfits hnames
  | method m =>
    change f.NamesMethod a.types token m at hnames
    unfold NamesMethod at hnames
    cases hrows : a.types.rowsOf? m.type with
    | some rows =>
      -- a method of the program: its row comes among those of its type, accessors after it
      rw [hrows] at hnames
      obtain ⟨hlt, rfl⟩ := hnames
      have hm := getElem?_eq_getElem hlt
      refine .inl ⟨_, Defect.entry_eq_ok_iff.mpr hm, h.denotesMethodRow hfits hrows ?_⟩
      rw [getElem?_append_left hlt, hm]
    | none =>
      rw [hrows] at hnames
      exact .inr ⟨rowsOf?_eq_none_iff.mp hrows, h.denotesMember hfits hnames⟩
  | field x =>
    change f.NamesField a.types token x at hnames
    unfold NamesField at hnames
    cases hrows : a.types.rowsOf? x.type with
    | some rows =>
      rw [hrows] at hnames
      obtain ⟨hlt, rfl⟩ := hnames
      have hx := getElem?_eq_getElem hlt
      exact .inl ⟨_, Defect.entry_eq_ok_iff.mpr hx, h.denotesFieldRow hfits hrows hx⟩
    | none =>
      rw [hrows] at hnames
      exact .inr ⟨rowsOf?_eq_none_iff.mp hrows, h.denotesMember hfits hnames⟩
  | constructor b => exact h.denotesMember hfits hnames
  | getter type n =>
    obtain ⟨p, getter, hp, hgetter, rows, hrows, rfl⟩ := hnames
    refine ⟨p, getter, hp, hgetter, ?_⟩
    have haccessor := getElem?_accessors_getter hp hgetter
    have hrow := h.denotesMethodRow hfits hrows (getElem?_methods_append haccessor)
    rwa [← Nat.add_assoc] at hrow
  | setter type n =>
    obtain ⟨p, setter, hp, hsetter, rows, hrows, rfl⟩ := hnames
    refine ⟨p, setter, hp, hsetter, ?_⟩
    have haccessor := getElem?_accessors_setter hp hsetter
    have hrow := h.denotesMethodRow hfits hrows (getElem?_methods_append haccessor)
    simpa only [Nat.add_assoc] using hrow
  | text s =>
    obtain ⟨n, hn, rfl⟩ := hnames
    rw [← h.userStrings] at hn
    exact (leadsTo_ofRow 0x70 hn hfits.userStrings).1

end Rows

end Assembly.Finished

/-! ## All tokens -/

/-- Every token of an image leads to the row of what it stands for. -/
structure Image.Resolves (i : Image) (a : Assembly) : Prop where
  /-- The tokens with which definitions were numbered. -/
  numbered : ∀ type rows, a.types.rowsOf? type = some rows →
    i.Denotes a.types (.typeDef rows.row) (.type type) ∧
    (∀ k < (a.types.get type).fields.length,
      i.Denotes a.types (.field (rows.fieldsBefore + k + 1)) (.field ⟨type, k⟩)) ∧
    ∀ k < (a.types.get type).methods.length,
      i.Denotes a.types (.methodDef (rows.methodsBefore + k + 1)) (.method ⟨type, k⟩)
  /-- The tokens in rows of definitions, in their signatures and in code. -/
  definitions : a.DescribesImage (i.Denotes a.types) i
  /-- The parents of member rows, and the tokens in their signatures. -/
  members : ∀ row ∈ i.memberRefs, ∃ member, a.types.Depicts (i.DenotesType a.types) row member

/-- In an image with fewer than 2 ^ 24 rows to a table, every token leads to the row of what it stands
for. -/
theorem Assembly.image_denotes {a : Assembly} {i : Image} (himage : a.image = .ok i) (hfits : i.Fits) :
    i.Resolves a := by
  obtain ⟨f, hfinished⟩ := finished_of_image himage
  refine ⟨fun type rows hrows => ⟨?_, fun k hk => ?_, fun k hk => ?_⟩, ?_, ?_⟩
  · refine hfinished.denotes hfits ?_
    simp only [References.Names, References.NamesType, hrows]
  · refine hfinished.denotes hfits ?_
    simp only [References.Names, References.NamesField, hrows]
    exact ⟨hk, trivial⟩
  · refine hfinished.denotes hfits ?_
    simp only [References.Names, References.NamesMethod, hrows]
    exact ⟨hk, trivial⟩
  · exact hfinished.described.imp fun _ _ => hfinished.denotes hfits
  · intro row hrow
    rw [hfinished.memberRefs] at hrow
    obtain ⟨member, hmember⟩ := hfinished.sound f (.refl f) row hrow
    exact ⟨member, hmember.imp fun _ _ => hfinished.denotesType hfits⟩

/-- A program of two types; the second extends the first and calls a method of it and one of a
library. -/
def labelProgram : Assembly where
  name := "labels"
  types := { defs := [
    { name := ⟨["System", "Object"]⟩, origin := .external, primitive := some .object },
    { name := ⟨["System", "Void"]⟩, origin := .external, primitive := some .void },
    { name := ⟨["System", "String"]⟩, origin := .external, primitive := some .string },
    { name := ⟨["System", "Console"]⟩, origin := .external
      methods := [{
        name := "Write", returnType := some ⟨1⟩, isStatic := true
        params := [⟨"value", some ⟨2⟩, none⟩] }] },
    { name := ⟨["Demo", "Label"]⟩, origin := .defined
      fields := [{ name := "text", type := some ⟨2⟩ }]
      methods := [{ name := "clear", returnType := some ⟨1⟩, isStatic := true }]
      properties := [{
        name := "Text", type := some ⟨2⟩
        getter := some { name := "get_Text", returnType := some ⟨2⟩ }
        setter := some {
          name := "set_Text", returnType := some ⟨1⟩, params := [⟨"value", some ⟨2⟩, none⟩] } }] },
    { name := ⟨["Demo", "Program"]⟩, origin := .defined, bases := [⟨4⟩]
      methods := [{
        name := "main", returnType := some ⟨1⟩, isStatic := true
        body := some {
          blocks := [{
            name := "entry", instructions := [⟨0⟩, ⟨1⟩, ⟨2⟩], flow? := some (.ret none) }]
          instructions := [.constant (.string "hello") (some ⟨2⟩), .call ⟨⟨3⟩, 0⟩ [⟨0⟩],
            .call ⟨⟨4⟩, 0⟩ []] } }] }] }
  entryPoint := some ⟨⟨5⟩, 0⟩

theorem image_denotes_labelProgram : ∃ i, labelProgram.image = .ok i ∧ i.Fits ∧ i.Resolves labelProgram := by
  obtain ⟨i, himage, hfits⟩ : ∃ i, labelProgram.image = .ok i ∧ i.Fits := by
    refine ⟨_, rfl, ?_⟩
    constructor <;> decide
  exact ⟨i, himage, hfits, Assembly.image_denotes himage hfits⟩

end TreeCompiler
