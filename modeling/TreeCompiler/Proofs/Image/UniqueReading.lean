import TreeCompiler.Image.Rows

/-!
# Containers can be read in one way only

* `Blob.SplitsOff good write` : among values that are `good`, the bytes of `write` can be split off
  the front of any longer bytes, and they determine the value;
* fixed widths, counted lists, sized blobs and marked options split off (`SplitsOff.ofWidth`, `.list`,
  `splitsOff_sized`, `SplitsOff.optional`), and so does every row made of such parts;
* `Image.splitsOff_bytes` : the same of whole containers.

A size takes four bytes and an absent token is written as zero. So the rows have to be `Short`, with
fewer than `sizeLimit` entries in every list, text and blob, and a token that is there must not be
zero (`Token.Visible`).
-/

namespace TreeCompiler

open List
variable (r : PropertyRow)

namespace Blob
variable {α : Type} (width : Nat)

/-! ## Numbers of a fixed width -/

theorem ofNat_inj {m n : Nat} (hm : m < Nat.pow 256 width) (hn : n < Nat.pow 256 width)
    (h : ofNat width m = ofNat width n) : m = n := by
  have hnat := congrArg toNat h
  rwa [toNat_ofNat, toNat_ofNat, Nat.mod_eq_of_lt hm, Nat.mod_eq_of_lt hn] at hnat

/-- Sizes from here on do not fit in four bytes. -/
def sizeLimit : Nat := 4294967296

theorem u16_injective : Function.Injective u16 := by
  intro m n h
  apply UInt16.toNat_inj.mp
  exact ofNat_inj 2 m.toNat_lt n.toNat_lt h

theorem u32_injective : Function.Injective u32 := by
  intro m n h
  apply UInt32.toNat_inj.mp
  exact ofNat_inj 4 m.toNat_lt n.toNat_lt h

/-! ## Writers that split off -/

/-- The bytes of `write` can be split off the front of longer bytes and determine a `good` value. -/
def SplitsOff (good : α → Prop) (write : α → Blob) : Prop :=
  ∀ a b : α, good a → good b → ∀ s t : Blob, write a ++ s = write b ++ t → a = b ∧ s = t

theorem SplitsOff.ofWidth {good : α → Prop} {write : α → Blob} (hwidth : ∀ a, (write a).length = width)
    (hinj : ∀ a b, good a → good b → write a = write b → a = b) : SplitsOff good write := by
  intro a b ha hb s t h
  have hlen : (write a).length = (write b).length := by rw [hwidth, hwidth]
  obtain ⟨hab, hst⟩ := append_inj h hlen
  exact ⟨hinj a b ha hb hab, hst⟩

theorem splitsOff_u16 : SplitsOff (fun _ => True) u16 :=
  .ofWidth 2 (fun _ => length_ofNat 2 _) fun _ _ _ _ h => u16_injective h

theorem splitsOff_u32 : SplitsOff (fun _ => True) u32 :=
  .ofWidth 4 (fun _ => length_ofNat 4 _) fun _ _ _ _ h => u32_injective h

theorem splitsOff_size : SplitsOff (· < sizeLimit) size :=
  .ofWidth 4 (fun _ => length_ofNat 4 _) fun _ _ ha hb h => ofNat_inj 4 ha hb h

/-- A list has few enough entries for its size to be written. -/
def Short (as : List α) : Prop := as.length < sizeLimit

instance {α : Type} (as : List α) : Decidable (Short as) :=
  inferInstanceAs (Decidable (as.length < sizeLimit))

theorem splitsOff_sized : SplitsOff Short sized := by
  intro a b ha hb s t h
  simp only [sized, append_assoc] at h
  obtain ⟨hlen, h⟩ := splitsOff_size _ _ ha hb _ _ h
  exact append_inj h hlen

/-- The text has few enough bytes for its size to be written. -/
def ShortText (s : String) : Prop := Short (Text.utf8 s)

instance (s : String) : Decidable (ShortText s) :=
  inferInstanceAs (Decidable (Short (Text.utf8 s)))

theorem utf8_injective : Function.Injective Text.utf8 := by
  intro s t h
  apply String.toByteArray_inj.mp
  apply ByteArray.ext
  exact Array.toList_inj.mp h

theorem splitsOff_text : SplitsOff ShortText text := by
  intro a b ha hb s t h
  obtain ⟨hab, hst⟩ := splitsOff_sized _ _ ha hb s t h
  exact ⟨utf8_injective hab, hst⟩

theorem SplitsOff.flatMap {good : α → Prop} {write : α → Blob} (hwrite : SplitsOff good write)
    (as bs : List α) (has : ∀ a ∈ as, good a) (hbs : ∀ b ∈ bs, good b) (hlen : as.length = bs.length)
    (s t : Blob) (h : as.flatMap write ++ s = bs.flatMap write ++ t) : as = bs ∧ s = t := by
  induction as generalizing bs with
  | nil =>
    obtain rfl : bs = [] := length_eq_zero_iff.mp hlen.symm
    exact ⟨rfl, h⟩
  | cons a as ih =>
    cases bs with
    | nil => cases hlen
    | cons b bs =>
      simp only [flatMap_cons, append_assoc] at h
      obtain ⟨hab, h⟩ := hwrite a b (has a (by simp)) (hbs b (by simp)) _ _ h
      obtain ⟨habs, hst⟩ := ih bs (fun x hx => has x (by simp [hx])) (fun x hx => hbs x (by simp [hx]))
        (Nat.succ.inj hlen) h
      exact ⟨by rw [hab, habs], hst⟩

/-- A list that is short and whose entries are `good`. -/
def Entries (good : α → Prop) (as : List α) : Prop := Short as ∧ ∀ a ∈ as, good a

instance {α : Type} (good : α → Prop) [DecidablePred good] (as : List α) :
    Decidable (Entries good as) :=
  inferInstanceAs (Decidable (Short as ∧ ∀ a ∈ as, good a))

theorem SplitsOff.list {α : Type} {good : α → Prop} {write : α → Blob}
    (hwrite : SplitsOff good write) : SplitsOff (Entries good) (list write) := by
  intro a b ha hb s t h
  simp only [Blob.list, append_assoc] at h
  obtain ⟨hlen, h⟩ := splitsOff_size _ _ ha.1 hb.1 _ _ h
  exact hwrite.flatMap a b ha.2 hb.2 hlen s t h

theorem SplitsOff.optional {good : α → Prop} {write : α → Blob} (hwrite : SplitsOff good write) :
    SplitsOff (fun o => ∀ a ∈ o, good a) (optional write) := by
  intro a b ha hb s t h
  cases a with
  | none =>
    cases b with
    | none => exact ⟨rfl, cons.inj h |>.2⟩
    | some b => exact absurd (cons.inj h).1 (by decide)
  | some a =>
    cases b with
    | none => exact absurd (cons.inj h).1 (by decide)
    | some b =>
      obtain ⟨hab, hst⟩ := hwrite a b (ha a rfl) (hb b rfl) s t (cons.inj h).2
      exact ⟨congrArg some hab, hst⟩

end Blob

open Blob

/-! ## Rows

A row is its parts one after the other. Each part is split off in turn, and equal parts make equal
rows. -/

namespace Token

/-- A token, where there is one, is not written like an absent one. -/
def Visible (o : Option Token) : Prop := ∀ t ∈ o, t.raw ≠ 0

instance (o : Option Token) : Decidable (Visible o) :=
  inferInstanceAs (Decidable (∀ t ∈ o, t.raw ≠ 0))

theorem splitsOff_bytes : SplitsOff (fun _ => True) bytes := by
  intro a b _ _ s t h
  obtain ⟨hraw, hst⟩ := splitsOff_u32 _ _ trivial trivial s t h
  exact ⟨congrArg mk hraw, hst⟩

theorem splitsOff_optionalBytes : SplitsOff Visible optionalBytes := by
  have hzero : optionalBytes none = bytes ⟨0⟩ := rfl
  intro a b ha hb s t h
  cases a with
  | none =>
    cases b with
    | none => exact ⟨rfl, (splitsOff_bytes _ _ trivial trivial s t h).2⟩
    | some b =>
      rw [hzero] at h
      obtain ⟨hraw, -⟩ := splitsOff_bytes _ _ trivial trivial s t h
      exact absurd (congrArg raw hraw.symm) (hb b rfl)
  | some a =>
    cases b with
    | none =>
      rw [hzero] at h
      obtain ⟨hraw, -⟩ := splitsOff_bytes _ _ trivial trivial s t h
      exact absurd (congrArg raw hraw) (ha a rfl)
    | some b =>
      obtain ⟨hab, hst⟩ := splitsOff_bytes a b trivial trivial s t h
      exact ⟨congrArg some hab, hst⟩

end Token

theorem Version.splitsOff_bytes : SplitsOff (fun _ => True) bytes := by
  intro a b _ _ s t h
  simp only [bytes, append_assoc] at h
  grind [SplitsOff, cases Version, splitsOff_u16]

def AssemblyRef.Short (r : AssemblyRef) : Prop := ShortText r.name

instance : DecidablePred AssemblyRef.Short := fun r => inferInstanceAs (Decidable (ShortText r.name))

theorem AssemblyRef.splitsOff_bytes : SplitsOff AssemblyRef.Short bytes := by
  intro a b ha hb s t h
  simp only [bytes, append_assoc] at h
  grind [SplitsOff, AssemblyRef.Short, cases AssemblyRef, splitsOff_text, Version.splitsOff_bytes]

def TypeRefRow.Short (r : TypeRefRow) : Prop := ShortText r.namespaceName ∧ ShortText r.name

instance : DecidablePred TypeRefRow.Short := fun r =>
  inferInstanceAs (Decidable (ShortText r.namespaceName ∧ ShortText r.name))

theorem TypeRefRow.splitsOff_bytes : SplitsOff TypeRefRow.Short bytes := by
  intro a b ha hb s t h
  simp only [bytes, append_assoc] at h
  grind [SplitsOff, TypeRefRow.Short, cases TypeRefRow, splitsOff_u32, splitsOff_text]

def MemberRefRow.Short (r : MemberRefRow) : Prop := ShortText r.name ∧ Blob.Short r.signature

instance : DecidablePred MemberRefRow.Short := fun r =>
  inferInstanceAs (Decidable (ShortText r.name ∧ Blob.Short r.signature))

theorem MemberRefRow.splitsOff_bytes : SplitsOff MemberRefRow.Short bytes := by
  intro a b ha hb s t h
  simp only [bytes, append_assoc] at h
  grind [SplitsOff, MemberRefRow.Short, cases MemberRefRow, Token.splitsOff_bytes, splitsOff_text, splitsOff_sized]

def AttributeRow.Short (r : AttributeRow) : Prop := Blob.Short r.value

instance : DecidablePred AttributeRow.Short := fun r => inferInstanceAs (Decidable (Blob.Short r.value))

theorem AttributeRow.splitsOff_bytes : SplitsOff AttributeRow.Short bytes := by
  intro a b ha hb s t h
  simp only [bytes, append_assoc] at h
  grind [SplitsOff, AttributeRow.Short, cases AttributeRow, Token.splitsOff_bytes, splitsOff_sized]

theorem splitsOff_attributes : SplitsOff (Entries AttributeRow.Short) (list AttributeRow.bytes) :=
  AttributeRow.splitsOff_bytes.list

def ShortDefault (o : Option Blob) : Prop := ∀ b ∈ o, Blob.Short b

instance (o : Option Blob) : Decidable (ShortDefault o) :=
  inferInstanceAs (Decidable (∀ b ∈ o, Blob.Short b))

theorem splitsOff_default : SplitsOff ShortDefault (optional sized) :=
  splitsOff_sized.optional

def FieldRow.Short (r : FieldRow) : Prop :=
  ShortText r.name ∧ Blob.Short r.signature ∧ ShortDefault r.default ∧
    Entries AttributeRow.Short r.attributes

instance : DecidablePred FieldRow.Short := fun _ => inferInstanceAs (Decidable (_ ∧ _ ∧ _ ∧ _))

theorem FieldRow.splitsOff_bytes : SplitsOff FieldRow.Short bytes := by
  intro a b ha hb s t h
  simp only [bytes, append_assoc] at h
  grind [SplitsOff, FieldRow.Short, cases FieldRow, splitsOff_u16, splitsOff_text, splitsOff_sized, splitsOff_default,
    splitsOff_attributes]

def ParamRow.Short (r : ParamRow) : Prop := ShortText r.name ∧ ShortDefault r.default

instance : DecidablePred ParamRow.Short := fun r =>
  inferInstanceAs (Decidable (ShortText r.name ∧ ShortDefault r.default))

theorem ParamRow.splitsOff_bytes : SplitsOff ParamRow.Short bytes := by
  intro a b ha hb s t h
  simp only [bytes, append_assoc] at h
  grind [SplitsOff, ParamRow.Short, cases ParamRow, splitsOff_text, splitsOff_u16, splitsOff_default]

def MethodBody.Short (b : MethodBody) : Prop := Entries Blob.Short b.locals ∧ Blob.Short b.code

instance : DecidablePred MethodBody.Short := fun b =>
  inferInstanceAs (Decidable (Entries Blob.Short b.locals ∧ Blob.Short b.code))

theorem MethodBody.splitsOff_bytes : SplitsOff MethodBody.Short bytes := by
  intro a b ha hb s t h
  simp only [bytes, append_assoc] at h
  grind [SplitsOff, MethodBody.Short, cases MethodBody, splitsOff_u16, splitsOff_sized.list, splitsOff_sized]

def MethodRow.Short (r : MethodRow) : Prop :=
  ShortText r.name ∧ Blob.Short r.signature ∧ Entries ParamRow.Short r.params ∧
    Entries AttributeRow.Short r.attributes ∧ ∀ b ∈ r.body, MethodBody.Short b

instance : DecidablePred MethodRow.Short := fun r =>
  inferInstanceAs (Decidable (_ ∧ _ ∧ _ ∧ _ ∧ ∀ b ∈ r.body, MethodBody.Short b))

theorem MethodRow.splitsOff_bytes : SplitsOff MethodRow.Short bytes := by
  intro a b ha hb s t h
  obtain ⟨haName, haSignature, haParams, haAttributes, haBody⟩ := ha
  obtain ⟨hbName, hbSignature, hbParams, hbAttributes, hbBody⟩ := hb
  simp only [bytes, append_assoc] at h
  obtain ⟨hflags, h⟩ := splitsOff_u16 _ _ trivial trivial _ _ h
  obtain ⟨himpl, h⟩ := splitsOff_u16 _ _ trivial trivial _ _ h
  obtain ⟨hname, h⟩ := splitsOff_text _ _ haName hbName _ _ h
  obtain ⟨hsignature, h⟩ := splitsOff_sized _ _ haSignature hbSignature _ _ h
  obtain ⟨hparams, h⟩ := ParamRow.splitsOff_bytes.list _ _ haParams hbParams _ _ h
  obtain ⟨hattributes, h⟩ := splitsOff_attributes _ _ haAttributes hbAttributes _ _ h
  obtain ⟨hbody, h⟩ := MethodBody.splitsOff_bytes.optional _ _ haBody hbBody _ _ h
  refine ⟨?_, h⟩
  cases a; cases b
  simp_all

def PropertyRow.Short : Prop :=
  ShortText r.name ∧ Blob.Short r.signature ∧ Entries AttributeRow.Short r.attributes

instance : DecidablePred PropertyRow.Short := fun _ => inferInstanceAs (Decidable (_ ∧ _ ∧ _))

/-- No accessor that is there is written like an absent one. -/
def PropertyRow.Visible : Prop := Token.Visible r.getter ∧ Token.Visible r.setter

instance : DecidablePred PropertyRow.Visible := fun r =>
  inferInstanceAs (Decidable (Token.Visible r.getter ∧ Token.Visible r.setter))

theorem PropertyRow.splitsOff_bytes : SplitsOff (fun r => r.Short ∧ r.Visible) bytes := by
  intro a b ha hb s t h
  simp only [bytes, append_assoc] at h
  grind [SplitsOff, PropertyRow.Short, PropertyRow.Visible, cases PropertyRow, splitsOff_text, splitsOff_sized,
    Token.splitsOff_optionalBytes, splitsOff_attributes]

theorem ClassLayout.splitsOff_bytes : SplitsOff (fun _ => True) bytes := by
  intro a b _ _ s t h
  simp only [bytes, append_assoc] at h
  grind [SplitsOff, cases ClassLayout, splitsOff_u16, splitsOff_u32]

def TypeDefRow.Short (r : TypeDefRow) : Prop :=
  ShortText r.namespaceName ∧ ShortText r.name ∧ Blob.Short r.interfaces ∧
    Entries AttributeRow.Short r.attributes ∧ Entries FieldRow.Short r.fields ∧
    Entries MethodRow.Short r.methods ∧ Entries PropertyRow.Short r.properties

instance : DecidablePred TypeDefRow.Short := fun _ =>
  inferInstanceAs (Decidable (_ ∧ _ ∧ _ ∧ _ ∧ _ ∧ _ ∧ _))

/-- No base and no accessor that is there is written like an absent one. -/
def TypeDefRow.Visible (r : TypeDefRow) : Prop :=
  Token.Visible r.base ∧ ∀ p ∈ r.properties, p.Visible

instance : DecidablePred TypeDefRow.Visible := fun r =>
  inferInstanceAs (Decidable (Token.Visible r.base ∧ ∀ p ∈ r.properties, p.Visible))

theorem TypeDefRow.splitsOff_bytes : SplitsOff (fun r => r.Short ∧ r.Visible) bytes := by
  intro a b ha hb s t h
  obtain ⟨⟨haSpace, haName, haInterfaces, haAttributes, haFields, haMethods, haProperties⟩, haBase, haVisible⟩ := ha
  obtain ⟨⟨hbSpace, hbName, hbInterfaces, hbAttributes, hbFields, hbMethods, hbProperties⟩, hbBase, hbVisible⟩ := hb
  simp only [bytes, append_assoc] at h
  obtain ⟨hflags, h⟩ := splitsOff_u32 _ _ trivial trivial _ _ h
  obtain ⟨hspace, h⟩ := splitsOff_text _ _ haSpace hbSpace _ _ h
  obtain ⟨hname, h⟩ := splitsOff_text _ _ haName hbName _ _ h
  obtain ⟨hbase, h⟩ := Token.splitsOff_optionalBytes _ _ haBase hbBase _ _ h
  obtain ⟨hlayout, h⟩ := ClassLayout.splitsOff_bytes.optional _ _ (fun _ _ => trivial) (fun _ _ => trivial) _ _ h
  obtain ⟨hinterfaces, h⟩ := Token.splitsOff_bytes.list _ _ ⟨haInterfaces, fun _ _ => trivial⟩
    ⟨hbInterfaces, fun _ _ => trivial⟩ _ _ h
  obtain ⟨hattributes, h⟩ := splitsOff_attributes _ _ haAttributes hbAttributes _ _ h
  obtain ⟨hfields, h⟩ := FieldRow.splitsOff_bytes.list _ _ haFields hbFields _ _ h
  obtain ⟨hmethods, h⟩ := MethodRow.splitsOff_bytes.list _ _ haMethods hbMethods _ _ h
  obtain ⟨hproperties, h⟩ := PropertyRow.splitsOff_bytes.list _ _
    ⟨haProperties.1, fun p hp => ⟨haProperties.2 p hp, haVisible p hp⟩⟩
    ⟨hbProperties.1, fun p hp => ⟨hbProperties.2 p hp, hbVisible p hp⟩⟩ _ _ h
  refine ⟨?_, h⟩
  cases a; cases b
  simp_all

namespace Image
variable (i : Image)

/-! ## Whole containers -/

/-- Every list, text and blob of the image has fewer than `sizeLimit` entries. -/
def Short : Prop :=
  ShortText i.name ∧ Entries AssemblyRef.Short i.assemblyRefs ∧
    Entries AttributeRow.Short i.attributes ∧ Entries TypeRefRow.Short i.typeRefs ∧
    Entries MemberRefRow.Short i.memberRefs ∧ Entries ShortText i.userStrings ∧
    Entries TypeDefRow.Short i.typeDefs

instance : DecidablePred Short := fun _ => inferInstanceAs (Decidable (_ ∧ _ ∧ _ ∧ _ ∧ _ ∧ _ ∧ _))

/-- No optional token of the image that is there is written like an absent one. -/
def Visible : Prop := Token.Visible i.entryPoint ∧ ∀ d ∈ i.typeDefs, d.Visible

instance : DecidablePred Visible := fun i =>
  inferInstanceAs (Decidable (Token.Visible i.entryPoint ∧ ∀ d ∈ i.typeDefs, d.Visible))

theorem splitsOff_bytes : SplitsOff (fun i => i.Short ∧ i.Visible) bytes := by
  intro a b ha hb s t h
  obtain ⟨⟨haName, haAssemblies, haAttributes, haTypes, haMembers, haStrings, haDefs⟩, haEntry, haVisible⟩ := ha
  obtain ⟨⟨hbName, hbAssemblies, hbAttributes, hbTypes, hbMembers, hbStrings, hbDefs⟩, hbEntry, hbVisible⟩ := hb
  simp only [bytes, append_assoc] at h
  obtain h := append_cancel_left (append_cancel_left h)
  obtain ⟨hname, h⟩ := splitsOff_text _ _ haName hbName _ _ h
  obtain ⟨hversion, h⟩ := Version.splitsOff_bytes _ _ trivial trivial _ _ h
  obtain ⟨hassemblies, h⟩ := AssemblyRef.splitsOff_bytes.list _ _ haAssemblies hbAssemblies _ _ h
  obtain ⟨hattributes, h⟩ := splitsOff_attributes _ _ haAttributes hbAttributes _ _ h
  obtain ⟨htypes, h⟩ := TypeRefRow.splitsOff_bytes.list _ _ haTypes hbTypes _ _ h
  obtain ⟨hmembers, h⟩ := MemberRefRow.splitsOff_bytes.list _ _ haMembers hbMembers _ _ h
  obtain ⟨hstrings, h⟩ := splitsOff_text.list _ _ haStrings hbStrings _ _ h
  obtain ⟨hdefs, h⟩ := TypeDefRow.splitsOff_bytes.list _ _ ⟨haDefs.1, fun d hd => ⟨haDefs.2 d hd, haVisible d hd⟩⟩
    ⟨hbDefs.1, fun d hd => ⟨hbDefs.2 d hd, hbVisible d hd⟩⟩ _ _ h
  obtain ⟨hentry, h⟩ := Token.splitsOff_optionalBytes _ _ haEntry hbEntry _ _ h
  refine ⟨?_, h⟩
  cases a; cases b
  simp_all

end Image

end TreeCompiler
