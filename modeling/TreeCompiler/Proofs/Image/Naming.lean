import TreeCompiler.Image.Reference
import Mathlib.Data.List.Forall2

/-!
# What tokens stand for

Rows for what the program refers to are made on the way and are never taken back. So what a token
stands for is said in view of the finished references.

* `References.Extends r f` : the rows of `r` are the first rows of `f`;
* `NamesType`, `NamesMethod`, `NamesField`, `NamesText` : a token is that of a type, a method, a field
  or a text; `SignsType`, `SignsMethod` : a blob is the signature of a type or a method.
-/

namespace TreeCompiler

open References List

namespace References
variable {α : Type} (as : List α)

/-! ## Rows that stay -/

structure Extends (r f : References) : Prop where
  types : r.types <+: f.types
  members : r.members <+: f.members
  strings : r.strings <+: f.strings

theorem Extends.refl (r : References) : Extends r r :=
  ⟨prefix_rfl, prefix_rfl, prefix_rfl⟩

theorem Extends.trans {r s f : References} (h₁ : Extends r s) (h₂ : Extends s f) : Extends r f :=
  ⟨h₁.types.trans h₂.types, h₁.members.trans h₂.members, h₁.strings.trans h₂.strings⟩

theorem prefix_intern [BEq α] (a : α) : as <+: (intern as a).2 := by
  unfold intern
  split
  · exact prefix_rfl
  · exact prefix_append as [a]

theorem intern_pos [BEq α] (a : α) : 0 < (intern as a).1 := by
  unfold intern
  split
  · exact Nat.succ_pos _
  · exact Nat.succ_pos _

theorem getElem?_of_prefix {as bs : List α} (h : as <+: bs) {i : Nat} {a : α} (ha : as[i]? = some a) :
    bs[i]? = some a := by
  obtain ⟨hi, rfl⟩ := List.getElem?_eq_some_iff.mp ha
  exact prefix_iff_getElem?.mp h i hi

theorem getElem?_of_intern_prefix [BEq α] [LawfulBEq α] {as bs : List α} {a : α} (h : (intern as a).2 <+: bs) :
    bs[(intern as a).1 - 1]? = some a :=
  getElem?_of_prefix h (getElem?_intern as a)

/-! ## Types -/

/-- The token is that of a type: of its own row if the program defines it, else of a row made for it. -/
def NamesType (f : References) (t : TypeTable) (token : Token) (type : TypeId) : Prop :=
  match t.rowsOf? type with
  | some rows => token = .typeDef rows.row
  | none => ∃ i, f.types[i]? = some type ∧ token = .typeRef (i + 1)

end References

/-! ## Signatures

What a signature is depends on which token stands for which type. -/

namespace TypeTable

/-- The byte before the token of a type in a signature. -/
def typeMark (d : TypeDef) : UInt8 :=
  if d.isValueType || d.primitive == some .f16 then Element.valueType else Element.classType

/-- Signature of a constructor that takes just the arguments of an attribute. -/
def constructorSignature (a : Attribute) : Blob :=
  Emission.methodMark false :: UInt8.ofNat a.args.length :: Element.void :: a.args.map Constant.element

section Signatures
variable (t : TypeTable) (names : Token → TypeId → Prop) (m : Method) (blob : Blob)

/-- The blob is the signature of a type. -/
def SignsType (type : TypeId) (blob : Blob) : Prop :=
  match (t.get type).primitive.bind Primitive.element? with
  | some code => blob = [code]
  | none => ∃ token, names token type ∧ blob = typeMark (t.get type) :: token.bytes

/-- The blob is the signature of a type that was resolved. -/
def SignsSome (type : Option TypeId) (blob : Blob) : Prop :=
  ∃ id, type = some id ∧ t.SignsType names id blob

/-- The blob is the signature of what a method returns. -/
def SignsResult : Prop :=
  if m.returnType.isNone && (m.isConstructor || m.isDestructor) then blob = [Element.void]
  else t.SignsSome names m.returnType blob

/-- The blob is the signature of a method: mark, number of parameters, result and parameters. -/
def SignsMethod : Prop :=
  ∃ result params, t.SignsResult names m result ∧
    Forall₂ (fun p b => t.SignsSome names p.type b) m.params params ∧
    blob = Emission.methodMark m.isStatic :: UInt8.ofNat m.params.length :: (result ++ params.flatten)

def SignsField (x : Field) (blob : Blob) : Prop :=
  ∃ type, t.SignsSome names x.type type ∧ blob = Emission.fieldMark :: type

end Signatures

section Monotone
variable {names names' : Token → TypeId → Prop} {t : TypeTable}
  (h : ∀ token type, names token type → names' token type) {blob : Blob} {m : Method}
include h

theorem SignsType.imp {type : TypeId} (hs : t.SignsType names type blob) : t.SignsType names' type blob := by
  unfold SignsType at *
  split at hs
  · exact hs
  · obtain ⟨token, hname, hblob⟩ := hs
    exact ⟨token, h token type hname, hblob⟩

theorem SignsSome.imp {type : Option TypeId} (hs : t.SignsSome names type blob) : t.SignsSome names' type blob := by
  obtain ⟨id, hid, hs⟩ := hs
  exact ⟨id, hid, hs.imp h⟩

theorem SignsResult.imp (hs : t.SignsResult names m blob) : t.SignsResult names' m blob := by
  unfold SignsResult at *
  split
  · rwa [if_pos ‹_›] at hs
  · rw [if_neg ‹_›] at hs
    exact hs.imp h

theorem SignsMethod.imp (hs : t.SignsMethod names m blob) : t.SignsMethod names' m blob := by
  obtain ⟨result, params, hresult, hparams, hblob⟩ := hs
  exact ⟨result, params, hresult.imp h, hparams.imp fun _ _ hp => hp.imp h, hblob⟩

theorem SignsField.imp {x : Field} (hs : t.SignsField names x blob) : t.SignsField names' x blob := by
  obtain ⟨type, hs, hblob⟩ := hs
  exact ⟨type, hs.imp h, hblob⟩

end Monotone

end TypeTable

/-! ## Members -/

inductive Entity where
  | type (id : TypeId)
  | method (m : MethodRef)
  | field (x : FieldRef)
  /-- The constructor that an attribute takes for granted. -/
  | constructor (a : Attribute)
  /-- The getter of a property, which has a place among the properties of its type. -/
  | getter (type : TypeId) (property : Nat)
  | setter (type : TypeId) (property : Nat)
  | text (s : String)

/-- The row has the parent, the name and the signature of a member. -/
def TypeTable.Depicts (t : TypeTable) (names : Token → TypeId → Prop) (row : MemberRefRow) :
    Entity → Prop
  | .method m => ∃ callee, t.methodEntry m = .ok callee ∧ names row.parent m.type ∧
      row.name = callee.name ∧ t.SignsMethod names callee row.signature
  | .field x => ∃ field, t.fieldEntry x = .ok field ∧ names row.parent x.type ∧
      row.name = field.name ∧ t.SignsField names field row.signature
  | .constructor a => names row.parent a.type ∧ row.name = ".ctor" ∧
      row.signature = constructorSignature a
  | _ => False

theorem TypeTable.Depicts.imp {t : TypeTable} {names names' : Token → TypeId → Prop}
    (h : ∀ token type, names token type → names' token type) {row : MemberRefRow} {member : Entity}
    (hrow : t.Depicts names row member) : t.Depicts names' row member := by
  cases member with
  | method m =>
    obtain ⟨callee, hcallee, hparent, hname, hsign⟩ := hrow
    exact ⟨callee, hcallee, h _ _ hparent, hname, hsign.imp h⟩
  | field x =>
    obtain ⟨field, hfield, hparent, hname, hsign⟩ := hrow
    exact ⟨field, hfield, h _ _ hparent, hname, hsign.imp h⟩
  | constructor a => exact ⟨h _ _ hrow.1, hrow.2⟩
  | type id | getter type i | setter type i | text s => exact hrow

/-- Rows that the accessors of the properties before some place take. -/
def TypeDef.accessorsBefore (d : TypeDef) (property : Nat) : Nat :=
  ((d.properties.take property).flatMap fun p => p.getter.toList ++ p.setter.toList).length

namespace References
variable (f : References) (t : TypeTable) (token : Token)

/-- The token is that of a member row made for a member. -/
def NamesMember (member : Entity) : Prop :=
  ∃ i row, f.members[i]? = some row ∧ token = .memberRef (i + 1) ∧
    t.Depicts (f.NamesType t) row member

def NamesMethod (m : MethodRef) : Prop :=
  match t.rowsOf? m.type with
  | some rows => m.index < (t.get m.type).methods.length ∧
      token = .methodDef (rows.methodsBefore + m.index + 1)
  | none => f.NamesMember t token (.method m)

def NamesField (x : FieldRef) : Prop :=
  match t.rowsOf? x.type with
  | some rows => x.index < (t.get x.type).fields.length ∧
      token = .field (rows.fieldsBefore + x.index + 1)
  | none => f.NamesMember t token (.field x)

def NamesText (s : String) : Prop :=
  ∃ i, f.strings[i]? = some s ∧ token = .userString (i + 1)

/-- The token is that of the accessor row with `before` accessors of the type before it. -/
def NamesAccessor (type : TypeId) (before : Nat) : Prop :=
  ∃ rows, t.rowsOf? type = some rows ∧
    token = .methodDef (rows.methodsBefore + (t.get type).methods.length + before + 1)

def Names : Entity → Prop
  | .type id => f.NamesType t token id
  | .method m => f.NamesMethod t token m
  | .field x => f.NamesField t token x
  | .constructor a => f.NamesMember t token (.constructor a)
  | .getter type i => ∃ p getter, (t.get type).properties[i]? = some p ∧ p.getter = some getter ∧
      NamesAccessor t token type ((t.get type).accessorsBefore i)
  | .setter type i => ∃ p setter, (t.get type).properties[i]? = some p ∧ p.setter = some setter ∧
      NamesAccessor t token type ((t.get type).accessorsBefore i + p.getter.toList.length)
  | .text s => f.NamesText token s

/-- Every member row is that of a member, whatever rows are still to come. -/
def Sound (r : References) : Prop :=
  ∀ f, r.Extends f → ∀ row ∈ r.members, ∃ member, t.Depicts (f.NamesType t) row member

theorem sound_empty : Sound t {} := by
  intro f _ row hrow
  cases hrow

end References

namespace Emission

/-! ## What emission ensures -/

/-- Where `known` is true of all references to come, `x` only adds rows, every member row it adds is
that of a member, and its result has the property `Q` in view of all references that extend those it
leaves. -/
def Ensures {α : Type} (t : TypeTable) (known : References → Prop) (x : Emission α)
    (Q : α → References → Prop) : Prop :=
  ∀ r, (∀ f, r.Extends f → known f) → ∀ a r', x.run r = .ok (a, r') →
    r.Extends r' ∧ (r.Sound t → r'.Sound t) ∧ ∀ f, r'.Extends f → Q a f

section Rules
variable {α β : Type} {t : TypeTable} {known : References → Prop} {Q : α → References → Prop} {k : α → Emission β}
  {x : Emission α} {P : α → References → Prop}

theorem Ensures.imp (hx : Ensures t known x P) (h : ∀ a f, known f → P a f → Q a f) : Ensures t known x Q := by
  intro r hknown a r' hrun
  obtain ⟨hext, hsound, hP⟩ := hx r hknown a r' hrun
  exact ⟨hext, hsound, fun f hf => h a f (hknown f (hext.trans hf)) (hP f hf)⟩

theorem Ensures.of_known {A : Prop} (hA : ∀ f, known f → A) (hx : A → Ensures t known x Q) : Ensures t known x Q := by
  intro r hknown
  exact hx (hA r (hknown r (.refl r))) r hknown

theorem ensures_pure {a : α} (h : ∀ f, known f → Q a f) : Ensures t known (pure a) Q := by
  intro r hknown b r' hrun
  cases hrun
  exact ⟨.refl r, id, fun f hf => h f (hknown f hf)⟩

theorem ensures_throw (e : EmitError) : Ensures t known (throw e : Emission α) Q := by
  intro r _ b r' hrun
  cases hrun

theorem ensures_lift {x : Except EmitError α} (h : ∀ a, x = .ok a → ∀ f, known f → Q a f) :
    Ensures t known (liftM x : Emission α) Q := by
  intro r hknown b r' hrun
  cases x with
  | error e => cases hrun
  | ok a =>
    cases hrun
    exact ⟨.refl r, id, fun f hf => h b rfl f (hknown f hf)⟩

theorem Ensures.bind {Q : β → References → Prop} (hx : Ensures t known x P)
    (hk : ∀ a, Ensures t (fun f => known f ∧ P a f) (k a) Q) : Ensures t known (x >>= k) Q := by
  intro r hknown b r' hrun
  rw [StateT.run_bind] at hrun
  cases hfirst : x.run r with
  | error e =>
    rw [hfirst] at hrun
    cases hrun
  | ok first =>
    obtain ⟨a, s⟩ := first
    rw [hfirst] at hrun
    obtain ⟨hext, hsound, hP⟩ := hx r hknown a s hfirst
    have hknown' : ∀ f, s.Extends f → known f ∧ P a f :=
      fun f hf => ⟨hknown f (hext.trans hf), hP f hf⟩
    obtain ⟨hext', hsound', hQ⟩ := hk a s hknown' b r' hrun
    exact ⟨hext.trans hext', fun h => hsound' (hsound h), hQ⟩

theorem Ensures.mapM {xs : List α} {Q : α → β → References → Prop}
    (hk : ∀ known, ∀ a ∈ xs, Ensures t known (k a) (Q a)) :
    Ensures t known (xs.mapM k) fun ys f => Forall₂ (fun a b => Q a b f) xs ys := by
  induction xs generalizing known with
  | nil => exact ensures_pure fun _ _ => .nil
  | cons x xs ih =>
    rw [mapM_cons]
    refine (hk known x (by simp)).bind fun y => ?_
    refine (ih fun known a ha => hk known a (by simp [ha])).bind fun ys => ?_
    exact ensures_pure fun f hf => .cons hf.1.2 hf.2

theorem Ensures.optionMapM {o : Option α} {Q : α → β → References → Prop}
    (hk : ∀ a ∈ o, Ensures t known (k a) (Q a)) :
    Ensures t known (o.mapM k) fun y f => Option.Rel (fun a b => Q a b f) o y := by
  cases o with
  | none => exact ensures_pure fun _ _ => .none
  | some a =>
    rw [Option.mapM_some, map_eq_pure_bind]
    exact (hk a rfl).bind fun b => ensures_pure fun f hf => .some hf.2

end Rules

/-! ## Tokens -/

section Tokens
variable {known : References → Prop} {α : Type} (t : TypeTable) (place : String)

theorem ensures_typeToken (type : TypeId) :
    Ensures t known (typeToken t type) fun token f => f.NamesType t token type := by
  unfold typeToken NamesType
  cases hrows : t.rowsOf? type with
  | some rows => exact ensures_pure fun _ _ => rfl
  | none =>
    intro r _ token r' hrun
    cases hrun
    have hext : r.Extends (r.typeRow type).2 :=
      ⟨prefix_intern _ _, prefix_rfl, prefix_rfl⟩
    refine ⟨hext, fun hsound f hf => hsound f (hext.trans hf), fun f hf => ?_⟩
    refine ⟨(intern r.types type).1 - 1, getElem?_of_intern_prefix hf.types, ?_⟩
    rw [Nat.sub_add_cancel (intern_pos r.types type)]
    rfl

theorem ensures_stringToken (s : String) : Ensures t known (stringToken s) fun token f => f.NamesText token s := by
  intro r _ token r' hrun
  cases hrun
  have hext : r.Extends (r.stringRow s).2 :=
    ⟨prefix_rfl, prefix_rfl, prefix_intern _ _⟩
  refine ⟨hext, fun hsound f hf => hsound f (hext.trans hf), fun f hf => ?_⟩
  refine ⟨(intern r.strings s).1 - 1, getElem?_of_intern_prefix hf.strings, ?_⟩
  rw [Nat.sub_add_cancel (intern_pos r.strings s)]
  rfl

theorem mem_of_mem_intern [BEq α] {as : List α} {a b : α} (h : b ∈ (intern as a).2) : b ∈ as ∨ b = a := by
  unfold intern at h
  split at h
  · exact Or.inl h
  · simpa using h

theorem ensures_memberToken (row : MemberRefRow) (member : Entity)
    (h : ∀ f, known f → t.Depicts (f.NamesType t) row member) :
    Ensures t known (memberToken row) fun token f => f.NamesMember t token member := by
  intro r hknown token r' hrun
  cases hrun
  have hext : r.Extends (r.memberRow row).2 :=
    ⟨prefix_rfl, prefix_intern _ _, prefix_rfl⟩
  have hrow : ∀ f, (r.memberRow row).2.Extends f → t.Depicts (f.NamesType t) row member :=
    fun f hf => h f (hknown f (hext.trans hf))
  refine ⟨hext, ?_, ?_⟩
  · intro hsound f hf x hx
    rcases mem_of_mem_intern hx with hx | rfl
    · exact hsound f (hext.trans hf) x hx
    · exact ⟨member, hrow f hf⟩
  · intro f hf
    refine ⟨(intern r.members row).1 - 1, row, getElem?_of_intern_prefix hf.members, ?_, hrow f hf⟩
    rw [Nat.sub_add_cancel (intern_pos r.members row)]
    rfl

/-! ## Signatures -/

theorem ensures_typeSignature (type : Option TypeId) :
    Ensures t known (typeSignature t place type) fun blob f => t.SignsSome (f.NamesType t) type blob := by
  cases type with
  | none => exact ensures_throw _
  | some type =>
    unfold typeSignature
    dsimp only
    cases hcode : (t.get type).primitive.bind Primitive.element? with
    | some code =>
      refine ensures_pure fun f _ => ⟨type, rfl, ?_⟩
      simp only [TypeTable.SignsType, hcode]
    | none =>
      refine (ensures_typeToken t type).bind fun token => ensures_pure fun f hf => ⟨type, rfl, ?_⟩
      simp only [TypeTable.SignsType, hcode]
      exact ⟨token, hf.2, rfl⟩

theorem ensures_returnSignature (m : Method) :
    Ensures t known (returnSignature t place m) fun blob f => t.SignsResult (f.NamesType t) m blob := by
  unfold returnSignature TypeTable.SignsResult
  split
  · exact ensures_pure fun _ _ => rfl
  · exact ensures_typeSignature t place m.returnType

theorem ensures_methodSignature (owner : TypeId) (m : Method) :
    Ensures t known (methodSignature t owner m) fun blob f => t.SignsMethod (f.NamesType t) m blob := by
  unfold methodSignature
  refine (ensures_returnSignature t _ m).bind fun result => ?_
  refine (Ensures.mapM fun known p _ => ensures_typeSignature t _ p.type).bind fun params => ?_
  exact ensures_pure fun f hf => ⟨result, params, hf.1.2, hf.2, rfl⟩

theorem ensures_fieldSignature (owner : TypeDef) (x : Field) :
    Ensures t known (fieldSignature t owner x) fun blob f => t.SignsField (f.NamesType t) x blob := by
  unfold fieldSignature
  refine (ensures_typeSignature t _ x.type).bind fun type => ?_
  exact ensures_pure fun f hf => ⟨type, hf.2, rfl⟩

/-! ## Members -/

theorem ofDefect_eq_ok {x : Except Defect α} {a : α} (h : EmitError.ofDefect x = .ok a) : x = .ok a := by
  cases x with
  | error e => cases h
  | ok b =>
    cases h
    rfl

theorem ensures_methodToken (m : MethodRef) :
    Ensures t known (methodToken t m) fun token f => f.NamesMethod t token m := by
  unfold methodToken References.NamesMethod
  refine (ensures_lift fun callee hcallee f _ => ofDefect_eq_ok hcallee).bind fun callee => ?_
  cases hrows : t.rowsOf? m.type with
  | some rows =>
    refine ensures_pure fun f hf => ⟨?_, rfl⟩
    exact (List.getElem?_eq_some_iff.mp (Defect.entry_eq_ok_iff.mp hf.2)).1
  | none =>
    refine (ensures_methodSignature t m.type callee).bind fun signature => ?_
    refine (ensures_typeToken t m.type).bind fun parent => ?_
    exact ensures_memberToken t _ (.method m) fun f hf => ⟨callee, hf.1.1.2, hf.2, rfl, hf.1.2⟩

theorem ensures_fieldToken (x : FieldRef) :
    Ensures t known (fieldToken t x) fun token f => f.NamesField t token x := by
  unfold fieldToken References.NamesField
  refine (ensures_lift fun field hfield f _ => ofDefect_eq_ok hfield).bind fun field => ?_
  cases hrows : t.rowsOf? x.type with
  | some rows =>
    refine ensures_pure fun f hf => ⟨?_, rfl⟩
    exact (List.getElem?_eq_some_iff.mp (Defect.entry_eq_ok_iff.mp hf.2)).1
  | none =>
    refine (ensures_fieldSignature t _ field).bind fun signature => ?_
    refine (ensures_typeToken t x.type).bind fun parent => ?_
    exact ensures_memberToken t _ (.field x) fun f hf => ⟨field, hf.1.1.2, hf.2, rfl, hf.1.2⟩

end Tokens

end Emission

end TreeCompiler
