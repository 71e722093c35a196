import TreeCompiler.Proofs.Lowering.Meaning

/-!
# What declarations write, and what a table stores of it

A declaration writes fields, properties and methods of types. Filling in a table stores them one after
the other, each with the types that its type expressions were found to mean.
-/

namespace TreeCompiler

open List

variable {s : Site} {type : Option TypeId}

/-- A name with a type expression, if one is written. -/
structure Slot where
  site : Site
  name : String
  type : Option TypeExpr

/-- Name, parameters and result of a method; no result means that nothing is returned. -/
structure Heading where
  site : Site
  name : String
  params : List TypeExpr
  result : Option TypeExpr

/-- A member that is written of the type `owner`. -/
inductive Written where
  | field (owner : QualifiedName) (slot : Slot)
  | property (owner : QualifiedName) (slot : Slot)
  | method (owner : QualifiedName) (heading : Heading)

namespace Written

def field? (owner : QualifiedName) : Written → Option Slot
  | .field owner' slot => if owner' = owner then some slot else none
  | _ => none

def property? (owner : QualifiedName) : Written → Option Slot
  | .property owner' slot => if owner' = owner then some slot else none
  | _ => none

variable {owner owner' : QualifiedName} {slot : Slot}

theorem field?_self : field? owner (.field owner slot) = some slot :=
  if_pos rfl

theorem field?_of_ne (h : owner' ≠ owner) : field? owner (.field owner' slot) = none :=
  if_neg h

theorem property?_self : property? owner (.property owner slot) = some slot :=
  if_pos rfl

theorem property?_of_ne (h : owner' ≠ owner) : property? owner (.property owner' slot) = none :=
  if_neg h

end Written

/-! ## Stored types -/

variable {made : QualifiedName → Prop} {t t' t'' : TypeTable}

/-- The type `type` is what a type expression means, if that is settled. -/
def Site.Reads (s : Site) (made : QualifiedName → Prop) (t : TypeTable) (e : TypeExpr)
    (type : Option TypeId) : Prop :=
  s.Settled made e → t.Finds type (s.meaning e)

theorem Site.Reads.mono {e : TypeExpr} (h : s.Reads made t e type) (hkeeps : t.Keeps t') : s.Reads made t' e type :=
  fun hsettled => (h hsettled).mono hkeeps

/-- The type `type` is what a method is written to return, `System.Void` where nothing is. -/
def Site.Returns (s : Site) (made : QualifiedName → Prop) (t : TypeTable) :
    Option TypeExpr → Option TypeId → Prop
  | some e, type => s.Reads made t e type
  | none, type => t.Finds type (some voidName)

theorem Site.Returns.mono {e : Option TypeExpr} (h : s.Returns made t e type) (hkeeps : t.Keeps t') :
    s.Returns made t' e type := by
  cases e with
  | some e => exact Site.Reads.mono h hkeeps
  | none => exact TypeTable.Finds.mono h hkeeps

/-- A member of a name and a type is what is written. -/
def Slot.Describes (made : QualifiedName → Prop) (t : TypeTable) (slot : Slot) (name : String)
    (type : Option TypeId) : Prop :=
  name = slot.name ∧ ∀ e, slot.type = some e → slot.site.Reads made t e type

theorem Slot.Describes.mono {slot : Slot} {name : String} (h : slot.Describes made t name type)
    (hkeeps : t.Keeps t') : slot.Describes made t' name type :=
  ⟨h.1, fun e he => (h.2 e he).mono hkeeps⟩

namespace Heading
variable {h : Heading} {m m' : Method}

/-- A method has the name and the parameters that are written. -/
structure Signs (made : QualifiedName → Prop) (t : TypeTable) (h : Heading) (m : Method) : Prop where
  name : m.name = h.name
  params : Forall₂ (fun e (p : Parameter) => h.site.Reads made t e p.type) h.params m.params

structure Describes (made : QualifiedName → Prop) (t : TypeTable) (h : Heading) (m : Method) : Prop
    extends h.Signs made t m where
  result : h.site.Returns made t h.result m.returnType

theorem Signs.mono (hm : h.Signs made t m) (hkeeps : t.Keeps t') : h.Signs made t' m :=
  ⟨hm.name, hm.params.imp fun _ _ hp => hp.mono hkeeps⟩

theorem Describes.mono (hm : h.Describes made t m) (hkeeps : t.Keeps t') : h.Describes made t' m :=
  ⟨hm.toSigns.mono hkeeps, hm.result.mono hkeeps⟩

theorem Signs.of_header (hm : h.Signs made t m) (hheader : m'.header = m.header) : h.Signs made t m' where
  name := by
    have hname := congrArg Method.name hheader
    exact Eq.trans hname hm.name
  params := Method.params_of_header hheader ▸ hm.params

theorem Describes.of_header (hm : h.Describes made t m) (hheader : m'.header = m.header) : h.Describes made t m' where
  toSigns := hm.toSigns.of_header hheader
  result := by
    have hresult : m'.returnType = m.returnType := by
      have hresult := congrArg Method.returnType hheader
      exact hresult
    rw [hresult]
    exact hm.result

theorem Signs.of_sameSignature (hm : h.Signs made t m) (hsame : m'.sameSignature m = true) : h.Signs made t m' := by
  rw [Method.sameSignature, Bool.and_eq_true, beq_iff_eq, beq_iff_eq] at hsame
  refine ⟨hsame.1.trans hm.name, ?_⟩
  have hparams : Forall₂ (h.site.Reads made t) h.params m.signature :=
    forall₂_map_right_iff.mpr hm.params
  rw [← hsame.2] at hparams
  exact forall₂_map_right_iff.mp hparams

end Heading

/-! ## Changes that store -/

/-- The fields of a type that are not constants. -/
def TypeDef.storage (d : TypeDef) : List Field :=
  d.fields.filter (! ·.isLiteral)

namespace TypeTable
variable {names : QualifiedName → Prop} {w : Option Written} {ws : List Written} {id id' : TypeId} {m : Method}
  {owner owner' : QualifiedName} {slot : Slot} {h : Heading}

/-- One change of a table, with what it stores while all types have names in `names`. A method whose signature is
taken is not stored again. -/
inductive Store (made names : QualifiedName → Prop) (t : TypeTable) : Option Written → TypeTable → Prop where
  | extend {t' : TypeTable} : t.Extends t' → Store made names t none t'
  | revise (id : TypeId) (f : TypeDef → TypeDef) :
      (∀ d, (f d).head = d.head ∧ (f d).members = d.members) → Store made names t none (t.modify id f)
  | setBody (m : MethodRef) (g : FlowGraph) : Store made names t none (t.setBody m g)
  | constant (id : TypeId) (f : Field) : f.isLiteral = true → Store made names t none (t.addField id f).2
  | field {owner : QualifiedName} {id : TypeId} {slot : Slot} (f : Field) :
      t.lookup owner = some id → f.isLiteral = false → (t.Within names → slot.Describes made t f.name f.type) →
      Store made names t (some (.field owner slot)) (t.addField id f).2
  | property {owner : QualifiedName} {id : TypeId} {slot : Slot} (p : Property) :
      t.lookup owner = some id → (t.Within names → slot.Describes made t p.name p.type) →
      Store made names t (some (.property owner slot)) (t.addProperty id p)
  | method {owner : QualifiedName} {id : TypeId} {h : Heading} (m : Method) :
      t.lookup owner = some id → (t.Within names → h.Describes made t m) →
      Store made names t (some (.method owner h)) (t.addMethod id m).2
  | repeated {owner : QualifiedName} {id : TypeId} {h : Heading} (m : Method) :
      t.lookup owner = some id → m ∈ (t.get id).methods → (t.Within names → h.Signs made t m) →
      Store made names t (some (.method owner h)) t

/-- Some changes, with all that they store. -/
inductive Stores (made names : QualifiedName → Prop) : List Written → TypeTable → TypeTable → Prop where
  | nil {t : TypeTable} : Stores made names [] t t
  | cons {w : Option Written} {ws : List Written} {t t' t'' : TypeTable} :
      Store made names t w t' → Stores made names ws t' t'' → Stores made names (w.toList ++ ws) t t''

theorem Store.stores (h : Store made names t w t') : Stores made names w.toList t t' := by
  have hcons := Stores.cons h .nil
  rwa [append_nil] at hcons

theorem Stores.append {ws' : List Written} (h : Stores made names ws t t') (h' : Stores made names ws' t' t'') :
    Stores made names (ws ++ ws') t t'' := by
  induction h with
  | nil => exact h'
  | cons hfirst _ ih =>
    rw [append_assoc]
    exact .cons hfirst (ih h')

theorem Stores.trans (h : Stores made names [] t t') (h' : Stores made names ws t' t'') : Stores made names ws t t'' :=
  h.append h'

theorem Extends.stores (h : t.Extends t') : Stores made names [] t t' :=
  Store.stores (.extend h)

/-! ## What is kept -/

theorem map_header_setBody (t : TypeTable) (m : MethodRef) (g : FlowGraph) (id : TypeId) :
    ((t.setBody m g).get id).methods.map Method.header = (t.get id).methods.map Method.header := by
  rcases t.get_modify_cases m.type (fun d => { d with
      methods := d.methods.modify m.index fun method => { method with body := some g } }) id with
    hsame | ⟨-, -, hnew⟩
  · rw [setBody, hsame]
  · rw [setBody, hnew]
    exact map_header_modify _ _ _

theorem Store.keeps (h : Store made names t w t') : t.Keeps t' := by
  cases h with
  | extend h => exact h.evolves.keeps
  | revise id f hf =>
    exact Edit.keeps (.revise id f fun d => ⟨(hf d).1, congrArg (·.2.1) (hf d).2⟩)
  | setBody m g => exact t.keeps_setBody m g
  | constant id f | @field owner id slot f => exact t.keeps_addField id f
  | @property owner id slot p => exact t.keeps_addProperty id p
  | @method owner id h m => exact t.keeps_addMethod id m
  | repeated m => exact .refl t

theorem Stores.keeps (h : Stores made names ws t t') : t.Keeps t' := by
  induction h with
  | nil => exact .refl _
  | cons hfirst _ ih => exact hfirst.keeps.trans ih

theorem Store.settle (h : Store made names t w t') (hwithin : t.Within names) :
    Store made (fun _ => True) t w t' := by
  cases h with
  | extend h => exact .extend h
  | revise id f hf => exact .revise id f hf
  | setBody m g => exact .setBody m g
  | constant id f hf => exact .constant id f hf
  | field f hid hf hslot => exact .field f hid hf fun _ => hslot hwithin
  | property p hid hslot => exact .property p hid fun _ => hslot hwithin
  | method m hid hm => exact .method m hid fun _ => hm hwithin
  | repeated m hid hmem hm => exact .repeated m hid hmem fun _ => hm hwithin

/-- Among settled names all that is stored is described. -/
theorem Stores.settle (h : Stores made names ws t t') (hwithin : t'.Within names) :
    Stores made (fun _ => True) ws t t' := by
  induction h with
  | nil => exact .nil
  | cons hfirst hrest ih =>
    exact .cons (hfirst.settle (hwithin.anti (hfirst.keeps.trans hrest.keeps))) (ih hwithin)

theorem Keeps.exists_method (h : t.Keeps t') (hm : m ∈ (t.get id).methods) :
    ∃ m' ∈ (t'.get id).methods, m'.header = m.header := by
  have hheader : m.header ∈ (t'.get id).methods.map Method.header :=
    (h.methods id).subset (mem_map_of_mem hm)
  exact mem_map.mp hheader

/-! ## Fields and properties -/

/-- The fields and properties of a type grow by what is written of it. -/
structure Gains (made : QualifiedName → Prop) (owner : QualifiedName) (ws : List Written)
    (t : TypeTable) (d d' : TypeDef) : Prop where
  fields : ∃ fs, d'.storage = d.storage ++ fs ∧ Forall₂
    (fun slot (f : Field) => slot.Describes made t f.name f.type) (ws.filterMap (Written.field? owner)) fs
  properties : ∃ ps, d'.properties = d.properties ++ ps ∧ Forall₂
    (fun slot (p : Property) => slot.Describes made t p.name p.type)
      (ws.filterMap (Written.property? owner)) ps

namespace Gains
variable {owner : QualifiedName} {ws ws' : List Written} {d d' d'' : TypeDef}

theorem same (hfields : ws.filterMap (Written.field? owner) = [])
    (hproperties : ws.filterMap (Written.property? owner) = []) (hstorage : d'.storage = d.storage)
    (hsame : d'.properties = d.properties) : Gains made owner ws t d d' :=
  ⟨⟨[], by rw [hstorage, append_nil], hfields ▸ .nil⟩, ⟨[], by rw [hsame, append_nil], hproperties ▸ .nil⟩⟩

theorem append (h : Gains made owner ws t d d') (h' : Gains made owner ws' t' d' d'')
    (hkeeps : t.Keeps t') : Gains made owner (ws ++ ws') t' d d'' := by
  obtain ⟨⟨fs, hfs, hfields⟩, ps, hps, hproperties⟩ := h
  obtain ⟨⟨fs', hfs', hfields'⟩, ps', hps', hproperties'⟩ := h'
  refine ⟨⟨fs ++ fs', ?_, ?_⟩, ps ++ ps', ?_, ?_⟩
  · rw [hfs', hfs, append_assoc]
  · rw [filterMap_append]
    exact rel_append (hfields.imp fun _ _ hf => hf.mono hkeeps) hfields'
  · rw [hps', hps, append_assoc]
  · rw [filterMap_append]
    exact rel_append (hproperties.imp fun _ _ hp => hp.mono hkeeps) hproperties'

end Gains

theorem storage_modify (id owner : TypeId) {f : TypeDef → TypeDef}
    (hfields : ∀ d, (f d).storage = d.storage) (hproperties : ∀ d, (f d).properties = d.properties) :
    ((t.modify owner f).get id).storage = (t.get id).storage ∧
      ((t.modify owner f).get id).properties = (t.get id).properties := by
  rcases t.get_modify_cases owner f id with hsame | ⟨-, -, hnew⟩
  · rw [hsame]
    exact ⟨rfl, rfl⟩
  · rw [hnew]
    exact ⟨hfields _, hproperties _⟩

theorem lookup_inj {n n' : QualifiedName} (h : t.lookup n = some id) (h' : t.lookup n' = some id) : n = n' :=
  (lookup_spec h).2.symm.trans (lookup_spec h').2

theorem get_modify_of_lookup (hid : t.lookup owner = some id) (hid' : t.lookup owner' = some id')
    (f : TypeDef → TypeDef) : owner' = owner ∧ (t.modify id' f).get id = f (t.get id) ∨
      owner' ≠ owner ∧ (t.modify id' f).get id = t.get id := by
  by_cases howner : owner' = owner
  · subst howner
    cases hid.symm.trans hid'
    exact Or.inl ⟨rfl, get_modify_self t id f (lookup_spec hid).1⟩
  · have hne : id ≠ id' := fun heq => howner (lookup_inj hid' (heq ▸ hid))
    exact Or.inr ⟨howner, get_modify_of_ne t id' f id hne⟩

theorem gains_addField (hid : t.lookup owner = some id) (hid' : t.lookup owner' = some id') {f : Field}
    (hf : f.isLiteral = false) (hslot : slot.Describes made t' f.name f.type) :
    Gains made owner [.field owner' slot] t' (t.get id) ((t.addField id' f).2.get id) := by
  rcases get_modify_of_lookup hid hid' (fun d => { d with fields := d.fields ++ [f] }) with
    ⟨rfl, hget⟩ | ⟨hne, hget⟩
  · rw [addField, hget]
    refine ⟨⟨[f], ?_, ?_⟩, [], (append_nil _).symm, .nil⟩
    · change (_ ++ [f]).filter _ = _
      rw [filter_append, filter_cons_of_pos (by simp [hf]), filter_nil]
      rfl
    · rw [filterMap_cons_some Written.field?_self]
      exact .cons hslot .nil
  · rw [addField, hget]
    exact .same (filterMap_cons_none (Written.field?_of_ne hne)) rfl rfl rfl

theorem gains_addProperty (hid : t.lookup owner = some id) (hid' : t.lookup owner' = some id') {p : Property}
    (hslot : slot.Describes made t' p.name p.type) :
    Gains made owner [.property owner' slot] t' (t.get id) ((t.addProperty id' p).get id) := by
  rcases get_modify_of_lookup hid hid' (fun d => { d with properties := d.properties ++ [p] }) with
    ⟨rfl, hget⟩ | ⟨hne, hget⟩
  · rw [addProperty, hget]
    refine ⟨⟨[], (append_nil _).symm, .nil⟩, [p], rfl, ?_⟩
    rw [filterMap_cons_some Written.property?_self]
    exact .cons hslot .nil
  · rw [addProperty, hget]
    exact .same rfl (filterMap_cons_none (Written.property?_of_ne hne)) rfl rfl

theorem Store.gains (h : Store made (fun _ => True) t w t') (hid : t.lookup owner = some id) :
    Gains made owner w.toList t' (t.get id) (t'.get id) := by
  have hkeeps := h.keeps
  -- a change that leaves fields and properties alone
  have hmodify : ∀ (type : TypeId) (f : TypeDef → TypeDef), (∀ d, (f d).storage = d.storage) →
      (∀ d, (f d).properties = d.properties) → w.toList.filterMap (Written.field? owner) = [] →
      w.toList.filterMap (Written.property? owner) = [] →
      Gains made owner w.toList (t.modify type f) (t.get id) ((t.modify type f).get id) := by
    intro type f hfields hproperties hnoField hnoProperty
    obtain ⟨hstorage, hsame⟩ := storage_modify (t := t) id type hfields hproperties
    exact .same hnoField hnoProperty hstorage hsame
  cases h with
  | extend h =>
    have hget : t'.get id = t.get id := h.get_eq (lookup_spec hid).1
    exact .same rfl rfl (by rw [hget]) (by rw [hget])
  | revise type f hf =>
    refine hmodify type f (fun d => ?_) (fun d => congrArg (·.2.2) (hf d).2) rfl rfl
    exact congrArg (fun fs : List Field => fs.filter (! ·.isLiteral)) (congrArg (·.1) (hf d).2)
  | setBody m g => exact hmodify m.type _ (fun _ => rfl) (fun _ => rfl) rfl rfl
  | constant type f hf =>
    refine hmodify type _ (fun d => ?_) (fun _ => rfl) rfl rfl
    change (d.fields ++ [f]).filter _ = d.fields.filter _
    rw [filter_append, filter_cons_of_neg (by simp [hf]), filter_nil, append_nil]
  | field f hid' hf hslot => exact gains_addField hid hid' hf ((hslot fun _ _ _ => trivial).mono hkeeps)
  | property p hid' hslot => exact gains_addProperty hid hid' ((hslot fun _ _ _ => trivial).mono hkeeps)
  | @method owner' id' h m => exact hmodify id' _ (fun _ => rfl) (fun _ => rfl) rfl rfl
  | repeated m => exact .same rfl rfl rfl rfl

/-- The fields and properties of a type grow by all that is written of it, in order. -/
theorem Stores.gains (h : Stores made (fun _ => True) ws t t') (hid : t.lookup owner = some id) :
    Gains made owner ws t' (t.get id) (t'.get id) := by
  induction h with
  | nil => exact .same rfl rfl rfl rfl
  | cons hfirst hrest ih =>
    exact (hfirst.gains hid).append (ih (hfirst.keeps.lookup hid)) hrest.keeps

/-! ## Methods -/

theorem Store.exists_signs (hstore : Store made (fun _ => True) t (some (.method owner h)) t') :
    ∃ id, t'.lookup owner = some id ∧ ∃ m ∈ (t'.get id).methods, h.Signs made t' m := by
  have hkeeps := hstore.keeps
  cases hstore with
  | @method _ id _ m hid hm =>
    refine ⟨id, hkeeps.lookup hid, m, ?_, (hm fun _ _ _ => trivial).toSigns.mono hkeeps⟩
    change m ∈ ((t.modify id _).get id).methods
    rw [get_modify_self t id _ (lookup_spec hid).1]
    exact mem_append_right _ mem_cons_self
  | @repeated _ id _ m hid hmem hm => exact ⟨id, hid, m, hmem, hm fun _ _ _ => trivial⟩

theorem Stores.exists_signs (hstores : Stores made (fun _ => True) ws t t') (hw : .method owner h ∈ ws) :
    ∃ id, t'.lookup owner = some id ∧ ∃ m ∈ (t'.get id).methods, h.Signs made t' m := by
  induction hstores with
  | nil => cases hw
  | cons hfirst hrest ih =>
    rcases mem_append.mp hw with hnow | hlater
    · cases Option.mem_toList.mp hnow
      obtain ⟨id, hid, m, hmem, hm⟩ := hfirst.exists_signs
      obtain ⟨m', hmem', hheader⟩ := hrest.keeps.exists_method hmem
      exact ⟨id, hrest.keeps.lookup hid, m', hmem', (hm.mono hrest.keeps).of_header hheader⟩
    · exact ih hlater

theorem Store.method_cases (hstore : Store made (fun _ => True) t w t') (hm : m ∈ (t'.get id).methods) :
    (∃ m' ∈ (t.get id).methods, m.header = m'.header) ∨
      ∃ owner h, w = some (.method owner h) ∧ t.lookup owner = some id ∧ h.Describes made t m := by
  have hold : (t'.get id).methods = (t.get id).methods → ∃ m' ∈ (t.get id).methods, m.header = m'.header :=
    fun hsame => ⟨m, hsame ▸ hm, rfl⟩
  have hmodify : ∀ (type : TypeId) (f : TypeDef → TypeDef), (∀ d, (f d).methods = d.methods) →
      ((t.modify type f).get id).methods = (t.get id).methods := by
    intro type f hf
    rcases t.get_modify_cases type f id with hsame | ⟨-, -, hnew⟩
    · rw [hsame]
    · rw [hnew, hf]
  cases hstore with
  | extend h => exact Or.inl (hold (h.methods_get id))
  | revise type f hf => exact Or.inl (hold (hmodify type f fun d => congrArg (·.2.1) (hf d).2))
  | setBody target g =>
    have hheader : m.header ∈ (t.get id).methods.map Method.header := by
      rw [← map_header_setBody t target g id]
      exact mem_map_of_mem hm
    obtain ⟨m', hmem, heq⟩ := mem_map.mp hheader
    exact Or.inl ⟨m', hmem, heq.symm⟩
  | constant type f => exact Or.inl (hold (hmodify type _ fun _ => rfl))
  | @field _ type _ f | @property _ type _ p => exact Or.inl (hold (hmodify type _ fun _ => rfl))
  | @method owner type h new hid hnew =>
    rcases t.methods_get_modify type (fun d => { d with methods := d.methods ++ [new] }) id with
      hsame | ⟨rfl, hmethods⟩
    · exact Or.inl (hold hsame)
    · rcases mem_append.mp (hmethods ▸ hm) with hmem | hmem
      · exact Or.inl ⟨m, hmem, rfl⟩
      · cases mem_singleton.mp hmem
        exact Or.inr ⟨owner, h, rfl, hid, hnew fun _ _ _ => trivial⟩
  | repeated first => exact Or.inl ⟨m, hm, rfl⟩

theorem Stores.method_cases (hstores : Stores made (fun _ => True) ws t t') (hm : m ∈ (t'.get id).methods) :
    (∃ m' ∈ (t.get id).methods, m.header = m'.header) ∨
      ∃ owner h, .method owner h ∈ ws ∧ t'.lookup owner = some id ∧ h.Describes made t' m := by
  induction hstores with
  | nil => exact Or.inl ⟨m, hm, rfl⟩
  | cons hfirst hrest ih =>
    rcases ih hm with ⟨m', hmem, hheader⟩ | ⟨owner, h, hw, hid, hdescribes⟩
    · rcases hfirst.method_cases hmem with ⟨first, hmem', hheader'⟩ | ⟨owner, h, rfl, hid, hdescribes⟩
      · exact Or.inl ⟨first, hmem', hheader.trans hheader'⟩
      · refine Or.inr ⟨owner, h, mem_append_left _ mem_cons_self, ?_, ?_⟩
        · exact hrest.keeps.lookup (hfirst.keeps.lookup hid)
        · exact (hdescribes.mono (hfirst.keeps.trans hrest.keeps)).of_header hheader
    · exact Or.inr ⟨owner, h, mem_append_right _ hw, hid, hdescribes⟩

/-- A method that is written of a type without methods is there, and it is as one of the methods that are
written of this type. -/
theorem Stores.exists_describes (hstores : Stores made (fun _ => True) ws t t')
    (hnew : ∀ id, t'.lookup owner = some id → (t.get id).methods = []) (hw : .method owner h ∈ ws) :
    ∃ id, t'.lookup owner = some id ∧ ∃ m ∈ (t'.get id).methods, h.Signs made t' m ∧
      ∃ h', .method owner h' ∈ ws ∧ h'.Describes made t' m := by
  obtain ⟨id, hid, m, hmem, hsigns⟩ := hstores.exists_signs hw
  refine ⟨id, hid, m, hmem, hsigns, ?_⟩
  rcases hstores.method_cases hmem with ⟨m', hmem', -⟩ | ⟨owner', h', hw', hid', hdescribes⟩
  · rw [hnew id hid] at hmem'
    cases hmem'
  · cases lookup_inj hid hid'
    exact ⟨h', hw', hdescribes⟩

end TypeTable

end TreeCompiler
