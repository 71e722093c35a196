import TreeCompiler.Image.Build
import TreeCompiler.Proofs.FlowGraph.Placement
import TreeCompiler.Proofs.Image.EmittedCode
import TreeCompiler.Proofs.Image.Numbering
import TreeCompiler.Proofs.StackCode.Reading

/-!
# What the rows of definitions refer to

Rows of definitions hold tokens: of bases and interfaces, of constructors of attributes, of accessors,
in signatures and in code. Which entity each of them stands for is said relative to a relation `names`
between tokens and entities.

* `DescribesField`, `DescribesMethod`, `DescribesBody`, `DescribesProperty`, `DescribesType` : a row is
  that of a definition, and its tokens name what the definition refers to.
-/

theorem Option.Rel.imp {α β : Type} {R S : α → β → Prop} (h : ∀ a b, R a b → S a b) {x : Option α}
    {y : Option β} (hr : Option.Rel R x y) : Option.Rel S x y := by
  cases hr with
  | some hr => exact .some (h _ _ hr)
  | none => exact .none

namespace TreeCompiler

open List StackInstr StackCode

/-! ## Tokens in code -/

/-- The token or the number of a slot that an instruction has as its operand. -/
def Opcode.operand? : Opcode → Option (Token ⊕ Nat)
  | .loadString t | .storeField t | .call t | .newObject t => some (.inl t)
  | .loadLocal n | .storeLocal n => some (.inr n)
  | _ => none

/-- The number is that of the slot for some place, as far as numbers of slots go. -/
def Places.InSlot (ps : Places) (n : Nat) (p : Place) : Prop :=
  ∃ k, n = k % CodeScope.wordSize ∧ ps[k]? = some p

namespace Instruction

/-- What an instruction refers to outside the graph. -/
def entities : Instruction → List Entity
  | .constant (.string s) _ => [.text s]
  | .call m _ | .newObject m _ => [.method m]
  | .storeField x _ _ => [.field x]
  | _ => []

def sources : Instruction → List Place
  | .loadLocal b => [.binding b]
  | i => i.operands.map .value

/-- The place that an instruction fills. A variable may be declared without a value. -/
def sink? (yields : MethodRef → Bool) (id : InstrId) : Instruction → Option Place
  | .alloca _ _ none => none
  | i => i.place? yields id

theorem sink?_call (yields : MethodRef → Bool) (id : InstrId) (m : MethodRef) (args : List InstrId) :
    (call m args).sink? yields id = if yields m then some (.value id) else none :=
  rfl

end Instruction

def FlowGraph.entities (g : FlowGraph) : List Entity :=
  g.blocks.flatMap fun b => (g.instructionsOf b).flatMap (·.2.entities)

namespace CodeScope
variable (e : CodeScope)

def flowSource? (b : Block) : Option InstrId :=
  match b.flow with
  | .ret value => value
  | .jump _ => none
  | .unreachable => e.thrown? b

/-- The places that an instruction reads, what it refers to outside the graph, and the place that it fills. -/
def mentions (id : InstrId) (i : Instruction) : List (Entity ⊕ Place) :=
  i.sources.map .inr ++ i.entities.map .inl ++ (i.sink? e.yields id).toList.map .inr

/-- What the instructions and the end of a block mention, in order. -/
def mentionsOf (b : Block) : List (Entity ⊕ Place) :=
  ((e.graph.instructionsOf b).flatMap fun x => e.mentions x.1 x.2) ++
    (e.flowSource? b).toList.map fun id => .inr (.value id)

end CodeScope

theorem TypeDef.accessorsBefore_succ {d : TypeDef} {i : Nat} {p : Property} (h : d.properties[i]? = some p) :
    d.accessorsBefore (i + 1) = d.accessorsBefore i + (p.getter.toList ++ p.setter.toList).length := by
  unfold accessorsBefore
  rw [take_add_one, h, flatMap_append, length_append, Option.toList_some, flatMap_singleton]

/-! ## Rows -/

namespace TypeTable

section Rows
variable (t : TypeTable) (names : Token → Entity → Prop)

/-- The token is that of the constructor which an attribute runs. -/
def NamesConstructor (a : Attribute) (token : Token) : Prop :=
  match t.findMethod? a.type ".ctor" a.args.length with
  | some ctor => names token (.method ctor)
  | none => names token (.constructor a)

def DescribesAttributes (attributes : List Attribute) (rows : List AttributeRow) : Prop :=
  Forall₂ (fun a row => t.NamesConstructor names a row.ctor) attributes rows

structure DescribesField (x : Field) (row : FieldRow) : Prop where
  name : row.name = x.name
  signature : t.SignsField (fun token id => names token (.type id)) x row.signature
  attributes : t.DescribesAttributes names x.attributes row.attributes

structure DescribesMethod (m : Method) (row : MethodRow) : Prop where
  name : row.name = m.name
  signature : t.SignsMethod (fun token id => names token (.type id)) m row.signature
  attributes : t.DescribesAttributes names m.attributes row.attributes

/-- The tokens and the numbers of slots in code are those of what the graph mentions, one after the other, and each
slot is signed by the type of what its place keeps. -/
def DescribesBody (e : CodeScope) (body : MethodBody) : Prop :=
  ∃ (ops : List Opcode) (places : Places), Reads body.code ops ∧
    Forall₂ (Sum.LiftRel names places.InSlot) (ops.filterMap Opcode.operand?) (e.graph.blocks.flatMap e.mentionsOf) ∧
    Forall₂ (fun p blob => t.SignsSome (fun token id => names token (.type id)) (e.placeType p) blob)
      places body.locals

/-- `i` is the place of the property among those of its owner. -/
structure DescribesProperty (owner : TypeId) (i : Nat) (p : Property) (row : PropertyRow) : Prop where
  name : row.name = p.name
  signature : ∃ type, t.SignsSome (fun token id => names token (.type id)) p.type type ∧
    row.signature = Emission.propertyMark :: 0 :: type
  getter : Option.Rel (fun _ token => names token (.getter owner i)) p.getter row.getter
  setter : Option.Rel (fun _ token => names token (.setter owner i)) p.setter row.setter
  attributes : t.DescribesAttributes names p.attributes row.attributes

def DescribesCode (ref : MethodRef) (m : Method) (row : MethodRow) : Prop :=
  t.DescribesMethod names m row ∧
    Option.Rel (fun graph body => t.DescribesBody names ⟨t, ref, graph⟩ body) m.body row.body

def baseType? (d : TypeDef) : Option TypeId :=
  (Emission.classBase? t d).or (if d.isInterface then none else t.primitive? .object)

structure DescribesType (type : TypeId) (d : TypeDef) (row : TypeDefRow) : Prop where
  namespaceName : row.namespaceName = d.name.qualifier.text
  name : row.name = d.name.last
  base : Option.Rel (fun id token => names token (.type id)) (t.baseType? d) row.base
  interfaces : Forall₂ (fun id token => names token (.type id))
    (d.bases.filter fun b => (t.get b).isInterface) row.interfaces
  attributes : t.DescribesAttributes names d.attributes row.attributes
  fields : Forall₂ (t.DescribesField names) d.fields row.fields
  /-- The methods come first, then the accessors, which have no code. -/
  methods : ∃ own accessors, row.methods = own ++ accessors ∧
    Forall₂ (fun m row => t.DescribesCode names ⟨type, m.2⟩ m.1 row) d.methods.zipIdx own ∧
    Forall₂ (fun m row => t.DescribesMethod names m row ∧ row.body = none) d.accessors accessors
  properties : Forall₂ (fun p row => t.DescribesProperty names type p.2 p.1 row)
    d.properties.zipIdx row.properties

end Rows

theorem DescribesType.forall₂_methods {t : TypeTable} {names : Token → Entity → Prop} {type : TypeId}
    {d : TypeDef} {row : TypeDefRow} (h : t.DescribesType names type d row) :
    Forall₂ (t.DescribesMethod names) (d.methods ++ d.accessors) row.methods := by
  obtain ⟨own, accessors, hmethods, hown, haccessors⟩ := h.methods
  have hheaders : Forall₂ (t.DescribesMethod names) (d.methods.zipIdx.map Prod.fst) own := by
    rw [forall₂_map_left_iff]
    exact hown.imp fun _ _ hm => hm.1
  rw [zipIdx_map_fst] at hheaders
  rw [hmethods]
  exact rel_append hheaders (haccessors.imp fun _ _ hm => hm.1)

end TypeTable

/-- The rows of definitions of an image are those of the definitions of an assembly. -/
structure Assembly.DescribesImage (a : Assembly) (names : Token → Entity → Prop) (i : Image) :
    Prop where
  attributes : a.types.DescribesAttributes names (Emission.frameworkAttribute? a.types).toList
    i.attributes
  typeDefs : Forall₂ (fun d row => a.types.DescribesType names d.1 d.2 row) a.types.defined
    i.typeDefs
  entryPoint : Option.Rel (fun m token => names token (.method m)) a.entryPoint i.entryPoint

/-! ## Weaker relations -/

section Monotone
variable {names names' : Token → Entity → Prop} {t : TypeTable}
  (h : ∀ token entity, names token entity → names' token entity)
include h

namespace TypeTable
variable {m : Method} {row : MethodRow}

theorem NamesConstructor.imp {a : Attribute} {token : Token}
    (hn : t.NamesConstructor names a token) : t.NamesConstructor names' a token := by
  unfold NamesConstructor at *
  split at hn
  · exact h _ _ hn
  · exact h _ _ hn

theorem DescribesAttributes.imp {attributes : List Attribute} {rows : List AttributeRow}
    (hd : t.DescribesAttributes names attributes rows) : t.DescribesAttributes names' attributes rows :=
  Forall₂.imp (fun _ _ hn => hn.imp h) hd

theorem DescribesField.imp {x : Field} {row : FieldRow} (hd : t.DescribesField names x row) :
    t.DescribesField names' x row :=
  ⟨hd.name, hd.signature.imp fun _ _ => h _ _, hd.attributes.imp h⟩

theorem DescribesMethod.imp (hd : t.DescribesMethod names m row) : t.DescribesMethod names' m row :=
  ⟨hd.name, hd.signature.imp fun _ _ => h _ _, hd.attributes.imp h⟩

theorem DescribesBody.imp {e : CodeScope} {body : MethodBody} (hd : t.DescribesBody names e body) :
    t.DescribesBody names' e body := by
  obtain ⟨ops, places, hreads, hops, hplaces⟩ := hd
  exact ⟨ops, places, hreads, hops.imp fun _ _ hop => hop.mono h fun _ _ => id,
    hplaces.imp fun _ _ hs => hs.imp fun _ _ => h _ _⟩

theorem DescribesProperty.imp {owner : TypeId} {i : Nat} {p : Property} {row : PropertyRow}
    (hd : t.DescribesProperty names owner i p row) : t.DescribesProperty names' owner i p row := by
  obtain ⟨type, htype, hsign⟩ := hd.signature
  exact {
    name := hd.name
    signature := ⟨type, htype.imp fun _ _ => h _ _, hsign⟩
    getter := hd.getter.imp fun _ _ => h _ _
    setter := hd.setter.imp fun _ _ => h _ _
    attributes := hd.attributes.imp h }

theorem DescribesCode.imp {ref : MethodRef} (hd : t.DescribesCode names ref m row) : t.DescribesCode names' ref m row :=
  ⟨hd.1.imp h, hd.2.imp fun _ _ hb => hb.imp h⟩

theorem DescribesType.imp {type : TypeId} {d : TypeDef} {row : TypeDefRow}
    (hd : t.DescribesType names type d row) : t.DescribesType names' type d row := by
  obtain ⟨own, accessors, hmethods, hown, haccessors⟩ := hd.methods
  exact {
    namespaceName := hd.namespaceName
    name := hd.name
    base := hd.base.imp fun _ _ => h _ _
    interfaces := hd.interfaces.imp fun _ _ => h _ _
    attributes := hd.attributes.imp h
    fields := hd.fields.imp fun _ _ hx => hx.imp h
    methods := ⟨own, accessors, hmethods, hown.imp fun _ _ hm => hm.imp h,
      haccessors.imp fun _ _ hm => ⟨hm.1.imp h, hm.2⟩⟩
    properties := hd.properties.imp fun _ _ hp => hp.imp h }

end TypeTable

theorem Assembly.DescribesImage.imp {a : Assembly} {i : Image} (hd : a.DescribesImage names i) :
    a.DescribesImage names' i :=
  ⟨hd.attributes.imp h, hd.typeDefs.imp fun _ _ ht => ht.imp h, hd.entryPoint.imp fun _ _ => h _ _⟩

end Monotone

/-! ## Operands of emitted code -/

def StackInstr.operand? (i : StackInstr) : Option (Token ⊕ Nat) :=
  (i.opcode fun _ => 0).operand?

namespace CodeScope

section Emitted
variable {e : CodeScope} {f : References} {frame frame' : Frame} {code : List StackInstr}
  {codes : List (List StackInstr)} {n : Nat} {ps : Places} {p : Place}

theorem inSlot_of_number? (h : ps.number? p = some n) : ps.InSlot (n % wordSize) p := by
  obtain ⟨hn, hp, -⟩ := findIdx?_eq_some_iff_getElem.mp h
  exact ⟨n, rfl, (getElem?_eq_getElem hn).trans (congrArg some (beq_iff_eq.mp hp))⟩

theorem inSlot_of_takes {t : TypeTable} {type : Option TypeId} (h : frame.Takes f t p type n frame') :
    frame'.places.InSlot (n % wordSize) p := by
  refine ⟨n, rfl, ?_⟩
  rw [h.places, h.slot_eq, getElem?_concat_length]

theorem inSlot_of_holds {b : BindingId} (h : frame.Holds f e.types e.graph b n frame') :
    frame'.places.InSlot (n % wordSize) (.binding b) := by
  unfold Frame.Holds at h
  split at h
  next hn =>
    rw [h.1, h.2]
    exact inSlot_of_number? hn
  next =>
    obtain ⟨p, -, htakes⟩ := h
    exact inSlot_of_takes htakes

theorem Grows.inSlot (h : e.Grows f frame frame') (hn : frame.places.InSlot n p) : frame'.places.InSlot n p := by
  obtain ⟨k, hk, hp⟩ := hn
  obtain ⟨hlt, rfl⟩ := List.getElem?_eq_some_iff.mp hp
  exact ⟨k, hk, prefix_iff_getElem?.mp h.places k hlt⟩

theorem Grows.liftRel (h : e.Grows f frame frame') {operands : List (Token ⊕ Nat)} {ms : List (Entity ⊕ Place)}
    (hm : Forall₂ (Sum.LiftRel (f.Names e.types) frame.places.InSlot) operands ms) :
    Forall₂ (Sum.LiftRel (f.Names e.types) frame'.places.InSlot) operands ms :=
  hm.imp fun _ _ hr => hr.mono (fun _ _ => id) fun _ _ => h.inSlot

theorem Loads.mentions {c : Constant} {load : StackInstr} (type : Option TypeId) (h : Loads f c load) :
    Forall₂ (Sum.LiftRel (f.Names e.types) ps.InSlot) ([load].filterMap operand?)
      ((Instruction.constant c type).entities.map .inl) := by
  cases c with
  | int kind v => cases kind <;> cases h <;> exact .nil
  | string s =>
    obtain ⟨token, rfl, htoken⟩ := h
    exact .cons (.inl htoken) .nil
  | float32 x | float64 x | char c | bool b | null => cases h; exact .nil

theorem mentions_operator (op : Operator) (unsigned : Bool) : (operator op unsigned).filterMap operand? = [] := by
  cases op <;> cases unsigned <;> rfl

theorem mentions_slots {args : List InstrId} {slots : List Nat} (h : frame.Slots args slots) :
    Forall₂ (Sum.LiftRel (f.Names e.types) frame.places.InSlot) ((slots.map loadLocal).filterMap operand?)
      ((args.map .value).map .inr) := by
  induction h with
  | nil => exact .nil
  | cons hslot _ ih => exact .cons (.inr (inSlot_of_number? hslot)) ih

theorem Emits.mentions {id : InstrId} {i : Instruction} (h : e.Emits f id frame i code frame') :
    Forall₂ (Sum.LiftRel (f.Names e.types) frame'.places.InSlot) (code.filterMap operand?) (e.mentions id i) := by
  have hgrows := h.grows
  have hslot : ∀ {id n}, frame.places.number? (.value id) = some n → frame'.places.InSlot (n % wordSize) (.value id) :=
    fun hn => hgrows.inSlot (inSlot_of_number? hn)
  cases h with
  | constant hload hstores =>
    rw [← singleton_append, filterMap_append]
    exact rel_append (hload.mentions _) (.cons (.inr (inSlot_of_takes hstores)) .nil)
  | load hsource hstores => exact .cons (.inr (hslot hsource)) (.cons (.inr (inSlot_of_takes hstores)) .nil)
  | loadArg _ hstores => exact .cons (.inr (inSlot_of_takes hstores)) .nil
  | loadLocal hholds hstores =>
    have hsource := (grows_of_stores hstores).inSlot (inSlot_of_holds hholds)
    exact .cons (.inr hsource) (.cons (.inr (inSlot_of_takes hstores)) .nil)
  | allocaFrom hholds hinit =>
    exact .cons (.inr (inSlot_of_number? hinit)) (.cons (.inr (inSlot_of_holds hholds)) .nil)
  | alloca => exact .nil
  | binary hleft hright hstores =>
    refine .cons (.inr (hslot hleft)) (.cons (.inr (hslot hright)) ?_)
    rw [filterMap_append, mentions_operator]
    exact .cons (.inr (inSlot_of_takes hstores)) .nil
  | call hargs htoken hyields hstores =>
    rw [filterMap_append, CodeScope.mentions, Instruction.sink?_call, hyields, append_assoc]
    exact rel_append (hgrows.liftRel (mentions_slots hargs))
      (.cons (.inl htoken) (.cons (.inr (inSlot_of_takes hstores)) .nil))
  | callVoid hargs htoken hyields =>
    rw [filterMap_append, CodeScope.mentions, Instruction.sink?_call, hyields, append_assoc]
    exact rel_append (mentions_slots hargs) (.cons (.inl htoken) .nil)
  | newObject hargs htoken hstores =>
    rw [filterMap_append, CodeScope.mentions, append_assoc]
    exact rel_append (hgrows.liftRel (mentions_slots hargs))
      (.cons (.inl htoken) (.cons (.inr (inSlot_of_takes hstores)) .nil))
  | storeField htarget hvalue htoken =>
    exact .cons (.inr (hslot htarget)) (.cons (.inr (hslot hvalue)) (.cons (.inl htoken) .nil))

theorem EmitsAll.mentions {is : Script} (h : e.EmitsAll f frame is codes frame') :
    Forall₂ (Sum.LiftRel (f.Names e.types) frame'.places.InSlot) (codes.flatten.filterMap operand?)
      (is.flatMap fun x => e.mentions x.1 x.2) := by
  induction h with
  | nil => exact .nil
  | cons hfirst hrest ih =>
    rw [flatten_cons, filterMap_append, flatMap_cons]
    exact rel_append (hrest.grows.liftRel hfirst.mentions) ih

theorem EmitsFlow.mentions {b : Block} (h : e.EmitsFlow frame b code) :
    Forall₂ (Sum.LiftRel (f.Names e.types) frame.places.InSlot) (code.filterMap operand?)
      ((e.flowSource? b).toList.map fun id => .inr (.value id)) := by
  unfold flowSource?
  cases h with
  | retValue hflow hslot =>
    rw [hflow]
    exact .cons (.inr (inSlot_of_number? hslot)) .nil
  | throwObject hflow hobject hslot =>
    rw [hflow, hobject]
    exact .cons (.inr (inSlot_of_number? hslot)) .nil
  | throwNull hflow hobject =>
    rw [hflow, hobject]
    exact .nil
  | ret hflow | jump hflow =>
    rw [hflow]
    exact .nil

theorem EmitsBlocks.mentions {bs : List Block} (h : e.EmitsBlocks f frame bs codes frame') :
    Forall₂ (Sum.LiftRel (f.Names e.types) frame'.places.InSlot) (codes.flatten.filterMap operand?)
      (bs.flatMap e.mentionsOf) := by
  induction h with
  | nil => exact .nil
  | cons hall hflow hrest ih =>
    rw [flatten_cons, filterMap_append, filterMap_append, flatMap_cons]
    exact rel_append (hrest.grows.liftRel (rel_append hall.mentions hflow.mentions)) ih

/-! ## Types of slots -/

theorem Grows.typed (h : e.Grows f frame frame') (hframe : Forall₂ (fun p blob =>
      e.types.SignsSome (f.NamesType e.types) (e.placeType p) blob) frame.places frame.signatures) :
    Forall₂ (fun p blob => e.types.SignsSome (f.NamesType e.types) (e.placeType p) blob)
      frame'.places frame'.signatures := by
  induction h with
  | refl => exact hframe
  | take _ htakes ih =>
    obtain ⟨blob, hblob, hsign⟩ := htakes.signatures
    rw [htakes.places, hblob]
    exact rel_append ih (.cons hsign .nil)

end Emitted

end CodeScope

/-! ## The rows that are made -/

namespace Emission

section Rows
variable {known : References → Prop} (t : TypeTable) {rows : TypeRows} (owner : TypeId) (m : Method)

theorem ensures_attributeCtor (a : Attribute) :
    Ensures t known (attributeCtor t a) fun token f => t.NamesConstructor (f.Names t) a token := by
  unfold attributeCtor TypeTable.NamesConstructor
  cases t.findMethod? a.type ".ctor" a.args.length with
  | some ctor => exact ensures_methodToken t ctor
  | none =>
    refine (ensures_typeToken t a.type).bind fun parent => ?_
    exact ensures_memberToken t _ (.constructor a) fun f hf => ⟨hf.2, rfl, rfl⟩

theorem ensures_attributeRows (attributes : List Attribute) : Ensures t known (attributeRows t attributes)
      fun rows f => t.DescribesAttributes (f.Names t) attributes rows := by
  refine Ensures.mapM fun known a _ => ?_
  refine (ensures_attributeCtor t a).bind fun token => ?_
  exact ensures_pure fun f hf => hf.2

theorem ensures_fieldRow (owner : TypeDef) (x : Field) :
    Ensures t known (fieldRow t owner x) fun row f => t.DescribesField (f.Names t) x row := by
  refine (ensures_fieldSignature t owner x).bind fun signature => ?_
  refine (ensures_attributeRows t x.attributes).bind fun attributes => ?_
  exact ensures_pure fun f hf => ⟨rfl, hf.1.2, hf.2⟩

theorem ensures_methodHeader : Ensures t known (methodHeader t owner m)
      fun row f => t.DescribesMethod (f.Names t) m row ∧ row.body = none := by
  refine (ensures_methodSignature t owner m).bind fun signature => ?_
  refine (ensures_attributeRows t m.attributes).bind fun attributes => ?_
  exact ensures_pure fun f hf => ⟨⟨rfl, hf.1.2, hf.2⟩, rfl⟩

theorem ensures_describedBody (e : CodeScope) :
    Ensures e.types known e.body fun body f => e.types.DescribesBody (f.Names e.types) e body := by
  refine (CodeScope.ensures_body e).imp fun body f _ hbody => ?_
  obtain ⟨codes, frame, hblocks, hcode, hlocals⟩ := hbody
  refine ⟨opcodes (starts 0 codes) 0 codes.flatten, frame.places, ?_, ?_, ?_⟩
  · rw [hcode]
    exact reads_encode _ _ _
  · have hoperands := congrArg (filterMap id) (map_opcodes (f := Opcode.operand?) (fun _ i => by cases i <;> rfl)
      (starts 0 codes) 0 codes.flatten)
    rw [filterMap_map, filterMap_map] at hoperands
    exact hoperands ▸ hblocks.mentions
  · rw [hlocals]
    exact hblocks.grows.typed .nil

theorem ensures_methodRow (ref : MethodRef) (m : Method) :
    Ensures t known (methodRow t ref m) fun row f => t.DescribesCode (f.Names t) ref m row := by
  refine (ensures_methodHeader t ref.type m).bind fun row => ?_
  cases hbody : m.body with
  | none =>
    refine ensures_pure fun f hf => ⟨hf.2.1, ?_⟩
    rw [hbody, hf.2.2]
    exact .none
  | some graph =>
    refine (ensures_describedBody ⟨t, ref, graph⟩).bind fun body => ?_
    refine ensures_pure fun f hf => ⟨⟨hf.1.2.1.name, hf.1.2.1.signature, hf.1.2.1.attributes⟩, ?_⟩
    rw [hbody]
    exact .some hf.2

theorem ensures_accessorRow : Ensures t known (accessorRow t owner m)
      fun row f => t.DescribesMethod (f.Names t) m row ∧ row.body = none := by
  refine (ensures_methodHeader t owner m).bind fun row => ?_
  exact ensures_pure fun f hf => ⟨⟨hf.2.1.name, hf.2.1.signature, hf.2.1.attributes⟩, hf.2.2⟩

variable (hrows : t.rowsOf? rows.type = some rows)
include hrows

theorem ensures_propertyRow {i : Nat} {p : Property} (hp : (t.get rows.type).properties[i]? = some p) :
    Ensures t known (propertyRow t rows.type
        (rows.methodsBefore + (t.get rows.type).methods.length + (t.get rows.type).accessorsBefore i) p)
      fun out f => t.DescribesProperty (f.Names t) rows.type i p out.1 ∧
        Forall₂ (fun m row => t.DescribesMethod (f.Names t) m row ∧ row.body = none)
          (p.getter.toList ++ p.setter.toList) out.2 := by
  refine (Ensures.mapM fun known m _ => ensures_accessorRow t rows.type m).bind fun accessors => ?_
  refine (ensures_typeSignature t p.name p.type).bind fun type => ?_
  refine (ensures_attributeRows t p.attributes).bind fun attributes => ?_
  refine ensures_pure fun f hf => ⟨⟨rfl, ⟨type, hf.1.2, rfl⟩, ?_, ?_, hf.2⟩, hf.1.1.2⟩
  · cases hgetter : p.getter with
    | none => exact .none
    | some getter => exact .some ⟨p, getter, hp, hgetter, rows, hrows, rfl⟩
  · cases hsetter : p.setter with
    | none => exact .none
    | some setter =>
      refine .some ⟨p, setter, hp, hsetter, rows, hrows, ?_⟩
      rw [Nat.add_assoc _ _ p.getter.toList.length]

theorem ensures_propertyRows (first rest : List Property) (hsplit : (t.get rows.type).properties = first ++ rest) :
    Ensures t known (propertyRows t rows.type (rows.methodsBefore + (t.get rows.type).methods.length +
        (t.get rows.type).accessorsBefore first.length) rest)
      fun out f =>
        Forall₂ (fun p row => t.DescribesProperty (f.Names t) rows.type p.2 p.1 row)
          (rest.zipIdx first.length) out.1 ∧
        Forall₂ (fun m row => t.DescribesMethod (f.Names t) m row ∧ row.body = none)
          (rest.flatMap fun p => p.getter.toList ++ p.setter.toList) out.2 := by
  induction rest generalizing known first with
  | nil => exact ensures_pure fun _ _ => ⟨.nil, .nil⟩
  | cons p rest ih =>
    have hp : (t.get rows.type).properties[first.length]? = some p := by
      rw [hsplit, getElem?_append_right (Nat.le_refl _), Nat.sub_self]
      rfl
    refine (ensures_propertyRow t hrows hp).bind fun out => ?_
    obtain ⟨row, accessors⟩ := out
    refine Ensures.of_known (fun f hf => hf.2.2.length_eq) fun hlen => ?_
    have hbefore : (t.get rows.type).accessorsBefore first.length + accessors.length =
        (t.get rows.type).accessorsBefore (first ++ [p]).length := by
      rw [length_append, length_singleton, TypeDef.accessorsBefore_succ hp, hlen]
    dsimp only
    rw [Nat.add_assoc _ _ accessors.length, hbefore]
    refine (ih (first ++ [p]) (by rw [hsplit, append_assoc]; rfl)).bind fun out => ?_
    refine ensures_pure fun f hf => ⟨?_, ?_⟩
    · rw [zipIdx_cons]
      exact .cons hf.1.2.1 (by simpa using hf.2.1)
    · rw [flatMap_cons]
      exact rel_append hf.1.2.2 hf.2.2

theorem ensures_typeDefRow : Ensures t known (typeDefRow t rows)
      fun row f => t.DescribesType (f.Names t) rows.type (t.get rows.type) row := by
  unfold typeDefRow
  dsimp only
  refine (Ensures.optionMapM fun id _ => ensures_typeToken t id).bind fun base => ?_
  refine (Ensures.mapM fun known id _ => ensures_typeToken t id).bind fun interfaces => ?_
  refine (Ensures.mapM fun known x _ => ensures_fieldRow t _ x).bind fun fields => ?_
  refine (Ensures.mapM fun known m _ => ensures_methodRow t ⟨rows.type, m.2⟩ m.1).bind fun methods => ?_
  refine (ensures_propertyRows t hrows [] _ rfl).bind fun properties => ?_
  refine (ensures_attributeRows t _).bind fun attributes => ?_
  refine ensures_pure fun f hf => ?_
  obtain ⟨⟨⟨⟨⟨⟨-, hbase⟩, hinterfaces⟩, hfields⟩, hmethods⟩, hproperties, haccessors⟩, hattributes⟩ := hf
  exact {
    namespaceName := rfl
    name := rfl
    base := hbase
    interfaces := hinterfaces
    attributes := hattributes
    fields := hfields
    methods := ⟨methods, properties.2, rfl, hmethods, haccessors⟩
    properties := hproperties }

omit hrows in
/-- The tokens in the rows of all definitions are those of what the definitions refer to. -/
theorem ensures_imageRows (a : Assembly) :
    Ensures a.types known (imageRows a) fun i f => a.DescribesImage (f.Names a.types) i := by
  unfold imageRows
  refine (ensures_attributeRows a.types _).bind fun attributes => ?_
  refine (Ensures.mapM fun known rows hmem =>
    ensures_typeDefRow a.types (TypeTable.rowsOf?_of_mem hmem)).bind fun typeDefs => ?_
  refine (Ensures.optionMapM fun m _ => ensures_methodToken a.types m).bind fun entryPoint => ?_
  refine ensures_pure fun f hf => ⟨hf.1.1.2, ?_, hf.2⟩
  exact a.types.forall₂_defined_of_typeRows hf.1.2

end Rows

end Emission

end TreeCompiler
