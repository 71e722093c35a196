import TreeCompiler.Proofs.Number.Widening
import TreeCompiler.Tree.Reader
import TreeCompiler.Tree.ToJson

/-!
# Trees written as JSON

What is written of a tree can be read back: a field is found under its key, what is absent was null, and a word
or a number says what it was. Only names and floating-point numbers come in forms that cannot be written.

* `Tree.atoms` : the names and literals in a tree.
-/

namespace TreeCompiler

open List Json AttributeUse TypeExpr

variable {members : List (String × Json)}

open Number

/-! ## What has to be written -/

def QualifiedName.Segmented (n : QualifiedName) : Prop :=
  ∀ s ∈ n.segments, s ≠ "" ∧ '.' ∉ s.toList

def Literal.IsFinite : Literal → Prop
  | .f16 x | .f32 x => x.IsFinite
  | .f64 x => x.isFinite = true
  | _ => True

/-- What a tree is made of that not every value of can be written. -/
inductive Atom where
  | name (n : QualifiedName)
  | literal (l : Literal)

def Atom.Writable : Atom → Prop
  | .name n => n.Segmented
  | .literal l => l.IsFinite

/-- All of the atoms can be written. -/
def Writable (as : List Atom) : Prop :=
  ∀ a ∈ as, a.Writable

@[simp] theorem writable_append {as bs : List Atom} : Writable (as ++ bs) ↔ Writable as ∧ Writable bs :=
  forall_mem_append

@[simp] theorem writable_cons {a : Atom} {as : List Atom} : Writable (a :: as) ↔ a.Writable ∧ Writable as :=
  forall_mem_cons

mutual

def TypeExpr.atoms : TypeExpr → List Atom
  | .named name _ => [.name name]
  | .function params result _ => paramsAtoms params ++ resultAtoms result

def TypeExpr.paramsAtoms : List TypeExpr → List Atom
  | [] => []
  | t :: ts => t.atoms ++ paramsAtoms ts

def TypeExpr.resultAtoms : Option TypeExpr → List Atom
  | none => []
  | some t => t.atoms

end

def Expr.atoms : Expr → List Atom
  | .literal value _ => [.literal value]
  | .binary _ lhs rhs _ => lhs.atoms ++ rhs.atoms
  | .ident .. | .error _ => []

def AttributeUse.atoms (a : AttributeUse) : List Atom :=
  [.name a.name]

def Callee.atoms : Callee → List Atom
  | .unqualified _ => []
  | .qualified type _ => [.name type]

def Stmt.atoms : Stmt → List Atom
  | .var _ type value _ => type.toList.flatMap TypeExpr.atoms ++ value.toList.flatMap Expr.atoms
  | .call callee args _ => callee.atoms ++ args.flatMap Expr.atoms
  | .ret value _ => value.toList.flatMap Expr.atoms
  | .throw value _ => value.atoms
  | .error _ => []

def Param.atoms (p : Param) : List Atom :=
  p.type.atoms ++ p.default.toList.flatMap Expr.atoms

def FnDecl.atoms (d : FnDecl) : List Atom :=
  d.params.flatMap Param.atoms ++ d.returnType.toList.flatMap TypeExpr.atoms ++
    d.body.toList.flatMap (·.flatMap Stmt.atoms) ++ d.annotations.flatMap AttributeUse.atoms

def FieldDecl.atoms (d : FieldDecl) : List Atom :=
  d.type.atoms ++ d.value.toList.flatMap Expr.atoms ++ d.annotations.flatMap AttributeUse.atoms

def PropertyDecl.atoms (d : PropertyDecl) : List Atom :=
  d.type.atoms ++ d.annotations.flatMap AttributeUse.atoms

def Member.atoms : Member → List Atom
  | .field d => d.atoms
  | .method d => d.atoms
  | .property d => d.atoms
  | .error _ => []

def TypeDecl.atoms (d : TypeDecl) : List Atom :=
  d.bases.flatMap TypeExpr.atoms ++ d.members.flatMap Member.atoms ++ d.annotations.flatMap AttributeUse.atoms

def EnumMember.atoms (m : EnumMember) : List Atom :=
  m.type.toList.flatMap TypeExpr.atoms ++ m.value.toList.flatMap Expr.atoms

def EnumDecl.atoms (d : EnumDecl) : List Atom :=
  d.underlying.toList.flatMap TypeExpr.atoms ++ d.members.flatMap EnumMember.atoms ++
    d.annotations.flatMap AttributeUse.atoms

def VariantField.atoms (f : VariantField) : List Atom :=
  f.type.atoms

def Variant.atoms (v : Variant) : List Atom :=
  v.fields.flatMap VariantField.atoms

def TaggedUnionDecl.atoms (d : TaggedUnionDecl) : List Atom :=
  d.variants.flatMap Variant.atoms ++ d.annotations.flatMap AttributeUse.atoms

def UnionField.atoms (f : UnionField) : List Atom :=
  f.type.atoms ++ f.offset.toList.flatMap Expr.atoms ++ f.annotations.flatMap AttributeUse.atoms

def UnionDecl.atoms (d : UnionDecl) : List Atom :=
  d.fields.flatMap UnionField.atoms ++ d.annotations.flatMap AttributeUse.atoms

def Decl.atoms : Decl → List Atom
  | .type d => d.atoms
  | .enum d => d.atoms
  | .taggedUnion d => d.atoms
  | .union d => d.atoms
  | .fn d => d.atoms
  | .error _ => []

def Tree.atoms (t : Tree) : List Atom :=
  .name t.module :: t.body.flatMap Decl.atoms

/-! ## Records, lists and options -/

namespace Json
variable {members : List (String × Json)}

theorem countP_le_one (h : (members.map Prod.fst).Nodup) (key : String) : members.countP (·.1 == key) ≤ 1 := by
  have hcount : members.countP (·.1 == key) = (members.map Prod.fst).count key := by
    rw [count, countP_map]
    rfl
  exact hcount ▸ nodup_iff_count.mp h key

@[simp] theorem record?_obj (h : (members.map Prod.fst).Nodup) (keys : List String) :
    record? keys (.obj members) = some (.obj members) :=
  if_pos (all_eq_true.mpr fun key _ => decide_eq_true (countP_le_one h key))

@[simp] theorem field?_cons_self (key : String) (j : Json) (members : List (String × Json)) :
    field? (.obj ((key, j) :: members)) key = some j :=
  lookup_cons_self

@[simp] theorem field?_cons_of_ne {key other : String} (h : key ≠ other) (j : Json) (members : List (String × Json)) :
    field? (.obj ((other, j) :: members)) key = field? (.obj members) key := by
  unfold field?
  dsimp only
  rw [lookup_cons, beq_eq_false_iff_ne.mpr h]

@[simp] theorem str?_str (s : String) : str? (.str s) = some s := rfl

@[simp] theorem defaulted_some {α : Type} (default : α) (decode : Json → Option α) (j : Json) :
    defaulted default decode (some j) = decode j := rfl

end Json

/-- `decode` reads back what `encode` wrote, if the atoms can be written. -/
structure RoundTrips {α : Type} (decode : Json → Option α) (encode : α → Json) (atoms : α → List Atom) : Prop where
  read : ∀ a, Writable (atoms a) → decode (encode a) = some a
  null : decode .null = none

namespace RoundTrips
variable {α : Type} {decode : Json → Option α} {encode : α → Json} {atoms : α → List Atom}
  (h : RoundTrips decode encode atoms)
include h

theorem mapM_map {as : List α} (has : Writable (as.flatMap atoms)) : (as.map encode).mapM decode = some as := by
  induction as with
  | nil => rfl
  | cons a as ih =>
    rw [flatMap_cons, writable_append] at has
    rw [map_cons, mapM_cons, h.read a has.1, ih has.2]
    rfl

theorem list : RoundTrips (list? decode) (ofList encode) (·.flatMap atoms) where
  read _ has := h.mapM_map has
  null := rfl

theorem optional {o : Option α} (ho : Writable (o.toList.flatMap atoms)) :
    optional decode (some (ofOption encode o)) = some o := by
  cases o with
  | none => rfl
  | some a =>
    have hread := h.read a (by simpa using ho)
    unfold ofOption
    dsimp only
    unfold Json.optional
    split
    next heq => cases heq
    next heq =>
      rw [Option.some.inj heq, h.null] at hread
      cases hread
    next heq =>
      cases heq
      rw [hread]
      rfl

end RoundTrips

theorem Json.roundTrips_str : RoundTrips str? .str fun _ => [] where
  read _ _ := rfl
  null := rfl

/-! ## Places and names -/

@[simp] theorem Json.u32?_toNat (n : UInt32) : u32? (ofNat n.toNat) = some n := by
  change (if n.toNat < UInt32.size then some (UInt32.ofNat n.toNat) else none) = some n
  rw [if_pos n.toNat_lt, UInt32.ofNat_toNat]

@[simp] theorem Json.u64?_toNat (n : UInt64) : u64? (ofNat n.toNat) = some n := by
  change (if n.toNat < UInt64.size then some (UInt64.ofNat n.toNat) else none) = some n
  rw [if_pos n.toNat_lt, UInt64.ofNat_toNat]

@[simp] theorem Position.ofJson?_toJson (p : Position) : ofJson? p.toJson = some p := by
  simp [ofJson?, toJson]

@[simp] theorem Span.ofJson?_toJson (s : Span) : ofJson? s.toJson = some s := by
  simp [ofJson?, toJson]

@[simp] theorem Span.ofField?_obj (members : List (String × Json)) :
    ofField? (.obj members) = defaulted {} ofJson? ((obj members).field? "span") := rfl

@[simp] theorem Span.ofRecord?_obj (h : (members.map Prod.fst).Nodup) :
    ofRecord? (.obj members) = ofField? (.obj members) := by
  rw [ofRecord?, record?_obj h]
  rfl

@[simp] theorem Standing.node?_obj (s : Standing) {kinds : List String} {kind : String} (hkind : kind ∈ kinds)
    (h : ("kind" :: members.map Prod.fst).Nodup) : s.node? kinds (.obj (("kind", .str kind) :: members)) =
      some (kind, .obj (("kind", .str kind) :: members)) := by
  have hrecord : record? ["kind"] (.obj (("kind", .str kind) :: members)) = _ :=
    record?_obj (map_cons (f := Prod.fst) ▸ h) _
  simp [node?, kind?, hrecord, hkind]

namespace QualifiedName
variable {cs : List Char}

theorem split_of_not_mem (h : '.' ∉ cs) : split cs = [cs] := by
  induction cs with
  | nil => rfl
  | cons c cs ih =>
    rw [mem_cons, not_or] at h
    rw [split, if_neg (Ne.symm h.1), ih h.2]

theorem split_append_dot (h : '.' ∉ cs) (rest : List Char) : split (cs ++ '.' :: rest) = cs :: split rest := by
  induction cs with
  | nil => rfl
  | cons c cs ih =>
    rw [mem_cons, not_or] at h
    rw [cons_append, split, if_neg (Ne.symm h.1), ih h.2]

theorem split_text {s : String} {ss : List String} (h : ∀ t ∈ s :: ss, '.' ∉ t.toList) :
    split (".".intercalate (s :: ss)).toList = (s :: ss).map String.toList := by
  induction ss generalizing s with
  | nil =>
    rw [String.intercalate_singleton, split_of_not_mem (h s mem_cons_self)]
    rfl
  | cons t ss ih =>
    rw [forall_mem_cons] at h
    rw [String.intercalate_cons_cons, String.toList_append, String.toList_append, append_assoc]
    change split (s.toList ++ '.' :: (".".intercalate (t :: ss)).toList) = _
    rw [split_append_dot h.1, ih h.2]
    rfl

/-- A name is read back from its text. -/
theorem ofText_text {n : QualifiedName} (h : n.Segmented) : ofText n.text = n := by
  obtain ⟨segments⟩ := n
  cases segments with
  | nil => rfl
  | cons s ss =>
    have hfilter : ((s :: ss).map String.toList).filter (! ·.isEmpty) = (s :: ss).map String.toList := by
      refine filter_eq_self.mpr fun cs hcs => ?_
      obtain ⟨t, ht, rfl⟩ := mem_map.mp hcs
      simpa using (h t ht).1
    unfold ofText text
    rw [split_text fun t ht => (h t ht).2, hfilter, map_map]
    simp [Function.comp_def]

theorem not_mem_of_mem_split {part : List Char} (h : part ∈ split cs) : '.' ∉ part := by
  induction cs generalizing part with
  | nil =>
    cases mem_singleton.mp h
    exact not_mem_nil
  | cons c cs ih =>
    unfold split at h
    split at h
    · rcases mem_cons.mp h with rfl | h
      · exact not_mem_nil
      · exact ih h
    next hc =>
      split at h
      · cases mem_singleton.mp h
        simpa using Ne.symm hc
      next p ps hsplit =>
        rcases mem_cons.mp h with rfl | h
        · have hp := ih (hsplit ▸ mem_cons_self)
          simpa [Ne.symm hc] using hp
        · exact ih (hsplit ▸ mem_cons_of_mem p h)

/-- Names that are read have no empty segments and no dots in them. -/
theorem segmented_ofText (s : String) : (ofText s).Segmented := by
  intro t ht
  obtain ⟨part, hpart, rfl⟩ := mem_map.mp ht
  obtain ⟨hmem, hne⟩ := mem_filter.mp hpart
  refine ⟨?_, ?_⟩
  · simpa using hne
  · rw [String.toList_ofList]
    exact not_mem_of_mem_split hmem

/-- The names that are read back from their text are those whose segments are not empty and have no dots. Reading any
text gives such a name, so that its text reads the same. -/
theorem text_reads_back :
    (∀ n : QualifiedName, ofText n.text = n ↔ ∀ s ∈ n.segments, s ≠ "" ∧ '.' ∉ s.toList) ∧
    ∀ t : String, ofText (ofText t).text = ofText t ∧ ∀ s ∈ (ofText t).segments, s ≠ "" ∧ '.' ∉ s.toList := by
  refine ⟨fun n => ⟨fun h => ?_, ofText_text⟩, fun t => ⟨ofText_text (segmented_ofText t), segmented_ofText t⟩⟩
  rw [← h]
  exact segmented_ofText n.text

theorem roundTrips : RoundTrips ofJson? toJson fun n => [.name n] where
  read n h := by
    rw [writable_cons] at h
    change some (ofText n.text) = some n
    rw [ofText_text h.1]
  null := rfl

end QualifiedName

/-! ## Words and literals -/

theorem Operator.ofSymbol?_symbol (o : Operator) : ofSymbol? o.symbol = some o := by
  cases o <;> decide

theorem Modifier.ofKeyword?_keyword (m : Modifier) : ofKeyword? m.keyword = some m := by
  cases m <;> decide

theorem TypeKind.ofKeyword?_keyword (k : TypeKind) : ofKeyword? k.keyword = some k := by
  cases k <;> decide

theorem Modifier.roundTrips : RoundTrips (ofJson? .inside) toJson fun _ => [] where
  read m _ := ofKeyword?_keyword m
  null := rfl

theorem Literal.roundTrips : RoundTrips (ofJson? .inside) toJson fun l => [.literal l] where
  read l h := by
    have hfinite : l.IsFinite := (writable_cons.mp h).1
    cases l with
    | bool v | string s | f64 x | null => rfl
    | char c => simp [ofJson?, toJson, payload?, char?]
    | int i =>
      obtain ⟨kind, value, hrange⟩ := i
      have hint : int? kind (.int value) = some ⟨kind, value, hrange⟩ := dif_pos hrange
      have hword : IntKind.all.find? (·.suffix == kind.suffix) = some kind := by cases kind <;> decide
      have hpayload : payload? .inside kind.suffix (.int value) = (do
          let k ← IntKind.all.find? (·.suffix == kind.suffix)
          return .int (← int? k (.int value))) := by cases kind <;> rfl
      change payload? .inside kind.suffix (.int value) = _
      rw [hpayload, hword]
      change (int? kind (.int value)).bind _ = _
      rw [hint]
      rfl
    | f16 x => exact congrArg (fun x => some (f16 x)) (Single.narrow_widen hfinite)
    | f32 x => exact congrArg (fun x => some (f32 x)) (Single.narrow_widen hfinite)
  null := rfl

/-! ## Types and expressions -/

mutual

theorem TypeExpr.ofJsonWith?_toJson : ∀ (t : TypeExpr) {fuel : Nat}, t.toJson.depth ≤ fuel → Writable t.atoms →
    ofJsonWith? fuel t.toJson = some t
  | .named name span, 0, hdepth, _ => by simp [toJson, depth] at hdepth
  | .named name span, fuel + 1, _, h => by
    have hname := QualifiedName.roundTrips.read name h
    simp [ofJsonWith?, toJson, hname]
  | .function params result span, 0, hdepth, _ => by simp [toJson, depth] at hdepth
  | .function params result span, fuel + 1, hdepth, h => by
    rw [atoms, writable_append] at h
    simp only [toJson, depth, membersDepth, memberDepth] at hdepth
    have hparams := mapM_paramsToJson params (show itemsDepth (paramsToJson params) ≤ fuel by omega) h.1
    have hresult := optional_resultToJson result (show (resultToJson result).depth ≤ fuel by omega) h.2
    simp [ofJsonWith?, toJson, list?, hparams, hresult]

theorem TypeExpr.mapM_paramsToJson : ∀ (ts : List TypeExpr) {fuel : Nat},
    itemsDepth (paramsToJson ts) ≤ fuel → Writable (paramsAtoms ts) →
    (paramsToJson ts).mapM (ofJsonWith? fuel) = some ts
  | [], _, _, _ => rfl
  | t :: ts, fuel, hdepth, h => by
    rw [paramsAtoms, writable_append] at h
    rw [paramsToJson, itemsDepth] at hdepth
    rw [paramsToJson, mapM_cons, ofJsonWith?_toJson t (by omega) h.1, mapM_paramsToJson ts (by omega) h.2]
    rfl

theorem TypeExpr.optional_resultToJson : ∀ (r : Option TypeExpr) {fuel : Nat},
    (resultToJson r).depth ≤ fuel → Writable (resultAtoms r) →
    optional (ofJsonWith? fuel) (some (resultToJson r)) = some r
  | none, _, _, _ => rfl
  | some t, fuel, hdepth, h => by
    have hread := ofJsonWith?_toJson t hdepth h
    rw [resultToJson]
    cases t <;> exact congrArg (Option.map some) hread

end

theorem TypeExpr.roundTrips : RoundTrips ofJson? toJson atoms where
  read t h := ofJsonWith?_toJson t le_rfl h
  null := rfl

theorem Expr.ofJsonWith?_toJson (e : Expr) {fuel : Nat} (hdepth : e.toJson.depth ≤ fuel) (h : Writable e.atoms) :
    ofJsonWith? fuel .inside e.toJson = some e := by
  induction e generalizing fuel with
  | literal value span =>
    cases fuel with
    | zero => simp [toJson, Json.depth] at hdepth
    | succ fuel =>
      have hvalue := Literal.roundTrips.read value h
      simp [ofJsonWith?, toJson, hvalue]
  | ident name span | error span =>
    cases fuel with
    | zero => simp [toJson, Json.depth] at hdepth
    | succ fuel => simp [ofJsonWith?, toJson]
  | binary op lhs rhs span ihl ihr =>
    cases fuel with
    | zero => simp [toJson, Json.depth] at hdepth
    | succ fuel =>
      rw [atoms, writable_append] at h
      simp only [toJson, Json.depth, membersDepth, memberDepth] at hdepth
      have hl := ihl (show lhs.toJson.depth ≤ fuel by omega) h.1
      have hr := ihr (show rhs.toJson.depth ≤ fuel by omega) h.2
      simp [ofJsonWith?, toJson, Operator.ofJson?, Operator.ofSymbol?_symbol, hl, hr]

theorem Expr.roundTrips : RoundTrips (ofJson? .inside) toJson atoms where
  read e h := ofJsonWith?_toJson e le_rfl h
  null := rfl

/-! ## Statements -/

theorem AttributeUse.roundTrips : RoundTrips ofJson? toJson atoms where
  read a h := by
    have hname := QualifiedName.roundTrips.read a.name h
    simp [ofJson?, toJson, hname]
  null := rfl

theorem Callee.roundTrips : RoundTrips ofJson? toJson atoms where
  read c h := by
    cases c with
    | unqualified name => simp [ofJson?, toJson]
    | qualified type name =>
      have htype := QualifiedName.roundTrips.read type h
      simp [ofJson?, toJson, htype]
  null := rfl

theorem Stmt.roundTrips : RoundTrips ofJson? toJson atoms where
  read stmt h := by
    cases stmt with
    | var name type value span =>
      rw [atoms, writable_append] at h
      have htype := TypeExpr.roundTrips.optional h.1
      have hvalue := Expr.roundTrips.optional h.2
      simp [ofJson?, toJson, htype, hvalue]
    | call callee args span =>
      rw [atoms, writable_append] at h
      have hcallee := Callee.roundTrips.read callee h.1
      have hargs := Expr.roundTrips.list.read args h.2
      simp [ofJson?, toJson, hcallee, hargs]
    | ret value span =>
      have hvalue := Expr.roundTrips.optional h
      simp [ofJson?, toJson, hvalue]
    | throw value span =>
      have hvalue := Expr.roundTrips.read value h
      simp [ofJson?, toJson, hvalue]
    | error span => simp [ofJson?, toJson]
  null := rfl

/-! ## Members -/

theorem Param.roundTrips : RoundTrips Param.ofJson? Param.toJson Param.atoms where
  read p h := by
    rw [atoms, writable_append] at h
    have htype := TypeExpr.roundTrips.read p.type h.1
    have hdefault := Expr.roundTrips.optional h.2
    simp [ofJson?, toJson, htype, hdefault]
  null := rfl

@[simp] theorem modifiers?_obj (members : List (String × Json)) : modifiers? (.obj members) =
    defaulted [] (list? (Modifier.ofJson? .inside)) ((obj members).field? "modifiers") := rfl

@[simp] theorem annotations?_obj (members : List (String × Json)) : annotations? (.obj members) =
    Json.defaulted [] (Json.list? AttributeUse.ofJson?) ((Json.obj members).field? "annotations") := rfl

@[simp] theorem Modifier.list?_ofList (ms : List Modifier) : list? (ofJson? .inside) (ofList toJson ms) = some ms :=
  roundTrips.list.read ms fun _ ha => by simp at ha

@[simp] theorem FnDecl.map_fst_entries (d : FnDecl) : d.entries.map Prod.fst =
    ["name", "params", "return_type", "body", "modifiers", "annotations", "span"] := by
  simp [entries]

theorem FnDecl.ofJson?_entries {d : FnDecl} (h : Writable d.atoms) (kind : Json) :
    FnDecl.ofJson? (.obj (("kind", kind) :: d.entries)) = some d := by
  simp only [atoms, writable_append] at h
  have hparams := Param.roundTrips.list.read d.params h.1.1.1
  have hreturn := roundTrips.optional h.1.1.2
  have hbody := Stmt.roundTrips.list.optional h.1.2
  have hannotations := roundTrips.list.read d.annotations h.2
  simp [ofJson?, entries, hparams, hreturn, hbody, hannotations]

@[simp] theorem FieldDecl.map_fst_entries (d : FieldDecl) : d.entries.map Prod.fst =
    ["name", "ty", "value", "modifiers", "annotations", "span"] := by
  simp [entries]

theorem FieldDecl.ofJson?_entries {d : FieldDecl} (h : Writable d.atoms) (kind : Json) :
    FieldDecl.ofJson? (.obj (("kind", kind) :: d.entries)) = some d := by
  simp only [atoms, writable_append] at h
  have htype := roundTrips.read d.type h.1.1
  have hvalue := Expr.roundTrips.optional h.1.2
  have hannotations := roundTrips.list.read d.annotations h.2
  simp [ofJson?, entries, htype, hvalue, hannotations]

theorem Accessor.roundTrips : RoundTrips ofJson? toJson fun _ => [] where
  read a _ := by simp [ofJson?, toJson]
  null := rfl

@[simp] theorem PropertyDecl.map_fst_entries (d : PropertyDecl) : d.entries.map Prod.fst =
    ["name", "ty", "getter", "setter", "modifiers", "annotations", "span"] := by
  simp [entries]

theorem PropertyDecl.ofJson?_entries {d : PropertyDecl} (h : Writable d.atoms) (kind : Json) :
    PropertyDecl.ofJson? (.obj (("kind", kind) :: d.entries)) = some d := by
  simp only [atoms, writable_append] at h
  have htype := roundTrips.read d.type h.1
  have haccessor (o : Option Accessor) : optional Accessor.ofJson? (some (ofOption Accessor.toJson o)) = some o :=
    Accessor.roundTrips.optional fun _ ha => by simp at ha
  have hannotations := roundTrips.list.read d.annotations h.2
  simp [ofJson?, entries, htype, haccessor, hannotations]

theorem Member.roundTrips : RoundTrips (ofJson? .inside) toJson atoms where
  read m h := by
    cases m with
    | field d => simp [ofJson?, toJson, FieldDecl.ofJson?_entries h]
    | method d => simp [ofJson?, toJson, FnDecl.ofJson?_entries h]
    | property d => simp [ofJson?, toJson, PropertyDecl.ofJson?_entries h]
    | error span => simp [ofJson?, toJson]
  null := rfl

/-! ## Declarations -/

@[simp] theorem TypeDecl.map_fst_entries (d : TypeDecl) : d.entries.map Prod.fst =
    ["type", "name", "bases", "members", "modifiers", "annotations", "span"] := by
  simp [entries]

theorem TypeDecl.ofJson?_entries {d : TypeDecl} (h : Writable d.atoms) (kind : Json) :
    TypeDecl.ofJson? (.obj (("kind", kind) :: d.entries)) = some d := by
  simp only [atoms, writable_append] at h
  have hkind : TypeKind.ofJson? .inside (.str d.kind.keyword) = some d.kind := TypeKind.ofKeyword?_keyword d.kind
  have hbases := roundTrips.list.read d.bases h.1.1
  have hmembers := Member.roundTrips.list.read d.members h.1.2
  have hannotations := roundTrips.list.read d.annotations h.2
  simp [ofJson?, entries, hkind, hbases, hmembers, hannotations]

theorem EnumMember.roundTrips : RoundTrips ofJson? toJson atoms where
  read m h := by
    rw [atoms, writable_append] at h
    have htype := TypeExpr.roundTrips.optional h.1
    have hvalue := Expr.roundTrips.optional h.2
    simp [ofJson?, toJson, htype, hvalue]
  null := rfl

@[simp] theorem EnumDecl.map_fst_entries (d : EnumDecl) : d.entries.map Prod.fst =
    ["name", "underlying", "members", "modifiers", "annotations", "span"] := by
  simp [entries]

theorem EnumDecl.ofJson?_entries {d : EnumDecl} (h : Writable d.atoms) (kind : Json) :
    EnumDecl.ofJson? (.obj (("kind", kind) :: d.entries)) = some d := by
  simp only [atoms, writable_append] at h
  have hunderlying := roundTrips.optional h.1.1
  have hmembers := EnumMember.roundTrips.list.read d.members h.1.2
  have hannotations := roundTrips.list.read d.annotations h.2
  simp [ofJson?, entries, hunderlying, hmembers, hannotations]

theorem VariantField.roundTrips : RoundTrips VariantField.ofJson? VariantField.toJson VariantField.atoms where
  read f h := by
    have htype := TypeExpr.roundTrips.read f.type h
    simp [ofJson?, toJson, htype]
  null := rfl

theorem Variant.roundTrips : RoundTrips ofJson? toJson atoms where
  read v h := by
    have hfields := VariantField.roundTrips.list.read v.fields h
    simp [ofJson?, toJson, hfields]
  null := rfl

@[simp] theorem TaggedUnionDecl.map_fst_entries (d : TaggedUnionDecl) : d.entries.map Prod.fst =
    ["name", "variants", "modifiers", "annotations", "span"] := by
  simp [entries]

theorem TaggedUnionDecl.ofJson?_entries {d : TaggedUnionDecl} (h : Writable d.atoms) (kind : Json) :
    TaggedUnionDecl.ofJson? (.obj (("kind", kind) :: d.entries)) = some d := by
  rw [atoms, writable_append] at h
  have hvariants := Variant.roundTrips.list.read d.variants h.1
  have hannotations := roundTrips.list.read d.annotations h.2
  simp [ofJson?, entries, hvariants, hannotations]

theorem UnionField.roundTrips : RoundTrips UnionField.ofJson? UnionField.toJson UnionField.atoms where
  read f h := by
    simp only [atoms, writable_append] at h
    have htype := TypeExpr.roundTrips.read f.type h.1.1
    have hoffset := Expr.roundTrips.optional h.1.2
    have hannotations := AttributeUse.roundTrips.list.read f.annotations h.2
    simp [ofJson?, toJson, htype, hoffset, hannotations]
  null := rfl

@[simp] theorem UnionDecl.map_fst_entries (d : UnionDecl) : d.entries.map Prod.fst =
    ["name", "fields", "modifiers", "annotations", "span"] := by
  simp [entries]

theorem UnionDecl.ofJson?_entries {d : UnionDecl} (h : Writable d.atoms) (kind : Json) :
    UnionDecl.ofJson? (.obj (("kind", kind) :: d.entries)) = some d := by
  rw [atoms, writable_append] at h
  have hfields := UnionField.roundTrips.list.read d.fields h.1
  have hannotations := roundTrips.list.read d.annotations h.2
  simp [ofJson?, entries, hfields, hannotations]

theorem Decl.roundTrips : RoundTrips ofJson? toJson atoms where
  read d h := by
    cases d with
    | type d => simp [ofJson?, toJson, kinds, ofKind?, TypeDecl.ofJson?_entries h]
    | enum d => simp [ofJson?, toJson, kinds, ofKind?, EnumDecl.ofJson?_entries h]
    | taggedUnion d => simp [ofJson?, toJson, kinds, ofKind?, TaggedUnionDecl.ofJson?_entries h]
    | union d => simp [ofJson?, toJson, kinds, ofKind?, UnionDecl.ofJson?_entries h]
    | fn d => simp [ofJson?, toJson, kinds, ofKind?, FnDecl.ofJson?_entries h]
    | error span => simp [ofJson?, toJson, kinds, ofKind?]
  null := rfl

theorem Tree.roundTrips : RoundTrips ofJson? toJson atoms where
  read t h := by
    rw [atoms, writable_cons] at h
    have hmodule := QualifiedName.roundTrips.read t.module (writable_cons.mpr ⟨h.1, fun _ ha => by cases ha⟩)
    have htext (o : Option String) : optional str? (some (ofOption .str o)) = some o :=
      roundTrips_str.optional fun _ ha => by simp at ha
    have hbody := Decl.roundTrips.list.read t.body h.2
    simp [ofJson?, toJson, memberKeys, hmodule, htext, hbody]
  null := rfl

end TreeCompiler
