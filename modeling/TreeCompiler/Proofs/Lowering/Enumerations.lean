import TreeCompiler.Proofs.Lowering.FilledTypes

/-!
# Enumerations

The members of an enumeration are counted: a member has its explicit value, or one more than the member before.
The count itself has no bounds; each value is wrapped to the type of its own member.
-/

namespace TreeCompiler

open Context Lowering List EnumMember TypeTable

/-! ## Values -/

/-- The kind of the integers of a type; any other type counts as one of 32 bits with a sign. -/
def TypeTable.kindOf (t : TypeTable) (type : Option TypeId) : IntKind :=
  ((t.primitiveOf? type).bind Primitive.intKind?).getD .i32

theorem TypeTable.Keeps.primitiveOf? {t t' : TypeTable} (h : t.Keeps t') {type : Option TypeId}
    (htype : t.Covers type) : t'.primitiveOf? type = t.primitiveOf? type := by
  cases type with
  | none => rfl
  | some id =>
    have hprimitive := congrArg TypeDef.primitive (h.head id (htype id rfl))
    exact hprimitive

namespace EnumMember
variable {members : List EnumMember} {m : EnumMember}

/-- The members from number `j` to number `i` have no explicit value. -/
def Implicit (members : List EnumMember) (j i : Nat) : Prop :=
  ∀ k m, j ≤ k → k ≤ i → members[k]? = some m → explicitValue? m = none

theorem Implicit.succ {j i : Nat} (h : Implicit members j i) (hm : members[i + 1]? = some m)
    (hnone : explicitValue? m = none) : Implicit members j (i + 1) := by
  intro k m' hj hk hm'
  rcases Nat.le_succ_iff.mp hk with hk | rfl
  · exact h k m' hj hk hm'
  · cases hm.symm.trans hm'
    exact hnone

/-- The member number `i` counts to a value: from the last explicit value up to it, or from -1, which is at
number -1. -/
inductive Counts (members : List EnumMember) (i : Nat) : Int → Prop where
  | explicit {j : Nat} {m : EnumMember} {c : Int} : j ≤ i → members[j]? = some m → explicitValue? m = some c →
      Implicit members (j + 1) i → Counts members i (c + (i - j))
  | implicit : Implicit members 0 i → Counts members i (-1 + (i - -1))

/-- The value of a member, given that of the member before. -/
def next (previous : Int) (m : EnumMember) : Int :=
  (explicitValue? m).getD (previous + 1)

theorem counts_of_explicit {i : Nat} {c : Int} (hm : members[i]? = some m) (hc : explicitValue? m = some c) :
    Counts members i c := by
  have hcounts := Counts.explicit (Nat.le_refl i) hm hc fun k _ hlt hle => absurd hle (Nat.not_le.mpr hlt)
  rwa [Int.sub_self, Int.add_zero] at hcounts

theorem Counts.succ {i : Nat} {v : Int} (h : Counts members i v) (hm : members[i + 1]? = some m) :
    Counts members (i + 1) (next v m) := by
  unfold next
  cases hexplicit : explicitValue? m with
  | some c => exact counts_of_explicit hm hexplicit
  | none =>
    have hmore : ∀ a b : Int, a + (((i + 1 : Nat) : Int) - b) = a + (i - b) + 1 := fun a b => by omega
    rw [Option.getD_none]
    cases h with
    | explicit hj hm' hc himplicit =>
      have hcounts := explicit (Nat.le_succ_of_le hj) hm' hc (himplicit.succ hm hexplicit)
      rwa [hmore] at hcounts
    | implicit himplicit =>
      have hcounts := implicit (himplicit.succ hm hexplicit)
      rwa [hmore] at hcounts

theorem counts_foldl (members : List EnumMember) {i : Nat} (hm : members[i]? = some m) :
    Counts members i ((members.take (i + 1)).foldl next (-1)) := by
  induction i generalizing m with
  | zero =>
    obtain ⟨rest, rfl⟩ : ∃ rest, members = m :: rest := by
      cases members with
      | nil => cases hm
      | cons first rest => exact ⟨rest, by cases hm; rfl⟩
    change Counts _ 0 (next (-1) m)
    unfold next
    cases hexplicit : explicitValue? m with
    | some c => exact counts_of_explicit hm hexplicit
    | none =>
      refine .implicit fun k m' _ hk hm' => ?_
      cases Nat.le_zero.mp hk
      cases hm.symm.trans hm'
      exact hexplicit
  | succ i ih =>
    obtain ⟨hlt, -⟩ := List.getElem?_eq_some_iff.mp hm
    have hbefore := ih (getElem?_eq_getElem (Nat.lt_of_succ_lt hlt))
    rw [take_add_one, hm, foldl_append]
    exact hbefore.succ hm

/-- The field of a member that has the value `w` of a kind. -/
def field (m : EnumMember) (type : TypeId) (k : IntKind) (w : Int) : Field :=
  { name := m.name, type := some type, isStatic := true, isLiteral := true, value := some (.int k w), span := m.span }

/-- The error in the value of a member: there is one that is not an integer. -/
def malformed? (m : EnumMember) : Option Diagnostic :=
  match m.value, explicitValue? m with
  | some e, none => some (.error .malformedExpression e.span s!"Enum member '{m.name}' needs an integer value"
      "expected an integer literal")
  | _, _ => none

end EnumMember

/-! ## One member -/

namespace Context
variable {c c' : Context}

def malformed (c : Context) : List Diagnostic :=
  c.diagnostics.filter (·.code == some .malformedExpression)

theorem Seeks.malformed (h : c.Seeks c') : c'.malformed = c.malformed := by
  obtain ⟨ds, heq, hcodes⟩ := h
  have hnone : ds.filter (·.code == some .malformedExpression) = [] := by
    refine filter_eq_nil_iff.mpr fun d hd => ?_
    rw [hcodes d hd]
    decide
  rw [Context.malformed, heq, List.filter_append, hnone, List.append_nil]
  rfl

theorem malformed_attributes (c : Context) (module : QualifiedName) (annotations : List AttributeUse)
    (target : AttributeTargets) : (c.attributes module annotations target).2.malformed = c.malformed := by
  unfold attributes
  dsimp only
  induction annotations generalizing c with
  | nil => rfl
  | cons a annotations ih =>
    refine (ih (a.attribute? module target c).2).trans ?_
    have hseeks := (c.resolves_resolveType module a.attributeName a.span).seeks.malformed
    rcases (attribute?_cases module target c a).1 with heq | ⟨message, label, heq⟩ <;> rw [heq]
    · exact hseeks
    · exact (filter_push _ fun hcode => by cases hcode).trans hseeks

/-- What an annotation gives, or the default where there is none. -/
def annotated (module : QualifiedName) (c : Context) (default : Option TypeId) :
    Option TypeExpr → Option TypeId × Context
  | some type => resolveTypeExpr module c type
  | none => (default, c)

/-- The state once the error in the value of a member has been recorded. -/
def noted (c : Context) (m : EnumMember) : Context :=
  (m.malformed?.map c.push).getD c

end Context

namespace Lowering
variable {module : QualifiedName} {id : TypeId} {c : Context} {default : Option TypeId}

theorem addEnumMember_eq (module : QualifiedName) (id : TypeId) (p : Int) (c : Context) (default : Option TypeId)
    (m : EnumMember) : addEnumMember module id (c.types.primitiveOf? default) (p, c) m =
      let r := annotated module (c.noted m) default m.type
      (m.next p, r.2.withTypes (r.2.types.addField id (m.field id (r.2.types.kindOf r.1)
        ((r.2.types.kindOf r.1).wrap (m.next p)))).2) := by
  unfold addEnumMember noted malformed? EnumMember.next
  obtain ⟨name, type, value, span⟩ := m
  cases value with
  | none => cases type <;> rfl
  | some e =>
    dsimp only
    cases explicitValue? ⟨name, type, some e, span⟩ <;> cases type <;> rfl

theorem instantiates_noted (c : Context) (m : EnumMember) : c.Instantiates (c.noted m) ∧
    (c.noted m).malformed = c.malformed ++ m.malformed?.toList := by
  unfold noted malformed?
  split
  · exact ⟨.report c (by decide) _ _ _, filter_append _ _⟩
  · exact ⟨.refl c, (append_nil _).symm⟩

theorem resolves_annotated (module : QualifiedName) (hdefault : c.types.Covers default) (written : Option TypeExpr) :
    c.ResolvesOr default (annotated module c default written) := by
  cases written with
  | none => exact .absent hdefault
  | some type => exact (resolves_resolveTypeExpr module c type).orDefault

end Lowering

namespace Compilation
variable {trees : List Tree} {options : Options} {module : QualifiedName} {id : TypeId} {c : Context}
  {default : Option TypeId}

theorem annotates_annotated (hc : Filling trees options c) (module : QualifiedName) (default : Option TypeId)
    (written : Option TypeExpr) :
    Annotates trees options module default written (annotated module c default written).1 := by
  cases written with
  | none => exact rfl
  | some type => exact ⟨c, hc, rfl⟩

/-- Members get their fields one after the other, and what is wrong with their values is recorded. -/
theorem fields_addEnumMembers (hc : Filling trees options c) (hlt : id.index < c.types.size)
    (hdefault : c.types.Covers default) {underlying : Option Primitive}
    (hunderlying : c.types.primitiveOf? default = underlying) (p : Int) (ms : List EnumMember) {t : TypeTable}
    (ht : (ms.foldl (addEnumMember module id underlying) (p, c)).2.types.Keeps t) :
    ∃ fs, ((ms.foldl (addEnumMember module id underlying) (p, c)).2.types.get id).fields =
        (c.types.get id).fields ++ fs ∧ fs.length = ms.length ∧
      (∀ i m, ms[i]? = some m → ∃ type w, Annotates trees options module default m.type type ∧
        (t.kindOf type).Wraps ((ms.take (i + 1)).foldl next p) w ∧
        fs[i]? = some (m.field id (t.kindOf type) w)) ∧
      (ms.foldl (addEnumMember module id underlying) (p, c)).2.malformed =
        c.malformed ++ ms.filterMap malformed? := by
  induction ms generalizing p c with
  | nil => exact ⟨[], (append_nil _).symm, rfl, fun i m hm => (by cases hm), (append_nil _).symm⟩
  | cons m ms ih =>
    obtain ⟨hnoted, hreport⟩ := instantiates_noted c m
    obtain ⟨htype, hcovers, -, hseeks⟩ := resolves_annotated module (hdefault.mono hnoted.size) m.type
    have hgives := annotates_annotated (hc.trans hnoted.fills) module default m.type
    have hmember := addEnumMember_eq module id p c default m
    have hinit := hnoted.trans htype
    rw [hunderlying] at hmember
    generalize annotated module (c.noted m) default m.type = r at *
    dsimp only at hmember
    have hadded := r.2.types.keeps_addField id
      (m.field id (r.2.types.kindOf r.1) ((r.2.types.kindOf r.1).wrap (m.next p)))
    have hfills := (edits_addEnumMember (π := .filling) module trivial underlying (s := (p, c)) hlt m).fills
    rw [foldl_cons, hmember] at ht ⊢
    rw [hmember] at hfills
    have hrest := edits_addEnumMembers (π := .filling) module trivial underlying
      (s := (m.next p, _)) (hlt.trans_le hfills.keeps.size) ms
    obtain ⟨fs, hfields, hlength, hmembers, hmalformed⟩ := ih (hc.trans hfills)
      (hlt.trans_le hfills.keeps.size) (hdefault.mono hfills.keeps.size)
      ((hfills.keeps.primitiveOf? hdefault).trans hunderlying) (m.next p) ht
    have hkind : t.kindOf r.1 = r.2.types.kindOf r.1 := by
      rw [kindOf, ((hadded.trans hrest.keeps).trans ht).primitiveOf? hcovers]
      rfl
    refine ⟨m.field id (t.kindOf r.1) ((t.kindOf r.1).wrap (m.next p)) :: fs, ?_, congrArg (· + 1) hlength,
      fun i m' hm' => ?_, ?_⟩
    · have hself := get_modify_self r.2.types id (fun d => { d with fields := d.fields ++
        [m.field id (r.2.types.kindOf r.1) ((r.2.types.kindOf r.1).wrap (m.next p))] }) (hlt.trans_le hinit.size)
      rw [hinit.extends.get_eq hlt] at hself
      rw [hfields, hkind, append_cons]
      exact congrArg (fun d => TypeDef.fields d ++ fs) hself
    · cases i with
      | zero =>
        cases hm'
        exact ⟨r.1, _, hgives, IntKind.wraps_wrap _ _, rfl⟩
      | succ i => exact hmembers i m' hm'
    · rw [hmalformed, filterMap_cons]
      change r.2.malformed ++ _ = _
      rw [hseeks.malformed, hreport, append_assoc]
      cases m.malformed? <;> rfl

theorem fields_fillEnumOver (hc : Filling trees options c) (hlt : id.index < c.types.size) (d : EnumDecl)
    {underlying : Option TypeId} (hunderlying : c.types.Covers underlying) {t : TypeTable}
    (ht : (fillEnumOver c module id d underlying).types.Keeps t) :
    ∃ fs attributes, ((fillEnumOver c module id d underlying).types.get id).fields =
        (c.types.get id).fields ++ fs ++ [{ name := "value__", type := underlying, visibility := .privateAccess
                                            isMutable := true, attributes, span := d.span }] ∧
      fs.length = d.members.length ∧
      (∀ i m, d.members[i]? = some m → ∃ type w, Annotates trees options module underlying m.type type ∧
        (t.kindOf type).Wraps ((d.members.take (i + 1)).foldl next (-1)) w ∧
        fs[i]? = some (m.field id (t.kindOf type) w)) ∧
      (fillEnumOver c module id d underlying).malformed = c.malformed ++ d.members.filterMap malformed? := by
  obtain ⟨hattributes, hhas⟩ := c.instantiates_attributes module d.annotations .enums
  have hsilent := c.malformed_attributes module d.annotations .enums
  have hargs := c.args_attributes module d.annotations .enums
  unfold fillEnumOver at ht ⊢
  dsimp only at ht ⊢
  generalize c.attributes module d.annotations .enums = r at *
  obtain ⟨attributes, c₁⟩ := r
  dsimp only at *
  have hlt₁ := hlt.trans_le hattributes.size
  have howns : Grant.Owns .filling c₁.types id { valueTypeDef module d.name with span := d.span } :=
    ⟨trivial, trivial, hlt₁, nofun⟩
  have hdescribe := edits_describe howns rfl (fun b hb => isRoot_of_mem_toList "Enum" (by decide) hb)
    (Or.inl rfl) hhas (hargs ▸ Constant.allFit_nil) d.modifiers
  have hsame : ((describe c₁ id (c₁.types.system? "Enum").toList attributes d.modifiers).types.get
      id).fields = (c.types.get id).fields := by
    rw [← hattributes.extends.get_eq hlt]
    exact (congrArg TypeDef.fields (c₁.types.get_modify_self id _ hlt₁)).trans rfl
  have hquiet : (describe c₁ id (c₁.types.system? "Enum").toList attributes d.modifiers).malformed =
    c.malformed := hsilent
  generalize describe c₁ id (c₁.types.system? "Enum").toList attributes d.modifiers = c₂ at *
  have hbefore : c.Fills .filling c₂ := hattributes.fills.trans hdescribe.fills
  have hlt₂ := hlt.trans_le hbefore.keeps.size
  have hmembers := edits_addEnumMembers (π := .filling) module trivial
    (c₂.types.primitiveOf? underlying) (s := (-1, c₂)) hlt₂ d.members
  obtain ⟨fs, hfields, hlength, hall, hmalformed⟩ := fields_addEnumMembers (hc.trans hbefore) hlt₂
    (hunderlying.mono hbefore.keeps.size) rfl (-1) d.members ((keeps_addField _ id _).trans ht)
  refine ⟨fs, (d.members.foldl (addEnumMember module id (c₂.types.primitiveOf? underlying))
    (-1, c₂)).2.specialName?.toList, ?_, hlength, hall, hmalformed.trans (congrArg (· ++ _) hquiet)⟩
  rw [← hsame, ← hfields]
  exact congrArg TypeDef.fields (get_modify_self _ id _ (hlt₂.trans_le hmembers.keeps.size))

/-- The fields of an enumeration that was registered are those of its members, in order, and one for the value.
Each member has the value that it counts to, wrapped to the type of the member, and each value that is not an
integer has been reported once. -/
theorem enum_members_count {before after : List (Declaration × Declared)} {d : EnumDecl}
    (h : registrations trees options = before ++ (⟨module, .enum d⟩, .type id) :: after) {l : Lowering}
    (hl : Lowering.fillAll { context := allRegistered trees options } before = l) :
    let t := (lowered trees options).assembly.types
    ∃ underlying fs attributes ds,
      Annotates trees options module (t.primitive? (.int .i32)) d.underlying underlying ∧
      (t.get id).fields = fs ++ [{ name := "value__", type := underlying, visibility := .privateAccess
                                   isMutable := true, attributes, span := d.span }] ∧
      fs.length = d.members.length ∧
      (∀ i m, d.members[i]? = some m → ∃ type v w, Annotates trees options module underlying m.type type ∧
        EnumMember.Counts d.members i v ∧ (t.kindOf type).Wraps v w ∧
        fs[i]? = some (m.field id (t.kindOf type) w)) ∧
      (fillEnum l.context module id d).diagnostics = l.context.diagnostics ++ ds ∧
      l.context.diagnostics ++ ds <+: (lowered trees options).diagnostics ∧
      ds.filter (·.code == some .malformedExpression) = d.members.filterMap EnumMember.malformed? := by
  obtain ⟨hfilling, hfashions, hkeeps, hprefix⟩ := filled_of_registrations h hl
  have hfashions : Fashions trees options l.context (fillEnum l.context module id d) id
    { valueTypeDef module d.name with span := d.span } := hfashions
  have hkeeps : (fillEnum l.context module id d).types.Keeps (lowered trees options).assembly.types := hkeeps
  have hprefix : (fillEnum l.context module id d).diagnostics <+: (lowered trees options).diagnostics := hprefix
  have hdefault := l.context.types.covers_primitive? (.int .i32)
  have hannotated : Lowering.enumUnderlying module l.context d.underlying =
      Context.annotated module l.context (l.context.types.primitive? (.int .i32)) d.underlying := by
    cases d.underlying <;> rfl
  obtain ⟨hunderlying, hcovers, -, hseeks⟩ := Lowering.resolves_annotated module hdefault d.underlying
  have hgives := annotates_annotated hfilling module (l.context.types.primitive? (.int .i32)) d.underlying
  have hfills := (Lowering.edits_fillEnum (π := .filling) module nofun d
    ⟨trivial, trivial, hfashions.lt_size, nofun⟩).fills
  obtain ⟨ds, hds⟩ := hfills.diagnostics
  have heq := Lowering.fillEnum_eq module l.context id d
  have hsame := hunderlying.extends.get_eq hfashions.lt_size
  have hrun := (run_allRegistered trees options).trans (run_filling trees options h).1
  rw [hl] at hrun
  obtain ⟨int, hint⟩ := Option.isSome_iff_exists.mp
    ((sound_of_run trees options hrun).grounded.primitives (.int .i32))
  have hint : (lowered trees options).assembly.types.primitive? (.int .i32) =
    l.context.types.primitive? (.int .i32) := ((hfills.keeps.trans hkeeps).lookup hint).trans hint.symm
  rw [hannotated] at heq
  rw [heq] at hkeeps
  generalize Context.annotated module l.context (l.context.types.primitive? (.int .i32)) d.underlying = r at *
  obtain ⟨fs, attributes, hfields, hlength, hall, hmalformed⟩ := fields_fillEnumOver
    (hfilling.trans hunderlying.fills) (hfashions.lt_size.trans_le hunderlying.size) d hcovers hkeeps
  refine ⟨r.1, fs, attributes, ds, hint ▸ hgives, ?_, hlength, fun i m hm => ?_, hds.symm, hds ▸ hprefix, ?_⟩
  · have hnone : (l.context.types.get id).fields = [] := congrArg TypeDef.fields hfashions.start
    rw [hsame, hnone, ← heq] at hfields
    exact (congrArg TypeDef.fields hfashions.shell).trans hfields
  · obtain ⟨type, w, htype, hwraps, hfield⟩ := hall i m hm
    exact ⟨type, _, w, htype, EnumMember.counts_foldl d.members hm, hwraps, hfield⟩
  · rw [← heq, Context.malformed, ← hds, List.filter_append, hseeks.malformed] at hmalformed
    exact List.append_cancel_left hmalformed

/-- An enumeration in which the count goes past the type of a member, and a value is no integer. -/
def levels : EnumDecl :=
  { name := "Level"
    members := [{ name := "Low", value := some (.literal (.int ⟨.i32, 254, rfl⟩) {}) },
      { name := "Mid", type := some (.named ⟨["u8"]⟩ {}) }, { name := "High", type := some (.named ⟨["u8"]⟩ {}) },
      { name := "Top", value := some (.ident "x" {}) }] }

def levelTree : Tree :=
  { module := ⟨["Demo"]⟩, body := [.enum levels] }

theorem enum_members_count_levelTree : ∃ fs attributes,
    ((lowered [levelTree] {}).assembly.types.get ⟨39⟩).fields = fs ++
      [{ name := "value__", type := (lowered [levelTree] {}).assembly.types.primitive? (.int .i32)
         visibility := .privateAccess, isMutable := true, attributes }] ∧
    fs.map Field.value = [some (.int .i32 254), some (.int .u8 255), some (.int .u8 0), some (.int .i32 257)] ∧
    (lowered [levelTree] {}).diagnostics.map Diagnostic.code = [some .malformedExpression] := by
  have hdeclared : ((start [levelTree] {}).context.declareAll (Tree.declarations [levelTree])).1 =
      [.type ⟨39⟩] := by
    decide +kernel
  have hregistered : registrations [levelTree] {} = [] ++ (⟨⟨["Demo"]⟩, .enum levels⟩, .type ⟨39⟩) :: [] := by
    rw [registrations, hdeclared]
    rfl
  obtain ⟨underlying, fs, attributes, -, hunderlying, hfields, -⟩ := enum_members_count hregistered rfl
  have hunderlying : underlying = _ := hunderlying
  rw [hunderlying] at hfields
  have hvalues : ((lowered [levelTree] {}).assembly.types.get ⟨39⟩).fields.map Field.value =
      [some (.int .i32 254), some (.int .u8 255), some (.int .u8 0), some (.int .i32 257)] ++ [none] := by
    decide +kernel
  rw [hfields, List.map_append] at hvalues
  exact ⟨fs, attributes, hfields, List.append_inj_left' hvalues rfl, by decide +kernel⟩

end Compilation

end TreeCompiler
