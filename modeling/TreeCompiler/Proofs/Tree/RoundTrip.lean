import TreeCompiler.Proofs.Tree.Writing

/-!
# Trees through JSON

A tree that is written as JSON and read again is the same tree. Names are the only part that reading restricts:
they come without empty segments and without dots in them, so that all names that are read can be written.
-/

namespace TreeCompiler

open Json List QualifiedName Option

variable {n : QualifiedName}

/-! ## Names that are read -/

/-- All names among the atoms are made of segments. -/
def Named (as : List Atom) : Prop :=
  ∀ n, Atom.name n ∈ as → n.Segmented

@[grind ←] theorem named_nil : Named [] :=
  fun _ hn => by cases hn

@[grind ←] theorem Named.append {as bs : List Atom} (ha : Named as) (hb : Named bs) : Named (as ++ bs) := fun n hn =>
  (mem_append.mp hn).elim (ha n) (hb n)

@[grind ←] theorem named_name (h : n.Segmented) : Named [.name n] := by
  intro m hm
  cases mem_singleton.mp hm
  exact h

theorem named_flatMap {α : Type} {atoms : α → List Atom} {xs : List α} (h : ∀ x ∈ xs, Named (atoms x)) :
    Named (xs.flatMap atoms) := by
  intro n hn
  obtain ⟨x, hx, hn⟩ := mem_flatMap.mp hn
  exact h x hx n hn

@[grind ←] theorem Expr.named_atoms (e : Expr) : Named e.atoms := by
  induction e with
  | literal value span => exact fun n hn => by cases mem_singleton.mp hn
  | binary op lhs rhs span ihl ihr => exact ihl.append ihr
  | _ => exact named_nil

/-- Whatever is decoded has such names. -/
structure ReadsNamed {α : Type} (decode : Json → Option α) (atoms : α → List Atom) : Prop where
  named : ∀ {j a}, decode j = some a → Named (atoms a)

namespace ReadsNamed
variable {α : Type} {decode : Json → Option α} {atoms : α → List Atom} {j : Option Json}
  (h : ReadsNamed decode atoms)
include h

theorem mapM {items : List Json} {xs : List α} (hxs : items.mapM decode = some xs) : Named (xs.flatMap atoms) := by
  induction items generalizing xs with
  | nil =>
    cases hxs
    exact named_nil
  | cons j items ih =>
    rw [mapM_cons] at hxs
    obtain ⟨x, hx, hrest⟩ := bind_eq_some_iff.mp hxs
    obtain ⟨rest, hitems, heq⟩ := bind_eq_some_iff.mp hrest
    cases heq
    exact (h.named hx).append (ih hitems)

theorem list : ReadsNamed (list? decode) (·.flatMap atoms) where
  named {j xs} hxs := by
    cases j with
    | arr items => exact h.mapM hxs
    | _ => cases hxs

theorem optional {o : Option α} (ho : optional decode j = some o) : Named (o.toList.flatMap atoms) := by
  unfold Json.optional at ho
  split at ho
  · cases ho
    exact named_nil
  · cases ho
    exact named_nil
  · obtain ⟨a, ha, rfl⟩ := map_eq_some_iff.mp ho
    exact (h.named ha).append named_nil

theorem defaulted {default a : α} (hdefault : Named (atoms default))
    (ha : defaulted default decode j = some a) : Named (atoms a) := by
  cases j with
  | none =>
    cases ha
    exact hdefault
  | some j => exact h.named ha

theorem defaultedList {xs : List α} (hxs : Json.defaulted [] (list? decode) j = some xs) : Named (xs.flatMap atoms) :=
  h.list.defaulted (show Named ([].flatMap atoms) from named_nil) hxs

end ReadsNamed

@[grind →] theorem QualifiedName.segmented_of_ofJson? {j : Json} (h : ofJson? j = some n) : n.Segmented := by
  obtain ⟨s, -, rfl⟩ := map_eq_some_iff.mp h
  exact segmented_ofText s

theorem TypeExpr.paramsAtoms_eq (ts : List TypeExpr) : paramsAtoms ts = ts.flatMap atoms := by
  induction ts with
  | nil => rfl
  | cons t ts ih => rw [paramsAtoms, ih, flatMap_cons]

theorem TypeExpr.resultAtoms_eq (r : Option TypeExpr) : resultAtoms r = r.toList.flatMap atoms := by
  cases r with
  | none => rfl
  | some t => exact (append_nil _).symm

theorem TypeExpr.readsNamed_ofJsonWith? (fuel : Nat) : ReadsNamed (ofJsonWith? fuel) atoms := by
  induction fuel with
  | zero => exact ⟨fun h => by cases h⟩
  | succ fuel ih =>
    refine ⟨fun {j t} h => ?_⟩
    simp only [ofJsonWith?, bind_eq_bind, bind_eq_some_iff, Prod.exists] at h
    obtain ⟨kind, j', -, h⟩ := h
    split at h
    · simp only [bind_eq_some_iff] at h
      obtain ⟨_, -, _, -, name, hname, span, -, heq⟩ := h
      cases heq
      exact named_name (segmented_of_ofJson? hname)
    · simp only [bind_eq_some_iff] at h
      obtain ⟨_, -, _, -, params, hparams, result, hresult, span, -, heq⟩ := h
      cases heq
      rw [atoms, paramsAtoms_eq, resultAtoms_eq]
      exact (ih.list.named hparams).append (ih.optional hresult)

theorem TypeExpr.readsNamed : ReadsNamed ofJson? atoms :=
  ⟨(readsNamed_ofJsonWith? _).named⟩

theorem AttributeUse.readsNamed : ReadsNamed ofJson? atoms where
  named h := by
    simp only [ofJson?, bind_eq_bind, bind_eq_some_iff] at h
    grind [atoms]

theorem Callee.readsNamed : ReadsNamed ofJson? atoms where
  named h := by
    simp only [ofJson?, bind_eq_bind, bind_eq_some_iff, Prod.exists] at h
    obtain ⟨kind, j', -, h⟩ := h
    split at h <;> simp only [bind_eq_some_iff] at h <;> grind [atoms]

@[grind ←] theorem Expr.named_flatMap (es : List Expr) : Named (es.flatMap atoms) :=
  TreeCompiler.named_flatMap fun e _ => e.named_atoms

theorem Stmt.readsNamed : ReadsNamed ofJson? atoms where
  named h := by
    simp only [ofJson?, bind_eq_bind, bind_eq_some_iff, Prod.exists] at h
    obtain ⟨kind, j', -, h⟩ := h
    split at h <;> simp only [bind_eq_some_iff] at h <;>
      grind [atoms, TypeExpr.readsNamed.optional, Callee.readsNamed.named]

theorem Param.readsNamed : ReadsNamed ofJson? atoms where
  named h := by
    simp only [ofJson?, bind_eq_bind, bind_eq_some_iff] at h
    grind [atoms, TypeExpr.readsNamed.named]

theorem readsNamed_annotations? : ReadsNamed annotations? (·.flatMap AttributeUse.atoms) :=
  ⟨AttributeUse.readsNamed.defaultedList⟩

theorem FnDecl.readsNamed : ReadsNamed ofJson? atoms where
  named h := by
    simp only [ofJson?, bind_eq_bind, bind_eq_some_iff] at h
    grind [FnDecl.atoms, Param.readsNamed.defaultedList, TypeExpr.readsNamed.optional,
      Stmt.readsNamed.list.optional, readsNamed_annotations?.named]

theorem FieldDecl.readsNamed : ReadsNamed ofJson? atoms where
  named h := by
    simp only [ofJson?, bind_eq_bind, bind_eq_some_iff] at h
    grind [atoms, TypeExpr.readsNamed.named, readsNamed_annotations?.named]

theorem PropertyDecl.readsNamed : ReadsNamed ofJson? atoms where
  named h := by
    simp only [ofJson?, bind_eq_bind, bind_eq_some_iff] at h
    grind [atoms, TypeExpr.readsNamed.named, readsNamed_annotations?.named]

theorem Member.readsNamed : ReadsNamed (ofJson? .inside) atoms where
  named h := by
    simp only [ofJson?, bind_eq_bind, bind_eq_some_iff, Prod.exists] at h
    obtain ⟨kind, j', -, h⟩ := h
    split at h <;> simp only [bind_eq_some_iff] at h <;>
      grind [atoms, FieldDecl.readsNamed.named, FnDecl.readsNamed.named, PropertyDecl.readsNamed.named]

theorem TypeDecl.readsNamed : ReadsNamed ofJson? atoms where
  named h := by
    simp only [ofJson?, bind_eq_bind, bind_eq_some_iff] at h
    grind [TypeDecl.atoms, TypeExpr.readsNamed.defaultedList, Member.readsNamed.defaultedList,
      readsNamed_annotations?.named]

theorem EnumMember.readsNamed : ReadsNamed ofJson? atoms where
  named h := by
    simp only [ofJson?, bind_eq_bind, bind_eq_some_iff] at h
    grind [atoms, TypeExpr.readsNamed.optional]

theorem EnumDecl.readsNamed : ReadsNamed ofJson? atoms where
  named h := by
    simp only [ofJson?, bind_eq_bind, bind_eq_some_iff] at h
    grind [atoms, TypeExpr.readsNamed.optional, EnumMember.readsNamed.list.named, readsNamed_annotations?.named]

theorem VariantField.readsNamed : ReadsNamed ofJson? atoms where
  named h := by
    simp only [ofJson?, bind_eq_bind, bind_eq_some_iff] at h
    grind [atoms, TypeExpr.readsNamed.named]

theorem Variant.readsNamed : ReadsNamed ofJson? atoms where
  named h := by
    simp only [ofJson?, bind_eq_bind, bind_eq_some_iff] at h
    grind [Variant.atoms, VariantField.readsNamed.defaultedList]

theorem TaggedUnionDecl.readsNamed : ReadsNamed ofJson? atoms where
  named h := by
    simp only [ofJson?, bind_eq_bind, bind_eq_some_iff] at h
    grind [atoms, Variant.readsNamed.list.named, readsNamed_annotations?.named]

theorem UnionField.readsNamed : ReadsNamed ofJson? atoms where
  named h := by
    simp only [ofJson?, bind_eq_bind, bind_eq_some_iff] at h
    grind [atoms, TypeExpr.readsNamed.named, readsNamed_annotations?.named]

theorem UnionDecl.readsNamed : ReadsNamed ofJson? atoms where
  named h := by
    simp only [ofJson?, bind_eq_bind, bind_eq_some_iff] at h
    grind [atoms, UnionField.readsNamed.list.named, readsNamed_annotations?.named]

theorem Decl.readsNamed : ReadsNamed ofJson? atoms where
  named h := by
    simp only [ofJson?, ofKind?, bind_eq_bind, bind_eq_some_iff, Prod.exists] at h
    obtain ⟨kind, j', -, h⟩ := h
    split at h <;> try simp only [bind_eq_some_iff] at h
    all_goals grind [atoms, TypeDecl.readsNamed.named, EnumDecl.readsNamed.named,
      TaggedUnionDecl.readsNamed.named, UnionDecl.readsNamed.named, FnDecl.readsNamed.named]

theorem Tree.readsNamed : ReadsNamed ofJson? atoms where
  named {j t} h := by
    simp only [ofJson?, bind_eq_bind, bind_eq_some_iff] at h
    obtain ⟨_, -, module, hmodule, file, -, source, -, _, -, body, hbody, heq⟩ := h
    cases heq
    have hname : ReadsNamed QualifiedName.ofJson? fun n => [.name n] :=
      ⟨fun hn => named_name (segmented_of_ofJson? hn)⟩
    have hglobal : global.Segmented := fun _ hs => by cases hs
    exact (hname.defaulted (named_name hglobal) hmodule).append (Decl.readsNamed.list.named hbody)

/-! ## Values as the program reads them -/

namespace Tree
variable {α : Type} {members : List (String × Json)} {m : String × Json} {d : Decl} {ds : List Decl}
  {t : Tree} {j : Json} {p : Draft}

theorem forM_eq_ok {f : α → Except Json.Fault Unit} {as : List α} (h : ∀ a ∈ as, f a = .ok ()) :
    as.forM f = .ok () := by
  induction as with
  | nil => rfl
  | cons a as ih =>
    rw [List.forM, h a List.mem_cons_self]
    exact ih fun b hb => h b (mem_cons_of_mem a hb)

theorem depth_le_membersDepth (hm : m ∈ members) : m.2.depth ≤ membersDepth members := by
  induction members with
  | nil => cases hm
  | cons m' members ih =>
    rw [membersDepth]
    rcases mem_cons.mp hm with rfl | hm
    · obtain ⟨key, j⟩ := m
      rw [memberDepth]
      exact Nat.le_max_left j.depth _
    · exact (ih hm).trans (Nat.le_max_right _ _)

theorem exists_decl_toJson (d : Decl) : ∃ kind members, d.toJson = .obj (("kind", .str kind) :: members) ∧
    kind ∈ Decl.kinds ∧ "kind" ∉ members.map Prod.fst := by
  cases d <;> exact ⟨_, _, rfl, by simp [Decl.kinds], by simp⟩

theorem declOfValue_toJson (h : Writable d.atoms) (hdepth : d.toJson.depth ≤ nestingLimit - 2) :
    declOfValue d.toJson = .ok d := by
  have hread := Decl.roundTrips.read d h
  obtain ⟨kind, members, heq, hkind, hkeys⟩ := exists_decl_toJson d
  rw [heq] at hread hdepth ⊢
  rw [depth, membersDepth] at hdepth
  have hcheck : ∀ m ∈ ("kind", str kind) :: members,
      (if m.1 = "kind" then checkDeclKind m.2 else checkDeclField m.2) = .ok () := by
    intro m hm
    rcases mem_cons.mp hm with rfl | hm
    · rw [if_pos rfl, checkDeclKind]
      simpa using hkind
    · have hne : m.1 ≠ "kind" := fun hkey => hkeys (hkey ▸ mem_map_of_mem hm)
      have hfield : ¬ nestingLimit - 3 < m.2.depth := by
        have := depth_le_membersDepth hm
        omega
      rw [if_neg hne, checkDeclField, if_neg hfield]
  unfold declOfValue
  dsimp only
  rw [forM_eq_ok hcheck, hread]
  rfl

theorem mapM_declOfValue (h : Writable (ds.flatMap Decl.atoms))
    (hdepth : itemsDepth (ds.map Decl.toJson) ≤ nestingLimit - 2) :
    (ds.map Decl.toJson).mapM declOfValue = .ok ds := by
  induction ds with
  | nil => rfl
  | cons d ds ih =>
    rw [flatMap_cons, writable_append] at h
    rw [map_cons, itemsDepth] at hdepth
    rw [map_cons, mapM_cons, declOfValue_toJson h.1 (by omega), ih h.2 (by omega)]
    rfl

/-- The program reads what was written, as deep as it reads at all. -/
theorem ofValue_toJson (h : Writable t.atoms) (hdepth : t.toJson.depth ≤ nestingLimit) :
    ofValue t.toJson = .ok t := by
  rw [atoms, writable_cons] at h
  simp only [toJson, ofList, depth, membersDepth, memberDepth] at hdepth
  have hmodule := QualifiedName.roundTrips.read t.module (writable_cons.mpr ⟨h.1, fun _ ha => by cases ha⟩)
  have htext (o : Option String) : optional str? (some (ofOption .str o)) = some o :=
    roundTrips_str.optional fun _ ha => by simp at ha
  have hbody := mapM_declOfValue h.2 (by omega)
  simp [ofValue, toJson, memberOfValue, wanted, hmodule, htext, hbody, ofList, Draft.finish]
  rfl

theorem exists_of_bind_eq_ok {β : Type} {x : Except Fault α} {f : α → Except Fault β} {b : β}
    (h : x >>= f = .ok b) : ∃ a, x = .ok a ∧ f a = .ok b := by
  cases x with
  | error e => cases h
  | ok a => exact ⟨a, rfl, h⟩

theorem eq_some_of_wanted {o : Option α} {a : α} (h : wanted o = .ok a) : o = some a := by
  cases o with
  | none => cases h
  | some a' => exact congrArg some (Except.ok.inj h)

theorem named_of_declOfValue (h : declOfValue j = .ok d) : Named d.atoms := by
  unfold declOfValue at h
  split at h
  · obtain ⟨_, -, h⟩ := exists_of_bind_eq_ok h
    exact Decl.readsNamed.named (eq_some_of_wanted h)
  · obtain ⟨_, -, h⟩ := exists_of_bind_eq_ok h
    obtain ⟨_, -, h⟩ := exists_of_bind_eq_ok h
    exact Decl.readsNamed.named (eq_some_of_wanted h)
  · exact Decl.readsNamed.named (eq_some_of_wanted h)

theorem named_of_mapM_declOfValue {items : List Json} (h : items.mapM declOfValue = .ok ds) :
    Named (ds.flatMap Decl.atoms) := by
  induction items generalizing ds with
  | nil =>
    cases h
    exact named_nil
  | cons j items ih =>
    rw [mapM_cons] at h
    obtain ⟨d, hd, h⟩ := exists_of_bind_eq_ok h
    obtain ⟨rest, hrest, heq⟩ := exists_of_bind_eq_ok h
    cases heq
    exact (named_of_declOfValue hd).append (ih hrest)

structure DraftNamed (p : Draft) : Prop where
  module : ∀ n, p.module = some n → n.Segmented
  body : ∀ ds, p.body = some ds → Named (ds.flatMap Decl.atoms)

theorem DraftNamed.memberOfValue {p' : Draft} (hp : DraftNamed p) (h : memberOfValue p m = .ok p') : DraftNamed p' := by
  unfold Tree.memberOfValue at h
  split at h
  · obtain ⟨module, hmodule, heq⟩ := exists_of_bind_eq_ok h
    cases heq
    refine ⟨fun n hn => ?_, hp.body⟩
    cases hn
    exact segmented_of_ofJson? (eq_some_of_wanted hmodule)
  · obtain ⟨file, -, heq⟩ := exists_of_bind_eq_ok h
    cases heq
    exact ⟨hp.module, hp.body⟩
  · obtain ⟨source, -, heq⟩ := exists_of_bind_eq_ok h
    cases heq
    exact ⟨hp.module, hp.body⟩
  · obtain ⟨body, hbody, heq⟩ := exists_of_bind_eq_ok h
    cases heq
    refine ⟨hp.module, fun ds hds => ?_⟩
    cases hds
    exact named_of_mapM_declOfValue hbody
  · cases h
  · cases h
    exact hp

theorem DraftNamed.foldlM {p' : Draft} (hp : DraftNamed p) (h : members.foldlM Tree.memberOfValue p = .ok p') :
    DraftNamed p' := by
  induction members generalizing p with
  | nil =>
    cases h
    exact hp
  | cons m members ih =>
    rw [foldlM_cons] at h
    obtain ⟨q, hq, h⟩ := exists_of_bind_eq_ok h
    exact ih (hp.memberOfValue hq) h

theorem DraftNamed.finish (hp : DraftNamed p) (h : p.finish = .ok t) : Named t.atoms := by
  unfold Draft.finish at h
  split at h
  next body hbody =>
    cases h
    refine Named.append (named_name ?_) (hp.body body hbody)
    cases hmodule : p.module with
    | none => exact fun _ hs => by cases hs
    | some n => exact hp.module n hmodule
  · cases h

theorem named_of_ofValue (h : ofValue j = .ok t) : Named t.atoms := by
  have hstart : DraftNamed {} := ⟨fun _ hn => (by cases hn), fun _ hds => (by cases hds)⟩
  unfold ofValue at h
  split at h
  · obtain ⟨p, hp, h⟩ := exists_of_bind_eq_ok h
    exact (hstart.foldlM hp).finish h
  · obtain ⟨p, hp, h⟩ := exists_of_bind_eq_ok h
    split at h
    · cases h
    · exact (hstart.foldlM hp).finish h
  · cases h

/-! ## Round trips -/

/-- A tree whose names and numbers can be written is read back from its JSON form, by the decoder and, as deep as it
reads at all, by the program. All trees that are read have such names. -/
theorem json_round_trip :
    (∀ t : Tree, (∀ n, .name n ∈ t.atoms → n.Segmented) → (∀ l, .literal l ∈ t.atoms → l.IsFinite) →
      Tree.ofJson? t.toJson = some t ∧ (t.toJson.depth ≤ nestingLimit → ofValue t.toJson = .ok t)) ∧
    ∀ j t, Tree.ofJson? j = some t ∨ ofValue j = .ok t → ∀ n, .name n ∈ t.atoms → n.Segmented := by
  refine ⟨fun t hnames hfloats => ?_, fun j t h => ?_⟩
  · have hwritable : Writable t.atoms := fun a ha => by
      cases a with
      | name n => exact hnames n ha
      | literal l => exact hfloats l ha
    exact ⟨Tree.roundTrips.read t hwritable, ofValue_toJson hwritable⟩
  · rcases h with h | h
    · exact Tree.readsNamed.named h
    · exact named_of_ofValue h

def oneTree : Tree where
  module := ⟨["Demo", "App"]⟩
  body := [.fn
    { name := "one"
      returnType := some (.named ⟨["System", "Single"]⟩ {})
      body := some [.ret (some (.literal (.f32 ⟨0x3f800000⟩) {})) {}] }]

theorem json_round_trip_oneTree :
    Tree.ofJson? oneTree.toJson = some oneTree ∧ ofValue oneTree.toJson = .ok oneTree := by
  have hatoms : oneTree.atoms =
      [.name ⟨["Demo", "App"]⟩, .name ⟨["System", "Single"]⟩, .literal (.f32 ⟨0x3f800000⟩)] := rfl
  have hnames : ∀ n, .name n ∈ oneTree.atoms → n.Segmented := by
    intro n hn
    rw [hatoms] at hn
    simp only [List.mem_cons, Atom.name.injEq, reduceCtorEq, List.not_mem_nil, or_false] at hn
    rcases hn with rfl | rfl <;> simp [QualifiedName.Segmented]
  have hfloats : ∀ l, .literal l ∈ oneTree.atoms → l.IsFinite := by
    intro l hl
    rw [hatoms] at hl
    simp only [List.mem_cons, Atom.literal.injEq, reduceCtorEq, List.not_mem_nil, or_false, false_or] at hl
    subst hl
    exact ⟨false, 8388608, -23, by decide⟩
  obtain ⟨hdecoder, hprogram⟩ := json_round_trip.1 oneTree hnames hfloats
  exact ⟨hdecoder, hprogram (by decide)⟩

end Tree

end TreeCompiler
