import TreeCompiler.Proofs.Lowering.BaseLists

/-!
# Bases that are refused

A declaration looks at the bases that it lists one after the other. One that is sealed, or that derives from the type
itself, is refused with an error; any other that is found becomes a base, once. Nothing else that lowering does records
such an error.

* `Listing` : a listed base with the state in which it is looked up;
* `Compilation.listings` : all that a program lists;
* `Lowering.mem_bases_iff` : a type that is listed is a base just if it may be one.
-/

namespace TreeCompiler

open List Context Lowering TypeTable
open Relation (ReflTransGen)

/-! ## Runs over lists -/

/-- What the elements of a list give, each in the state that those before it lead to. -/
def along {σ α β : Type} (next : σ → α → σ) (given : σ → α → List β) : σ → List α → List β
  | _, [] => []
  | s, a :: as => given s a ++ along next given (next s a) as

section Along
variable {σ α β γ : Type} {next : σ → α → σ} {given : σ → α → List β} {s : σ} {as : List α}

theorem mem_along {b : β} (h : b ∈ along next given s as) :
    ∃ before a after, as = before ++ a :: after ∧ b ∈ given (before.foldl next s) a := by
  induction as generalizing s with
  | nil => cases h
  | cons a as ih =>
    rcases mem_append.mp h with hhere | hlater
    · exact ⟨[], a, as, rfl, hhere⟩
    · obtain ⟨before, a', after, rfl, hb⟩ := ih hlater
      exact ⟨a :: before, a', after, rfl, hb⟩

theorem map_along {f : β → γ} {g : α → List γ} (h : ∀ s a, (given s a).map f = g a) :
    (along next given s as).map f = as.flatMap g := by
  induction as generalizing s with
  | nil => rfl
  | cons a as ih => rw [along, map_append, h, ih, flatMap_cons]

/-- What each element adds, all of them add. -/
theorem foldl_eq_append_along (observe : σ → List γ) {f : β → Option γ}
    (h : ∀ before a after, as = before ++ a :: after → observe (next (before.foldl next s) a) =
      observe (before.foldl next s) ++ (given (before.foldl next s) a).filterMap f) :
    observe (as.foldl next s) = observe s ++ (along next given s as).filterMap f := by
  induction as generalizing s with
  | nil => exact (append_nil _).symm
  | cons a as ih =>
    have hrest := ih (s := next s a) fun before a' after hsplit => h (a :: before) a' after (congrArg (a :: ·) hsplit)
    have hfirst : observe (next s a) = observe s ++ (given s a).filterMap f := h [] a as rfl
    rw [foldl_cons, hrest, hfirst, along, filterMap_append, append_assoc]

end Along

/-! ## Listed bases -/

/-- A base that a declaration lists. -/
structure ListedBase where
  module : QualifiedName
  /-- The type that is declared, and the name that the declaration gives it. -/
  self : TypeId
  name : String
  base : TypeExpr

/-- A listed base in the state in which it is its turn. -/
structure Listing extends ListedBase where
  context : Context

namespace Listing
variable (x : Listing) (bases : List TypeId) {id : TypeId}

/-- The type that is listed, and the state once it has been looked up. -/
def found : Option TypeId × Context :=
  resolveTypeExpr x.module x.context x.base

/-- The type may not be a base: it is sealed, or derives from the one that lists it. -/
def Bars (id : TypeId) : Prop :=
  (x.found.2.types.get id).isSealed = true ∨ ReflTransGen x.found.2.types.FirstBase id x.self

/-- The error about a listed type that may not be a base. -/
def refusal? : Option Diagnostic :=
  x.found.1.bind fun id =>
    if (x.found.2.types.get id).isSealed then
      some (.error .invalidInheritance x.base.span
        s!"Cannot inherit from sealed Type {(x.found.2.types.get id).name.text}" "this type is sealed")
    else if x.found.2.types.derivesFrom id x.self then
      some (.error .invalidInheritance x.base.span
        s!"Circular inheritance between {x.name} and {(x.found.2.types.get id).name.text}"
        "this base derives from the type itself")
    else none

theorem isSome_refusal?_iff (h : x.found.1 = some id) : x.refusal?.isSome = true ↔ x.Bars id := by
  rw [refusal?, h, Option.bind_some, Bars, ← derivesFrom_iff]
  split_ifs with hsealed hderives
  · exact iff_of_true rfl (Or.inl hsealed)
  · exact iff_of_true rfl (Or.inr hderives)
  · exact iff_of_false Bool.false_ne_true (not_or.mpr ⟨hsealed, hderives⟩)

theorem code_of_refusal? {d : Diagnostic} (h : x.refusal? = some d) : d.code = some .invalidInheritance := by
  obtain ⟨id, -, hd⟩ := Option.bind_eq_some_iff.mp h
  split_ifs at hd <;> cases hd <;> rfl

/-- The bases and the state once the listed one has been looked at. -/
def next : List TypeId × Context :=
  addBase x.module x.self x.name (bases, x.context) x.base

theorem next_eq : x.next bases =
    (bases ++ (x.found.1.filter fun id => x.refusal?.isNone && !bases.contains id).toList,
      (x.refusal?.map x.found.2.push).getD x.found.2) := by
  unfold next addBase refusal? found
  dsimp only
  generalize resolveTypeExpr x.module x.context x.base = r
  obtain ⟨_ | id, c⟩ := r
  · simp
  · dsimp only [Option.bind_some]
    split_ifs <;> simp_all [report, Option.filter]

theorem types_next : (x.next bases).2.types = x.found.2.types := by
  rw [next_eq]
  cases x.refusal? <;> rfl

theorem mem_next (h : x.found.1 = some id) (hopen : ¬ x.Bars id) : id ∈ (x.next bases).1 := by
  have hnone := Option.not_isSome_iff_eq_none.mp fun hsome => hopen ((x.isSome_refusal?_iff h).mp hsome)
  rw [next_eq, h, hnone]
  by_cases hthere : id ∈ bases <;> simp [hthere]

theorem refusals_next : (x.next bases).2.refusals = x.context.refusals ++ [x].filterMap refusal? := by
  have hfound : x.found.2.refusals = x.context.refusals :=
    (resolves_resolveTypeExpr x.module x.context x.base).instantiates.refusals trivial
  rw [next_eq, ← hfound]
  cases hrefusal : x.refusal? with
  | none => simp [hrefusal]
  | some d => simp [hrefusal, refusals, push, x.code_of_refusal? hrefusal]

end Listing

theorem TypeTable.FirstBase.extends {t t' : TypeTable} {x y : TypeId} (h : t.Extends t') (hxy : t.FirstBase x y) :
    t'.FirstBase x y := by
  rcases Nat.lt_or_ge x.index t.size with hlt | hle
  · rwa [FirstBase, h.get_eq hlt]
  · have hmem := mem hxy
    rw [t.bases_get_of_le hle] at hmem
    cases hmem

namespace Lowering
variable {c : Context} {self : TypeId} {def_ : TypeDef} (module : QualifiedName) {e : Declaration × Declared}
  {x : Listing}

/-- The bases that a declaration lists, each in the state in which it is looked up. -/
def listings (self : TypeId) (c : Context) (d : TypeDecl) : List Listing :=
  along (addBase module self d.name) (fun s base => [⟨⟨module, self, d.name, base⟩, s.2⟩]) (initialBases c d, c) d.bases

theorem refusals_bases (self : TypeId) (c : Context) (d : TypeDecl) :
    (bases module self c d).2.refusals = c.refusals ++ (listings module self c d).filterMap Listing.refusal? := by
  obtain ⟨front, heq, -⟩ := exists_bases_eq module self c d
  rw [heq]
  refine foldl_eq_append_along (fun s : List TypeId × Context => s.2.refusals) fun before base _ _ => ?_
  exact Listing.refusals_next ⟨⟨module, self, d.name, base⟩, _⟩ _

/-- A type that is listed is a base just if it may be one. -/
theorem mem_bases_iff (hground : c.types.Grounded) (d : TypeDecl) (htype : c.types.Declares self def_)
    (hdefined : def_.origin = .defined) (hsealed : d.kind = .structType → def_.isSealed = true)
    (hx : x ∈ listings module self c d) {id : TypeId} (hid : x.found.1 = some id) :
    id ∈ (bases module self c d).1 ↔ ¬ x.Bars id := by
  obtain ⟨before, base, after, hsplit, hmem⟩ := mem_along hx
  generalize hs : before.foldl (addBase module self d.name) (initialBases c d, c) = s at hmem
  have hlisting := mem_singleton.mp hmem
  obtain ⟨front, hbases, -⟩ := exists_bases_eq module self c d
  have hlast : d.bases.foldl (addBase module self d.name) (initialBases c d, c) =
      after.foldl (addBase module self d.name) (x.next s.1) := by
    rw [hsplit, foldl_append, hs, hlisting]
    rfl
  constructor
  · intro hin hbars
    have hmay := mayExtend_bases module hground d htype hdefined hsealed id hin
    have hextends := (consults_addBases module self d.name (x.next s.1) after).extends
    rw [← hlast, x.types_next] at hextends
    rw [hbases] at hmay
    rcases hbars with hsealed' | hchain
    · have hlt := (resolves_resolveTypeExpr x.module x.context x.base).found id hid
      have hopen := (hextends.evolves.keeps.isSealed hlt).symm.trans hmay.unsealed
      cases hsealed'.symm.trans hopen
    · have hself : x.self = self := by rw [hlisting]
      exact hmay.chain (hself ▸ ReflTransGen.mono (fun _ _ => FirstBase.extends hextends) _ _ hchain)
  · intro hopen
    obtain ⟨added, hall, -⟩ := exists_addBases module self d.name (x.next s.1) after
    rw [hbases, hlast, hall]
    exact mem_append_right _ (mem_append_left _ (x.mem_next s.1 hid hopen))

/-- The bases that a declaration lists, if it has got its type. -/
def listed (l : Lowering) (e : Declaration × Declared) : List Listing :=
  match e.1.decl, e.2 with
  | .type d, .type id => listings e.1.module id l.context d
  | _, _ => []

theorem exists_of_mem_listed {l : Lowering} (h : x ∈ l.listed e) :
    ∃ module d, e = (⟨module, .type d⟩, .type x.self) ∧ x ∈ listings module x.self l.context d := by
  obtain ⟨⟨module, decl⟩, declared⟩ := e
  unfold listed at h
  split at h
  next d id hd hid =>
    cases hd
    cases hid
    obtain ⟨before, base, after, -, hx⟩ := mem_along h
    have hself : x.self = id := by rw [mem_singleton.mp hx]
    exact ⟨module, d, hself ▸ rfl, hself ▸ h⟩
  next => cases h

/-- Any change, but no base is refused. -/
def steady : Grant :=
  ⟨⟨fun _ => True, fun _ => True, fun _ => True⟩, fun _ => True, False, True⟩

/-- A declaration refuses bases that it lists, and nothing else. -/
theorem refusals_fill (l : Lowering)
    (he : e.1.decl.Registered (fun id _ => id.index < l.context.types.size) e.1.module e.2) :
    (fill e.1.module l (e.1.decl, e.2)).context.refusals =
      l.context.refusals ++ (l.listed e).filterMap Listing.refusal? := by
  obtain ⟨⟨module, d⟩, declared⟩ := e
  have howns : d.Registered (steady.Owns l.context.types) module declared :=
    he.imp fun _ _ hlt => ⟨trivial, trivial, hlt, nofun⟩
  have hedits := fun h => edits_fill (π := steady) module d h nofun declared (fun _ _ => trivial)
    (fun _ _ => ⟨trivial, fun _ _ => trivial⟩) howns
  cases d with
  | type d =>
    cases declared with
    | type id =>
      have hattributes := (instantiates_attributes (bases module id l.context d).2 module d.annotations
        (attributeTarget d.kind)).1.refusals trivial
      have hmembers : (headed module id l.context d).Edits steady (l.fillType module id d).context :=
        edits_addMembers (π := steady) module trivial (l.withContext _) nofun fun _ _ => trivial
      exact ((hmembers.fills.refusals trivial).trans hattributes).trans (refusals_bases module id l.context d)
    | _ => exact (append_nil _).symm
  | _ => exact ((hedits nofun).fills.refusals trivial).trans (append_nil _).symm

end Lowering

/-! ## Bodies -/

namespace Scope
variable (e : Scope) (s : BodyState)

theorem refusals_added {ds : List Diagnostic} (is : List Instruction)
    (h : ∀ d ∈ ds, d.code ≠ some .invalidInheritance) : (s.added ds is).context.refusals = s.context.refusals := by
  have hnone : ds.filter (·.code == some .invalidInheritance) = [] :=
    filter_eq_nil_iff.mpr fun d hd => by simpa using h d hd
  rw [refusals, s.diagnostics_added, filter_append, hnone, append_nil]
  rfl

theorem code_ne_of_mem_faults {g : FlowGraph} {leaves : List Expr} :
    ∀ d ∈ leaves.filterMap (e.fault? g), d.code ≠ some .invalidInheritance := by
  intro d hd
  rcases code_of_mem_faults hd with hcode | hcode <;> rw [hcode] <;> decide

theorem refusals_lowerOptional (value : Option Expr) (expected : Option TypeId) :
    (e.lowerOptional s value expected).2.context.refusals = s.context.refusals := by
  obtain ⟨is, hadded, -⟩ := examines_lowerOptional (e := e) s value expected
  rw [hadded]
  exact refusals_added s is e.code_ne_of_mem_faults

theorem refusals_lowerCall (call : Call) : (e.lowerCall s call).context.refusals = s.context.refusals := by
  obtain ⟨ds, is, hadded, hconcludes⟩ := e.concludes_lowerCall s call
  rw [hadded]
  refine refusals_added s is ?_
  rcases hconcludes.accounts with ⟨rfl, -⟩ | ⟨-, -, rfl | ⟨message, label, rfl⟩⟩
  · exact forall_mem_nil _
  · exact e.code_ne_of_mem_faults
  · exact forall_mem_singleton.mpr nofun

theorem refusals_lowerStmt (stmt : Stmt) : (e.lowerStmt s stmt).context.refusals = s.context.refusals := by
  cases stmt with
  | var name type value span =>
    refine (e.refusals_lowerOptional (e.variableType s type value).2 value _).trans ?_
    cases type with
    | none => rfl
    | some type => exact (resolves_resolveTypeExpr e.module s.context type).instantiates.refusals trivial
  | call callee args span =>
    rcases e.lowerStmt_call s callee args span with ⟨c, hc, heq, -⟩ | heq
    · rw [heq]
      exact hc.refusals trivial
    · rw [heq]
      exact foldlRecOn (motive := fun s' : BodyState => s'.context.refusals = s.context.refusals) _ _ rfl
        fun s' hs' call _ => (e.refusals_lowerCall s' call).trans hs'
  | ret value span => exact e.refusals_lowerOptional s value e.returnType
  | throw value span =>
    obtain ⟨is, -, heq⟩ := e.lowerThrow_eq s value
    rw [lowerStmt, heq]
    exact refusals_added s is e.code_ne_of_mem_faults
  | error span => exact s.context.filter_push fun h => by cases h

theorem refusals_lowerStmts (stmts : List Stmt) : (e.lowerStmts s stmts).context.refusals = s.context.refusals := by
  induction stmts generalizing s with
  | nil => rfl
  | cons stmt stmts ih =>
    unfold lowerStmts
    split
    · rfl
    · exact (ih _).trans (e.refusals_lowerStmt s stmt)

end Scope

/-! ## Programs -/

def Declaration.listedBases (e : Declaration × Declared) : List ListedBase :=
  match e.1.decl, e.2 with
  | .type d, .type id => d.bases.map (⟨e.1.module, id, d.name, ·⟩)
  | _, _ => []

namespace Compilation
variable {trees : List Tree} {options : Options}

/-- All bases that declarations list, in the order in which they are looked up. -/
def listings (trees : List Tree) (options : Options) : List Listing :=
  along (fun l e => fill e.1.module l (e.1.decl, e.2)) listed { context := allRegistered trees options }
    (registrations trees options)

/-- Each declaration that has got its type looks at the bases that it lists, in order. -/
theorem map_listings (trees : List Tree) (options : Options) : (listings trees options).map Listing.toListedBase =
      (registrations trees options).flatMap Declaration.listedBases := by
  refine map_along fun l e => ?_
  unfold listed Declaration.listedBases
  split
  next d id _ _ =>
    exact (map_along (g := fun base => [⟨e.1.module, id, d.name, base⟩]) fun _ _ => rfl).trans
      (flatMap_pure_eq_map _ _)
  next => rfl

/-- The errors about inheritance are those about listed bases. -/
theorem refusals_lowered (trees : List Tree) (options : Options) :
    (lowered trees options).context.refusals = (listings trees options).filterMap Listing.refusal? := by
  have hstart : (allRegistered trees options).refusals = [] :=
    (declaring_declareAll (π := .upTo fun _ => True) _ _ fun _ _ => trivial).1.refusals
  have hbodies : (lowered trees options).context.refusals = (declared trees options).context.refusals :=
    foldlRecOn (motive := fun c : Context => c.refusals = (declared trees options).context.refusals) _ _ rfl
      fun c hc p _ => ((c.scopeOf p).refusals_lowerStmts { context := c } p.body).trans hc
  rw [hbodies, declared_eq, ← nil_append (filterMap _ _), ← hstart]
  refine foldl_eq_append_along (fun l : Lowering => l.context.refusals) fun before e after hsplit => ?_
  obtain ⟨-, hregistered, -⟩ := filled_of_registrations hsplit rfl
  exact refusals_fill _ (hregistered.imp fun _ _ hf => hf.lt_size)

/-- A listed type that is found is among the bases, once, or it may not be. -/
theorem count_bases_of_listed {x : Listing} (hx : x ∈ listings trees options) {id : TypeId}
    (hid : x.found.1 = some id) :
    ((lowered trees options).assembly.types.get x.self).bases.count id = 1 ∧ ¬ x.Bars id ∨
      ((lowered trees options).assembly.types.get x.self).bases.count id = 0 ∧ x.Bars id := by
  obtain ⟨before, e, after, hsplit, hlisted⟩ := mem_along hx
  obtain ⟨module, d, rfl, hown⟩ := exists_of_mem_listed hlisted
  change x ∈ Lowering.listings module x.self
    (fillAll { context := allRegistered trees options } before).context d at hown
  obtain ⟨-, hregistered, -⟩ := filled_of_registrations hsplit rfl
  obtain ⟨hbefore, hafter⟩ := run_of_visits trees options (.filling before _ hsplit)
  generalize fillAll { context := allRegistered trees options } before = l at *
  have hground := (sound_of_run trees options hbefore).grounded
  have hhead := congrArg TypeDef.head hregistered.start
  have hdeclares : l.context.types.Declares x.self { d.typeDef module with span := d.span } :=
    ⟨hregistered.lt_size, hhead⟩
  have hbases : ((lowered trees options).assembly.types.get x.self).bases = (bases module x.self l.context d).1 :=
    (congrArg TypeDef.bases hregistered.shell).trans (bases_fillType module hregistered.lt_size d).2
  have hiff := mem_bases_iff module hground d hdeclares rfl (fun hkind => by simp [TypeDecl.typeDef, hkind]) hown hid
  rw [← hbases] at hiff
  by_cases hbars : x.Bars id
  · exact Or.inr ⟨count_eq_zero.mpr fun hmem => hiff.mp hmem hbars, hbars⟩
  · have hdefined : ((lowered trees options).assembly.types.get x.self).origin = .defined :=
      (hdeclares.mono hafter.keeps).origin
    exact Or.inl ⟨count_eq_one_of_mem (listsBases_lowered trees options hdefined).nodup (hiff.mpr hbars), hbars⟩

/-- No type of a program has a sealed type among its bases. A declaration that has got its type looks at the bases
that it lists, in order. Each of them that is found is among the bases of the type once and is not refused, or it is
not among them and is refused, because it is sealed or derives from the type. The errors about inheritance are those
about the bases that are refused, one for each. -/
theorem listed_bases_settled (trees : List Tree) (options : Options) :
    let t := (lowered trees options).assembly.types
    (∀ id, (t.get id).origin = .defined → ∀ b ∈ (t.get id).bases, (t.get b).isSealed = false) ∧
    (listings trees options).map Listing.toListedBase =
      (registrations trees options).flatMap Declaration.listedBases ∧
    (∀ x ∈ listings trees options, ∀ id, x.found.1 = some id →
      (t.get x.self).bases.count id = 1 ∧ ¬ x.Bars id ∧ x.refusal? = none ∨
      (t.get x.self).bases.count id = 0 ∧ x.Bars id ∧ x.refusal?.isSome = true) ∧
    (lowered trees options).diagnostics.filter (·.code == some .invalidInheritance) =
      (listings trees options).filterMap Listing.refusal? := by
  have hground := (sound_of_run trees options ((run_declared trees options).trans
    (run_completing trees options (append_nil _).symm).1)).grounded
  refine ⟨fun id _ b hb => hground.unsealed id b hb, map_listings trees options, fun x hx id hid => ?_,
    refusals_lowered trees options⟩
  have hrefusal := x.isSome_refusal?_iff hid
  rcases count_bases_of_listed hx hid with ⟨hcount, hopen⟩ | ⟨hcount, hbars⟩
  · exact Or.inl ⟨hcount, hopen, Option.not_isSome_iff_eq_none.mp fun hsome => hopen (hrefusal.mp hsome)⟩
  · exact Or.inr ⟨hcount, hbars, hrefusal.mpr hbars⟩

/-- A class under another that is under it, and under a sealed class of another tree, with an interface listed
twice. -/
def knotTrees : List Tree :=
  [{ module := ⟨["Demo"]⟩
     body := [.type { kind := .classType, name := "A"
                      bases := [.named ⟨["B"]⟩ {}, .named ⟨["Far", "S"]⟩ {}, .named ⟨["I"]⟩ {}, .named ⟨["I"]⟩ {}] },
       .type { kind := .classType, name := "B", bases := [.named ⟨["A"]⟩ {}] },
       .type { kind := .interfaceType, name := "I" }] },
   { module := ⟨["Far"]⟩
     body := [.type { kind := .classType, name := "S", modifiers := [.sealed] }] }]

theorem listed_bases_settled_knotTrees :
    (listings knotTrees {}).map (·.refusal?.isSome) = [false, true, false, false, true] ∧
    ((lowered knotTrees {}).diagnostics.filter (·.code == some .invalidInheritance)).length = 2 := by
  have hrefused : (listings knotTrees {}).map (·.refusal?.isSome) = [false, true, false, false, true] := by
    decide +kernel
  refine ⟨hrefused, ?_⟩
  rw [(listed_bases_settled knotTrees {}).2.2.2]
  decide +kernel

end Compilation

end TreeCompiler
