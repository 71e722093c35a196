import TreeCompiler.Proofs.Lowering.Filling

/-!
# What type expressions mean

A type name is looked up as it stands, then inside its module, then as a name of the platform. Types are
registered before any name is looked up, but for two kinds: the type that holds the functions, and the
delegates that function types stand for. So what a name means is settled by the names that are known by
then, unless one of the two kinds comes in under a name that is looked up earlier.
-/

namespace TreeCompiler

open Context (allSome delegateName delegateInstance)

/-- A place where type names are written: the module that they stand in, and the names that have a type
when they are looked up. -/
structure Site where
  module : QualifiedName
  known : QualifiedName → Bool

namespace TypeExpr

mutual

def names : TypeExpr → List QualifiedName
  | .named name _ => [name]
  | .function params result _ => namesOfAll params ++ namesOfResult result

def namesOfAll : List TypeExpr → List QualifiedName
  | [] => []
  | type :: types => names type ++ namesOfAll types

def namesOfResult : Option TypeExpr → List QualifiedName
  | none => []
  | some type => names type

end

end TypeExpr

namespace Site
variable {s : Site}

/-- Names under which a name is looked up, in this order. -/
def readings (s : Site) (name : QualifiedName) : List QualifiedName :=
  [name, name.qualify s.module] ++
    match name.segments with
    | [short] => [TypeTable.systemName ((Primitive.aliasTarget? short).getD short)]
    | _ => []

/-- The name of what is returned where nothing is. -/
def voidName : QualifiedName :=
  TypeTable.systemName (Primitive.systemName .void)

/-- The delegate for what the parameters and the result mean; a result of `none` is no result. -/
def delegate (s : Site) (params : List (Option QualifiedName))
    (result : Option (Option QualifiedName)) : Option QualifiedName :=
  let (family, args) := match result with
    | some r => if r = some voidName then ("Action", params) else ("Func", params ++ [r])
    | none => ("Action", params)
  if s.known (delegateName family args.length) then (allSome args).map (delegateInstance family)
  else none

mutual

/-- The name of the type that a type expression means, if it means one. -/
def meaning (s : Site) : TypeExpr → Option QualifiedName
  | .named name _ => (s.readings name).find? s.known
  | .function params result _ => s.delegate (s.meanings params) (s.meaning? result)

def meanings (s : Site) : List TypeExpr → List (Option QualifiedName)
  | [] => []
  | type :: types => s.meaning type :: s.meanings types

def meaning? (s : Site) : Option TypeExpr → Option (Option QualifiedName)
  | none => none
  | some type => some (s.meaning type)

end

/-- Each name has its first known reading before any other that is in `made`. -/
def SettledNames (s : Site) (made : QualifiedName → Prop) (names : List QualifiedName) : Prop :=
  ∀ name ∈ names, ∀ n ∈ (s.readings name).takeWhile (! s.known ·), ¬ made n

/-- No type among `made` that is not known gets in the way of a name. -/
def Settled (s : Site) (made : QualifiedName → Prop) (type : TypeExpr) : Prop :=
  s.SettledNames made type.names

theorem SettledNames.append {made : QualifiedName → Prop} {names names' : List QualifiedName}
    (h : s.SettledNames made (names ++ names')) : s.SettledNames made names ∧ s.SettledNames made names' :=
  List.forall_mem_append.mp h

def Ready (s : Site) (t : TypeTable) : Prop :=
  ∀ n, s.known n = true → (t.lookup n).isSome = true

theorem Ready.mono {t t' : TypeTable} (h : s.Ready t) (hkeeps : t.Keeps t') : s.Ready t' := by
  intro n hn
  obtain ⟨id, hid⟩ := Option.isSome_iff_exists.mp (h n hn)
  exact Option.isSome_iff_exists.mpr ⟨id, hkeeps.lookup hid⟩

/-- What is returned where nothing is, and the delegates that are ever there, are known. -/
structure Closed (s : Site) (made : QualifiedName → Prop) : Prop where
  void : s.known voidName = true
  delegates : ∀ family n, made (delegateName family n) → s.known (delegateName family n) = true

end Site

namespace TypeTable
variable {t : TypeTable} {type : Option TypeId} {name : Option QualifiedName}

def Within (t : TypeTable) (made : QualifiedName → Prop) : Prop :=
  ∀ n id, t.lookup n = some id → made n

theorem Within.anti {t' : TypeTable} {made : QualifiedName → Prop} (h : t'.Within made) (hkeeps : t.Keeps t') :
    t.Within made :=
  fun n id hid => h n id (hkeeps.lookup hid)

/-- A type is the one that the table has under a name, or there is neither a type nor a name. -/
inductive Finds (t : TypeTable) : Option TypeId → Option QualifiedName → Prop where
  | found {id : TypeId} {n : QualifiedName} : t.lookup n = some id → Finds t (some id) (some n)
  | nothing : Finds t none none

theorem Finds.mono {t' : TypeTable} (h : t.Finds type name) (hkeeps : t.Keeps t') : t'.Finds type name := by
  cases h with
  | found hid => exact .found (hkeeps.lookup hid)
  | nothing => exact .nothing

theorem Finds.eq_void_iff (h : t.Finds type name) (hvoid : (t.lookup Site.voidName).isSome = true) :
    type = t.primitive? .void ↔ name = some Site.voidName := by
  obtain ⟨void, hvoid⟩ := Option.isSome_iff_exists.mp hvoid
  have hprimitive : t.primitive? .void = some void := hvoid
  rw [hprimitive]
  cases h with
  | nothing => simp
  | @found id n hid =>
    constructor
    · intro heq
      cases heq
      rw [← (lookup_spec hid).2, (lookup_spec hvoid).2]
    · intro heq
      cases heq
      exact hid.symm.trans hvoid

theorem finds_findSome? {known : QualifiedName → Bool} (hknown : ∀ n, known n = true → (t.lookup n).isSome = true)
    (ns : List QualifiedName) (hbefore : ∀ n ∈ ns.takeWhile (! known ·), t.lookup n = none) :
    t.Finds (ns.findSome? t.lookup) (ns.find? known) := by
  induction ns with
  | nil => exact .nothing
  | cons n ns ih =>
    cases hn : known n with
    | true =>
      obtain ⟨id, hid⟩ := Option.isSome_iff_exists.mp (hknown n hn)
      rw [List.findSome?_cons, hid, List.find?_cons_of_pos hn]
      exact .found hid
    | false =>
      rw [List.takeWhile_cons, hn, Bool.not_false, if_pos rfl] at hbefore
      rw [List.findSome?_cons, hbefore n List.mem_cons_self, List.find?_cons_of_neg (by simp [hn])]
      exact ih fun m hm => hbefore m (List.mem_cons_of_mem _ hm)

theorem resolveIn?_eq (t : TypeTable) (s : Site) (name : QualifiedName) :
    t.resolveIn? s.module name = (s.readings name).findSome? t.lookup := by
  unfold resolveIn? Site.readings
  rw [List.findSome?_append]
  refine congrArg₂ Option.or ?_ ?_
  · rw [List.findSome?_cons, List.findSome?_cons, List.findSome?_nil]
    cases t.lookup name <;> cases t.lookup (name.qualify s.module) <;> rfl
  · obtain ⟨segments⟩ := name
    rcases segments with _ | ⟨short, _ | ⟨second, rest⟩⟩
    · rfl
    · exact List.findSome?_singleton.symm
    · rfl

end TypeTable

namespace Context
variable {t : TypeTable} {args : List (Option TypeId)}

variable {s : Site} {made : QualifiedName → Prop} {names : List (Option QualifiedName)}

theorem finds_resolveType (c : Context) (hready : s.Ready c.types) (hwithin : c.types.Within made)
    {name : QualifiedName} (hsettled : s.SettledNames made [name]) (span : Span) :
    c.types.Finds (c.resolveType s.module name span).1 ((s.readings name).find? s.known) := by
  have hfinds := TypeTable.finds_findSome? hready (s.readings name) fun n hn =>
    Option.eq_none_iff_forall_ne_some.mpr fun id hid =>
      hsettled name List.mem_cons_self n hn (hwithin n id hid)
  rw [← TypeTable.resolveIn?_eq] at hfinds
  unfold resolveType
  split
  next id hid => exact hid ▸ hfinds
  next hnone => exact hnone ▸ hfinds

/-! ## Delegates -/

theorem allSome_finds (h : List.Forall₂ t.Finds args names) :
    (allSome args = none ∧ allSome names = none) ∨ ∃ ids ns, allSome args = some ids ∧
      allSome names = some ns ∧ List.Forall₂ (fun id n => t.lookup n = some id) ids ns := by
  induction h with
  | nil => exact Or.inr ⟨[], [], rfl, rfl, .nil⟩
  | cons hfirst _ ih =>
    cases hfirst with
    | nothing => exact Or.inl ⟨rfl, rfl⟩
    | @found id n hid =>
      rcases ih with ⟨hargs, hnames⟩ | ⟨ids, ns, hargs, hnames, hall⟩
      · exact Or.inl ⟨by rw [allSome, hargs]; rfl, by rw [allSome, hnames]; rfl⟩
      · exact Or.inr ⟨id :: ids, n :: ns, by rw [allSome, hargs]; rfl, by rw [allSome, hnames]; rfl, .cons hid hall⟩

theorem map_name_of_lookup {ids : List TypeId} {ns : List QualifiedName}
    (h : List.Forall₂ (fun id n => t.lookup n = some id) ids ns) : ids.map (fun id => (t.get id).name) = ns := by
  induction h with
  | nil => rfl
  | cons hid _ ih => rw [List.map_cons, ih, (TypeTable.lookup_spec hid).2]

theorem finds_delegateFor (hs : s.Closed made) (c : Context) (hready : s.Ready c.types)
    (hwithin : c.types.Within made) (family : String) (hargs : List.Forall₂ c.types.Finds args names) (span : Span) :
    (c.delegateFor family args span).2.types.Finds (c.delegateFor family args span).1
      (if s.known (delegateName family names.length) then (allSome names).map (delegateInstance family)
        else none) := by
  have hlength : args.length = names.length := hargs.length_eq
  unfold delegateFor resolveType
  rw [resolveIn?_delegateName, hlength]
  cases hlookup : c.types.lookup (delegateName family names.length) with
  | none =>
    have hunknown : ¬ s.known (delegateName family names.length) = true := by
      intro hknown
      have hsome := hready _ hknown
      rw [hlookup] at hsome
      cases hsome
    rw [if_neg hunknown]
    exact .nothing
  | some definition =>
    rw [if_pos (hs.delegates family _ (hwithin _ _ hlookup))]
    rcases allSome_finds hargs with ⟨hids, hns⟩ | ⟨ids, ns, hids, hns, hall⟩
    · rw [hids, hns]
      exact .nothing
    · rw [hids, hns]
      have hname : (c.types.get definition).name = delegateName family ids.length := by
        rw [(TypeTable.lookup_spec hlookup).2, length_of_allSome hids, hlength]
      have hinstance : instanceName c.types definition ids = delegateInstance family ns := by
        rw [instanceName_eq hname, map_name_of_lookup hall]
      refine .found ?_
      rw [← hinstance]
      exact Lowering.lookup_intern _ _

theorem finds_resolveDelegate (hs : s.Closed made) (c : Context) (hready : s.Ready c.types)
    (hwithin : c.types.Within made) {params : List (Option TypeId)} {result : Option (Option TypeId)}
    {paramNames : List (Option QualifiedName)} {resultName : Option (Option QualifiedName)}
    (hparams : List.Forall₂ c.types.Finds params paramNames)
    (hresult : Option.Rel c.types.Finds result resultName) (span : Span) :
    (c.resolveDelegate params result span).2.types.Finds (c.resolveDelegate params result span).1
      (s.delegate paramNames resultName) := by
  rw [resolveDelegate_eq]
  cases hresult with
  | none => exact finds_delegateFor hs c hready hwithin "Action" hparams span
  | @some r name hr =>
    have hvoid := hr.eq_void_iff (hready _ hs.void)
    unfold delegateOf Site.delegate
    dsimp only
    by_cases heq : name = some Site.voidName
    · rw [if_pos (hvoid.mpr heq), if_pos heq]
      exact finds_delegateFor hs c hready hwithin "Action" hparams span
    · rw [if_neg fun h => heq (hvoid.mp h), if_neg heq]
      exact finds_delegateFor hs c hready hwithin "Func" (List.rel_append hparams (.cons hr .nil)) span

/-! ## Type expressions -/

mutual

/-- A type expression that is settled gives the type that it means. -/
theorem finds_resolveTypeExpr (hs : s.Closed made) (c : Context) (hready : s.Ready c.types) (type : TypeExpr)
    (hwithin : (resolveTypeExpr s.module c type).2.types.Within made) (hsettled : s.SettledNames made type.names) :
    (resolveTypeExpr s.module c type).2.types.Finds (resolveTypeExpr s.module c type).1 (s.meaning type) := by
  cases type with
  | named name span =>
    rw [TypeExpr.names] at hsettled
    rw [resolveTypeExpr, types_resolveType] at hwithin
    rw [resolveTypeExpr, types_resolveType, Site.meaning]
    exact c.finds_resolveType hready hwithin hsettled span
  | function params result span =>
    rw [TypeExpr.names] at hsettled
    rw [resolveTypeExpr] at hwithin
    obtain ⟨hfirst, -, hsuits⟩ := instantiates_resolveParams s.module c params
    obtain ⟨hmore, -, hresultSuits⟩ := instantiates_resolveResult s.module (resolveParams s.module c params).2 result
    have hkeeps := (resolves_resolveDelegate _ span (fun p hp => hmore.suits (hsuits p hp))
      hresultSuits).instantiates.types.keeps
    have hresolved := hwithin.anti hkeeps
    have hresultKeeps := hmore.types.keeps
    have hparams := finds_resolveParams hs c hready params (hresolved.anti hresultKeeps) hsettled.append.1
    have hlater := hready.mono hfirst.types.keeps
    have hresult := finds_resolveResult hs _ hlater result hresolved hsettled.append.2
    rw [resolveTypeExpr, Site.meaning]
    exact finds_resolveDelegate hs _ (hlater.mono hresultKeeps) hresolved
      (hparams.imp fun _ _ h => h.mono hresultKeeps) hresult span

theorem finds_resolveParams (hs : s.Closed made) (c : Context) (hready : s.Ready c.types)
    (types : List TypeExpr) (hwithin : (resolveParams s.module c types).2.types.Within made)
    (hsettled : s.SettledNames made (TypeExpr.namesOfAll types)) :
    List.Forall₂ (resolveParams s.module c types).2.types.Finds (resolveParams s.module c types).1
      (s.meanings types) := by
  cases types with
  | nil =>
    rw [resolveParams, Site.meanings]
    exact .nil
  | cons type types =>
    rw [TypeExpr.namesOfAll] at hsettled
    rw [resolveParams] at hwithin
    have hmore := (resolves_resolveTypeExpr s.module c type).instantiates.types.keeps
    have hkeeps := (instantiates_resolveParams s.module (resolveTypeExpr s.module c type).2 types).1.types.keeps
    have hfirst := finds_resolveTypeExpr hs c hready type (hwithin.anti hkeeps) hsettled.append.1
    have hrest := finds_resolveParams hs _ (hready.mono hmore) types hwithin hsettled.append.2
    rw [resolveParams, Site.meanings]
    exact .cons (hfirst.mono hkeeps) hrest

theorem finds_resolveResult (hs : s.Closed made) (c : Context) (hready : s.Ready c.types)
    (type : Option TypeExpr) (hwithin : (resolveResult s.module c type).2.types.Within made)
    (hsettled : s.SettledNames made (TypeExpr.namesOfResult type)) :
    Option.Rel (resolveResult s.module c type).2.types.Finds (resolveResult s.module c type).1 (s.meaning? type) := by
  cases type with
  | none =>
    rw [resolveResult, Site.meaning?]
    exact .none
  | some type =>
    rw [TypeExpr.namesOfResult] at hsettled
    rw [resolveResult] at hwithin
    rw [resolveResult, Site.meaning?]
    exact .some (finds_resolveTypeExpr hs c hready type hwithin hsettled)

end

end Context

/-! ## What may be meant -/

/-- A name that is written in a module may mean the type of the name `n`. -/
def QualifiedName.MayMean (name module n : QualifiedName) : Prop :=
  n ∈ Site.readings ⟨module, fun _ => false⟩ name

/-- A type expression that is written in a module may mean the type of the name `n`. -/
def TypeExpr.MayMean (module n : QualifiedName) : TypeExpr → Prop
  | .named name _ => name.MayMean module n
  | .function _ _ _ => ∃ family args, n = delegateInstance family args

namespace Context
variable {c : Context} {module : QualifiedName} {span : Span} {id : TypeId} {name : QualifiedName}

theorem mayMean_resolveIn? {t : TypeTable} (h : t.resolveIn? module name = some id) :
    name.MayMean module (t.get id).name := by
  rw [t.resolveIn?_eq ⟨module, fun _ => false⟩] at h
  obtain ⟨n, hn, hlookup⟩ := List.exists_of_findSome?_eq_some h
  rw [(TypeTable.lookup_spec hlookup).2]
  exact hn

theorem mayMean_resolveType (h : (c.resolveType module name span).1 = some id) :
    name.MayMean module (c.types.get id).name := by
  unfold resolveType at h
  split at h
  next id' hid =>
    cases h
    exact mayMean_resolveIn? hid
  next => cases h

theorem name_delegateFor {family : String} {args : List (Option TypeId)}
    (h : (c.delegateFor family args span).1 = some id) :
    ∃ names, ((c.delegateFor family args span).2.types.get id).name = delegateInstance family names := by
  have hfound := c.name_of_resolveType_delegateName family args.length span
  have htypes := c.types_resolveType .global (delegateName family args.length) span
  unfold delegateFor at h ⊢
  dsimp only at h ⊢
  generalize c.resolveType .global (delegateName family args.length) span = r at h hfound htypes ⊢
  obtain ⟨definition, c'⟩ := r
  rw [← htypes] at hfound
  split at h
  next definition' ids hdefinition hall =>
    have hname := hfound definition' hdefinition
    rw [← length_of_allSome hall] at hname
    cases hdefinition
    cases h
    refine ⟨ids.map fun a => (c'.types.get a).name, ?_⟩
    rw [← instanceName_eq hname]
    exact (TypeTable.lookup_spec (Lowering.lookup_intern _ _)).2
  next => cases h

/-- The type that was found has a name that the expression may mean. -/
theorem mayMean_resolveTypeExpr {type : TypeExpr} (h : (resolveTypeExpr module c type).1 = some id) :
    type.MayMean module ((resolveTypeExpr module c type).2.types.get id).name := by
  cases type with
  | named name span =>
    rw [resolveTypeExpr] at h
    rw [resolveTypeExpr, types_resolveType]
    exact mayMean_resolveType h
  | function params result span =>
    rw [resolveTypeExpr] at h ⊢
    dsimp only at h ⊢
    rw [resolveDelegate_eq] at h ⊢
    obtain ⟨names, hname⟩ := name_delegateFor h
    exact ⟨_, names, hname⟩

end Context

end TreeCompiler
