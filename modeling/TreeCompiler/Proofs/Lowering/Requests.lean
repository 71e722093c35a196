import TreeCompiler.Proofs.Lowering.Sequence

/-!
# Requests for types

Before anything else, declarations ask for their types, one after the other. Who asks first for a name that
is free gets it; whoever asks for it later gets a report and nothing else. A tagged union that does not get
its name does not ask for its variants.

* `Context.serve_type` : what is done about a request for a type.
-/

namespace TreeCompiler

open List TypeTable

variable {known : List TypeDef} {new : TypeDef}

/-! ## Requests -/

inductive Request where
  /-- A new type. -/
  | type (d : TypeDef)
  /-- Nothing; the declaration is an error node. -/
  | malformed (span : Span)

def Request.type? : Request → Option TypeDef
  | .type d => some d
  | .malformed _ => none

/-- The first type of a name. -/
def firstNamed (known : List TypeDef) (name : QualifiedName) : Option TypeDef :=
  known.find? (·.name == name)

def Variant.typeDef (module : QualifiedName) (v : Variant) : TypeDef :=
  { definedType module v.name with isSealed := true, span := v.span }

/-- What a declaration asks for where the types `known` are there or were asked for. -/
def Decl.requests (known : List TypeDef) (module : QualifiedName) : Decl → List Request
  | .type d => [.type { d.typeDef module with span := d.span }]
  | .enum d => [.type { valueTypeDef module d.name with span := d.span }]
  | .union d => [.type { valueTypeDef module d.name with span := d.span }]
  | .taggedUnion d =>
    .type { definedType module d.name with isAbstract := true, span := d.span } ::
      if (firstNamed known (module.child d.name)).isSome then []
      else d.variants.map fun v => .type (v.typeDef module)
  | .fn _ => []
  | .error span => [.malformed span]

/-- What declarations ask for, one after the other. -/
def requests (known : List TypeDef) : List Declaration → List Request
  | [] => []
  | d :: ds => d.decl.requests known d.module ++
      requests (known ++ (d.decl.requests known d.module).filterMap Request.type?) ds

/-- A type that refers to no other: it has no members and no bases yet. -/
structure TypeDef.Bare (d : TypeDef) : Prop where
  members : d.members = ([], [], [])
  bases : d.bases = []
  definition : d.genericDefinition = none
  args : d.genericArgs = []
  attributes : d.attributes = []

theorem bare_of_mem_declRequests {module : QualifiedName} {d : Decl}
    (h : Request.type new ∈ d.requests known module) : new.Bare := by
  cases d with
  | type d | enum d | union d =>
    cases mem_singleton.mp h
    exact ⟨rfl, rfl, rfl, rfl, rfl⟩
  | taggedUnion d =>
    rcases mem_cons.mp h with heq | hvariant
    · cases heq
      exact ⟨rfl, rfl, rfl, rfl, rfl⟩
    · split at hvariant
      · cases hvariant
      · obtain ⟨v, -, heq⟩ := mem_map.mp hvariant
        cases heq
        exact ⟨rfl, rfl, rfl, rfl, rfl⟩
  | fn d => cases h
  | error span => cases mem_singleton.mp h

theorem bare_of_mem_requests {ds : List Declaration} (h : Request.type new ∈ requests known ds) : new.Bare := by
  induction ds generalizing known with
  | nil => cases h
  | cons d ds ih =>
    rcases mem_append.mp h with hfirst | hrest
    · exact bare_of_mem_declRequests hfirst
    · exact ih hrest

def Decl.answers : Decl → Declared → List (Option TypeId)
  | .taggedUnion _, .taggedUnion base variants => some base :: variants
  | .fn _, _ => []
  | _, .type id => [some id]
  | _, _ => [none]

namespace Context

/-- Meets a request; the answer is the new type, if there is one. -/
def serve (c : Context) : Request → Option TypeId × Context
  | .type d => c.declareType d d.span
  | .malformed span => (none, ((Decl.error span).declare .global c).2)

def serveAll (c : Context) (rs : List Request) : List (Option TypeId) × Context :=
  traverse serve c rs

end Context

/-! ## The first of a name -/

theorem firstNamed_append (known later : List TypeDef) (name : QualifiedName) :
    firstNamed (known ++ later) name = (firstNamed known name).or (firstNamed later name) :=
  find?_append

namespace TypeTable
variable {t : TypeTable} {name : QualifiedName}

theorem lookup_eq_none_iff_firstNamed : t.lookup name = none ↔ firstNamed t.defs name = none := by
  rw [lookup, firstNamed, Option.map_eq_none_iff, findIdx?_eq_none_iff, find?_eq_none]
  exact forall₂_congr fun d _ => (Bool.not_eq_true _).symm.to_iff

theorem firstNamed_of_lookup {id : TypeId} (h : t.lookup name = some id) :
    firstNamed t.defs name = some (t.get id) := by
  obtain ⟨i, hfound, rfl⟩ := Option.map_eq_some_iff.mp h
  obtain ⟨hi, hname, hbefore⟩ := findIdx?_eq_some_iff_getElem.mp hfound
  rw [get_mk_of_lt t hi]
  exact find?_eq_some_iff_getElem.mpr ⟨hname, i, hi, rfl, fun j hj => by simpa using hbefore j hj⟩

end TypeTable

namespace Context
variable {known : List TypeDef} {c : Context}

/-- The rule by which a request for a type is met, where the types `known` are there or were asked for. -/
def Settles (known : List TypeDef) (c : Context) (d : TypeDef) : Prop :=
  match firstNamed known d.name with
  | none => c.serve (.type d) = (some ⟨c.types.size⟩, c.withTypes { defs := c.types.defs ++ [d] })
  | some first => c.serve (.type d) =
      (none, c.push (.duplicate s!"Type '{d.name.text}' is already defined." d.span first.span))

theorem serve_type {d : TypeDef} (hknown : firstNamed c.types.defs d.name = firstNamed known d.name) :
    c.Settles known d := by
  unfold Settles serve declareType TypeTable.insert
  rw [← hknown]
  dsimp only
  cases hlookup : c.types.lookup d.name with
  | none =>
    rw [lookup_eq_none_iff_firstNamed.mp hlookup]
  | some id =>
    rw [firstNamed_of_lookup hlookup]

theorem firstNamed_serve (c : Context) (r : Request) (name : QualifiedName) :
    firstNamed (c.serve r).2.types.defs name = firstNamed (c.types.defs ++ r.type?.toList) name := by
  cases r with
  | malformed span => exact congrArg (firstNamed · name) (append_nil _).symm
  | type d =>
    have hsettles := serve_type (c := c) (d := d) rfl
    unfold Settles at hsettles
    split at hsettles
    next hnone =>
      rw [hsettles]
      rfl
    next first hfirst =>
      rw [hsettles]
      change firstNamed c.types.defs name = firstNamed (c.types.defs ++ [d]) name
      rw [firstNamed_append]
      by_cases hname : d.name = name
      · rw [← hname, hfirst]
        rfl
      · have hother : firstNamed [d] name = none := by
          simp [firstNamed, hname]
        rw [hother, Option.or_none]

/-- Of all that is asked for, the first of a name has it. -/
theorem firstNamed_serveAll (c : Context) (rs : List Request) (name : QualifiedName) :
    firstNamed (c.serveAll rs).2.types.defs name = firstNamed (c.types.defs ++ rs.filterMap Request.type?) name := by
  induction rs generalizing c with
  | nil => exact congrArg (firstNamed · name) (append_nil _).symm
  | cons r rs ih =>
    change firstNamed ((c.serve r).2.serveAll rs).2.types.defs name = _
    rw [ih, firstNamed_append, firstNamed_serve, ← firstNamed_append, append_assoc]
    cases r <;> rfl

theorem serveAll_append (c : Context) (rs rs' : List Request) : c.serveAll (rs ++ rs') =
      ((c.serveAll rs).1 ++ ((c.serveAll rs).2.serveAll rs').1, ((c.serveAll rs).2.serveAll rs').2) :=
  traverse_append serve c rs rs'

/-! ## What declarations register -/

theorem answers_declaredType {d : Decl} (hnothing : d.answers .nothing = [none])
    (htype : ∀ id, d.answers (.type id) = [some id]) (r : Option TypeId × Context) :
    ([r.1], r.2) = (d.answers (Decl.declaredType r).1, (Decl.declaredType r).2) := by
  obtain ⟨id, c⟩ := r
  cases id with
  | none => exact congrArg (·, c) hnothing.symm
  | some id => exact congrArg (·, c) (htype id).symm

theorem serveAll_declRequests (hknown : ∀ name, firstNamed c.types.defs name = firstNamed known name)
    (module : QualifiedName) (d : Decl) : c.serveAll (d.requests known module) =
      (d.answers (d.declare module c).1, (d.declare module c).2) := by
  cases d with
  | type d => exact answers_declaredType rfl (fun _ => rfl) (c.declareType (d.typeDef module) d.span)
  | enum d =>
    exact answers_declaredType (d := .enum d) rfl (fun _ => rfl) (c.declareType (valueTypeDef module d.name) d.span)
  | union d =>
    exact answers_declaredType (d := .union d) rfl (fun _ => rfl) (c.declareType (valueTypeDef module d.name) d.span)
  | taggedUnion d =>
    have hbase : c.Settles known { definedType module d.name with isAbstract := true, span := d.span } :=
      serve_type (hknown _)
    have hserve : c.serve (.type { definedType module d.name with isAbstract := true, span := d.span }) =
        c.declareType { definedType module d.name with isAbstract := true } d.span := rfl
    have hvariants : ∀ c : Context, c.serveAll (d.variants.map fun v => .type (v.typeDef module)) =
        traverse (Variant.declare module) c d.variants := fun c => traverse_map _ _ c d.variants
    unfold Settles at hbase
    rw [hserve] at hbase
    rw [Decl.requests, Decl.declare, serveAll, traverse_cons, hserve]
    split at hbase
    next hfree =>
      have hfree : firstNamed known (module.child d.name) = none := hfree
      rw [hbase, hfree]
      exact congrArg (fun r : List (Option TypeId) × Context => (some (TypeId.mk _) :: r.1, r.2)) (hvariants _)
    next first htaken =>
      have htaken : firstNamed known (module.child d.name) = some first := htaken
      rw [hbase, htaken]
      rfl
  | fn d | error span => rfl

/-- Declarations register what they ask for, and each of them gets the answers to its requests. -/
theorem serveAll_requests (hknown : ∀ name, firstNamed c.types.defs name = firstNamed known name)
    (ds : List Declaration) :
    c.serveAll (requests known ds) = ((ds.zip (c.declareAll ds).1).flatMap fun d => d.1.decl.answers d.2,
      (c.declareAll ds).2) := by
  induction ds generalizing known c with
  | nil => rfl
  | cons d ds ih =>
    have hfirst := serveAll_declRequests hknown d.module d.decl
    have hknown' : ∀ name, firstNamed (d.decl.declare d.module c).2.types.defs name =
        firstNamed (known ++ (d.decl.requests known d.module).filterMap Request.type?) name := by
      intro name
      have hserved := firstNamed_serveAll c (d.decl.requests known d.module) name
      rw [hfirst, firstNamed_append, hknown] at hserved
      rw [firstNamed_append]
      exact hserved
    rw [requests, serveAll_append, hfirst, ih hknown']
    rfl

/-! ## New types -/

/-- A type is registered under a name that is free, or something is reported. -/
theorem serve_cases (c : Context) (r : Request) : (∃ d : Diagnostic, c.serve r = (none, c.push d)) ∨
    ∃ d, r = .type d ∧ c.types.lookup d.name = none ∧
      c.serve r = (some ⟨c.types.size⟩, c.withTypes { defs := c.types.defs ++ [d] }) := by
  cases r with
  | malformed span => exact Or.inl ⟨_, rfl⟩
  | type d =>
    have hsettles := serve_type (c := c) (d := d) rfl
    unfold Settles at hsettles
    split at hsettles
    next hfree => exact Or.inr ⟨d, rfl, lookup_eq_none_iff_firstNamed.mpr hfree, hsettles⟩
    next => exact Or.inl ⟨_, hsettles⟩

/-- What registering types and reporting do, all requests do. -/
theorem serveAll_rel {R : Context → Context → Prop} (hrefl : ∀ c, R c c)
    (htrans : ∀ {c c' c''}, R c c' → R c' c'' → R c c'') (hpush : ∀ c d, R c (c.push d)) {rs : List Request}
    (hregister : ∀ c d, .type d ∈ rs → (types c).lookup d.name = none →
      R c (c.withTypes { defs := c.types.defs ++ [d] })) (c : Context) : R c (c.serveAll rs).2 := by
  induction rs generalizing c with
  | nil => exact hrefl c
  | cons r rs ih =>
    refine htrans ?_ (ih (fun c d hd => hregister c d (mem_cons_of_mem _ hd)) (c.serve r).2)
    rcases c.serve_cases r with ⟨d, heq⟩ | ⟨d, rfl, hfree, heq⟩ <;> rw [heq]
    · exact hpush c d
    · exact hregister c d mem_cons_self hfree

theorem nodup_answers (c : Context) (rs : List Request) :
    ((c.serveAll rs).1.filterMap id).Nodup ∧ c.types.size ≤ (c.serveAll rs).2.types.size ∧
      ∀ type ∈ (c.serveAll rs).1.filterMap id,
        c.types.size ≤ type.index ∧ type.index < (c.serveAll rs).2.types.size := by
  induction rs generalizing c with
  | nil => exact ⟨nodup_nil, le_rfl, fun _ h => by cases h⟩
  | cons r rs ih =>
    obtain ⟨hnodup, hsize, hnew⟩ := ih (c.serve r).2
    have hserve : c.serveAll (r :: rs) =
        ((c.serve r).1 :: ((c.serve r).2.serveAll rs).1, ((c.serve r).2.serveAll rs).2) := rfl
    rw [hserve]
    rcases c.serve_cases r with ⟨d, heq⟩ | ⟨d, -, -, heq⟩ <;> rw [heq] at hnodup hsize hnew ⊢
    · simp only [filterMap_cons, id]
      exact ⟨hnodup, hsize, hnew⟩
    · have hone : (c.withTypes { defs := c.types.defs ++ [d] }).types.size = c.types.size + 1 :=
        size_append _ _
      simp only [filterMap_cons, id] at hsize hnew ⊢
      rw [hone] at hsize hnew
      refine ⟨nodup_cons.mpr ⟨fun hmem => ?_, hnodup⟩, by omega, fun type htype => ?_⟩
      · have hle := (hnew _ hmem).1
        exact absurd hle (Nat.not_succ_le_self _)
      · rcases mem_cons.mp htype with rfl | hmem
        · exact ⟨le_rfl, hsize⟩
        · have hlater := hnew _ hmem
          omega

end Context

/-! ## What was refused -/

/-- What is filled in of a declaration, given what it registered: nothing if its name was taken, and of a
tagged union only the variants that were registered. -/
def Decl.granted : Decl → Declared → Option (Decl × Declared)
  | .type d, .type id => some (.type d, .type id)
  | .enum d, .type id => some (.enum d, .type id)
  | .union d, .type id => some (.union d, .type id)
  | .taggedUnion d, .taggedUnion base variants =>
    let kept := (d.variants.zip variants).filter (·.2.isSome)
    some (.taggedUnion { d with variants := kept.map (·.1) }, .taggedUnion base (kept.map (·.2)))
  | .fn d, _ => some (.fn d, .nothing)
  | _, _ => none

def Declaration.granted (d : Declaration × Declared) : Option (Declaration × Declared) :=
  (d.1.decl.granted d.2).map fun kept => (⟨d.1.module, kept.1⟩, kept.2)

namespace Lowering

theorem foldl_fillVariant_filter (module : QualifiedName) (base : TypeId) (objectCtor : Option MethodRef)
    (void : Option TypeId) (c : Context) (vs : List (Variant × Option TypeId)) :
    (vs.filter (·.2.isSome)).foldl (fillVariant module base objectCtor void) c =
      vs.foldl (fillVariant module base objectCtor void) c := by
  induction vs generalizing c with
  | nil => rfl
  | cons v vs ih =>
    obtain ⟨v, type⟩ := v
    cases type with
    | none => exact ih c
    | some self => exact ih _

theorem fill_granted (module : QualifiedName) (l : Lowering) (d : Decl) (declared : Declared) :
    fill module l (d, declared) = ((d.granted declared).map (fill module l)).getD l := by
  cases d with
  | taggedUnion d =>
    cases declared with
    | taggedUnion base variants =>
      refine congrArg l.withContext ?_
      unfold fillTaggedUnion
      dsimp only
      rw [← unzip_fst, ← unzip_snd, zip_unzip, foldl_fillVariant_filter]
    | _ => rfl
  | type d | enum d | union d | fn d | error span => cases declared <;> rfl

/-- Declarations and variants that were refused make no difference from then on. -/
theorem fillAll_granted (l : Lowering) (ds : List (Declaration × Declared)) :
    l.fillAll ds = l.fillAll (ds.filterMap Declaration.granted) := by
  induction ds generalizing l with
  | nil => rfl
  | cons d ds ih =>
    have hfirst := fill_granted d.1.module l d.1.decl d.2
    change (fill d.1.module l (d.1.decl, d.2)).fillAll ds = _
    rw [hfirst, ih]
    cases hgranted : d.1.decl.granted d.2 with
    | none =>
      rw [filterMap_cons_none (by rw [Declaration.granted, hgranted]; rfl)]
      rfl
    | some kept =>
      rw [filterMap_cons_some (by rw [Declaration.granted, hgranted]; rfl)]
      rfl

end Lowering

end TreeCompiler
