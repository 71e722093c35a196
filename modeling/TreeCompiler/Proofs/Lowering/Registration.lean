import TreeCompiler.Proofs.Lowering.BodyPlacement
import TreeCompiler.Proofs.Lowering.Requests
import TreeCompiler.Proofs.Lowering.Soundness
import TreeCompiler.Proofs.TypeTable.Index

/-!
# Registration of types

Types are registered in several places and at different times, but never twice under one name, and never
taken back.
-/

namespace TreeCompiler

open TypeTable Lowering Context

namespace TypeTable
variable {t t' : TypeTable}

/-- A name leads to a type if and only if it is the name of this type. -/
def Consistent (t : TypeTable) : Prop :=
  ∀ name id, t.lookup name = some id ↔ id.index < t.size ∧ (t.get id).name = name

theorem consistent_iff : t.Consistent ↔ ∀ id, id.index < t.size → t.lookup (t.get id).name = some id := by
  constructor
  · exact fun h id hid => (h _ id).mpr ⟨hid, rfl⟩
  · intro h name id
    refine ⟨lookup_spec, ?_⟩
    rintro ⟨hid, rfl⟩
    exact h id hid

theorem Keeps.consistent (h : t.Keeps t') (hsize : t'.size = t.size) (ht : t.Consistent) : t'.Consistent := by
  rw [consistent_iff] at ht ⊢
  intro id hid
  rw [hsize] at hid
  rw [h.name hid]
  exact h.lookup (ht id hid)

theorem Consistent.append (ht : t.Consistent) {d : TypeDef} (hfree : t.lookup d.name = none) :
    Consistent { defs := t.defs ++ [d] } := by
  rw [consistent_iff] at ht ⊢
  intro id hid
  rw [size_append] at hid
  rw [lookup_append hfree]
  rcases t.get_append_cases d id with ⟨hlt, hold⟩ | ⟨hlast, hnew⟩ | ⟨hgt, -⟩
  · rw [hold, if_neg ((t.lookup_eq_none_iff d.name).mp hfree id hlt)]
    exact ht id hlt
  · rw [hnew, if_pos rfl, ← hlast]
  · omega

end TypeTable

/-! ## Steps -/

namespace Context
variable {π : Permit} {c c' : Context}

theorem Step.consistent (h : c.Step π c') (hc : c.types.Consistent) : c'.types.Consistent := by
  have hkeeps := h.keeps
  rcases h.types_cases with heq | ⟨d, -, hfree, -, heq⟩ | ⟨type, f, -, heq, -, -⟩ <;> rw [heq] at hkeeps ⊢
  · exact hc
  · exact hc.append hfree
  · exact hkeeps.consistent (size_modify _ _ _) hc

theorem Steps.consistent (h : c.Steps π c') (hc : c.types.Consistent) : c'.types.Consistent := by
  induction h with
  | refl => exact hc
  | tail _ hstep ih => exact hstep.consistent ih

/-- A step of lowering while the table has an index. What is done to the table is done to both. -/
inductive IndexedStep (π : Permit) : Context × IndexedTable → Context × IndexedTable → Prop where
  | keep {c c' : Context} {x : IndexedTable} : c.Step π c' → c'.types = c.types → IndexedStep π (c, x) (c', x)
  | insert {c c' : Context} {x x' : IndexedTable} {d : TypeDef} {id id' : TypeId} : c.Step π c' →
      c.types.insert d = .ok (id, c'.types) → x.insert d = .ok (id', x') → IndexedStep π (c, x) (c', x')
  | modify {c c' : Context} {x : IndexedTable} (id : TypeId) (f : TypeDef → TypeDef) : c.Step π c' →
      c'.types = c.types.modify id f → IndexedStep π (c, x) (c', x.modify id f)

abbrev IndexedSteps (π : Permit) : Context × IndexedTable → Context × IndexedTable → Prop :=
  Relation.ReflTransGen (IndexedStep π)

theorem IndexedStep.step {s s' : Context × IndexedTable} (h : IndexedStep π s s') : s.1.Step π s'.1 := by
  cases h with
  | keep h | insert h | modify _ _ h => exact h

theorem IndexedStep.agrees {s s' : Context × IndexedTable} (h : IndexedStep π s s')
    (hs : s.2.table = s.1.types ∧ s.2.Agrees) : s'.2.table = s'.1.types ∧ s'.2.Agrees := by
  obtain ⟨htable, hagrees⟩ := hs
  cases h with
  | keep _ heq => exact ⟨htable.trans heq.symm, hagrees⟩
  | @insert _ _ _ _ d _ _ _ htypes hindexed =>
    obtain ⟨hmap, hinsert⟩ := hagrees.insert d
    rw [hindexed, show IndexedTable.table _ = _ from htable, htypes] at hmap
    exact ⟨congrArg Prod.snd (Except.ok.inj hmap), hinsert _ hindexed⟩
  | modify id f hstep heq =>
    have hkeeps := hstep.keeps
    rw [heq, ← htable] at hkeeps
    exact ⟨heq ▸ congrArg (TypeTable.modify · id f) htable, hagrees.modify hkeeps⟩

theorem IndexedSteps.agrees {s s' : Context × IndexedTable} (h : IndexedSteps π s s')
    (hs : s.2.table = s.1.types ∧ s.2.Agrees) : s'.2.table = s'.1.types ∧ s'.2.Agrees := by
  induction h with
  | refl => exact hs
  | tail _ hstep ih => exact hstep.agrees ih

/-- Whatever steps lowering takes, it can take them with an index as well. -/
theorem Steps.exists_indexed (h : c.Steps π c') {x : IndexedTable} (hx : x.table = c.types ∧ x.Agrees) :
    ∃ x', IndexedSteps π (c, x) (c', x') := by
  induction h with
  | refl => exact ⟨x, .refl⟩
  | @tail mid c' _ hstep ih =>
    obtain ⟨y, hy⟩ := ih
    obtain ⟨htable, hagrees⟩ := hy.agrees hx
    rcases hstep.types_cases with heq | ⟨d, -, hfree, -, heq⟩ | ⟨type, f, -, heq, -, -⟩
    · exact ⟨y, hy.tail (.keep hstep heq)⟩
    · have htypes : mid.types.insert d = .ok (⟨mid.types.size⟩, c'.types) := by
        rw [TypeTable.insert, hfree, heq]
      have hmap := (hagrees.insert d).1
      rw [show y.table = _ from htable, htypes] at hmap
      cases hinsert : y.insert d with
      | error existing =>
        rw [hinsert] at hmap
        cases hmap
      | ok out => exact ⟨_, hy.tail (.insert hstep htypes hinsert)⟩
    · exact ⟨_, hy.tail (.modify type f hstep heq)⟩

theorem steps_serveAll (hπ : ∀ name, π.names name) (c : Context) {rs : List Request}
    (hrs : ∀ d, .type d ∈ rs → d.Bare) : c.Steps π (c.serveAll rs).2 := by
  refine serveAll_rel (fun _ => .refl) .trans (fun _ d => .single (.report d)) (fun c d hd hfree => ?_) c
  refine .single (.register d (hπ _) hfree ⟨(hrs d hd).members, fun b hb => ?_⟩)
  rw [(hrs d hd).bases] at hb
  cases hb

end Context

/-! ## The types of the platform -/

/-- Types that are not among the first `n` may be changed. -/
def Permit.beyond (n : Nat) : Permit :=
  ⟨fun _ => True, fun _ => True, fun id => n ≤ id.index⟩

namespace TypeTable
variable {id : TypeId}

/-- A table of the platform: no type is of the program, and none holds its functions. -/
def IsPlatform (t : TypeTable) : Prop :=
  ∀ d ∈ t.defs, d.origin = .external ∧ d.name ≠ programName

variable {t₀ t : TypeTable}

theorem IsPlatform.le_of_defined (h : t₀.IsPlatform) (hkeeps : t₀.Keeps t)
    (hdefined : (t.get id).origin = .defined) : t₀.size ≤ id.index := by
  by_contra hle
  have hlt : id.index < t₀.size := by omega
  have hexternal := (h _ (t₀.get_mem_defs hlt)).1
  rw [← hkeeps.origin hlt, hdefined] at hexternal
  cases hexternal

theorem IsPlatform.le_of_programName (h : t₀.IsPlatform) (hkeeps : t₀.Keeps t)
    (hid : t.lookup programName = some id) : t₀.size ≤ id.index := by
  obtain ⟨-, hname⟩ := lookup_spec hid
  by_contra hle
  have hlt : id.index < t₀.size := by omega
  exact (h _ (t₀.get_mem_defs hlt)).2 ((hkeeps.name hlt).symm.trans hname)

end TypeTable

section Platform
variable {t₀ : TypeTable}

theorem Lowering.steps_beyond (h : t₀.IsPlatform) (l : Lowering) (hl : l.context.types.Grounded)
    (hkeeps : t₀.Keeps l.context.types) {ds : List (Declaration × Declared)}
    (hds : ∀ d ∈ ds, d.1.decl.Registered l.context.types.Declares d.1.module d.2) :
    l.context.Steps (.beyond t₀.size) (l.fillAll ds).context := by
  refine steps_fillAll (π := .beyond t₀.size) (fun _ _ => trivial) trivial (fun t ht id hid => ?_) hl
    (fun _ _ _ _ => trivial) fun d hd => (hds d hd).imp_of_mem fun id _ def_ hdefined hdeclares => ⟨?_, hdeclares⟩
  · exact h.le_of_programName (hkeeps.trans ht) hid
  · exact h.le_of_defined hkeeps (hdeclares.origin.trans hdefined)

theorem Context.steps_lowerQueue {c : Context} (hc : c.Sound fun _ => True) {queue : List PendingBody}
    (hqueue : ∀ p ∈ queue, t₀.size ≤ p.method.type.index) : c.Steps (.beyond t₀.size) (c.lowerBodies queue) :=
  foldl_rel (fun _ => .refl) .trans id queue fun _ hc' p hp =>
    steps_lowerBody (fun _ _ => trivial) (Steps.sound hc' hc) p (hqueue p hp)

end Platform

/-! ## All states of lowering -/

namespace Compilation
variable (trees : List Tree) (options : Options)

abbrev platform : TypeTable :=
  options.target.install Platform.types

abbrev asked : List Request :=
  requests (platform options).defs (Tree.declarations trees)

/-- The declarations of trees with what they registered. -/
abbrev registrations : List (Declaration × Declared) :=
  (Tree.declarations trees).zip ((start trees options).context.declareAll (Tree.declarations trees)).1

abbrev allRegistered (trees : List Tree) (options : Options) : Context :=
  ((start trees options).context.declareAll (Tree.declarations trees)).2

/-- States that lowering goes through: after some of the requests, with some of the declarations filled in,
and with some of the bodies lowered. -/
inductive Visits (trees : List Tree) (options : Options) : Context → Prop where
  | registering (before after : List Request) : asked trees options = before ++ after →
      Visits trees options ((start trees options).context.serveAll before).2
  | filling (before after : List (Declaration × Declared)) : registrations trees options = before ++ after →
      Visits trees options (fillAll { context := allRegistered trees options } before).context
  | completing (before after : List PendingBody) : (declared trees options).queue = before ++ after →
      Visits trees options ((declared trees options).context.lowerBodies before)

/-- The steps that lowering takes: none of them changes a type of the platform. -/
abbrev Run : Context → Context → Prop :=
  Steps (.beyond (platform options).size)

theorem isPlatform_platform : (platform options).IsPlatform :=
  (external_install options.target).1

section Runs
variable (trees : List Tree) (options : Options) {c : Context}

theorem serveAll_asked : (start trees options).context.serveAll (asked trees options) =
    ((registrations trees options).flatMap fun d => d.1.decl.answers d.2, allRegistered trees options) :=
  serveAll_requests (fun name => by rw [types_start]) (Tree.declarations trees)

theorem run_registering {before after : List Request} (h : asked trees options = before ++ after) :
    Run options (start trees options).context ((start trees options).context.serveAll before).2 ∧
      Run options ((start trees options).context.serveAll before).2 (allRegistered trees options) := by
  have hbare : ∀ d, Request.type d ∈ asked trees options → d.Bare := fun _ => bare_of_mem_requests
  have hend : (allRegistered trees options) =
      ((start trees options).context.serveAll (asked trees options)).2 := by rw [serveAll_asked]
  rw [hend]
  rw [h] at hbare ⊢
  rw [serveAll_append]
  exact ⟨steps_serveAll (fun _ => trivial) _ fun d hd => hbare d (List.mem_append_left _ hd),
    steps_serveAll (fun _ => trivial) _ fun d hd => hbare d (List.mem_append_right _ hd)⟩

theorem run_allRegistered : Run options (start trees options).context (allRegistered trees options) := by
  obtain ⟨hstart, hend⟩ := run_registering trees options (List.append_nil (asked trees options)).symm
  exact hstart.trans hend

theorem keeps_of_run (h : Run options (start trees options).context c) : (platform options).Keeps c.types := by
  have hkeeps := h.keeps
  rw [types_start] at hkeeps
  exact hkeeps

theorem sound_of_run (h : Run options (start trees options).context c) : c.Sound fun _ => True :=
  Steps.sound h (sound_start (fun _ _ => trivial) trees options)

theorem run_filling {before after : List (Declaration × Declared)}
    (h : registrations trees options = before ++ after) : Run options (allRegistered trees options)
        (fillAll { context := allRegistered trees options } before).context ∧
      Run options (fillAll { context := allRegistered trees options } before).context
        (declared trees options).context := by
  have hstart := run_allRegistered trees options
  have hdeclares : ∀ d ∈ before ++ after,
      d.1.decl.Registered (allRegistered trees options).types.Declares d.1.module d.2 := by
    rw [← h]
    exact fun d hd => (registered_declareAll _ _ d hd).imp fun _ _ hholds => hholds.declares
  have hbefore : Run options (allRegistered trees options) (fillAll
      { context := allRegistered trees options } before).context :=
    steps_beyond (isPlatform_platform options) { context := allRegistered trees options }
      (sound_of_run trees options hstart).grounded (keeps_of_run trees options hstart)
      fun d hd => hdeclares d (List.mem_append_left _ hd)
  have hmiddle := hstart.trans hbefore
  refine ⟨hbefore, ?_⟩
  rw [declared, lowerDeclarations_eq]
  change Run options _ (fillAll _ (registrations trees options)).context
  rw [h, fillAll_append]
  exact steps_beyond (isPlatform_platform options) _ (sound_of_run trees options hmiddle).grounded
    (keeps_of_run trees options hmiddle) fun d hd =>
      (hdeclares d (List.mem_append_right _ hd)).imp fun _ _ hd => hd.mono hbefore.keeps

theorem run_declared : Run options (start trees options).context (declared trees options).context := by
  obtain ⟨hstart, hend⟩ := run_filling trees options (List.nil_append (registrations trees options)).symm
  exact (run_allRegistered trees options).trans (hstart.trans hend)

theorem run_completing {before after : List PendingBody} (h : (declared trees options).queue = before ++ after) :
    Run options (declared trees options).context ((declared trees options).context.lowerBodies before) ∧
      Run options ((declared trees options).context.lowerBodies before) (lowered trees options).context := by
  have hdeclared := run_declared trees options
  obtain ⟨es, -, haccounts⟩ := accounts_lowerDeclarations trees options
  have howner : ∀ p ∈ before ++ after, (platform options).size ≤ p.method.type.index := by
    rw [← h]
    intro p hp
    obtain ⟨m, -, -, hdefined⟩ := haccounts.methodEntry_of_mem_queue hp
    exact (isPlatform_platform options).le_of_defined (keeps_of_run trees options hdeclared) hdefined
  have hbefore : Run options (declared trees options).context ((declared trees options).context.lowerBodies before) :=
    steps_lowerQueue (sound_of_run trees options hdeclared) fun p hp => howner p (List.mem_append_left _ hp)
  refine ⟨hbefore, ?_⟩
  change Run options _ ((declared trees options).context.lowerBodies (declared trees options).queue)
  rw [h, Context.lowerBodies, Context.lowerBodies, List.foldl_append]
  exact steps_lowerQueue (sound_of_run trees options (hdeclared.trans hbefore))
    fun p hp => howner p (List.mem_append_right _ hp)

/-- Whatever state lowering goes through, there are steps that lead to it, and steps from it to the end. -/
theorem run_of_visits (h : Visits trees options c) :
    Run options (start trees options).context c ∧ Run options c (lowered trees options).context := by
  obtain ⟨-, hend⟩ := run_completing trees options (List.nil_append (declared trees options).queue).symm
  have hend : Run options (declared trees options).context (lowered trees options).context := hend
  cases h with
  | registering before after h =>
    obtain ⟨hbefore, hafter⟩ := run_registering trees options h
    obtain ⟨hfill, hdeclared⟩ := run_filling trees options (List.nil_append (registrations trees options)).symm
    exact ⟨hbefore, hafter.trans (hfill.trans (hdeclared.trans hend))⟩
  | filling before after h =>
    obtain ⟨hbefore, hafter⟩ := run_filling trees options h
    exact ⟨(run_allRegistered trees options).trans hbefore, hafter.trans hend⟩
  | completing before after h =>
    obtain ⟨hbefore, hafter⟩ := run_completing trees options h
    exact ⟨(run_declared trees options).trans hbefore, hafter⟩

end Runs

theorem consistent_platform : (platform options).Consistent := by
  have hapart := (namesApart_install options.target).types
  rw [consistent_iff]
  intro id hid
  cases hlookup : (platform options).lookup ((platform options).get id).name with
  | none => exact absurd rfl ((lookup_eq_none_iff _ _).mp hlookup id hid)
  | some first =>
    obtain ⟨hlt, hname⟩ := lookup_spec hlookup
    rw [hapart first id hlt hid hname]

abbrev IndexedRun : Context × IndexedTable → Context × IndexedTable → Prop :=
  IndexedSteps (.beyond (platform options).size)

theorem indexes_platform (options : Options) :
    (IndexedTable.ofList (platform options).defs).table = platform options := by
  unfold platform
  cases options.target <;> decide +kernel

/-- Lowering is a run of steps through the states that it visits. At each of them a name leads to a type if
and only if it is the name of this type, types that are there stay as they were registered, under their
names, and those of the platform stay as they are. The same steps can be taken with an index, and then it is the
index that leads from a name to its type. Of all that declarations ask for, the first of a name
gets it; whoever asks later gets one report, and it makes no difference to the rest. -/
theorem registration (trees : List Tree) (options : Options) :
    (∀ c, Visits trees options c → Run options (start trees options).context c ∧
      Run options c (lowered trees options).context) ∧
    (∀ c, Run options (start trees options).context c → c.types.Consistent ∧
      (∀ id, id.index < (platform options).size → c.types.get id = (platform options).get id) ∧
      ∀ name id, (platform options).lookup name = some id → c.types.lookup name = some id) ∧
    (∀ c, Run options (start trees options).context c → ∃ x,
      IndexedRun options ((start trees options).context, .ofList (platform options).defs) (c, x)) ∧
    (∀ c x, IndexedRun options ((start trees options).context, .ofList (platform options).defs) (c, x) →
      x.defs = c.types.defs ∧
        ∀ name id, x.lookup name = some id ↔ id.index < c.types.size ∧ (c.types.get id).name = name) ∧
    (∀ c c', Run options (start trees options).context c → Run options c c' →
      ∀ id, id.index < c.types.size → id.index < c'.types.size ∧
        (c'.types.get id).head = (c.types.get id).head ∧
        c'.types.lookup (c.types.get id).name = some id) ∧
    (∀ before d after, asked trees options = before ++ .type d :: after →
      ((start trees options).context.serveAll before).2.Settles
        ((platform options).defs ++ before.filterMap Request.type?) d) ∧
    (start trees options).context.serveAll (asked trees options) =
      ((registrations trees options).flatMap fun d => d.1.decl.answers d.2,
        allRegistered trees options) ∧
    declared trees options = Lowering.fillAll { context := allRegistered trees options }
      ((registrations trees options).filterMap Declaration.granted) := by
  have hstart : (start trees options).context.types.Consistent := by
    rw [types_start]
    exact consistent_platform options
  have hindexed : (IndexedTable.ofList (platform options).defs).table = (start trees options).context.types ∧
      (IndexedTable.ofList (platform options).defs).Agrees := by
    rw [types_start, indexes_platform]
    exact ⟨rfl, .ofList _⟩
  refine ⟨fun c => run_of_visits trees options, fun c hc => ⟨hc.consistent hstart, fun id hid => ?_,
    fun name id => (keeps_of_run trees options hc).lookup⟩, fun c hc => hc.exists_indexed hindexed,
    fun c x hx => ?_, fun c c' hc hc' id hid => ?_,
    fun before d after hsplit => Context.serve_type ?_, serveAll_asked trees options, ?_⟩
  · rw [Context.Steps.get_eq hc (by rw [types_start]; exact hid) (Nat.not_le_of_lt hid), types_start]
  · obtain ⟨htable, hagrees⟩ := hx.agrees hindexed
    have hconsistent := Context.Steps.consistent (hx.lift Prod.fst fun _ _ h => h.step) hstart
    refine ⟨congrArg TypeTable.defs htable, fun name id => ?_⟩
    rw [hagrees name, show x.table = _ from htable]
    exact hconsistent name id
  · refine ⟨hid.trans_le hc'.keeps.size, hc'.keeps.head id hid, hc'.keeps.lookup ?_⟩
    exact TypeTable.consistent_iff.mp (hc.consistent hstart) id hid
  · rw [Context.firstNamed_serveAll, types_start]
  · rw [declared, Context.lowerDeclarations_eq]
    exact Lowering.fillAll_granted _ _

end Compilation

end TreeCompiler
