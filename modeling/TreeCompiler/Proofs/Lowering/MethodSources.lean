import TreeCompiler.Proofs.Lowering.Names

/-!
# Methods and their sources

Every method of the program has one source: a declaration, or a variant that gets a constructor. Declarations
of methods are entered one after the other; one that repeats the signature of an earlier method of its type
is refused, and the refusal is reported.
-/

namespace TreeCompiler

open List TypeTable Defect
open Lowering (programName entryName)

/-! ## Sources and entries -/

inductive Source where
  /-- A method `name` of the type `owner`, declared in the type or as a function. -/
  | declared (owner module : QualifiedName) (name : String) (isStatic : Bool) (decl : FnDecl)
  /-- The constructor of a variant. -/
  | variant (owner : QualifiedName) (decl : Variant)

namespace Source

def owner : Source → QualifiedName
  | .declared owner .. => owner
  | .variant owner _ => owner

def name : Source → String
  | .declared _ _ name .. => name
  | .variant .. => ".ctor"

def span : Source → Span
  | .declared _ _ _ _ d => d.span
  | .variant _ v => v.span

/-- `m` is the method that the source describes: what its declaration says, or a constructor that takes the
fields of the variant. -/
def Describes : Source → Method → Prop
  | .declared _ module name isStatic d, m =>
    ∃ owner c, m = (Lowering.method module owner c d name isStatic).1
  | .variant _ v, m => m.name = ".ctor" ∧ m.isStatic = false ∧ m.isConstructor = true ∧
    m.params.map (·.name) = v.fields.map (·.name) ∧ m.body.isSome = true ∧ m.span = v.span

end Source

inductive Verdict where
  | added (place : MethodRef)
  | refused (report : Diagnostic)

/-- A source, the method that it described and what became of it. -/
structure Entry where
  source : Source
  method : Method
  verdict : Verdict

namespace Entry
variable (e : Entry)

def place? : Option MethodRef :=
  match e.verdict with
  | .added place => some place
  | .refused _ => none

def report? : Option Diagnostic :=
  match e.verdict with
  | .added _ => none
  | .refused report => some report

/-- The body that waits for a method that was declared with one and was added. -/
def pending? : Option PendingBody :=
  match e.source, e.verdict with
  | .declared _ module _ _ d, .added place => d.body.map fun body => { method := place, module, body }
  | _, _ => none

/-- `first` was added to the same type and has the same signature. -/
structure Rivals (first e : Entry) : Prop where
  added : first.place?.isSome = true
  owner : first.source.owner = e.source.owner
  signature : first.method.sameSignature e.method = true

/-- The rule by which an entry is added or refused after those `before` it. A constructor of a variant is
always added. -/
def Settled (before : List Entry) (e : Entry) : Prop :=
  match e.source, e.verdict with
  | .declared .., .added _ => ∀ first ∈ before, ¬ first.Rivals e
  | .declared owner _ name _ d, .refused report => ∃ first ∈ before, first.Rivals e ∧
      report = .duplicate s!"Function '{owner.text}.{name}' is already defined." d.span first.method.span
  | .variant .., .added _ => True
  | .variant .., .refused _ => False

end Entry

namespace Lowering

/-- The entries account for all methods of the program, for all bodies that wait and for all reports of
taken names since `base`. -/
structure Accounts (l : Lowering) (base : List Diagnostic) (es : List Entry) : Prop where
  apart : l.context.types.NamesApart
  describes : ∀ e ∈ es, e.source.Describes e.method
  /-- What was added is where its entry says, in the type that its source says. -/
  placed : ∀ e ∈ es, ∀ m, e.place? = some m → l.context.types.methodEntry m = .ok e.method ∧
    (l.context.types.get m.type).name = e.source.owner ∧
    (l.context.types.get m.type).origin = .defined
  /-- No method of the program is without an entry. -/
  complete : ∀ m c, l.context.types.methodEntry m = .ok c →
    (l.context.types.get m.type).origin = .defined → ∃ e ∈ es, e.place? = some m
  distinct : (es.filterMap Entry.place?).Nodup
  settled : ∀ before e after, es = before ++ e :: after → e.Settled before
  queue : l.queue = es.filterMap Entry.pending?
  duplicates : l.context.duplicates = base ++ es.filterMap Entry.report?

end Lowering

/-! ## States with the same methods -/

namespace Context
variable {c c' : Context}

theorem Fill.noMethods (h : c.Fill .noMethods c') :
    (∀ id, (c'.types.get id).methods = (c.types.get id).methods) ∧ c'.duplicates = c.duplicates := by
  refine ⟨h.methods_cases.resolve_right fun ⟨_, _, harity, _⟩ => harity, ?_⟩
  cases h with
  | look h => exact h.duplicates
  | refuse _ _ harity => exact harity.elim
  | _ => rfl

theorem Fills.noMethods (h : c.Fills .noMethods c') :
    (∀ id, (c'.types.get id).methods = (c.types.get id).methods) ∧ c'.duplicates = c.duplicates := by
  induction h with
  | refl => exact ⟨fun _ => rfl, rfl⟩
  | tail _ hlast ih =>
    obtain ⟨hmethods, hduplicates⟩ := hlast.noMethods
    exact ⟨fun id => (hmethods id).trans (ih.1 id), hduplicates.trans ih.2⟩

end Context

theorem Grant.Owns.noMethods {t : TypeTable} {id : TypeId} {d : TypeDef} (h : id.index < t.size) :
    Grant.noMethods.Owns t id d :=
  ⟨trivial, trivial, h, nofun⟩

/-! ## Entries one after the other -/

theorem TypeTable.methodEntry_addMethod_iff (t : TypeTable) {owner : TypeId} (howner : owner.index < t.size)
    (new : Method) (m : MethodRef) (c : Method) : (t.addMethod owner new).2.methodEntry m = .ok c ↔
      t.methodEntry m = .ok c ∨ m = (t.addMethod owner new).1 ∧ c = new := by
  unfold methodEntry addMethod
  rw [entry_eq_ok_iff, entry_eq_ok_iff]
  by_cases htype : m.type = owner
  · subst htype
    rw [get_modify_self t _ _ howner, getElem?_append, getElem?_singleton]
    have hplace : m = ⟨m.type, (t.get m.type).methods.length⟩ ↔ m.index = (t.get m.type).methods.length := by
      cases m
      simp
    dsimp only
    rw [hplace]
    split
    next hlt =>
      have hne : m.index ≠ (t.get m.type).methods.length := Nat.ne_of_lt hlt
      simp [hne]
    next hle =>
      rw [getElem?_eq_none (Nat.le_of_not_lt hle)]
      split
      next hzero =>
        have heq : m.index = (t.get m.type).methods.length := by omega
        simp [heq, eq_comm]
      next hpos =>
        have hne : m.index ≠ (t.get m.type).methods.length := by omega
        simp [hne]
  · rw [get_modify_of_ne t owner _ m.type htype]
    have hne : m ≠ ⟨owner, (t.get owner).methods.length⟩ := fun heq => htype (congrArg MethodRef.type heq)
    simp [hne]

namespace Entry

theorem place?_eq_some_iff {e : Entry} {m : MethodRef} : e.place? = some m ↔ e.verdict = .added m := by
  unfold place?
  cases e.verdict <;> simp

theorem settled_concat {es : List Entry} {new : Entry}
    (h : ∀ before e after, es = before ++ e :: after → e.Settled before) (hnew : new.Settled es) :
    ∀ before e after, es ++ [new] = before ++ e :: after → e.Settled before := by
  intro before e after hsplit
  rcases eq_nil_or_concat after with rfl | ⟨after', last, rfl⟩
  · obtain ⟨rfl, heq⟩ := append_inj_left' hsplit rfl, append_inj_right' hsplit rfl
    cases heq
    exact hnew
  · rw [concat_eq_append, ← cons_append, ← append_assoc] at hsplit
    exact h before e after' (append_inj_left' hsplit rfl)

end Entry

namespace Lowering
variable {owner : TypeId}

namespace Accounts
variable {l : Lowering} {base : List Diagnostic} {es : List Entry} {e : Entry} (h : l.Accounts base es)
include h

theorem withContext {c : Context} (hc : l.context.Fills .noMethods c) : (l.withContext c).Accounts base es := by
  have hkeeps := hc.keeps
  obtain ⟨hmethods, hduplicates⟩ := hc.noMethods
  have hentry : ∀ m : MethodRef, c.types.methodEntry m = l.context.types.methodEntry m := by
    intro m
    rw [methodEntry, methodEntry, hmethods]
  refine ⟨hc.namesApart h.apart, h.describes, fun e he m hm => ?_, fun m m' hm' hdefined => ?_,
    h.distinct, h.settled, h.queue, hduplicates.trans h.duplicates⟩
  · obtain ⟨hmethod, hname, horigin⟩ := h.placed e he m hm
    have hlt := lt_size_of_methodEntry hmethod
    exact ⟨(hentry m).trans hmethod, (hkeeps.name hlt).trans hname, (hkeeps.origin hlt).trans horigin⟩
  · have hold : l.context.types.methodEntry m = .ok m' := (hentry m).symm.trans hm'
    refine h.complete m m' hold ?_
    exact (hkeeps.origin (lt_size_of_methodEntry hold)).symm.trans hdefined

theorem exists_entry {m : MethodRef} {c : Method} (hm : l.context.types.methodEntry m = .ok c)
    (hdefined : (l.context.types.get m.type).origin = .defined) : ∃ e ∈ es, e.place? = some m ∧ e.method = c := by
  obtain ⟨e, he, hplace⟩ := h.complete m c hm hdefined
  have hmethod := (h.placed e he m hplace).1
  cases hmethod.symm.trans hm
  exact ⟨e, he, hplace, rfl⟩

theorem refuse {report : Diagnostic} (he : e.verdict = .refused report) (hdescribes : e.source.Describes e.method)
    (hsettled : e.Settled es) (hcode : report.code = some .duplicateDeclaration) :
    (l.withContext (l.context.push report)).Accounts base (es ++ [e]) := by
  have hplace : e.place? = none := by rw [Entry.place?, he]
  have hreport : e.report? = some report := by rw [Entry.report?, he]
  have hpending : e.pending? = none := by
    rw [Entry.pending?, he]
    split <;> simp_all
  refine ⟨h.apart, forall_mem_concat h.describes hdescribes, forall_mem_concat h.placed fun m hm => ?_,
    fun m c hm hdefined => ?_, ?_, Entry.settled_concat h.settled hsettled, ?_, ?_⟩
  · cases hplace.symm.trans hm
  · obtain ⟨e', he', hplace'⟩ := h.complete m c hm hdefined
    exact ⟨e', mem_append_left _ he', hplace'⟩
  · simpa [filterMap_append, hplace] using h.distinct
  · simpa [filterMap_append, hpending, Lowering.withContext] using h.queue
  · have hpush : (l.context.push report).duplicates = l.context.duplicates ++ [report] := by
      simp [Context.duplicates, Context.push, filter_append, hcode]
    rw [filterMap_append, ← append_assoc, ← h.duplicates]
    simpa [hreport, Lowering.withContext] using hpush

theorem add (howner : owner.index < l.context.types.size) (hdefined : (l.context.types.get owner).origin = .defined)
    (hname : (l.context.types.get owner).name = e.source.owner)
    (he : e.verdict = .added (l.context.types.addMethod owner e.method).1) (hdescribes : e.source.Describes e.method)
    (hsettled : e.Settled es) (hapart : (l.context.types.addMethod owner e.method).2.NamesApart) :
    Accounts { context := l.context.withTypes (l.context.types.addMethod owner e.method).2
               queue := l.queue ++ e.pending?.toList } base (es ++ [e]) := by
  have hplace : e.place? = some (l.context.types.addMethod owner e.method).1 := by rw [Entry.place?, he]
  have hreport : e.report? = none := by rw [Entry.report?, he]
  have hkeeps := l.context.types.keeps_addMethod owner e.method
  have hentry := l.context.types.methodEntry_addMethod_iff howner e.method
  have hfresh : ∀ c, l.context.types.methodEntry (l.context.types.addMethod owner e.method).1 ≠ .ok c := by
    intro c hc
    have hsome := entry_eq_ok_iff.mp hc
    exact absurd (List.getElem?_eq_some_iff.mp hsome).1 (Nat.lt_irrefl _)
  refine ⟨hapart, forall_mem_concat h.describes hdescribes, forall_mem_concat (fun e' he' m hm => ?_) fun m hm => ?_,
    fun m c hm hdefined' => ?_, ?_, Entry.settled_concat h.settled hsettled, ?_, ?_⟩
  · obtain ⟨hmethod, hname', horigin⟩ := h.placed e' he' m hm
    have hlt := lt_size_of_methodEntry hmethod
    exact ⟨(hentry m _).mpr (Or.inl hmethod), (hkeeps.name hlt).trans hname', (hkeeps.origin hlt).trans horigin⟩
  · cases hplace.symm.trans hm
    exact ⟨(hentry _ _).mpr (Or.inr ⟨rfl, rfl⟩), (hkeeps.name howner).trans hname,
      (hkeeps.origin howner).trans hdefined⟩
  · rcases (hentry m c).mp hm with hold | ⟨rfl, -⟩
    · have hlt := lt_size_of_methodEntry hold
      obtain ⟨e', he', hplace'⟩ := h.complete m c hold ((hkeeps.origin hlt).symm.trans hdefined')
      exact ⟨e', mem_append_left _ he', hplace'⟩
    · exact ⟨e, mem_append_right _ mem_cons_self, hplace⟩
  · rw [filterMap_append, nodup_append]
    refine ⟨h.distinct, by simp [hplace], fun m hm m' hm' heq => ?_⟩
    obtain ⟨e', he', hplace'⟩ := mem_filterMap.mp hm
    simp only [filterMap_cons, hplace, filterMap_nil, mem_singleton] at hm'
    subst heq hm'
    exact hfresh _ (h.placed e' he' _ hplace').1
  · cases hpending : e.pending? <;> simp [hpending, h.queue]
  · rw [filterMap_append, ← append_assoc, ← h.duplicates]
    simp [hreport, Context.duplicates, Context.withTypes]

end Accounts

/-- From `l` to `l'` there is one entry more for each of the sources. -/
structure Records (l l' : Lowering) (sources : List Source) : Prop where
  keeps : l.context.types.Keeps l'.context.types
  entries : ∀ base es, l.Accounts base es →
    ∃ new, new.map Entry.source = sources ∧ l'.Accounts base (es ++ new)

namespace Records
variable {l l' l'' : Lowering}

theorem refl (l : Lowering) : l.Records l [] :=
  ⟨.refl _, fun _ es h => ⟨[], rfl, (append_nil es).symm ▸ h⟩⟩

theorem trans {sources sources' : List Source} (h : l.Records l' sources)
    (h' : l'.Records l'' sources') : l.Records l'' (sources ++ sources') := by
  refine ⟨h.keeps.trans h'.keeps, fun base es hes => ?_⟩
  obtain ⟨new, hnew, haccounts⟩ := h.entries base es hes
  obtain ⟨new', hnew', haccounts'⟩ := h'.entries base _ haccounts
  refine ⟨new ++ new', ?_, append_assoc es new new' ▸ haccounts'⟩
  rw [map_append, hnew, hnew']

theorem of_fills (l : Lowering) {c : Context} (hc : l.context.Fills .noMethods c) : l.Records (l.withContext c) [] :=
  ⟨hc.keeps, fun _ es h => ⟨[], rfl, (append_nil es).symm ▸ h.withContext hc⟩⟩

theorem foldl {α : Type} {f : Lowering → α → Lowering} {sources : α → List Source} (as : List α)
    (hf : ∀ l' : Lowering, l.context.types.Keeps l'.context.types → ∀ a ∈ as, l'.Records (f l' a) (sources a)) :
    l.Records (as.foldl f l) (as.flatMap sources) := by
  induction as generalizing l with
  | nil => exact .refl l
  | cons a as ih =>
    have hfirst := hf l (.refl _) a mem_cons_self
    rw [flatMap_cons]
    refine hfirst.trans (ih fun l' hl' b hb => ?_)
    exact hf l' (hfirst.keeps.trans hl') b (mem_cons_of_mem _ hb)

end Records

/-! ## Declarations of methods -/

theorem Accounts.not_rivals {l : Lowering} {base : List Diagnostic} {es : List Entry} (h : l.Accounts base es)
    (howner : owner.index < l.context.types.size) {e : Entry}
    (hname : (l.context.types.get owner).name = e.source.owner)
    (hfirst : ∀ first ∈ (l.context.types.get owner).methods, first.sameSignature e.method = false) :
    ∀ first ∈ es, ¬ first.Rivals e := by
  intro first hmem hrivals
  obtain ⟨m, hplace⟩ := Option.isSome_iff_exists.mp hrivals.added
  obtain ⟨hmethod, hfirstName, -⟩ := h.placed first hmem m hplace
  have htype : m.type = owner := by
    refine h.apart.types m.type owner (lt_size_of_methodEntry hmethod) howner ?_
    rw [hfirstName, hrivals.owner, hname]
  have hfound := mem_of_getElem? (entry_eq_ok_iff.mp hmethod)
  rw [htype] at hfound
  have hsame := hrivals.signature
  rw [hfirst _ hfound] at hsame
  cases hsame

/-- A declaration of a method is entered: it is added, or it is refused because of an earlier entry. -/
theorem records_addMethod (l : Lowering) (module : QualifiedName) (howner : owner.index < l.context.types.size)
    (hdefined : (l.context.types.get owner).origin = .defined) (d : FnDecl) (name : String) (isStatic : Bool) :
    l.Records (l.addMethod module owner d name isStatic).2
      [.declared (l.context.types.get owner).name module name isStatic d] := by
  have hmethod := instantiates_method module owner l.context d name isStatic
  have hkeeps := hmethod.types.keeps
  refine ⟨(edits_addMethod (π := .basesOf fun _ => False) nofun module trivial d trivial name isStatic).1.keeps,
    fun base es h => ?_⟩
  have h₁ := h.withContext hmethod.fills
  have hname := hkeeps.name howner
  have horigin := (hkeeps.origin howner).trans hdefined
  have hlt := howner.trans_le hkeeps.size
  have hdescribes : Source.Describes (.declared (l.context.types.get owner).name module name isStatic d)
      (method module owner l.context d name isStatic).1 := ⟨owner, l.context, rfl⟩
  unfold addMethod
  dsimp only
  generalize method module owner l.context d name isStatic = r at h₁ hname horigin hlt hdescribes ⊢
  obtain ⟨m, c⟩ := r
  dsimp only at h₁ hname horigin hlt hdescribes ⊢
  split
  next first hfirst =>
    obtain ⟨i, hi⟩ := mem_iff_getElem?.mp (mem_of_find?_eq_some hfirst)
    obtain ⟨e, he, hplace, hmethod⟩ := h₁.exists_entry (m := ⟨owner, i⟩) (entry_eq_ok_iff.mpr hi) horigin
    have howned := (h₁.placed e he _ hplace).2.1
    have hsame := find?_some hfirst
    refine ⟨[⟨.declared (l.context.types.get owner).name module name isStatic d, m, .refused _⟩], rfl,
      h₁.refuse rfl hdescribes ⟨e, he, ⟨Option.isSome_iff_exists.mpr ⟨_, hplace⟩, ?_, ?_⟩, ?_⟩ rfl⟩
    · exact howned.symm.trans hname
    · exact hmethod ▸ hsame
    · rw [hmethod]
      exact congrArg (fun n : QualifiedName => Diagnostic.duplicate
        s!"Function '{n.text}.{name}' is already defined." d.span first.span) hname
  next hnone =>
    have hfirst : ∀ first ∈ (c.types.get owner).methods, first.sameSignature m = false :=
      fun first hmem => eq_false_of_ne_true (find?_eq_none.mp hnone first hmem)
    let e : Entry := ⟨.declared (l.context.types.get owner).name module name isStatic d, m,
      .added (c.types.addMethod owner m).1⟩
    have hadd := h₁.add (e := e) hlt horigin hname rfl hdescribes
      (h₁.not_rivals (e := e) hlt hname hfirst) (h₁.apart.addMethod owner fun first hmem _ _ => hfirst first hmem)
    refine ⟨[e], rfl, ?_⟩
    cases hd : d.body <;> simpa [e, Entry.pending?, hd, withContext] using hadd

end Lowering

/-- The method of a type that a member declares. -/
def Member.source? (owner module : QualifiedName) : Member → Option Source
  | .method d => some (.declared owner module d.name false d)
  | _ => none

namespace Lowering
variable {self : TypeId} (l : Lowering) (module : QualifiedName)

theorem records_addMember {owner : TypeId} (howner : owner.index < l.context.types.size)
    (hdefined : (l.context.types.get owner).origin = .defined) (m : Member) :
    l.Records (addMember module owner l m) (m.source? (l.context.types.get owner).name module).toList := by
  cases m with
  | field d => exact .of_fills l (l.edits_addField module trivial d).fills
  | method d => exact records_addMethod l module howner hdefined d d.name false
  | property d => exact .of_fills l (edits_addProperty (π := .noMethods) nofun module trivial d).fills
  | error span => exact .of_fills l (Context.Consults.report _ (by decide) _ _ _).fills

theorem records_fillType (d : TypeDecl)
    (hself : l.context.types.Declares self { d.typeDef module with span := d.span }) :
    l.Records (l.fillType module self d) (d.members.filterMap (Member.source? (module.child d.name) module)) := by
  have hc := edits_headed (π := .noMethods) module nofun nofun d (.noMethods hself.lt_size)
  have hmembers : (l.withContext (headed module self l.context d)).Records (l.fillType module self d)
      (d.members.flatMap fun m => (m.source? (module.child d.name) module).toList) := by
    refine .foldl d.members fun l' hl' m _ => ?_
    have hself' := (hself.mono hc.keeps).mono hl'
    have hname : (l'.context.types.get self).name = module.child d.name := TypeDef.name_of_head hself'.head
    exact hname ▸ records_addMember l' module hself'.lt_size hself'.origin m
  rw [filterMap_eq_flatMap_toList]
  exact (Records.of_fills l hc.fills).trans hmembers

/-! ## Variants -/

/-- The constructor of a variant whose fields are in the table. -/
def variantCtor (objectCtor : Option MethodRef) (void : Option TypeId) (v : Variant)
    (fields : List (FieldRef × Parameter)) : Method :=
  { name := ".ctor"
    returnType := void
    params := fields.map (·.2)
    isConstructor := true
    body := some (variantBody objectCtor (fields.map (·.1)))
    span := v.span }

theorem names_addVariantFields (module : QualifiedName) (self : TypeId) (c : Context) (fs : List VariantField) :
    (Context.traverse (addVariantField module self) c fs).1.map (·.2.name) = fs.map (·.name) := by
  induction fs generalizing c with
  | nil => rfl
  | cons f fs ih => exact congrArg (f.name :: ·) (ih _)

/-- A variant that was registered gets a constructor. -/
theorem records_fillVariant {base : TypeId} (hbase : base.index < l.context.types.size)
    (objectCtor : Option MethodRef) (void : Option TypeId) (v : Variant)
    (hself : l.context.types.Declares self { definedType module v.name with isSealed := true, span := v.span }) :
    l.Records (l.withContext (fillVariant module base objectCtor void l.context (v, some self)))
      [.variant (module.child v.name) v] := by
  have hrevise : l.context.Fills .noMethods _ :=
    (edits_variantBase (π := .noMethods) module hbase nofun v (.noMethods hself.lt_size)).fills
  have hfields : l.context.Fills .noMethods _ := hrevise.trans
    (edits_addVariantFields module trivial (hself.mono hrevise.keeps).lt_size v.fields).1.fills
  have hnames := names_addVariantFields module self
    (l.context.modifyType self fun d => { d with bases := d.bases ++ [base] }) v.fields
  refine ⟨hfields.keeps.trans (keeps_addMethod _ self _), fun base' es h => ?_⟩
  have h₁ := h.withContext hfields
  have hself₁ := hself.mono hfields.keeps
  unfold fillVariant
  dsimp only
  generalize Context.traverse (addVariantField module self)
    (l.context.modifyType self fun d => { d with bases := d.bases ++ [base] }) v.fields = r
    at h₁ hself₁ hnames ⊢
  obtain ⟨fields, c⟩ := r
  have happart : (c.types.addMethod self (variantCtor objectCtor void v fields)).2.NamesApart :=
    h₁.apart.addMethod self fun _ _ => nofun
  have hnames : (variantCtor objectCtor void v fields).params.map (·.name) = v.fields.map (·.name) := by
    simpa [variantCtor, Function.comp_def] using hnames
  let e : Entry := ⟨.variant (module.child v.name) v, variantCtor objectCtor void v fields,
    .added (c.types.addMethod self (variantCtor objectCtor void v fields)).1⟩
  have hadd := h₁.add (e := e) hself₁.lt_size hself₁.origin (TypeDef.name_of_head hself₁.head) rfl
    ⟨rfl, rfl, rfl, hnames, rfl, rfl⟩ trivial happart
  refine ⟨[e], rfl, ?_⟩
  simpa [e, Entry.pending?, withContext, variantCtor] using hadd

end Lowering

/-- The constructor of a variant, if the variant was registered. -/
def Variant.source? (module : QualifiedName) (v : Variant × Option TypeId) : Option Source :=
  v.2.map fun _ => .variant (module.child v.1.name) v.1

namespace Lowering
variable (l : Lowering) (module : QualifiedName) (d : FnDecl)

theorem records_fillTaggedUnion {base : TypeId} {variants : List (Option TypeId)} (d : TaggedUnionDecl)
    (hlt : base.index < l.context.types.size) (hvariants : Forall₂ (fun (v : Variant) type => ∀ id, type = some id →
      l.context.types.Declares id { definedType module v.name with isSealed := true, span := v.span })
      d.variants variants) : l.Records (l.withContext (fillTaggedUnion l.context module base variants d))
      ((d.variants.zip variants).filterMap (Variant.source? module)) := by
  have hbase := (edits_unionBase (π := .noMethods) (c := l.context) module d (.noMethods hlt)).fills
  unfold fillTaggedUnion
  dsimp only
  generalize describe (l.context.attributes module d.annotations .classes).2 base
    (l.context.types.system? "Object").toList (l.context.attributes module d.annotations .classes).1
    d.modifiers = c at hbase ⊢
  -- the fold is over contexts, and each of them is put into the same state of lowering
  have hfold : ∀ vs : List (Variant × Option TypeId), ∀ c : Context,
      l.context.types.Keeps c.types → (∀ v ∈ vs, v ∈ d.variants.zip variants) →
      (l.withContext c).Records (l.withContext (vs.foldl (fillVariant module base
        l.context.types.objectCtor? (l.context.types.primitive? .void)) c))
        (vs.filterMap (Variant.source? module)) := by
    intro vs
    induction vs with
    | nil => exact fun c _ _ => .refl _
    | cons v vs ih =>
      intro c hkeeps hmem
      obtain ⟨v, type⟩ := v
      have hrest := fun v' hv' => hmem v' (mem_cons_of_mem _ hv')
      cases type with
      | none => exact ih c hkeeps hrest
      | some self =>
        have hself := (forall₂_iff_zip.mp hvariants).2 (hmem _ mem_cons_self) self rfl
        have hfirst := records_fillVariant (l.withContext c) module (hlt.trans_le hkeeps.size)
          l.context.types.objectCtor? (l.context.types.primitive? .void) v (hself.mono hkeeps)
        exact hfirst.trans (ih _ (hkeeps.trans hfirst.keeps) hrest)
  exact (Records.of_fills l hbase).trans (hfold _ c hbase.keeps fun v hv => hv)

/-! ## Functions and declarations -/

def functionName : String :=
  if d.name = "main" then entryName else d.name

theorem records_addFunction :
    l.Records (l.addFunction module d) [.declared programName module (functionName d) true d] := by
  obtain ⟨hlt, hname⟩ := lookup_spec (lookup_programType l.context)
  obtain ⟨entry, heq⟩ := l.addFunction_eq_addMethod module d
  refine ⟨(edits_addFunction (π := .basesOf fun _ => False) module trivial nofun d trivial
    fun _ _ => trivial).keeps, fun base es h => ?_⟩
  have h₁ := h.withContext (edits_programType trivial l.context).fills
  obtain ⟨new, hnew, h₂⟩ := (records_addMethod (l.withContext (programType l.context).2) module hlt
    (h₁.apart.functions _ hname) d (functionName d) true).entries base es h₁
  refine ⟨new, ?_, ?_⟩
  · exact hnew.trans (congrArg (fun n => [Source.declared n module (functionName d) true d]) hname)
  · rw [heq]
    exact ⟨h₂.apart, h₂.describes, h₂.placed, h₂.complete, h₂.distinct, h₂.settled, h₂.queue, h₂.duplicates⟩

end Lowering

/-- The methods that a declaration is a source of, given what it registered. -/
def Declaration.sources (d : Declaration) (declared : Declared) : List Source :=
  match d.decl, declared with
  | .type t, .type _ => t.members.filterMap (Member.source? (d.module.child t.name) d.module)
  | .taggedUnion u, .taggedUnion _ variants =>
    (u.variants.zip variants).filterMap (Variant.source? d.module)
  | .fn f, _ => [.declared programName d.module (Lowering.functionName f) true f]
  | _, _ => []

namespace Lowering

theorem records_fill (l : Lowering) (d : Declaration) {declared : Declared}
    (hdeclared : d.decl.Registered l.context.types.Declares d.module declared) :
    l.Records (fill d.module l (d.decl, declared)) (d.sources declared) := by
  obtain ⟨module, d⟩ := d
  dsimp only at hdeclared ⊢
  cases d with
  | type d =>
    cases declared with
    | type id => exact records_fillType l module d hdeclared
    | _ => exact .refl l
  | enum d =>
    cases declared with
    | type id =>
      exact .of_fills l (edits_fillEnum (π := .noMethods) module nofun d (.noMethods hdeclared.lt_size)).fills
    | _ => exact .refl l
  | taggedUnion d =>
    cases declared with
    | taggedUnion base variants =>
      exact records_fillTaggedUnion l module d hdeclared.1.lt_size hdeclared.2
    | _ => exact .refl l
  | union d =>
    cases declared with
    | type id => exact .of_fills l (edits_fillUnion module d (.noMethods hdeclared.lt_size)).fills
    | _ => exact .refl l
  | fn d => cases declared <;> exact records_addFunction l module d
  | error span => cases declared <;> exact .refl l

/-- All declarations are entered in order. -/
theorem records_fillAll (l : Lowering) (ds : List (Declaration × Declared))
    (hds : ∀ d ∈ ds, d.1.decl.Registered l.context.types.Declares d.1.module d.2) :
    l.Records (l.fillAll ds) (ds.flatMap fun d => d.1.sources d.2) := by
  refine .foldl ds fun l' hl' d hd => records_fill l' d.1 ?_
  exact (hds d hd).imp fun _ _ hdeclares => hdeclares.mono hl'

end Lowering

/-! ## Programs -/

/-- What trees are sources of: the methods of the types that they registered, the constructors of the
variants, and the functions, in the order in which they are written. -/
def Context.sources (c : Context) (trees : List Tree) : List Source :=
  ((Tree.declarations trees).zip (c.declareAll (Tree.declarations trees)).1).flatMap
    fun d => d.1.sources d.2

namespace Compilation

theorem accounts_declareAll (trees : List Tree) (options : Options) (ds : List Declaration) :
    Lowering.Accounts { context := ((start trees options).context.declareAll ds).2 }
      ((start trees options).context.declareAll ds).2.duplicates [] := by
  have hextends := ((start trees options).context.brings_declareAll ds).types
  rw [types_start] at hextends
  refine ⟨hextends.namesApart (namesApart_install options.target), ?_, ?_,
    fun m c hm hdefined => ?_, nodup_nil, ?_, rfl, (append_nil _).symm⟩
  · simp
  · simp
  · have hold : (options.target.install Platform.types).methodEntry m = .ok c := by
      rw [← hm, methodEntry, methodEntry, hextends.methods_get]
    have hlt := lt_size_of_methodEntry hold
    have hexternal := (external_install options.target).1 _ (get_mem_defs _ hlt)
    rw [← hextends.evolves.keeps.origin hlt] at hexternal
    cases hexternal.1.symm.trans hdefined
  · simp

/-- All methods of the program, all bodies that wait and all reports of taken signatures come from what the
trees are sources of, in the same order. -/
theorem accounts_lowerDeclarations (trees : List Tree) (options : Options) :
    ∃ es : List Entry, es.map Entry.source = (start trees options).context.sources trees ∧
      (declared trees options).Accounts
        ((start trees options).context.declareAll (Tree.declarations trees)).2.duplicates es := by
  have hstart := accounts_declareAll trees options (Tree.declarations trees)
  have hregistered := (start trees options).context.registered_declareAll (Tree.declarations trees)
  have hrecords := Lowering.records_fillAll
    { context := ((start trees options).context.declareAll (Tree.declarations trees)).2 } _
    fun d hd => (hregistered d hd).imp fun _ _ hholds => hholds.declares
  rw [declared, Context.lowerDeclarations_eq]
  exact hrecords.entries _ [] hstart

end Compilation

end TreeCompiler
