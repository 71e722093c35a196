import TreeCompiler.Proofs.Machine.Labels
import TreeCompiler.Proofs.Machine.RegisterMachine

/-!
# Labels are apart

Where names are free of the marks that labels are put together with, a label says which type and which
name a method has, and the segment of each parameter. All types but those of the platform library have
the same segment, so that overloads can share a label, and nothing else can.

* `QualifiedName.child_text_inj` : a dotted text says which segments it is made of.
-/

namespace TreeCompiler

open List Machine TypeTable

/-! ## Dotted texts -/

namespace QualifiedName
variable {n n' : QualifiedName} {s s' : String}

theorem segments_ne_nil (h : n ≠ .global) : n.segments ≠ [] :=
  fun hnil => h (congrArg mk hnil)

theorem text_child (hn : n ≠ .global) (s : String) : (n.child s).text = n.text ++ "." ++ s := by
  rw [text, child, String.intercalate_append_of_ne_nil (segments_ne_nil hn) (cons_ne_nil s []),
    String.intercalate_singleton, text]

theorem splitOn_text_child (hn : n ≠ .global) (hdots : ∀ p ∈ n.segments, '.' ∉ p.toList) (s : String) :
    (n.child s).text.toList.splitOn '.' = n.segments.map String.toList ++ s.toList.splitOn '.' := by
  have htext : (n.child s).text.toList = ['.'].intercalate (n.segments.map String.toList) ++ '.' :: s.toList := by
    rw [text_child hn, String.toList_append, String.toList_append, text, String.toList_intercalate, append_assoc]
    rfl
  rw [htext, splitOn_append_cons_self, splitOn_intercalate]
  · exact forall_mem_map.mpr hdots
  · exact fun hnil => segments_ne_nil hn (map_eq_nil_iff.mp hnil)

theorem splitOn_of_tail {cs : List Char} (h : '.' ∉ cs.tail) :
    cs.splitOn '.' = [cs] ∨ cs.splitOn '.' = [[], cs.tail] := by
  cases cs with
  | nil => exact Or.inl (splitOn_nil '.')
  | cons c cs =>
    by_cases hc : c = '.'
    · subst hc
      right
      have hsplit := splitOn_append_cons_self_of_not_mem (not_mem_nil (a := '.')) cs
      rw [nil_append] at hsplit
      rw [tail_cons] at h ⊢
      rw [hsplit, splitOn_eq_singleton h]
    · left
      refine splitOn_eq_singleton fun hmem => ?_
      rcases mem_cons.mp hmem with hmem | hmem
      · exact hc hmem.symm
      · exact h hmem

theorem append_splitOn_inj {owner owner' : List (List Char)} {cs cs' : List Char} (howner : [] ∉ owner)
    (howner' : [] ∉ owner') (hcs : '.' ∉ cs.tail) (hcs' : '.' ∉ cs'.tail)
    (h : owner ++ cs.splitOn '.' = owner' ++ cs'.splitOn '.') : owner = owner' ∧ cs = cs' := by
  have hall : owner = owner' := by
    rcases splitOn_of_tail hcs with hone | htwo
    · rcases splitOn_of_tail hcs' with hone' | htwo'
      · rw [hone, hone'] at h
        exact (append_inj' h rfl).1
      · rw [hone, htwo', append_cons owner'] at h
        exact absurd ((append_inj' h rfl).1 ▸ mem_concat_self) howner
    · rcases splitOn_of_tail hcs' with hone' | htwo'
      · rw [htwo, hone', append_cons owner] at h
        exact absurd ((append_inj' h rfl).1 ▸ mem_concat_self) howner'
      · rw [htwo, htwo'] at h
        exact (append_inj' h rfl).1
  subst hall
  have hparts := congrArg (fun parts => ['.'].intercalate parts) (append_cancel_left h)
  rw [intercalate_splitOn, intercalate_splitOn] at hparts
  exact ⟨rfl, hparts⟩

theorem child_text_inj (hn : n ≠ .global) (hn' : n' ≠ .global) (hsegments : ∀ p ∈ n.segments, p ≠ "" ∧ '.' ∉ p.toList)
    (hsegments' : ∀ p ∈ n'.segments, p ≠ "" ∧ '.' ∉ p.toList) (hs : '.' ∉ s.toList.tail) (hs' : '.' ∉ s'.toList.tail)
    (h : (n.child s).text = (n'.child s').text) : n = n' ∧ s = s' := by
  have hnonempty : ∀ ps : List String, (∀ p ∈ ps, p ≠ "" ∧ '.' ∉ p.toList) → [] ∉ ps.map String.toList := by
    intro ps hps hmem
    obtain ⟨p, hp, hnil⟩ := mem_map.mp hmem
    exact (hps p hp).1 (String.toList_eq_nil_iff.mp hnil)
  have hsplit := congrArg (fun text : String => text.toList.splitOn '.') h
  rw [splitOn_text_child hn (fun p hp => (hsegments p hp).2),
    splitOn_text_child hn' (fun p hp => (hsegments' p hp).2)] at hsplit
  obtain ⟨howner, hname⟩ := append_splitOn_inj (hnonempty _ hsegments) (hnonempty _ hsegments') hs hs' hsplit
  refine ⟨?_, String.toList_injective hname⟩
  cases n
  cases n'
  exact congrArg mk (map_injective_iff.mpr (fun _ _ => String.toList_injective) howner)

theorem dot_mem_text_child (hn : n ≠ .global) (s : String) : '.' ∈ (n.child s).text.toList := by
  rw [text_child hn, String.toList_append, String.toList_append]
  exact mem_append_left _ (mem_append_right _ (mem_singleton.mpr rfl))

end QualifiedName

/-! ## Labels of methods -/

namespace TypeTable
variable {t : TypeTable} {m m' : MethodRef}

def methodPath (t : TypeTable) (m : MethodRef) : QualifiedName :=
  (t.get m.type).name.child (t.method m).name

def paramSegments (t : TypeTable) (m : MethodRef) : List String :=
  (t.method m).params.map fun p => t.symbolSegment p.type

theorem intercalate_dollar (s : String) (l : List String) :
    "$".intercalate (s :: l) = s ++ String.join (l.map ("$" ++ ·)) := by
  induction l generalizing s with
  | nil => simp
  | cons s' l ih =>
    rw [String.intercalate_cons_cons, ih s', map_cons, String.join_cons]
    simp only [String.append_assoc]

theorem symbol_eq (t : TypeTable) (m : MethodRef) :
    t.symbol m = "$" ++ "$".intercalate ((t.methodPath m).text :: t.paramSegments m) := by
  rw [intercalate_dollar, paramSegments, map_map, ← String.append_assoc]
  rfl

/-- The label of the method can be taken apart: the names of its type and of the method have dots where a
segment ends, but for one at the start of the name of a constructor, and no part has the mark that stands
between parts. -/
structure PlainSymbol (t : TypeTable) (m : MethodRef) : Prop where
  owner : ∀ s ∈ (t.get m.type).name.segments, s ≠ "" ∧ '.' ∉ s.toList
  name : '.' ∉ (t.method m).name.toList.tail
  path : '$' ∉ (t.methodPath m).text.toList
  params : ∀ s ∈ t.paramSegments m, '$' ∉ s.toList

instance (t : TypeTable) (m : MethodRef) : Decidable (t.PlainSymbol m) :=
  decidable_of_iff (_ ∧ _ ∧ _ ∧ _)
    ⟨fun h => ⟨h.1, h.2.1, h.2.2.1, h.2.2.2⟩, fun h => ⟨h.owner, h.name, h.path, h.params⟩⟩

theorem PlainSymbol.splitOn_symbol (h : t.PlainSymbol m) : (t.symbol m).toList.splitOn '$' =
      [] :: (t.methodPath m).text.toList :: (t.paramSegments m).map String.toList := by
  have htext : (t.symbol m).toList =
      [] ++ '$' :: ['$'].intercalate (((t.methodPath m).text :: t.paramSegments m).map String.toList) := by
    rw [symbol_eq, String.toList_append, String.toList_intercalate]
    rfl
  rw [htext, splitOn_append_cons_self_of_not_mem not_mem_nil, splitOn_intercalate, map_cons]
  · exact forall_mem_map.mpr (forall_mem_cons.mpr ⟨h.path, h.params⟩)
  · exact cons_ne_nil _ _

/-- Methods have the same label if they have the same name in types of the same name, and their parameters
the same segments. -/
theorem symbol_eq_iff (h : t.PlainSymbol m) (h' : t.PlainSymbol m') (hm : (t.get m.type).name ≠ .global)
    (hm' : (t.get m'.type).name ≠ .global) : t.symbol m = t.symbol m' ↔
      (t.get m.type).name = (t.get m'.type).name ∧ (t.method m).name = (t.method m').name ∧
        t.paramSegments m = t.paramSegments m' := by
  constructor
  · intro hsymbol
    have hsplit := congrArg (fun label : String => label.toList.splitOn '$') hsymbol
    rw [h.splitOn_symbol, h'.splitOn_symbol, cons_inj_right, cons.injEq] at hsplit
    obtain ⟨howner, hname⟩ := QualifiedName.child_text_inj hm hm' h.owner h'.owner h.name h'.name
      (String.toList_injective hsplit.1)
    exact ⟨howner, hname, map_injective_iff.mpr (fun _ _ => String.toList_injective) hsplit.2⟩
  · rintro ⟨howner, hname, hsegments⟩
    rw [symbol_eq, symbol_eq, methodPath, methodPath, howner, hname, hsegments]

/-- Overloads that the segments of their parameters do not tell apart. -/
structure Conflates (t : TypeTable) (m m' : MethodRef) : Prop where
  type : m.type = m'.type
  name : (t.method m).name = (t.method m').name
  segments : t.paramSegments m = t.paramSegments m'
  signature : (t.method m).signature ≠ (t.method m').signature

instance (t : TypeTable) (m m' : MethodRef) : Decidable (t.Conflates m m') :=
  decidable_of_iff (_ ∧ _ ∧ _ ∧ _)
    ⟨fun h => ⟨h.1, h.2.1, h.2.2.1, h.2.2.2⟩, fun h => ⟨h.type, h.name, h.segments, h.signature⟩⟩

/-- A static method of the program is known by its type, its name and the types of its parameters. -/
theorem NamesApart.eq_of_signature (hnames : t.NamesApart) (hm : t.Defines m) (hm' : t.Defines m')
    (hstatic : (t.method m).isStatic = true) (hstatic' : (t.method m').isStatic = true)
    (htype : m.type = m'.type) (hname : (t.method m).name = (t.method m').name)
    (hsignature : (t.method m).signature = (t.method m').signature) : m = m' := by
  obtain ⟨hdefined, c, hc⟩ := hm
  obtain ⟨-, c', hc'⟩ := hm'
  obtain ⟨type, i⟩ := m
  obtain ⟨type', j⟩ := m'
  cases htype
  rw [method_of_methodEntry t _ _ hc] at hstatic hname hsignature
  rw [method_of_methodEntry t _ _ hc'] at hstatic' hname hsignature
  obtain ⟨hi, hci⟩ := List.getElem?_eq_some_iff.mp (Defect.entry_eq_ok_iff.mp hc)
  obtain ⟨hj, hcj⟩ := List.getElem?_eq_some_iff.mp (Defect.entry_eq_ok_iff.mp hc')
  have hpairs := pairwise_iff_getElem.mp (hnames.methods type hdefined)
  rcases Nat.lt_trichotomy i j with hlt | rfl | hgt
  · have hapart := hpairs i j hi hj hlt
    rw [hci, hcj] at hapart
    simpa [Method.sameSignature, hname, hsignature] using hapart hstatic hstatic'
  · rfl
  · have hapart := hpairs j i hj hi hgt
    rw [hci, hcj] at hapart
    simpa [Method.sameSignature, hname, hsignature] using hapart hstatic' hstatic

theorem symbol_eq_iff_conflates (hnames : t.NamesApart) (hm : m ∈ writtenMethods t)
    (hm' : m' ∈ writtenMethods t) (h : t.PlainSymbol m) (h' : t.PlainSymbol m') (hne : m ≠ m') :
    t.symbol m = t.symbol m' ↔ t.Conflates m m' := by
  obtain ⟨hdefines, hwritten⟩ := mem_writtenMethods_iff.mp hm
  obtain ⟨hdefines', hwritten'⟩ := mem_writtenMethods_iff.mp hm'
  rw [symbol_eq_iff h h' (hnames.named _ hdefines.1) (hnames.named _ hdefines'.1)]
  constructor
  · rintro ⟨howner, hname, hsegments⟩
    have htype : m.type = m'.type := by
      obtain ⟨-, c, hc⟩ := hdefines
      obtain ⟨-, c', hc'⟩ := hdefines'
      exact hnames.types _ _ (lt_size_of_methodEntry hc) (lt_size_of_methodEntry hc') howner
    refine ⟨htype, hname, hsegments, fun hsignature => hne ?_⟩
    exact hnames.eq_of_signature hdefines hdefines' (Bool.and_eq_true_iff.mp hwritten).1
      (Bool.and_eq_true_iff.mp hwritten').1 htype hname hsignature
  · intro hconflates
    exact ⟨congrArg (fun type => (t.get type).name) hconflates.type, hconflates.name, hconflates.segments⟩

end TypeTable

/-! ## All labels -/

namespace Machine
variable {t : TypeTable}

theorem dot_not_mem_stringLabel (i : Nat) : '.' ∉ (stringLabel i).toList := by
  have hdigits : '.' ∉ Nat.toDigits 10 i := by
    intro hmem
    have hdigit := Nat.isDigit_of_mem_toDigits (by decide) (Nat.le_refl 10) hmem
    exact absurd hdigit (by decide)
  have hstart : '.' ∉ (toString "$str").toList := by decide
  simpa [stringLabel] using And.intro hstart hdigits

theorem nodup_definedMethods (t : TypeTable) : (definedMethods t).Nodup := by
  unfold definedMethods
  refine nodup_flatMap.mpr ⟨fun x _ => ?_, ?_⟩
  · exact nodup_range.map fun i j hij => congrArg MethodRef.index hij
  · refine (pairwise_map.mp t.defined_nodup).imp fun hne m hm hm' => hne ?_
    obtain ⟨i, -, rfl⟩ := mem_map.mp hm
    obtain ⟨j, -, hj⟩ := mem_map.mp hm'
    exact (congrArg MethodRef.type hj).symm

theorem nodup_labels_iff (hnames : t.NamesApart) (hplain : ∀ m ∈ writtenMethods t, t.PlainSymbol m) (count : Nat) :
    ((writtenMethods t).map t.symbol ++ (range count).map stringLabel).Nodup ↔
      ∀ m ∈ writtenMethods t, ∀ m' ∈ writtenMethods t, ¬ t.Conflates m m' := by
  have hwritten : (writtenMethods t).Nodup := (nodup_definedMethods t).filter _
  have hstrings : ((range count).map stringLabel).Nodup :=
    nodup_range.map fun _ _ => stringLabel_inj
  have hapart : ∀ label ∈ (writtenMethods t).map t.symbol, ∀ text ∈ (range count).map stringLabel, label ≠ text := by
    rintro _ hlabel _ htext heq
    obtain ⟨m, hm, rfl⟩ := mem_map.mp hlabel
    obtain ⟨i, -, rfl⟩ := mem_map.mp htext
    refine dot_not_mem_stringLabel i (heq ▸ ?_)
    have hnamed := hnames.named m.type (mem_writtenMethods_iff.mp hm).1.1
    rw [symbol_eq, intercalate_dollar, String.toList_append, String.toList_append]
    exact mem_append_right _ (mem_append_left _ (QualifiedName.dot_mem_text_child hnamed _))
  rw [nodup_append, and_iff_left ⟨hstrings, hapart⟩, nodup_map_iff_inj_on hwritten]
  constructor
  · intro hinj m hm m' hm' hconflates
    have hne : m ≠ m' := fun heq => hconflates.signature (heq ▸ rfl)
    exact hne (hinj m hm m' hm' ((symbol_eq_iff_conflates hnames hm hm' (hplain m hm)
      (hplain m' hm') hne).mpr hconflates))
  · intro hnone m hm m' hm' hsymbol
    by_contra hne
    exact hnone m hm m' hm' ((symbol_eq_iff_conflates hnames hm hm' (hplain m hm) (hplain m' hm') hne).mp hsymbol)

end Machine

/-- How far labels tell the methods of a program apart. The names have to be plain. -/
structure Assembly.TellsApart (a : Assembly) (lines : List Line) : Prop where
  /-- Only overloads share a label, those that the segments of their parameters do not tell apart. -/
  methods : ∀ m ∈ writtenMethods a.types, ∀ m' ∈ writtenMethods a.types,
    a.types.PlainSymbol m → a.types.PlainSymbol m' → m ≠ m' →
      (a.types.symbol m = a.types.symbol m' ↔ a.types.Conflates m m')
  /-- Each label, be it of a method or of a text, is there once if there are no such overloads. -/
  once : (∀ m ∈ writtenMethods a.types, a.types.PlainSymbol m) →
    ((definedLabels lines).Nodup ↔ ∀ m ∈ writtenMethods a.types,
      ∀ m' ∈ writtenMethods a.types, ¬ a.types.Conflates m m')

namespace Compilation

/-- The labels of a program are different, unless there are overloads that the segments of their
parameters do not tell apart. -/
theorem labels_apart {trees : List Tree} {options : Options} {lines : List Machine.Line}
    (hlines : (lowered trees options).assembly.machineLines = .ok lines) :
    (lowered trees options).assembly.TellsApart lines := by
  have hnames := namesApart_lowered trees options
  refine ⟨fun m hm m' hm' h h' hne => TypeTable.symbol_eq_iff_conflates hnames hm hm' h h' hne,
    fun hplain => ?_⟩
  obtain ⟨count, start, rest, rfl, hstart, -, hrest⟩ :=
    Machine.labels_of_machineLines (lawful_lowered trees options) hlines
  rw [Machine.definedLabels_append, hstart, List.nil_append, hrest.defined]
  exact Machine.nodup_labels_iff hnames hplain count

/-- Three functions of one name, and a function with a text. -/
def overloadTree : Tree :=
  let move (type : String) : FnDecl :=
    { name := "move", params := [{ name := "by", type := .named ⟨[type]⟩ {} }], body := some [] }
  { module := ⟨["Demo"]⟩
    body := [
      .type { kind := .classType, name := "Point" },
      .fn (move "i32"), .fn (move "string"), .fn (move "Point"),
      .fn { name := "main", body := some [.call (.unqualified "move") [.literal (.string "north") {}] {}] }] }

theorem labels_apart_overloadTree : ∃ lines,
    (lowered [overloadTree] { target := .machine }).assembly.machineLines = .ok lines ∧
    (Machine.definedLabels lines).length = 5 ∧ (Machine.definedLabels lines).Nodup := by
  obtain ⟨hplain, hnone, hlength⟩ :
      (∀ m ∈ Machine.writtenMethods (lowered [overloadTree] { target := .machine }).assembly.types,
        (lowered [overloadTree] { target := .machine }).assembly.types.PlainSymbol m) ∧
      (∀ m ∈ Machine.writtenMethods (lowered [overloadTree] { target := .machine }).assembly.types,
        ∀ m' ∈ Machine.writtenMethods (lowered [overloadTree] { target := .machine }).assembly.types,
          ¬ (lowered [overloadTree] { target := .machine }).assembly.types.Conflates m m') ∧
      ((lowered [overloadTree] { target := .machine }).assembly.machineLines.toOption.map fun lines =>
        (Machine.definedLabels lines).length) = some 5 := by
    decide +kernel
  cases hlines : (lowered [overloadTree] { target := .machine }).assembly.machineLines with
  | error e =>
    rw [hlines] at hlength
    cases hlength
  | ok lines =>
    rw [hlines] at hlength
    exact ⟨lines, rfl, Option.some.inj hlength, ((labels_apart hlines).once hplain).mpr hnone⟩

/-- Two functions that take an object of a class of the program. -/
def sharedTree : Tree :=
  let show_ (type : String) : FnDecl :=
    { name := "show", params := [{ name := "it", type := .named ⟨[type]⟩ {} }], body := some [] }
  { module := ⟨["Demo"]⟩
    body := [
      .type { kind := .classType, name := "A" }, .type { kind := .classType, name := "B" },
      .fn (show_ "A"), .fn (show_ "B")] }

/-- Both have the same label, and nothing is reported. -/
theorem overloads_share_label :
    (lowered [sharedTree] { target := .machine }).diagnostics = [] ∧
    ((lowered [sharedTree] { target := .machine }).assembly.machineLines.toOption.map
      Machine.definedLabels) = some ["$Program.show$", "$Program.show$"] := by
  decide +kernel

end Compilation

end TreeCompiler
