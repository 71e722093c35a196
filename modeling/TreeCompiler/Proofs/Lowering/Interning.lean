import TreeCompiler.Proofs.Lowering.FilledTypes
import TreeCompiler.Proofs.Lowering.OrderIndependence

/-!
# Delegates are interned

A function type stands for the delegate that is registered under a name made from the names of its arguments. The
names inside are dotted, and there may be such names among them, so it takes the brackets to tell the arguments
apart. If no name of the program has dots, commas or brackets in its segments, two function types stand for one
delegate just if they agree in family and arguments.
-/

namespace TreeCompiler

open List TypeTable QualifiedName
open Context (delegateName delegateInstance resolveTypeExpr resolveParams resolveResult)
variable {x : Char}

/-! ## Texts with brackets -/

/-- The text has none of the characters that the names of delegates are put together with. -/
def plain (s : String) : Bool :=
  s.toList.all (! ['.', ',', '<', '>'].contains ·)

/-- The text up to the first comma or closing bracket that is outside of brackets, of which `depth` are open at
the start, and the rest. -/
def cut (depth : Nat) : List Char → List Char × List Char
  | [] => ([], [])
  | c :: cs =>
    if depth = 0 ∧ (c = ',' ∨ c = '>') then ([], c :: cs)
    else
      let (taken, rest) := cut (if c = '<' then depth + 1 else if c = '>' then depth - 1 else depth) cs
      (c :: taken, rest)

/-- The text is passed as a whole where at least `k` brackets are open. -/
def Passed (k : Nat) (cs : List Char) : Prop :=
  ∀ depth rest, cut (depth + k) (cs ++ rest) = (cs ++ (cut (depth + k) rest).1, (cut (depth + k) rest).2)

namespace Passed
variable {k : Nat} {as bs : List Char} {c : Char}

theorem nil (k : Nat) : Passed k [] :=
  fun _ _ => rfl

theorem append (ha : Passed k as) (hb : Passed k bs) : Passed k (as ++ bs) := by
  intro depth rest
  rw [append_assoc, ha, hb, append_assoc]

theorem succ (h : Passed k as) : Passed (k + 1) as := by
  intro depth rest
  rw [Nat.add_comm k, ← Nat.add_assoc]
  exact h (depth + 1) rest

theorem singleton (hopen : c ≠ '<') (hclose : c ≠ '>') (hcomma : c = ',' → k ≠ 0) : Passed k [c] := by
  intro depth rest
  have hgo : ¬ (depth + k = 0 ∧ (c = ',' ∨ c = '>')) := by
    rintro ⟨hzero, hc | hc⟩
    · exact hcomma hc (Nat.eq_zero_of_add_eq_zero hzero).2
    · exact hclose hc
  rw [singleton_append, cut, if_neg hgo, if_neg hopen, if_neg hclose]
  rfl

theorem of_forall {cs : List Char} (h : ∀ c ∈ cs, c ≠ ',' ∧ c ≠ '<' ∧ c ≠ '>') : Passed 0 cs := by
  induction cs with
  | nil => exact nil 0
  | cons c cs ih =>
    obtain ⟨⟨hcomma, hopen, hclose⟩, hrest⟩ := forall_mem_cons.mp h
    exact (singleton hopen hclose fun hc => absurd hc hcomma).append (ih hrest)

theorem brackets (h : Passed 1 as) : Passed 0 ('<' :: as ++ ['>']) := by
  intro depth rest
  have hclose : cut (depth + 1) ('>' :: rest) = ('>' :: (cut depth rest).1, (cut depth rest).2) := by
    rw [cut, if_neg (by simp), if_neg (by decide), if_pos rfl]
    rfl
  rw [append_assoc, cons_append, cut, if_neg (by simp), if_pos rfl, singleton_append, h, hclose]
  simp

theorem intercalate {texts : List (List Char)} (h : ∀ text ∈ texts, Passed 0 text) :
    Passed 1 ([','].intercalate texts) := by
  induction texts with
  | nil => exact nil 1
  | cons text texts ih =>
    obtain ⟨hfirst, hrest⟩ := forall_mem_cons.mp h
    cases texts with
    | nil =>
      rw [intercalate_singleton]
      exact hfirst.succ
    | cons other texts =>
      rw [intercalate_cons_cons]
      exact (hfirst.succ.append (singleton (by decide) (by decide) nofun)).append (ih hrest)

theorem cut_eq (h : Passed 0 as) (hc : c = ',' ∨ c = '>') (rest : List Char) :
    cut 0 (as ++ c :: rest) = (as, c :: rest) := by
  have hstop : cut 0 (c :: rest) = ([], c :: rest) := by rw [cut, if_pos ⟨rfl, hc⟩]
  rw [h 0, hstop, append_nil]

end Passed

theorem eq_of_append_cons {as bs rest rest' : List Char} (has : x ∉ as) (hbs : x ∉ bs)
    (h : as ++ x :: rest = bs ++ x :: rest') : as = bs ∧ rest = rest' := by
  have hcut : ∀ cs rest : List Char, x ∉ cs → (cs ++ x :: rest).takeWhile (· != x) = cs := by
    intro cs rest hcs
    have hne : ∀ c ∈ cs, (c != x) = true := fun c hc => bne_iff_ne.mpr fun heq => hcs (heq ▸ hc)
    rw [takeWhile_append_of_pos hne]
    simp
  obtain rfl : as = bs := by rw [← hcut as rest has, h, hcut bs rest' hbs]
  exact ⟨rfl, (cons.inj (append_cancel_left h)).2⟩

theorem forall_mem_intercalate {P : Char → Prop} (hx : P x) {texts : List (List Char)}
    (h : ∀ text ∈ texts, ∀ c ∈ text, P c) : ∀ c ∈ [x].intercalate texts, P c := by
  induction texts with
  | nil => exact nofun
  | cons text texts ih =>
    obtain ⟨hfirst, hrest⟩ := forall_mem_cons.mp h
    cases texts with
    | nil =>
      rw [intercalate_singleton]
      exact hfirst
    | cons other texts =>
      rw [intercalate_cons_cons, append_assoc]
      exact forall_mem_append.mpr ⟨hfirst, forall_mem_cons.mpr ⟨hx, ih hrest⟩⟩

/-! ## Legible names -/

namespace QualifiedName
variable (family : String) (args : List QualifiedName)

/-- A name with plain segments, or the name of a delegate for arguments with such names. -/
inductive Legible : QualifiedName → Prop where
  | plain {n : QualifiedName} : n.segments ≠ [] → (∀ s ∈ n.segments, TreeCompiler.plain s = true) → Legible n
  | made {family : String} {args : List QualifiedName} :
      TreeCompiler.plain (delegateName family args.length).last = true → (∀ a ∈ args, Legible a) →
      Legible (delegateInstance family args)

theorem not_mem_of_plain {s : String} (h : plain s = true) :
    ∀ c ∈ s.toList, c ≠ '.' ∧ c ≠ ',' ∧ c ≠ '<' ∧ c ≠ '>' := by
  intro c hc
  simpa using all_eq_true.mp h c hc

theorem toList_text (n : QualifiedName) : n.text.toList = ['.'].intercalate (n.segments.map String.toList) :=
  String.toList_intercalate

theorem toList_last_delegateInstance :
    (delegateInstance family args).last.toList = (delegateName family args.length).last.toList ++
      ('<' :: [','].intercalate (args.map (·.text.toList)) ++ ['>']) := by
  have hlast : (delegateInstance family args).last = (delegateName family args.length).last ++ "<" ++
      ",".intercalate (args.map text) ++ ">" := rfl
  rw [hlast, String.toList_append, String.toList_append, String.toList_append, String.toList_intercalate, map_map]
  simp [Function.comp_def]

theorem text_delegateInstance :
    (delegateInstance family args).text.toList = "System.".toList ++ (delegateInstance family args).last.toList := by
  rw [toList_text]
  change ['.'].intercalate ["System".toList, _] = _
  rw [intercalate_cons_cons, intercalate_singleton]
  rfl

namespace Legible
variable {n n' : QualifiedName} {family family' : String} {args args' : List QualifiedName}

theorem forall_mem_text (h : ∀ s ∈ n.segments, TreeCompiler.plain s = true) :
    ∀ c ∈ n.text.toList, c ≠ ',' ∧ c ≠ '<' ∧ c ≠ '>' := by
  rw [toList_text]
  refine forall_mem_intercalate (by decide : '.' ≠ ',' ∧ '.' ≠ '<' ∧ '.' ≠ '>') (forall_mem_map.mpr ?_)
  exact fun s hs c hc => (not_mem_of_plain (h s hs) c hc).2

theorem passed (h : n.Legible) : Passed 0 n.text.toList := by
  induction h with
  | plain _ hplain => exact .of_forall (forall_mem_text hplain)
  | made hfamily _ ih =>
    rw [text_delegateInstance, toList_last_delegateInstance, ← append_assoc]
    refine .append (.append (.of_forall (by simp)) (.of_forall fun c hc => ?_)) (.brackets (.intercalate ?_))
    · exact (not_mem_of_plain hfamily c hc).2
    · exact forall_mem_map.mpr ih

theorem text_inj (h : n.Legible) (h' : n'.Legible) (heq : n.text = n'.text) : n = n' := by
  have hmade : ∀ {n : QualifiedName} (family : String) (args : List QualifiedName),
      (∀ s ∈ n.segments, TreeCompiler.plain s = true) → n.text ≠ (delegateInstance family args).text := by
    intro n family args hplain heq
    refine (forall_mem_text hplain '<' ?_).2.1 rfl
    rw [heq, text_delegateInstance, toList_last_delegateInstance]
    simp
  cases h with
  | plain hsome hplain =>
    cases h' with
    | plain hsome' hplain' =>
      have hsplit : ∀ n : QualifiedName, n.segments ≠ [] → (∀ s ∈ n.segments, TreeCompiler.plain s = true) →
          n.text.toList.splitOn '.' = n.segments.map String.toList := by
        intro n hsome hplain
        rw [toList_text]
        refine splitOn_intercalate '.' (forall_mem_map.mpr fun s hs hdot => ?_) (by simpa using hsome)
        exact (not_mem_of_plain (hplain s hs) '.' hdot).1 rfl
      have hsegments := hsplit n hsome hplain
      rw [heq, hsplit n' hsome' hplain'] at hsegments
      exact congrArg mk (map_injective_iff.mpr (fun _ _ => String.toList_injective) hsegments).symm
    | made => exact absurd heq (hmade _ _ hplain)
  | made =>
    cases h' with
    | plain _ hplain' => exact absurd heq.symm (hmade _ _ hplain')
    | made =>
      have htext := congrArg String.toList heq
      rw [text_delegateInstance, text_delegateInstance] at htext
      have hlast := String.toList_injective (append_cancel_left htext)
      exact congrArg systemName hlast

theorem intercalate_inj (h : ∀ a ∈ args, Legible a) (h' : ∀ a ∈ args', Legible a)
    (hlength : args.length = args'.length) {rest rest' : List Char}
    (heq : [','].intercalate (args.map (·.text.toList)) ++ '>' :: rest =
      [','].intercalate (args'.map (·.text.toList)) ++ '>' :: rest') : args = args' := by
  induction args generalizing args' with
  | nil => exact (length_eq_zero_iff.mp hlength.symm).symm
  | cons a args ih =>
    cases args' with
    | nil => cases hlength
    | cons a' args' =>
      obtain ⟨ha, hrest⟩ := forall_mem_cons.mp h
      obtain ⟨ha', hrest'⟩ := forall_mem_cons.mp h'
      cases args with
      | nil =>
        obtain rfl := length_eq_zero_iff.mp (Nat.succ.inj hlength.symm)
        have hcut := congrArg (cut 0) heq
        rw [map_singleton, map_singleton, intercalate_singleton, intercalate_singleton,
          ha.passed.cut_eq (Or.inr rfl), ha'.passed.cut_eq (Or.inr rfl)] at hcut
        rw [ha.text_inj ha' (String.toList_injective (Prod.mk.inj hcut).1)]
      | cons second args =>
        cases args' with
        | nil => cases hlength
        | cons second' args' =>
          simp only [map_cons, intercalate_cons_cons, append_assoc, cons_append] at heq
          have hcut := congrArg (cut 0) heq
          rw [ha.passed.cut_eq (Or.inl rfl), ha'.passed.cut_eq (Or.inl rfl)] at hcut
          obtain ⟨hfirst, htail⟩ := Prod.mk.inj hcut
          rw [ha.text_inj ha' (String.toList_injective hfirst),
            ih hrest hrest' (Nat.succ.inj hlength) (cons.inj htail).2]

/-- Delegates that are made from legible names can be told apart. -/
theorem delegateInstance_inj (hfamily : Char.ofNat 96 ∉ family.toList) (hfamily' : Char.ofNat 96 ∉ family'.toList)
    (hplain : TreeCompiler.plain (delegateName family args.length).last = true)
    (hplain' : TreeCompiler.plain (delegateName family' args'.length).last = true)
    (hargs : ∀ a ∈ args, Legible a) (hargs' : ∀ a ∈ args', Legible a)
    (heq : delegateInstance family args = delegateInstance family' args') : family = family' ∧ args = args' := by
  have hlast := congrArg (fun n : QualifiedName => n.last.toList) heq
  rw [toList_last_delegateInstance, toList_last_delegateInstance] at hlast
  obtain ⟨hname, hinside⟩ := eq_of_append_cons (fun hc => (not_mem_of_plain hplain '<' hc).2.2.1 rfl)
    (fun hc => (not_mem_of_plain hplain' '<' hc).2.2.1 rfl) hlast
  have htext : ∀ (family : String) (n : Nat),
      (delegateName family n).last.toList = family.toList ++ Char.ofNat 96 :: n.repr.toList := by
    intro family n
    have hlast : (delegateName family n).last = family ++ "`" ++ n.repr := rfl
    rw [hlast, String.toList_append, String.toList_append]
    simp
  rw [htext, htext] at hname
  obtain ⟨hfamilies, harity⟩ := eq_of_append_cons hfamily hfamily' hname
  have hnumber := congrArg (Nat.ofDigitChars 10 · 0) harity
  refine ⟨String.toList_injective hfamilies, intercalate_inj hargs hargs' ?_ hinside⟩
  simpa [Nat.repr_eq_ofList_toDigits, Nat.ofDigitChars_toDigits] using hnumber

theorem plain_delegateName {k : Nat} (h : (delegateName family k).Legible) :
    TreeCompiler.plain (delegateName family k).last = true := by
  generalize hn : delegateName family k = n at h
  cases h with
  | plain _ hplain =>
    subst hn
    exact hplain _ (by simp [delegateName, systemName, last])
  | made => exact absurd (Or.inr ⟨_, _, hn⟩) (not_lateName_delegateName family k)

end Legible

end QualifiedName

/-! ## Tables -/

namespace TypeTable
variable {t t' : TypeTable} {n : QualifiedName} {id : TypeId}

/-- Each type has a legible name of its own, and so does what is returned where nothing is. -/
structure Legible (t : TypeTable) : Prop where
  consistent : t.Consistent
  names : ∀ id, id.index < t.size → (t.get id).name.Legible
  void : (t.primitive? .void).isSome = true

namespace Legible

variable (h : t.Legible)
include h

theorem of_lookup (hn : t.lookup n = some id) : n.Legible := by
  obtain ⟨hlt, rfl⟩ := lookup_spec hn
  exact h.names id hlt

theorem primitive?_eq (hkeeps : t.Keeps t') : t'.primitive? .void = t.primitive? .void := by
  obtain ⟨id, hid⟩ := Option.isSome_iff_exists.mp h.void
  rw [hid]
  exact hkeeps.lookup hid

theorem keeps (hkeeps : t.Keeps t') (hsize : t'.size = t.size) : t'.Legible where
  consistent := hkeeps.consistent hsize h.consistent
  names id hid := hkeeps.name (hsize ▸ hid) ▸ h.names id (hsize ▸ hid)
  void := h.primitive?_eq hkeeps ▸ h.void

theorem append {d : TypeDef} (hmethods : d.methods = []) (hfresh : t.lookup d.name = none)
    (hd : d.name.Legible) : Legible { defs := t.defs ++ [d] } where
  consistent := h.consistent.append hfresh
  names id hid := by
    rw [size_append] at hid
    rcases t.get_append_cases d id with ⟨hlt, hold⟩ | ⟨-, hnew⟩ | ⟨hgt, -⟩
    · exact hold ▸ h.names id hlt
    · rw [hnew]
      exact hd
    · omega
  void := h.primitive?_eq (t.keeps_append hmethods) ▸ h.void

theorem addsInstances (hadds : t.AddsInstances t') : t'.Legible := by
  induction hadds with
  | refl => exact h
  | @tail t _ _ hlast ih =>
    obtain ⟨definition, args, ⟨hlt, hargs, family, hfamily⟩, hfresh⟩ := hlast
    have hname : (t.instanceOf definition args).name =
        delegateInstance family (args.map fun a => (t.get a).name) := Context.instanceName_eq hfamily
    have hplain := (hfamily ▸ ih.names definition hlt).plain_delegateName
    refine ih.append rfl hfresh (hname ▸ .made ?_ (forall_mem_map.mpr fun a ha => ih.names a (hargs a ha)))
    rw [length_map]
    exact hplain

end Legible

theorem Keeps.map_name (h : t.Keeps t') {ids : List TypeId} (hids : ∀ a ∈ ids, a.index < t.size) :
    (ids.map fun a => (t'.get a).name) = ids.map fun a => (t.get a).name :=
  map_congr_left fun a ha => h.name (hids a ha)

/-- `id` is the delegate for the arguments in a family of delegates. -/
structure Delegates (t : TypeTable) (family : String) (args : List TypeId) (id : TypeId) : Prop where
  kind : family = "Action" ∨ family = "Func"
  definition : ∃ definition, t.lookup (delegateName family args.length) = some definition
  bounded : ∀ a ∈ args, a.index < t.size
  found : t.lookup (delegateInstance family (args.map fun a => (t.get a).name)) = some id

namespace Delegates
variable {family family' : String} {args args' : List TypeId} {id' : TypeId}

theorem mono (h : t.Delegates family args id) (hkeeps : t.Keeps t') : t'.Delegates family args id where
  kind := h.kind
  definition := h.definition.imp fun _ hdefinition => hkeeps.lookup hdefinition
  bounded a ha := (h.bounded a ha).trans_le hkeeps.size
  found := by
    rw [hkeeps.map_name h.bounded]
    exact hkeeps.lookup h.found

theorem plain (ht : t.Legible) (h : t.Delegates family args id) :
    Char.ofNat 96 ∉ family.toList ∧ plain (delegateName family args.length).last = true := by
  obtain ⟨definition, hdefinition⟩ := h.definition
  refine ⟨?_, (ht.of_lookup hdefinition).plain_delegateName⟩
  rcases h.kind with rfl | rfl <;> decide

theorem eq_iff (ht : t.Legible) (h : t.Delegates family args id) (h' : t.Delegates family' args' id') :
    id = id' ↔ family = family' ∧ args = args' := by
  constructor
  · rintro rfl
    have hname := (lookup_spec h.found).2.symm.trans (lookup_spec h'.found).2
    obtain ⟨hfamily, hnames⟩ := QualifiedName.Legible.delegateInstance_inj (h.plain ht).1 (h'.plain ht).1
      (by rw [length_map]; exact (h.plain ht).2) (by rw [length_map]; exact (h'.plain ht).2)
      (forall_mem_map.mpr fun a ha => ht.names a (h.bounded a ha))
      (forall_mem_map.mpr fun a ha => ht.names a (h'.bounded a ha)) hname
    have hfound : ∀ as : List TypeId, (∀ a ∈ as, a.index < t.size) →
        (as.map fun a => (t.get a).name).map t.lookup = as.map some := by
      intro as has
      rw [map_map]
      exact map_congr_left fun a ha => consistent_iff.mp ht.consistent a (has a ha)
    have hids := hfound args h.bounded
    rw [hnames, hfound args' h'.bounded] at hids
    exact ⟨hfamily, (map_injective_iff.mpr (Option.some_injective _) hids).symm⟩
  · rintro ⟨rfl, rfl⟩
    exact Option.some.inj (h.found.symm.trans h'.found)

end Delegates

end TypeTable

/-! ## What is found again -/

theorem Primitive.aliasTarget?_eq_none {s : String} (h : '<' ∈ s.toList) : aliasTarget? s = none := by
  have haliases : ∀ entry ∈ aliases, '<' ∉ entry.1.toList := by decide
  refine lookup_eq_none_iff.mpr fun entry hentry => bne_iff_ne.mpr ?_
  rintro rfl
  exact haliases entry hentry h

theorem Site.readings_split {s : Site} {name n m : QualifiedName} {before after : List QualifiedName}
    (h : s.readings name = before ++ n :: after) (hm : m ∈ before) {family : String} {args : List QualifiedName}
    (hmade : m = delegateInstance family args) (hn : n.Legible) : n = m := by
  obtain ⟨last, hlast, hbracket⟩ : ∃ last, m = systemName last ∧ '<' ∈ last.toList := by
    refine ⟨(delegateInstance family args).last, hmade, ?_⟩
    rw [toList_last_delegateInstance]
    simp
  rcases before with _ | ⟨first, _ | ⟨second, before⟩⟩
  · cases hm
  · -- the name stands for a delegate: inside its module it has a bracket and too many segments
    obtain ⟨rfl, hrest⟩ := cons.inj h
    obtain ⟨rfl, -⟩ := cons.inj hrest
    rw [mem_singleton.mp hm] at hlast ⊢
    rw [hlast] at hn ⊢
    generalize hn' : (systemName last).qualify s.module = n at hn ⊢
    obtain ⟨⟨module⟩, known⟩ := s
    cases module with
    | nil => exact hn'.symm
    | cons outer module =>
      cases hn with
      | plain _ hplain =>
        subst hn'
        exact absurd rfl (not_mem_of_plain (hplain last (by
          simp [qualify, systemName])) '<' hbracket).2.2.1
      | made =>
        have hlength : (outer :: module ++ ["System", last]).length = 2 := congrArg QualifiedName.length hn'
        simp at hlength
  · obtain ⟨rfl, hrest⟩ := cons.inj h
    obtain ⟨rfl, hextra⟩ := cons.inj hrest
    obtain ⟨segments⟩ := name
    rcases segments with _ | ⟨short, _ | ⟨other, rest⟩⟩
    · cases before <;> cases hextra
    · -- inside its module the name stands for a delegate, so it does on the platform
      rcases before with _ | ⟨third, before⟩
      · obtain ⟨rfl, -⟩ := cons.inj hextra
        have hshort : short = last := by
          rcases mem_pair.mp hm with hmem | hmem
          · cases hmem.symm.trans hlast
          · have hlasts := congrArg QualifiedName.last (hmem.symm.trans hlast)
            simpa [QualifiedName.last, QualifiedName.qualify, TypeTable.systemName] using hlasts
        rw [hshort, Primitive.aliasTarget?_eq_none hbracket, hlast]
        rfl
      · cases before <;> cases (cons.inj hextra).2
    · cases before <;> cases hextra

namespace Context
variable {c c' : Context} {module : QualifiedName} {family : String} {span : Span} {id : TypeId} {firm : Prop}

theorem Consults.eq_delegateInstance (h : c.Consults firm c') {n : QualifiedName} (hnone : c.types.lookup n = none)
    (hsome : c'.types.lookup n = some id) : ∃ family args, n = delegateInstance family args := by
  by_contra hother
  have hsteps : c.Steps ⟨fun _ => True, fun n => ∃ family args, n = delegateInstance family args, fun _ => True⟩
      c' := h.steps fun family args => ⟨family, args, rfl⟩
  rw [hsteps.lookup_eq_none hnone hother] at hsome
  cases hsome

theorem resolveIn?_later (hc : c.types.Legible) (hlater : c.Consults firm c') {name : QualifiedName}
    (h : c.types.resolveIn? module name = some id) : c'.types.resolveIn? module name = some id := by
  rw [resolveIn?_eq _ ⟨module, fun _ => false⟩] at h ⊢
  obtain ⟨before, n, after, hsplit, hfound, hbefore⟩ := findSome?_eq_some_iff.mp h
  refine findSome?_eq_some_iff.mpr ⟨before, n, after, hsplit, hlater.types.keeps.lookup hfound, fun m hm => ?_⟩
  by_contra hother
  obtain ⟨other, hother⟩ := Option.ne_none_iff_exists'.mp hother
  obtain ⟨family, args, hmade⟩ := hlater.eq_delegateInstance (hbefore m hm) hother
  have hsame := Site.readings_split hsplit hm hmade (hc.of_lookup hfound)
  rw [hsame, hbefore m hm] at hfound
  cases hfound

/-- Family and arguments of the delegate that a function type stands for. -/
def signature (module : QualifiedName) (c : Context) (params : List TypeExpr) (result : Option TypeExpr) :
    String × List (Option TypeId) :=
  let (params, c) := resolveParams module c params
  let (result, c) := resolveResult module c result
  c.delegateOf params result

theorem resolveTypeExpr_function (module : QualifiedName) (c : Context) (params : List TypeExpr)
    (result : Option TypeExpr) (span : Span) : resolveTypeExpr module c (.function params result span) =
      (resolveResult module (resolveParams module c params).2 result).2.delegateFor
        (signature module c params result).1 (signature module c params result).2 span := by
  rw [resolveTypeExpr]
  exact resolveDelegate_eq _ _ _ span

theorem suits_signature (module : QualifiedName) (c : Context) (params : List TypeExpr)
    (result : Option TypeExpr) : ∀ a ∈ (signature module c params result).2,
      (resolveResult module (resolveParams module c params).2 result).2.Suits a := by
  obtain ⟨-, -, hparams⟩ := instantiates_resolveParams module c params
  obtain ⟨hmore, -, hresult⟩ := instantiates_resolveResult module (resolveParams module c params).2 result
  exact suits_delegateOf (fun p hp => hmore.suits (hparams p hp)) hresult

theorem family_signature (module : QualifiedName) (c : Context) (params : List TypeExpr) (result : Option TypeExpr) :
    (signature module c params result).1 = "Action" ∨ (signature module c params result).1 = "Func" := by
  unfold signature delegateOf
  dsimp only
  split
  · split
    · exact Or.inl rfl
    · exact Or.inr rfl
  · exact Or.inl rfl

theorem delegateFor_eq {args : List TypeId} (h : c.types.Delegates family args id) (span : Span) :
    c.delegateFor family (args.map some) span = (some id, c) := by
  obtain ⟨definition, hdefinition⟩ := h.definition
  have hfound : c.types.lookup (instanceName c.types definition args) = some id := by
    rw [instanceName_eq (lookup_spec hdefinition).2]
    exact h.found
  unfold delegateFor resolveType
  rw [resolveIn?_delegateName, length_map, hdefinition]
  dsimp only
  rw [allSome_eq_some_iff.mpr rfl]
  dsimp only
  rw [instantiate, TypeTable.intern, TypeTable.insert, hfound]
  rfl

theorem delegates_delegateFor {args : List (Option TypeId)} (hfamily : family = "Action" ∨ family = "Func")
    (hargs : ∀ a ∈ args, c.Suits a) (h : (c.delegateFor family args span).1 = some id) :
    ∃ ids, args = ids.map some ∧ (c.delegateFor family args span).2.types.Delegates family ids id := by
  have hkeeps := (c.resolves_delegateFor family span hargs).instantiates.types.keeps
  unfold delegateFor resolveType at h hkeeps ⊢
  rw [resolveIn?_delegateName] at h hkeeps ⊢
  cases hlookup : c.types.lookup (delegateName family args.length) with
  | none =>
    rw [hlookup] at h
    cases h
  | some definition =>
    rw [hlookup] at h hkeeps
    dsimp only at h hkeeps ⊢
    cases hall : allSome args with
    | none =>
      rw [hall] at h
      cases h
    | some ids =>
      rw [hall] at h hkeeps
      cases h
      obtain rfl := allSome_eq_some_iff.mp hall
      rw [length_map] at hlookup
      have hlt : ∀ a ∈ ids, a.index < c.types.size := fun a ha => (hargs _ (mem_map_of_mem ha)).found a rfl
      refine ⟨ids, rfl, hfamily, ⟨definition, hkeeps.lookup hlookup⟩, fun a ha => (hlt a ha).trans_le hkeeps.size, ?_⟩
      rw [hkeeps.map_name hlt, ← instanceName_eq (lookup_spec hlookup).2]
      exact Lowering.lookup_intern _ _

theorem delegates_resolveTypeExpr {params : List TypeExpr} {result : Option TypeExpr}
    (h : (resolveTypeExpr module c (.function params result span)).1 = some id) :
    ∃ args, (signature module c params result).2 = args.map some ∧
      (resolveTypeExpr module c (.function params result span)).2.types.Delegates
        (signature module c params result).1 args id := by
  rw [resolveTypeExpr_function] at h ⊢
  exact delegates_delegateFor (family_signature module c params result) (suits_signature module c params result) h

theorem delegateOf_eq (h : c'.types.primitive? .void = c.types.primitive? .void) (params : List (Option TypeId))
    (result : Option (Option TypeId)) : c'.delegateOf params result = c.delegateOf params result := by
  cases result with
  | none => rfl
  | some r => rw [delegateOf, delegateOf, h]

theorem forall_delegateOf_iff {params : List (Option TypeId)} {result : Option (Option TypeId)}
    (hvoid : (c.types.primitive? .void).isSome = true) : (∀ a ∈ (c.delegateOf params result).2, a.isSome = true) ↔
      (∀ p ∈ params, p.isSome = true) ∧ ∀ r, result = some r → r.isSome = true := by
  cases result with
  | none => exact ⟨fun h => ⟨h, nofun⟩, And.left⟩
  | some r =>
    rw [delegateOf]
    split
    next hr => simp [hr, hvoid]
    next => simp [or_imp, forall_and]

mutual

/-- What a type expression was found to mean is found later, and nothing is added. -/
theorem resolveTypeExpr_later {c : Context} (hc : c.types.Legible) (type : TypeExpr) {id : TypeId}
    (h : (resolveTypeExpr module c type).1 = some id) (hlater : (resolveTypeExpr module c type).2.Instantiates c') :
    resolveTypeExpr module c' type = (some id, c') := by
  cases type with
  | named name span =>
    rw [resolveTypeExpr] at h hlater ⊢
    unfold resolveType at h hlater ⊢
    split at h
    next first hfirst =>
      cases h
      rw [hfirst] at hlater
      rw [resolveIn?_later hc hlater hfirst]
    next => cases h
  | function params result span =>
    obtain ⟨args, hargs, hdelegates⟩ := delegates_resolveTypeExpr h
    rw [resolveTypeExpr_function] at hlater hdelegates ⊢
    have hparams := (instantiates_resolveParams module c params).1
    have hresult := (instantiates_resolveResult module (resolveParams module c params).2 result).1
    have hmade := (resolves_delegateFor _ (signature module c params result).1 span
      (suits_signature module c params result)).instantiates
    have hlegible := hc.addsInstances hparams.types
    have hfound : ∀ a ∈ (signature module c params result).2, a.isSome = true :=
      hargs ▸ forall_mem_map.mpr fun _ _ => rfl
    obtain ⟨hfoundParams, hfoundResult⟩ :=
      (forall_delegateOf_iff (hlegible.addsInstances hresult.types).void).mp hfound
    have hagain := resolveParams_later hc params hfoundParams (hresult.trans (hmade.trans hlater))
    have hagainResult := resolveResult_later hlegible result hfoundResult (hmade.trans hlater)
    have hsame : signature module c' params result = signature module c params result := by
      unfold signature
      rw [hagain]
      dsimp only
      rw [hagainResult]
      exact delegateOf_eq ((hlegible.addsInstances hresult.types).primitive?_eq (hmade.trans hlater).types.keeps) _ _
    rw [hsame, hagain]
    dsimp only
    rw [hagainResult, hargs]
    exact delegateFor_eq (hdelegates.mono hlater.types.keeps) span

theorem resolveParams_later {c : Context} (hc : c.types.Legible) (types : List TypeExpr)
    (h : ∀ p ∈ (resolveParams module c types).1, p.isSome = true)
    (hlater : (resolveParams module c types).2.Instantiates c') :
    resolveParams module c' types = ((resolveParams module c types).1, c') := by
  cases types with
  | nil => simp only [resolveParams]
  | cons type types =>
    rw [resolveParams] at h hlater ⊢
    dsimp only at h hlater ⊢
    have hfirst := resolves_resolveTypeExpr module c type
    obtain ⟨hrest, -⟩ := instantiates_resolveParams module (resolveTypeExpr module c type).2 types
    obtain ⟨id, hid⟩ := Option.isSome_iff_exists.mp (h _ mem_cons_self)
    rw [resolveTypeExpr_later hc type hid (hrest.trans hlater), resolveParams]
    dsimp only
    rw [resolveParams_later (hc.addsInstances hfirst.instantiates.types) types
      (fun p hp => h p (mem_cons_of_mem _ hp)) hlater, hid]

theorem resolveResult_later {c : Context} (hc : c.types.Legible) (type : Option TypeExpr)
    (h : ∀ r, (resolveResult module c type).1 = some r → r.isSome = true)
    (hlater : (resolveResult module c type).2.Instantiates c') :
    resolveResult module c' type = ((resolveResult module c type).1, c') := by
  cases type with
  | none => simp only [resolveResult]
  | some type =>
    rw [resolveResult] at h hlater ⊢
    dsimp only at h hlater ⊢
    obtain ⟨id, hid⟩ := Option.isSome_iff_exists.mp (h _ rfl)
    rw [resolveTypeExpr_later hc type hid hlater, resolveResult]
    dsimp only
    rw [hid]

end

/-! ## States of a program -/

theorem Steps.legible {π : Permit} (h : c.Steps π c') (hπ : ∀ n, π.names n → n.Legible) (hc : c.types.Legible) :
    c'.types.Legible where
  consistent := h.consistent hc.consistent
  names id hid := by
    by_contra hillegible
    have hnone : c.types.lookup (c'.types.get id).name = none :=
      Option.eq_none_iff_forall_ne_some.mpr fun _ hfound => hillegible (hc.of_lookup hfound)
    have hlater := h.lookup_eq_none hnone fun hname => hillegible (hπ _ hname)
    rw [consistent_iff.mp (h.consistent hc.consistent) id hid] at hlater
    cases hlater
  void := hc.primitive?_eq h.keeps ▸ hc.void

theorem Fill.legible (h : c.Fill .filling c') (hc : c.types.Legible) : c'.types.Legible := by
  have hkeeps := h.evolves.keeps
  rcases h.types_cases with hadds | ⟨d, hname, hfresh, hd, heq⟩ | ⟨type, f, -, heq, -⟩
  · exact hc.addsInstances hadds
  · have hprogram : d.name = Lowering.programName := hname
    exact heq ▸ hc.append hd.methods hfresh (hprogram ▸ .plain (by decide) (by decide))
  · exact hc.keeps hkeeps (heq ▸ size_modify _ _ _)

theorem Fills.legible (h : c.Fills .filling c') (hc : c.types.Legible) : c'.types.Legible := by
  induction h with
  | refl => exact hc
  | tail _ hlast ih => exact hlast.legible ih

end Context

namespace Compilation
variable {trees : List Tree} {options : Options} {c : Context}

/-- States that lowering passes: with some of the declarations registered, while they are filled in, and while
bodies are lowered; and what looking types up makes of them. -/
inductive Passes (trees : List Tree) (options : Options) : Context → Prop where
  | registering {before after : List Declaration} : Tree.declarations trees = before ++ after →
      Passes trees options ((start trees options).context.declareAll before).2
  | filling {c c' : Context} : Passes trees options c → c.Fill .filling c' → Passes trees options c'
  | completing {e : Scope} {s : BodyState} : Reached trees options e s → Passes trees options s.context

theorem legible_platform (options : Options) : (platform options).Legible where
  consistent := consistent_platform options
  names id hid := by
    have hall : (platform options).defs.all (fun d => !d.name.segments.isEmpty && d.name.segments.all plain) =
        true := by
      unfold platform
      cases options.target <;> decide +kernel
    have hname := all_eq_true.mp hall _ ((platform options).get_mem_defs hid)
    obtain ⟨hsome, hplain⟩ := Bool.and_eq_true_iff.mp hname
    exact .plain (by simpa using hsome) (all_eq_true.mp hplain)
  void := (grounded_install options.target).primitives .void

theorem segments_ne_nil {n : QualifiedName} (h : n ∈ trees.flatMap Tree.typeNames) : n.segments ≠ [] := by
  obtain ⟨tree, -, h⟩ := mem_flatMap.mp h
  obtain ⟨d, -, h⟩ := mem_flatMap.mp h
  obtain ⟨name, rfl⟩ : ∃ name, n = tree.module.child name := by
    cases d with
    | type d | enum d | union d => exact ⟨_, mem_singleton.mp h⟩
    | taggedUnion d =>
      rcases mem_cons.mp h with hbase | hvariant
      · exact ⟨_, hbase⟩
      · obtain ⟨v, -, rfl⟩ := mem_map.mp hvariant
        exact ⟨_, rfl⟩
    | fn d | error span => cases h
  exact append_ne_nil_of_right_ne_nil _ (cons_ne_nil _ _)

section Plain
variable (hnames : ∀ n ∈ trees.flatMap Tree.typeNames, ∀ s ∈ n.segments, plain s = true)
include hnames

theorem legible_declareAll {before after : List Declaration} (h : Tree.declarations trees = before ++ after) :
    ((start trees options).context.declareAll before).2.types.Legible := by
  have hdeclaring := (start trees options).context.declaring_declareAll
    (π := .registering (trees.flatMap Tree.typeNames)) before fun n hn => by
      rw [Tree.flatMap_typeNames, h, flatMap_append]
      exact mem_append_left _ hn
  exact hdeclaring.1.steps.legible (fun n hn => .plain (segments_ne_nil hn) (hnames n hn))
    (types_start trees options ▸ legible_platform options)

theorem legible_declared : (declared trees options).context.types.Legible := by
  have hstart : (allRegistered trees options).types.Legible := legible_declareAll hnames (append_nil _).symm
  rw [declared_eq]
  exact (Filling.fillAll (l := { context := _ }) .refl fun _ he => he).legible hstart

theorem Reached.legible {e : Scope} {s : BodyState} (h : Reached trees options e s) : s.types.Legible := by
  induction h with
  | @queued before after p hsplit =>
    have hreached : Reached trees options _ _ := .queued hsplit
    obtain ⟨t, hadds, -, hassembly⟩ := (declared trees options).context.exists_lowerBodies_eq before
    have htypes := congrArg Assembly.types hassembly
    refine ⟨hreached.run.consistent (types_start trees options ▸ consistent_platform options), fun id hid => ?_,
      hreached.grounded.primitives .void⟩
    change id.index < ((declared trees options).context.lowerBodies before).assembly.types.size at hid
    change (((declared trees options).context.lowerBodies before).assembly.types.get id).name.Legible
    rw [htypes] at hid ⊢
    rw [size_withBodies] at hid
    rw [get_withBodies]
    exact ((legible_declared hnames).addsInstances hadds).names id hid
  | lowers _ hlowers ih => exact ih.addsInstances (Scope.tracks_continues.lowers hlowers).context.types

theorem Passes.legible (h : Passes trees options c) : c.types.Legible := by
  induction h with
  | registering hsplit => exact legible_declareAll hnames hsplit
  | filling _ hfill ih => exact hfill.legible ih
  | completing hreached => exact hreached.legible hnames

end Plain

/-- Delegates are interned. If the names of a program are plain, then in whatever state lowering passes, two
function types that are found, one after the other, are one type just if they are of one family and for the same
arguments. What has been found is found again right away, with nothing added. -/
theorem delegates_interned (hnames : ∀ n ∈ trees.flatMap Tree.typeNames, ∀ s ∈ n.segments, plain s = true)
    (hc : Passes trees options c) (module : QualifiedName) :
    (∀ params result span id c₁, resolveTypeExpr module c (.function params result span) = (some id, c₁) →
      ∀ c' module' params' result' span' id', Passes trees options c' → c₁.types.Keeps c'.types →
        (resolveTypeExpr module' c' (.function params' result' span')).1 = some id' →
        (id = id' ↔ Context.signature module c params result = Context.signature module' c' params' result')) ∧
      ∀ type id c₁, resolveTypeExpr module c type = (some id, c₁) →
        resolveTypeExpr module c₁ type = (some id, c₁) := by
  refine ⟨fun params result span id c₁ h c' module' params' result' span' id' hc' hkeeps h' => ?_,
    fun type id c₁ h => ?_⟩
  · obtain ⟨args, hargs, hdelegate⟩ := Context.delegates_resolveTypeExpr (congrArg Prod.fst h)
    obtain ⟨args', hargs', hdelegate'⟩ := Context.delegates_resolveTypeExpr h'
    have hadds := (Context.resolves_resolveTypeExpr module' c' (.function params' result' span')).instantiates.types
    rw [h] at hdelegate
    rw [(hdelegate.mono (hkeeps.trans hadds.keeps)).eq_iff ((hc'.legible hnames).addsInstances hadds) hdelegate',
      Prod.ext_iff, hargs, hargs', (List.map_injective_iff.mpr (Option.some_injective _)).eq_iff]
  · refine Context.resolveTypeExpr_later (hc.legible hnames) type (congrArg Prod.fst h) ?_
    rw [h]
    exact .refl c₁

def handlerTree : Tree :=
  { module := ⟨["Demo"]⟩, body := [.enum { name := "Node", members := [] }] }

/-- A function type and another way to write it. -/
def handler : TypeExpr :=
  .function [.function [.named ⟨["i32"]⟩ {}] (some (.named ⟨["none"]⟩ {})) {}] (some (.named ⟨["Node"]⟩ {})) {}

def sameHandler : TypeExpr :=
  .function [.function [.named ⟨["System", "Int32"]⟩ {}] none {}] (some (.named ⟨["Demo", "Node"]⟩ {})) {}

theorem delegates_interned_handlerTree : ∃ id c,
    resolveTypeExpr ⟨["Demo"]⟩ (allRegistered [handlerTree] {}) handler = (some id, c) ∧
      (resolveTypeExpr .global c sameHandler).1 = some id ∧
      resolveTypeExpr ⟨["Demo"]⟩ c handler = (some id, c) := by
  have hstart : Passes [handlerTree] {} (allRegistered [handlerTree] {}) := .registering (List.append_nil _).symm
  obtain ⟨hsame, hagain⟩ := delegates_interned (by decide) hstart ⟨["Demo"]⟩
  have hadds := (Context.resolves_resolveTypeExpr ⟨["Demo"]⟩ (allRegistered [handlerTree] {}) handler).instantiates
  obtain ⟨id, hid⟩ : ∃ id, (resolveTypeExpr ⟨["Demo"]⟩ (allRegistered [handlerTree] {}) handler).1 = some id :=
    Option.isSome_iff_exists.mp (by decide +kernel)
  obtain ⟨id', hid'⟩ : ∃ id, (resolveTypeExpr .global
      (resolveTypeExpr ⟨["Demo"]⟩ (allRegistered [handlerTree] {}) handler).2 sameHandler).1 = some id :=
    Option.isSome_iff_exists.mp (by decide +kernel)
  have hfirst : resolveTypeExpr ⟨["Demo"]⟩ (allRegistered [handlerTree] {}) handler =
      (some id, (resolveTypeExpr ⟨["Demo"]⟩ (allRegistered [handlerTree] {}) handler).2) := by
    rw [← hid]
  have heq : id = id' := (hsame _ _ _ id _ hfirst _ _ _ _ _ id' (hstart.filling (.look (hadds.mono nofun)))
    (.refl _) hid').mpr (by decide +kernel)
  exact ⟨id, _, hfirst, heq ▸ hid', hagain _ id _ hfirst⟩

end Compilation

end TreeCompiler
