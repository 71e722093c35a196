import TreeCompiler.Proofs.TypeTable.Edits
import Mathlib.Data.Fintype.Pigeonhole
import Mathlib.Logic.Function.Iterate

/-!
# Chains of first bases

A type leads to its first base, that one to its own first base, and so on.
-/

namespace TreeCompiler.TypeTable

open TypeTable Function

variable {t : TypeTable} {type id anc : TypeId} {t' : TypeTable} {base : TypeId}

open Relation (ReflTransGen TransGen)

def FirstBase (t : TypeTable) (type base : TypeId) : Prop :=
  (t.get type).baseClass? = some base

theorem FirstBase.unique {b b' : TypeId} (h : t.FirstBase type b) (h' : t.FirstBase type b') : b = b' :=
  Option.some.inj (h.symm.trans h')

theorem bases_get_of_le (t : TypeTable) (h : t.size ≤ id.index) : (t.get id).bases = [] := by
  rw [t.get_of_le h]
  rfl

theorem FirstBase.mem (h : t.FirstBase type base) : base ∈ (t.get type).bases :=
  List.mem_of_head? h

theorem FirstBase.lt_size (h : t.FirstBase type base) : type.index < t.size := by
  by_contra hle
  have hmem := h.mem
  rw [t.bases_get_of_le (Nat.not_lt.mp hle)] at hmem
  cases hmem

/-! ## How far `derivesFrom` looks -/

def ascend (t : TypeTable) (type : Option TypeId) : Option TypeId :=
  type.bind fun id => (t.get id).baseClass?

theorem iterate_ascend_none (t : TypeTable) (n : Nat) : t.ascend^[n] none = none :=
  iterate_fixed rfl n

theorem exists_of_iterate_ascend {k m : Nat} (h : t.ascend^[m + k] (some id) = some anc) :
    ∃ mid, t.ascend^[k] (some id) = some mid ∧ t.ascend^[m] (some mid) = some anc := by
  rw [iterate_add_apply] at h
  cases hmid : t.ascend^[k] (some id) with
  | none =>
    rw [hmid, iterate_ascend_none] at h
    cases h
  | some mid =>
    rw [hmid] at h
    exact ⟨mid, rfl, h⟩

theorem reflTransGen_iff_iterate : ReflTransGen t.FirstBase id anc ↔ ∃ n, t.ascend^[n] (some id) = some anc := by
  constructor
  · intro h
    induction h with
    | refl => exact ⟨0, rfl⟩
    | tail _ hlast ih =>
      obtain ⟨n, hn⟩ := ih
      refine ⟨n + 1, ?_⟩
      rw [iterate_succ_apply', hn]
      exact hlast
  · rintro ⟨n, hn⟩
    induction n generalizing anc with
    | zero =>
      cases hn
      exact .refl
    | succ n ih =>
      rw [Nat.add_comm] at hn
      obtain ⟨mid, hmid, hlast⟩ := exists_of_iterate_ascend hn
      exact (ih hmid).tail hlast

theorem reaches_iff (t : TypeTable) (anc : TypeId) (fuel : Nat) (id : TypeId) :
    t.reaches anc fuel id = true ↔ ∃ n < fuel, t.ascend^[n] (some id) = some anc := by
  induction fuel generalizing id with
  | zero => simp [reaches]
  | succ fuel ih =>
    have hsplit : (∃ n < fuel + 1, t.ascend^[n] (some id) = some anc) ↔
        id = anc ∨ ∃ n < fuel, t.ascend^[n] (t.ascend (some id)) = some anc := by
      constructor
      · rintro ⟨n, hn, h⟩
        cases n with
        | zero => exact Or.inl (Option.some.inj h)
        | succ n => exact Or.inr ⟨n, Nat.lt_of_succ_lt_succ hn, h⟩
      · rintro (rfl | ⟨n, hn, h⟩)
        · exact ⟨0, Nat.succ_pos _, rfl⟩
        · exact ⟨n + 1, Nat.succ_lt_succ hn, h⟩
    rw [hsplit, reaches, Bool.or_eq_true, beq_iff_eq]
    refine or_congr_right ?_
    have hstep : t.ascend (some id) = (t.get id).baseClass? := rfl
    cases hbase : (t.get id).baseClass? with
    | none => simp [hstep, hbase, iterate_ascend_none]
    | some base => simp [hstep, hbase, ih]

/-- The shortest chain to an ancestor is no longer than the table: it visits no type twice, and every
type of it that has a base lies in the table. -/
theorem exists_iterate_le_size (h : ∃ n, t.ascend^[n] (some id) = some anc) :
    ∃ n ≤ t.size, t.ascend^[n] (some id) = some anc := by
  classical
  refine ⟨Nat.find h, ?_, Nat.find_spec h⟩
  by_contra hlong
  rw [Nat.not_le] at hlong
  have hvisits : ∀ k : Fin (t.size + 1), ∃ mid : TypeId,
      t.ascend^[k.val] (some id) = some mid ∧ mid.index < t.size := by
    intro k
    have hk : k.val < Nat.find h := (Nat.le_of_lt_succ k.isLt).trans_lt hlong
    have hend := Nat.find_spec h
    rw [show Nat.find h = (Nat.find h - k.val - 1) + (1 + k.val) by omega] at hend
    obtain ⟨next, hnext, -⟩ := exists_of_iterate_ascend hend
    obtain ⟨mid, hmid, hbase⟩ := exists_of_iterate_ascend hnext
    exact ⟨mid, hmid, FirstBase.lt_size hbase⟩
  choose visit hvisit using hvisits
  obtain ⟨i, j, hne, hij⟩ := Fintype.exists_ne_map_eq_of_card_lt
    (fun k => (⟨(visit k).index, (hvisit k).2⟩ : Fin t.size)) (by simp)
  have hsame : visit i = visit j := congrArg TypeId.mk (congrArg Fin.val hij)
  -- cutting out the part between two visits of one type would make the chain shorter
  have hcut : ∀ a b : Fin (t.size + 1), visit a = visit b → ¬ a.val < b.val := by
    intro a b hab hlt
    have hb : b.val < Nat.find h := (Nat.le_of_lt_succ b.isLt).trans_lt hlong
    have hend := Nat.find_spec h
    rw [show Nat.find h = (Nat.find h - b.val) + b.val by omega, iterate_add_apply,
      (hvisit b).1, ← hab, ← (hvisit a).1, ← iterate_add_apply] at hend
    exact Nat.find_min h (show Nat.find h - b.val + a.val < Nat.find h by omega) hend
  rcases Nat.lt_trichotomy i.val j.val with hlt | heq | hgt
  · exact hcut i j hsame hlt
  · exact hne (Fin.ext heq)
  · exact hcut j i hsame.symm hgt

/-- `derivesFrom` finds every ancestor. -/
theorem derivesFrom_iff (t : TypeTable) (type ancestor : TypeId) :
    t.derivesFrom type ancestor = true ↔ ReflTransGen t.FirstBase type ancestor := by
  rw [derivesFrom, reaches_iff, reflTransGen_iff_iterate]
  constructor
  · rintro ⟨n, -, hn⟩
    exact ⟨n, hn⟩
  · intro h
    obtain ⟨n, hle, hn⟩ := exists_iterate_le_size h
    exact ⟨n, Nat.lt_succ_of_le hle, hn⟩

/-! ## Chains that do not come back -/

/-- No chain of first bases leads from a type back to it. -/
def Acyclic (t : TypeTable) : Prop :=
  ∀ id, ¬ TransGen t.FirstBase id id

def Closed (t : TypeTable) : Prop :=
  ∀ id, ∀ b ∈ (t.get id).bases, b.index < t.size

section Modify
variable {t : TypeTable} {self : TypeId} {f : TypeDef → TypeDef} {x y : TypeId}

theorem firstBase_modify (h : (t.modify self f).FirstBase x y) :
    x ≠ self ∧ t.FirstBase x y ∨ x = self ∧ (f (t.get self)).baseClass? = some y := by
  by_cases hx : x = self
  · subst hx
    have hlt := h.lt_size
    rw [size_modify] at hlt
    rw [FirstBase, get_modify_self t x f hlt] at h
    exact Or.inr ⟨rfl, h⟩
  · rw [FirstBase, get_modify_of_ne t self f x hx] at h
    exact Or.inl ⟨hx, h⟩

theorem reflTransGen_of_modify (h : ReflTransGen (t.modify self f).FirstBase x self) :
    ReflTransGen t.FirstBase x self := by
  induction h using ReflTransGen.head_induction_on with
  | refl => exact .refl
  | head hstep _ ih =>
    rcases firstBase_modify hstep with ⟨-, hold⟩ | ⟨rfl, -⟩
    · exact .head hold ih
    · exact .refl

theorem transGen_or_visits (h : TransGen (t.modify self f).FirstBase x y) :
    TransGen t.FirstBase x y ∨ ReflTransGen (t.modify self f).FirstBase x self := by
  induction h using TransGen.head_induction_on with
  | single hstep =>
    rcases firstBase_modify hstep with ⟨-, hold⟩ | ⟨rfl, -⟩
    · exact Or.inl (.single hold)
    · exact Or.inr .refl
  | head hstep _ ih =>
    rcases firstBase_modify hstep with ⟨-, hold⟩ | ⟨rfl, -⟩
    · exact ih.imp (.head hold) (.head hstep)
    · exact Or.inr .refl

theorem transGen_of_reflTransGen {x y : TypeId} (hxy : ReflTransGen t.FirstBase x y)
    (hcircle : TransGen t.FirstBase x x) : TransGen t.FirstBase y y := by
  induction hxy using ReflTransGen.head_induction_on with
  | refl => exact hcircle
  | head hstep _ ih =>
    obtain ⟨z, hstep', hback⟩ := TransGen.head'_iff.mp hcircle
    obtain rfl := hstep.unique hstep'
    exact ih (TransGen.tail' hback hstep)

/-- A type may get a first base from which no chain leads back to it. -/
theorem Acyclic.modify (h : t.Acyclic)
    (hbase : ∀ b, (f (t.get self)).baseClass? = some b → ¬ ReflTransGen t.FirstBase b self) :
    (t.modify self f).Acyclic := by
  intro id hcircle
  rcases transGen_or_visits hcircle with hold | hvisits
  · exact h id hold
  · -- then the changed type lies on the circle, and the circle leaves it through its new base
    obtain ⟨b, hstep, hback⟩ := TransGen.head'_iff.mp (transGen_of_reflTransGen hvisits hcircle)
    have hback := reflTransGen_of_modify hback
    rcases firstBase_modify hstep with ⟨hne, -⟩ | ⟨-, hnew⟩
    · exact hne rfl
    · exact hbase b hnew hback

end Modify

/-! ## New types -/

section Append
variable {t : TypeTable} {d : TypeDef} {t' : TypeTable}

theorem size_append (t : TypeTable) (d : TypeDef) : size { defs := t.defs ++ [d] } = t.size + 1 :=
  List.length_append

theorem get_append_cases (t : TypeTable) (d : TypeDef) (id : TypeId) :
    id.index < t.size ∧ get { defs := t.defs ++ [d] } id = t.get id ∨
      id.index = t.size ∧ get { defs := t.defs ++ [d] } id = d ∨
      t.size < id.index ∧ get { defs := t.defs ++ [d] } id = default := by
  rcases Nat.lt_trichotomy id.index t.size with hlt | heq | hgt
  · exact Or.inl ⟨hlt, get_append_of_lt t d hlt⟩
  · refine Or.inr (Or.inl ⟨heq, ?_⟩)
    have hnew : (t.defs ++ [d])[id.index]? = some d := by
      rw [heq]
      exact List.getElem?_concat_length
    rw [get, List.getD_eq_getElem?_getD, hnew]
    rfl
  · refine Or.inr (Or.inr ⟨hgt, ?_⟩)
    have hnone : (t.defs ++ [d])[id.index]? = none := by
      refine List.getElem?_eq_none ?_
      rw [List.length_append]
      exact hgt
    rw [get, List.getD_eq_getElem?_getD, hnone]
    rfl

theorem transGen_of_append (hclosed : t.Closed) {x y : TypeId} (hx : x.index < t.size)
    (h : TransGen (FirstBase { defs := t.defs ++ [d] }) x y) : TransGen t.FirstBase x y ∧ y.index < t.size := by
  have hstep : ∀ {a b : TypeId}, a.index < t.size →
      FirstBase { defs := t.defs ++ [d] } a b → t.FirstBase a b ∧ b.index < t.size := by
    intro a b ha hab
    rw [FirstBase, get_append_of_lt t d ha] at hab
    exact ⟨hab, hclosed a b (FirstBase.mem hab)⟩
  induction h with
  | single h =>
    obtain ⟨hold, hlt⟩ := hstep hx h
    exact ⟨.single hold, hlt⟩
  | tail _ hlast ih =>
    obtain ⟨hold, hlt⟩ := hstep ih.2 hlast
    exact ⟨ih.1.tail hold, hlt⟩

/-- A new type is the first base of none, so no circle goes through it. -/
theorem Acyclic.append (h : t.Acyclic) (hclosed : t.Closed) (hd : ∀ b ∈ d.bases, b.index < t.size) :
    Acyclic { defs := t.defs ++ [d] } := by
  intro id hcircle
  obtain ⟨b, hstep, hback⟩ := TransGen.head'_iff.mp hcircle
  rcases get_append_cases t d id with ⟨hlt, -⟩ | ⟨heq, hnew⟩ | ⟨-, hnone⟩
  · exact h id (transGen_of_append hclosed hlt hcircle).1
  · have hb : b.index < t.size := hd b (List.mem_of_head? (hnew ▸ hstep))
    rcases hback.cases_tail with rfl | ⟨c, hbc, hc⟩
    · omega
    · have hlt := (transGen_of_append hclosed hb (TransGen.tail' hbc hc)).2
      omega
  · rw [FirstBase, hnone] at hstep
    cases hstep

theorem Extends.get_eq (h : t.Extends t') (hid : id.index < t.size) : t'.get id = t.get id := by
  induction h with
  | refl => rfl
  | tail hinit hlast ih =>
    obtain ⟨d, -, -⟩ := hlast
    rw [get_append_of_lt _ d (hid.trans_le (evolves hinit).keeps.size), ih]

theorem reflTransGen_of_extends (hclosed : t.Closed) (h : t.Extends t') {x y : TypeId} (hx : x.index < t.size)
    (hxy : ReflTransGen t'.FirstBase x y) : ReflTransGen t.FirstBase x y := by
  have hold : ReflTransGen t.FirstBase x y ∧ y.index < t.size := by
    induction hxy with
    | refl => exact ⟨.refl, hx⟩
    | tail _ hlast ih =>
      rw [FirstBase, h.get_eq ih.2] at hlast
      exact ⟨ih.1.tail hlast, hclosed _ _ (FirstBase.mem hlast)⟩
  exact hold.1

end Append

/-! ## Bases while types are filled in -/

/-- Names of the platform types under which declared types are put. -/
def rootNames : List String :=
  ["Object", "ValueType", "Enum"]

def IsRoot (t : TypeTable) (base : TypeId) : Prop :=
  ∃ name ∈ rootNames, t.system? name = some base

/-- Bases lie in the table, are not sealed, and make no circles. -/
structure Rooted (t : TypeTable) : Prop where
  closed : t.Closed
  unsealed : ∀ id, ∀ b ∈ (t.get id).bases, (t.get b).isSealed = false
  roots : ∀ name ∈ rootNames, ∃ b, t.system? name = some b ∧ (t.get b).isSealed = false ∧
    (t.get b).origin = .external
  object : ∀ b, t.system? "Object" = some b → (t.get b).bases = []
  acyclic : t.Acyclic

/-- What is asked of the bases that a type gets: those that it did not have are roots, or are not sealed,
and a new first one does not derive from the type. -/
structure MayInherit (t : TypeTable) (type : TypeId) (bases : List TypeId) : Prop where
  each : ∀ b ∈ bases, b ∈ (t.get type).bases ∨ t.IsRoot b ∨
    b.index < t.size ∧ (t.get b).isSealed = false
  first : ∀ b, bases.head? = some b → t.FirstBase type b ∨ (t.get type).isSealed = true ∨
    t.system? "Object" = some b ∨ ¬ ReflTransGen t.FirstBase b type

/-- The type `b` may be a base of `type`. -/
structure MayExtend (t : TypeTable) (type b : TypeId) : Prop where
  lt_size : b.index < t.size
  unsealed : (t.get b).isSealed = false
  chain : ¬ ReflTransGen t.FirstBase b type

theorem Keeps.isSealed (h : t.Keeps t') (hid : id.index < t.size) : (t'.get id).isSealed = (t.get id).isSealed := by
  have hsealed := congrArg TypeDef.isSealed (h.head id hid)
  exact hsealed

theorem Keeps.origin (h : t.Keeps t') (hid : id.index < t.size) : (t'.get id).origin = (t.get id).origin :=
  TypeDef.origin_of_head (h.head id hid)

namespace Rooted
variable {t t' : TypeTable} {b self : TypeId} {bases : List TypeId} {f : TypeDef → TypeDef} (h : t.Rooted)
include h

theorem of_isRoot (hb : t.IsRoot b) :
    b.index < t.size ∧ (t.get b).isSealed = false ∧ (t.get b).origin = .external := by
  obtain ⟨name, hname, hfound⟩ := hb
  obtain ⟨b', hb', hunsealed, horigin⟩ := h.roots name hname
  rw [hfound] at hb'
  cases hb'
  exact ⟨(lookup_spec hfound).1, hunsealed, horigin⟩

theorem roots_of_keeps (hkeeps : t.Keeps t') : ∀ name ∈ rootNames,
    ∃ b, t'.system? name = some b ∧ (t'.get b).isSealed = false ∧ (t'.get b).origin = .external := by
  intro name hname
  obtain ⟨b, hb, hunsealed, horigin⟩ := h.roots name hname
  have hlt := (lookup_spec hb).1
  exact ⟨b, hkeeps.lookup hb, (hkeeps.isSealed hlt).trans hunsealed, (hkeeps.origin hlt).trans horigin⟩

theorem object_of_keeps (hkeeps : t.Keeps t') (hb : t'.system? "Object" = some b) : t.system? "Object" = some b := by
  obtain ⟨b', hb', -⟩ := h.roots "Object" List.mem_cons_self
  rw [← hb, hb']
  exact (hkeeps.lookup hb').symm

theorem of_mayInherit (hbases : t.MayInherit self bases) (hb : b ∈ bases) :
    b.index < t.size ∧ (t.get b).isSealed = false := by
  rcases hbases.each b hb with hold | hroot | hnew
  · exact ⟨h.closed self b hold, h.unsealed self b hold⟩
  · exact ⟨(h.of_isRoot hroot).1, (h.of_isRoot hroot).2.1⟩
  · exact hnew

theorem not_reflTransGen (hdefined : (t.get self).origin = .defined)
    (hbases : t.MayInherit self bases) (hb : bases.head? = some b) : ¬ ReflTransGen t.FirstBase b self := by
  intro hback
  rcases hbases.first b hb with hold | hsealed | hobject | hchain
  · exact h.acyclic self (TransGen.head' hold hback)
  · -- a sealed type is the base of none
    rcases hback.cases_tail with rfl | ⟨c, -, hc⟩
    · rw [(h.of_mayInherit hbases (List.mem_of_head? hb)).2] at hsealed
      cases hsealed
    · rw [h.unsealed c self hc.mem] at hsealed
      cases hsealed
  · rcases hback.cases_head with rfl | ⟨c, hc, -⟩
    · rw [(h.of_isRoot ⟨"Object", List.mem_cons_self, hobject⟩).2.2] at hdefined
      cases hdefined
    · have hmem := hc.mem
      rw [h.object b hobject] at hmem
      cases hmem
  · exact hchain hback

theorem mayExtend_of_isRoot (hdefined : (t.get self).origin = .defined) (hb : t.IsRoot b)
    (hself : (t.get self).isSealed = true ∨ t.system? "Object" = some b) : t.MayExtend self b := by
  obtain ⟨hlt, hunsealed, -⟩ := h.of_isRoot hb
  have hinherit : t.MayInherit self [b] := by
    refine ⟨List.forall_mem_singleton.mpr (Or.inr (Or.inl hb)), fun b' hb' => ?_⟩
    cases hb'
    exact Or.inr (hself.imp_right Or.inl)
  exact ⟨hlt, hunsealed, h.not_reflTransGen hdefined hinherit rfl⟩

omit h in
theorem mem_bases_modify {id : TypeId} (h : b ∈ ((t.modify self f).get id).bases) :
    id ≠ self ∧ b ∈ (t.get id).bases ∨ id = self ∧ b ∈ (f (t.get self)).bases := by
  by_cases hid : id = self
  · subst hid
    rcases Nat.lt_or_ge id.index t.size with hlt | hle
    · rw [get_modify_self t id f hlt] at h
      exact Or.inr ⟨rfl, h⟩
    · rw [bases_get_of_le _ ((size_modify t id f).symm ▸ hle)] at h
      cases h
  · rw [get_modify_of_ne t self f id hid] at h
    exact Or.inl ⟨hid, h⟩

/-- A declared type gets bases that it may get. -/
theorem modify (hkeeps : t.Keeps (t.modify self f)) (hdefined : (t.get self).origin = .defined)
    (hbases : t.MayInherit self (f (t.get self)).bases) : (t.modify self f).Rooted := by
  have hbase : ∀ id, ∀ b ∈ ((t.modify self f).get id).bases, b.index < t.size ∧ (t.get b).isSealed = false := by
    intro id b hb
    rcases mem_bases_modify hb with ⟨-, hold⟩ | ⟨-, hnew⟩
    · exact ⟨h.closed id b hold, h.unsealed id b hold⟩
    · exact h.of_mayInherit hbases hnew
  refine ⟨fun id b hb => ?_, fun id b hb => ?_, h.roots_of_keeps hkeeps, fun b hb => ?_, ?_⟩
  · rw [size_modify]
    exact (hbase id b hb).1
  · rw [hkeeps.isSealed (hbase id b hb).1]
    exact (hbase id b hb).2
  · have hold := h.object_of_keeps hkeeps hb
    have hne : b ≠ self := by
      rintro rfl
      rw [(h.of_isRoot ⟨"Object", List.mem_cons_self, hold⟩).2.2] at hdefined
      cases hdefined
    rw [get_modify_of_ne t self f b hne]
    exact h.object b hold
  · exact h.acyclic.modify fun b hb => h.not_reflTransGen hdefined hbases hb

theorem of_bases_eq (hkeeps : t.Keeps t') (hsize : t'.size = t.size)
    (hsame : ∀ id, (t'.get id).bases = (t.get id).bases) : t'.Rooted := by
  have hfirst : t'.FirstBase = t.FirstBase := by
    funext x y
    rw [FirstBase, FirstBase, TypeDef.baseClass?, TypeDef.baseClass?, hsame]
  refine ⟨fun id b hb => ?_, fun id b hb => ?_, h.roots_of_keeps hkeeps, fun b hb => ?_, ?_⟩
  · rw [hsize]
    exact h.closed id b (hsame id ▸ hb)
  · have hold := hsame id ▸ hb
    rw [hkeeps.isSealed (h.closed id b hold)]
    exact h.unsealed id b hold
  · rw [hsame]
    exact h.object b (h.object_of_keeps hkeeps hb)
  · rw [Acyclic, hfirst]
    exact h.acyclic

/-- A type is registered with the bases of another, or under a root. -/
theorem append {d : TypeDef} (hkeeps : t.Keeps { defs := t.defs ++ [d] })
    (hd : ∀ b ∈ d.bases, t.IsRoot b ∨ ∃ id, b ∈ (t.get id).bases) : Rooted { defs := t.defs ++ [d] } := by
  have hnew : ∀ b ∈ d.bases, b.index < t.size ∧ (t.get b).isSealed = false := by
    intro b hb
    rcases hd b hb with hroot | ⟨id, hid⟩
    · exact ⟨(h.of_isRoot hroot).1, (h.of_isRoot hroot).2.1⟩
    · exact ⟨h.closed id b hid, h.unsealed id b hid⟩
  have hbase : ∀ id, ∀ b ∈ (get { defs := t.defs ++ [d] } id).bases,
      b.index < t.size ∧ (t.get b).isSealed = false := by
    intro id b hb
    rcases get_append_cases t d id with ⟨-, heq⟩ | ⟨-, heq⟩ | ⟨-, heq⟩
    · rw [heq] at hb
      exact ⟨h.closed id b hb, h.unsealed id b hb⟩
    · rw [heq] at hb
      exact hnew b hb
    · rw [heq] at hb
      cases hb
  refine ⟨fun id b hb => ?_, fun id b hb => ?_, h.roots_of_keeps hkeeps, fun b hb => ?_, ?_⟩
  · rw [size_append]
    exact Nat.lt_succ_of_lt (hbase id b hb).1
  · rw [hkeeps.isSealed (hbase id b hb).1]
    exact (hbase id b hb).2
  · have hold := h.object_of_keeps hkeeps hb
    rw [get_append_of_lt t d (lookup_spec hold).1]
    exact h.object b hold
  · exact h.acyclic.append h.closed fun b hb => (hnew b hb).1

end Rooted

end TreeCompiler.TypeTable
