import TreeCompiler.TypeTable

/-!
# Growth of a type table

A table that only grows keeps the meaning of handles: types stay where they are, under their names, and
methods keep their places and all but their bodies.
-/

namespace TreeCompiler

open List Option

variable {m m' : Method}

def Method.header (m : Method) : Method :=
  { m with body := none }

theorem Method.params_of_header (h : m'.header = m.header) : m'.params = m.params := by
  have hparams := congrArg params h
  exact hparams

theorem Method.isStatic_of_header (h : m'.header = m.header) : m'.isStatic = m.isStatic := by
  have hstatic := congrArg isStatic h
  exact hstatic

theorem Method.name_of_header (h : m'.header = m.header) : m'.name = m.name := by
  have hname := congrArg name h
  exact hname

/-- What is known of a type when it is registered. -/
def TypeDef.head (d : TypeDef) : TypeDef :=
  { d with
    visibility := .publicAccess
    bases := []
    fields := []
    methods := []
    properties := []
    attributes := [] }

theorem TypeDef.name_of_head {d d' : TypeDef} (h : d'.head = d.head) : d'.name = d.name := by
  have hname := congrArg name h
  exact hname

theorem TypeDef.origin_of_head {d d' : TypeDef} (h : d'.head = d.head) : d'.origin = d.origin := by
  have horigin := congrArg origin h
  exact horigin

namespace TypeTable
variable {id type : TypeId} {t : TypeTable} {m : MethodRef} {arity : Nat}

theorem get_mk_of_lt (t : TypeTable) {i : Nat} (h : i < t.defs.length) : t.get ⟨i⟩ = t.defs[i] :=
  (getElem_eq_getD default).symm

theorem get_mem_defs (t : TypeTable) (h : id.index < t.size) : t.get id ∈ t.defs := by
  rw [get_mk_of_lt t h]
  exact getElem_mem h

theorem get_of_le (t : TypeTable) (h : t.size ≤ id.index) : t.get id = default := by
  rw [get, getD_eq_getElem?_getD, getElem?_eq_none h]
  rfl

theorem forall_get {P : TypeDef → Prop} (hdefault : P default) (h : ∀ d ∈ t.defs, P d) (id : TypeId) :
    P (t.get id) := by
  rcases Nat.lt_or_ge id.index t.size with hlt | hle
  · exact h _ (t.get_mem_defs hlt)
  · rw [t.get_of_le hle]
    exact hdefault

theorem methods_get_of_le (t : TypeTable) (id : TypeId) (h : t.size ≤ id.index) : (t.get id).methods = [] := by
  rw [t.get_of_le h]
  rfl

theorem lt_size_of_methodEntry {c : Method} (h : t.methodEntry m = .ok c) : m.type.index < t.size := by
  have hfound : (t.get m.type).methods[m.index]? = some c := Defect.entry_eq_ok_iff.mp h
  refine Nat.lt_of_not_le fun hle => ?_
  rw [t.methods_get_of_le m.type hle] at hfound
  cases hfound

/-- The types and methods of `t` are in `t'` as well. -/
structure Keeps (t t' : TypeTable) : Prop where
  size : t.size ≤ t'.size
  head : ∀ id, id.index < t.size → (t'.get id).head = (t.get id).head
  methods : ∀ id, (t.get id).methods.map Method.header <+: (t'.get id).methods.map Method.header

namespace Keeps
variable {t t' t'' : TypeTable}

theorem refl (t : TypeTable) : t.Keeps t :=
  ⟨Nat.le_refl _, fun _ _ => rfl, fun _ => prefix_rfl⟩

variable (h : t.Keeps t')
include h

theorem trans (h' : t'.Keeps t'') : t.Keeps t'' where
  size := Nat.le_trans h.size h'.size
  head id hid := (h'.head id (Nat.lt_of_lt_of_le hid h.size)).trans (h.head id hid)
  methods id := (h.methods id).trans (h'.methods id)

theorem name {i : Nat} (hi : i < t.size) : (t'.get ⟨i⟩).name = (t.get ⟨i⟩).name :=
  TypeDef.name_of_head (h.head ⟨i⟩ hi)

/-- A name keeps its type. -/
theorem lookup {name : QualifiedName} (hid : t.lookup name = some id) : t'.lookup name = some id := by
  obtain ⟨i, hfound, rfl⟩ := map_eq_some_iff.mp hid
  obtain ⟨hi, hname, hbefore⟩ := findIdx?_eq_some_iff_getElem.mp hfound
  have hi' : i < t'.defs.length := Nat.lt_of_lt_of_le hi h.size
  have hsame : ∀ j (hj : j ≤ i), (t'.defs[j].name == name) = (t.defs[j].name == name) := by
    intro j hj
    have hlt : j < t.defs.length := Nat.lt_of_le_of_lt hj hi
    rw [← get_mk_of_lt t' (Nat.lt_of_lt_of_le hlt h.size), ← get_mk_of_lt t hlt, h.name hlt]
  refine map_eq_some_iff.mpr ⟨i, findIdx?_eq_some_iff_getElem.mpr ⟨hi', ?_, ?_⟩, rfl⟩
  · rw [hsame i (Nat.le_refl i)]
    exact hname
  · intro j hj
    rw [hsame j (Nat.le_of_lt hj)]
    exact hbefore j hj

/-- A method keeps its place and its header. -/
theorem methodEntry {c : Method} (hc : t.methodEntry m = .ok c) :
    ∃ c', t'.methodEntry m = .ok c' ∧ c'.header = c.header := by
  have hold : (t.get m.type).methods[m.index]? = some c := Defect.entry_eq_ok_iff.mp hc
  obtain ⟨later, hlater⟩ := h.methods m.type
  have hnew : ((t'.get m.type).methods.map Method.header)[m.index]? = some c.header := by
    rw [← hlater, getElem?_append_left, getElem?_map, hold]
    · rfl
    · rw [length_map]
      exact (List.getElem?_eq_some_iff.mp hold).1
  rw [List.getElem?_map, map_eq_some_iff] at hnew
  obtain ⟨c', hc', hheader⟩ := hnew
  exact ⟨c', Defect.entry_eq_ok_iff.mpr hc', hheader⟩

end Keeps

/-! ## Methods by name and arity -/

theorem map_snd_find?_zipIdx {α : Type} (p : α → Bool) (as : List α) (k : Nat) :
    ((as.zipIdx k).find? (p ·.1)).map Prod.snd = (as.findIdx? p).map (· + k) := by
  induction as generalizing k with
  | nil => rfl
  | cons a as ih =>
    rw [zipIdx_cons, find?_cons, findIdx?_cons]
    cases hp : p a with
    | true => simp
    | false => simp [ih, Function.comp_def, Nat.add_assoc, Nat.add_comm 1]

/-- The first method of a name and an arity. -/
theorem findMethod?_eq_some_iff (t : TypeTable) (type : TypeId) (name : String) (arity : Nat)
    (m : MethodRef) : t.findMethod? type name arity = some m ↔ m.type = type ∧
      (t.get type).methods.findIdx? (fun c => c.name == name && c.params.length == arity) = some m.index := by
  have hmap : t.findMethod? type name arity = ((t.get type).methods.findIdx? fun c =>
      c.name == name && c.params.length == arity).map (MethodRef.mk type) := by
    have hfirst := map_snd_find?_zipIdx
      (fun c : Method => c.name == name && c.params.length == arity) (t.get type).methods 0
    simp only [Nat.add_zero, Option.map_id'] at hfirst
    simp only [← hfirst, findMethod?, TypeDef.methodsNamed, find?_filter, find?_map,
      Option.map_map, Function.comp_def, Bool.decide_and, Bool.decide_eq_true]
  rw [hmap, map_eq_some_iff]
  constructor
  · rintro ⟨i, hi, rfl⟩
    exact ⟨rfl, hi⟩
  · rintro ⟨rfl, hi⟩
    exact ⟨m.index, hi, rfl⟩

theorem methodEntry_of_findMethod? {name : String} (h : t.findMethod? type name arity = some m) :
    ∃ c, t.methodEntry m = .ok c ∧ c.name = name ∧ c.params.length = arity := by
  obtain ⟨rfl, hi⟩ := (findMethod?_eq_some_iff t type name arity m).mp h
  obtain ⟨hlt, hc, -⟩ := findIdx?_eq_some_iff_getElem.mp hi
  rw [Bool.and_eq_true, beq_iff_eq, beq_iff_eq] at hc
  exact ⟨_, Defect.entry_eq_ok_iff.mpr (getElem?_eq_getElem hlt), hc⟩

/-- Later methods do not hide one that was found. -/
theorem Keeps.findMethod? {t' : TypeTable} (h : t.Keeps t') {name : String}
    (hm : t.findMethod? type name arity = some m) : t'.findMethod? type name arity = some m := by
  have hheaders : ∀ ms : List Method, ms.findIdx? (fun c => c.name == name && c.params.length == arity) =
        (ms.map Method.header).findIdx? (fun c => c.name == name && c.params.length == arity) := by
    intro ms
    rw [findIdx?_map]
    rfl
  rw [findMethod?_eq_some_iff, hheaders] at hm ⊢
  obtain ⟨later, hlater⟩ := h.methods type
  rw [← hlater, findIdx?_append, hm.2]
  exact ⟨hm.1, rfl⟩

end TypeTable

end TreeCompiler
