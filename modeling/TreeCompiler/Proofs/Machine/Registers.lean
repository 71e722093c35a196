import TreeCompiler.Proofs.Lowering.Overloads
import TreeCompiler.Proofs.Machine.DefinedValues

/-!
# Registers of a method

Every result and every variable of a method has a register of its own, above those of the parameters. The
machine has 256 registers; a method that needs one above them is not written.
-/

namespace TreeCompiler

open List Judgement FlowGraph Places

/-- The arguments of a call are different, and a parameter that is read is one of the method. -/
def Instruction.IsModest (arity : Nat) : Instruction → Prop
  | .loadArg (.param n) => n < arity
  | .call _ args => args.Nodup
  | _ => True

namespace Machine

open Judgement (Holds)

def Line.registers : Line → List Register
  | .copy (.register r) target _ => [r, target]
  | .copy _ target _ => [target]
  | .binary op lhs rhs target => lhs :: rhs :: targets op target
  | .push r | .pop r => [r]
  | _ => []

theorem eq_of_mem_targets {op : Operator} {r target : Register} (h : r ∈ targets op target) :
    r = target ∨ r = .result := by
  cases op <;> simp_all [targets, or_comm]

/-- No register above `bound` is named. -/
abbrev NamesUpTo (bound : Nat) (lines : List Line) : Prop :=
  ∀ line ∈ lines, ∀ r ∈ line.registers, r.number ≤ bound

theorem namesUpTo_copy {bound : Nat} {source target : Register} {note : Option String} (hsource : source.number ≤ bound)
    (htarget : target.number ≤ bound) : NamesUpTo bound [.copy (.register source) target note] :=
  forall_mem_singleton.mpr (forall_mem_cons.mpr ⟨hsource, forall_mem_singleton.mpr htarget⟩)

/-- The register in which a line leaves what it copies or computes. -/
def Line.stored? : Line → Option Register
  | .copy _ target _ | .binary _ _ _ target => some target
  | _ => none

namespace MethodScope
variable {e : MethodScope} {w w' : Writing} {x : InstrId × Instruction} {p : Place}

/-- The register of a result or of a variable. -/
def registerOf (e : MethodScope) (p : Place) : Register :=
  e.placeRegister (e.needs.idxOf p)

/-- The body is that of a lowered method, and the machine has all that it needs but for registers. -/
structure Writable (e : MethodScope) : Prop extends e.Supported where
  finished : e.graph.Finished
  straight : e.graph.Straight e.types e.decl
  distinct : ∀ m args, .call m args ∈ e.graph.instructions → args.Nodup

theorem placed_of_run (he : e.Writable) {done rest : Script} (hsplit : e.body = done ++ rest) {strings : List String}
    {codes : List (List Line)} (h : (e.instructions done).run { strings } = .ok (codes, w)) : e.Placed done w := by
  have hholds := holds_instructions he.finished he.straight hsplit strings
  rw [Judgement.Holds, h] at hholds
  exact hholds

/-! ## Registers of an instruction -/

section Written
variable {id : InstrId} {i : Instruction} {code : List Line} {n bound : Nat} {p : Place} {r : Register}
  {rs values : List Register} {line : Line} {label : String} {result : List Line} {args : List InstrId}
  {ns : List Nat}

theorem number_placeRegister_le (h : n < bound) : (e.placeRegister n).number ≤ e.paramCount + bound := by
  change e.paramCount + 1 + n ≤ e.paramCount + bound
  omega

theorem Holds.length_le {b : BindingId} (h : e.Holds w b n w') :
    n < w'.places.length ∧ w.places.length ≤ w'.places.length := by
  unfold MethodScope.Holds at h
  split at h
  next k hk =>
    obtain ⟨rfl, rfl⟩ := h
    exact ⟨lt_length_of_number? hk, le_rfl⟩
  next =>
    rw [h.2.places, length_append, length_singleton, h.1]
    omega

theorem Takes.length_eq (h : e.Takes w p r w') : w'.places.length = w.places.length + 1 := by
  rw [h.places, length_append, length_singleton]

theorem Takes.number_le (h : e.Takes w p r w') : r.number ≤ e.paramCount + w'.places.length := by
  rw [h.register, h.length_eq]
  exact number_placeRegister_le (Nat.lt_succ_self _)

theorem Writes.length_le (h : e.Writes w id i code w') : w.places.length ≤ w'.places.length := by
  cases h with
  | constant htakes hplaces =>
    rw [hplaces, htakes.length_eq]
    exact Nat.le_succ _
  | loadLocal hholds htakes =>
    rw [htakes.length_eq]
    exact Nat.le_succ_of_le hholds.length_le.2
  | declare hholds | declareUnset hholds => exact hholds.length_le.2
  | call => exact le_rfl
  | load _ htakes | loadArg htakes | binary _ _ htakes | callResult _ _ htakes | newObject htakes =>
    rw [htakes.length_eq]
    exact Nat.le_succ _

/-- An instruction that takes a place leaves its result, or its variable, in the register of the place. -/
theorem Writes.stores (h : e.Writes w id i code w') (hlength : w'.places.length = w.places.length + 1) :
    ∃ line ∈ code, line.stored? = some (e.placeRegister w.places.length) := by
  cases h with
  | constant htakes | loadArg htakes | load _ htakes | binary _ _ htakes | newObject htakes =>
    exact ⟨_, mem_singleton_self _, congrArg some htakes.register⟩
  | loadLocal hholds htakes =>
    have hmiddle := hholds.length_le.2
    refine ⟨_, mem_singleton_self _, congrArg some (htakes.register.trans (congrArg e.placeRegister ?_))⟩
    rw [htakes.length_eq] at hlength
    omega
  | declare hholds | declareUnset hholds =>
    refine ⟨_, mem_singleton_self _, congrArg (some ∘ e.placeRegister) ?_⟩
    unfold MethodScope.Holds at hholds
    split at hholds
    · rw [hholds.2] at hlength
      omega
    · exact hholds.1
  | call => exact absurd hlength (Nat.ne_of_lt (Nat.lt_succ_self _))
  | callResult _ _ htakes =>
    refine ⟨.copy (.register .result) _, ?_, congrArg some htakes.register⟩
    simp [callLines]

theorem mem_registers_push (h : line ∈ rs.map .push) (hr : r ∈ line.registers) : r ∈ rs := by
  obtain ⟨r', hr', rfl⟩ := mem_map.mp h
  rwa [mem_singleton.mp hr]

theorem mem_registers_pop (h : line ∈ rs.map .pop) (hr : r ∈ line.registers) : r ∈ rs := by
  obtain ⟨r', hr', rfl⟩ := mem_map.mp h
  rwa [mem_singleton.mp hr]

theorem number_le_of_mem_range (h : r ∈ (range n).map paramRegister) (hn : n ≤ bound) : r.number ≤ bound := by
  obtain ⟨k, hk, rfl⟩ := mem_map.mp h
  exact Nat.le_trans (mem_range.mp hk) hn

theorem number_le_of_mem_callLines {count : Nat} (hcount : count ≤ bound) (hlength : values.length ≤ bound)
    (hvalues : ∀ r ∈ values, r.number ≤ bound) (hresult : NamesUpTo bound result) :
    NamesUpTo bound (callLines label count values result) := by
  intro line hline r hr
  simp only [callLines, mem_append, mem_cons] at hline
  rcases hline with ((hsaved | hvalue) | hparam) | rfl | hline | hsaved
  · exact number_le_of_mem_range (mem_registers_push hsaved hr) hcount
  · exact hvalues r (mem_registers_push hvalue hr)
  · exact number_le_of_mem_range (mem_reverse.mp (mem_registers_pop hparam hr)) hlength
  · cases hr
  · exact hresult line hline r hr
  · exact number_le_of_mem_range (mem_reverse.mp (mem_registers_pop hsaved hr)) hcount

theorem InPlaces.length_le (h : InPlaces w args ns) (hargs : args.Nodup) : ns.length ≤ w.places.length := by
  have hmem : ∀ a ∈ args, .value a ∈ w.places :=
    ((forall₂_and_left _ _).mp (h.imp fun a n hn => ⟨mem_of_number? hn, hn⟩)).1
  have hsubset : args.map Place.value ⊆ w.places := by
    intro p hp
    obtain ⟨a, ha, rfl⟩ := mem_map.mp hp
    exact hmem a ha
  have hnodup : (args.map Place.value).Nodup := hargs.map fun _ _ h => Place.value.inj h
  calc ns.length = (args.map Place.value).length := by rw [← h.length_eq, length_map]
    _ ≤ w.places.length := (hnodup.subperm hsubset).length_le

theorem InPlaces.number_le (h : InPlaces w args ns) :
    ∀ r ∈ ns.map e.placeRegister, r.number ≤ e.paramCount + w.places.length := by
  induction h with
  | nil => simp
  | cons hn _ ih =>
    rw [map_cons, forall_mem_cons]
    exact ⟨number_placeRegister_le (lt_length_of_number? hn), ih⟩

theorem Writes.number_le (h : e.Writes w id i code w') (hi : i.IsModest e.paramCount) :
    NamesUpTo (e.paramCount + w'.places.length) code := by
  have hplaced : ∀ {id n}, w.places.number? (.value id) = some n →
      (e.placeRegister n).number ≤ e.paramCount + w'.places.length :=
    fun hn => number_placeRegister_le ((lt_length_of_number? hn).trans_le h.length_le)
  have hcall : ∀ {label args ns result}, args.Nodup → InPlaces w args ns →
      NamesUpTo (e.paramCount + w'.places.length) result → NamesUpTo (e.paramCount + w'.places.length)
        (callLines label (e.paramCount + w.places.length) (ns.map e.placeRegister) result) := by
    intro label args ns result hargs hns hresult
    have hgrows : e.paramCount + w.places.length ≤ e.paramCount + w'.places.length :=
      Nat.add_le_add_left h.length_le _
    refine number_le_of_mem_callLines hgrows ?_ (fun r hr => (hns.number_le r hr).trans hgrows) hresult
    rw [length_map]
    exact (hns.length_le hargs).trans ((Nat.le_add_left _ _).trans hgrows)
  cases h with
  | constant htakes hplaces _ hspells =>
    rw [hplaces]
    cases hspells <;> exact forall_mem_singleton.mpr (forall_mem_singleton.mpr htakes.number_le)
  | load hn htakes => exact namesUpTo_copy (hplaced hn) htakes.number_le
  | loadArg htakes => exact namesUpTo_copy (Nat.le_trans hi (Nat.le_add_right _ _)) htakes.number_le
  | loadLocal hholds htakes =>
    refine namesUpTo_copy (number_placeRegister_le (hholds.length_le.1.trans_le ?_)) htakes.number_le
    exact htakes.length_eq ▸ Nat.le_succ _
  | declare hholds hn =>
    exact namesUpTo_copy (number_placeRegister_le (lt_length_of_number? hn))
      (number_placeRegister_le hholds.length_le.1)
  | declareUnset hholds =>
    exact forall_mem_singleton.mpr (forall_mem_singleton.mpr (number_placeRegister_le hholds.length_le.1))
  | binary hn hk htakes =>
    refine forall_mem_singleton.mpr fun r hr => ?_
    rcases mem_cons.mp hr with rfl | hr
    · exact hplaced hn
    rcases mem_cons.mp hr with rfl | hr
    · exact hplaced hk
    rcases eq_of_mem_targets hr with rfl | rfl
    · exact htakes.number_le
    · exact Nat.zero_le _
  | call _ hns => exact hcall hi hns (forall_mem_nil _)
  | callResult _ hns htakes => exact hcall hi hns (namesUpTo_copy (Nat.zero_le _) htakes.number_le)
  | newObject htakes => exact forall_mem_singleton.mpr (forall_mem_singleton.mpr htakes.number_le)

theorem WritesAll.number_le {is : Script} {codes : List (List Line)}
    (h : e.WritesAll w is codes w') (his : ∀ x ∈ is, x.2.IsModest e.paramCount) :
    w.places.length ≤ w'.places.length ∧ NamesUpTo (e.paramCount + w'.places.length) codes.flatten := by
  induction h with
  | nil => exact ⟨le_rfl, forall_mem_nil _⟩
  | cons hfirst _ ih =>
    obtain ⟨hgrows, hrest⟩ := ih fun x hx => his x (mem_cons_of_mem _ hx)
    refine ⟨hfirst.length_le.trans hgrows, fun line hline r hr => ?_⟩
    rcases mem_append.mp hline with hline | hline
    · have hnumber := hfirst.number_le (his _ mem_cons_self) line hline r hr
      exact hnumber.trans (Nat.add_le_add_left hgrows _)
    · exact hrest line hline r hr

theorem WritesFlow.number_le {flow : Flow} (h : e.WritesFlow w flow code) :
    NamesUpTo (e.paramCount + w.places.length) code := by
  cases h with
  | retValue hn =>
    refine forall_mem_cons.mpr ⟨forall_mem_cons.mpr ⟨?_, ?_⟩, ?_⟩
    · exact number_placeRegister_le (lt_length_of_number? hn)
    · exact forall_mem_singleton.mpr (Nat.zero_le _)
    · exact forall_mem_singleton.mpr (forall_mem_nil _)
  | ret | jump | unreachable => exact forall_mem_singleton.mpr (forall_mem_nil _)

theorem push_mem_callLines {k count : Nat} (h : k < count) :
    .push (paramRegister k) ∈ callLines label count values result := by
  simp only [callLines, mem_append]
  exact .inl (.inl (.inl (mem_map_of_mem (mem_map_of_mem (mem_range.mpr h)))))

theorem Writes.push_mem {m : MethodRef} (h : e.Writes w id (.call m args) code w') {k : Nat}
    (hk : k < e.paramCount) : .push (paramRegister k) ∈ code := by
  cases h with
  | call | callResult => exact push_mem_callLines (Nat.lt_add_right _ hk)

end Written

/-! ## Registers of a method -/

/-- How the lines of a method use registers. What is made or declared is left in its own register; above the
registers of the parameters and of what is made and declared none is named. A register that the machine has not
is named just if a call saves those of too many parameters. -/
structure Allocates (e : MethodScope) (strings : List String) (lines : List Line) : Prop where
  stores : ∀ done x rest p, e.body = done ++ x :: rest → x.2.place? e.answers x.1 = some p →
    ∃ w code, e.Part strings lines done x w code ∧ ∃ line ∈ code, line.stored? = some (e.registerOf p)
  bounded : ∀ line ∈ lines, ∀ r ∈ line.registers, r.number ≤ e.arity + e.needs.length
  within : (∀ line ∈ lines, ∀ r ∈ line.registers, r.number < registerCount) ↔
    e.arity < registerCount ∨ e.graph.calls = []

namespace Writable
variable {done rest : Script} {x : InstrId × Instruction} (he : e.Writable)
include he

theorem plain : e.Plain (e.body.map Prod.snd) := by
  intro m args hmem
  rw [body, map_snd_instructionsOf he.straight.numbered] at hmem
  have hsupported := he.supported _ hmem
  rw [Instruction.isSupported, Bool.and_eq_true, Bool.not_eq_true'] at hsupported
  exact hsupported.1

theorem isModest (hx : x ∈ e.body) : x.2.IsModest e.paramCount := by
  obtain ⟨done, rest, hsplit⟩ := append_of_mem hx
  have hallowed := he.straight.allowed_of_split hsplit
  obtain ⟨id, i⟩ := x
  cases i with
  | loadArg arg =>
    cases arg with
    | this => trivial
    | param n => exact he.paramCount_eq ▸ hallowed
  | call m args => exact he.distinct m args (mem_instructions he.straight hx)
  | _ => trivial

theorem eq_call_of_place? (hx : x ∈ e.body) (hplace : x.2.place? e.answers x.1 = none) :
    ∃ m args, x.2 = .call m args := by
  have hsupported := he.supported x.2 (mem_instructions he.straight hx)
  obtain ⟨id, i⟩ := x
  cases i with
  | call m args => exact ⟨m, args, rfl⟩
  | storeField => cases hsupported
  | _ => cases hplace

theorem body_eq_nil (hneeds : e.needs = []) (hcalls : e.graph.calls = []) : e.body = [] := by
  refine eq_nil_iff_forall_not_mem.mpr fun x hx => ?_
  obtain ⟨m, args, hcall⟩ := he.eq_call_of_place? hx (filterMap_eq_nil_iff.mp hneeds x hx)
  have hmem : (m, args) ∈ e.graph.calls :=
    mem_calls_iff.mpr (hcall ▸ mem_instructions he.straight hx)
  rw [hcalls] at hmem
  cases hmem

theorem nodup_needs : e.needs.Nodup :=
  he.straight.nodup_placesOf e.answers

end Writable

theorem registerOf_eq (hstraight : e.graph.Straight e.types e.decl)
    {done rest : Script} (hsplit : e.body = done ++ x :: rest) (hplace : x.2.place? e.answers x.1 = some p) :
    e.registerOf p = e.placeRegister (placesOf e.answers done).length := by
  rw [registerOf, needs_of_split hsplit hplace, idxOf_append_of_notMem (hstraight.notMem_placesOf hsplit hplace),
    idxOf_cons_self, Nat.add_zero]

theorem registerOf_inj {q : Place} (hp : p ∈ e.needs) (h : e.registerOf p = e.registerOf q) : p = q := by
  have hindex : e.needs.idxOf p = e.needs.idxOf q := Nat.add_left_cancel (Register.mk.inj h)
  exact (idxOf_inj hp).mp hindex

section Run
variable {strings : List String} {lines : List Line} {codes : List (List Line)} (he : e.Writable)
include he

theorem stores_of_run (end_ : List Line) (h : (e.instructions e.body).run { strings } = .ok (codes, w'))
    {done rest : Script} (hsplit : e.body = done ++ x :: rest) :
    ∃ w code w₁, e.Part strings (e.layout codes end_) done x w code ∧ e.Writes w x.1 x.2 code w₁ ∧
      ∀ p, x.2.place? e.answers x.1 = some p → ∃ line ∈ code, line.stored? = some (e.registerOf p) := by
  have hmem : x ∈ e.body := hsplit ▸ mem_append_right _ mem_cons_self
  rw [hsplit] at h
  obtain ⟨w, code, w₁, others, hpart, hrun, -⟩ := @part_of_run _ _ _ _ _ _ _ end_ h
  have hwrites : e.Writes w x.1 x.2 code w₁ :=
    writes_of_run (fun m args hcall => he.plain m args (hcall ▸ mem_map_of_mem hmem)) hrun
  refine ⟨w, code, w₁, hpart, hwrites, fun p hplace => ?_⟩
  obtain ⟨before, -, hbefore, -⟩ := hpart.place
  have hw := placed_of_run he hsplit hbefore
  have hw₁ : e.Placed (done ++ [x]) w₁ := by
    have hholds := holds_instruction he.finished he.straight hsplit hw
    rw [Judgement.Holds, hrun] at hholds
    exact hholds
  rw [registerOf_eq he.straight hsplit hplace, ← hw.places]
  refine hwrites.stores ?_
  rw [hw₁.places, placesOf_concat_some hplace, ← hw.places, length_append, length_singleton]

theorem push_mem_of_run (end_ : List Line) (h : (e.instructions e.body).run { strings } = .ok (codes, w'))
    (hcalls : e.graph.calls ≠ []) {k : Nat} (hk : k < e.arity) : .push (paramRegister k) ∈ e.layout codes end_ := by
  obtain ⟨⟨m, args⟩, hmade⟩ := exists_mem_of_ne_nil _ hcalls
  have hmem : .call m args ∈ e.body.map Prod.snd := by
    rw [body, map_snd_instructionsOf he.straight.numbered]
    exact mem_calls_iff.mp hmade
  obtain ⟨⟨id, i⟩, hx, hi⟩ := mem_map.mp hmem
  obtain ⟨done, rest, hsplit⟩ := append_of_mem hx
  obtain ⟨w, code, w₁, hpart, hwrites, -⟩ := stores_of_run he end_ h hsplit
  obtain ⟨before, after, -, hlines⟩ := hpart.place
  obtain rfl : i = .call m args := hi
  have hpush := hwrites.push_mem (he.paramCount_eq ▸ hk)
  rw [hlines, layout]
  simp [hpush]

theorem registers_eq_nil {end_ : List Line} (h : (e.instructions e.body).run { strings } = .ok (codes, w'))
    (hend : e.WritesFlow w' (e.graph.block .entry).flow end_) (hneeds : e.needs = [])
    (hcalls : e.graph.calls = []) : ∀ line ∈ e.layout codes end_, line.registers = [] := by
  have hplaces : w'.places = [] := (placed_of_run he (append_nil _).symm h).places.trans hneeds
  rw [he.body_eq_nil hneeds hcalls] at h
  cases h
  refine forall_mem_cons.mpr ⟨rfl, forall_mem_cons.mpr ⟨rfl, ?_⟩⟩
  generalize (e.graph.block .entry).flow = flow at hend
  cases hend with
  | retValue hn => cases hn
  | ret | jump | unreachable => exact forall_mem_singleton.mpr rfl

theorem allocates_of_run (hroom : ¬ e.Exceeds)
    (h : e.lines.run { strings } = .ok (lines, w')) : e.Allocates strings lines := by
  obtain ⟨codes, end_, rfl, hcodes, hend⟩ := lines_eq_of_run he.straight.blocks h
  have hplaced := placed_of_run he (append_nil _).symm hcodes
  have hall := writesAll_of_run he.plain hcodes
  have hbounded : NamesUpTo (e.arity + e.needs.length) (e.layout codes end_) := by
    rw [← he.paramCount_eq, needs, ← hplaced.places]
    refine forall_mem_cons.mpr ⟨forall_mem_nil _, forall_mem_cons.mpr ⟨forall_mem_nil _, ?_⟩⟩
    exact forall_mem_append.mpr ⟨(hall.number_le fun x hx => he.isModest hx).2, hend.number_le⟩
  have hneeds : e.needs ≠ [] → e.arity + e.needs.length < registerCount :=
    fun hneeds => Nat.lt_of_not_le fun hle => hroom ⟨hneeds, hle⟩
  refine ⟨fun done x rest p hsplit hplace => ?_, hbounded, fun hwithin => ?_, fun hfew line hline r hr => ?_⟩
  · obtain ⟨w, code, w₁, hpart, -, hstores⟩ := stores_of_run he end_ hcodes hsplit
    exact ⟨w, code, hpart, hstores p hplace⟩
  · -- a call saves the register of the last parameter
    refine or_iff_not_imp_right.mpr fun hcalls => Nat.lt_of_not_le fun hle => ?_
    have hlast : e.arity - 1 < e.arity := Nat.sub_one_lt_of_lt ((by decide : 0 < registerCount).trans_le hle)
    have hpush := push_mem_of_run he end_ hcodes hcalls hlast
    have hlt : e.arity - 1 + 1 < registerCount := hwithin _ hpush _ (mem_singleton_self _)
    omega
  · have hle := hbounded line hline r hr
    by_cases hnone : e.needs = []
    · rcases hfew with harity | hcalls
      · rw [hnone, length_nil, Nat.add_zero] at hle
        exact hle.trans_lt harity
      · rw [registers_eq_nil he hcodes hend hnone hcalls line hline] at hr
        cases hr
    · exact hle.trans_lt (hneeds hnone)

theorem run_lines_eq (strings : List String) :
    if e.Exceeds then e.lines.run { strings } = .error (.outOfRegisters e.symbol)
    else ∃ lines w', e.lines.run { strings } = .ok (lines, w') ∧ e.Allocates strings lines := by
  have hholds := holds_lines he.finished he.straight strings
  rw [Judgement.Holds] at hholds
  cases hrun : e.lines.run { strings } with
  | error error =>
    rw [hrun] at hholds
    obtain ⟨rfl, hexceeds⟩ := hholds.exhausted he.toSupported
    rw [if_pos hexceeds]
  | ok out =>
    rw [hrun] at hholds
    have hplaced : e.Placed e.body out.2 := hholds
    have hroom : ¬ e.Exceeds := by
      rintro ⟨hneeds, hle⟩
      have hlt := hplaced.room (hplaced.places ▸ hneeds)
      rw [hplaced.places, he.paramCount_eq] at hlt
      exact Nat.not_lt.mpr hle hlt
    rw [if_neg hroom]
    exact ⟨out.1, out.2, rfl, allocates_of_run he hroom hrun⟩

end Run

theorem methodLines_eq_map (strings : List String) (hstatic : e.decl.isStatic = true)
    (hbody : e.decl.body = some e.graph) : methodLines e.types strings e.method =
      (e.lines.run { strings }).map fun out => (out.1, out.2.strings) := by
  rw [methodLines, hstatic, Bool.not_true, if_neg Bool.false_ne_true, hbody]
  change (e.lines.run { strings } >>= fun out => pure (out.1, out.2.strings)) = _
  cases e.lines.run { strings } <;> rfl

end MethodScope

end Machine

namespace Compilation

theorem eq_ok_of_toOption {ε α : Type} {x : Except ε α} {a : α} (h : x.toOption = some a) : x = .ok a := by
  cases x with
  | error _ => cases h
  | ok _ => exact congrArg Except.ok (Option.some.inj h)

open Machine in
/-- The registers of a static method of a program that has nothing that the machine lacks. All results and
variables have registers of their own, above those of the parameters. The method is not written just if some
are needed and there are not that many. -/
theorem registers_lowered (trees : List Tree) (options : Options) (e : MethodScope) (strings : List String)
    (htypes : e.types = (lowered trees options).assembly.types)
    (hstatic : e.decl.isStatic = true) (hbody : e.decl.body = some e.graph) (hparams : e.arity < 65535)
    (hsupported : ∀ i ∈ e.graph.instructions, i.isSupported e.types = true) :
    e.needs.Nodup ∧
      (∀ p ∈ e.needs, e.arity < (e.registerOf p).number ∧ ∀ q, e.registerOf p = e.registerOf q → p = q) ∧
      if e.Exceeds then methodLines e.types strings e.method = .error (.outOfRegisters e.symbol)
      else ∃ lines strings', methodLines e.types strings e.method = .ok (lines, strings') ∧
        e.Allocates strings lines := by
  have hready : (lowered trees options).assembly.Ready False :=
    ready_lowered trees options False.elim False.elim
  have he : e.Writable := by
    obtain ⟨types, method, graph⟩ := e
    cases htypes
    obtain ⟨hfinished, hstraight⟩ := hready.bodies method graph hbody
    refine ⟨⟨Nat.succ_lt_succ hparams, hsupported⟩, hfinished, hstraight, fun m args hcall => ?_⟩
    have hordered := ordered_of_mem_calls hbody (FlowGraph.mem_calls_iff.mpr hcall)
    exact hordered.imp fun hlt heq => Nat.ne_of_lt hlt (congrArg InstrId.index heq)
  have hlines := MethodScope.methodLines_eq_map strings hstatic hbody
  refine ⟨he.nodup_needs, fun p hp => ⟨?_, fun q => MethodScope.registerOf_inj hp⟩, ?_⟩
  · rw [MethodScope.registerOf, MethodScope.placeRegister, he.paramCount_eq]
    exact Nat.lt_add_right _ (Nat.lt_succ_self _)
  · have hrun := MethodScope.run_lines_eq he strings
    split
    next hexceeds =>
      rw [if_pos hexceeds] at hrun
      rw [hlines, hrun]
      rfl
    next hroom =>
      rw [if_neg hroom] at hrun
      obtain ⟨lines, w', hrun, hallocates⟩ := hrun
      exact ⟨lines, w'.strings, by rw [hlines, hrun]; rfl, hallocates⟩

/-- A function that does nothing, and one of `n` parameters with some statements. -/
def savingTree (n : Nat) (body : List Stmt) : Tree where
  body := [
    .fn { name := "g", body := some [] },
    .fn
      { name := "f"
        params := replicate n { name := "p", type := .named ⟨["i8"]⟩ {} }
        body := some body }]

/-- The function of `n` parameters keeps a number in a variable and calls the other one. -/
def savingProgram (n : Nat) : Compilation :=
  lowered [savingTree n [.var "x" none (some (.ofInt 7)) {}, .call (.unqualified "g") [] {}]] { target := .machine }

/-- The function of `n` parameters, with a body. -/
def savingScope (n : Nat) (graph : FlowGraph) : Machine.MethodScope where
  types := (savingProgram n).assembly.types
  method := ⟨⟨40⟩, 1⟩
  graph := graph

theorem types_savingScope (n : Nat) (graph : FlowGraph) : (savingScope n graph).types =
    (lowered [savingTree n [.var "x" none (some (.ofInt 7)) {}, .call (.unqualified "g") [] {}]]
      { target := .machine }).assembly.types := by
  rw [savingScope, savingProgram]

/-- With three places to keep, all registers are used at 252 parameters, and one is missing at 253. -/
theorem registers_lowered_savingTree :
    (∃ graph lines strings, (savingScope 252 graph).needs.length = 3 ∧
      Machine.methodLines (savingScope 252 graph).types [] ⟨⟨40⟩, 1⟩ = .ok (lines, strings) ∧
      (savingScope 252 graph).Allocates [] lines) ∧
    ∃ graph, Machine.methodLines (savingScope 253 graph).types [] ⟨⟨40⟩, 1⟩ =
      .error (.outOfRegisters (savingScope 253 graph).symbol) := by
  have hchecked : ∀ n ∈ [252, 253], ((savingScope n .empty).types.method ⟨⟨40⟩, 1⟩).body.map (fun g =>
      (((savingScope n g).types.method ⟨⟨40⟩, 1⟩).isStatic, (savingScope n g).arity,
        g.instructions.all (·.isSupported (savingScope n g).types), (savingScope n g).needs.length)) =
          some (true, n, true, 3) := by
    decide +kernel
  obtain ⟨g, hg, hchecked₁⟩ := Option.map_eq_some_iff.mp (hchecked 252 (by decide))
  obtain ⟨g', hg', hchecked₂⟩ := Option.map_eq_some_iff.mp (hchecked 253 (by decide))
  simp only [Prod.mk.injEq] at hchecked₁ hchecked₂
  obtain ⟨hstatic, harity, hsupported, hneeds⟩ := hchecked₁
  obtain ⟨hstatic', harity', hsupported', hneeds'⟩ := hchecked₂
  have hlines := (registers_lowered _ _ (savingScope 252 g) [] (types_savingScope 252 g) hstatic hg
    (harity.trans_lt (by decide)) (List.all_eq_true.mp hsupported)).2.2
  have hlines' := (registers_lowered _ _ (savingScope 253 g') [] (types_savingScope 253 g') hstatic' hg'
    (harity'.trans_lt (by decide)) (List.all_eq_true.mp hsupported')).2.2
  refine ⟨?_, g', ?_⟩
  · have hroom : ¬ (savingScope 252 g).Exceeds := by
      rw [Machine.MethodScope.Exceeds, harity, hneeds]
      exact fun h => absurd h.2 (by decide)
    rw [if_neg hroom] at hlines
    obtain ⟨lines, strings, hlines, hallocates⟩ := hlines
    exact ⟨g, lines, strings, hneeds, hlines, hallocates⟩
  · have hexceeds : (savingScope 253 g').Exceeds := by
      rw [Machine.MethodScope.Exceeds, harity', hneeds']
      exact ⟨fun hnone => by simp [hnone] at hneeds', by decide⟩
    rwa [if_pos hexceeds] at hlines'

/-- Around a call, registers of parameters are saved that there are not. -/
theorem saves_missing_register :
    let a := lowered [savingTree 256 [.call (.unqualified "g") [] {}]] { target := .machine }
    a.diagnostics = [] ∧ ∃ lines, a.assembly.machineLines = .ok lines ∧ .push ⟨Machine.registerCount⟩ ∈ lines := by
  intro a
  have hlines : (a.diagnostics.isEmpty, a.assembly.machineLines.toOption.map
      (·.contains (.push ⟨Machine.registerCount⟩))) = (true, some true) := by
    decide +kernel
  obtain ⟨hsilent, hlines⟩ := Prod.mk.inj hlines
  obtain ⟨lines, hok, hpush⟩ := Option.map_eq_some_iff.mp hlines
  exact ⟨List.isEmpty_iff.mp hsilent, lines, eq_ok_of_toOption hok, List.contains_iff_mem.mp hpush⟩

end Compilation

end TreeCompiler
