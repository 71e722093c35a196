import TreeCompiler.Proofs.Image.RowTokens
import TreeCompiler.Proofs.StackCode.Heights

/-!
# Numbers in code

The numbers of slots and arguments take two bytes in code. A reader finds each of them up to a multiple of 65536, and
the number itself just if it is smaller.
-/

namespace TreeCompiler

open List Opcode StackCode
open CodeScope (wordSize)

namespace Opcode

/-- The opcode holds the number of a slot or of an argument. -/
def isNumbered : Opcode → Bool
  | .loadArg _ | .loadLocal _ | .storeLocal _ => true
  | _ => false

def number : Opcode → Nat
  | .loadArg n | .loadLocal n | .storeLocal n => n
  | _ => 0

/-- What two bytes hold of the number. -/
def narrowed : Opcode → Opcode
  | .loadArg n => .loadArg (n % wordSize)
  | .loadLocal n => .loadLocal (n % wordSize)
  | .storeLocal n => .storeLocal (n % wordSize)
  | op => op

theorem narrowed_eq_iff (op : Opcode) : op.narrowed = op ↔ op.number < wordSize := by
  have hmod : ∀ n, n % wordSize = n ↔ n < wordSize := fun n => Nat.mod_eq_iff_lt (by decide)
  cases op with
  | loadArg n | loadLocal n | storeLocal n => simp [narrowed, number, hmod]
  | _ => exact iff_of_true rfl (by decide : 0 < wordSize)

theorem map_narrowed_eq_iff (ops : List Opcode) : ops.map narrowed = ops ↔ ∀ op ∈ ops, op.number < wordSize := by
  induction ops with
  | nil => simp
  | cons op ops ih => rw [map_cons, cons.injEq, narrowed_eq_iff, ih, forall_mem_cons]

end Opcode

def Instruction.argument? : Instruction → Option Argument
  | .loadArg arg => some arg
  | _ => none

namespace CodeScope
variable {p : Place} {n : Nat} {b : BindingId} {id : InstrId} {i : Instruction} {code : List StackInstr}
  {codes : List (List StackInstr)}

/-- The results and variables of the body, each of which needs a slot. -/
def needs (e : CodeScope) : Places :=
  placesOf e.yields e.graph.script

/-- The slot of a result or of a variable. -/
def slot (e : CodeScope) (p : Place) : Nat :=
  e.needs.idxOf p

/-- The position of an argument. An object comes before the parameters of its method. -/
def argument (e : CodeScope) : Argument → Nat
  | .this => 0
  | .param n => if e.decl.isStatic then n else n + 1

/-- The opcodes with which an instruction reads an argument and places, and fills its own. -/
def numbers (e : CodeScope) (id : InstrId) (i : Instruction) : List Opcode :=
  i.argument?.toList.map (fun arg => .loadArg (e.argument arg)) ++ i.sources.map (fun p => .loadLocal (e.slot p)) ++
    (i.sink? e.yields id).toList.map fun p => .storeLocal (e.slot p)

/-- The opcodes with which the end of a block reads a value. -/
def flowNumbers (e : CodeScope) (b : Block) : List Opcode :=
  (e.flowSource? b).toList.map fun id => .loadLocal (e.slot (.value id))

/-- The opcodes of the body that hold the number of a slot or of an argument. -/
def allNumbers (e : CodeScope) : List Opcode :=
  e.graph.script.flatMap (fun x => e.numbers x.1 x.2) ++
    e.flowNumbers (e.graph.block .entry)

variable {e : CodeScope} {f : References} {frame mid frame' : Frame}

/-! ## Slots -/

theorem slot_of_number? (h : frame.places.number? p = some n) (hinitial : frame.places <+: e.needs) : e.slot p = n := by
  obtain ⟨rest, hrest⟩ := hinitial
  rw [slot, ← hrest, idxOf_append_of_mem (Places.mem_of_number? h), Places.idxOf_of_number? h]

theorem slot_of_takes {type : Option TypeId} (h : frame.Takes f e.types p type n frame')
    (hinitial : frame'.places <+: e.needs) (hnodup : e.needs.Nodup) : e.slot p = n := by
  obtain ⟨rest, hrest⟩ := hinitial
  rw [h.places] at hrest
  have hnew : p ∉ frame.places := by
    have hfirst : (frame.places ++ [p]).Nodup := (hrest ▸ hnodup).of_append_left
    exact fun hmem => (nodup_append.mp hfirst).2.2 p hmem p (mem_singleton_self p) rfl
  rw [slot, ← hrest, append_assoc, idxOf_append_of_notMem hnew, singleton_append,
    idxOf_cons_self, Nat.add_zero, h.slot_eq]

theorem slot_of_holds (h : frame.Holds f e.types e.graph b n frame') (hinitial : frame'.places <+: e.needs)
    (hnodup : e.needs.Nodup) : e.slot (.binding b) = n := by
  unfold Frame.Holds at h
  split at h
  next k hk =>
    obtain ⟨rfl, rfl⟩ := h
    exact slot_of_number? hk hinitial
  next =>
    obtain ⟨p, -, htakes⟩ := h
    exact slot_of_takes htakes hinitial hnodup

theorem slot_inj {q : Place} (hp : p ∈ e.needs) : e.slot p = e.slot q ↔ p = q :=
  idxOf_inj hp

theorem narrowed_slots_inj_iff (hnodup : e.needs.Nodup) :
    (∀ p ∈ e.needs, ∀ q ∈ e.needs, e.slot p % wordSize = e.slot q % wordSize → p = q) ↔
      e.needs.length ≤ wordSize := by
  constructor
  · -- the slots 0 and 65536 would be the same
    intro h
    by_contra hmany
    have hlast : wordSize < e.needs.length := Nat.lt_of_not_le hmany
    have hfirst : 0 < e.needs.length := Nat.lt_of_le_of_lt (Nat.zero_le _) hlast
    have hslot : ∀ k (hk : k < e.needs.length), e.slot (e.needs.get ⟨k, hk⟩) = k :=
      fun k hk => hnodup.idxOf_getElem k hk
    have heq := h _ (get_mem _ ⟨0, hfirst⟩) _ (get_mem _ ⟨wordSize, hlast⟩)
      (by rw [hslot, hslot, Nat.mod_self, Nat.zero_mod])
    have hindex : 0 = wordSize := by rw [← hslot 0 hfirst, heq, hslot]
    cases hindex
  · intro hfew p hp q hq h
    have hlt : ∀ r ∈ e.needs, e.slot r < wordSize :=
      fun r hr => Nat.lt_of_lt_of_le (idxOf_lt_length_of_mem hr) hfew
    rw [Nat.mod_eq_of_lt (hlt p hp), Nat.mod_eq_of_lt (hlt q hq)] at h
    exact (slot_inj hp).mp h

/-! ## Places -/

theorem places_of_holds (h : frame.Holds f e.types e.graph b n frame') :
    frame'.places = if .binding b ∈ frame.places then frame.places else frame.places ++ [.binding b] := by
  unfold Frame.Holds at h
  split at h
  next k hk => rw [h.2, if_pos (Places.mem_of_number? hk)]
  next hk =>
    obtain ⟨p, -, htakes⟩ := h
    rw [if_neg (Places.number?_eq_none_iff.mp hk), htakes.places]

/-- An instruction takes the place that it needs, if a variable is declared once and before it is read. -/
theorem Emits.places_eq (h : e.Emits f id frame i code frame')
    (hread : ∀ b, i = .loadLocal b → .binding b ∈ frame.places)
    (hnew : ∀ b, i.declared? = some b → .binding b ∉ frame.places) :
    frame'.places = frame.places ++ (i.place? e.yields id).toList := by
  cases h with
  | constant _ hstores | load _ hstores | loadArg _ hstores | binary _ _ hstores | newObject _ _ hstores =>
    exact hstores.places
  | loadLocal hholds hstores => rw [hstores.places, places_of_holds hholds, if_pos (hread _ rfl)]; rfl
  | allocaFrom hholds | alloca hholds => rw [places_of_holds hholds, if_neg (hnew _ rfl)]; rfl
  | call _ _ hyields hstores => rw [hstores.places, Instruction.place?, hyields, if_pos rfl]; rfl
  | callVoid _ _ hyields =>
    rw [Instruction.place?, hyields, if_neg Bool.false_ne_true]
    exact (append_nil _).symm
  | storeField => exact (append_nil _).symm

theorem EmitsAll.places_eq (hstraight : e.graph.Straight e.types e.decl)
    {done rest : Script} (h : e.EmitsAll f frame rest codes frame') (hsplit : e.graph.script = done ++ rest)
    (hframe : frame.places = placesOf e.yields done) : frame'.places = placesOf e.yields (done ++ rest) := by
  induction h generalizing done with
  | nil => rw [hframe, append_nil]
  | @cons frame i _ mid rest _ _ id hfirst _ ih =>
    have hallowed := hstraight.allowed_of_split hsplit
    have hmid : mid.places = placesOf e.yields (done ++ [(id, i)]) := by
      rw [hfirst.places_eq, hframe, placesOf_append, placesOf_singleton]
      · rintro b rfl
        rw [hframe]
        exact binding_mem_placesOf_iff.mpr hallowed
      · intro b hb
        rw [hframe]
        exact hstraight.notMem_placesOf hsplit (Instruction.place?_eq_binding_iff.mpr hb)
    rw [← singleton_append, ← append_assoc] at hsplit ⊢
    exact ih hsplit hmid

/-! ## Numbers of emitted code -/

/-- The opcodes of some code that hold a number. -/
def numbered (code : List StackInstr) : List Opcode :=
  (code.map (·.opcode fun _ => 0)).filter isNumbered

theorem numbered_append (code code' : List StackInstr) :
    numbered (code ++ code') = numbered code ++ numbered code' := by
  rw [numbered, map_append, filter_append]
  rfl

theorem filter_isNumbered_opcodes (starts : List Nat) (at_ : Nat) (code : List StackInstr) :
    (opcodes starts at_ code).filter isNumbered = numbered code := by
  induction code generalizing at_ with
  | nil => rfl
  | cons i code ih =>
    have hi : ∀ d, [i.opcode d].filter isNumbered = numbered [i] := by
      intro d
      cases i <;> rfl
    rw [opcodes, ← singleton_append, filter_append, ih, hi, ← numbered_append]
    rfl

theorem numbered_operator (op : Operator) (unsigned : Bool) : numbered (operator op unsigned) = [] := by
  cases op <;> cases unsigned <;> rfl

theorem Loads.numbered_eq {c : Constant} {load : StackInstr} (h : Loads f c load) : numbered [load] = [] := by
  cases c with
  | int kind v =>
    cases kind <;>
    · cases h
      rfl
  | string s =>
    obtain ⟨token, rfl, -⟩ := h
    rfl
  | _ =>
    cases h
    rfl

theorem numbered_loads {ids : List InstrId} {slots : List Nat} (h : frame.Slots ids slots)
    (hinitial : frame.places <+: e.needs) : numbered (slots.map .loadLocal) =
      ((ids.map Place.value).map fun p => .loadLocal (e.slot p)).map narrowed := by
  induction h with
  | nil => rfl
  | @cons id slot ids slots hslot _ ih =>
    rw [map_cons, ← singleton_append, numbered_append, ih, map_cons, map_cons, map_cons,
      slot_of_number? hslot hinitial]
    rfl

theorem index_mod_eq {arg : Argument} {index : Nat} (h : argIndex e.decl.isStatic arg = .ok index) :
    index % wordSize = e.argument arg % wordSize := by
  cases arg with
  | this =>
    cases h
    rfl
  | param n =>
    rw [argIndex] at h
    rw [argument]
    split at h
    next hstatic =>
      cases h
      rw [if_pos hstatic, Nat.mod_mod]
    next hobject =>
      rw [if_neg hobject]
      unfold Defect.next at h
      split at h
      · cases h
        exact (Nat.mod_add_mod n wordSize 1)
      · cases h

/-- The code of an instruction has the opcodes that the instruction needs, each with what two bytes hold of its
number. -/
theorem Emits.numbers_eq (h : e.Emits f id frame i code frame') (hinitial : frame'.places <+: e.needs)
    (hnodup : e.needs.Nodup) : numbered code = (e.numbers id i).map narrowed := by
  have hbefore : frame.places <+: e.needs := h.grows.places.trans hinitial
  have hvalue : ∀ {id n}, frame.places.number? (.value id) = some n → e.slot (.value id) = n :=
    fun hn => slot_of_number? hn hbefore
  cases h with
  | constant hload hstores =>
    rw [← singleton_append, numbered_append, hload.numbered_eq, ← slot_of_takes hstores hinitial hnodup]
    rfl
  | load hsource hstores =>
    rw [← hvalue hsource, ← slot_of_takes hstores hinitial hnodup]
    rfl
  | loadArg hindex hstores =>
    rw [← slot_of_takes hstores hinitial hnodup]
    change [Opcode.loadArg (_ % wordSize), _] = [Opcode.loadArg (_ % wordSize), _]
    rw [index_mod_eq hindex]
    rfl
  | loadLocal hholds hstores =>
    have hmid := (grows_of_stores hstores).places.trans hinitial
    rw [← slot_of_holds hholds hmid hnodup, ← slot_of_takes hstores hinitial hnodup]
    rfl
  | allocaFrom hholds hinit =>
    rw [← slot_of_holds hholds hinitial hnodup, ← slot_of_number? hinit hinitial]
    rfl
  | alloca => rfl
  | @binary left right _ slot _ _ _ _ _ hleft hright hstores =>
    have hsplit : ∀ operator, numbered (.loadLocal left :: .loadLocal right :: (operator ++ [.storeLocal slot])) =
        numbered [.loadLocal left, .loadLocal right] ++ (numbered operator ++ numbered [.storeLocal slot]) := by
      intro operator
      rw [← numbered_append, ← numbered_append]
      rfl
    rw [hsplit, numbered_operator, ← hvalue hleft, ← hvalue hright, ← slot_of_takes hstores hinitial hnodup]
    rfl
  | call hslots _ hyields hstores =>
    rw [numbered_append, numbered_loads hslots hbefore, ← slot_of_takes hstores hinitial hnodup, numbers,
      Instruction.sink?_call, hyields, if_pos rfl, map_append]
    rfl
  | callVoid hslots _ hyields =>
    rw [numbered_append, numbered_loads hslots hbefore, numbers, Instruction.sink?_call, hyields,
      if_neg Bool.false_ne_true, map_append]
    rfl
  | newObject hslots _ hstores =>
    rw [numbered_append, numbered_loads hslots hbefore, ← slot_of_takes hstores hinitial hnodup, numbers, map_append]
    rfl
  | storeField hobject hfrom =>
    rw [← hvalue hobject, ← hvalue hfrom]
    rfl

theorem EmitsAll.numbers_eq {is : Script} (h : e.EmitsAll f frame is codes frame')
    (hinitial : frame'.places <+: e.needs) (hnodup : e.needs.Nodup) :
    numbered codes.flatten = (is.flatMap fun x => e.numbers x.1 x.2).map narrowed := by
  induction h with
  | nil => rfl
  | cons hfirst hrest ih =>
    have hmid := hrest.grows.places.trans hinitial
    rw [flatten_cons, numbered_append, hfirst.numbers_eq hmid hnodup, ih hinitial, flatMap_cons, map_append]

theorem EmitsFlow.numbers_eq {b : Block} (h : e.EmitsFlow frame b code) (hinitial : frame.places <+: e.needs) :
    numbered code = (e.flowNumbers b).map narrowed := by
  unfold flowNumbers flowSource?
  cases h with
  | retValue hflow hslot =>
    rw [hflow, ← slot_of_number? hslot hinitial]
    rfl
  | ret hflow | jump hflow =>
    rw [hflow]
    rfl
  | throwObject hflow hthrown hslot =>
    rw [hflow, hthrown, ← slot_of_number? hslot hinitial]
    rfl
  | throwNull hflow hthrown =>
    rw [hflow, hthrown]
    rfl

/-! ## Bodies -/

/-- The numbers in the code of a body. Every result and every variable has a slot, and two bytes tell the slots apart
just if there are no more than 65536. Numbers are narrowed to two bytes, and so are the true ones just if all fit. -/
structure Numbered (e : CodeScope) (body : MethodBody) : Prop where
  needs_nodup : e.needs.Nodup
  locals : body.locals.length = e.needs.length
  distinct : (∀ p ∈ e.needs, ∀ q ∈ e.needs, e.slot p % wordSize = e.slot q % wordSize → p = q) ↔
    e.needs.length ≤ wordSize
  code : ∃ ops, Reads body.code ops ∧ ops.filter isNumbered = e.allNumbers.map narrowed ∧
    (ops.filter isNumbered = e.allNumbers ↔ ∀ op ∈ e.allNumbers, op.number < wordSize)

theorem numbered_of_body (hstraight : e.graph.Straight e.types e.decl) {r r' : References}
    {body : MethodBody} (h : e.body.run r = .ok (body, r')) : e.Numbered body := by
  have hensures : Emission.Ensures e.types (fun _ => True) e.body _ := ensures_body e
  obtain ⟨-, -, hemits⟩ := hensures r (fun _ _ => trivial) _ _ h
  obtain ⟨blocks, frame, hblocks, hcode, hlocals⟩ := hemits r' (.refl r')
  have hnodup : e.needs.Nodup := hstraight.nodup_placesOf e.yields
  have htyped := hblocks.grows.typed .nil
  rw [hstraight.blocks] at hblocks
  cases hblocks with
  | @cons _ _ codes _ end_ _ _ _ hall hend hrest =>
    cases hrest
    have hplaces : frame.places = e.needs := hall.places_eq hstraight (nil_append _).symm rfl
    have hinitial : frame.places <+: e.needs := hplaces ▸ prefix_rfl
    have hnumbers : numbered [codes.flatten ++ end_].flatten = e.allNumbers.map narrowed := by
      rw [flatten_singleton, numbered_append, hall.numbers_eq hinitial hnodup, hend.numbers_eq hinitial, ← map_append]
      rfl
    refine ⟨hnodup, ?_, narrowed_slots_inj_iff hnodup,
      opcodes (starts 0 [codes.flatten ++ end_]) 0 [codes.flatten ++ end_].flatten, ?_, ?_, ?_⟩
    · rw [hlocals, ← htyped.length_eq, hplaces]
    · rw [hcode]
      exact reads_encode _ _ _
    · rw [filter_isNumbered_opcodes, hnumbers]
    · rw [filter_isNumbered_opcodes, hnumbers, map_narrowed_eq_iff]

end CodeScope

end TreeCompiler
