import TreeCompiler.Machine.Program
import TreeCompiler.Proofs.Execution
import TreeCompiler.Proofs.FlowGraph.Evaluation
import Mathlib.Data.List.Nodup

/-!
# A machine that runs assembly lines

The machine has registers and one stack. What its words are and what they add up to is left open in
`Words`. Calls of other methods are answered from outside: a method that was called may leave anything in
the registers, its result in register 0, and leaves the stack as it was.

* `textAt_dataLines` : the texts of a program are found by their labels;
* `reaches_pushes`, `reaches_pops` : registers that go to the stack and come back.
-/

namespace TreeCompiler

open Machine Function
variable (strings : List String)

/-! ## Words -/

structure Words (W : Type) where
  int : Int → W
  /-- The word that leads to a text. -/
  text : String → W
  operate : Operator → W → W → W

namespace Words
variable {W : Type}

/-- A constant is a number, or it leads to a text. Fractions are taken as their bits. -/
def ofConstant (words : Words W) : Constant → W
  | .int _ v => words.int v
  | .float32 x => words.int x.bits.toNat
  | .float64 x => words.int x.bits.toNat
  | .string s => words.text s
  | .char c => words.int c.toNat
  | .bool b => words.int (if b then 1 else 0)
  | .null => words.int 0

end Words

def Event.call? {V : Type} : Event V → Option (MethodRef × List V)
  | .call m args => some (m, args)
  | _ => none

def callsOf {V : Type} (events : List (Event V)) : List (MethodRef × List V) :=
  events.filterMap Event.call?

/-- What the parts of a graph mean. The result of a call is what its reply has in register 0; what an
object is remains open. -/
def Words.interpretation {W : Type} (words : Words W) (reply : Nat → Nat → W)
    (object : List (Event W) → W) : Interpretation W where
  constant := words.ofConstant
  binary op _ a b := words.operate op a b
  unset := words.int 0
  null := words.int 0
  answer events :=
    match events.getLast? with
    | some (.call ..) => reply ((callsOf events).length - 1) 0
    | _ => object events

/-! ## The machine -/

/-- The instructions on two operands, with what they compute for each register that they write. -/
def instructionSet : List (String × List Operator) :=
  [("add", [.add]), ("sub", [.sub]), ("mult", [.mul]), ("divmod", [.div, .rem]),
   ("and", [.bitAnd]), ("or", [.bitOr]), ("xor", [.bitXor]),
   ("lshift", [.shl]), ("rshift", [.shr]),
   ("comp_eq", [.eq]), ("comp_neq", [.ne]), ("comp_lt", [.lt]), ("comp_le", [.le]),
   ("comp_gt", [.gt]), ("comp_ge", [.ge])]

def textAt (wanted : String) : List Line → Option String
  | .label name :: .string s :: rest => if name = wanted then some s else textAt wanted rest
  | _ :: rest => textAt wanted rest
  | [] => none

theorem stringLabel_inj {i j : Nat} (h : stringLabel i = stringLabel j) : i = j := by
  have hdigits := congrArg String.toList h
  simp only [stringLabel, String.toList_append, List.append_cancel_left_eq] at hdigits
  have hnumber := congrArg (Nat.ofDigitChars 10 · 0) hdigits
  simpa [Nat.ofDigitChars_toDigits] using hnumber

theorem textAt_flatMap (first k : Nat) : textAt (stringLabel (first + k)) ((strings.zipIdx first).flatMap fun x =>
      [.label (stringLabel x.2), .string x.1]) = strings[k]? := by
  induction strings generalizing first k with
  | nil => rfl
  | cons s strings ih =>
    rw [List.zipIdx_cons, List.flatMap_cons]
    cases k with
    | zero => simp [textAt]
    | succ k =>
      have hne : stringLabel first ≠ stringLabel (first + (k + 1)) := by
        intro heq
        have := stringLabel_inj heq
        omega
      rw [List.getElem?_cons_succ, ← ih (first + 1) k, Nat.add_assoc, Nat.add_comm 1 k]
      simp [textAt, hne]

theorem textAt_dataLines (k : Nat) : textAt (stringLabel k) (dataLines strings) = strings[k]? := by
  unfold dataLines
  split
  next hempty =>
    rw [List.isEmpty_iff.mp hempty]
    rfl
  next =>
    have hfirst := textAt_flatMap strings 0 k
    rw [Nat.zero_add] at hfirst
    exact hfirst

def linesAt (wanted : String) : List Line → Option (List Line)
  | .label name :: rest => if name = wanted then some rest else linesAt wanted rest
  | _ :: rest => linesAt wanted rest
  | [] => none

structure CallSite (W : Type) where
  label : String
  registers : Nat → W

structure RegisterState (W : Type) where
  /-- The lines from the next one on. -/
  rest : List Line
  registers : Nat → W
  /-- The topmost word comes first. -/
  stack : List W
  /-- The calls so far. -/
  calls : List (CallSite W)

structure Stop (W : Type) where
  halted : Bool
  registers : Nat → W
  stack : List W
  calls : List (CallSite W)

def RegisterState.stop {W : Type} (s : RegisterState W) (halted : Bool) : Stop W :=
  { halted, registers := s.registers, stack := s.stack, calls := s.calls }

/-- Writes words to registers, one after the other. -/
def writeAll {W : Type} (registers : Nat → W) : List Register → List W → Nat → W
  | r :: rs, v :: vs => writeAll (Function.update registers r.number v) rs vs
  | _, _ => registers

structure RegisterMachine (W : Type) where
  words : Words W
  /-- Lines that hold the targets of jumps. -/
  program : List Line
  /-- Lines that hold the texts. -/
  data : List Line
  /-- The registers after call number `n`. -/
  reply : Nat → Nat → W

namespace RegisterMachine
variable {W : Type} (m : RegisterMachine W) (s : RegisterState W)

def value? (registers : Nat → W) : Source → Option W
  | .register r => some (registers r.number)
  | .int v => some (m.words.int v)
  | .label name => (textAt name m.data).map m.words.text

/-- One line; there is no next state where it lacks something, or is not a line of a method. -/
def execute :
    Line → Option (Progress (RegisterState W) (Stop W))
  | .blank | .remark _ | .note _ | .label _ => some (.running s)
  | .copy source target _ => (m.value? s.registers source).map fun v =>
    .running { s with registers := Function.update s.registers target.number v }
  | .binary op lhs rhs target => (instructionSet.lookup (mnemonic op)).map fun results =>
    let values := results.map fun result =>
      m.words.operate result (s.registers lhs.number) (s.registers rhs.number)
    .running { s with registers := writeAll s.registers (targets op target) values }
  | .push r => some (.running { s with stack := s.registers r.number :: s.stack })
  | .pop r =>
    match s.stack with
    | v :: stack =>
      some (.running { s with stack, registers := Function.update s.registers r.number v })
    | [] => none
  | .call label => some (.running
    { s with registers := m.reply s.calls.length, calls := s.calls ++ [⟨label, s.registers⟩] })
  | .jump label => (linesAt label m.program).map fun rest => .running { s with rest }
  | .ret => some (.ended (s.stop false))
  | .halt => some (.ended (s.stop true))
  | .setStack _ | .operation _ | .string _ => none

/-- Takes the next line and executes it. -/
def step :
    Option (Progress (RegisterState W) (Stop W)) :=
  match s.rest with
  | line :: rest => m.execute { s with rest } line
  | [] => none

abbrev Ends : RegisterState W → Stop W → Prop :=
  Run.Ends m.step

abbrev Reaches : RegisterState W → RegisterState W → Prop :=
  Run.Reaches m.step

/-! ## Single lines -/

section Lines
variable {m : RegisterMachine W} {registers : Nat → W} {stack : List W} {calls : List (CallSite W)} {stop : Stop W}
  {tail : List Line} (op : Operator)

theorem reaches_copy {source : Source} {v : W} (h : m.value? registers source = some v) {target : Register}
    {note : Option String} : m.Reaches ⟨.copy source target note :: tail, registers, stack, calls⟩
      ⟨tail, update registers target.number v, stack, calls⟩ := by
  refine .head ?_ (.refl _)
  simp only [step, execute, h, Option.map_some]

theorem ends_ret_iff :
    m.Ends ⟨.ret :: tail, registers, stack, calls⟩ stop ↔ stop = ⟨false, registers, stack, calls⟩ :=
  Run.ends_iff_of_ended rfl

theorem ends_halt_iff :
    m.Ends ⟨.halt :: tail, registers, stack, calls⟩ stop ↔ stop = ⟨true, registers, stack, calls⟩ :=
  Run.ends_iff_of_ended rfl

theorem lookup_mnemonic : instructionSet.lookup (mnemonic op) =
    some (if op = .div ∨ op = .rem then [.div, .rem] else [op]) := by
  cases op <;> decide

theorem reaches_binary (lhs rhs : Register) {target : Register} (htarget : target.number ≠ 0) :
    ∃ registers', m.Reaches ⟨.binary op lhs rhs target :: tail, registers, stack, calls⟩
        ⟨tail, registers', stack, calls⟩ ∧
      registers' target.number = m.words.operate op (registers lhs.number) (registers rhs.number) ∧
      ∀ n, n ≠ 0 → n ≠ target.number → registers' n = registers n := by
  have hstep : m.step ⟨.binary op lhs rhs target :: tail, registers, stack, calls⟩ =
      some (.running ⟨tail, writeAll registers (targets op target)
        ((if op = .div ∨ op = .rem then [.div, .rem] else [op]).map fun result =>
          m.words.operate result (registers lhs.number) (registers rhs.number)), stack, calls⟩) := by
    simp only [step, execute, lookup_mnemonic, Option.map_some]
  refine ⟨_, .head hstep (.refl _), ?_, fun n hn hne => ?_⟩
  · cases op <;> simp [targets, writeAll, Register.result, htarget]
  · cases op <;> simp [targets, writeAll, Register.result, hn, hne]

/-! ## The stack -/

theorem reaches_pushes (rs : List Register) : m.Reaches ⟨rs.map .push ++ tail, registers, stack, calls⟩
      ⟨tail, registers, (rs.map fun r => registers r.number).reverse ++ stack, calls⟩ := by
  induction rs generalizing stack with
  | nil => exact .refl _
  | cons r rs ih =>
    have hfirst : m.step ⟨.push r :: (rs.map .push ++ tail), registers, stack, calls⟩ =
        some (.running ⟨rs.map .push ++ tail, registers, registers r.number :: stack, calls⟩) := rfl
    rw [List.map_cons, List.map_cons, List.reverse_cons, List.append_assoc]
    exact .head hfirst ih

/-- Words come back from the stack to registers. -/
theorem reaches_pops (f : Register → W) {rs : List Register} (hnodup : rs.Nodup) :
    ∃ registers', m.Reaches ⟨rs.map .pop ++ tail, registers, rs.map f ++ stack, calls⟩
        ⟨tail, registers', stack, calls⟩ ∧
      (∀ r ∈ rs, registers' r.number = f r) ∧
      ∀ n, (∀ r ∈ rs, r.number ≠ n) → registers' n = registers n := by
  induction rs generalizing registers with
  | nil => exact ⟨registers, .refl _, by simp, fun _ _ => rfl⟩
  | cons r rs ih =>
    obtain ⟨hnot, hnodup⟩ := List.nodup_cons.mp hnodup
    have hother : ∀ other ∈ rs, other.number ≠ r.number := by
      intro other hmem heq
      have hsame : other = r := by
        cases other
        cases r
        exact congrArg Register.mk heq
      exact hnot (hsame ▸ hmem)
    have hfirst : m.step ⟨.pop r :: (rs.map .pop ++ tail), registers, f r :: (rs.map f ++ stack), calls⟩ =
        some (.running ⟨rs.map .pop ++ tail, update registers r.number (f r), rs.map f ++ stack, calls⟩) := rfl
    obtain ⟨registers', hreach, hset, hrest⟩ := ih hnodup
    refine ⟨registers', .head hfirst hreach, ?_, ?_⟩
    · intro other hmem
      rcases List.mem_cons.mp hmem with rfl | hmem
      · rw [hrest _ hother, update_self]
      · exact hset other hmem
    · intro n hn
      rw [hrest n fun other hmem => hn other (List.mem_cons_of_mem _ hmem),
        update_of_ne (hn r List.mem_cons_self).symm]

end Lines

end RegisterMachine

end TreeCompiler
