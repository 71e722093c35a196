import TreeCompiler.Image.MethodCode
import Mathlib.Logic.Function.Basic

/-!
# Evaluation of flow graphs

What a graph means by itself, before code is made of it. Instructions are taken in order; each result
is bound to the number of its instruction and each variable to the value of its declaration. What can
be seen from outside are the events: calls, objects that are made and fields that are stored.

* `Interpretation V` : the values of constants and operators, and what the outside answers to events;
* `CodeScope.Evaluates b s o` : from the start of block `b` with the bindings of `s`, the method has the
  outcome `o`;
* `CodeScope.HasOutcome.iff_eq` : a method has at most one outcome.
-/

namespace TreeCompiler

/-- What a method does that can be seen from outside. -/
inductive Event (V : Type) where
  | call (method : MethodRef) (args : List V)
  | newObject (ctor : MethodRef) (args : List V)
  | storeField (field : FieldRef) (target value : V)
deriving DecidableEq, Repr

inductive Ending (V : Type) where
  | returned (value : Option V)
  | thrown (object : V)
deriving DecidableEq, Repr

structure Outcome (V : Type) where
  events : List (Event V)
  ending : Ending V
deriving DecidableEq, Repr

/-- What the parts of a graph mean. -/
structure Interpretation (V : Type) where
  constant : Constant → V
  /-- An operator, on numbers without a sign or not. -/
  binary : Operator → Bool → V → V → V
  /-- What a variable holds that was declared without a value. -/
  unset : V
  null : V
  /-- What the latest of some events results in. -/
  answer : List (Event V) → V

structure Invocation (V : Type) where
  this : Option V
  params : List V

namespace Invocation

def get? {V : Type} (call : Invocation V) : Argument → Option V
  | .this => call.this
  | .param i => call.params[i]?

/-- There is an object unless the method is static, and a value for every parameter. -/
structure Suits {V : Type} (call : Invocation V) (m : Method) : Prop where
  this : call.this.isSome = !m.isStatic
  params : call.params.length = m.params.length

end Invocation

/-- The bindings of a method that runs, and what it has done so far. -/
structure Bindings (V : Type) where
  values : InstrId → Option V
  locals : BindingId → Option V
  events : List (Event V)
  /-- The object that the latest instruction made, if it made one. -/
  made : Option V

namespace Bindings
variable {V : Type}

def empty : Bindings V :=
  { values := fun _ => none, locals := fun _ => none, events := [], made := none }

def bind (s : Bindings V) (id : InstrId) (v : V) : Bindings V :=
  { s with values := Function.update s.values id (some v), made := none }

def declare (s : Bindings V) (b : BindingId) (v : V) : Bindings V :=
  { s with locals := Function.update s.locals b (some v), made := none }

def perform (s : Bindings V) (e : Event V) : Bindings V :=
  { s with events := s.events ++ [e], made := none }

def make (s : Bindings V) (id : InstrId) (object : V) : Bindings V :=
  { s.bind id object with made := some object }

variable (s : Bindings V)

@[simp] theorem values_bind_self (id : InstrId) (v : V) : (s.bind id v).values id = some v :=
  Function.update_self _ _ _

theorem values_bind_of_ne {id other : InstrId} (v : V) (h : other ≠ id) :
    (s.bind id v).values other = s.values other :=
  Function.update_of_ne h _ _

@[simp] theorem locals_declare_self (b : BindingId) (v : V) : (s.declare b v).locals b = some v :=
  Function.update_self _ _ _

theorem locals_declare_of_ne {b other : BindingId} (v : V) (h : other ≠ b) :
    (s.declare b v).locals other = s.locals other :=
  Function.update_of_ne h _ _

end Bindings

/-- A method has a result unless it returns nothing. -/
def TypeTable.hasResult (t : TypeTable) (m : MethodRef) : Bool :=
  match (t.method m).returnType with
  | some type => some type != t.primitive? .void
  | none => false

theorem TypeTable.hasResult_eq (t : TypeTable) (m : MethodRef) : t.hasResult m =
    ((t.method m).returnType.isSome && (t.method m).returnType != t.primitive? .void) := by
  unfold hasResult
  cases (t.method m).returnType with
  | none | some type => rfl

theorem CodeScope.yields_eq (e : CodeScope) (m : MethodRef) : e.yields m = e.types.hasResult m :=
  (e.types.hasResult_eq m).symm

/-- Whole numbers without a sign; a character is one of them. -/
def Primitive.unsigned : Primitive → Bool
  | .int .u8 | .int .u16 | .int .u32 | .int .u64 | .char => true
  | _ => false

namespace CodeScope

/-- An operator works on numbers without a sign if its left operand or its result is of such a type. -/
def unsigned (e : CodeScope) (type : Option TypeId) (lhs : InstrId) : Bool :=
  (e.types.primitiveOf? (e.resultType lhs)).any Primitive.unsigned || (e.types.primitiveOf? type).any Primitive.unsigned

theorem isUnsigned_eq (e : CodeScope) (type : Option TypeId) :
    e.isUnsigned type = (e.types.primitiveOf? type).any Primitive.unsigned := by
  unfold isUnsigned
  cases e.types.primitiveOf? type with
  | none => rfl
  | some p =>
    cases p with
    | int kind => cases kind <;> rfl
    | _ => rfl

variable {V : Type} (e : CodeScope) (I : Interpretation V) (call : Invocation V)

/-- One instruction, if what it refers to is bound. -/
def step (s : Bindings V) (id : InstrId) : Instruction → Option (Bindings V)
  | .constant c _ => some (s.bind id (I.constant c))
  | .load _ source => (s.values source).map (s.bind id)
  | .loadArg arg => (call.get? arg).map (s.bind id)
  | .loadLocal b => (s.locals b).map (s.bind id)
  | .alloca b _ none => some (s.declare b I.unset)
  | .alloca b _ (some init) => (s.values init).map (s.declare b)
  | .binary op type lhs rhs => do
    let left ← s.values lhs
    let right ← s.values rhs
    return s.bind id (I.binary op (e.unsigned type lhs) left right)
  | .call m args => do
    let args ← args.mapM s.values
    let s := s.perform (.call m args)
    return if e.types.hasResult m then s.bind id (I.answer s.events) else s
  | .newObject ctor args => do
    let args ← args.mapM s.values
    let s := s.perform (.newObject ctor args)
    return s.make id (I.answer s.events)
  | .storeField field target value => do
    let target ← s.values target
    let value ← s.values value
    return s.perform (.storeField field target value)

/-- Instructions in order. -/
def steps (s : Bindings V) : Script → Option (Bindings V)
  | [] => some s
  | (id, i) :: rest => (e.step I call s id i).bind (steps · rest)

/-- The outcome of a method from the start of a block on. An unreachable end throws the object that
was just made. -/
inductive Evaluates : Block → Bindings V → Outcome V → Prop where
  | ret : e.steps I call s (e.graph.instructionsOf b) = some s' → b.flow = .ret none →
      Evaluates b s ⟨s'.events, .returned none⟩
  | retValue : e.steps I call s (e.graph.instructionsOf b) = some s' → b.flow = .ret (some value) →
      s'.values value = some v → Evaluates b s ⟨s'.events, .returned (some v)⟩
  | unreachable : e.steps I call s (e.graph.instructionsOf b) = some s' → b.flow = .unreachable →
      Evaluates b s ⟨s'.events, .thrown (s'.made.getD I.null)⟩
  | jump : e.steps I call s (e.graph.instructionsOf b) = some s' → b.flow = .jump target →
      e.graph.blocks[target.index]? = some next → Evaluates next { s' with made := none } o → Evaluates b s o

def HasOutcome (o : Outcome V) : Prop :=
  ∃ entry, e.graph.blocks.head? = some entry ∧ e.Evaluates I call entry .empty o

/-- The method comes to the start of a block with some bindings. -/
inductive Enters : Block → Bindings V → Prop where
  | entry : e.graph.blocks.head? = some b → Enters b .empty
  | jump : Enters b s → e.steps I call s (e.graph.instructionsOf b) = some s' → b.flow = .jump target →
      e.graph.blocks[target.index]? = some next → Enters next { s' with made := none }

/-- The method executes an instruction with some bindings. -/
def Executes (i : Instruction) (s : Bindings V) : Prop :=
  ∃ b start done id rest, e.Enters I call b start ∧ e.graph.instructionsOf b = done ++ (id, i) :: rest ∧
    e.steps I call start done = some s

variable {e I call}

theorem Evaluates.unique {b : Block} {s : Bindings V} {o o' : Outcome V}
    (h : e.Evaluates I call b s o) (h' : e.Evaluates I call b s o') : o' = o := by
  induction h with
  | ret hsteps hflow | retValue hsteps hflow hvalue | unreachable hsteps hflow => cases h' <;> simp_all
  | jump hsteps hflow hnext _ ih =>
    cases h' with
    | jump hsteps' hflow' hnext' hrest' =>
      rw [hsteps] at hsteps'
      cases hsteps'
      rw [hflow] at hflow'
      cases hflow'
      rw [hnext] at hnext'
      cases hnext'
      exact ih hrest'
    | _ => simp_all

end CodeScope

end TreeCompiler
