import TreeCompiler.TypeDef

/-!
# The type table

All types of a compilation in the order in which they were registered. A name is registered once:
`insert` gives the type that has it already. Types are never removed, so a handle keeps its meaning.
-/

namespace TreeCompiler

structure TypeTable where
  defs : List TypeDef := []
deriving DecidableEq, Repr

namespace TypeTable
variable (t : TypeTable)

def size : Nat :=
  t.defs.length

def lookup (name : QualifiedName) : Option TypeId :=
  (t.defs.findIdx? (·.name == name)).map TypeId.mk

/-- A handle outside the table stands for a nameless type without members. -/
def get (id : TypeId) : TypeDef :=
  t.defs.getD id.index default

/-- Registers a type under a new name; the error is the type that has the name. -/
def insert (d : TypeDef) : Except TypeId (TypeId × TypeTable) :=
  match t.lookup d.name with
  | some existing => .error existing
  | none => .ok (⟨t.size⟩, { defs := t.defs ++ [d] })

/-- Registers a type and gives its handle, or that of the type that has the name. -/
def intern (d : TypeDef) : TypeId × TypeTable :=
  match t.insert d with
  | .ok inserted => inserted
  | .error existing => (existing, t)

def modify (id : TypeId) (f : TypeDef → TypeDef) : TypeTable :=
  { defs := t.defs.modify id.index f }

@[simp] theorem size_modify (id : TypeId) (f : TypeDef → TypeDef) :
    (t.modify id f).size = t.size := by
  simp [size, modify]

theorem get_modify_self (id : TypeId) (f : TypeDef → TypeDef)
    (h : id.index < t.size) : (t.modify id f).get id = f (t.get id) := by
  have h : id.index < t.defs.length := h
  simp [get, modify, h]

/-- A change of one type leaves the others alone. -/
theorem get_modify_of_ne (id : TypeId) (f : TypeDef → TypeDef) (other : TypeId)
    (h : other ≠ id) : (t.modify id f).get other = t.get other := by
  have ne : id.index ≠ other.index := fun e => h (congrArg TypeId.mk e.symm)
  simp [get, modify, ne]

/-- What is found under a name lies in the table and has the name. -/
theorem lookup_spec {t : TypeTable} {name : QualifiedName} {id : TypeId} (h : t.lookup name = some id) :
    id.index < t.size ∧ (t.get id).name = name := by
  obtain ⟨i, found, rfl⟩ := Option.map_eq_some_iff.mp h
  obtain ⟨lt, eq, -⟩ := List.findIdx?_eq_some_iff_getElem.mp found
  refine ⟨lt, ?_⟩
  simpa [get, lt] using eq

/-- Full name of a type of the platform library. -/
def systemName (name : String) : QualifiedName :=
  ⟨["System", name]⟩

def system? (name : String) : Option TypeId :=
  t.lookup (systemName name)

def primitive? (p : Primitive) : Option TypeId :=
  t.system? p.systemName

def primitiveOf? (type : Option TypeId) : Option Primitive :=
  type.bind fun id => (t.get id).primitive

def method (m : MethodRef) : Method :=
  (t.get m.type).methods.getD m.index default

def field (f : FieldRef) : Field :=
  (t.get f.type).fields.getD f.index default

/-- The method behind a handle that may lead nowhere. -/
def methodEntry (m : MethodRef) : Except Defect Method :=
  Defect.entry (t.get m.type).methods m.index

/-- The field behind a handle that may lead nowhere. -/
def fieldEntry (f : FieldRef) : Except Defect Field :=
  Defect.entry (t.get f.type).fields f.index

/-- A handle that leads somewhere leads to what `method` gives. -/
theorem method_of_methodEntry (m : MethodRef) (method : Method)
    (h : t.methodEntry m = .ok method) : t.method m = method := by
  have found : (t.get m.type).methods[m.index]? = some method :=
    Defect.entry_eq_ok_iff.mp h
  simp [TypeTable.method, List.getD_eq_getElem?_getD, found]

def addMethod (type : TypeId) (m : Method) : MethodRef × TypeTable :=
  (⟨type, (t.get type).methods.length⟩,
    t.modify type fun d => { d with methods := d.methods ++ [m] })

def addField (type : TypeId) (f : Field) : FieldRef × TypeTable :=
  (⟨type, (t.get type).fields.length⟩,
    t.modify type fun d => { d with fields := d.fields ++ [f] })

def addProperty (type : TypeId) (p : Property) : TypeTable :=
  t.modify type fun d => { d with properties := d.properties ++ [p] }

def addAttribute (type : TypeId) (a : Attribute) : TypeTable :=
  t.modify type fun d => { d with attributes := d.attributes ++ [a] }

def setBody (m : MethodRef) (body : FlowGraph) : TypeTable :=
  t.modify m.type fun d =>
    { d with methods := d.methods.modify m.index fun method => { method with body := some body } }

/-- The first method of a name and a number of parameters. -/
def findMethod? (type : TypeId) (name : String) (arity : Nat) :
    Option MethodRef :=
  (((t.get type).methodsNamed name).find? (·.2.params.length == arity)).map fun m => ⟨type, m.1⟩

/-- Looks for `ancestor` along the first bases, at most `fuel` types. -/
def reaches (t : TypeTable) (ancestor : TypeId) : Nat → TypeId → Bool
  | 0, _ => false
  | fuel + 1, id =>
    id == ancestor ||
      match (t.get id).baseClass? with
      | some base => t.reaches ancestor fuel base
      | none => false

/-- `ancestor` is the type itself or lies on its chain of first bases. A chain that does not come
back to itself has no more types than the table. -/
def derivesFrom (type ancestor : TypeId) : Bool :=
  t.reaches ancestor (t.size + 1) type

def numbered : List (TypeId × TypeDef) :=
  t.defs.zipIdx.map fun (d, i) => (⟨i⟩, d)

def defined : List (TypeId × TypeDef) :=
  t.numbered.filter (·.2.origin == .defined)

/-- Full name of a type, `?` for one that is unresolved. -/
def nameOf : Option TypeId → String
  | some id => (t.get id).name.text
  | none => "?"

def methodName (m : MethodRef) : String :=
  (t.get m.type).name.text ++ "::" ++ (t.method m).name

end TypeTable

/-- The type of an instruction's result, in a method of the type `owner`. -/
def FlowGraph.resultType (g : FlowGraph) (t : TypeTable) (owner : TypeId) (m : Method)
    (id : InstrId) : Option TypeId :=
  match g.instruction? id with
  | some (.constant _ type) => type
  | some (.load type _) => type
  | some (.binary _ type _ _) => type
  | some (.loadArg .this) => some owner
  | some (.loadArg (.param i)) => (m.params[i]?).bind (·.type)
  | some (.loadLocal binding) => (g.param binding).type
  | some (.call method _) => (t.method method).returnType
  | some (.newObject ctor _) => some ctor.type
  | some (.alloca ..) | some (.storeField ..) | none => none

end TreeCompiler
