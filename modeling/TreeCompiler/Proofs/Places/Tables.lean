import TreeCompiler.Compilation
import TreeCompiler.Proofs.Tree.Places

/-!
# Type tables without places

`gist` is what is left of a type, a table of types and a state of lowering if nothing is said about where its parts
stand in a source. What is looked up in a table is found in the same place, with or without.

* `TypeTable.get_gist`, `TypeTable.lookup_gist` and so on : readers of a table;
* `TypeTable.intern_gist`, `TypeTable.modify_gist` and so on : changes of a table.
-/

namespace TreeCompiler

open List
variable (f : Field)

def Field.gist : Field :=
  { f with span := {} }

def Method.gist (m : Method) : Method :=
  { m with span := {} }

def Property.gist (p : Property) : Property :=
  { p with getter := p.getter.map Method.gist, setter := p.setter.map Method.gist, span := {} }

def TypeDef.gist (d : TypeDef) : TypeDef :=
  { d with
    fields := d.fields.map Field.gist
    methods := d.methods.map Method.gist
    properties := d.properties.map Property.gist
    span := {} }

def TypeTable.gist (t : TypeTable) : TypeTable where
  defs := t.defs.map TypeDef.gist

def Assembly.gist (a : Assembly) : Assembly :=
  { a with types := a.types.gist }

def Label.gist (l : Label) : Label :=
  { l with span := {} }

/-- Level, code, message, notes and help are left, and what the labels say. -/
def Diagnostic.gist (d : Diagnostic) : Diagnostic :=
  { d with labels := d.labels.map Label.gist }

def Context.gist (c : Context) : Context where
  assembly := c.assembly.gist
  diagnostics := c.diagnostics.map Diagnostic.gist

def PendingBody.gist (p : PendingBody) : PendingBody :=
  { p with body := p.body.map Stmt.gist }

def Lowering.gist (l : Lowering) : Lowering where
  context := l.context.gist
  queue := l.queue.map PendingBody.gist

def BodyState.gist (s : BodyState) : BodyState :=
  { s with context := s.context.gist }

/-! ## Looking things up -/

@[simp] theorem Field.name_gist : f.gist.name = f.name := rfl

namespace TypeDef
variable (d : TypeDef)

@[simp] theorem name_gist : d.gist.name = d.name := rfl

@[simp] theorem bases_gist : d.gist.bases = d.bases := rfl

@[simp] theorem isInterface_gist : d.gist.isInterface = d.isInterface := rfl

@[simp] theorem isSealed_gist : d.gist.isSealed = d.isSealed := rfl

@[simp] theorem usage_gist : d.gist.usage = d.usage := rfl

@[simp] theorem methods_gist : d.gist.methods = d.methods.map Method.gist := rfl

@[simp] theorem fields_gist : d.gist.fields = d.fields.map Field.gist := rfl

@[simp] theorem properties_gist : d.gist.properties = d.properties.map Property.gist := rfl

theorem methodsNamed_gist (name : String) :
    d.gist.methodsNamed name = (d.methodsNamed name).map fun m => (m.1, m.2.gist) := by
  unfold methodsNamed
  rw [methods_gist, zipIdx_map, map_map, filter_map, filter_map, map_map]
  rfl

end TypeDef

namespace TypeTable
variable (t : TypeTable) (m : MethodRef) (type : TypeId) (name : QualifiedName) (ancestor : TypeId) (d : TypeDef)

@[simp] theorem size_gist : t.gist.size = t.size :=
  length_map _

@[simp] theorem get_gist (id : TypeId) : t.gist.get id = (t.get id).gist := by
  unfold get gist
  rw [getD_eq_getElem?_getD, getD_eq_getElem?_getD, getElem?_map]
  cases t.defs[id.index]? <;> rfl

@[simp] theorem lookup_gist : t.gist.lookup name = t.lookup name := by
  unfold lookup gist
  rw [findIdx?_map]
  rfl

@[simp] theorem system?_gist (name : String) : t.gist.system? name = t.system? name :=
  t.lookup_gist _

@[simp] theorem primitive?_gist (p : Primitive) : t.gist.primitive? p = t.primitive? p :=
  t.lookup_gist _

@[simp] theorem primitiveOf?_gist (type : Option TypeId) : t.gist.primitiveOf? type = t.primitiveOf? type := by
  unfold primitiveOf?
  cases type with
  | none => rfl
  | some id => simp only [Option.bind_some, get_gist]; rfl

@[simp] theorem method_gist : t.gist.method m = (t.method m).gist := by
  unfold method
  rw [get_gist, TypeDef.methods_gist, getD_eq_getElem?_getD, getD_eq_getElem?_getD, getElem?_map]
  cases (t.get m.type).methods[m.index]? <;> rfl

@[simp] theorem nameOf_gist (type : Option TypeId) : t.gist.nameOf type = t.nameOf type := by
  cases type with
  | none => rfl
  | some id => simp only [nameOf, get_gist, TypeDef.name_gist]

@[simp] theorem findMethod?_gist (name : String) (arity : Nat) :
    t.gist.findMethod? type name arity = t.findMethod? type name arity := by
  unfold findMethod?
  rw [get_gist, TypeDef.methodsNamed_gist, find?_map, Option.map_map]
  rfl

@[simp] theorem resolvePlatform?_gist : t.gist.resolvePlatform? name = t.resolvePlatform? name := by
  unfold resolvePlatform?
  split
  · exact t.system?_gist _
  · rfl

@[simp] theorem resolve?_gist : t.gist.resolve? name = t.resolve? name := by
  simp only [resolve?, lookup_gist, resolvePlatform?_gist]

@[simp] theorem resolveIn?_gist (module name : QualifiedName) :
    t.gist.resolveIn? module name = t.resolveIn? module name := by
  simp only [resolveIn?, lookup_gist, resolvePlatform?_gist]

theorem reaches_gist (fuel : Nat) (id : TypeId) : t.gist.reaches ancestor fuel id = t.reaches ancestor fuel id := by
  induction fuel generalizing id with
  | zero => rfl
  | succ fuel ih =>
    have hbase : (t.get id).gist.baseClass? = (t.get id).baseClass? := rfl
    unfold reaches
    rw [get_gist, hbase]
    cases (t.get id).baseClass? with
    | none => rfl
    | some base => simp only [ih]

@[simp] theorem derivesFrom_gist : t.gist.derivesFrom type ancestor = t.derivesFrom type ancestor := by
  rw [derivesFrom, size_gist, reaches_gist, derivesFrom]

/-! ## Changes -/

theorem insert_gist : t.gist.insert d.gist = (t.insert d).map fun r => (r.1, r.2.gist) := by
  unfold insert
  rw [lookup_gist, TypeDef.name_gist]
  split
  · rfl
  · simp [Except.map, gist, size]

theorem intern_gist : t.gist.intern d.gist = ((t.intern d).1, (t.intern d).2.gist) := by
  unfold intern
  rw [insert_gist]
  cases t.insert d <;> rfl

theorem intern_of_gist_eq {d : TypeDef} (h : d.gist = d) :
    t.gist.intern d = ((t.intern d).1, (t.intern d).2.gist) := by
  rw [← intern_gist, h]

theorem modify_map {α β : Type} {u : α → β} {f : α → α} {g : β → β} (h : ∀ a, g (u a) = u (f a)) (as : List α)
    (i : Nat) : (as.map u).modify i g = (as.modify i f).map u := by
  induction as generalizing i with
  | nil => cases i <;> rfl
  | cons a as ih =>
    cases i with
    | zero => exact congrArg (· :: as.map u) (h a)
    | succ i => exact congrArg (u a :: ·) (ih i)

/-- A change of one type that goes along with taking the places away. -/
theorem modify_gist {f g : TypeDef → TypeDef} (h : ∀ d, g d.gist = (f d).gist) (id : TypeId) :
    t.gist.modify id g = (t.modify id f).gist :=
  congrArg TypeTable.mk (modify_map h t.defs id.index)

@[simp] theorem addMethod_gist (m : Method) : (t.addMethod type m).2.gist = (t.gist.addMethod type m.gist).2 :=
  .symm (t.modify_gist (fun d => by simp [TypeDef.gist]) type)

@[simp] theorem addField_gist (f : Field) : (t.addField type f).2.gist = (t.gist.addField type f.gist).2 :=
  .symm (t.modify_gist (fun d => by simp [TypeDef.gist]) type)

@[simp] theorem addProperty_gist (p : Property) : (t.addProperty type p).gist = t.gist.addProperty type p.gist :=
  .symm (t.modify_gist (fun d => by simp [TypeDef.gist]) type)

@[simp] theorem setBody_gist (body : FlowGraph) : t.gist.setBody m body = (t.setBody m body).gist := by
  refine t.modify_gist (fun d => ?_) m.type
  have hmethods : (d.methods.map Method.gist).modify m.index (fun method => { method with body := some body }) =
      (d.methods.modify m.index fun method => { method with body := some body }).map Method.gist := by
    refine modify_map (fun method => ?_) d.methods m.index
    rfl
  unfold TypeDef.gist
  dsimp only
  rw [hmethods]

end TypeTable

end TreeCompiler
