import TreeCompiler.Assembly
import TreeCompiler.EmitError
import TreeCompiler.Image.Rows
import TreeCompiler.Image.Signature

/-!
# Rows and references

A type, field or method that the program defines has a row of its own, known from the order of the
definitions. What a library defines is referred to by a row that is made when it is first used, and
so is every text in code. `References` holds those rows.
-/

namespace TreeCompiler

/-! ## Definitions -/

structure TypeRows where
  type : TypeId
  /-- Row of the type itself, counted from one. -/
  row : Nat
  fieldsBefore : Nat
  methodsBefore : Nat
deriving DecidableEq, Repr

namespace TypeDef

def accessors (d : TypeDef) : List Method :=
  d.properties.flatMap fun p => p.getter.toList ++ p.setter.toList

/-- Rows that the methods of a type take: its accessors lie after its methods. -/
def methodRowCount (d : TypeDef) : Nat :=
  d.methods.length + d.accessors.length

end TypeDef

namespace TypeRows

/-- Numbers definitions that follow `row` types, `fields` fields and `methods` methods. -/
def number (row fields methods : Nat) : List (TypeId × TypeDef) → List TypeRows
  | [] => []
  | (type, d) :: rest =>
    { type, row := row + 1, fieldsBefore := fields, methodsBefore := methods } ::
      number (row + 1) (fields + d.fields.length) (methods + d.methodRowCount) rest

end TypeRows

namespace TypeTable

def typeRows (t : TypeTable) : List TypeRows :=
  TypeRows.number 0 0 0 t.defined

def rowsOf? (t : TypeTable) (type : TypeId) : Option TypeRows :=
  t.typeRows.find? (·.type == type)

end TypeTable

/-! ## References -/

structure References where
  types : List TypeId := []
  members : List MemberRefRow := []
  strings : List String := []
deriving DecidableEq, Repr

abbrev Emission := StateT References (Except EmitError)

namespace References

/-- Row of an entry, counted from one, and the entries with it. -/
def intern {α : Type} [BEq α] (as : List α) (a : α) : Nat × List α :=
  match as.findIdx? (· == a) with
  | some i => (i + 1, as)
  | none => (as.length + 1, as ++ [a])

theorem getElem?_intern {α : Type} [BEq α] [LawfulBEq α] (as : List α) (a : α) :
    (intern as a).2[(intern as a).1 - 1]? = some a := by
  unfold intern
  split
  next i found =>
    obtain ⟨lt, eq, -⟩ := List.findIdx?_eq_some_iff_getElem.mp found
    simpa [lt] using eq
  next => simp

def typeRow (r : References) (type : TypeId) : Token × References :=
  let (row, types) := intern r.types type
  (.typeRef row, { r with types })

def memberRow (r : References) (m : MemberRefRow) : Token × References :=
  let (row, members) := intern r.members m
  (.memberRef row, { r with members })

def stringRow (r : References) (s : String) : Token × References :=
  let (row, strings) := intern r.strings s
  (.userString row, { r with strings })

end References

namespace Emission
variable (t : TypeTable)

def typeToken (type : TypeId) : Emission Token :=
  match t.rowsOf? type with
  | some rows => return .typeDef rows.row
  | none => modifyGet (·.typeRow type)

def memberToken (m : MemberRefRow) : Emission Token :=
  modifyGet (·.memberRow m)

def stringToken (s : String) : Emission Token :=
  modifyGet (·.stringRow s)

/-! ## Signatures -/

def fieldMark : UInt8 := 0x06

/-- Leading byte of the signature of a property. -/
def propertyMark : UInt8 := 0x28

def methodMark (isStatic : Bool) : UInt8 :=
  if isStatic then 0 else 0x20

/-- Signature of a type; `place` names the place in an error. -/
def typeSignature (place : String) : Option TypeId → Emission Blob
  | none => throw (.unresolvedType place)
  | some type => do
    let d := t.get type
    match d.primitive.bind Primitive.element? with
    | some code => return [code]
    | none =>
      let token ← typeToken t type
      let isValue := d.isValueType || d.primitive == some .f16
      return (if isValue then Element.valueType else Element.classType) :: token.bytes

/-- Signature of what a method returns. A constructor may be without a type. -/
def returnSignature (place : String) (m : Method) : Emission Blob :=
  if m.returnType.isNone && (m.isConstructor || m.isDestructor) then return [Element.void]
  else typeSignature t place m.returnType

def paramSignature (place : String) (p : Parameter) : Emission Blob :=
  typeSignature t s!"{place} parameter {p.name}" p.type

/-- Signature of a method; the number of parameters takes one byte. -/
def methodSignature (owner : TypeId) (m : Method) : Emission Blob := do
  let place := (t.get owner).name.text ++ "::" ++ m.name
  let result ← returnSignature t place m
  let params ← m.params.mapM (paramSignature t place)
  return methodMark m.isStatic :: UInt8.ofNat m.params.length :: (result ++ params.flatten)

def fieldSignature (owner : TypeDef) (f : Field) : Emission Blob := do
  let type ← typeSignature t (owner.name.text ++ "." ++ f.name) f.type
  return fieldMark :: type

/-! ## Members -/

def methodToken (m : MethodRef) : Emission Token := do
  let callee ← EmitError.ofDefect (t.methodEntry m)
  match t.rowsOf? m.type with
  | some rows => return .methodDef (rows.methodsBefore + m.index + 1)
  | none =>
    let signature ← methodSignature t m.type callee
    let parent ← typeToken t m.type
    memberToken { parent, name := callee.name, signature }

def fieldToken (f : FieldRef) : Emission Token := do
  let field ← EmitError.ofDefect (t.fieldEntry f)
  match t.rowsOf? f.type with
  | some rows => return .field (rows.fieldsBefore + f.index + 1)
  | none =>
    let signature ← fieldSignature t (t.get f.type) field
    let parent ← typeToken t f.type
    memberToken { parent, name := field.name, signature }

end Emission

end TreeCompiler
