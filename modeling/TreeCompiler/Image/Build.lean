import TreeCompiler.Image.MethodCode

/-!
# Building images

The rows of every definition in order. Rows refer to one another by token, and what they refer to
in a library is collected on the way.
-/

namespace TreeCompiler

/-! ## Flags -/

def flag {α : Type} [OfNat α 0] (condition : Bool) (value : α) : α :=
  if condition then value else 0

namespace TypeDef

/-- An attribute among the type's own lays out its fields explicitly. -/
def hasExplicitLayout (t : TypeTable) (d : TypeDef) : Bool :=
  d.attributes.any fun a =>
    (t.get a.type).name.last == "StructLayoutAttribute" &&
      a.args.head?.bind Constant.asInt? == some Platform.layoutExplicit

/-- How the fields of a type are laid out, and when its statics are made. -/
def layoutFlags (t : TypeTable) (d : TypeDef) : UInt32 :=
  if d.isValueType then if d.hasExplicitLayout t then 0x10 else 0x08
  else flag (!d.isInterface) 0x100000

def flags (t : TypeTable) (d : TypeDef) : UInt32 :=
  flag (d.visibility == .publicAccess) 0x01 ||| flag d.isInterface 0x20 |||
    flag (d.isInterface || d.isAbstract || d.isStatic) 0x80 |||
    flag (d.isSealed || d.isStatic) 0x100 ||| d.layoutFlags t

end TypeDef

def marksSpecialName (t : TypeTable) (attributes : List Attribute) : Bool :=
  attributes.any fun a => (t.get a.type).name.last == "SpecialNameAttribute"

def Visibility.fieldFlag : Visibility → UInt16
  | .publicAccess => 0x06
  | .privateAccess => 0x01
  | .protectedAccess => 0x04
  | .internalAccess => 0x03

def Field.flags (t : TypeTable) (f : Field) : UInt16 :=
  f.visibility.fieldFlag ||| flag (f.isStatic || f.isLiteral) 0x10 |||
    (if f.isLiteral then 0x40 else flag (!f.isMutable) 0x20) |||
    flag f.value.isSome 0x8000 ||| flag (marksSpecialName t f.attributes) 0x600

/-- Every method is public and hides methods of its signature only. -/
def Method.flags (t : TypeTable) (m : Method) : UInt16 :=
  0x86 ||| flag m.isStatic 0x10 ||| flag m.isConstructor 0x1800 |||
    flag (m.isDestructor || m.isOverride) 0x40 ||| flag m.isAbstract 0x540 |||
    flag m.isForeign 0x2000 ||| flag (marksSpecialName t m.attributes) 0x800

/-! ## Rows -/

namespace Emission
variable (t : TypeTable)

/-- The constructor that an attribute runs: a declared one that takes as many arguments, else one
that takes arguments of just these types. -/
def attributeCtor (a : Attribute) : Emission Token :=
  match t.findMethod? a.type ".ctor" a.args.length with
  | some ctor => methodToken t ctor
  | none => do
    let parent ← typeToken t a.type
    let signature := methodMark false :: UInt8.ofNat a.args.length :: Element.void ::
      a.args.map Constant.element
    memberToken { parent, name := ".ctor", signature }

/-- The value holds the arguments between a mark and the number of named arguments, zero. -/
def attributeRow (a : Attribute) : Emission AttributeRow := do
  let ctor ← attributeCtor t a
  return { ctor, value := .ofNat 2 1 ++ a.args.flatMap Constant.payload ++ .ofNat 2 0 }

def attributeRows (attributes : List Attribute) : Emission (List AttributeRow) :=
  attributes.mapM (attributeRow t)

def fieldRow (owner : TypeDef) (f : Field) : Emission FieldRow := do
  let signature ← fieldSignature t owner f
  let attributes ← attributeRows t f.attributes
  return {
    flags := f.flags t
    name := f.name
    signature
    default := f.value.map Constant.blob
    attributes }

def paramRow (p : Parameter) : ParamRow :=
  { name := p.name, flags := flag p.default.isSome 0x1000, default := p.default.map Constant.blob }

def methodHeader (owner : TypeId) (m : Method) : Emission MethodRow := do
  let signature ← methodSignature t owner m
  let attributes ← attributeRows t m.attributes
  return {
    flags := m.flags t
    implFlags := flag m.isForeign 0x1000
    name := m.name
    signature
    params := m.params.map paramRow
    attributes }

def methodRow (ref : MethodRef) (m : Method) : Emission MethodRow := do
  let row ← methodHeader t ref.type m
  match m.body with
  | some graph =>
    let body ← CodeScope.body { types := t, method := ref, graph }
    return { row with body := some body }
  | none => return row

/-- An accessor has a special name and no body of its own. -/
def accessorRow (owner : TypeId) (m : Method) : Emission MethodRow := do
  let row ← methodHeader t owner m
  return { row with flags := row.flags ||| 0x800 }

/-- Rows of a property and its accessors; the accessors follow the method of row `before`. -/
def propertyRow (owner : TypeId) (before : Nat) (p : Property) :
    Emission (PropertyRow × List MethodRow) := do
  let afterGetter := before + p.getter.toList.length
  let accessors ← (p.getter.toList ++ p.setter.toList).mapM (accessorRow t owner)
  let type ← typeSignature t p.name p.type
  let attributes ← attributeRows t p.attributes
  return (
    { name := p.name
      signature := propertyMark :: 0 :: type
      getter := p.getter.map fun _ => .methodDef (before + 1)
      setter := p.setter.map fun _ => .methodDef (afterGetter + 1)
      attributes }, accessors)

def propertyRows (t : TypeTable) (owner : TypeId) :
    Nat → List Property → Emission (List PropertyRow × List MethodRow)
  | _, [] => return ([], [])
  | before, p :: rest => do
    let (row, accessors) ← propertyRow t owner before p
    let (rows, others) ← propertyRows t owner (before + accessors.length) rest
    return (row :: rows, accessors ++ others)

/-- The class that a type derives from: its first base, unless that is an interface. -/
def classBase? (d : TypeDef) : Option TypeId :=
  d.baseClass?.filter fun b => !(t.get b).isInterface

/-- A type without a class as base extends the root class; an interface extends nothing. -/
def baseToken (d : TypeDef) : Emission (Option Token) := do
  let base := (classBase? t d).or (if d.isInterface then none else t.primitive? .object)
  base.mapM (typeToken t)

/-- A value type that is no enumeration takes at least one byte. -/
def layout? (d : TypeDef) : Option ClassLayout :=
  match classBase? t d with
  | some base => if t.system? "ValueType" = some base then some ⟨0, 1⟩ else none
  | none => none

def typeDefRow (rows : TypeRows) : Emission TypeDefRow := do
  let d := t.get rows.type
  let base ← baseToken t d
  let interfaces ← (d.bases.filter fun b => (t.get b).isInterface).mapM (typeToken t)
  let fields ← d.fields.mapM (fieldRow t d)
  let methods ← d.methods.zipIdx.mapM fun (m, i) => methodRow t ⟨rows.type, i⟩ m
  let (properties, accessors) ←
    propertyRows t rows.type (rows.methodsBefore + d.methods.length) d.properties
  let attributes ← attributeRows t d.attributes
  return {
    flags := d.flags t
    namespaceName := d.name.qualifier.text
    name := d.name.last
    base
    layout := layout? t d
    interfaces
    attributes
    fields
    methods := methods ++ accessors
    properties }

def coreLibrary : AssemblyRef :=
  { name := "System.Private.CoreLib", version := { major := 7 } }

def targetFramework : String := ".NETCoreApp,Version=v6.0"

/-- The attribute of the image itself, where the platform has it. -/
def frameworkAttribute? : Option Attribute :=
  (t.lookup Platform.targetFrameworkName).map fun type =>
    { type, args := [.string targetFramework] }

def typeRefRow (type : TypeId) : TypeRefRow :=
  let name := (t.get type).name
  { scope := 1, namespaceName := name.qualifier.text, name := name.last }

/-- All rows of definitions; references are collected in the state. -/
def imageRows (a : Assembly) : Emission Image := do
  let attributes ← attributeRows a.types (frameworkAttribute? a.types).toList
  let typeDefs ← a.types.typeRows.mapM (typeDefRow a.types)
  let entryPoint ← a.entryPoint.mapM (methodToken a.types)
  return {
    name := a.name
    version := { major := 1 }
    assemblyRefs := [coreLibrary]
    attributes
    typeDefs
    entryPoint }

end Emission

namespace Assembly

def image (a : Assembly) : Except EmitError Image := do
  let (image, references) ← (Emission.imageRows a).run {}
  return { image with
    typeRefs := references.types.map (Emission.typeRefRow a.types)
    memberRefs := references.members
    userStrings := references.strings }

end Assembly

end TreeCompiler
