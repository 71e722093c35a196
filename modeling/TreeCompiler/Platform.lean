import TreeCompiler.TypeTable

/-!
# The platform library

The `System` types that every compilation can refer to. Their order in the table is fixed, and every
type comes after the types it refers to.
-/

namespace TreeCompiler.Platform

/-- Kind of layout in which fields lie one after another. -/
def layoutSequential : Int := 0

/-- Kind of layout in which every field says where it lies. -/
def layoutExplicit : Int := 2

/-- Kind of layout that is left to the platform. -/
def layoutAuto : Int := 3

/-- The largest number of parameters of a delegate. -/
def maxDelegateParams : Nat := 4

def external (name : QualifiedName) (base : Option TypeId) : TypeDef :=
  { name, origin := .external, bases := base.toList }

def parameter (name : String) (type : Option TypeId) : Parameter :=
  { name, type }

/-- A constructor as the platform declares it, without a return type. -/
def constructor (params : List Parameter) : Method :=
  { name := ".ctor", returnType := none, params, isConstructor := true }

/-- A primitive; the bases of values and of references are given. -/
def primitive (p : Primitive) (valueType object : TypeId) : TypeDef :=
  { external (TypeTable.systemName p.systemName)
      (some (if p.isValueType then valueType else object)) with
    primitive := some p
    isSealed := true
    isValueType := p.isValueType }

/-- The primitives other than `Object`, in the order of the table. -/
def primitives : List Primitive :=
  [.void, .bool, .char, .int .i8, .int .u8, .int .i16, .int .u16, .int .i32, .int .u32,
   .int .i64, .int .u64, .f16, .f32, .f64, .string]

def consoleOverloads : List Primitive :=
  [.string, .bool, .char, .int .i32, .int .u32, .int .i64, .int .u64, .f32, .f64, .object]

def writeMethods (t : TypeTable) (name : String) : List Method :=
  consoleOverloads.map fun p =>
    { name
      returnType := t.primitive? .void
      params := [parameter "value" (t.primitive? p)]
      isStatic := true }

def console (t : TypeTable) (object : TypeId) : TypeDef :=
  { external (TypeTable.systemName "Console") (some object) with
    isStatic := true
    isSealed := true
    methods := writeMethods t "Write" ++ writeMethods t "WriteLine"
      ++ [{ name := "WriteLine", returnType := t.primitive? .void, isStatic := true }] }

/-- A generic type of functions, `Action` or `Func`. -/
def delegate (family : String) (arity : Nat) (object : TypeId) : TypeDef :=
  { external (TypeTable.systemName s!"{family}`{arity}") (some object) with
    isSealed := true
    genericArity := arity }

def delegates (object : TypeId) : List TypeDef :=
  (List.range (maxDelegateParams + 1)).flatMap fun n =>
    [delegate "Action" n object, delegate "Func" (n + 1) object]

def attributeType (name : QualifiedName) (base : TypeId) (usage : AttributeTargets)
    (params : List Parameter) : TypeDef :=
  { external name (some base) with
    isSealed := true
    usage := some usage
    methods := [constructor params] }

def interop : QualifiedName := ⟨["System", "Runtime", "InteropServices"]⟩

def structLayoutName : QualifiedName := interop.child "StructLayoutAttribute"

def fieldOffsetName : QualifiedName := interop.child "FieldOffsetAttribute"

def specialName : QualifiedName :=
  ⟨["System", "Runtime", "CompilerServices", "SpecialNameAttribute"]⟩

def targetFrameworkName : QualifiedName :=
  ⟨["System", "Runtime", "Versioning", "TargetFrameworkAttribute"]⟩

/-- The enumeration of layout kinds; `self` is its own handle. -/
def layoutKind (t : TypeTable) (self : TypeId) : TypeDef :=
  let member (name : String) (value : Int) : Field :=
    { name, type := some self, isStatic := true, isLiteral := true, value := some (.i32 value) }
  { external (interop.child "LayoutKind") (t.system? "Enum") with
    isSealed := true
    isValueType := true
    fields := [member "Sequential" layoutSequential, member "Explicit" layoutExplicit,
      member "Auto" layoutAuto] }

/-- Adds a type whose definition may look at the table before it. -/
def add (t : TypeTable) (d : TypeTable → TypeDef) : TypeTable :=
  (t.intern (d t)).2

/-- `Object`, `ValueType` and `Enum`, the bases of all others. -/
def roots : TypeTable :=
  let object : TypeId := ⟨0⟩
  let valueType : TypeId := ⟨1⟩
  { defs :=
      [{ external (TypeTable.systemName "Object") none with
          primitive := some .object, methods := [constructor []] },
       { external (TypeTable.systemName "ValueType") (some object) with isAbstract := true },
       { external (TypeTable.systemName "Enum") (some valueType) with isAbstract := true }] }

/-- The types after the primitives, in the order of the table. -/
def library (object : TypeId) : List (TypeTable → TypeDef) :=
  let system := TypeTable.systemName
  let base (t : TypeTable) : TypeId := (t.system? "Attribute").getD object
  [fun t =>
    { external (system "Exception") (some object) with
      methods := [constructor [], constructor [parameter "message" (t.primitive? .string)]] },
   fun t => console t object]
    ++ (delegates object).map (fun d _ => d)
    ++ [fun _ => { external (system "Attribute") (some object) with isAbstract := true },
        fun t => attributeType (system "AttributeUsageAttribute") (base t) .classes [],
        fun t => attributeType (system "ObsoleteAttribute") (base t) .everything [],
        fun t => attributeType (system "FlagsAttribute") (base t) .enums [],
        fun t => layoutKind t ⟨t.size⟩,
        fun t => attributeType structLayoutName (base t) (.union .classes .structs)
          [parameter "layoutKind" (t.lookup (interop.child "LayoutKind"))],
        fun t => attributeType fieldOffsetName (base t) .fields
          [parameter "offset" (t.primitive? (.int .i32))],
        fun t => attributeType specialName (base t) .everything [],
        fun t => attributeType targetFrameworkName (base t) .everything
          [parameter "frameworkName" (t.primitive? .string)]]

/-- The table that holds the platform library and nothing else. -/
def types : TypeTable :=
  let object : TypeId := ⟨0⟩
  let valueType : TypeId := ⟨1⟩
  let t := primitives.foldl (fun t p => add t fun _ => primitive p valueType object) roots
  (library object).foldl add t

end TreeCompiler.Platform
