import TreeCompiler.Proofs.Lowering.Lookups
import TreeCompiler.Proofs.Number.Wrapping

/-!
# Constants of an assembly

Integers come into the members of types as literals, which are in range, as values that are wrapped to the kind of a
type, and as offsets, which are looked at first.

* `Assembly.constants` : the constants in all members of all types;
* `TypeTable.Fits` : the integers among those of a table fit their kinds.
-/

namespace TreeCompiler

open List Context TypeTable

def Instruction.constant? : Instruction → Option Constant
  | .constant value _ => some value
  | _ => none

def FlowGraph.constants (g : FlowGraph) : List Constant :=
  g.instructions.filterMap Instruction.constant?

@[simp] theorem FlowGraph.constants_append (g : FlowGraph) (b : BlockId) (i : Instruction) :
    (g.append b i).2.constants = g.constants ++ i.constant?.toList := by
  cases h : i.constant? <;> simp [constants, append, modifyBlock, h]

def Attribute.argsOf (as : List Attribute) : List Constant :=
  as.flatMap Attribute.args

@[simp] theorem Attribute.argsOf_nil : argsOf [] = [] :=
  rfl

@[simp] theorem Attribute.argsOf_append (as bs : List Attribute) : argsOf (as ++ bs) = argsOf as ++ argsOf bs :=
  flatMap_append

def Field.constants (f : Field) : List Constant :=
  f.value.toList ++ Attribute.argsOf f.attributes

/-- Defaults of parameters, arguments of attributes, and what instructions load. -/
def Method.constants (m : Method) : List Constant :=
  m.params.filterMap Parameter.default ++ Attribute.argsOf m.attributes ++ m.body.toList.flatMap FlowGraph.constants

def Property.constants (p : Property) : List Constant :=
  (p.getter.toList ++ p.setter.toList).flatMap Method.constants ++ Attribute.argsOf p.attributes

def TypeDef.constants (d : TypeDef) : List Constant :=
  d.fields.flatMap Field.constants ++ d.methods.flatMap Method.constants ++ d.properties.flatMap Property.constants ++
    Attribute.argsOf d.attributes

/-- All constants that there are in an assembly. -/
def Assembly.constants (a : Assembly) : List Constant :=
  a.types.defs.flatMap TypeDef.constants

namespace Constant

/-- All integers among constants fit their kinds. -/
def AllFit (xs : List Constant) : Prop :=
  ∀ x ∈ xs, x.Fits

@[simp] theorem allFit_nil : AllFit [] :=
  forall_mem_nil _

@[simp, grind =] theorem allFit_append {xs ys : List Constant} : AllFit (xs ++ ys) ↔ AllFit xs ∧ AllFit ys :=
  forall_mem_append

@[simp, grind =] theorem allFit_flatMap {α : Type} {as : List α} {f : α → List Constant} :
    AllFit (as.flatMap f) ↔ ∀ a ∈ as, AllFit (f a) := by
  simp only [AllFit, mem_flatMap]
  grind

end Constant

open Constant (AllFit allFit_nil allFit_append allFit_flatMap)

/-! ## Tables -/

namespace TypeTable
variable {t t' : TypeTable}

/-- All integers in a table fit their kinds. -/
def Fits (t : TypeTable) : Prop :=
  ∀ d ∈ t.defs, AllFit d.constants

namespace Fits
variable (h : t.Fits) (owner id : TypeId)
include h

theorem modify {f : TypeDef → TypeDef} (hf : ∀ d, AllFit d.constants → AllFit (f d).constants) : (t.modify id f).Fits :=
  forall_mem_modify id.index h hf

theorem append {d : TypeDef} (hd : d.constants = []) : Fits { defs := t.defs ++ [d] } :=
  forall_mem_concat h (hd ▸ allFit_nil)

theorem addsInstances (hadds : t.AddsInstances t') : t'.Fits := by
  induction hadds with
  | refl => exact h
  | tail _ hlast ih =>
    obtain ⟨definition, args, -, -⟩ := hlast
    exact ih.append rfl

theorem addField {f : Field} (hf : AllFit f.constants) : (t.addField owner f).2.Fits :=
  h.modify owner fun d hd => by simp_all [TypeDef.constants]

theorem addMethod {m : Method} (hm : AllFit m.constants) : (t.addMethod owner m).2.Fits :=
  h.modify owner fun d hd => by simp_all [TypeDef.constants]

theorem addProperty {p : Property} (hp : AllFit p.constants) : (t.addProperty owner p).Fits :=
  h.modify owner fun d hd => by simp_all [TypeDef.constants]

theorem setBody (m : MethodRef) {g : FlowGraph} (hg : AllFit g.constants) : (t.setBody m g).Fits := by
  refine h.modify m.type fun d hd => ?_
  simp only [TypeDef.constants, allFit_append, allFit_flatMap] at hd ⊢
  refine ⟨⟨⟨hd.1.1.1, forall_mem_modify m.index hd.1.1.2 fun old hold => ?_⟩, hd.1.2⟩, hd.2⟩
  simp only [Method.constants, allFit_append] at hold ⊢
  simpa [hold] using hg

/-- A type that is given other bases and attributes. -/
theorem revise (bases : TypeDef → List TypeId) {attributes : List Attribute}
    (hattributes : AllFit (Attribute.argsOf attributes)) (visibility : Visibility) :
    (t.modify id fun d => { d with bases := bases d, attributes, visibility }).Fits := by
  refine h.modify id fun d hd => ?_
  simp only [TypeDef.constants, allFit_append] at hd ⊢
  exact ⟨hd.1, hattributes⟩

end Fits

end TypeTable

/-! ## Members -/

namespace Context
variable (c : Context)

theorem fits_optionalConstant (value : Option Expr) (type : Option TypeId) (what : String) :
    AllFit (c.optionalConstant value type what).1.toList := by
  unfold optionalConstant constant?
  grind [AllFit]

/-- Attributes that are written have no arguments. -/
@[simp] theorem args_attributes (module : QualifiedName) (annotations : List AttributeUse)
    (target : AttributeTargets) : Attribute.argsOf (c.attributes module annotations target).1 = [] := by
  obtain ⟨-, -, hall⟩ := traverse_spec (f := AttributeUse.attribute? module target) (R := fun _ _ => True)
    (P := fun _ a => ∀ b ∈ a, b.args = []) (fun _ => trivial) (fun _ _ => trivial) (fun _ _ _ _ h => h) annotations
    (c := c) fun c' _ a _ => ⟨trivial, fun b hb => ((attribute?_cases module target c' a).2 b hb).2⟩
  simp only [Attribute.argsOf, attributes, flatMap_eq_nil_iff, mem_filterMap]
  rintro a ⟨found, hfound, heq⟩
  exact hall found hfound a heq

@[simp] theorem args_specialName? : Attribute.argsOf c.specialName?.toList = [] := by
  unfold specialName?
  cases c.types.lookup Platform.specialName <;> rfl

end Context

namespace Lowering

theorem fits_method (module : QualifiedName) (owner : TypeId) (c : Context) (d : FnDecl) (name : String)
    (isStatic : Bool) : AllFit (method module owner c d name isStatic).1.constants := by
  have hparams (c : Context) : AllFit ((traverse (parameter module) c d.params).1.filterMap Parameter.default) := by
    obtain ⟨-, -, hall⟩ := traverse_spec (f := parameter module) (R := fun _ _ => True)
      (P := fun _ p => AllFit p.default.toList) (fun _ => trivial) (fun _ _ => trivial) (fun _ _ _ _ h => h) d.params
      (c := c) fun c' _ p _ => ⟨trivial, fits_optionalConstant _ p.default _ "A parameter default"⟩
    intro x hx
    obtain ⟨p, hp, heq⟩ := mem_filterMap.mp hx
    exact hall p hp x (Option.mem_toList.mpr heq)
  unfold method Method.constants
  dsimp only
  split <;> simpa using hparams _

theorem constants_variantBody (objectCtor : Option MethodRef) (fields : List FieldRef) :
    (variantBody objectCtor fields).constants = [] := by
  unfold variantBody
  dsimp only
  refine foldlRecOn (motive := fun g : FlowGraph => g.constants = []) fields.zipIdx _ ?_ fun g hg _ _ => ?_
  · cases objectCtor <;> rfl
  · simp [hg, Instruction.constant?]

/-- An attribute with one argument, if its type is there. -/
theorem fits_argument {type : Option TypeId} {x : Constant} (hx : x.Fits) :
    AllFit (Attribute.argsOf (type.map fun type => ({ type, args := [x] } : Attribute)).toList) := by
  cases type with
  | none => exact allFit_nil
  | some type => exact forall_mem_singleton.mpr hx

end Lowering

end TreeCompiler
