import TreeCompiler.Proofs.Lowering.BoundedStates

/-!
# Integers that fit

Declarations add no integer that is out of the range of its kind, and bodies load none. So every integer in an assembly
fits its kind, whatever state lowering is in.

* `Compilation.fits_of_visits` : the integers of an assembly fit their kinds.
-/

namespace TreeCompiler

open List Context Lowering TypeTable
open Constant (AllFit allFit_nil)

/-! ## Bodies -/

@[grind] def Instruction.Fits : Instruction → Prop
  | .constant value _ => value.Fits
  | _ => True

namespace BodyState

/-- All integers that instructions load fit their kinds. -/
def Fits (s : BodyState) : Prop :=
  AllFit s.graph.constants

variable (s : BodyState)

@[grind =] theorem fits_append (i : Instruction) : (s.append i).2.Fits ↔ s.Fits ∧ i.Fits := by
  have happend : (s.append i).2.graph.constants = _ := s.graph.constants_append .entry i
  rw [Fits, happend, Constant.allFit_append]
  cases i <;> simp [Fits, AllFit, Instruction.Fits, Instruction.constant?]

@[grind =] theorem fits_withContext (c : Context) : (s.withContext c).Fits ↔ s.Fits := Iff.rfl

@[grind =] theorem fits_report (code : ErrorCode) (span : Span) (message label : String) :
    (s.report code span message label).Fits ↔ s.Fits := Iff.rfl

@[grind =] theorem fits_setFlow (flow : Flow) : (s.setFlow flow).Fits ↔ s.Fits := Iff.rfl

end BodyState

namespace Scope
variable {e : Scope} {s : BodyState} (hs : s.Fits)
include hs

theorem fits_lowerExpr (expr : Expr) (expected : Option TypeId) : (e.lowerExpr s expr expected).2.Fits := by
  fun_induction lowerExpr e s expr expected <;> grind [lowerLiteral, literalConstant, lowerIdent]

theorem fits_lowerOptional (value : Option Expr) (expected : Option TypeId) :
    (e.lowerOptional s value expected).2.Fits := by
  cases value with
  | none => exact hs
  | some value => exact fits_lowerExpr hs value expected

theorem fits_lowerArgs (args : List (Expr × Option TypeId)) : (e.lowerArgs s args).2.Fits := by
  fun_induction lowerArgs e s args <;> grind [fits_lowerExpr]

theorem fits_lowerCall (call : Call) : (e.lowerCall s call).Fits := by
  unfold lowerCall
  grind [fits_lowerArgs]

theorem fits_lowerPrint (args : List Expr) : (e.lowerPrint s args).Fits := by
  unfold lowerPrint
  split
  · exact hs
  · exact foldlRecOn (motive := BodyState.Fits) args _ hs fun _ hs' _ _ => fits_lowerCall hs' _

theorem fits_lowerVar (name : String) (type : Option TypeExpr) (value : Option Expr) :
    (e.lowerVar s name type value).Fits := by
  have htype : (e.variableType s type value).2.Fits := by
    cases type <;> exact hs
  exact (BodyState.fits_append _ _).mpr ⟨fits_lowerOptional htype value _, trivial⟩

theorem fits_lowerThrow (value : Expr) : (e.lowerThrow s value).Fits := by
  unfold lowerThrow
  grind [fits_lowerExpr]

theorem fits_lowerStmt (stmt : Stmt) : (e.lowerStmt s stmt).Fits := by
  fun_cases lowerStmt e s stmt <;>
    grind [fits_lowerCall, fits_lowerPrint, fits_lowerOptional, fits_lowerVar, fits_lowerThrow]

theorem fits_lowerStmts (stmts : List Stmt) : (e.lowerStmts s stmts).Fits := by
  fun_induction lowerStmts e s stmts <;> grind [fits_lowerStmt]

end Scope

theorem Context.fits_lowerBody {c : Context} (hc : c.types.Fits) (p : PendingBody) : (c.lowerBody p).types.Fits := by
  have htypes := hc.addsInstances ((c.scopeOf p).continues_lowerStmts { context := c } p.body).context.types
  exact htypes.setBody p.method (Scope.fits_lowerStmts (s := { context := c }) allFit_nil p.body)

/-! ## Programs -/

namespace Compilation
variable {trees : List Tree} {options : Options} {c : Context}

theorem fits_platform (options : Options) : (platform options).Fits := by
  have hall : ∀ d ∈ (options.target.install Platform.types).defs, ∀ x ∈ d.constants, x.Fits := by
    cases options.target <;> decide +kernel
  exact hall

theorem fits_of_visits (h : Visits trees options c) : c.types.Fits := by
  have hserved {before after : List Request} (h : asked trees options = before ++ after) :
      ((start trees options).context.serveAll before).2.types.Fits := by
    refine serveAll_rel (R := fun c c' => c.types.Fits → c'.types.Fits) (fun _ => id) (fun h h' => h' ∘ h)
      (fun _ _ => id) (fun c d hd _ hc => ?_) _ (types_start trees options ▸ fits_platform options)
    have hbare := bare_of_mem_requests (h.symm ▸ mem_append_left _ hd)
    obtain ⟨hfields, hmethods, hproperties⟩ : d.fields = [] ∧ d.methods = [] ∧ d.properties = [] := by
      simpa [TypeDef.members] using hbare.members
    exact hc.append (by simp [TypeDef.constants, hfields, hmethods, hproperties, hbare.attributes])
  have hregistered := hserved (List.append_nil _).symm
  rw [serveAll_asked] at hregistered
  cases h with
  | registering before after h => exact hserved h
  | filling before after h => exact (edits_filling trees options h).fits hregistered
  | completing before after h =>
    have hdeclared : (declared trees options).context.types.Fits := by
      rw [declared, lowerDeclarations_eq]
      exact (edits_filling trees options (List.append_nil _).symm).fits hregistered
    exact foldlRecOn (motive := fun c : Context => c.types.Fits) before _ hdeclared
      fun _ hc p _ => fits_lowerBody hc p

/-- In every state of lowering, the integers in the assembly have a width of 8, 16, 32 or 64 bits and are in the range
of that width, with or without a sign; the bytes that are written for one, lowest first, are as many as its width asks
for and stand for its value. An integer that is converted to another kind becomes the only one of that kind that is
congruent to it, and it becomes the same by way of any kinds that are no narrower. -/
theorem integer_constants_exact (h : Visits trees options c) :
    (∀ k v, .int k v ∈ c.assembly.constants → k.bits ∈ [8, 16, 32, 64] ∧ k.Contains v ∧
      8 * (Constant.int k v).payload.length = k.bits ∧ Blob.toInt k.signed (Constant.int k v).payload = v) ∧
    ∀ j k v, (∃ w, (Constant.int j v).convert (.int k) = .int k w ∧
        ∀ u, k.Contains u ∧ u ≡ v [ZMOD 2 ^ k.bits] ↔ u = w) ∧
      ∀ ks : List IntKind, (∀ i ∈ ks, k.bits ≤ i.bits) →
        ((Constant.int j v).conversions (ks.map .int ++ [.int k])).getLast? =
          some ((Constant.int j v).convert (.int k)) := by
  refine ⟨fun k v hmem => ?_, fun j k v => ⟨⟨_, Constant.convert_int j k v, k.contains_modEq_iff v⟩,
    fun ks hks => Constant.getLast?_conversions j k v hks⟩⟩
  obtain ⟨d, hd, hx⟩ := mem_flatMap.mp hmem
  have hcontains : k.Contains v := fits_of_visits h d hd _ hx
  obtain ⟨hlength, hread⟩ := Constant.toInt_payload hcontains
  exact ⟨k.bits_mem, hcontains, congrArg (8 * ·) hlength, hread⟩

/-- Numbers that are too large for the types of a field, of a parameter and of a variable, and an offset. -/
def gaugeTree : Tree :=
  { module := ⟨["Demo"]⟩
    body := [
      .type { kind := .classType, name := "Gauge"
              members := [.field { name := "low", type := .named ⟨["u8"]⟩ {}, value := some (.ofInt 300) },
                .method { name := "set"
                          params := [{ name := "to", type := .named ⟨["i16"]⟩ {}, default := some (.ofInt 40000) }]
                          body := some [.var "x" (some (.named ⟨["i8"]⟩ {})) (some (.ofInt 200)) {}] }] },
      .union { name := "Cell", fields := [{ name := "a", type := .named ⟨["i32"]⟩ {}, offset := some (.ofInt 4) }] }] }

theorem integer_constants_exact_gaugeTree :
    (∀ x ∈ [.int .u8 44, .int .i16 (-25536), .int .i8 (-56), .int .i32 4],
      x ∈ (lowered [gaugeTree] {}).assembly.constants) ∧
    Blob.toInt true (Constant.int .i16 (-25536)).payload = -25536 := by
  have hmem : ∀ x ∈ [.int .u8 44, .int .i16 (-25536), .int .i8 (-56), .int .i32 4],
      x ∈ (lowered [gaugeTree] {}).assembly.constants := by
    decide +kernel
  have hvisits (trees : List Tree) : Visits trees {} (lowered trees {}).context :=
    .completing (declared trees {}).queue [] (List.append_nil _).symm
  exact ⟨hmem, ((integer_constants_exact (hvisits _)).1 .i16 (-25536) (hmem _ (by simp))).2.2.2⟩

end Compilation

end TreeCompiler
