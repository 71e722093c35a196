/-!
# Runs of a machine

A machine is given by its step, which leads to another state or to an outcome, or nowhere.
-/

namespace TreeCompiler

inductive Progress (S O : Type) where
  | running (s : S)
  | ended (o : O)
deriving DecidableEq, Repr

namespace Run
variable {S O : Type}

def run (step : S → Option (Progress S O)) : Nat → S → Option O
  | 0, _ => none
  | n + 1, s =>
    match step s with
    | some (.running s') => run step n s'
    | some (.ended o) => some o
    | none => none

/-- The run from a state on ends with an outcome. -/
def Ends (step : S → Option (Progress S O)) (s : S) (o : O) : Prop :=
  ∃ n, run step n s = some o

/-- Steps lead from one state to another. -/
inductive Reaches (step : S → Option (Progress S O)) : S → S → Prop where
  | refl (s : S) : Reaches step s s
  | head {s s' s'' : S} : step s = some (.running s') → Reaches step s' s'' → Reaches step s s''

variable {step : S → Option (Progress S O)} {s s' s'' : S} {o o' : O}

theorem ends_iff_of_running (h : step s = some (.running s')) : Ends step s o ↔ Ends step s' o := by
  constructor
  · rintro ⟨n, hn⟩
    cases n with
    | zero => cases hn
    | succ n =>
      simp only [run, h] at hn
      exact ⟨n, hn⟩
  · rintro ⟨n, hn⟩
    refine ⟨n + 1, ?_⟩
    simp only [run, h, hn]

theorem ends_iff_of_ended (h : step s = some (.ended o)) : Ends step s o' ↔ o' = o := by
  constructor
  · rintro ⟨n, hn⟩
    cases n with
    | zero => cases hn
    | succ n =>
      simp only [run, h] at hn
      exact (Option.some.inj hn).symm
  · rintro rfl
    refine ⟨1, ?_⟩
    simp only [run, h]

theorem Reaches.trans (h : Reaches step s s') (h' : Reaches step s' s'') : Reaches step s s'' := by
  induction h with
  | refl => exact h'
  | head hstep _ ih => exact .head hstep (ih h')

theorem Reaches.ends_iff (h : Reaches step s s') : Ends step s o ↔ Ends step s' o := by
  induction h with
  | refl => exact Iff.rfl
  | head hstep _ ih => exact (ends_iff_of_running hstep).trans ih

end Run

end TreeCompiler
