import TreeCompiler.Handle

/-!
# Places of values and variables

Both targets keep every value and every variable of a method in a place of its own. Places are
numbered from zero in the order in which they are taken.
-/

namespace TreeCompiler

inductive Place where
  | value (id : InstrId)
  | binding (id : BindingId)
deriving DecidableEq, Repr

abbrev Places := List Place

namespace Places

def number? (ps : Places) (p : Place) : Option Nat :=
  ps.findIdx? (· == p)

def take (ps : Places) (p : Place) : Nat × Places :=
  (ps.length, ps ++ [p])

theorem lt_length_of_number? {ps : Places} {p : Place} {n : Nat} (h : ps.number? p = some n) :
    n < ps.length :=
  (List.findIdx?_eq_some_iff_getElem.mp h).1

theorem number?_append_self {ps : Places} {p : Place} (h : ps.number? p = none) :
    number? (ps ++ [p]) p = some ps.length := by
  unfold number? at *
  simp [List.findIdx?_append, h]

/-- Taking a place leaves the numbers of the others. -/
theorem number?_append_of_ne (ps : Places) {p q : Place} (h : q ≠ p) :
    number? (ps ++ [p]) q = ps.number? q := by
  have hp : (p == q) = false := by simpa using h.symm
  unfold number?
  simp [List.findIdx?_append, List.findIdx?_cons, hp]

end Places

end TreeCompiler
