/-!
# Defects

What can be wrong with an assembly that was put together by hand: a handle that leads past the end
of its list, or a number that leaves its word. `entry` follows a handle, `next` counts in a word.
-/

namespace TreeCompiler

inductive Defect where
  /-- A handle to place `index` of a list of `length` entries. -/
  | outOfBounds (length index : Nat)
  /-- A sum that leaves its word. -/
  | overflow
deriving DecidableEq, Repr

namespace Defect

def message : Defect → String
  | .outOfBounds length index =>
    s!"index out of bounds: the len is {length} but the index is {index}"
  | .overflow => "attempt to add with overflow"

def entry {α : Type} (as : List α) (i : Nat) : Except Defect α :=
  match as[i]? with
  | some a => .ok a
  | none => .error (.outOfBounds as.length i)

/-- A place has an entry just when it lies in the list. -/
theorem entry_eq_ok_iff {α : Type} {as : List α} {i : Nat} {a : α} : entry as i = .ok a ↔ as[i]? = some a := by
  unfold entry
  split
  next found => simp [found]
  next missing => simp [missing]

/-- The number after `n` in a word of `modulus` numbers. -/
def next (modulus n : Nat) : Except Defect Nat :=
  if n + 1 < modulus then .ok (n + 1) else .error .overflow

theorem next_of_lt (modulus n : Nat) (h : n + 1 < modulus) : next modulus n = .ok (n + 1) := by
  simp [next, h]

end Defect

end TreeCompiler
