import Mathlib.Data.Int.ModEq
import TreeCompiler.Image.Signature

/-!
# Integers of a fixed width

An integer of a kind is wrapped, in two's complement, when it is converted to another kind, and written in as many
bytes as its kind has.

* `IntKind.contains_modEq_iff` : the value that a number is wrapped to is the only one in range that is congruent to it;
* `Constant.getLast?_conversions` : on the way to a kind, kinds that are no narrower make no difference;
* `Constant.toInt_payload` : what is written can be read back;
* `Constant.Fits` : an integer constant is in the range of its kind, and literals and conversions give only such.
-/

namespace TreeCompiler

namespace IntKind

/-- Among the integers of a kind, `w` stands for `v`, in two's complement. -/
structure Wraps (k : IntKind) (v w : Int) : Prop where
  holds : k.holds w = true
  agrees : (pow2 k.bits : Int) ∣ v - w

variable (k : IntKind)

theorem wraps_wrap (v : Int) : k.Wraps v (k.wrap v) := by
  refine ⟨k.holds_wrap v, ?_⟩
  unfold wrap
  split
  · exact (Int.dvd_neg.mpr Int.dvd_bmod_sub_self).trans (dvd_of_eq (Int.neg_sub _ _))
  · exact Int.dvd_self_sub_emod

/-- The values that a kind has: those between the powers of two, with or without a sign. -/
def Contains (k : IntKind) (v : Int) : Prop :=
  if k.signed then -2 ^ (k.bits - 1) ≤ v ∧ v < 2 ^ (k.bits - 1) else 0 ≤ v ∧ v < 2 ^ k.bits

instance (k : IntKind) (v : Int) : Decidable (k.Contains v) :=
  inferInstanceAs (Decidable (if k.signed then _ else _))

theorem cast_pow2 (n : Nat) : (pow2 n : Int) = 2 ^ n := by
  rw [pow2]
  exact Int.natCast_pow 2 n

theorem contains_iff_holds (v : Int) : k.Contains v ↔ k.holds v = true := by
  unfold Contains holds lowest limit
  simp only [cast_pow2, Bool.and_eq_true, decide_eq_true_eq]
  split <;> exact Iff.rfl

theorem bits_mem : k.bits ∈ [8, 16, 32, 64] := by
  cases k <;> decide

theorem wrap_modEq (v : Int) : k.wrap v ≡ v [ZMOD 2 ^ k.bits] := by
  rw [← cast_pow2]
  exact Int.modEq_iff_dvd.mpr (k.wraps_wrap v).agrees

/-- No two values of a kind are congruent. -/
theorem eq_of_modEq {k : IntKind} {u v : Int} (hu : k.Contains u) (hv : k.Contains v)
    (h : u ≡ v [ZMOD 2 ^ k.bits]) : u = v := by
  obtain ⟨q, hq⟩ := Int.modEq_iff_dvd.mp h
  cases k <;> simp only [Contains, signed, bits, bytes, if_true, Bool.false_eq_true, if_false] at hu hv hq <;> omega

theorem contains_modEq_iff (v u : Int) : k.Contains u ∧ u ≡ v [ZMOD 2 ^ k.bits] ↔ u = k.wrap v := by
  have hwrap : k.Contains (k.wrap v) := (k.contains_iff_holds _).mpr (k.holds_wrap v)
  constructor
  · rintro ⟨hu, hmod⟩
    exact eq_of_modEq hu hwrap (hmod.trans (k.wrap_modEq v).symm)
  · rintro rfl
    exact ⟨hwrap, k.wrap_modEq v⟩

theorem wrap_wrap {j k : IntKind} (h : k.bits ≤ j.bits) (v : Int) : k.wrap (j.wrap v) = k.wrap v := by
  refine (k.contains_modEq_iff v _).mp ⟨(k.contains_iff_holds _).mpr (k.holds_wrap _), ?_⟩
  exact (k.wrap_modEq _).trans ((j.wrap_modEq v).of_dvd (pow_dvd_pow 2 h))

end IntKind

/-- The number that bytes, lowest first, stand for; the highest bit may be a sign. -/
def Blob.toInt (signed : Bool) (bytes : Blob) : Int :=
  if signed ∧ 2 ^ (8 * bytes.length - 1) ≤ bytes.toNat then bytes.toNat - 2 ^ (8 * bytes.length) else bytes.toNat

namespace Constant

theorem convert_int (j k : IntKind) (v : Int) : (int j v).convert (.int k) = .int k (k.wrap v) := rfl

/-- Kinds on the way make no difference if none of them is narrower than the last. -/
theorem getLast?_conversions (j k : IntKind) (v : Int) {ks : List IntKind} (h : ∀ i ∈ ks, k.bits ≤ i.bits) :
    ((int j v).conversions (ks.map .int ++ [.int k])).getLast? = some ((int j v).convert (.int k)) := by
  induction ks generalizing j v with
  | nil => rfl
  | cons i ks ih =>
    obtain ⟨hi, hks⟩ := List.forall_mem_cons.mp h
    have hrest := ih i (i.wrap v) hks
    rw [convert_int, IntKind.wrap_wrap hi] at hrest
    rw [List.map_cons, List.cons_append, conversions, convert_int, convert_int, List.getLast?_cons, hrest]
    rfl

theorem toInt_payload {k : IntKind} {v : Int} (h : k.Contains v) :
    (payload (.int k v)).length = k.bytes ∧ Blob.toInt k.signed (payload (.int k v)) = v := by
  have hlength : (payload (.int k v)).length = k.bytes := Blob.length_ofNat _ _
  refine ⟨hlength, ?_⟩
  rw [Blob.toInt, hlength, payload, Blob.ofInt, Blob.toNat_ofNat]
  cases k <;>
    simp only [IntKind.Contains, IntKind.signed, IntKind.bits, IntKind.bytes, pow2, if_true, Bool.false_eq_true,
      if_false, true_and, false_and, Nat.pow_eq] at h ⊢ <;>
    omega

/-- An integer is one that its kind has. -/
def Fits : Constant → Prop
  | .int k v => k.Contains v
  | _ => True

instance : (x : Constant) → Decidable x.Fits
  | .int k v => inferInstanceAs (Decidable (k.Contains v))
  | .float32 _ | .float64 _ | .string _ | .char _ | .bool _ | .null => isTrue trivial

theorem fits_int_wrap (k : IntKind) (v : Int) : (int k (k.wrap v)).Fits :=
  (k.contains_iff_holds _).mpr (k.holds_wrap v)

@[grind ←] theorem fits_ofInt (v : Int) (type : Option Primitive) : (ofInt v type).Fits :=
  fits_int_wrap _ v

@[grind ←] theorem fits_ofLiteral (l : Literal) : (ofLiteral l).Fits := by
  cases l with
  | int i => exact (i.kind.contains_iff_holds i.value).mpr i.inRange
  | _ => trivial

@[grind ←] theorem fits_convert {x : Constant} (h : x.Fits) (p : Primitive) : (x.convert p).Fits := by
  unfold convert
  split
  · cases p with
    | int k => exact fits_int_wrap k _
    | char =>
      dsimp only
      unfold ofCode
      split <;> trivial
    | void | bool | string | object => exact h
    | f16 | f32 | f64 => trivial
  · exact h

end Constant

end TreeCompiler
