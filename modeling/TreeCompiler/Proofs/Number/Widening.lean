import Mathlib.Algebra.Order.Field.Power
import Mathlib.Algebra.Order.Ring.Rat
import Mathlib.Tactic.FieldSimp
import Mathlib.Tactic.Linarith
import Mathlib.Tactic.Positivity
import TreeCompiler.Number.Binary

/-!
# Widening and narrowing

A number of a format is the nearest one to itself, whatever the ratio it is given as. A single has a form as a
double, so that it is found again when the double is narrowed.

* `Format.read_pattern`, `Format.eq_pattern_of_read` : bit patterns of finite numbers.
-/

namespace TreeCompiler.Number
variable {n d s : Nat} {q : Int}

theorem pow2_eq (n : Nat) : pow2 n = 2 ^ n := rfl

theorem pow2_pos (n : Nat) : 0 < pow2 n := Nat.two_pow_pos n

theorem pow2_add (m n : Nat) : pow2 (m + n) = pow2 m * pow2 n := Nat.pow_add 2 m n

theorem pow2_div (k : Int) : (pow2 k.toNat : ℚ) / pow2 (-k).toNat = 2 ^ k := by
  rcases Int.eq_nat_or_neg k with ⟨n, rfl | rfl⟩
  · simp [pow2_eq]
  · simp [pow2_eq]

/-! ## The power of two below a ratio -/

theorem le_ratio_iff (hd : 0 < d) (k : Int) : d * pow2 k.toNat ≤ n * pow2 (-k).toNat ↔ (2 : ℚ) ^ k ≤ n / d := by
  have hdq : (0 : ℚ) < d := by exact_mod_cast hd
  have hp : (0 : ℚ) < pow2 (-k).toNat := by exact_mod_cast pow2_pos _
  rw [← pow2_div, div_le_div_iff₀ hp hdq, mul_comm (pow2 k.toNat : ℚ)]
  exact_mod_cast Iff.rfl

theorem lt_of_zpow_lt {x : ℚ} {j k : Int} (hj : (2 : ℚ) ^ j ≤ x) (hk : x < 2 ^ k) : j < k :=
  (zpow_lt_zpow_iff_right₀ one_lt_two).mp (lt_of_le_of_lt hj hk)

theorem ratio_bounds (hn : 0 < n) (hd : 0 < d) :
    (2 : ℚ) ^ ((n.log2 : Int) - d.log2 - 1) ≤ n / d ∧ (n / d : ℚ) < 2 ^ ((n.log2 : Int) - d.log2 + 1) := by
  have hn1 : ((2 ^ n.log2 : Nat) : ℚ) ≤ n := by exact_mod_cast Nat.log2_self_le hn.ne'
  have hn2 : (n : ℚ) < (2 ^ (n.log2 + 1) : Nat) := by exact_mod_cast Nat.lt_log2_self
  have hd1 : ((2 ^ d.log2 : Nat) : ℚ) ≤ d := by exact_mod_cast Nat.log2_self_le hd.ne'
  have hd2 : (d : ℚ) < (2 ^ (d.log2 + 1) : Nat) := by exact_mod_cast Nat.lt_log2_self
  push_cast at hn1 hn2 hd1 hd2
  have hdq : (0 : ℚ) < d := by exact_mod_cast hd
  constructor
  · have heq : (2 : ℚ) ^ ((n.log2 : Int) - d.log2 - 1) = 2 ^ n.log2 / 2 ^ (d.log2 + 1) := by
      rw [show (n.log2 : Int) - d.log2 - 1 = (n.log2 : Int) - ((d.log2 + 1 : Nat) : Int) by omega,
        zpow_sub₀ two_ne_zero, zpow_natCast, zpow_natCast]
    rw [heq]
    exact div_le_div₀ (by positivity) hn1 hdq hd2.le
  · have heq : (2 : ℚ) ^ ((n.log2 : Int) - d.log2 + 1) = 2 ^ (n.log2 + 1) / 2 ^ d.log2 := by
      rw [show (n.log2 : Int) - d.log2 + 1 = ((n.log2 + 1 : Nat) : Int) - (d.log2 : Int) by omega,
        zpow_sub₀ two_ne_zero, zpow_natCast, zpow_natCast]
    rw [heq]
    exact div_lt_div₀ hn2 hd1 (by positivity) (by positivity)

/-- The power of two below a ratio is the only one. -/
theorem floorLog2_eq (hn : 0 < n) (hd : 0 < d) {k : Int} (hle : (2 : ℚ) ^ k ≤ n / d)
    (hlt : (n / d : ℚ) < 2 ^ (k + 1)) : floorLog2 n d = k := by
  obtain ⟨hlow, hhigh⟩ := ratio_bounds hn hd
  have hbelow := lt_of_zpow_lt hle hhigh
  have habove := lt_of_zpow_lt hlow hlt
  unfold floorLog2
  dsimp only
  split
  next hguess =>
    have hguess := lt_of_zpow_lt ((le_ratio_iff hd _).mp hguess) hlt
    omega
  next hguess =>
    have hguess := lt_of_zpow_lt hle (lt_of_not_ge fun h => hguess ((le_ratio_iff hd _).mpr h))
    omega

theorem floorLog2_of_value (hs : 0 < s) (hd : 0 < d) (hvalue : (n / d : ℚ) = s * 2 ^ q) :
    floorLog2 n d = s.log2 + q := by
  have hq : (0 : ℚ) < 2 ^ q := by positivity
  have hsq : (0 : ℚ) < s := by exact_mod_cast hs
  have hn : 0 < n := by
    rw [Nat.pos_iff_ne_zero]
    rintro rfl
    rw [Nat.cast_zero, zero_div] at hvalue
    exact absurd hvalue (mul_pos hsq hq).ne
  have hle : ((2 ^ s.log2 : Nat) : ℚ) ≤ s := by exact_mod_cast Nat.log2_self_le hs.ne'
  have hlt : (s : ℚ) < (2 ^ (s.log2 + 1) : Nat) := by exact_mod_cast Nat.lt_log2_self
  push_cast at hle hlt
  refine floorLog2_eq hn hd ?_ ?_
  · rw [hvalue, zpow_add₀ two_ne_zero, zpow_natCast]
    exact mul_le_mul_of_nonneg_right hle hq.le
  · rw [hvalue, show (s.log2 : Int) + q + 1 = ((s.log2 + 1 : Nat) : Int) + q by omega, zpow_add₀ two_ne_zero,
      zpow_natCast]
    exact mul_lt_mul_of_pos_right hlt hq

theorem roundDiv_mul (s d : Nat) (hd : 0 < d) : roundDiv (s * d) d = s := by
  unfold roundDiv
  simp [Nat.mul_div_cancel _ hd, hd]

namespace Format
variable {f : Format} {s bits : Nat} {q : Int}

/-- The format has the number `s * 2 ^ q`, in this form. -/
structure Canonical (f : Format) (s : Nat) (q : Int) : Prop where
  significand : s < pow2 f.precision
  lowest : f.lowestPower ≤ q
  normal : pow2 (f.precision - 1) ≤ s ∨ q = f.lowestPower
  highest : (q - f.lowestPower).toNat + 2 < pow2 f.exponentBits

def pattern (f : Format) (s : Nat) (q : Int) : Nat :=
  if s < pow2 (f.precision - 1) then s
  else ((q - f.lowestPower).toNat + 1) * pow2 (f.precision - 1) + (s - pow2 (f.precision - 1))

theorem Canonical.fraction_lt (h : f.Canonical s q) : s - pow2 (f.precision - 1) < pow2 (f.precision - 1) := by
  have hs := h.significand
  have hpos := pow2_pos (f.precision - 1)
  cases hp : f.precision with
  | zero =>
    rw [hp] at hs
    simp [pow2_eq] at hs ⊢
    omega
  | succ p =>
    rw [hp, pow2_add] at hs
    simp [pow2_eq] at hs ⊢
    omega

theorem Canonical.pattern_lt (h : f.Canonical s q) : f.pattern s q < f.infinityBits := by
  have hhigh := h.highest
  have hfraction := h.fraction_lt
  have hle : ((q - f.lowestPower).toNat + 2) * pow2 (f.precision - 1) ≤ f.infinityBits :=
    Nat.mul_le_mul_right _ (by omega)
  unfold pattern
  rw [Nat.add_mul] at hle
  split
  · omega
  · rw [Nat.add_mul]
    omega

theorem Canonical.power_eq (h : f.Canonical s q) (hs : 0 < s) :
    max ((s.log2 : Int) + q - (f.precision - 1 : Nat)) f.lowestPower = q := by
  have hlowest := h.lowest
  have hupper : s.log2 < f.precision := (Nat.log2_lt hs.ne').mpr h.significand
  rcases h.normal with hnormal | rfl
  · have hlower : f.precision - 1 ≤ s.log2 := (Nat.le_log2 hs.ne').mpr hnormal
    omega
  · omega

/-- A number that the format has is not rounded. -/
theorem ofRatio_eq_pattern (h : f.Canonical s q) (hd : 0 < d) (hvalue : (n / d : ℚ) = s * 2 ^ q) :
    f.ofRatio n d = f.pattern s q := by
  have hq : (0 : ℚ) < 2 ^ q := by positivity
  have hdq : (0 : ℚ) < d := by exact_mod_cast hd
  rcases Nat.eq_zero_or_pos s with rfl | hs
  · have hn : n = 0 := by
      rw [Nat.cast_zero, zero_mul, div_eq_zero_iff] at hvalue
      exact_mod_cast hvalue.resolve_right hdq.ne'
    unfold ofRatio pattern
    rw [if_pos hn, if_pos (pow2_pos _)]
  · have hn : n ≠ 0 := by
      rintro rfl
      have hsq : (0 : ℚ) < s := by exact_mod_cast hs
      rw [Nat.cast_zero, zero_div] at hvalue
      exact absurd hvalue (mul_pos hsq hq).ne
    have hexact : n * pow2 (-q).toNat = s * (d * pow2 q.toNat) := by
      have hp : (0 : ℚ) < pow2 (-q).toNat := by exact_mod_cast pow2_pos _
      rw [← pow2_div] at hvalue
      field_simp at hvalue
      rw [← Nat.mul_assoc, Nat.mul_comm s d]
      exact_mod_cast hvalue
    unfold ofRatio
    rw [if_neg hn]
    dsimp only
    rw [floorLog2_of_value hs hd hvalue, h.power_eq hs, hexact, roundDiv_mul _ _ (Nat.mul_pos hd (pow2_pos _))]
    exact Nat.min_eq_left h.pattern_lt.le

/-! ## Bit patterns -/

def signPart (f : Format) (negative : Bool) : Nat :=
  if negative then f.signBit else 0

theorem ofParts_eq (f : Format) (negative : Bool) (s : Nat) (q : Int) :
    f.ofParts negative s q = f.signPart negative + f.ofRatio (s * pow2 q.toNat) (pow2 (-q).toNat) := rfl

theorem ofParts_eq_pattern {s' : Nat} {q' : Int} (h : f.Canonical s' q')
    (hvalue : (s : ℚ) * 2 ^ q = s' * 2 ^ q') (negative : Bool) :
    f.ofParts negative s q = f.signPart negative + f.pattern s' q' := by
  have hratio : ((s * pow2 q.toNat : Nat) / (pow2 (-q).toNat : Nat) : ℚ) = s' * 2 ^ q' := by
    rw [← hvalue, ← pow2_div, Nat.cast_mul, mul_div_assoc]
  rw [ofParts_eq, ofRatio_eq_pattern h (pow2_pos _) hratio]

variable (hf : 0 < f.precision)
include hf

theorem signBit_eq : f.signBit = pow2 f.exponentBits * pow2 (f.precision - 1) := by
  rw [← pow2_add]
  unfold signBit
  congr 1
  omega

theorem infinityBits_lt : f.infinityBits < f.signBit := by
  rw [signBit_eq hf]
  have hpos := pow2_pos f.exponentBits
  exact Nat.mul_lt_mul_of_pos_right (by omega) (pow2_pos _)

theorem parts_signPart_add (hbits : bits < f.signBit) (negative : Bool) :
    decide (f.signBit ≤ f.signPart negative + bits) = negative ∧
      (f.signPart negative + bits) % pow2 (f.precision - 1) = bits % pow2 (f.precision - 1) ∧
      (f.signPart negative + bits) / pow2 (f.precision - 1) % pow2 f.exponentBits =
        bits / pow2 (f.precision - 1) := by
  have hquotient : bits / pow2 (f.precision - 1) < pow2 f.exponentBits := by
    rw [Nat.div_lt_iff_lt_mul (pow2_pos _), ← signBit_eq hf]
    exact hbits
  cases negative with
  | false => simp [signPart, Nat.not_le_of_lt hbits, Nat.mod_eq_of_lt hquotient]
  | true =>
    refine ⟨by simp [signPart], ?_, ?_⟩
    · simp [signPart, signBit_eq hf]
    · simp only [signPart, if_true, signBit_eq hf]
      rw [Nat.add_comm, Nat.add_mul_div_right _ _ (pow2_pos _), Nat.add_mod_right, Nat.mod_eq_of_lt hquotient]

theorem read_pattern (h : f.Canonical s q) (negative : Bool) :
    f.read (f.signPart negative + f.pattern s q) = .finite negative s q := by
  have hhigh := h.highest
  have hlow := h.lowest
  have hpos := pow2_pos (f.precision - 1)
  obtain ⟨hnegative, hfraction, hexponent⟩ :=
    parts_signPart_add hf (h.pattern_lt.trans (infinityBits_lt hf)) negative
  unfold read
  dsimp only
  rw [hnegative, hfraction, hexponent]
  by_cases hs : s < pow2 (f.precision - 1)
  · have hq : q = f.lowestPower := h.normal.resolve_left (Nat.not_le_of_lt hs)
    have hpattern : f.pattern s q = s := if_pos hs
    rw [hpattern, Nat.div_eq_of_lt hs, Nat.mod_eq_of_lt hs, if_neg (by omega), if_pos rfl, hq]
  · have hpattern : f.pattern s q =
        (s - pow2 (f.precision - 1)) + ((q - f.lowestPower).toNat + 1) * pow2 (f.precision - 1) :=
      (if_neg hs).trans (Nat.add_comm _ _)
    rw [hpattern, Nat.add_mul_div_right _ _ hpos, Nat.add_mul_mod_self_right, Nat.div_eq_of_lt h.fraction_lt,
      Nat.mod_eq_of_lt h.fraction_lt, if_neg (by omega), if_neg (by omega)]
    congr 1
    · omega
    · omega

omit hf in
theorem exists_eq_signPart_add (hbits : bits < 2 * f.signBit) :
    ∃ negative low, low < f.signBit ∧ bits = f.signPart negative + low := by
  by_cases h : bits < f.signBit
  · exact ⟨false, bits, h, (Nat.zero_add bits).symm⟩
  · refine ⟨true, bits - f.signBit, by omega, ?_⟩
    change bits = f.signBit + (bits - f.signBit)
    omega

/-- A bit pattern of a finite number is that of the number. -/
theorem eq_pattern_of_read (he : 1 < f.exponentBits) (hbits : bits < 2 * f.signBit)
    {negative : Bool} (h : f.read bits = .finite negative s q) :
    f.Canonical s q ∧ bits = f.signPart negative + f.pattern s q := by
  obtain ⟨negative', low, hlow, rfl⟩ := exists_eq_signPart_add hbits
  obtain ⟨hnegative, hfraction, hexponent⟩ := parts_signPart_add hf hlow negative'
  have hpos := pow2_pos (f.precision - 1)
  have hfraction_lt := Nat.mod_lt low hpos
  have hdouble : pow2 f.precision = 2 * pow2 (f.precision - 1) := by
    conv_lhs => rw [show f.precision = 1 + (f.precision - 1) by omega, pow2_add]
    rfl
  have hfour : 4 ≤ pow2 f.exponentBits := Nat.pow_le_pow_right (n := 2) (by decide) he
  have hlow_eq := Nat.div_add_mod' low (pow2 (f.precision - 1))
  have hexponent_lt : low / pow2 (f.precision - 1) < pow2 f.exponentBits := by
    rw [Nat.div_lt_iff_lt_mul hpos, ← signBit_eq hf]
    exact hlow
  unfold read at h
  dsimp only at h
  rw [hnegative, hfraction, hexponent] at h
  generalize low / pow2 (f.precision - 1) = exponent at *
  generalize low % pow2 (f.precision - 1) = fraction at *
  split at h
  · split at h <;> cases h
  next hfinite =>
    split at h
    next hzero =>
      cases h
      refine ⟨⟨by omega, Int.le_refl _, .inr rfl, by omega⟩, ?_⟩
      rw [hzero, Nat.zero_mul, Nat.zero_add] at hlow_eq
      rw [pattern, if_pos hfraction_lt, hlow_eq]
    next hnonzero =>
      cases h
      have hpower : (f.lowestPower + ((exponent : Int) - 1) - f.lowestPower).toNat = exponent - 1 := by omega
      refine ⟨⟨by omega, by omega, .inl (Nat.le_add_right _ _), by omega⟩, ?_⟩
      rw [pattern, if_neg (by omega), hpower, Nat.sub_add_cancel (by omega), Nat.add_sub_cancel_left, hlow_eq]

end Format

/-! ## Singles as doubles -/

theorem Format.signPart_add_lt {f : Format} (hf : 0 < f.precision) (h : f.Canonical s q) (negative : Bool) :
    f.signPart negative + f.pattern s q < 2 * f.signBit := by
  have hlt := h.pattern_lt.trans (infinityBits_lt hf)
  have hsign : f.signPart negative ≤ f.signBit := by
    cases negative
    · exact Nat.zero_le _
    · exact le_rfl
  omega

theorem exists_canonical_double (h : single.Canonical s q) :
    ∃ s' q', double.Canonical s' q' ∧ (s : ℚ) * 2 ^ q = s' * 2 ^ q' := by
  have hlowest : -149 ≤ q := h.lowest
  have hhighest : (q + 149).toNat + 2 < 256 := h.highest
  rcases Nat.eq_zero_or_pos s with rfl | hs
  · exact ⟨0, -1074, ⟨by decide, by decide, .inr (by decide), by decide⟩, by simp⟩
  · -- The significand is shifted until its leading bit is the first of 53.
    have hlog : s.log2 < 24 := (Nat.log2_lt hs.ne').mpr h.significand
    have hfirst : 2 ^ 52 ≤ s * 2 ^ (52 - s.log2) := by
      calc 2 ^ 52 = 2 ^ s.log2 * 2 ^ (52 - s.log2) := by rw [← Nat.pow_add, Nat.add_sub_cancel' (by omega)]
        _ ≤ s * 2 ^ (52 - s.log2) := Nat.mul_le_mul_right _ (Nat.log2_self_le hs.ne')
    have hlast : s * 2 ^ (52 - s.log2) < 2 ^ 53 := by
      calc s * 2 ^ (52 - s.log2) < 2 ^ (s.log2 + 1) * 2 ^ (52 - s.log2) :=
            Nat.mul_lt_mul_of_pos_right Nat.lt_log2_self (Nat.two_pow_pos _)
        _ = 2 ^ 53 := by rw [← Nat.pow_add]; congr 1; omega
    refine ⟨s * 2 ^ (52 - s.log2), q - (52 - s.log2 : Nat), ⟨hlast, ?_, .inl hfirst, ?_⟩, ?_⟩
    · change -1074 ≤ _
      omega
    · change (q - (52 - s.log2 : Nat) - -1074).toNat + 2 < 2048
      omega
    · rw [Nat.cast_mul, Nat.cast_pow, Nat.cast_ofNat, mul_assoc, ← zpow_natCast, ← zpow_add₀ two_ne_zero,
        add_sub_cancel]

namespace Single

def IsFinite (x : Single) : Prop :=
  ∃ negative s q, x.read = .finite negative s q

/-- A finite single is the single nearest to the double that it is widened to. -/
theorem narrow_widen {x : Single} (h : x.IsFinite) : x.widen.narrow = x := by
  obtain ⟨negative, s, q, hread⟩ := h
  obtain ⟨hcanonical, hbits⟩ := Format.eq_pattern_of_read (f := single) (by decide) (by decide) x.bits.toNat_lt hread
  obtain ⟨s', q', hcanonical', hvalue⟩ := exists_canonical_double hcanonical
  have hlt := Format.signPart_add_lt (by decide) hcanonical' negative
  have hwiden : x.widen.bits.toNat = double.signPart negative + double.pattern s' q' := by
    unfold widen
    rw [hread]
    change (UInt64.ofNat (double.ofParts negative s q)).toNat = _
    rw [Format.ofParts_eq_pattern hcanonical' hvalue]
    exact UInt64.toNat_ofNat_of_lt' hlt
  have hback : x.widen.read = .finite negative s' q' := by
    unfold Double.read
    rw [hwiden, Format.read_pattern (by decide) hcanonical']
  unfold Double.narrow
  rw [hback]
  change Single.mk (UInt32.ofNat (single.ofParts negative s' q')) = x
  rw [Format.ofParts_eq_pattern hcanonical hvalue.symm, ← hbits, UInt32.ofNat_toNat]

end Single

end TreeCompiler.Number
