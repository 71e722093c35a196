import TreeCompiler.Proofs.Image.UniqueReading
import TreeCompiler.Proofs.Number.Wrapping

/-!
# Blobs of constants

A constant is written as the code of its type and its value. The code tells the form of the constant, and in each form
the bytes tell the value, except that of a character only the low 16 bits are written.

* `Constant.alike_of_element` : constants with one code have one form;
* `Constant.Obtained` : the constants that literals and conversions give.
-/

namespace TreeCompiler

open List Blob

/-- A kind is found by its code. -/
theorem Element.find?_int (k : IntKind) : IntKind.all.find? (int · == int k) = some k := by
  cases k <;> rfl

theorem Element.int_injective : Function.Injective int := by
  intro j k h
  have hfound := find?_int j
  rw [h, find?_int k] at hfound
  exact (Option.some.inj hfound).symm

/-- The low bytes of a number are those of its remainder. -/
theorem Blob.ofNat_congr (width : Nat) {m n : Nat} (h : m % Nat.pow 256 width = n % Nat.pow 256 width) :
    ofNat width m = ofNat width n := by
  induction width generalizing m n with
  | zero => rfl
  | succ width ih =>
    rw [show Nat.pow 256 (width + 1) = 256 * Nat.pow 256 width from Nat.mul_comm .., Nat.mod_mul, Nat.mod_mul] at h
    have hlow : UInt8.ofNat m = UInt8.ofNat n := by
      apply UInt8.toNat_inj.mp
      rw [UInt8.toNat_ofNat', UInt8.toNat_ofNat']
      omega
    have hhigh : m / 256 % Nat.pow 256 width = n / 256 % Nat.pow 256 width := by omega
    rw [ofNat, ofNat, hlow, ih hhigh]

theorem Blob.text_injective : Function.Injective text := by
  intro s t h
  have hsizes : (size (Text.utf8 s).length).length = (size (Text.utf8 t).length).length := by
    rw [size, size, length_ofNat, length_ofNat]
  exact utf8_injective (append_inj h hsizes).2

namespace Constant
variable {c d : Constant}

/-- Constants of one form, and integers of one kind. -/
inductive Alike : Constant → Constant → Prop
  | int (k : IntKind) (v w : Int) : Alike (.int k v) (.int k w)
  | float32 (x y : Number.Single) : Alike (.float32 x) (.float32 y)
  | float64 (x y : Number.Double) : Alike (.float64 x) (.float64 y)
  | string (s t : String) : Alike (.string s) (.string t)
  | char (x y : Char) : Alike (.char x) (.char y)
  | bool (a b : Bool) : Alike (.bool a) (.bool b)
  | null : Alike .null .null

/-- The code of a constant tells its form. -/
theorem alike_of_element (h : c.element = d.element) : Alike c d := by
  cases c with
  | int j v =>
    cases d with
    | int k w =>
      obtain rfl := Element.int_injective h
      exact .int j v w
    | _ => cases j <;> cases h
  | float32 x =>
    cases d with
    | int k w => cases k <;> cases h
    | float32 y => exact .float32 x y
    | _ => cases h
  | float64 x =>
    cases d with
    | int k w => cases k <;> cases h
    | float64 y => exact .float64 x y
    | _ => cases h
  | string s =>
    cases d with
    | int k w => cases k <;> cases h
    | string t => exact .string s t
    | _ => cases h
  | char x =>
    cases d with
    | int k w => cases k <;> cases h
    | char y => exact .char x y
    | _ => cases h
  | bool a =>
    cases d with
    | int k w => cases k <;> cases h
    | bool b => exact .bool a b
    | _ => cases h
  | null =>
    cases d with
    | int k w => cases k <;> cases h
    | null => exact .null
    | _ => cases h

theorem eq_of_payload (halike : Alike c d) (hc : c.Fits) (hd : d.Fits) (h : c.payload = d.payload) :
    c = d ∨ ∃ x y, c = .char x ∧ d = .char y ∧ x.toNat % 65536 = y.toNat % 65536 := by
  cases halike with
  | int k v w =>
    have hread := (toInt_payload hc).2
    rw [h, (toInt_payload hd).2] at hread
    exact Or.inl (congrArg _ hread.symm)
  | float32 x y => exact Or.inl (congrArg (float32 ⟨·⟩) (u32_injective h))
  | float64 x y =>
    have hbits := UInt64.toNat_inj.mp (ofNat_inj 8 x.bits.toNat_lt y.bits.toNat_lt h)
    exact Or.inl (congrArg (float64 ⟨·⟩) hbits)
  | string s t => exact Or.inl (congrArg _ (text_injective h))
  | char x y =>
    have hread := congrArg toNat h
    rw [payload, payload, toNat_ofNat, toNat_ofNat] at hread
    exact Or.inr ⟨x, y, rfl, rfl, hread⟩
  | bool a b =>
    cases a <;> cases b
    · exact Or.inl rfl
    · cases h
    · cases h
    · exact Or.inl rfl
  | null => exact Or.inl rfl

/-- The constants that there are: those of literals, integers that are wrapped to a type, and what these are converted
to. -/
inductive Obtained : Constant → Prop
  | ofLiteral (l : Literal) : Obtained (.ofLiteral l)
  | ofInt (value : Int) (type : Option Primitive) : Obtained (.ofInt value type)
  | convert {c : Constant} (h : Obtained c) (target : Primitive) : Obtained (c.convert target)

theorem Obtained.fits (h : Obtained c) : c.Fits := by
  induction h with
  | ofLiteral l => exact fits_ofLiteral l
  | ofInt value type => exact fits_ofInt value type
  | convert _ target ih => exact fits_convert ih target

/-- Two constants have the same blob just if they are equal, or are characters that agree in their low 16 bits. -/
theorem blob_eq_iff (hc : Obtained c) (hd : Obtained d) :
    c.blob = d.blob ↔ c = d ∨ ∃ x y, c = .char x ∧ d = .char y ∧ x.toNat % 65536 = y.toNat % 65536 := by
  constructor
  · intro h
    obtain ⟨helement, hpayload⟩ := cons.inj h
    exact eq_of_payload (alike_of_element helement) hc.fits hd.fits hpayload
  · rintro (rfl | ⟨x, y, rfl, rfl, hmod⟩)
    · rfl
    · exact congrArg (_ :: ·) (ofNat_congr 2 hmod)

/-- A character beyond the first 65536, what it becomes as a character of 16 bits, and numbers with one byte. -/
theorem blob_eq_iff_astral :
    let astral := ofLiteral (.char (Char.ofNat 0x10041))
    astral.blob = (astral.convert .char).blob ∧
      (ofInt (-1) (some (.int .i8))).blob ≠ (ofInt 255 (some (.int .u8))).blob := by
  have hastral := Obtained.ofLiteral (.char (Char.ofNat 0x10041))
  refine ⟨(blob_eq_iff hastral (hastral.convert .char)).mpr (Or.inr ⟨_, 'A', rfl, by decide, by decide⟩), fun h => ?_⟩
  rcases (blob_eq_iff (.ofInt _ _) (.ofInt _ _)).mp h with h | ⟨x, y, h, -⟩ <;> cases h

/-- Two characters with one blob. -/
theorem blob_not_injective :
    Obtained (.char (Char.ofNat 0x10041)) ∧ Obtained (.char 'A') ∧
      blob (.char (Char.ofNat 0x10041)) = blob (.char 'A') ∧ Constant.char (Char.ofNat 0x10041) ≠ .char 'A' :=
  ⟨.ofLiteral (.char _), .ofLiteral (.char _), by decide, by decide⟩

end Constant

end TreeCompiler
