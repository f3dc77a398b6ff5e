import Mathlib
import Reckon.Proofs.Binary64.Sign

/-!
Bit patterns and what arithmetic takes them for: an infinity, a zero, a significand with an
exponent, or no number. A pattern that is a number is packed again from what it is unpacked
to, so sums and products of numbers are those of the unpacked operands, packed. How a
significand is rounded on the way is not described here.
-/

namespace Reckon.Binary64

open Float.Model (Format UnpackedFloat)
open Float.Model.UnpackedFloat (Sign unpackSign unpackExponent unpackMantissa)

section Patterns

variable (b : BitVec Format.binary64.numBits)

theorem toNat_unpackMantissa : (unpackMantissa b).toNat = b.toNat % 2 ^ 52 := by
  simp [unpackMantissa]

theorem toNat_unpackExponent : (unpackExponent b).toNat = b.toNat / 2 ^ 52 % 2 ^ 11 := by
  simp [unpackExponent, Nat.shiftRight_eq_div_pow]

/-- What a pattern is unpacked to, by its stored exponent and significand. -/
theorem unpack_cases :
    let s := Sign.ofBitVec (unpackSign b)
    let e := (unpackExponent b).toNat
    let m := (unpackMantissa b).toNat
    e = 2047 ∧ m ≠ 0 ∧ UnpackedFloat.unpack .binary64 b = .notANumber ∨
      e = 2047 ∧ m = 0 ∧ UnpackedFloat.unpack .binary64 b = .infinity s ∨
      e = 0 ∧ m = 0 ∧ UnpackedFloat.unpack .binary64 b = .zero s ∨
      (e = 0 ∧ ∃ hm, UnpackedFloat.unpack .binary64 b = .finite s m (-1074) hm) ∨
      0 < e ∧ e < 2047 ∧
        ∃ hm, UnpackedFloat.unpack .binary64 b = .finite s (2 ^ 52 + m) (e - 1075) hm := by
  intro s e m
  have he : e < 2 ^ 11 := (unpackExponent b).isLt
  have htop : unpackExponent b = -1#11 ↔ e = 2047 := BitVec.toNat_inj.symm
  have hzero : unpackExponent b = 0#11 ↔ e = 0 := BitVec.toNat_inj.symm
  have hmant : unpackMantissa b = 0#52 ↔ m = 0 := BitVec.toNat_inj.symm
  have hbias : (Format.binary64.exponentBias : Int) + (52 : Nat) = 1075 := by decide
  unfold UnpackedFloat.unpack
  dsimp only
  by_cases h1 : e = 2047
  · rw [if_pos (htop.2 h1)]
    by_cases h2 : m = 0
    · exact .inr (.inl ⟨h1, h2, if_pos (hmant.2 h2)⟩)
    · exact .inl ⟨h1, h2, if_neg (mt hmant.1 h2)⟩
  · rw [if_neg (mt htop.1 h1)]
    by_cases h0 : e = 0
    · rw [if_pos (hzero.2 h0)]
      by_cases h2 : m = 0
      · exact .inr (.inr (.inl ⟨h0, h2, dif_pos (hmant.2 h2)⟩))
      · refine .inr (.inr (.inr (.inl ⟨h0, Nat.pos_of_ne_zero h2, ?_⟩)))
        have hexp : (e : Int) - (Format.binary64.exponentBias + (52 : Nat)) + 1 = -1074 := by omega
        rw [dif_neg (mt hmant.1 h2)]
        exact UnpackedFloat.finite.injEq .. ▸ ⟨rfl, rfl, hexp⟩
    · rw [if_neg (mt hzero.1 h0)]
      have hexp : (e : Int) - (Format.binary64.exponentBias + (52 : Nat)) = e - 1075 := by omega
      have happ : (1#1 ++ unpackMantissa b).toNat = 2 ^ 52 + m := by
        rw [BitVec.toNat_append, ← Nat.shiftLeft_add_eq_or_of_lt (unpackMantissa b).isLt]
        rfl
      refine .inr (.inr (.inr (.inr ⟨by omega, by omega, by omega, ?_⟩)))
      exact UnpackedFloat.finite.injEq .. ▸ ⟨rfl, happ, hexp⟩

end Patterns

/-- What arithmetic takes a pattern for. -/
def unpacked (x : Binary64) : UnpackedFloat := UnpackedFloat.unpack .binary64 x.bits.toBitVec

/-- A finite number other than zero that is no finer than the format: its significand has at
most 53 bits, and none of them lies below the least number. -/
def InRange : UnpackedFloat → Prop
  | .finite _ m e _ => m < 2 ^ 53 ∧ -1074 ≤ e
  | _ => False

/-- The pattern of a result. -/
def ofUnpacked : UnpackedFloat → Binary64
  | .notANumber => invalid
  | u => ⟨.ofBitVec (UnpackedFloat.pack .binary64 u)⟩

variable {x y : Binary64}

theorem magnitude_eq (x : Binary64) :
    x.magnitude =
      (@unpackExponent .binary64 x.bits.toBitVec).toNat * 2 ^ 52 +
        (@unpackMantissa .binary64 x.bits.toBitVec).toNat := by
  rw [toNat_unpackExponent, toNat_unpackMantissa, magnitude, signBit, UInt64.toNat]
  omega

/-- The kinds of patterns: no number, an infinity, a zero, and the finite numbers besides. -/
theorem unpacked_cases (x : Binary64) :
    infinity < x.magnitude ∧ x.unpacked = .notANumber ∨
      x.magnitude = infinity ∧ (∃ s, x.unpacked = .infinity s) ∨
      x.magnitude = 0 ∧ (∃ s, x.unpacked = .zero s) ∨
      0 < x.magnitude ∧ x.magnitude < infinity ∧ InRange x.unpacked := by
  have hm : (@unpackMantissa .binary64 x.bits.toBitVec).toNat < 2 ^ 52 := BitVec.isLt _
  rw [magnitude_eq, infinity, unpacked]
  obtain ⟨he, hm0, hu⟩ | ⟨he, hm0, hu⟩ | ⟨he, hm0, hu⟩ | ⟨he, hpos, hu⟩ | ⟨he, he', hpos, hu⟩ :=
    unpack_cases x.bits.toBitVec
  · exact .inl ⟨by omega, hu⟩
  · exact .inr (.inl ⟨by omega, _, hu⟩)
  · exact .inr (.inr (.inl ⟨by omega, _, hu⟩))
  · refine .inr (.inr (.inr ⟨by omega, by omega, ?_⟩))
    rw [hu]
    exact ⟨by omega, Int.le_refl _⟩
  · refine .inr (.inr (.inr ⟨by omega, by omega, ?_⟩))
    rw [hu]
    exact ⟨by omega, by omega⟩

theorem unpacked_eq_notANumber : x.unpacked = .notANumber ↔ x.isNaN := by
  rw [isNaN, decide_eq_true_iff]
  obtain ⟨h, hu⟩ | ⟨h, s, hu⟩ | ⟨h, s, hu⟩ | ⟨-, h, hu⟩ := x.unpacked_cases
  · simp [h, hu]
  · simp [h, hu]
  · simp [h, hu]
  · exact iff_of_false (fun h' => by rwa [h'] at hu) (Nat.lt_asymm h)

/-- A pattern that is a number is what its unpacked form is packed to. -/
theorem pack_unpacked (h : ¬x.isNaN) :
    UnpackedFloat.pack .binary64 x.unpacked = x.bits.toBitVec := by
  have hbits : ¬@UnpackedFloat.isNaNBits .binary64 x.bits.toBitVec := by
    intro hnan
    refine h (unpacked_eq_notANumber.1 ?_)
    obtain ⟨hexp, hmant⟩ := of_decide_eq_true hnan
    rw [unpacked, UnpackedFloat.unpack, if_pos hexp, if_neg hmant]
  rw [unpacked, UnpackedFloat.pack_unpack, if_neg hbits]

theorem ofUnpacked_unpacked (h : ¬x.isNaN) : ofUnpacked x.unpacked = x := by
  unfold ofUnpacked
  split
  next hu => exact absurd (unpacked_eq_notANumber.1 hu) h
  next => rw [pack_unpacked h]

theorem unpack_toFloat (h : ¬x.isNaN) : x.toFloat.toModel.unpack = x.unpacked :=
  congrArg (UnpackedFloat.unpack .binary64) (pack_unpacked h)

theorem isNaN_unpack_of_exponent {b : BitVec Format.binary64.numBits}
    (h : (unpackExponent b).toNat ≠ 2047) :
    (UnpackedFloat.unpack .binary64 b).isNaN = false := by
  obtain ⟨he, -, -⟩ | ⟨he, -, -⟩ | ⟨-, -, hu⟩ | ⟨-, hm, hu⟩ | ⟨-, -, hm, hu⟩ := unpack_cases b
  · exact absurd he h
  · exact absurd he h
  all_goals rw [hu]; rfl

theorem isNaN_unpack_pack (u : UnpackedFloat) :
    (UnpackedFloat.unpack .binary64 (UnpackedFloat.pack .binary64 u)).isNaN = u.isNaN := by
  have hinf (s : Sign) :
      (UnpackedFloat.unpack .binary64 (UnpackedFloat.packedInfinity .binary64 s)).isNaN =
        false := by
    cases s <;> decide
  cases u with
  | notANumber => decide
  | infinity s => exact hinf s
  | zero s => cases s <;> decide
  | finite s m e hm =>
      rw [UnpackedFloat.pack]
      split
      · exact hinf s
      next hexp =>
        have hlt := Nat.lt_of_succ_lt_succ (Nat.lt_of_not_le hexp)
        split
        all_goals refine isNaN_unpack_of_exponent ?_
        · rw [UnpackedFloat.unpackExponent_packComponents, BitVec.toNat_ofNat]
          exact Nat.ne_of_lt (Nat.lt_of_le_of_lt (Nat.mod_le _ _) hlt)
        · rw [UnpackedFloat.unpackExponent_packComponents]
          decide

theorem ofResult_pack (u : UnpackedFloat) : ofResult (.ofModel (.pack u)) = ofUnpacked u := by
  have hnan : (Float.ofModel (.pack u)).isNaN = u.isNaN := isNaN_unpack_pack u
  rw [ofResult, hnan]
  cases u <;> rfl

theorem combine_eq (f : Float → Float → Float) (hx : ¬x.isNaN) (hy : ¬y.isNaN) :
    combine f x y = ofResult (f x.toFloat y.toFloat) := by
  rw [combine, if_neg hx, if_neg hy]

theorem add_eq (hx : ¬x.isNaN) (hy : ¬y.isNaN) :
    x + y = ofUnpacked (.add .binary64 x.unpacked y.unpacked) := by
  rw [← unpack_toFloat hx, ← unpack_toFloat hy]
  exact (combine_eq _ hx hy).trans (ofResult_pack _)

theorem mul_eq (hx : ¬x.isNaN) (hy : ¬y.isNaN) :
    x * y = ofUnpacked (.mul .binary64 x.unpacked y.unpacked) := by
  rw [← unpack_toFloat hx, ← unpack_toFloat hy]
  exact (combine_eq _ hx hy).trans (ofResult_pack _)

end Reckon.Binary64
