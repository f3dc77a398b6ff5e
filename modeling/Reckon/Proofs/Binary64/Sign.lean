import Reckon.Binary64.Arithmetic

/-!
A number is its sign and its magnitude, so a sign that is taken off can be put back. This
holds of every pattern, also of those that are no number.
-/

namespace Reckon.Binary64

variable {m : Nat} {v : Binary64}

theorem lt_signBit (h : m < infinity) : m < signBit := Nat.lt_trans h (by decide)

theorem magnitude_lt (v : Binary64) : v.magnitude < signBit := Nat.mod_lt _ (by decide)

theorem toNat_ofMagnitude (negative : Bool) (h : m < signBit) :
    (ofMagnitude negative m).bits.toNat = if negative then signBit + m else m := by
  simp only [ofMagnitude, signBit, UInt64.toNat_ofNat'] at h ⊢
  split <;> omega

theorem magnitude_ofMagnitude (negative : Bool) (h : m < signBit) :
    (ofMagnitude negative m).magnitude = m := by
  rw [magnitude, toNat_ofMagnitude negative h]
  cases negative with
  | false => exact Nat.mod_eq_of_lt h
  | true => exact (Nat.add_mod_left signBit m).trans (Nat.mod_eq_of_lt h)

theorem isNegative_ofMagnitude (negative : Bool) (h : m < signBit) :
    (ofMagnitude negative m).isNegative = negative := by
  rw [isNegative, toNat_ofMagnitude negative h]
  cases negative with
  | false => exact decide_eq_false (Nat.not_le.2 h)
  | true => exact decide_eq_true (Nat.le_add_right signBit m)

theorem toNat_bits (v : Binary64) :
    v.bits.toNat = if v.isNegative then signBit + v.magnitude else v.magnitude := by
  cases hs : v.isNegative with
  | false =>
      have hlt : v.bits.toNat < signBit := by simpa [isNegative] using hs
      simp [magnitude, Nat.mod_eq_of_lt hlt]
  | true =>
      have hle : signBit ≤ v.bits.toNat := of_decide_eq_true hs
      have hlt := v.bits.toNat_lt
      simp only [if_true, magnitude, signBit] at hle ⊢
      omega

theorem ofMagnitude_magnitude (v : Binary64) : ofMagnitude v.isNegative v.magnitude = v := by
  rw [ofMagnitude, ← toNat_bits, UInt64.ofNat_toNat]

theorem abs_eq (h : v.isNegative = false) : v.abs = v := by
  rw [abs, ← h, ofMagnitude_magnitude]

theorem neg_abs (h : v.isNegative) : -v.abs = v := by
  have hm := v.magnitude_lt
  calc -v.abs = ofMagnitude (!v.abs.isNegative) v.abs.magnitude := rfl
    _ = ofMagnitude v.isNegative v.magnitude := by
      rw [abs, isNegative_ofMagnitude _ hm, magnitude_ofMagnitude _ hm, h]
      rfl
    _ = v := ofMagnitude_magnitude v

end Reckon.Binary64
