import Reckon.Decimal.Shortest
import Reckon.Proofs.Binary64.Nearest

/-!
The plain text of a finite magnitude reads back as that magnitude. The candidates
for its digits are read back before one is taken, so what is to be shown is that
the exact expansion behind them reads back as well, and that writing a decimal out
keeps its value.
-/

namespace Reckon.Decimal

variable {m : Nat}

theorem bits_le (d : Decimal) : d.bits ≤ Binary64.infinity := by
  unfold bits
  split
  · exact Nat.zero_le _
  · split
    · exact Nat.le_refl _
    · split
      · exact Nat.zero_le _
      · split <;> exact Binary64.nearest_le _ _

theorem bits_lt_signBit (d : Decimal) : d.bits < Binary64.signBit :=
  Nat.lt_of_le_of_lt d.bits_le (by decide)

theorem isFinite_toBinary64 (d : Decimal) : d.toBinary64.isFinite ↔ d.bits ≠ Binary64.infinity := by
  rw [toBinary64, Binary64.isFinite, Binary64.magnitude_ofMagnitude _ d.bits_lt_signBit,
    decide_eq_true_iff]
  exact ⟨Nat.ne_of_lt, Nat.lt_of_le_of_ne d.bits_le⟩

theorem isNegative_toBinary64 (d : Decimal) : d.toBinary64.isNegative = false :=
  Binary64.isNegative_ofMagnitude _ d.bits_lt_signBit

theorem onGrid_bits {exponent : Int} {d : Decimal} (h : onGrid m exponent = some d) :
    d.bits = m := by
  obtain ⟨coefficient, -, hc⟩ := List.exists_of_findSome?_eq_some h
  dsimp only at hc
  split at hc
  · rename_i hb
    cases hc
    exact hb
  · cases hc

theorem coefficient_exact (m : Nat) :
    (exact m).coefficient = Binary64.units m * 5 ^ Binary64.unitPlaces := by
  simp only [exact, Nat.pow_eq]

theorem coefficient_exact_lt (h : m < Binary64.infinity) :
    (exact m).coefficient < 10 ^ (310 + Binary64.unitPlaces) := by
  have hu := Binary64.units_lt h
  have h5 : 0 < 5 ^ Binary64.unitPlaces := Nat.pow_pos (by decide)
  rw [coefficient_exact]
  calc Binary64.units m * 5 ^ Binary64.unitPlaces
      < 2 ^ (1024 + Binary64.unitPlaces) * 5 ^ Binary64.unitPlaces :=
        Nat.mul_lt_mul_of_pos_right hu h5
    _ ≤ 10 ^ (310 + Binary64.unitPlaces) := by decide +kernel

theorem le_coefficient_exact (h : 0 < m) :
    10 ^ (Binary64.unitPlaces - 330) ≤ (exact m).coefficient := by
  have hu : 1 ≤ Binary64.units m := Binary64.units_pos h
  rw [coefficient_exact]
  calc 10 ^ (Binary64.unitPlaces - 330)
      ≤ 1 * 5 ^ Binary64.unitPlaces := by decide +kernel
    _ ≤ Binary64.units m * 5 ^ Binary64.unitPlaces := Nat.mul_le_mul_right _ hu

/-- The exact expansion reads back. -/
theorem exact_bits (hm : 0 < m) (h : m < Binary64.infinity) : (exact m).bits = m := by
  have hne : (exact m).coefficient ≠ 0 := by
    have hpos : 0 < 10 ^ (Binary64.unitPlaces - 330) := Nat.pow_pos (by decide)
    have hle := le_coefficient_exact hm
    omega
  have hle : (Nat.toDigits 10 (exact m).coefficient).length ≤ 310 + Binary64.unitPlaces :=
    (Nat.length_toDigits_le_iff (by decide) (by decide)).2 (coefficient_exact_lt h)
  have hgt : Binary64.unitPlaces - 330 < (Nat.toDigits 10 (exact m).coefficient).length := by
    rw [← Nat.not_le, Nat.length_toDigits_le_iff (by decide) (by decide), Nat.not_lt]
    exact le_coefficient_exact hm
  have hexp : (exact m).exponent = -(Binary64.unitPlaces : Int) := rfl
  have hlead : ¬ 310 < (exact m).lead ∧ ¬ (exact m).lead < -330 := by
    simp only [lead, hexp, Binary64.unitPlaces] at hle hgt ⊢
    omega
  obtain ⟨k, hk⟩ : ∃ k, Binary64.unitPlaces = k + 1 := ⟨1073, rfl⟩
  have hneg : (exact m).exponent = .negSucc k := by rw [hexp, hk]; rfl
  simp only [bits, if_neg hne, if_neg hlead.1, if_neg hlead.2, hneg]
  refine Binary64.nearest_of_exact h (Nat.pow_pos (by decide)) ?_
  rw [coefficient_exact, Nat.mul_assoc, ← Nat.mul_pow, hk]
  rfl

theorem shortest_bits (h : m < Binary64.infinity) : (shortest m).bits = m := by
  unfold shortest
  split
  · rename_i h0
    rw [h0]
    rfl
  · rename_i h0
    dsimp only
    cases hd : (List.range 18).findSome? fun (n : Nat) => onGrid m (decade m + 1 - n) with
    | none => exact exact_bits (Nat.pos_of_ne_zero h0) h
    | some d =>
        obtain ⟨n, -, hn⟩ := List.exists_of_findSome?_eq_some hd
        exact onGrid_bits hn

end Reckon.Decimal
