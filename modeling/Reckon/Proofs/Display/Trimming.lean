import Mathlib.Data.List.DropRight
import Reckon.Display
import Reckon.Proofs.Decimal.Values
import Reckon.Proofs.Token.Numerals

/-!
What is left of a written decimal when the zeros at the end of its fraction are taken away: one
numeral of the same value, whose fraction ends in another digit or is missing with its point.
-/

namespace Reckon.Numeral

/-- A numeral that is read to its end, and whose point, if it has one, has digits behind it and
no zero for the last of them. -/
structure Trimmed (n : Numeral) : Prop where
  starts : Numeral.starts n.text
  read : Numeral.read n.text = n
  fraction : ∀ digits ∈ n.fraction, digits ≠ [] ∧ digits.getLast? ≠ some '0'

/-- The numeral without the zeros at the end of a fraction. -/
def trimmed (whole fraction : List Char) (scale : Option Scale) : Numeral :=
  let kept := fraction.rdropWhile (· == '0')
  ⟨whole, if kept = [] then none else some kept, scale⟩

variable {whole fraction : List Char} {scale : Option Scale}

theorem eq_of_mem_fraction_trimmed {digits : List Char}
    (h : digits ∈ (trimmed whole fraction scale).fraction) :
    digits = fraction.rdropWhile (· == '0') ∧ digits ≠ [] := by
  simp only [trimmed] at h
  split at h
  · cases h
  · rename_i hne
    cases h
    exact ⟨rfl, hne⟩

theorem getLast?_fraction_trimmed {digits : List Char}
    (h : digits ∈ (trimmed whole fraction scale).fraction) :
    digits ≠ [] ∧ digits.getLast? ≠ some '0' := by
  obtain ⟨rfl, hne⟩ := eq_of_mem_fraction_trimmed h
  refine ⟨hne, fun hzero => ?_⟩
  rw [List.getLast?_eq_getLast_of_ne_nil hne, Option.some.injEq] at hzero
  apply List.rdropWhile_last_not _ _ hne
  rw [hzero]
  rfl

theorem length_fraction_trimmed {digits : List Char}
    (h : digits ∈ (trimmed whole fraction scale).fraction) : digits.length ≤ fraction.length := by
  obtain ⟨rfl, -⟩ := eq_of_mem_fraction_trimmed h
  exact (List.rdropWhile_prefix _ _).length_le

theorem getD_fraction_trimmed :
    (trimmed whole fraction scale).fraction.getD [] = fraction.rdropWhile (· == '0') := by
  simp only [trimmed]
  split
  · rename_i hnil
    rw [hnil]
    rfl
  · rfl

theorem wellFormed_trimmed (hw : ∀ c ∈ whole, c.isDigit) (hf : ∀ c ∈ fraction, c.isDigit)
    (hs : ∀ s ∈ scale, s.WellFormed) : (trimmed whole fraction scale).WellFormed where
  whole := hw
  fraction digits hd c hc := by
    obtain ⟨rfl, -⟩ := eq_of_mem_fraction_trimmed hd
    exact hf c ((List.rdropWhile_prefix _ _).subset hc)
  scale := hs

/-- A numeral in parts as reading leaves them is read to its end, if it begins with a digit. -/
theorem WellFormed.trimmed {n : Numeral} (h : n.WellFormed) (hne : n.whole ≠ [])
    (hf : ∀ digits ∈ n.fraction, digits ≠ [] ∧ digits.getLast? ≠ some '0') : n.Trimmed where
  starts := by
    obtain ⟨c, cs, hwhole⟩ := List.exists_cons_of_ne_nil hne
    have hdigit := h.whole c (hwhole ▸ List.mem_cons_self)
    have hpoint : c ≠ '.' := by
      rintro rfl
      exact absurd hdigit (by decide)
    rw [text, hwhole, List.cons_append, List.cons_append, Token.starts_cons hpoint]
    exact hdigit
  read := by
    have hread : Numeral.read (n.text ++ []) = n := read_text_append h (by rintro _ ⟨⟩)
    rwa [List.append_nil] at hread
  fraction := hf

/-- The value is the one with the zeros. -/
theorem toRat_value_trimmed :
    (trimmed whole fraction scale).value.toRat =
      (Decimal.ofDigits whole fraction (scale.elim 0 Scale.value)).toRat := by
  have hzeros : fraction.rtakeWhile (· == '0') =
      List.replicate (fraction.rtakeWhile (· == '0')).length '0' :=
    List.eq_replicate_of_mem fun c hc => by simpa using List.mem_rtakeWhile_imp hc
  rw [value, getD_fraction_trimmed]
  calc (Decimal.ofDigits whole (fraction.rdropWhile (· == '0')) (scale.elim 0 Scale.value)).toRat
      = (Decimal.ofDigits whole
          (fraction.rdropWhile (· == '0') ++ fraction.rtakeWhile (· == '0'))
          (scale.elim 0 Scale.value)).toRat := by
        rw [hzeros, Decimal.toRat_ofDigits_append_zeros]
    _ = (Decimal.ofDigits whole fraction (scale.elim 0 Scale.value)).toRat := by
        rw [List.rdropWhile_append_rtakeWhile]

theorem text_trimmed_some (whole fraction : List Char) (s : Scale) :
    (trimmed whole fraction (some s)).text = (trimmed whole fraction none).text ++ s.text := by
  simp [trimmed, text]

end Reckon.Numeral

namespace Reckon.Display

open Numeral (trimmed)

variable {whole fraction : List Char}

/-- Trimming a text with a point stops at the last digit to stay, or takes the point as well. -/
theorem trimFraction_eq_text (hf : ∀ c ∈ fraction, c.isDigit) :
    trimFraction (whole ++ '.' :: fraction) = (trimmed whole fraction none).text := by
  have hpoint : (whole ++ '.' :: fraction).contains '.' := by simp
  rw [trimFraction, if_pos hpoint, List.reverse_append, List.reverse_cons, List.append_assoc,
    List.singleton_append, List.dropWhile_append]
  cases hkept : fraction.reverse.dropWhile (· == '0') with
  | nil =>
      have hnone : fraction.rdropWhile (· == '0') = [] := by rw [List.rdropWhile, hkept]; rfl
      simp [trimmed, hnone, Numeral.text]
  | cons c cs =>
      have hsome : fraction.rdropWhile (· == '0') = cs.reverse ++ [c] := by
        rw [List.rdropWhile, hkept, List.reverse_cons]
      have hc : c ≠ '.' := by
        rintro rfl
        have hmem := (List.dropWhile_suffix (l := fraction.reverse) (· == '0')).subset
          (hkept ▸ List.mem_cons_self)
        exact absurd (hf '.' (List.mem_reverse.1 hmem)) (by decide)
      simp [trimmed, hsome, Numeral.text, hc]

/-- A coefficient with some of its digits behind the point, and the zeros at the end of them
taken away. -/
def shown (places coefficient : Nat) (scale : Option Numeral.Scale) : Numeral :=
  trimmed (Nat.toDigits 10 (coefficient / 10 ^ places))
    (Decimal.padded places (coefficient % 10 ^ places)) scale

section Shown

variable {places coefficient : Nat} {scale : Option Numeral.Scale}

theorem trimFraction_positional (k coefficient : Nat) :
    trimFraction (Decimal.positional ⟨coefficient, -(k + 1 : Nat)⟩) =
      (shown (k + 1) coefficient none).text :=
  trimFraction_eq_text fun _ hc => Decimal.isDigit_of_mem_padded hc

theorem trimmed_shown (hs : ∀ s ∈ scale, s.WellFormed) : (shown places coefficient scale).Trimmed :=
  (Numeral.wellFormed_trimmed (fun _ hc => Decimal.isDigit_of_mem_toDigits hc)
    (fun _ hc => Decimal.isDigit_of_mem_padded hc) hs).trimmed Nat.toDigits_ne_nil
    fun _ => Numeral.getLast?_fraction_trimmed

theorem toRat_value_shown (k coefficient : Nat) (scale : Option Numeral.Scale) :
    (shown (k + 1) coefficient scale).value.toRat =
      (Decimal.mk coefficient (scale.elim 0 Numeral.Scale.value - (k + 1 : Nat))).toRat := by
  rw [shown, Numeral.toRat_value_trimmed, Decimal.ofDigits_padded]

theorem length_fraction_shown {k : Nat} :
    ∀ digits ∈ (shown (k + 1) coefficient scale).fraction, digits.length ≤ k + 1 := by
  intro digits h
  have hlt : coefficient % 10 ^ (k + 1) < 10 ^ (k + 1) :=
    Nat.mod_lt _ (Nat.pow_pos (by decide))
  exact (Numeral.length_fraction_trimmed h).trans
    (Decimal.length_padded (Nat.succ_pos k) hlt).le

end Shown

end Reckon.Display
