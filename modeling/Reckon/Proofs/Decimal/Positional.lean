import Reckon.Proofs.Decimal.Shortest
import Reckon.Token.Numeral

/-!
A decimal that is written out is read back with its value: the numeral at the head
of the text has the decimal's magnitude and takes the written characters, provided
that what follows neither is a digit, a point nor an exponent mark.
-/

namespace Reckon.Decimal

theorem isDigit_of_mem_toDigits {n : Nat} {c : Char} (h : c ∈ Nat.toDigits 10 n) :
    c.isDigit :=
  Nat.isDigit_of_mem_toDigits (by decide) (by decide) h

theorem isDigit_of_mem_padded {width n : Nat} {c : Char} (h : c ∈ padded width n) :
    c.isDigit := by
  simp only [padded, List.mem_append, List.mem_replicate] at h
  obtain ⟨-, rfl⟩ | h := h
  · rfl
  · exact isDigit_of_mem_toDigits h

theorem length_padded {width n : Nat} (hw : 0 < width) (h : n < 10 ^ width) :
    (padded width n).length = width := by
  have hle : (Nat.toDigits 10 n).length ≤ width :=
    (Nat.length_toDigits_le_iff (by decide) hw).2 h
  simp only [padded, List.length_append, List.length_replicate]
  omega

theorem ofDigitChars_padded (width n init : Nat) :
    Nat.ofDigitChars 10 (padded width n) init =
      10 ^ (padded width n).length * init + n := by
  rw [Nat.ofDigitChars_eq_ofDigitChars_zero]
  simp [padded, Nat.ofDigitChars_append]

/-- Zeros behind the digits of a number other than zero lengthen them. -/
theorem length_toDigits_mul_pow {n : Nat} (hn : 0 < n) (k : Nat) :
    (Nat.toDigits 10 (n * 10 ^ k)).length = (Nat.toDigits 10 n).length + k := by
  induction k with
  | zero => simp
  | succ k ih =>
      have hpos : 0 < n * 10 ^ k := Nat.mul_pos hn (Nat.pow_pos (by decide))
      have happ := Nat.toDigits_append_toDigits (b := 10) (d := 0) (by decide) hpos (by decide)
      rw [Nat.pow_succ, ← Nat.mul_assoc, Nat.mul_comm _ 10, ← Nat.add_zero (10 * _), ← happ,
        List.length_append, ih]
      rfl

/-- Writing a power of ten out does not change the magnitude. -/
theorem bits_mul_pow (coefficient k : Nat) :
    bits ⟨coefficient * 10 ^ k, 0⟩ = bits ⟨coefficient, .ofNat k⟩ := by
  by_cases h0 : coefficient = 0
  · simp [bits, h0]
  · have hne : coefficient * 10 ^ k ≠ 0 :=
      Nat.mul_ne_zero h0 (Nat.ne_of_gt (Nat.pow_pos (by decide)))
    have hlead : lead ⟨coefficient * 10 ^ k, 0⟩ = lead ⟨coefficient, .ofNat k⟩ := by
      simp only [lead, length_toDigits_mul_pow (Nat.pos_of_ne_zero h0), Int.ofNat_eq_natCast]
      omega
    simp only [bits, if_neg h0, if_neg hne, hlead]
    simp

end Reckon.Decimal

namespace Reckon.Numeral

/-- A numeral in front of the text does not go on in it. -/
def Stops (rest : List Char) : Prop :=
  ∀ c ∈ rest.head?, c.isDigit = false ∧ c ≠ '.' ∧ c ≠ 'e' ∧ c ≠ 'E'

variable {whole fraction rest : List Char}

theorem takeWhile_isDigit_append (hw : ∀ c ∈ whole, c.isDigit)
    (h : ∀ c ∈ rest.head?, c.isDigit = false) :
    (whole ++ rest).takeWhile Char.isDigit = whole := by
  rw [List.takeWhile_append_of_pos hw]
  cases rest with
  | nil => simp
  | cons c rest => simp [h c rfl]

theorem Scale.read?_of_stops (h : Stops rest) : Scale.read? rest = none := by
  cases rest with
  | nil => rfl
  | cons c rest =>
      obtain ⟨-, -, he, hE⟩ := h c rfl
      simp [Scale.read?, he, hE]

theorem read_whole (hw : ∀ c ∈ whole, c.isDigit) (h : Stops rest) :
    read (whole ++ rest) = ⟨whole, none, none⟩ := by
  have ht := takeWhile_isDigit_append hw fun c hc => (h c hc).1
  simp only [read, ht, List.drop_left]
  split
  · exact absurd rfl (h _ rfl).2.1
  · simp [Scale.read?_of_stops h]

theorem read_fraction (hw : ∀ c ∈ whole, c.isDigit) (hf : ∀ c ∈ fraction, c.isDigit)
    (h : Stops rest) :
    read (whole ++ '.' :: (fraction ++ rest)) = ⟨whole, some fraction, none⟩ := by
  have ht : (whole ++ '.' :: (fraction ++ rest)).takeWhile Char.isDigit = whole :=
    takeWhile_isDigit_append hw (by simp)
  have hf := takeWhile_isDigit_append hf fun c hc => (h c hc).1
  have hd : (fraction ++ rest).drop fraction.length = rest := by simp
  simp [read, ht, hf, hd, Scale.read?_of_stops h]

end Reckon.Numeral

namespace Reckon.Decimal

theorem positional_eq_cons (d : Decimal) :
    ∃ c cs, d.positional = c :: cs ∧ c.isDigit := by
  have hcons (n : Nat) : ∃ c cs, Nat.toDigits 10 n = c :: cs ∧ c.isDigit := by
    obtain ⟨c, cs, h⟩ := List.exists_cons_of_ne_nil (Nat.toDigits_ne_nil (n := n) (b := 10))
    exact ⟨c, cs, h, isDigit_of_mem_toDigits (h ▸ List.mem_cons_self)⟩
  unfold positional
  split
  · exact hcons _
  · rename_i k _
    obtain ⟨c, cs, h, hc⟩ := hcons (d.coefficient / Nat.pow 10 (k + 1))
    refine ⟨c, cs ++ '.' :: padded (k + 1) (d.coefficient % Nat.pow 10 (k + 1)), ?_, hc⟩
    simp only [h, List.cons_append]

/-- A coefficient is put together again from what it is written as. -/
theorem ofDigits_padded (coefficient k : Nat) (scale : Int) :
    ofDigits (Nat.toDigits 10 (coefficient / 10 ^ (k + 1)))
      (padded (k + 1) (coefficient % 10 ^ (k + 1))) scale =
        ⟨coefficient, scale - (k + 1 : Nat)⟩ := by
  have hunit : 0 < 10 ^ (k + 1) := Nat.pow_pos (by decide)
  have hlen := length_padded (Nat.succ_pos k) (Nat.mod_lt coefficient hunit)
  simp only [ofDigits, Nat.ofDigitChars_append, ofDigitChars_padded, hlen]
  simp [Nat.div_add_mod]

theorem read_positional (d : Decimal) {rest : List Char} (h : Numeral.Stops rest) :
    (Numeral.read (d.positional ++ rest)).text = d.positional ∧
      (Numeral.read (d.positional ++ rest)).value.bits = d.bits := by
  obtain ⟨coefficient, exponent⟩ := d
  cases exponent with
  | ofNat k =>
      have hr : Numeral.read (Nat.toDigits 10 (coefficient * 10 ^ k) ++ rest) = ⟨_, none, none⟩ :=
        Numeral.read_whole (fun c hc => isDigit_of_mem_toDigits hc) h
      have hv : ofDigits (Nat.toDigits 10 (coefficient * 10 ^ k)) [] 0 =
          ⟨coefficient * 10 ^ k, 0⟩ := by
        simp [ofDigits]
      refine ⟨?_, ?_⟩
      · simp [positional, hr, Numeral.text]
      · simp [positional, hr, Numeral.value, hv, bits_mul_pow]
  | negSucc k =>
      have hr : Numeral.read (Nat.toDigits 10 (coefficient / 10 ^ (k + 1)) ++
          '.' :: (padded (k + 1) (coefficient % 10 ^ (k + 1)) ++ rest)) = ⟨_, some _, none⟩ :=
        Numeral.read_fraction (fun c hc => isDigit_of_mem_toDigits hc)
          (fun c hc => isDigit_of_mem_padded hc) h
      have hv : ofDigits (Nat.toDigits 10 (coefficient / 10 ^ (k + 1)))
          (padded (k + 1) (coefficient % 10 ^ (k + 1))) 0 = ⟨coefficient, .negSucc k⟩ := by
        rw [ofDigits_padded, Int.zero_sub, Int.negSucc_eq, Int.natCast_add_one]
      refine ⟨?_, ?_⟩
      · simp [positional, hr, Numeral.text]
      · simp [positional, hr, Numeral.value, hv]

/-- A finite number without a sign is written as its shortest digits. -/
theorem plainChars_ofMagnitude {m : Nat} (h : m < Binary64.infinity) :
    plainChars (.ofMagnitude false m) = (shortest m).positional := by
  have hm := Binary64.magnitude_ofMagnitude false (Binary64.lt_signBit h)
  have hnan : ¬ Binary64.infinity < m := Nat.not_lt.2 (Nat.le_of_lt h)
  have hinf : m ≠ Binary64.infinity := Nat.ne_of_lt h
  simp [plainChars, Binary64.isNaN, Binary64.isInf, hm, hnan, hinf,
    Binary64.isNegative_ofMagnitude false (Binary64.lt_signBit h)]

end Reckon.Decimal
