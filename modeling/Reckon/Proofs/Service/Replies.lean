import Reckon.Proofs.Json.Numbers
import Reckon.Service

/-!
The document that answers an evaluation. It reports a success with the expression and its result,
or a failure with an error, and never both. A finite number is carried without loss: as an integer
exactly if it is a whole number that a signed word and the numbers themselves still hold exactly,
and otherwise in digits that are read as the number again.
-/

namespace Reckon.Binary64

/-- A number without its fractional part. -/
def wholePart (x : Binary64) : Int := if x.isNegative then -x.floorMagnitude else x.floorMagnitude

/-- A number cast to a signed word: its fractional part is dropped, and what lies beyond the range
of a word is cut to it. -/
def toWord (x : Binary64) : Int :=
  if x.isNaN then 0 else max (-9223372036854775808) (min x.wholePart 9223372036854775807)

variable {x : Binary64}

theorem toRat_of_isWhole (h : x.isWhole) : x.toRat = x.wholePart := by
  rw [toRat_eq, magnitudeRat_of_isWhole h, wholePart]
  split <;> push_cast <;> rfl

theorem isWhole_iff (h : x.isFinite) : x.isWhole ↔ ∃ k : Int, x.toRat = k :=
  ⟨fun hwhole => ⟨_, toRat_of_isWhole hwhole⟩, fun ⟨_, hk⟩ => isWhole_of_toRat_eq h hk⟩

/-- Whole numbers of moderate magnitude are cast as they are. -/
theorem toWord_eq_wholePart (h : x.isFinite) (hle : x.floorMagnitude ≤ 9007199254740992) :
    x.toWord = x.wholePart := by
  rw [toWord, if_neg (not_isNaN_of_isFinite h), wholePart]
  split <;> omega

theorem not_isFinite_iff : ¬x.isFinite ↔ x.isNaN ∨ x.isInf := by
  rw [isFinite, isNaN, isInf, decide_eq_true_iff, decide_eq_true_iff, beq_iff_eq, Nat.not_lt,
    Nat.le_iff_lt_or_eq, @eq_comm _ infinity]

end Reckon.Binary64

namespace Reckon.Service

namespace Value

variable {x : Binary64}

/-- The value that a result stands for; a text stands for none. -/
def toRat? : Value → Option ℚ
  | integer n => some n
  | float x => some x.toRat
  | text _ => none

theorem ofNumber_of_not_isFinite (h : ¬x.isFinite) : ofNumber x = .text (Display.number x) := by
  simp [ofNumber, h]

theorem ofNumber_of_isWhole (hwhole : x.isWhole) (hle : x.floorMagnitude ≤ maxInteger) :
    ofNumber x = .integer x.wholePart := by
  have hfinite : x.isFinite := (Bool.and_eq_true _ _ ▸ hwhole).1
  have hle' : (x.floorMagnitude : Int) ≤ maxInteger := by exact_mod_cast hle
  simp [ofNumber, hfinite, hwhole, hle', Binary64.wholePart]

theorem ofNumber_of_not_isWhole (h : x.isFinite)
    (hnot : ¬(x.isWhole ∧ x.floorMagnitude ≤ maxInteger)) : ofNumber x = .float x := by
  simp only [ofNumber, h, Bool.not_true, Bool.false_eq_true, if_false]
  refine if_neg fun hif => hnot ?_
  obtain ⟨hwhole, hle⟩ := Bool.and_eq_true_iff.1 hif
  exact ⟨hwhole, by exact_mod_cast of_decide_eq_true hle⟩

/-- The numbers that are carried as integers, by their values. -/
theorem isWhole_and_le_iff (h : x.isFinite) :
    x.isWhole ∧ x.floorMagnitude ≤ maxInteger ↔
      (∃ k : Int, x.toRat = k) ∧ |x.toRat| ≤ 2 ^ 53 := by
  rw [← Binary64.isWhole_iff h]
  refine and_congr_right fun hwhole => ?_
  have hlimit : (2 ^ 53 : ℚ) = (maxInteger : Nat) := by norm_num [maxInteger]
  rw [Binary64.abs_toRat, Binary64.magnitudeRat_of_isWhole hwhole, hlimit, Nat.cast_le]

/-- What a finite number is carried as. -/
structure Carries (x : Binary64) (n : Json.Number) : Prop where
  json : (ofNumber x).json = .number n
  value : (ofNumber x).toRat? = some x.toRat
  isInteger : n.isInteger ↔ (∃ k : Int, x.toRat = k) ∧ |x.toRat| ≤ 2 ^ 53
  cast : n.isInteger → n = .ofInt x.toWord ∧ n.toRat = x.toRat
  read : n.toBinary64 = x ∨ x.isZero ∧ n.toBinary64.isZero

theorem exists_carries (h : x.isFinite) : ∃ n, Carries x n := by
  by_cases hint : x.isWhole ∧ x.floorMagnitude ≤ maxInteger
  · have hcarried := ofNumber_of_isWhole hint.1 hint.2
    have hrat := Binary64.toRat_of_isWhole hint.1
    have hvalue : (Json.Number.ofInt x.wholePart).toRat = x.toRat :=
      (Json.Number.toRat_ofInt _).trans hrat.symm
    refine ⟨.ofInt x.wholePart, ?_, ?_, ?_, fun _ => ⟨?_, hvalue⟩, ?_⟩
    · rw [hcarried]
      rfl
    · rw [hcarried, hrat]
      rfl
    · exact iff_of_true (Json.Number.isInteger_ofInt _) ((isWhole_and_le_iff h).1 hint)
    · rw [Binary64.toWord_eq_wholePart h hint.2]
    · exact Json.Number.toBinary64_of_toRat_eq h hvalue
  · have hcarried := ofNumber_of_not_isWhole h hint
    have hnot := Json.Number.isInteger_ofBinary64 x
    refine ⟨.ofBinary64 x, ?_, ?_, ?_, fun hinteger => ?_, ?_⟩
    · rw [hcarried]
      rfl
    · rw [hcarried]
      rfl
    · exact iff_of_false (by simp [hnot]) (mt (isWhole_and_le_iff h).2 hint)
    · rw [hnot] at hinteger
      cases hinteger
    · exact .inl (Json.Number.toBinary64_ofBinary64 h)

/-- The greatest number that is carried as an integer, and the one after it. -/
example : ofNumber ⟨0x4340000000000000⟩ = .integer 9007199254740992 ∧
    ofNumber ⟨0x4340000000000001⟩ = .float ⟨0x4340000000000001⟩ := by
  decide

/-- Only what is not finite is carried as a text. -/
theorem exists_json_eq_string_iff :
    (∃ text, (ofNumber x).json = .string text) ↔ x.isNaN ∨ x.isInf := by
  rw [← Binary64.not_isFinite_iff]
  constructor
  · rintro ⟨text, htext⟩ hfinite
    obtain ⟨n, hn⟩ := exists_carries hfinite
    exact nomatch hn.json.symm.trans htext
  · intro h
    rw [ofNumber_of_not_isFinite h]
    exact ⟨_, rfl⟩

/-- Numbers that are carried as one value are equal as numbers. -/
theorem Carries.toRat_eq {y : Binary64} {n n' : Json.Number} (hx : Carries x n)
    (hy : Carries y n') (h : n.toRat = n'.toRat) : x.toRat = y.toRat := by
  have hread {z : Binary64} {k : Json.Number} (hz : Carries z k) :
      k.toBinary64.toRat = z.toRat := by
    obtain heq | ⟨hzero, hzero'⟩ := hz.read
    · rw [heq]
    · rw [Binary64.toRat_eq_zero.2 (beq_iff_eq.1 hzero),
        Binary64.toRat_eq_zero.2 (beq_iff_eq.1 hzero')]
  rw [← hread hx, ← hread hy]
  exact Json.Number.toRat_toBinary64_congr h

end Value

namespace Reply

/-- A reply document has these fields, and of those that are `none`, none. -/
structure Has (document : Json) (success : Bool) (expression result error : Option Json) :
    Prop where
  success : document.get? "success" = some (.bool success)
  expression : document.get? "expression" = expression
  result : document.get? "result" = result
  error : document.get? "error" = error

variable {ev : Evaluation}

theorem has_success (expression : String) (result : Value) :
    Has (success expression result).json true (some (.ofString expression)) (some result.json)
      none :=
  ⟨rfl, rfl, rfl, rfl⟩

theorem has_failure (error : String) :
    Has (failure error).json false none none (some (.ofString error)) :=
  ⟨rfl, rfl, rfl, rfl⟩

theorem ofEvaluation_of_number {x : Binary64} (h : ev.outcome = .number x) :
    ofEvaluation ev = success ev.expression (.ofNumber x) := by
  rw [ofEvaluation, h]

theorem ofEvaluation_of_symbolic {text : String} (h : ev.outcome.symbolic? = some text) :
    ofEvaluation ev = success ev.expression (.text text) := by
  obtain ⟨source, expression, outcome, parsed, phases⟩ := ev
  cases outcome with
  | symbolic result rendering asked =>
      cases h
      rfl
  | _ => cases h

theorem ofEvaluation_of_no_result (hnumber : ev.outcome.number? = none)
    (hsymbolic : ev.outcome.symbolic? = none) : ∃ error, ofEvaluation ev = failure error := by
  obtain ⟨source, expression, outcome, parsed, phases⟩ := ev
  cases outcome with
  | number x => cases hnumber
  | symbolic result rendering asked => cases hsymbolic
  | error message => exact ⟨_, rfl⟩
  | notImplemented message => exact ⟨_, rfl⟩

/-- An evaluation is answered with its expression and its result if that is a number or a symbolic
one, which is its text, and with an error otherwise. A finite number is carried as the value that
it is, as an integer exactly if it is a whole one of magnitude at most `2 ^ 53`, which is then cast
to a word as it is; all other numbers are carried as texts. Two finite numbers are carried as one
value only if they are equal. -/
theorem ofEvaluation_reports_exactly :
    (∀ ev x, ev.outcome = .number x → Has (ofEvaluation ev).json true
      (some (.ofString ev.expression)) (some (Value.ofNumber x).json) none) ∧
    (∀ ev text, ev.outcome.symbolic? = some text → Has (ofEvaluation ev).json true
      (some (.ofString ev.expression)) (some (.ofString text)) none) ∧
    (∀ ev, ev.outcome.number? = none → ev.outcome.symbolic? = none →
      ∃ error, Has (ofEvaluation ev).json false none none (some (.ofString error))) ∧
    (∀ x : Binary64, x.isFinite → ∃ n, Value.Carries x n) ∧
    (∀ x, (∃ text, (Value.ofNumber x).json = .string text) ↔ x.isNaN ∨ x.isInf) ∧
    ∀ x y n n', Value.Carries x n → Value.Carries y n' → n.toRat = n'.toRat →
      x.toRat = y.toRat := by
  refine ⟨fun ev x h => ?_, fun ev text h => ?_, fun ev hnumber hsymbolic => ?_,
    fun x => Value.exists_carries, fun x => Value.exists_json_eq_string_iff,
    fun x y n n' hx hy => hx.toRat_eq hy⟩
  · exact ofEvaluation_of_number h ▸ has_success _ _
  · exact ofEvaluation_of_symbolic h ▸ has_success _ _
  · obtain ⟨error, hreply⟩ := ofEvaluation_of_no_result hnumber hsymbolic
    exact ⟨error, hreply ▸ has_failure _⟩

end Reply

end Reckon.Service
