import Reckon.Proofs.Expr.Relocation
import Reckon.Statement

/-!
Statements by their sides. An equation is read as its sides are read alone, with the
failures of the right side as far behind as it stands. What a failure points at is the end
of the text or no blank, in whichever side it was found.
-/

namespace Reckon

variable {left right cs : List Char}

/-- The failure of a text that cannot be read, with its place and what is wrong there. -/
def Failure.At (position : Nat) (fault : ParseFault) (f : Failure) : Prop :=
  f.kind = .parse ∧ f.position = some position ∧
    f.message = s!"Parse error at position {position}: " ++ fault.reason

theorem Failure.at_of (position : Nat) (fault : ParseFault) :
    (Failure.of (.parse position fault)).At position fault :=
  ⟨rfl, rfl, rfl⟩

section Places
open Text

variable {position : Nat} {f : Failure}

theorem Text.Occupied.append_cons (h : Occupied left position) {c : Char}
    (hc : isBlank c = false) (right : List Char) : Occupied (left ++ c :: right) position := by
  obtain rfl | ⟨d, hd, hb⟩ := h
  · exact occupied_of_not_isBlank hc left right
  · refine .inr ⟨d, ?_, hb⟩
    rw [List.getElem?_append_left (List.getElem?_eq_some_iff.1 hd).1, hd]

theorem Text.Occupied.behind (h : Occupied right position) (front : List Char) :
    Occupied (front ++ right) (position + front.length) := by
  obtain rfl | ⟨d, hd, hb⟩ := h
  · exact .inl (by rw [List.length_append, Nat.add_comm])
  · refine .inr ⟨d, ?_, hb⟩
    rw [List.getElem?_append_right (Nat.le_add_left ..), Nat.add_sub_cancel, hd]

theorem Failure.PointsInto.append_cons (h : f.PointsInto left) {c : Char}
    (hc : isBlank c = false) (right : List Char) : f.PointsInto (left ++ c :: right) := by
  obtain ⟨position, fault, rfl, hp⟩ := h
  exact ⟨position, fault, rfl, hp.append_cons hc right⟩

theorem Failure.PointsInto.behind (h : f.PointsInto right) (front : List Char) :
    (f.relocate (· + front.length)).PointsInto (front ++ right) := by
  obtain ⟨position, fault, rfl, hp⟩ := h
  exact ⟨_, fault, rfl, hp.behind front⟩

end Places

namespace Statement

/-- Any number of signs but one leaves the text to the reader of expressions. -/
theorem ofChars_of_count_ne (h : cs.count '=' ≠ 1) :
    ofChars cs = (Expr.parseAt 0 cs).map expression := by
  rw [ofChars, if_neg h]

/-- A text with one sign is read side by side, unless a side is blank. -/
theorem ofChars_sides (hl : '=' ∉ left) (hr : '=' ∉ right) :
    ofChars (left ++ '=' :: right) =
      if left.all Text.isBlank then .error (.of (.parse left.length .missingLeftSide))
      else if right.all Text.isBlank then .error (.of (.parse left.length .missingRightSide))
      else (do
        let lhs ← Expr.parseAt 0 left
        let rhs ← Expr.parseAt (left.length + 1) right
        .ok (.equation lhs rhs)) := by
  have hcount : (left ++ '=' :: right).count '=' = 1 := by
    simp [List.count_append, List.count_eq_zero.2 hl, List.count_eq_zero.2 hr]
  have hne : ∀ c ∈ left, (c != '=') = true := by
    intro c hc
    rw [bne_iff_ne]
    rintro rfl
    exact hl hc
  have htake : (left ++ '=' :: right).takeWhile (· != '=') = left := by
    rw [List.takeWhile_append_of_pos hne]
    simp
  have hdrop : (left ++ '=' :: right).drop (left.length + 1) = right := by
    simp [← List.drop_drop]
  rw [ofChars, if_pos hcount]
  simp only [htake, hdrop]

/-- The right side is read as it is alone, and its failures stand behind the left side. -/
theorem ofChars_sides_alone (hl : '=' ∉ left) (hr : '=' ∉ right) :
    ofChars (left ++ '=' :: right) =
      if left.all Text.isBlank then .error (.of (.parse left.length .missingLeftSide))
      else if right.all Text.isBlank then .error (.of (.parse left.length .missingRightSide))
      else (do
        let lhs ← Expr.parseAt 0 left
        let rhs ← (Expr.parseAt 0 right).mapError (Failure.relocate (· + (left.length + 1)))
        .ok (.equation lhs rhs)) := by
  have hshift := Expr.parseAt_shift (left.length + 1) 0 right
  rw [Nat.zero_add] at hshift
  rw [ofChars_sides hl hr, hshift]

/-- The sides of a text with one sign. -/
theorem exists_sides_of_count (h : cs.count '=' = 1) :
    ∃ left right, cs = left ++ '=' :: right ∧ '=' ∉ left ∧ '=' ∉ right := by
  have hmem : '=' ∈ cs := List.count_pos_iff.1 (h ▸ Nat.one_pos)
  obtain ⟨left, right, rfl, hl⟩ := List.eq_append_cons_of_mem hmem
  refine ⟨left, right, rfl, hl, List.count_eq_zero.1 ?_⟩
  rw [List.count_append, List.count_cons_self, List.count_eq_zero.2 hl] at h
  omega

/-- The two sides of an equation that was read, in its text around the sign. -/
theorem sides_of_parse {text : String} {lhs rhs : Parsed}
    (h : parse text = .ok (.equation lhs rhs)) :
    ∃ left right, text.toList = left ++ '=' :: right ∧ '=' ∉ left ++ right ∧
      Expr.parseAt 0 left = .ok lhs ∧ Expr.parseAt (left.length + 1) right = .ok rhs := by
  rw [parse] at h
  by_cases hcount : text.toList.count '=' = 1
  · obtain ⟨left, right, hsplit, hl, hr⟩ := exists_sides_of_count hcount
    rw [hsplit, ofChars_sides hl hr] at h
    split at h
    · cases h
    · split at h
      · cases h
      · obtain ⟨lhs', hlhs, h⟩ := bind_eq_ok.1 h
        obtain ⟨rhs', hrhs, h⟩ := bind_eq_ok.1 h
        cases h
        exact ⟨left, right, hsplit, by simp [hl, hr], hlhs, hrhs⟩
  · rw [ofChars_of_count_ne hcount] at h
    cases hp : Expr.parseAt 0 text.toList <;> rw [hp] at h <;> cases h

/-- A failure points into the text, on whichever side of the sign it was found. -/
theorem pointsInto_of_ofChars {f : Failure} (h : ofChars cs = .error f) : f.PointsInto cs := by
  by_cases hcount : cs.count '=' = 1
  · obtain ⟨left, right, rfl, hl, hr⟩ := exists_sides_of_count hcount
    have hsign (fault : ParseFault) :
        (Failure.of (.parse left.length fault)).PointsInto (left ++ '=' :: right) :=
      ⟨_, fault, rfl, Text.occupied_of_not_isBlank (by decide) left right⟩
    rw [ofChars_sides_alone hl hr] at h
    split at h
    · cases h
      exact hsign _
    · split at h
      · cases h
        exact hsign _
      · obtain h | ⟨lhs, -, h⟩ := bind_eq_error.1 h
        · exact (Expr.pointsInto_of_parseAt h).append_cons (by decide) right
        · obtain h | ⟨rhs, -, h⟩ := bind_eq_error.1 h
          · obtain ⟨g, hg, rfl⟩ := mapError_eq_error.1 h
            simpa using (Expr.pointsInto_of_parseAt hg).behind (left ++ ['='])
          · cases h
  · rw [ofChars_of_count_ne hcount, map_eq_error] at h
    exact Expr.pointsInto_of_parseAt h

/-- A text without the sign of an equation is read as an expression, and one with several
fails at the first of them at the latest. A text with one sign fails at it if a side is
blank, the left one before the right one; else it is an equation of what its sides are
read as alone, or it fails as the left side does, or as the right side does, as many
characters further on as stand in front of that side. -/
theorem parse_by_sides :
    (∀ text : String, '=' ∉ text.toList → parse text = (Expr.parse text).map expression) ∧
    (∀ text : String, 2 ≤ text.toList.count '=' →
      ∃ f position fault, parse text = .error f ∧ f.At position fault ∧
        position ≤ text.toList.idxOf '=') ∧
    (∀ left right : String, '=' ∉ left.toList → '=' ∉ right.toList →
      parse (left ++ "=" ++ right) =
        if left.toList.all Text.isBlank then
          .error (.of (.parse left.length .missingLeftSide))
        else if right.toList.all Text.isBlank then
          .error (.of (.parse left.length .missingRightSide))
        else match Expr.parse left, Expr.parse right with
          | .error f, _ => .error f
          | .ok _, .error f => .error (f.relocate (· + (left.length + 1)))
          | .ok lhs, .ok rhs => .ok (.equation lhs rhs)) ∧
    ∀ text f, Expr.parse text = .error f → ∃ position fault, f.At position fault ∧
      ∀ offset, (f.relocate (· + offset)).At (position + offset) fault := by
  refine ⟨fun text h => ?_, fun text h => ?_, fun left right hl hr => ?_, fun text f h => ?_⟩
  · exact ofChars_of_count_ne (by simp [List.count_eq_zero.2 h])
  · have hmem : '=' ∈ text.toList := List.count_pos_iff.1 (by omega)
    obtain ⟨place, fault, hp, hle⟩ := Expr.parseAt_of_equals_mem 0 hmem
    refine ⟨_, place, fault, ?_, Failure.at_of place fault, by omega⟩
    rw [parse, ofChars_of_count_ne (by omega), hp]
    rfl
  · have htext : (left ++ "=" ++ right).toList = left.toList ++ '=' :: right.toList := by
      simp
    rw [parse, htext, ofChars_sides_alone hl hr, Expr.parse, Expr.parse, String.length_toList]
    cases Expr.parseAt 0 left.toList with
    | error f => rfl
    | ok lhs => cases Expr.parseAt 0 right.toList <;> rfl
  · obtain ⟨position, fault, rfl, -⟩ := Expr.pointsInto_of_parseAt h
    exact ⟨position, fault, Failure.at_of position fault,
      fun offset => Failure.at_of (position + offset) fault⟩

/-- The bracket behind the sign of `é = (2` is the second character of the right side and
the fifth of the text. -/
theorem parse_by_sides_open_bracket :
    (∃ f position fault, parse "a = b = c" = .error f ∧ f.At position fault ∧ position ≤ 2) ∧
    parse ("é " ++ "=" ++ " (2") = .error (.of (.parse 4 (.unclosed '('))) := by
  obtain ⟨-, hmany, hsides, -⟩ := parse_by_sides
  have hleft : (Expr.parse "é ").isOk := by decide +kernel
  have hright : failure? (Expr.parse " (2") = some (.of (.parse 1 (.unclosed '('))) := by
    decide +kernel
  refine ⟨hmany "a = b = c" (by decide), ?_⟩
  rw [hsides "é " " (2" (by decide) (by decide), failure?_eq_some.1 hright]
  cases h : Expr.parse "é " with
  | ok lhs => rfl
  | error f =>
      rw [h] at hleft
      cases hleft

/-- A text that is no expression or no statement is told so at a place in it: at its end or
at a character that is no blank, which is the place that the message states. -/
theorem failure_points_into (text : String) (f : Failure)
    (h : Expr.parse text = .error f ∨ parse text = .error f) :
    ∃ position fault, f.At position fault ∧ position ≤ text.length ∧
      (position = text.length ∨
        ∃ c, text.toList[position]? = some c ∧ Text.isBlank c = false) := by
  have hpoints : f.PointsInto text.toList := by
    cases h with
    | inl h => exact Expr.pointsInto_of_parseAt h
    | inr h => exact pointsInto_of_ofChars h
  obtain ⟨position, fault, rfl, hp⟩ := hpoints
  rw [← String.length_toList]
  exact ⟨position, fault, Failure.at_of position fault, hp.le, hp⟩

theorem failure_points_into_bracket :
    ∃ position fault, (Failure.of (.parse 4 (.unclosed '('))).At position fault ∧
      position ≤ "é = (2".length ∧ (position = "é = (2".length ∨
        ∃ c, "é = (2".toList[position]? = some c ∧ Text.isBlank c = false) := by
  have hfails : failure? (parse "é = (2") = some (.of (.parse 4 (.unclosed '('))) := by
    decide +kernel
  exact failure_points_into "é = (2" _ (.inr (failure?_eq_some.1 hfails))

end Statement
end Reckon
