import Reckon.Proofs.Token.Kinds

/-!
Where tokens stand. Each token of a text starts at a character that is no blank, and its
last one at the end of the text; what cannot be cut is reported where a token would have
started. The same text further on has the same tokens further on. Which tokens there are
is not looked at, but for the sign of an equation, which no token takes.
-/

namespace Reckon

/-- The same cause at another place of the text. -/
def Cause.relocate (φ : Nat → Nat) : Cause → Cause
  | parse position fault => parse (φ position) fault
  | other => other

/-- The same failure at another place of the text. -/
def Failure.relocate (φ : Nat → Nat) (f : Failure) : Failure :=
  { f with
    cause := f.cause.relocate φ
    position := f.position.map φ }

/-- The same token at another place of the text. -/
def Token.relocate (φ : Nat → Nat) (t : Token) : Token := { t with position := φ t.position }

/-- The end of a text, or the place of a character that is no blank. -/
def Text.Occupied (text : List Char) (position : Nat) : Prop :=
  position = text.length ∨ ∃ c, text[position]? = some c ∧ isBlank c = false

/-- The failure is of a text that cannot be read, at an occupied place of it. -/
def Failure.PointsInto (text : List Char) (f : Failure) : Prop :=
  ∃ position fault, f = .of (.parse position fault) ∧ Text.Occupied text position

@[simp] theorem Token.relocate_kind (φ : Nat → Nat) (t : Token) :
    (t.relocate φ).kind = t.kind := rfl

@[simp] theorem Token.relocate_position (φ : Nat → Nat) (t : Token) :
    (t.relocate φ).position = φ t.position := rfl

theorem Text.Occupied.le {text : List Char} {position : Nat} (h : Occupied text position) :
    position ≤ text.length := by
  obtain rfl | ⟨c, hc, -⟩ := h
  · exact Nat.le_refl _
  · exact Nat.le_of_lt (List.getElem?_eq_some_iff.1 hc).1

theorem Text.occupied_length (text : List Char) : Occupied text text.length := .inl rfl

theorem Text.occupied_of_not_isBlank {c : Char} (hc : isBlank c = false) (front rest : List Char) :
    Occupied (front ++ c :: rest) front.length :=
  .inr ⟨c, by simp, hc⟩

namespace Token

variable {pending position : Nat} {found tokens : List Token} {cs : List Char}

/-- Behind some characters the text is cut as it is alone, only further on. -/
theorem scan_shift (offset pending position : Nat) (found : List Token) (cs : List Char) :
    scan pending (position + offset) (found.map (relocate (· + offset))) cs =
      ((scan pending position found cs).map (List.map (relocate (· + offset)))).mapError
        (Failure.relocate (· + offset)) := by
  induction cs generalizing pending position found with
  | nil => simp [scan, Except.map, relocate]
  | cons c rest ih =>
      have hnext : position + offset + 1 = position + 1 + offset := Nat.add_right_comm ..
      cases pending with
      | succ more =>
          rw [scan, scan, hnext]
          exact ih more (position + 1) found
      | zero =>
          simp only [scan, hnext]
          split
          · exact ih 0 (position + 1) found
          · cases lexeme c rest with
            | error fault => rfl
            | ok result =>
                obtain ⟨kind, more⟩ := result
                exact ih more (position + 1) (⟨kind, position⟩ :: found)

theorem ofChars_shift (offset position : Nat) (cs : List Char) :
    ofChars (position + offset) cs =
      ((ofChars position cs).map (List.map (relocate (· + offset)))).mapError
        (Failure.relocate (· + offset)) :=
  scan_shift offset 0 position [] cs

section Places
open Text (Occupied)

/-- What is cut, and what cannot be, stands at occupied places of the whole text. -/
theorem scan_occupied (pending : Nat) (front : List Char)
    (hf : ∀ t ∈ found, Occupied (front ++ cs) t.position) :
    (∀ tokens, scan pending front.length found cs = .ok tokens →
      ∀ t ∈ tokens, Occupied (front ++ cs) t.position) ∧
    ∀ f, scan pending front.length found cs = .error f → f.PointsInto (front ++ cs) := by
  induction cs generalizing pending found front with
  | nil =>
      refine ⟨fun tokens h t ht => ?_, fun f h => ?_⟩
      · simp only [scan, Except.ok.injEq] at h
        subst h
        obtain rfl | ht := List.mem_cons.1 (List.mem_reverse.1 ht)
        · simpa using Text.occupied_length front
        · exact hf t ht
      · cases h
  | cons c rest ih =>
      have hsplit : front ++ c :: rest = (front ++ [c]) ++ rest := by simp
      have hnext : front.length + 1 = (front ++ [c]).length := by simp
      have hlater (pending : Nat) (found : List Token)
          (hf : ∀ t ∈ found, Occupied (front ++ c :: rest) t.position) := by
        rw [hsplit] at hf
        exact ih pending (front ++ [c]) hf
      rw [← hsplit, ← hnext] at hlater
      cases pending with
      | succ more => exact hlater more found hf
      | zero =>
          simp only [scan]
          split
          · exact hlater 0 found hf
          · rename_i hb
            have hhere : Occupied (front ++ c :: rest) front.length :=
              Text.occupied_of_not_isBlank (Bool.eq_false_iff.2 hb) front rest
            cases lexeme c rest with
            | error fault =>
                refine ⟨fun tokens h => ?_, fun f h => ?_⟩
                · cases h
                · cases h
                  exact ⟨_, _, rfl, hhere⟩
            | ok result =>
                obtain ⟨kind, more⟩ := result
                exact hlater more _ (List.forall_mem_cons.2 ⟨hhere, hf⟩)

theorem occupied_of_ofChars (h : ofChars 0 cs = .ok tokens) :
    ∀ t ∈ tokens, Occupied cs t.position :=
  (scan_occupied 0 [] (by simp)).1 tokens h

theorem pointsInto_of_ofChars {f : Failure} (h : ofChars 0 cs = .error f) : f.PointsInto cs :=
  (scan_occupied 0 [] (by simp)).2 f h

end Places

section Equals

theorem ne_equals_of_isPart {c : Char} (h : isPart c) : c ≠ '=' := by
  rintro rfl
  exact absurd h (by decide)

/-- No token takes the sign of an equation, so cutting fails at it at the latest. -/
theorem scan_of_equals_mem (h : '=' ∈ cs) (hp : pending ≤ cs.idxOf '=') (position : Nat)
    (found : List Token) :
    ∃ place fault, scan pending position found cs = .error (.of (.parse place fault)) ∧
      place ≤ position + cs.idxOf '=' := by
  induction cs generalizing pending position found with
  | nil => cases h
  | cons c rest ih =>
      have hlater (hc : c ≠ '=') {pending : Nat} (hp : pending ≤ rest.idxOf '=')
          (found : List Token) :
          ∃ place fault,
            scan pending (position + 1) found rest = .error (.of (.parse place fault)) ∧
            place ≤ position + (c :: rest).idxOf '=' := by
        have hrest : '=' ∈ rest := (List.mem_cons.1 h).resolve_left (Ne.symm hc)
        obtain ⟨place, fault, hs, hle⟩ := ih hrest hp (position + 1) found
        refine ⟨place, fault, hs, ?_⟩
        rw [List.idxOf_cons_ne _ hc]
        omega
      cases pending with
      | succ more =>
          have hc : c ≠ '=' := by
            rintro rfl
            simp at hp
          rw [List.idxOf_cons_ne _ hc] at hp
          exact hlater hc (Nat.le_of_succ_le_succ hp) found
      | zero =>
          simp only [scan]
          split
          · rename_i hb
            have hc : c ≠ '=' := by
              rintro rfl
              exact absurd hb (by decide)
            exact hlater hc (Nat.zero_le _) found
          · cases hk : lexeme c rest with
            | error fault => exact ⟨position, fault, rfl, Nat.le_add_right _ _⟩
            | ok result =>
                obtain ⟨kind, more⟩ := result
                have hpart := (lexeme_part hk).1
                have hc : c ≠ '=' := ne_equals_of_isPart (hpart c List.mem_cons_self)
                have hrest : '=' ∈ rest := (List.mem_cons.1 h).resolve_left (Ne.symm hc)
                have hnot : '=' ∉ rest.take more := fun hm =>
                  ne_equals_of_isPart (hpart _ (List.mem_cons_of_mem _ hm)) rfl
                exact hlater hc (Nat.not_lt.1 (mt (List.mem_take_iff_idxOf_lt hrest).2 hnot)) _

end Equals
end Token
end Reckon
