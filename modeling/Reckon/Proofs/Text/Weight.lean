import Mathlib.Data.List.Infix
import Reckon.Proofs.Text.Replace

/-!
Changes that make a text lighter. Every character has a weight; a change keeps a text or
leaves one of less weight, so changes one after another keep a text only if each of them
does. How often a change has to be made until it keeps the text is not asked.
-/

namespace Reckon.Text

variable (weight : Char → Nat)

def weigh : List Char → Nat
  | [] => 0
  | c :: cs => weight c + weigh cs

@[simp] theorem weigh_nil : weigh weight [] = 0 := rfl

@[simp] theorem weigh_cons (c : Char) (cs : List Char) :
    weigh weight (c :: cs) = weight c + weigh weight cs := rfl

@[simp] theorem weigh_append (cs ds : List Char) :
    weigh weight (cs ++ ds) = weigh weight cs + weigh weight ds := by
  induction cs with
  | nil => exact (Nat.zero_add _).symm
  | cons c cs ih => rw [List.cons_append, weigh_cons, weigh_cons, ih, Nat.add_assoc]

@[simp] theorem weigh_reverse (cs : List Char) : weigh weight cs.reverse = weigh weight cs := by
  induction cs with
  | nil => rfl
  | cons c cs ih =>
      rw [List.reverse_cons, weigh_append, ih, weigh_cons, weigh_cons, weigh_nil]
      omega

/-- Every text is kept or made lighter. -/
def Reduces (f : List Char → List Char) : Prop :=
  ∀ cs, f cs = cs ∨ weigh weight (f cs) < weigh weight cs

variable {weight} {f g : List Char → List Char} {cs : List Char}

theorem Reduces.le (h : Reduces weight f) (cs : List Char) :
    weigh weight (f cs) ≤ weigh weight cs := by
  cases h cs with
  | inl he => exact Nat.le_of_eq (congrArg (weigh weight) he)
  | inr hl => exact Nat.le_of_lt hl

/-- Changes one after the other keep a text only if each does. -/
theorem Reduces.comp_eq_self (hf : Reduces weight f) (hg : Reduces weight g) :
    g (f cs) = cs ↔ f cs = cs ∧ g cs = cs := by
  constructor
  · intro h
    have hfirst : f cs = cs := by
      refine (hf cs).resolve_right fun hl => ?_
      have hle := hg.le (f cs)
      rw [h] at hle
      exact Nat.lt_irrefl _ (Nat.lt_of_le_of_lt hle hl)
    exact ⟨hfirst, by rwa [hfirst] at h⟩
  · intro ⟨hf, hg⟩
    rw [hf, hg]

theorem Reduces.comp (hf : Reduces weight f) (hg : Reduces weight g) :
    Reduces weight fun cs => g (f cs) := by
  intro cs
  cases hf cs with
  | inl he =>
      dsimp only
      rw [he]
      exact hg cs
  | inr hl => exact .inr (Nat.lt_of_le_of_lt (hg.le _) hl)

theorem reduces_foldl {ι : Type} (change : List Char → ι → List Char) {is : List ι}
    (h : ∀ i ∈ is, Reduces weight (change · i)) : Reduces weight fun cs => is.foldl change cs := by
  induction is with
  | nil => exact fun cs => .inl rfl
  | cons i is ih =>
      obtain ⟨hi, his⟩ := List.forall_mem_cons.1 h
      exact hi.comp (ih his)

theorem foldl_eq_self {ι : Type} (change : List Char → ι → List Char) {is : List ι}
    (h : ∀ i ∈ is, Reduces weight (change · i)) :
    is.foldl change cs = cs ↔ ∀ i ∈ is, change cs i = cs := by
  induction is with
  | nil => simp
  | cons i is ih =>
      obtain ⟨hi, his⟩ := List.forall_mem_cons.1 h
      rw [List.forall_mem_cons, ← ih his]
      exact hi.comp_eq_self (reduces_foldl change his)

/-- Dropping characters makes a text lighter. -/
theorem reduces_of_sublist (hw : ∀ c, 0 < weight c) (h : ∀ cs, (f cs).Sublist cs) :
    Reduces weight f := by
  intro cs
  have hs := h cs
  generalize f cs = ds at hs
  induction hs with
  | slnil => exact .inl rfl
  | @cons ds cs c hs ih =>
      right
      have hc := hw c
      rw [weigh_cons]
      cases ih with
      | inl he => rw [he]; omega
      | inr hl => omega
  | @cons_cons ds cs c hs ih =>
      cases ih with
      | inl he => exact .inl (by rw [he])
      | inr hl => exact .inr (by simpa using hl)

section Rules

variable {rule : Rule} {written : List Char}

variable (weight) in
/-- What the rule writes weighs less than what it is written for. -/
def Lightens (rule : Rule) : Prop :=
  ∀ cs replacement length, rule cs = some (replacement, length) →
    weigh weight replacement < weigh weight (cs.take length)

/-- The rule applies nowhere in the text. -/
def Idle (rule : Rule) (cs : List Char) : Prop := ∀ rest, rest <:+ cs → rule rest = none

theorem Lightens.nil (h : Lightens weight rule) : rule [] = none := by
  refine Option.eq_none_iff_forall_ne_some.2 fun ⟨replacement, length⟩ he => ?_
  have hl := h [] replacement length he
  rw [List.take_nil] at hl
  exact Nat.not_lt_zero _ hl

theorem Idle.replaceFrom (h : Idle rule cs) (written : List Char) :
    replaceFrom rule 0 written cs = written.reverse ++ cs := by
  induction cs generalizing written with
  | nil => simp [Text.replaceFrom]
  | cons c cs ih =>
      rw [replaceFrom_keep (h _ (List.suffix_refl _)),
        ih fun rest hr => h rest (hr.trans (List.suffix_cons c cs))]
      simp

theorem Idle.replaceAll (h : Idle rule cs) : replaceAll rule cs = cs := h.replaceFrom []

/-- Where the rule applies anywhere the text gets lighter. -/
theorem Lightens.replaceFrom_cases (h : Lightens weight rule) (n : Nat) (written cs : List Char) :
    Idle rule (cs.drop n) ∨
      weigh weight (replaceFrom rule n written cs) <
        weigh weight written + weigh weight (cs.drop n) := by
  induction cs generalizing n written with
  | nil =>
      left
      intro rest hr
      rw [List.drop_nil, List.suffix_nil] at hr
      rw [hr, h.nil]
  | cons c cs ih =>
      cases n with
      | succ n => exact ih n written
      | zero =>
          rw [List.drop_zero]
          cases hrule : rule (c :: cs) with
          | none =>
              rw [replaceFrom_keep hrule]
              cases ih 0 (c :: written) with
              | inl hidle =>
                  left
                  intro rest hr
                  cases List.suffix_cons_iff.1 hr with
                  | inl he => rw [he, hrule]
                  | inr hr => exact hidle rest hr
              | inr hl =>
                  right
                  rw [weigh_cons, List.drop_zero] at hl
                  rw [weigh_cons]
                  omega
          | some result =>
              right
              obtain ⟨replacement, length⟩ := result
              have hless := h _ _ _ hrule
              cases length with
              | zero => exact absurd hless (Nat.not_lt_zero _)
              | succ length =>
                  have hsplit : weigh weight (c :: cs) =
                      weigh weight ((c :: cs).take (length + 1)) +
                        weigh weight (cs.drop length) := by
                    rw [← weigh_append, ← List.drop_succ_cons (a := c), List.take_append_drop]
                  have hle : weigh weight (replaceFrom rule 0 (replacement.reverse ++ written)
                      (cs.drop length)) ≤
                      weigh weight replacement + weigh weight written +
                        weigh weight (cs.drop length) := by
                    rw [← replaceFrom_pending]
                    cases ih length (replacement.reverse ++ written) with
                    | inl hidle =>
                        rw [replaceFrom_pending, hidle.replaceFrom]
                        simp only [weigh_append, weigh_reverse]
                        omega
                    | inr hl => simpa using Nat.le_of_lt hl
                  rw [replaceFrom_match hrule]
                  omega

/-- Replacing keeps a text exactly if the rule applies nowhere in it. -/
theorem Lightens.replaceAll_cases (h : Lightens weight rule) (cs : List Char) :
    Idle rule cs ∨ weigh weight (replaceAll rule cs) < weigh weight cs := by
  cases h.replaceFrom_cases 0 [] cs with
  | inl hidle => exact .inl hidle
  | inr hl => exact .inr (Nat.lt_of_lt_of_eq hl (Nat.zero_add _))

theorem Lightens.reduces (h : Lightens weight rule) : Reduces weight (replaceAll rule) := by
  intro cs
  cases h.replaceAll_cases cs with
  | inl hidle => exact .inl hidle.replaceAll
  | inr hl => exact .inr hl

theorem Lightens.replaceAll_eq_self (h : Lightens weight rule) :
    replaceAll rule cs = cs ↔ Idle rule cs := by
  constructor
  · intro he
    refine (h.replaceAll_cases cs).resolve_right fun hl => ?_
    rw [he] at hl
    exact Nat.lt_irrefl _ hl
  · exact Idle.replaceAll

theorem literal_eq_some {source target : String} {replacement : List Char} {length : Nat} :
    literal source target cs = some (replacement, length) ↔
      source.toList <+: cs ∧ replacement = target.toList ∧ length = source.toList.length := by
  rw [literal, ← List.isPrefixOf_iff_prefix]
  split
  · rename_i hp
    simp only [hp, Option.some.injEq, Prod.mk.injEq, true_and]
    exact and_congr eq_comm eq_comm
  · rename_i hp
    simp [hp]

theorem lightens_literal {source target : String}
    (h : weigh weight target.toList < weigh weight source.toList) :
    Lightens weight (literal source target) := by
  intro cs replacement length hrule
  obtain ⟨hp, rfl, rfl⟩ := literal_eq_some.1 hrule
  rwa [← List.prefix_iff_eq_take.1 hp]

/-- A literal applies nowhere in a text that does not hold it. -/
theorem idle_literal {source target : String} :
    Idle (literal source target) cs ↔ ¬ source.toList <:+: cs := by
  constructor
  · intro h hi
    obtain ⟨rest, hp, hs⟩ := List.infix_iff_prefix_suffix.1 hi
    have hnone := h rest hs
    rw [literal, if_pos (List.isPrefixOf_iff_prefix.2 hp)] at hnone
    cases hnone
  · intro h rest hs
    rw [literal, if_neg]
    exact fun hp => h ((List.isPrefixOf_iff_prefix.1 hp).isInfix.trans hs.isInfix)

end Rules

end Reckon.Text
