import Reckon.Proofs.Calculator.Exchange
import Reckon.Proofs.Normalize.Accepted

/-!
Normalising what was normalised. Each stage is gone through once, so a later stage may leave
what an earlier one would have dropped, and the text then changes again. It does not exactly
if nothing of the kind is left, and the text is evaluated to the same outcome if so.
-/

namespace Reckon

namespace Text

variable {rule : Rule} {written cs : List Char} {c : Char}

/-- Where a character of the result comes from: it is kept at a place where the rule does not
apply, or it is written at one where it does. -/
theorem mem_replaceFrom {n : Nat} (h : c ∈ replaceFrom rule n written cs) :
    c ∈ written ∨ (∃ rest, c :: rest <:+ cs ∧ rule (c :: rest) = none) ∨
      ∃ rest replacement length, rest <:+ cs ∧ rule rest = some (replacement, length) ∧
        c ∈ replacement := by
  induction cs generalizing n written with
  | nil => exact .inl (by simpa [replaceFrom] using h)
  | cons d cs ih =>
      have hweaken {written' : List Char} {m : Nat} (h : c ∈ replaceFrom rule m written' cs) :
          c ∈ written' ∨ (∃ rest, c :: rest <:+ d :: cs ∧ rule (c :: rest) = none) ∨
            ∃ rest replacement length, rest <:+ d :: cs ∧
              rule rest = some (replacement, length) ∧ c ∈ replacement := by
        have hs := List.suffix_cons d cs
        obtain hw | ⟨rest, hr, hn⟩ | ⟨rest, replacement, length, hr, hm⟩ := ih h
        · exact .inl hw
        · exact .inr (.inl ⟨rest, hr.trans hs, hn⟩)
        · exact .inr (.inr ⟨rest, replacement, length, hr.trans hs, hm⟩)
      cases n with
      | succ n => exact hweaken h
      | zero =>
          cases hrule : rule (d :: cs) with
          | none =>
              rw [replaceFrom_keep hrule] at h
              obtain hw | hrest := hweaken h
              · cases List.mem_cons.1 hw with
                | inl he =>
                    subst he
                    exact .inr (.inl ⟨cs, List.suffix_refl _, hrule⟩)
                | inr hw => exact .inl hw
              · exact .inr hrest
          | some result =>
              obtain ⟨replacement, length⟩ := result
              rw [replaceFrom, hrule] at h
              obtain hw | hrest := hweaken h
              · cases List.mem_append.1 hw with
                | inl hm =>
                    exact .inr (.inr ⟨_, replacement, length, List.suffix_refl _, hrule,
                      List.mem_reverse.1 hm⟩)
                | inr hw => exact .inl hw
              · exact .inr hrest

/-- What a rule that writes no such character makes of a text has one only where the rule
does not apply. -/
theorem mem_replaceAll (hrule : ∀ cs replacement length, rule cs = some (replacement, length) →
      c ∈ replacement → c ∈ cs) (h : c ∈ replaceAll rule cs) : c ∈ cs := by
  obtain hw | ⟨rest, hr, -⟩ | ⟨rest, replacement, length, hr, hm, hc⟩ := mem_replaceFrom h
  · cases hw
  · exact hr.subset List.mem_cons_self
  · exact hr.subset (hrule rest replacement length hm hc)

end Text
namespace Normalize

variable {cs : List Char} {c : Char}

section Letters
open Latex

theorem mem_of_group? {body : List Char} {n : Nat} (h : group? cs = some (body, n))
    (hc : c ∈ body) : c ∈ cs := by
  obtain ⟨gap, htake⟩ := take_of_group? h
  have hm : c ∈ cs.take n := by simp [htake, hc]
  exact List.mem_of_mem_take hm

/-- The characters that fractions and roots are written with. -/
def written : List Char := "sqrt()/".toList

theorem not_mem_of_subset (hc : c ∉ written) (word : String) (h : word.toList ⊆ written) :
    c ∉ word.toList := fun hm => hc (h hm)

theorem mem_of_fraction (hc : c ∉ written) {replacement : List Char} {length : Nat}
    (h : fraction cs = some (replacement, length)) (hm : c ∈ replacement) : c ∈ cs := by
  unfold fraction at h
  dsimp only at h
  split at h
  · obtain ⟨⟨above, n⟩, habove, h⟩ := Option.bind_eq_some_iff.1 h
    obtain ⟨⟨below, m⟩, hbelow, h⟩ := Option.bind_eq_some_iff.1 h
    cases h
    simp only [List.mem_append, not_mem_of_subset hc "(" (by decide),
      not_mem_of_subset hc ")/(" (by decide), not_mem_of_subset hc ")" (by decide), false_or,
      or_false] at hm
    cases hm with
    | inl hm => exact List.mem_of_mem_drop (mem_of_group? habove hm)
    | inr hm => exact List.mem_of_mem_drop (mem_of_group? hbelow hm)
  · cases h

theorem mem_of_root (hc : c ∉ written) {replacement : List Char} {length : Nat}
    (h : root cs = some (replacement, length)) (hm : c ∈ replacement) : c ∈ cs := by
  unfold root at h
  dsimp only at h
  split at h
  · obtain ⟨⟨body, n⟩, hbody, h⟩ := Option.bind_eq_some_iff.1 h
    cases h
    simp only [List.mem_append, not_mem_of_subset hc "sqrt(" (by decide),
      not_mem_of_subset hc ")" (by decide), false_or, or_false] at hm
    exact List.mem_of_mem_drop (mem_of_group? hbody hm)
  · cases h

theorem mem_of_passes (hc : c ∉ written) (bound : Nat) (h : c ∈ passes bound cs) : c ∈ cs := by
  induction bound generalizing cs with
  | zero => exact h
  | succ bound ih =>
      rw [passes_succ] at h
      have hroot := Text.mem_replaceAll (fun _ _ _ => mem_of_root hc) (ih h)
      exact Text.mem_replaceAll (fun _ _ _ => mem_of_fraction hc) hroot

theorem pi_not_mem_replaceSymbols (cs : List Char) : 'π' ∉ replaceSymbols cs := by
  have hsplit : ∃ ds, replaceSymbols cs = Text.replaceAll (Text.literal "√(" "sqrt(")
      (Text.replaceAll (Text.literal "π" "pi") ds) := by
    have hsymbols : symbols = symbols.take 12 ++ [("π", "pi"), ("√(", "sqrt(")] := by decide
    rw [replaceSymbols]
    nth_rewrite 1 [hsymbols]
    rw [List.foldl_append]
    exact ⟨_, rfl⟩
  have hroot : ∀ cs replacement length,
      Text.literal "√(" "sqrt(" cs = some (replacement, length) → 'π' ∈ replacement → 'π' ∈ cs := by
    intro cs replacement length hrule hm
    obtain ⟨-, rfl, -⟩ := Text.literal_eq_some.1 hrule
    exact absurd hm (by decide)
  obtain ⟨ds, hds⟩ := hsplit
  rw [hds]
  intro h
  obtain hw | ⟨rest, -, hnone⟩ | ⟨rest, replacement, length, -, hrule, hm⟩ :=
    Text.mem_replaceFrom (Text.mem_replaceAll hroot h)
  · cases hw
  · have hsome : Text.literal "π" "pi" ('π' :: rest) = some ("pi".toList, 1) :=
      Text.literal_eq_some.2 ⟨⟨rest, rfl⟩, rfl, rfl⟩
    rw [hnone] at hsome
    cases hsome
  · obtain ⟨-, rfl, -⟩ := Text.literal_eq_some.1 hrule
    exact absurd hm (by decide)

/-- The letter π does not come out of normalising. -/
theorem pi_not_mem_normalizeChars (cs : List Char) : 'π' ∉ normalizeChars cs := by
  intro h
  have hexpand := (sublist_trim _).subset h
  exact pi_not_mem_replaceSymbols _ (mem_of_passes (by decide) _ hexpand)

end Letters

theorem trim_normalizeChars (cs : List Char) : Text.trim (normalizeChars cs) = normalizeChars cs :=
  trim_trim _

theorem normalizeChars_again_iff :
    normalizeChars (normalizeChars cs) = normalizeChars cs ↔ Normal (normalizeChars cs) :=
  normalizeChars_eq_self_iff.trans (and_iff_right (trim_normalizeChars cs))

end Normalize
section Echo

variable {text : String}

theorem normalize_again_iff_normal :
    normalize (normalize text) = normalize text ↔ Normalize.Normal (normalize text).toList := by
  rw [normalize, normalize, String.toList_ofList, ← Normalize.normalizeChars_again_iff,
    String.ofList_inj]

/-- What comes out of normalising and is read as a statement is kept, if it does not begin
with a prompt. -/
theorem normalize_again_of_parse {statement : Statement}
    (h : Statement.parse (normalize text) = .ok statement)
    (hprompt : Normalize.afterPrompt? (normalize text).toList = none) :
    normalize (normalize text) = normalize text := by
  have htrim : Text.trim (normalize text).toList = (normalize text).toList := by
    rw [normalize, String.toList_ofList, Normalize.trim_normalizeChars]
  have hpi : 'π' ∉ (normalize text).toList := by
    rw [normalize, String.toList_ofList]
    exact Normalize.pi_not_mem_normalizeChars _
  rw [← htrim] at hprompt
  obtain ⟨hkept, -⟩ := normalize_of_parse h hpi hprompt
  rw [htrim, String.ofList_toList] at hkept
  exact hkept

namespace Calculator

theorem record_expression (reply : List Request → Reply) (b : Bindings) :
    (record reply b text).1.expression = normalize text := by
  cases hs : Statement.parse (normalize text) with
  | error f => rw [record_of_error reply b text hs]
  | ok statement =>
      have hopening : (opening text statement).expression = normalize text := by
        cases statement <;> rfl
      rw [record_of_ok reply b text hs]
      cases Plan.ofStatement b statement with
      | settled outcome => rw [carryOut_settled, hopening]
      | ask request => rw [carryOut_ask, hopening]

/-- Only the source of an evaluation tells apart texts that are the same once normalised. -/
theorem record_congr_normalize (reply : List Request → Reply) (b : Bindings) {text' : String}
    (h : normalize text' = normalize text) :
    record reply b text' =
      ({ (record reply b text).1 with source := text' }, (record reply b text).2) := by
  cases hs : Statement.parse (normalize text) with
  | error f =>
      rw [record_of_error reply b text hs, record_of_error reply b text' (h.symm ▸ hs), h]
  | ok statement =>
      rw [record_of_ok reply b text hs, record_of_ok reply b text' (h.symm ▸ hs)]
      have hopening :
          opening text' statement = { opening text statement with source := text' } := by
        cases statement <;> simp only [opening, h]
      rw [hopening]
      cases Plan.ofStatement b statement with
      | settled outcome => rfl
      | ask request => simp only [carryOut_ask]

end Calculator

end Echo

/-- Normalising once more keeps what was normalised exactly if there is nothing left in it
that would be dropped at an end or replaced; a statement without a prompt in front of it has
nothing of the kind. What is kept is evaluated again to the same outcome, with the same
requests. -/
theorem normalize_again_iff (text : String) :
    let echo := normalize text
    (normalize echo = echo ↔ Normalize.Normal echo.toList) ∧
    (∀ statement, Statement.parse echo = .ok statement →
      Normalize.afterPrompt? echo.toList = none → normalize echo = echo) ∧
    (normalize echo = echo → ∀ reply b,
      (Calculator.record reply b text).1.expression = echo ∧
      Calculator.record reply b echo =
        ({ (Calculator.record reply b text).1 with source := echo },
          (Calculator.record reply b text).2)) := by
  intro echo
  refine ⟨normalize_again_iff_normal, fun statement => normalize_again_of_parse, ?_⟩
  intro hkept reply b
  exact ⟨Calculator.record_expression reply b, Calculator.record_congr_normalize reply b hkept⟩

/-- The second prompt is still there when the first one is dropped. -/
theorem normalize_again_prompt :
    normalize (normalize "what is what is 2+2") ≠ normalize "what is what is 2+2" := by
  decide +kernel

end Reckon
