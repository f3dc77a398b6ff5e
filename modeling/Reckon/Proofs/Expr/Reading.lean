import Reckon.Proofs.Expr.Recognition
import Reckon.Proofs.Expr.Variables

/-!
The variables of a tree that was read are the names in its text that no function has,
in the order of the text and as often as they stand there. Where in the text each of
them stands is left to the tokens.
-/

namespace Reckon

/-- The variable that a token is, if it is one. -/
def Token.Kind.variableName? : Token.Kind → Option String
  | .identifier name => if Builtin.ofName? name = none then some name else none
  | _ => none

/-- The variables among the tokens, in their order. -/
def Token.variables (tokens : List Token) : List String :=
  tokens.filterMap (·.kind.variableName?)

namespace Grammar

variable {limit : Nat} {form : Form} {depth : Nat} {ks : List Token.Kind} {e : Expr}

theorem filterMap_variableName?_separated (items : List (List Token.Kind)) :
    (separated items).filterMap Token.Kind.variableName? =
      items.flatMap fun ks => ks.filterMap Token.Kind.variableName? := by
  induction items with
  | nil => rfl
  | cons ks rest ih =>
      cases rest with
      | nil => simp
      | cons ks' rest =>
          rw [separated_cons_cons, List.filterMap_append, List.flatMap_cons, ← ih]
          rfl

/-- Entries keep the order of variables if each of them does. -/
theorem variableNames_entries {entries : List (List Token.Kind × Expr)}
    (h : ∀ entry ∈ entries,
      entry.2.variableNames = entry.1.filterMap Token.Kind.variableName?) :
    (entries.map (·.2)).flatMap Expr.variableNames =
      (separated (entries.map (·.1))).filterMap Token.Kind.variableName? := by
  rw [filterMap_variableName?_separated, List.flatMap_map, List.flatMap_map]
  induction entries with
  | nil => rfl
  | cons entry rest ih =>
      obtain ⟨he, hrest⟩ := List.forall_mem_cons.1 h
      rw [List.flatMap_cons, List.flatMap_cons, he, ih hrest]

/-- A phrase has the variables of its tokens. -/
theorem Derives.variableNames (h : Derives limit form depth ks e) :
    e.variableNames = ks.filterMap Token.Kind.variableName? := by
  induction h with
  | ofProduct _ ih | ofUnary _ ih | ofPower _ _ ih | ofFactorial _ ih | ofPrimary _ ih =>
      exact ih
  | add _ _ ihl ihr | sub _ _ ihl ihr | mul _ _ ihl ihr | div _ _ ihl ihr
  | pow _ _ ihl ihr =>
      simp [List.filterMap_cons, Token.Kind.variableName?, ihl, ihr]
  | neg _ _ ih | factorial _ ih | group _ ih =>
      simp [List.filterMap_cons, Token.Kind.variableName?, ih]
  | number value => simp [Token.Kind.variableName?]
  | var hn => simp [Token.Kind.variableName?, hn]
  | call hf _ ih =>
      simp [List.filterMap_cons, Token.Kind.variableName?, hf, variableNames_entries ih]
  | list _ ih =>
      simp [List.filterMap_cons, Token.Kind.variableName?, variableNames_entries ih]

end Grammar

/-- A text that is read has tokens, and its tree has the variables among them. -/
theorem Expr.variableNames_of_parseAt {position : Nat} {cs : List Char} {parsed : Parsed}
    (h : Expr.parseAt position cs = .ok parsed) :
    ∃ tokens, Token.ofChars position cs = .ok tokens ∧
      parsed.expr.variableNames = Token.variables tokens := by
  obtain ⟨tokens, ht, -⟩ := bind_eq_ok.1 h
  obtain ⟨d, -⟩ := (Grammar.parseAt_eq_ok_iff ht).1 ⟨parsed, h, rfl⟩
  obtain ⟨front, rfl, -⟩ := Token.ofChars_lexical ht
  refine ⟨_, ht, ?_⟩
  rw [d.variableNames, List.dropLast_concat, List.filterMap_map]
  rw [Token.variables, List.filterMap_append]
  simp [Token.Kind.variableName?, Function.comp_def]

end Reckon
