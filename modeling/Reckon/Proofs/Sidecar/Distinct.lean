import Reckon.Proofs.Sidecar.Respelling

/-!
When two expressions are sent as one text. Respelling loses nothing but names: trees with the
same text differ in bases of ten at most if they have the same variables in the same order. The
name that Euler's number gets is not looked for among the variables, and one of that name is
sent as Euler's number is.
-/

namespace Reckon.Expr

variable {ρ σ : String → String} {t u : Expr}

section Names

/-- Trees that become the same have as many variables. -/
theorem length_variableNames_of_respell (h : t.respell ρ = u.respell ρ) :
    t.variableNames.length = u.variableNames.length := by
  have hnames : t.variableNames.map ρ = u.variableNames.map ρ := by
    rw [← variableNames_respell, h, variableNames_respell]
  simpa using congrArg List.length hnames

/-- No other tree with all bases becomes the same under new names and has the same names. -/
def KeptApart (ρ : String → String) (t : Expr) : Prop :=
  ∀ u : Expr, u.Based → t.respell ρ = u.respell ρ → t.variableNames = u.variableNames → t = u

theorem eq_of_map_respell {es es' : List Expr} (ih : ∀ e ∈ es, e.KeptApart ρ)
    (hbased : ∀ e ∈ es', e.Based) (h : es.map (respell ρ) = es'.map (respell ρ))
    (hv : es.flatMap variableNames = es'.flatMap variableNames) : es = es' := by
  induction es generalizing es' with
  | nil => exact (List.map_eq_nil_iff.1 h.symm).symm
  | cons e es ih' =>
      obtain ⟨e', es', rfl, he, hes⟩ := List.map_eq_cons_iff.1 h.symm
      obtain ⟨hbase, hbases⟩ := List.forall_mem_cons.1 hbased
      obtain ⟨hfirst, hrest⟩ := List.forall_mem_cons.1 ih
      obtain ⟨hv, hvs⟩ := List.append_inj hv (length_variableNames_of_respell he.symm)
      rw [hfirst e' hbase he.symm hv, ih' hrest hbases hes.symm hvs]

theorem keptApart_of_based (h : t.Based) : t.KeptApart ρ := by
  induction t with
  | number value =>
      intro u hu heq hv
      cases u with
      | number value' => exact heq
      | call => simp [respell_call (based_call.1 hu).1] at heq
      | _ => simp at heq
  | var name =>
      intro u hu heq hv
      cases u with
      | var name' => simpa using hv
      | call => simp [respell_call (based_call.1 hu).1] at heq
      | _ => simp at heq
  | binary op l r ihl ihr =>
      intro u hu heq hv
      cases u with
      | binary op' l' r' =>
          obtain ⟨rfl, hl, hr⟩ := binary.inj heq
          obtain ⟨hbl, hbr⟩ := based_binary.1 h
          obtain ⟨hbl', hbr'⟩ := based_binary.1 hu
          rw [variableNames_binary, variableNames_binary] at hv
          obtain ⟨hvl, hvr⟩ := List.append_inj hv (length_variableNames_of_respell hl)
          rw [ihl hbl l' hbl' hl hvl, ihr hbr r' hbr' hr hvr]
      | call => simp [respell_call (based_call.1 hu).1] at heq
      | _ => simp at heq
  | neg e ih =>
      intro u hu heq hv
      cases u with
      | neg e' => rw [ih (based_neg.1 h) e' (based_neg.1 hu) (neg.inj heq) (by simpa using hv)]
      | call => simp [respell_call (based_call.1 hu).1] at heq
      | _ => simp at heq
  | factorial e ih =>
      intro u hu heq hv
      cases u with
      | factorial e' =>
          rw [ih (based_factorial.1 h) e' (based_factorial.1 hu) (factorial.inj heq)
            (by simpa using hv)]
      | call => simp [respell_call (based_call.1 hu).1] at heq
      | _ => simp at heq
  | call func args ih =>
      intro u hu heq hv
      obtain ⟨hcall, hargs⟩ := based_call.1 h
      rw [respell_call hcall] at heq
      cases u with
      | call func' args' =>
          obtain ⟨hcall', hargs'⟩ := based_call.1 hu
          rw [respell_call hcall'] at heq
          obtain ⟨rfl, hmap⟩ := call.inj heq
          rw [variableNames_call, variableNames_call] at hv
          rw [eq_of_map_respell (fun e he => ih e he (hargs e he)) hargs' hmap hv]
      | _ => simp at heq
  | list items ih =>
      intro u hu heq hv
      cases u with
      | list items' =>
          rw [respell_list, respell_list] at heq
          have hitems := based_list.1 h
          rw [variableNames_list, variableNames_list] at hv
          rw [eq_of_map_respell (fun e he => ih e he (hitems e he)) (based_list.1 hu)
            (list.inj heq) hv]
      | call => simp [respell_call (based_call.1 hu).1] at heq
      | _ => simp at heq

end Names

/-- The trees are equal once both have their bases of ten written out. -/
def SameButBases (t u : Expr) : Prop := ∃ e, Respells id t e ∧ Respells id u e

theorem sameButBases_iff : SameButBases t u ↔ t.respell id = u.respell id := by
  constructor
  · rintro ⟨e, ht, hu⟩
    rw [← ht.eq_respell, hu.eq_respell]
  · exact fun h => ⟨_, respells_respell t, h ▸ respells_respell u⟩

theorem SameButBases.variableNames_eq (h : SameButBases t u) :
    t.variableNames = u.variableNames := by
  have hnames := congrArg variableNames (sameButBases_iff.1 h)
  rwa [variableNames_respell, variableNames_respell, List.map_id, List.map_id] at hnames

/-- Of trees that become the same, those with the same names differ in bases at most. -/
theorem sameButBases_iff_variableNames (h : t.respell ρ = u.respell ρ) :
    SameButBases t u ↔ t.variableNames = u.variableNames := by
  refine ⟨SameButBases.variableNames_eq, fun hv => sameButBases_iff.2 ?_⟩
  apply keptApart_of_based (based_respell t) (ρ := ρ) _ (based_respell u)
  · rw [respell_respell, respell_respell]
    exact h
  · rwa [variableNames_respell, variableNames_respell, List.map_id, List.map_id]

section Merged

/-- Euler's number and the variable with its other name, each in the other's place. -/
def exchangeEuler (name : String) : String :=
  if name = "e" then "E" else if name = "E" then "e" else name

theorem exchangeEuler_eq_self {name : String} :
    exchangeEuler name = name ↔ name ≠ "e" ∧ name ≠ "E" := by
  unfold exchangeEuler
  split
  · rename_i he
    simp [he]
  · split
    · rename_i hE
      simp [hE]
    · simp_all

theorem backendName_exchangeEuler (name : String) :
    backendName (exchangeEuler name) = backendName name := by
  unfold exchangeEuler
  split
  · rename_i he
    rw [he]
    rfl
  · split
    · rename_i hE
      rw [hE]
      rfl
    · rfl

theorem backendName_eq_euler {name : String} :
    backendName name = backendName "e" ↔ name = "e" ∨ name = "E" := by
  have heuler : backendName "e" = "E" := rfl
  rw [heuler, backendName]
  split
  · rename_i he
    simp [he]
  · rename_i hne
    simp [hne]

theorem printable_exchangeEuler (name : String) (h : (var name).Printable) :
    (var (exchangeEuler name)).Printable := by
  unfold exchangeEuler
  split
  · exact printable_var.2 ⟨by rfl, by decide⟩
  · split
    · exact printable_var.2 ⟨by rfl, by decide⟩
    · exact h

theorem backendForm_exchangeEuler (e : Expr) :
    (e.respell exchangeEuler).backendForm = e.backendForm := by
  have hcomp : backendName ∘ exchangeEuler = backendName := funext backendName_exchangeEuler
  rw [backendForm_eq_respell, backendForm_eq_respell, respell_respell, hcomp]

theorem map_backendName_eq_self {names : List String} (h : "e" ∉ names) :
    names.map backendName = names := by
  refine (List.map_congr_left fun name hname => ?_).trans (List.map_id names)
  have hne : name ≠ "e" := by
    rintro rfl
    exact h hname
  exact if_neg hne

/-- A tree with no name to exchange has the names of every tree that becomes the same. -/
theorem variableNames_eq_of_backendForm (he : "e" ∉ t.variableNames) (hE : "E" ∉ t.variableNames)
    (h : t.respell backendName = u.respell backendName) : t.variableNames = u.variableNames := by
  have hnames : t.variableNames.map backendName = u.variableNames.map backendName := by
    rw [← variableNames_respell, h, variableNames_respell]
  rw [map_backendName_eq_self he] at hnames
  have he' : "e" ∉ u.variableNames := by
    intro hmem
    apply hE
    rw [hnames]
    exact List.mem_map_of_mem (f := backendName) hmem
  rw [hnames, map_backendName_eq_self he']

end Merged

theorem backendForm_text_eq_iff (ht : t.Readable) (hu : u.Readable) :
    t.backendForm.text = u.backendForm.text ↔ t.respell backendName = u.respell backendName := by
  rw [← backendForm_eq_respell, ← backendForm_eq_respell]
  exact ⟨ht.backendForm.eq_of_text hu.backendForm, congrArg text⟩

/-- Two trees that were read are sent as one text exactly if they become the same tree when
Euler's number is renamed and bases of ten are written out. They are then equal, bases of ten
apart, exactly if they have the same variables in the same places. No other tree is sent as a
given one is exactly if that one mentions neither Euler's number nor a variable with its other
name: of all variables, this one alone is sent as Euler's number. -/
theorem backendForm_text_distinguishes_iff {position : Nat} {cs : List Char} {parsed : Parsed}
    (h : Expr.parseAt position cs = .ok parsed) :
    (∀ position' cs' parsed', Expr.parseAt position' cs' = .ok parsed' →
      (parsed.expr.backendForm.text = parsed'.expr.backendForm.text ↔
        ∃ e, Respells backendName parsed.expr e ∧ Respells backendName parsed'.expr e) ∧
      (parsed.expr.backendForm.text = parsed'.expr.backendForm.text →
        (SameButBases parsed.expr parsed'.expr ↔
          parsed.expr.variableNames = parsed'.expr.variableNames))) ∧
    ((∀ position' cs' parsed', Expr.parseAt position' cs' = .ok parsed' →
        parsed.expr.backendForm.text = parsed'.expr.backendForm.text →
        SameButBases parsed.expr parsed'.expr) ↔
      "e" ∉ parsed.expr.variableNames ∧ "E" ∉ parsed.expr.variableNames) ∧
    ∀ name, (var name).backendForm = (var "e").backendForm ↔ name = "e" ∨ name = "E" := by
  have hread := Readable.of_parseAt h
  refine ⟨fun position' cs' parsed' h' => ⟨?_, fun heq => ?_⟩, ⟨fun hall => ?_, ?_⟩, fun name => ?_⟩
  · rw [backendForm_text_eq_iff hread (.of_parseAt h')]
    constructor
    · exact fun heq => ⟨_, respells_respell _, heq ▸ respells_respell _⟩
    · rintro ⟨e, he, he'⟩
      rw [← he.eq_respell, he'.eq_respell]
  · rw [backendForm_text_eq_iff hread (.of_parseAt h')] at heq
    exact sameButBases_iff_variableNames heq
  · -- the tree with the two names exchanged is sent as the same text
    obtain ⟨parsed', h', hexpr⟩ := (hread.respell printable_exchangeEuler).parse_text
    have hsame := hall 0 _ parsed' h' (by rw [hexpr, backendForm_exchangeEuler])
    have hnames := hsame.variableNames_eq
    rw [hexpr, variableNames_respell] at hnames
    have hfixed := List.map_inj_left.1 ((List.map_id _).trans hnames)
    constructor
    · exact fun he => (exchangeEuler_eq_self.1 (hfixed "e" he).symm).1 rfl
    · exact fun hE => (exchangeEuler_eq_self.1 (hfixed "E" hE).symm).2 rfl
  · rintro ⟨he, hE⟩ position' cs' parsed' h' heq
    rw [backendForm_text_eq_iff hread (.of_parseAt h')] at heq
    exact (sameButBases_iff_variableNames heq).2 (variableNames_eq_of_backendForm he hE heq)
  · rw [backendForm_eq_respell, backendForm_eq_respell, respell_var, respell_var, var.injEq,
      backendName_eq_euler]

/-- Where both stand in one expression, they are no longer told apart. -/
theorem backendForm_merges_euler :
    ∃ parsed parsed', Expr.parse "e - E" = .ok parsed ∧ Expr.parse "E - E" = .ok parsed' ∧
      parsed.expr.backendForm.text = "E - E" ∧ parsed'.expr.backendForm.text = "E - E" ∧
      ¬ SameButBases parsed.expr parsed'.expr := by
  have h : (Expr.parse "e - E").toOption.map
      (fun parsed => (parsed.expr.backendForm.text, parsed.expr.variableNames)) =
        some ("E - E", ["e", "E"]) := by decide +kernel
  have h' : (Expr.parse "E - E").toOption.map
      (fun parsed => (parsed.expr.backendForm.text, parsed.expr.variableNames)) =
        some ("E - E", ["E", "E"]) := by decide +kernel
  obtain ⟨parsed, hp, heq⟩ := exists_of_map_toOption h
  obtain ⟨parsed', hp', heq'⟩ := exists_of_map_toOption h'
  obtain ⟨htext, hnames⟩ := Prod.mk.inj heq
  obtain ⟨htext', hnames'⟩ := Prod.mk.inj heq'
  refine ⟨parsed, parsed', hp, hp', htext, htext', fun hsame => ?_⟩
  have hvariables := hsame.variableNames_eq
  rw [hnames, hnames'] at hvariables
  exact absurd hvariables (by decide)

theorem backendForm_text_distinguishes_bases :
    ∃ parsed parsed', Expr.parse "log(x) - E2" = .ok parsed ∧
      Expr.parse "log(x, 10) - E2" = .ok parsed' ∧
      SameButBases parsed.expr parsed'.expr := by
  have h : (Expr.parse "log(x) - E2").toOption.map
      (fun parsed => (parsed.expr.backendForm.text, parsed.expr.variableNames)) =
        some ("log(x, 10) - E2", ["x", "E2"]) := by decide +kernel
  have h' : (Expr.parse "log(x, 10) - E2").toOption.map (·.expr.backendForm.text) =
      some "log(x, 10) - E2" := by decide +kernel
  obtain ⟨parsed, hp, heq⟩ := exists_of_map_toOption h
  obtain ⟨parsed', hp', htext'⟩ := exists_of_map_toOption h'
  obtain ⟨htext, hnames⟩ := Prod.mk.inj heq
  refine ⟨parsed, parsed', hp, hp', ?_⟩
  apply (backendForm_text_distinguishes_iff hp).2.1.2 _ 0 _ parsed' hp' (htext.trans htext'.symm)
  rw [hnames]
  decide

end Reckon.Expr
