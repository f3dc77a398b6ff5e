import Reckon.Proofs.Binary64.Operations
import Reckon.Proofs.Calculator.Scope

/-!
What a call of a higher-order function asks for, and what its request holds. A request is
made of exactly the calls that ask for one, and it holds what they ask for, but the order
of a derivative is cut down to what 32 bits hold.
-/

namespace Reckon

namespace Binary64

/-- The number has exactly this value. -/
def IsNat (x : Binary64) (n : Nat) : Prop := x.isFinite ∧ x.exact = (n * 2 ^ unitPlaces : Nat)

variable {x : Binary64} {n : Nat}

theorem one_le_iff (hx : x.isFinite) : 1 ≤ x ↔ (2 ^ unitPlaces : Nat) ≤ x.exact := by
  obtain ⟨hfinite, hexact⟩ := exact_ofNat (n := 1) (by decide)
  rw [Nat.one_mul] at hexact
  exact (le_iff (not_isNaN_of_isFinite hfinite) (not_isNaN_of_isFinite hx)).trans
    (exact_le_exact.symm.trans (hexact ▸ Iff.rfl))

/-- Whole numbers from one on, as they are told from other numbers. -/
theorem isNat_pos_iff :
    x.IsNat n ∧ 0 < n ↔ 1 ≤ x ∧ x.isWhole ∧ n = x.floorMagnitude := by
  have hone : one = 2 ^ unitPlaces := Nat.one_shiftLeft _
  have hpos : 0 < 2 ^ unitPlaces := Nat.two_pow_pos _
  have hexact : x.exact = units x.magnitude ∨ x.exact = -units x.magnitude := by
    rw [exact]
    split
    · exact .inr rfl
    · exact .inl rfl
  rw [IsNat, isWhole, floorMagnitude, hone, Bool.and_eq_true, beq_iff_eq]
  constructor
  · rintro ⟨⟨hx, hn⟩, hn0⟩
    have hle : 2 ^ unitPlaces ≤ n * 2 ^ unitPlaces := Nat.le_mul_of_pos_left _ hn0
    have hunits : units x.magnitude = n * 2 ^ unitPlaces := by omega
    rw [one_le_iff hx, hunits, Nat.mul_mod_left, Nat.mul_div_cancel n hpos]
    exact ⟨by omega, ⟨hx, rfl⟩, rfl⟩
  · rintro ⟨hle, ⟨hx, hmod⟩, rfl⟩
    rw [one_le_iff hx] at hle
    have hunits : units x.magnitude / 2 ^ unitPlaces * 2 ^ unitPlaces = units x.magnitude :=
      Nat.div_mul_cancel (Nat.dvd_of_mod_eq_zero hmod)
    refine ⟨⟨hx, ?_⟩, Nat.div_pos ?_ hpos⟩ <;> omega

end Binary64

namespace Request

/-- The variable that the arguments behind the first one name: the second argument, which
is no constant, or `x` where there is none. -/
inductive NamesVariable : List Expr → String → Prop
  | absent : NamesVariable [] "x"
  | named {name : String} {rest : List Expr} (hpi : name ≠ "pi") (he : name ≠ "e") :
      NamesVariable (.var name :: rest) name

/-- The order that they name: the value of the third argument, which is a positive whole
number, or one where there is none. -/
inductive NamesOrder : List Expr → Nat → Prop
  | absent {further : List Expr} (h : further.length ≤ 1) : NamesOrder further 1
  | number {second : Expr} {value : Binary64} {rest : List Expr} {order : Nat}
      (hvalue : value.IsNat order) (hpos : 0 < order) :
      NamesOrder (second :: .number value :: rest) order

/-- What they ask of a function for a variable. -/
inductive Asks (name : String) : Builtin → List Expr → Operation → Prop
  | derivative {further : List Expr} {order : Nat} (h : NamesOrder further order) :
      Asks name .diff further (.differentiate name order)
  | integral {further : List Expr} (h : further.length ≤ 1) :
      Asks name .integrate further (.integrate name none)
  | between {second lower upper : Expr} :
      Asks name .integrate [second, lower, upper] (.integrate name (some (lower, upper)))
  | sum {second lower upper : Expr} {rest : List Expr} :
      Asks name .sum (second :: lower :: upper :: rest) (.sum name lower upper)
  | limit {second point : Expr} {rest : List Expr} :
      Asks name .limit (second :: point :: rest) (.limit name point)

/-- What a call asks for. -/
inductive Translates : Expr → Request → Prop
  | call {f : Builtin} {name : String} {body : Expr} {further : List Expr} {op : Operation}
      (hvariable : NamesVariable further name) (hop : Asks name f further op) :
      Translates (.call f.name (body :: further)) ⟨op, body⟩

/-- The order of a derivative cut down to the greatest that a request holds. -/
def Operation.cut : Operation → Operation
  | .differentiate name order => .differentiate name (min order 4294967295)
  | op => op

variable {f : Builtin} {func name : String} {body : Expr} {further : List Expr} {op : Operation}

theorem Operation.cut_eq_self :
    op.cut = op ↔ ∀ name order, op = .differentiate name order → order ≤ 4294967295 := by
  cases op <;> simp [Operation.cut]

theorem variableArgument_eq_ok_iff :
    variableArgument func (body :: further) = .ok name ↔ NamesVariable further name := by
  rw [variableArgument_eq_ok, constant?_eq_none]
  constructor
  · rintro (⟨rfl, rfl⟩ | ⟨h, hpi, he⟩)
    · exact .absent
    · obtain ⟨rest, rfl⟩ := List.head?_eq_some_iff.1 h
      exact .named hpi he
  · rintro (_ | ⟨hpi, he⟩)
    · exact .inl ⟨rfl, rfl⟩
    · exact .inr ⟨rfl, hpi, he⟩

theorem orderArgument_eq_ok {order : Nat} :
    orderArgument (body :: further) = .ok order ↔
      ∃ asked, NamesOrder further asked ∧ order = min asked maxOrder := by
  constructor
  · intro h
    unfold orderArgument at h
    split at h
    · rename_i habsent
      cases h
      exact ⟨1, .absent (by simpa using habsent), by decide⟩
    · rename_i third hthird
      split at h
      · rename_i value
        split at h
        · rename_i hcheck
          cases h
          rw [Bool.and_eq_true, decide_eq_true_iff] at hcheck
          obtain ⟨hvalue, hpos⟩ := Binary64.isNat_pos_iff.2 ⟨hcheck.1, hcheck.2, rfl⟩
          match further, hthird with
          | second :: _ :: rest, hthird =>
              cases hthird
              exact ⟨_, .number hvalue hpos, rfl⟩
        · cases h
      · cases h
  · rintro ⟨asked, h, rfl⟩
    cases h with
    | absent h =>
        have habsent : (body :: further)[2]? = none := by simpa using h
        simp only [orderArgument, habsent]
        rfl
    | @number second value rest _ hvalue hpos =>
        obtain ⟨hle, hwhole, rfl⟩ := Binary64.isNat_pos_iff.1 ⟨hvalue, hpos⟩
        have hcheck : (decide (value ≥ 1) && value.isWhole) = true := by
          rw [Bool.and_eq_true, decide_eq_true_iff]
          exact ⟨hle, hwhole⟩
        exact if_pos hcheck

/-- An operation is made of exactly the arguments that ask for one. -/
theorem operationOf_eq_ok (hf : f.isHigherOrder) :
    operationOf f (body :: further) name = .ok op ↔
      ∃ asked, Asks name f further asked ∧ op = asked.cut := by
  cases f with
  | diff =>
      constructor
      · intro h
        obtain ⟨order, ho, h⟩ := bind_eq_ok.1 h
        obtain ⟨asked, hasked, rfl⟩ := orderArgument_eq_ok.1 ho
        cases h
        exact ⟨_, .derivative hasked, rfl⟩
      · rintro ⟨asked, h, rfl⟩
        cases h with
        | derivative h => exact bind_eq_ok.2 ⟨_, orderArgument_eq_ok.2 ⟨_, h, rfl⟩, rfl⟩
  | integrate =>
      constructor
      · intro h
        match further, h with
        | [], h | [_], h =>
            cases h
            exact ⟨_, .integral (by simp), rfl⟩
        | [_, lower, upper], h =>
            cases h
            exact ⟨_, .between, rfl⟩
      · rintro ⟨asked, h, rfl⟩
        cases h with
        | integral h =>
            match further, h with
            | [], _ | [_], _ => rfl
        | between => rfl
  | sum =>
      constructor
      · intro h
        obtain ⟨lower, hl, h⟩ := bind_eq_ok.1 h
        obtain ⟨upper, hu, h⟩ := bind_eq_ok.1 h
        cases h
        rw [requiredArgument_eq_ok] at hl hu
        match further, hl, hu with
        | _ :: _ :: _ :: _, rfl, rfl => exact ⟨_, .sum, rfl⟩
      · rintro ⟨asked, h, rfl⟩
        cases h
        rfl
  | limit =>
      constructor
      · intro h
        obtain ⟨point, hp, h⟩ := bind_eq_ok.1 h
        cases h
        rw [requiredArgument_eq_ok] at hp
        match further, hp with
        | _ :: _ :: _, rfl => exact ⟨_, .limit, rfl⟩
      · rintro ⟨asked, h, rfl⟩
        cases h
        rfl
  | _ => cases hf

theorem Asks.isHigherOrder (h : Asks name f further op) : f.isHigherOrder := by
  cases h <;> rfl

theorem ofCall_eq_ok_iff_translates {e : Expr} {request : Request} :
    ofCall e = .ok request ↔
      ∃ asked, Translates e asked ∧ request = ⟨asked.op.cut, asked.expression⟩ := by
  rw [ofCall_eq_ok]
  constructor
  · rintro ⟨func, body, further, f, name, op, rfl, hf, ho, hn, hop, rfl⟩
    obtain ⟨asked, hasked, rfl⟩ := (operationOf_eq_ok ho).1 hop
    cases Builtin.ofName?_eq_some.1 hf
    exact ⟨⟨asked, body⟩, .call (variableArgument_eq_ok_iff.1 hn) hasked, rfl⟩
  · rintro ⟨asked, h, rfl⟩
    cases h with
    | @call f name body further op hn hop =>
        exact ⟨f.name, body, further, f, name, op.cut, rfl, Builtin.ofName?_eq_some.2 rfl,
          hop.isHigherOrder, variableArgument_eq_ok_iff.2 hn,
          (operationOf_eq_ok hop.isHigherOrder).2 ⟨op, hop, rfl⟩, rfl⟩

theorem translates_derivative (order : Nat) (hpos : 0 < order) (hlt : order < 2 ^ 53) :
    Translates (.call "diff" [.var "x", .var "x", .number (.ofNat order)])
      ⟨.differentiate "x" order, .var "x"⟩ :=
  @Translates.call .diff "x" _ _ _ (.named (by decide) (by decide))
    (.derivative (.number (Binary64.exact_ofNat hlt) hpos))

/-- A request is made of exactly the calls that ask for one, and with what they ask for,
but the order of a derivative is 4294967295 where it is greater. So the request is the
one that is asked for exactly if the order is no greater than that. -/
theorem ofCall_translates (e : Expr) :
    (∀ request, ofCall e = .ok request ↔
      ∃ asked, Translates e asked ∧ request = ⟨asked.op.cut, asked.expression⟩) ∧
    ∀ asked, Translates e asked → (ofCall e = .ok asked ↔
      ∀ name order, asked.op = .differentiate name order → order ≤ 4294967295) := by
  refine ⟨fun request => ofCall_eq_ok_iff_translates, fun asked h => ?_⟩
  have hcut : ofCall e = .ok ⟨asked.op.cut, asked.expression⟩ :=
    ofCall_eq_ok_iff_translates.2 ⟨asked, h, rfl⟩
  rw [hcut, ← Operation.cut_eq_self, Except.ok.injEq]
  exact ⟨congrArg Request.op, fun h => by rw [h]⟩

/-- The greatest order that is kept. -/
theorem ofCall_translates_greatest_order :
    let e := Expr.call "diff" [.var "x", .var "x", .number 4294967295]
    let asked : Request := ⟨.differentiate "x" 4294967295, .var "x"⟩
    Translates e asked ∧ ofCall e = .ok asked := by
  have h := translates_derivative 4294967295 (by decide) (by decide)
  refine ⟨h, ((ofCall_translates _).2 _ h).2 ?_⟩
  intro name order hop
  cases hop
  decide

/-- The next one is not, and another derivative is asked for. -/
theorem order_not_kept :
    let e := Expr.call "diff" [.var "x", .var "x", .number 4294967296]
    Translates e ⟨.differentiate "x" 4294967296, .var "x"⟩ ∧
      ofCall e = .ok ⟨.differentiate "x" 4294967295, .var "x"⟩ := by
  have h := translates_derivative 4294967296 (by decide) (by decide)
  exact ⟨h, ofCall_eq_ok_iff_translates.2 ⟨_, h, rfl⟩⟩

end Request
end Reckon
