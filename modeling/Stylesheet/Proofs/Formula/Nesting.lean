/-
The limit of nesting. Only brackets and minus signs in front of an operand are checked against it, each of which opens
one level more than was open before it (`State.exists_step_of_opens`). So a lower limit does nothing but end the reading
at the first of them that goes beyond it (`parse_nesting`).
-/
import Stylesheet.Proofs.Formula.Shape

namespace Stylesheet.Formula

/-! ## Levels -/

namespace State

variable {limits : Limits} {formula : String} {s next : State} {t : Token} {ts : List Token}

/-- Brackets and minus signs that are open between two tokens. -/
def opened : State → Nat
  | operand level outer => depth level outer
  | operator _ _ outer => depth {} outer

/-- The token opens a level: a bracket, or a minus sign in front of an operand. -/
def Opens : State → Lexeme → Prop
  | operand .., .minus => True
  | operand .., .openBracket => True
  | _, _ => False

/-- What opens a level is checked against the limit of nesting, and nothing else of it is. -/
theorem exists_step_of_opens (h : s.Opens t.lexeme) : ∃ next : State, next.opened = s.opened + 1 ∧
    ∀ limits formula, step limits formula s t = (limits.checkNesting (s.opened + 1)).map fun _ => next := by
  obtain ⟨lexeme, position⟩ := t
  cases s with
  | operand level outer =>
    cases lexeme with
    | minus =>
      refine ⟨operand { level with minuses := position :: level.minuses } outer, ?_, fun limits formula => ?_⟩
      · show (position :: level.minuses).length + _ = level.minuses.length + _ + 1
        rw [List.length_cons, Nat.add_right_comm]
      · show (limits.checkNesting (depth level outer + 1)).bind _ = (limits.checkNesting (depth level outer + 1)).map _
        cases limits.checkNesting (depth level outer + 1) <;> rfl
    | openBracket =>
      refine ⟨operand {} (level :: outer), ?_, fun limits formula => ?_⟩
      · show 0 + (level.minuses.length + 1 + _) = level.minuses.length + _ + 1
        rw [Nat.zero_add, Nat.add_right_comm]
      · show (limits.checkNesting (depth level outer + 1)).bind _ = (limits.checkNesting (depth level outer + 1)).map _
        cases limits.checkNesting (depth level outer + 1) <;> rfl
    | number n | plus | star | slash | closeBracket => exact h.elim
  | operator sum term outer => exact h.elim

/-- What opens no level is read under any limit of nesting alike. -/
theorem step_of_not_opens (h : ¬ s.Opens t.lexeme) (nesting : Int) :
    step { limits with nesting } formula s t = step limits formula s t := by
  obtain ⟨lexeme, position⟩ := t
  cases s with
  | operand level outer => cases lexeme <;> first | rfl | exact absurd trivial h
  | operator sum term outer => rfl

/-- What opens no level leaves no more of them open, and if it is refused, then not for the limit of nesting. -/
theorem step_cases_of_not_opens (h : ¬ s.Opens t.lexeme) :
    (∃ next : State, step limits formula s t = .ok next ∧ next.opened ≤ s.opened) ∨
      ∃ e, step limits formula s t = .error e ∧ ∀ allowed actual, e ≠ .limitExceeded .nesting allowed actual := by
  obtain ⟨lexeme, position⟩ := t
  cases s with
  | operand level outer =>
    cases lexeme with
    | number n =>
      simp only [step, stepOperand, Limits.checkZeros]
      split
      · refine .inl ⟨_, rfl, ?_⟩
        show 0 + _ ≤ level.minuses.length + _
        omega
      · exact .inr ⟨_, rfl, fun _ _ h => by cases h⟩
    | minus | openBracket => exact absurd trivial h
    | plus | star | slash | closeBracket => exact .inr ⟨_, rfl, fun _ _ h => by cases h⟩
  | operator sum term outer =>
    cases lexeme with
    | plus | minus | star | slash => exact .inl ⟨_, rfl, le_rfl⟩
    | closeBracket =>
      cases outer with
      | nil => exact .inr ⟨_, rfl, fun _ _ h => by cases h⟩
      | cons level outer =>
        refine .inl ⟨_, rfl, ?_⟩
        show 0 + _ ≤ 0 + (level.minuses.length + 1 + _)
        omega
    | number n | openBracket => cases outer <;> exact .inr ⟨_, rfl, fun _ _ h => by cases h⟩

/-! ## The rest of a formula -/

/-- The expression of which the tokens are the rest. -/
def read (limits : Limits) (formula : String) (s : State) (ts : List Token) : Except Error Expr :=
  (ts.foldlM (step limits formula) s).bind (finish formula)

theorem read_cons :
    s.read limits formula (t :: ts) = (step limits formula s t).bind fun next => next.read limits formula ts := by
  rw [read, List.foldlM_cons]
  cases step limits formula s t <;> rfl

/-- The most levels that are open at once, up to the end or the token that is refused. -/
def deepest (limits : Limits) (formula : String) (s : State) : List Token → Nat
  | [] => s.opened
  | t :: ts =>
    match step limits formula s t with
    | .ok next => max s.opened (next.deepest limits formula ts)
    | .error _ => s.opened

theorem opened_le_deepest (s : State) (ts : List Token) : s.opened ≤ s.deepest limits formula ts := by
  cases ts with
  | nil => exact le_rfl
  | cons t ts =>
    rw [deepest]
    split
    · exact le_max_left ..
    · exact le_rfl

end State

/-! ## The limit -/

/-- No token of the formula is too deep. -/
def Unbounded (limits : Limits) (formula : String) : Prop :=
  ∀ allowed actual, parse limits formula ≠ .error (.limitExceeded .nesting allowed actual)

/-- The most brackets and minus signs that are open at once while a formula is read, up to its end or its error. -/
def deepest (limits : Limits) (formula : String) : Nat :=
  match tokens limits formula with
  | .ok ts => State.initial.deepest limits formula ts
  | .error _ => 0

namespace State

variable {limits : Limits} {formula : String} {s : State} {ts : List Token} {nesting : Int}

/-- The reading under a limit is that under a limit that nothing is too deep for, if it is not cut at the first level
that goes beyond the limit. -/
theorem read_eq (hs : (s.opened : Int) ≤ max limits.nesting 0)
    (hwide : ∀ allowed actual,
      s.read { limits with nesting } formula ts ≠ .error (.limitExceeded .nesting allowed actual)) :
    s.read limits formula ts =
      if (s.deepest { limits with nesting } formula ts : Int) ≤ max limits.nesting 0
      then s.read { limits with nesting } formula ts
      else .error (.limitExceeded .nesting limits.nesting (max limits.nesting 0 + 1)) := by
  induction ts generalizing s with
  | nil => exact (if_pos hs).symm
  | cons t ts ih =>
    rw [read_cons] at hwide
    -- both read on from the same state
    have hrest (next : State) (hstep : step { limits with nesting } formula s t = .ok next)
        (hlimited : step limits formula s t = .ok next) (hnext : (next.opened : Int) ≤ max limits.nesting 0) :
        s.read limits formula (t :: ts) =
          if (s.deepest { limits with nesting } formula (t :: ts) : Int) ≤ max limits.nesting 0 then
            s.read { limits with nesting } formula (t :: ts)
          else .error (.limitExceeded .nesting limits.nesting (max limits.nesting 0 + 1)) := by
      rw [hstep] at hwide
      rw [read_cons, read_cons, deepest, hstep, hlimited]
      refine (ih hnext hwide).trans (if_congr ?_ rfl rfl)
      dsimp only
      omega
    by_cases hopens : s.Opens t.lexeme
    · obtain ⟨next, hopened, hstep⟩ := exists_step_of_opens hopens
      have hroom : { limits with nesting }.checkNesting (s.opened + 1) = .ok () := by
        cases hcheck : { limits with nesting }.checkNesting (s.opened + 1) with
        | ok _ => rfl
        | error e =>
          rw [hstep, hcheck] at hwide
          unfold Limits.checkNesting at hcheck
          split at hcheck <;> cases hcheck
          exact absurd rfl (hwide _ _)
      have hnext : step { limits with nesting } formula s t = .ok next := by
        rw [hstep, hroom]
        rfl
      by_cases hfits : (s.opened : Int) + 1 > limits.nesting
      · -- nothing but the bracket or minus sign that is read now goes beyond the limit
        have hactual : (s.opened : Int) + 1 = max limits.nesting 0 + 1 := by omega
        have hdeep : next.opened ≤ next.deepest { limits with nesting } formula ts := next.opened_le_deepest ts
        rw [read_cons, hstep, Limits.checkNesting, if_pos hfits, hactual, deepest, hnext, if_neg]
        · rfl
        · dsimp only
          omega
      · refine hrest next hnext ?_ (by omega)
        rw [hstep, Limits.checkNesting, if_neg hfits]
        rfl
    · have hstep : step { limits with nesting } formula s t = step limits formula s t :=
        step_of_not_opens hopens nesting
      rcases step_cases_of_not_opens hopens with ⟨next, hnext, hle⟩ | ⟨e, he, -⟩
      · exact hrest next hnext (hstep.symm.trans hnext) (by omega)
      · rw [read_cons, read_cons, ← hstep, deepest, he]
        exact (if_pos hs).symm

/-- Nothing is too deep where there is room for as many levels as there are tokens. -/
theorem read_of_length_le (h : (s.opened + ts.length : Int) ≤ limits.nesting) (allowed actual : Int) :
    s.read limits formula ts ≠ .error (.limitExceeded .nesting allowed actual) := by
  induction ts generalizing s with
  | nil =>
    intro h
    cases s with
    | operand level outer => cases h
    | operator sum term outer => cases outer <;> cases h
  | cons t ts ih =>
    rw [List.length_cons] at h
    rw [read_cons]
    by_cases hopens : s.Opens t.lexeme
    · obtain ⟨next, hopened, hstep⟩ := exists_step_of_opens hopens
      rw [hstep, Limits.checkNesting, if_neg (by omega)]
      exact ih (s := next) (by omega)
    · rcases step_cases_of_not_opens hopens with ⟨next, hnext, hle⟩ | ⟨e, he, hne⟩
      · rw [hnext]
        exact ih (by omega)
      · rw [he]
        exact fun h => hne allowed actual (Except.error.inj h)

end State

theorem length_le_of_scan {position : Nat} {s : List Char} {ts : List Token} (h : scan position s = .ok ts) :
    ts.length ≤ s.length := by
  fun_induction scan position s generalizing ts with
  | case1 =>
    cases h
    exact le_rfl
  | case2 position c rest hc ih => exact (ih h).trans (Nat.le_succ _)
  | case3 position c rest hs lexeme hc ih =>
    obtain ⟨us, hus, rfl⟩ := except_map_ok h
    exact Nat.succ_le_succ (ih hus)
  | case4 position c rest hs hc n after hsplit hshorter ih =>
    obtain ⟨us, hus, rfl⟩ := except_map_ok h
    exact (Nat.succ_le_succ (ih hus)).trans hshorter
  | case5 => cases h

variable {limits : Limits} {formula : String}

theorem parse_of_tokens {ts : List Token} (h : tokens limits formula = .ok ts) :
    parse limits formula = State.initial.read limits formula ts := by
  rw [parse, h]
  rfl

theorem tokens_ne_nesting (allowed actual : Int) :
    tokens limits formula ≠ .error (.limitExceeded .nesting allowed actual) := by
  intro h
  unfold tokens at h
  cases hlength : limits.checkLength formula.toList.length with
  | error e =>
    rw [hlength] at h
    unfold Limits.checkLength at hlength
    split at hlength
    · split at hlength <;> cases hlength
      cases h
    · cases hlength
  | ok _ =>
    rw [hlength] at h
    cases hscan : scan 0 formula.toList <;> rw [hscan] at h <;> cases h

theorem unbounded_of_length_le (h : (formula.toList.length : Int) ≤ limits.nesting) : Unbounded limits formula := by
  intro allowed actual hparse
  cases hts : tokens limits formula with
  | error e =>
    rw [parse, hts] at hparse
    have he : e = .limitExceeded .nesting allowed actual := Except.error.inj hparse
    exact tokens_ne_nesting allowed actual (hts.trans (congrArg Except.error he))
  | ok ts =>
    have hlength := length_le_of_scan (tokens_eq_ok_iff.1 hts).2
    have hroom : (State.initial.opened + ts.length : Int) ≤ limits.nesting := by
      show ((0 : Nat) + ts.length : Int) ≤ limits.nesting
      omega
    rw [parse_of_tokens hts] at hparse
    exact State.initial.read_of_length_le hroom allowed actual hparse

/-- Any limit cuts the reading at the first bracket or minus sign that goes beyond it, and changes nothing else. -/
theorem parse_eq_of_unbounded {wide : Int} (hwide : Unbounded { limits with nesting := wide } formula) :
    parse limits formula =
      if (deepest { limits with nesting := wide } formula : Int) ≤ max limits.nesting 0 then
        parse { limits with nesting := wide } formula
      else .error (.limitExceeded .nesting limits.nesting (max limits.nesting 0 + 1)) := by
  -- the length and the tokens do not depend on the limit
  have htokens : tokens { limits with nesting := wide } formula = tokens limits formula := rfl
  cases hts : tokens limits formula with
  | error e =>
    have hparse : parse limits formula = parse { limits with nesting := wide } formula := by
      rw [parse, parse, htokens, hts]
      rfl
    rw [deepest, htokens, hts]
    exact hparse.trans (if_pos (le_max_right ..)).symm
  | ok ts =>
    unfold Unbounded at hwide
    rw [parse_of_tokens (htokens.trans hts)] at hwide ⊢
    rw [parse_of_tokens hts, deepest, htokens, hts]
    exact State.read_eq (le_max_right ..) hwide

/-- A limit of nesting under which nothing of a formula is too deep, such as the length of the formula, tells how deep
it goes. Any other limit leaves the formula as it is read, error or not, if the formula goes no deeper, and otherwise
cuts the reading at the first bracket or minus sign that does. So what can be read stays the same under a higher
limit. -/
theorem parse_nesting (limits : Limits) (formula : String) :
    (∀ wide : Int, formula.toList.length ≤ wide → Unbounded { limits with nesting := wide } formula) ∧
    (∀ wide : Int, Unbounded { limits with nesting := wide } formula →
      let m := deepest { limits with nesting := wide } formula
      (m = 0 ∨ m ≤ limits.nesting → parse limits formula = parse { limits with nesting := wide } formula) ∧
      (¬ (m = 0 ∨ m ≤ limits.nesting) →
        parse limits formula = .error (.limitExceeded .nesting limits.nesting (max limits.nesting 0 + 1)))) ∧
    ∀ higher : Int, limits.nesting ≤ higher → ∀ e, parse limits formula = .ok e →
      parse { limits with nesting := higher } formula = .ok e := by
  refine ⟨fun wide h => unbounded_of_length_le h, fun wide hwide => ?_, fun higher hhigher e he => ?_⟩
  · have hcut := parse_eq_of_unbounded hwide
    refine ⟨fun h => hcut.trans (if_pos ?_), fun h => hcut.trans (if_neg ?_)⟩ <;> omega
  · obtain ⟨hlength, d, hscan, hcount, hadmits, rfl⟩ := derivation_of_parse he
    exact parse_of_derivation hlength hscan hcount (hadmits.imp_right fun h => h.trans hhigher)

/-- Four levels are open where this formula breaks off, so limits below that are exceeded before its end is missed. -/
theorem parse_nesting_unfinished :
    parse {} "-(-2)/(-(-1" = .error (.missingBracket 11 "-(-2)/(-(-1") ∧ deepest {} "-(-2)/(-(-1" = 4 ∧
      parse { nesting := 3 } "-(-2)/(-(-1" = .error (.limitExceeded .nesting 3 4) ∧
      parse { nesting := -7 } "-(-2)/(-(-1" = .error (.limitExceeded .nesting (-7) 1) := by
  have hdeepest : deepest {} "-(-2)/(-(-1" = 4 := by decide +kernel
  have hcut (nesting : Int) (h : nesting < 4) : parse { nesting } "-(-2)/(-(-1" =
      .error (.limitExceeded .nesting nesting (max nesting 0 + 1)) := by
    obtain ⟨hwide, hnesting, -⟩ := parse_nesting { nesting } "-(-2)/(-(-1"
    have hlength : (("-(-2)/(-(-1".toList.length : Nat) : Int) ≤ 200 := by decide
    refine (hnesting 200 (hwide 200 hlength)).2 ?_
    show ¬ (deepest {} "-(-2)/(-(-1" = 0 ∨ (deepest {} "-(-2)/(-(-1" : Int) ≤ nesting)
    rw [hdeepest]
    omega
  exact ⟨by decide +kernel, hdeepest, hcut 3 (by decide), hcut (-7) (by decide)⟩

end Stylesheet.Formula
