/-
Formulas over numbers that are known. Once every name of a well-formed formula is a resolved number, the
formula pass gives the constant the value of the formula, if the numbers are finite. An infinity has no text
that a formula could hold, so a formula that names one, be it an alias, stops the resolution with an error
(`Stage.pass_of_numbers`).
-/
import Stylesheet.Proofs.Formula.Splicing
import Stylesheet.Proofs.Resolution.Steps

namespace Stylesheet

open Formula (names evaluate scanNames isName Atom Derivation)

variable {limits : Formula.Limits} {s : States} {c : Constant}

/-- A formula of numbers waits for nothing. -/
theorem formulaStep_of_numbers (rawValue : String) (hc : c.isComposite = false) (hr : c.isReference = true)
    (hnumbers : ∀ name ∈ names c.formula, ∃ x, s.numbers name = some x) :
    formulaStep limits s c (.pending rawValue) = match evaluate limits s.numbers c.formula with
      | .error cause => .error (.ofFormula (.formula c.name c.formula) cause)
      | .ok x => .ok (some (formulaOutcome s rawValue c.formula x)) := by
  have hresolved : ∀ name ∈ names c.formula, s.Resolves name := by
    intro name hname
    obtain ⟨x, hx⟩ := hnumbers name hname
    obtain ⟨value, hvalue, -⟩ := States.exists_of_numbers hx
    exact ⟨value, hvalue⟩
  have hknown : unknownName? s c.formula = none :=
    States.unknownName?_eq_none_iff.2 fun name hname => (hresolved name hname).contains
  have hready : (s.waitingFor c.formula).isEmpty = true :=
    States.waitingFor_isEmpty_iff.2 fun name hname _ => hresolved name hname
  cases hvalue : evaluate limits s.numbers c.formula <;>
    simp only [formulaStep_eq hc hr, hknown, hready, if_true, hvalue]

namespace Stage

theorem pass_cons_of_step {stage : Stage} {old new : Resolution} (hfound : s.find? c.name = some old)
    (hstep : stage.step s c old = .ok (some new)) (rest : List Constant) :
    stage.pass (c :: rest) s = (stage.pass rest (s.insert c.name new)).map fun p => (p.1, true) := by
  simp only [pass, hfound, hstep]

theorem pass_cons_of_error {stage : Stage} {old : Resolution} {e : ResolutionError} (hfound : s.find? c.name = some old)
    (hstep : stage.step s c old = .error e) (rest : List Constant) : stage.pass (c :: rest) s = .error e := by
  simp only [pass, hfound, hstep]

/-- When the formula pass reaches a reference that waits, with a well-formed formula all names of which are
resolved numbers: if they are finite, the constant gets the value of the formula, or fails if that is not a
number; an alias gets the number it names; and if one of them is infinite, the pass ends with an error. -/
theorem pass_of_numbers {s : States} {c : Constant} {rawValue : String} {d : Derivation Atom .expression}
    (hpending : s.find? c.name = some (.pending rawValue)) (hc : c.isComposite = false) (hr : c.isReference = true)
    (hd : scanNames 0 c.formula.toList = .ok d.named) (hnesting : d.nesting < 200)
    (hnumbers : ∀ name ∈ names c.formula, ∃ x, s.numbers name = some x ∧ x.isNaN = false) :
    ((∀ name ∈ names c.formula, ∀ x, s.numbers name = some x → x.isFinite = true) →
      ∃ x, (d.tree (Atom.value {} s.numbers)).eval = .ok x ∧ ∀ rest,
        (formulas {}).pass (c :: rest) s =
          ((formulas {}).pass rest (s.insert c.name (formulaOutcome s rawValue c.formula x))).map fun p =>
            (p.1, true)) ∧
    (∀ x, isName c.formula.toList = true → s.numbers c.formula = some x → x.isFinite = true →
      let value : Settled := ⟨Quantity.write ⟨x, s.inferUnit c.formula⟩, some x, s.inferUnit c.formula⟩
      ∀ rest, (formulas {}).pass (c :: rest) s =
        ((formulas {}).pass rest (s.insert c.name (.resolved value))).map fun p => (p.1, true)) ∧
    ∀ name ∈ names c.formula, ∀ negative, s.numbers name = some (.infinite negative) →
      ∃ e, ∀ rest, (formulas {}).pass (c :: rest) s = .error e := by
  have hstep : (formulas {}).step s c (.pending rawValue) = match evaluate {} s.numbers c.formula with
      | .error cause => .error (.ofFormula (.formula c.name c.formula) cause)
      | .ok x => .ok (some (formulaOutcome s rawValue c.formula x)) := by
    refine formulaStep_of_numbers rawValue hc hr fun name hname => ?_
    obtain ⟨x, hx, -⟩ := hnumbers name hname
    exact ⟨x, hx⟩
  have hfinite (h : ∀ name ∈ names c.formula, ∀ x, s.numbers name = some x → x.isFinite = true) :
      ∃ x, (d.tree (Atom.value {} s.numbers)).eval = .ok x ∧ evaluate {} s.numbers c.formula = .ok x := by
    have hcovers : Formula.Bindings.Covers s.numbers c.formula.toList := by
      intro text htext
      have hname := Formula.mem_names.2 ⟨text, htext, rfl⟩
      obtain ⟨y, hy, -⟩ := hnumbers _ hname
      exact ⟨y, hy, h _ hname y hy⟩
    have hvalue : evaluate {} s.numbers c.formula = (d.tree (Atom.value {} s.numbers)).eval :=
      Formula.evaluate_of_covers hd hcovers rfl (by decide) (Int.ofNat_lt.2 hnesting)
    obtain ⟨x, hx⟩ := d.exists_eval_tree (Atom.value {} s.numbers)
    exact ⟨x, hx, hvalue.trans hx⟩
  refine ⟨fun h => ?_, fun x hname hx hxfinite => ?_, fun name hname negative hinfinite => ?_⟩
  · obtain ⟨x, hx, hvalue⟩ := hfinite h
    rw [hvalue] at hstep
    exact ⟨x, hx, pass_cons_of_step hpending hstep⟩
  · have hnames : names c.formula = [c.formula] := Formula.names_of_isName hname
    obtain ⟨y, -, hvalue⟩ := hfinite fun name hmem z hz => by
      rw [hnames, List.mem_singleton] at hmem
      rw [hmem, hx] at hz
      cases hz
      exact hxfinite
    obtain ⟨x', hx', hnan, hround⟩ := Formula.evaluate_of_isName hname hvalue
    rw [hx] at hx'
    cases hx'
    rw [hround (by decide)] at hvalue
    rw [hvalue] at hstep
    refine pass_cons_of_step hpending (hstep.trans ?_)
    dsimp only
    rw [formulaOutcome, if_neg (by rw [Double.isNaN_of_isFinite hxfinite]; exact Bool.false_ne_true)]
  · obtain ⟨cause, hcause⟩ := Formula.evaluate_of_infinite {} hnumbers hname hinfinite
    rw [hcause] at hstep
    exact ⟨_, pass_cons_of_error hpending hstep⟩

/-- A product with a constant, which is its only name. -/
theorem pass_of_numbers_product :
    let table := Table.ofDeclarations {} [("gap", "4px", none), ("wide", "@2*gap", none)]
    let s := States.initial table
    let wide := Constant.define {} "wide" "@2*gap" none (.scalar .null)
    ∀ rest, (formulas {}).pass (wide :: rest) s =
      ((formulas {}).pass rest (s.insert "wide" (.resolved ⟨"8px", some (.ofInt 8), some "px"⟩))).map fun p =>
        (p.1, true) := by
  intro table s wide
  have hd : scanNames 0 wide.formula.toList = .ok
      (Derivation.named (.term (.product (.factor (.atom (.number ⟨['2'], none⟩) 0))
      .star 1 (.atom (.name ['g', 'a', 'p']) 2)))) := by
    decide +kernel
  have hpending : s.find? wide.name = some (.pending "@2*gap") := by decide +kernel
  have hgap : ∀ name ∈ names wide.formula, s.numbers name = some (.ofInt 4) := by decide +kernel
  obtain ⟨hvalue, -⟩ := pass_of_numbers hpending (by decide +kernel) (by decide +kernel) hd (by decide)
    fun name hname => ⟨_, hgap name hname, by decide +kernel⟩
  obtain ⟨x, hx, hpass⟩ := hvalue fun name hname y hy => by
    rw [hgap name hname] at hy
    obtain rfl := Option.some.inj hy
    decide +kernel
  have heval : (Derivation.tree (Atom.value {} s.numbers) (.term (.product (.factor (.atom (.number ⟨['2'], none⟩) 0))
      .star 1 (.atom (.name ['g', 'a', 'p']) 2)))).eval = .ok (.ofInt 8) := by
    decide +kernel
  rw [heval] at hx
  obtain rfl := Except.ok.inj hx
  have houtcome : formulaOutcome s "@2*gap" wide.formula (.ofInt 8) =
      .resolved ⟨"8px", some (.ofInt 8), some "px"⟩ := by
    decide +kernel
  rw [houtcome] at hpass
  exact hpass

/-- Division by zero gives an infinity, and the alias of an infinity keeps its whole table from being resolved. -/
theorem pass_of_infinite :
    let table := Table.ofDeclarations {} [("a", "@1/0", none), ("b", "@a", none)]
    let s := (States.initial table).insert "a" (.resolved ⟨"inf", some (.infinite false), none⟩)
    let b := Constant.define {} "b" "@a" none (.scalar .null)
    let d : Derivation Atom .expression := .term (.factor (.atom (.name ['a']) 0))
    let e := ResolutionError.formula "b" "a" (.strayCharacter 'i' 0 "inf")
    aliases.Stable table.constants.values (States.initial table) ∧
    (formulas {}).Runs table.constants.values (States.initial table) s ∧
    b ∈ table.constants.values ∧ s.find? "b" = some (.pending "@a") ∧ scanNames 0 b.formula.toList = .ok d.named ∧
    (∀ rest, (formulas {}).pass (b :: rest) s = .error e) ∧ ∃ e, Resolved.ofTable table {} = .error e := by
  intro table s b d e
  have hstep : (formulas {}).step s b (.pending "@a") = .error e := by decide +kernel
  have hpending : s.find? "b" = some (.pending "@a") := by decide +kernel
  have hkept : ∀ c ∈ table.constants.values, ∀ old ∈ (States.initial table).find? c.name,
      aliasStep (States.initial table) c old = .ok none := by
    decide +kernel
  have hfails : (Resolved.ofTable table {}).toBool = false := by decide +kernel
  refine ⟨hkept, ?_, ?_, hpending, by decide +kernel, pass_cons_of_error hpending hstep, ?_⟩
  · refine .single (Moves.intro (c := .define {} "a" "@1/0" none (.scalar .null)) (List.mem_cons_self ..) rfl ?_)
    decide +kernel
  · exact List.mem_cons_of_mem _ (List.mem_cons_self ..)
  · cases h : Resolved.ofTable table {} with
    | error e => exact ⟨e, rfl⟩
    | ok r => rw [h] at hfails; cases hfails

end Stage

end Stylesheet
