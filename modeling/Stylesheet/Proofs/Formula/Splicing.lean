/-
Values in the place of names, or names as variables. A derivation with names becomes one without when
each name gives way to the number that is spelled in its place: a factor too, if perhaps with a minus sign.
So it nests one level deeper at most, and its tree has the same value.
-/
import Mathlib.Tactic
import Stylesheet.Proofs.Formula.Scanning

namespace Stylesheet.Formula

open Stylesheet.Text (Numeral)

namespace Expr

theorem eval_negate (position : Nat) (operand : Expr) : (negate position operand).eval = operand.eval.map Double.neg :=
  evalWith_negate ..

theorem eval_binary (position : Nat) (operator : Operator) (left right : Expr) :
    (binary position operator left right).eval =
      left.eval.bind fun x => right.eval.bind fun y => Arithmetic.double.apply x y operator :=
  evalWith_binary ..

end Expr

/-! ## Derivations with names -/

/-- A number, or a name. -/
inductive Atom
  | number (n : Numeral)
  | name (text : List Char)
deriving DecidableEq, Repr

namespace Atom

def symbol : Atom → Nat → Symbol
  | number n, position => .token ⟨.number n, position⟩
  | name text, position => .name text position

/-- Names are worth their values. -/
def value (limits : Limits) (bindings : Bindings) : Atom → Double
  | number n => limits.numberValue n
  | name text => (bindings (String.ofList text)).getD .nan

end Atom

namespace Derivation

variable {c : Category}

/-- The tokens and names of a derivation. -/
def named (d : Derivation Atom c) : List Symbol :=
  d.symbols Atom.symbol fun lexeme position => .token ⟨lexeme, position⟩

/-- Between operands there is a sign or bracket. -/
theorem isChain_mark {ss us : List Symbol} {lexeme : Lexeme} (hs : ss.IsChain Symbol.Parted)
    (hu : us.IsChain Symbol.Parted)
    (position : Nat) (hl : Symbol.endsOperand (.token ⟨lexeme, position⟩) = false) :
    (ss ++ .token ⟨lexeme, position⟩ :: us).IsChain Symbol.Parted := by
  rw [List.isChain_append, List.isChain_cons]
  refine ⟨hs, ⟨fun u _ => ?_, hu⟩, fun s _ u hu => ?_⟩
  · intro h
    rw [hl] at h
    cases h
  · obtain rfl := Option.some.inj hu
    intro _ text position h
    cases h

theorem isChain_parted (d : Derivation Atom c) : d.named.IsChain Symbol.Parted := by
  induction d with
  | atom a position => exact .singleton _
  | negation position operand ih => exact isChain_mark .nil ih position rfl
  | brackets opening inner closing ih =>
    refine isChain_mark .nil (List.isChain_append.2 ⟨ih, .singleton _, fun s _ u hu => ?_⟩) opening rfl
    obtain rfl := Option.some.inj hu
    intro _ text position h
    cases h
  | factor only ih => exact ih
  | product left sign position right ihl ihr => exact isChain_mark ihl ihr position (by cases sign <;> rfl)
  | term only ih => exact ih
  | sum left sign position right ihl ihr => exact isChain_mark ihl ihr position (by cases sign <;> rfl)

theorem isChain_named (d : Derivation Atom c) : d.named.IsChain Symbol.Apart := by
  refine d.isChain_parted.imp fun s t h => ?_
  unfold Symbol.Apart
  split
  · exact h rfl _ _ rfl
  · trivial

/-- Trees of derivations have values. -/
theorem exists_eval_tree {α : Type} (value : α → Double) (d : Derivation α c) : ∃ x, (d.tree value).eval = .ok x := by
  induction d with
  | atom a position => exact ⟨value a, Expr.eval_number position _⟩
  | negation position operand ih =>
    obtain ⟨x, hx⟩ := ih
    refine ⟨x.neg, ?_⟩
    rw [tree, Expr.eval_negate, hx]
    rfl
  | brackets opening inner closing ih => exact ih
  | factor only ih => exact ih
  | product left sign position right ihl ihr =>
    obtain ⟨x, hx⟩ := ihl
    obtain ⟨y, hy⟩ := ihr
    rw [tree, Expr.eval_binary, hx, hy]
    cases sign <;> exact ⟨_, rfl⟩
  | term only ih => exact ih
  | sum left sign position right ihl ihr =>
    obtain ⟨x, hx⟩ := ihl
    obtain ⟨y, hy⟩ := ihr
    rw [tree, Expr.eval_binary, hx, hy]
    cases sign <;> exact ⟨_, rfl⟩

end Derivation

/-! ## Numbers for names -/

/-- The derivation without names has these tokens; it nests hardly deeper and has the same value. -/
structure Splices (limits : Limits) (b : Bindings) {c : Category} (d : Derivation Atom c) (ts : List Token)
    (d' : Derivation Numeral c) : Prop where
  tokens : d'.tokens = ts
  nesting : d'.nesting ≤ d.nesting + 1
  eval : (d'.tree limits.numberValue).eval = (d.tree (Atom.value limits b)).eval

/-- Every name of the derivation has a finite value. -/
def Bindings.CoversNames (b : Bindings) {c : Category} (d : Derivation Atom c) : Prop :=
  ∀ text position, .name text position ∈ d.named → ∃ x, b (String.ofList text) = some x ∧ x.isFinite = true

section Splice

variable {limits : Limits} {b : Bindings} {ts : List Token}

theorem exists_splices_name (hl : 17 ≤ limits.digits) {text : List Char} {x : Double}
    (hx : b (String.ofList text) = some x) (hfinite : x.isFinite = true) {position : Nat}
    (hts : ts.map (·.lexeme) = valueLexemes x) :
    ∃ d', Splices limits b (.atom (.name text) position) ts d' := by
  obtain ⟨negative, n, hspells⟩ := exists_spells hfinite
  have hvalue : Atom.value limits b (.name text) = x := by rw [Atom.value, hx, Option.getD_some]
  have hsigned := hspells.value limits hl
  rw [valueLexemes_of_spells hspells] at hts
  cases negative with
  | false =>
    obtain ⟨⟨lexeme, p⟩, rfl, rfl⟩ := List.map_eq_singleton_iff.1 hts
    refine ⟨.atom n p, rfl, Nat.zero_le _, ?_⟩
    rw [Derivation.tree, Derivation.tree, Expr.eval_number, Expr.eval_number, hvalue, ← hsigned, signed_false]
  | true =>
    obtain ⟨⟨sign, p⟩, us, rfl, rfl, hus⟩ := List.map_eq_cons_iff.1 hts
    obtain ⟨⟨lexeme, q⟩, rfl, rfl⟩ := List.map_eq_singleton_iff.1 hus
    refine ⟨.negation p (.atom n q), rfl, le_rfl, ?_⟩
    rw [Derivation.tree, Derivation.tree, Derivation.tree, Expr.eval_negate_number, Expr.eval_number, hvalue, ← hsigned,
      signed_true]

/-- Operands on both sides of a sign. -/
theorem exists_tokens_mark (ss : List Symbol) {us : List Symbol} {lexeme : Lexeme} {position : Nat}
    (hts : ts.map (·.lexeme) = (ss ++ .token ⟨lexeme, position⟩ :: us).flatMap (Symbol.lexemes b)) :
    ∃ ts₁ p ts₂, ts = ts₁ ++ ⟨lexeme, p⟩ :: ts₂ ∧ ts₁.map (·.lexeme) = ss.flatMap (Symbol.lexemes b) ∧
      ts₂.map (·.lexeme) = us.flatMap (Symbol.lexemes b) := by
  rw [List.flatMap_append, List.flatMap_cons] at hts
  obtain ⟨ts₁, rest, rfl, h₁, hts⟩ := List.map_eq_append_iff.1 hts
  obtain ⟨⟨lexeme', p⟩, ts₂, rfl, rfl, h₂⟩ := List.map_eq_cons_iff.1 hts
  exact ⟨ts₁, p, ts₂, rfl, h₁, h₂⟩

/-- Whatever tokens spell the names of a derivation, they are derived. -/
theorem exists_splices (hl : 17 ≤ limits.digits) {c : Category} {d : Derivation Atom c} (hb : b.CoversNames d)
    (hts : ts.map (·.lexeme) = d.named.flatMap (Symbol.lexemes b)) : ∃ d', Splices limits b d ts d' := by
  induction d generalizing ts with
  | atom a position =>
    cases a with
    | number n =>
      obtain ⟨⟨lexeme, p⟩, rfl, rfl⟩ := List.map_eq_singleton_iff.1 hts
      refine ⟨.atom n p, rfl, Nat.zero_le _, ?_⟩
      rw [Derivation.tree, Derivation.tree, Expr.eval_number, Expr.eval_number]
      rfl
    | name text =>
      obtain ⟨x, hx, hfinite⟩ := hb text position (List.mem_singleton_self _)
      refine exists_splices_name hl hx hfinite (hts.trans ?_)
      show valueLexemes ((b (String.ofList text)).getD .nan) ++ [] = _
      rw [hx, List.append_nil, Option.getD_some]
  | negation position operand ih =>
    obtain ⟨ts₁, p, ts₂, rfl, h₁, h₂⟩ := exists_tokens_mark [] hts
    obtain rfl := List.map_eq_nil_iff.1 h₁
    obtain ⟨d', htokens, hnesting, heval⟩ := ih (fun text q hq => hb text q (List.mem_cons_of_mem _ hq)) h₂
    refine ⟨.negation p d', ?_, Nat.succ_le_succ hnesting, ?_⟩
    · rw [← htokens]
      rfl
    · rw [Derivation.tree, Derivation.tree, Expr.eval_negate, Expr.eval_negate, heval]
  | brackets opening inner closing ih =>
    obtain ⟨ts₁, p, rest, rfl, h₁, hrest⟩ := exists_tokens_mark [] hts
    obtain rfl := List.map_eq_nil_iff.1 h₁
    obtain ⟨ts₂, q, ts₃, rfl, h₂, h₃⟩ := exists_tokens_mark inner.named hrest
    obtain rfl := List.map_eq_nil_iff.1 h₃
    have hinner : b.CoversNames inner := fun text r hr => hb text r (List.mem_cons_of_mem _ (List.mem_append_left _ hr))
    obtain ⟨d', htokens, hnesting, heval⟩ := ih hinner h₂
    refine ⟨.brackets p d' q, ?_, Nat.succ_le_succ hnesting, heval⟩
    rw [← htokens]
    rfl
  | factor only ih =>
    obtain ⟨d', htokens, hnesting, heval⟩ := ih hb hts
    exact ⟨.factor d', htokens, hnesting, heval⟩
  | product left sign position right ihl ihr =>
    obtain ⟨ts₁, p, ts₂, rfl, h₁, h₂⟩ := exists_tokens_mark left.named hts
    have hleft : b.CoversNames left := fun text q hq => hb text q (List.mem_append_left _ hq)
    have hright : b.CoversNames right :=
      fun text q hq => hb text q (List.mem_append_right _ (List.mem_cons_of_mem _ hq))
    obtain ⟨l, htl, hnl, hel⟩ := ihl hleft h₁
    obtain ⟨r, htr, hnr, her⟩ := ihr hright h₂
    refine ⟨.product l sign p r, ?_, by simp only [Derivation.nesting]; omega, ?_⟩
    · rw [← htl, ← htr]
      rfl
    · rw [Derivation.tree, Derivation.tree, Expr.eval_binary, Expr.eval_binary, hel, her]
  | term only ih =>
    obtain ⟨d', htokens, hnesting, heval⟩ := ih hb hts
    exact ⟨.term d', htokens, hnesting, heval⟩
  | sum left sign position right ihl ihr =>
    obtain ⟨ts₁, p, ts₂, rfl, h₁, h₂⟩ := exists_tokens_mark left.named hts
    have hleft : b.CoversNames left := fun text q hq => hb text q (List.mem_append_left _ hq)
    have hright : b.CoversNames right :=
      fun text q hq => hb text q (List.mem_append_right _ (List.mem_cons_of_mem _ hq))
    obtain ⟨l, htl, hnl, hel⟩ := ihl hleft h₁
    obtain ⟨r, htr, hnr, her⟩ := ihr hright h₂
    refine ⟨.sum l sign p r, ?_, by simp only [Derivation.nesting]; omega, ?_⟩
    · rw [← htl, ← htr]
      rfl
    · rw [Derivation.tree, Derivation.tree, Expr.eval_binary, Expr.eval_binary, hel, her]

end Splice

/-! ## Names as variables -/

/-- With the values of its names in their places, a formula is read as a tree of the same value. -/
theorem evaluate_of_covers {limits : Limits} {b : Bindings} {formula : String} {d : Derivation Atom .expression}
    (hd : scanNames 0 formula.toList = .ok d.named) (hcovers : b.Covers formula.toList)
    (hlength : limits.length = none) (hdigits : 17 ≤ limits.digits) (hnesting : (d.nesting : Int) < limits.nesting) :
    evaluate limits b formula = (d.tree (Atom.value limits b)).eval := by
  have hnames : b.CoversNames d := fun text position h => hcovers text (mem_pieces_of_scanNames hd h)
  obtain ⟨ts, hts, hlexemes⟩ := scans_spliced hd d.isChain_named hcovers 0
  obtain ⟨d', rfl, hdeeper, heval⟩ := exists_splices hdigits hnames hlexemes
  have hparse : parse limits (String.ofList (spliced b formula.toList)) = .ok (d'.tree limits.numberValue) := by
    refine parse_of_derivation ?_ ?_ (countable_of_digits (by omega) _) (Or.inr (by omega))
    · unfold Limits.checkLength
      rw [hlength]
    · rwa [String.toList_ofList]
  unfold evaluate
  rw [substitute_of_covers hcovers]
  dsimp only
  rw [hparse, ← heval]
  rfl

/-- A formula of the grammar with names has the value of its tree, with the values of the names at its leaves,
whenever they are finite, enough digits are kept and one more level of nesting is admitted than there is. -/
theorem evaluate_eq_eval_tree {limits : Limits} {b : Bindings} {formula : String} {d : Derivation Atom .expression}
    (hd : scanNames 0 formula.toList = .ok d.named)
    (hb : ∀ name ∈ names formula, ∃ x, b name = some x ∧ x.isFinite = true)
    (hlength : limits.length = none) (hdigits : 17 ≤ limits.digits) (hnesting : (d.nesting : Int) < limits.nesting) :
    ∃ x, (d.tree (Atom.value limits b)).eval = .ok x ∧ evaluate limits b formula = .ok x := by
  have hcovers : b.Covers formula.toList := fun text htext => hb _ (mem_names.2 ⟨text, htext, rfl⟩)
  obtain ⟨x, hx⟩ := d.exists_eval_tree (Atom.value limits b)
  refine ⟨x, hx, ?_⟩
  rw [evaluate_of_covers hd hcovers hlength hdigits hnesting, hx]

/-- A negative value behind the sign of a quotient, with room for its own minus sign only. -/
theorem evaluate_eq_eval_tree_quotient :
    ∃ x, (Expr.binary 6 .sub (.binary 2 .div (.number 0 (.ofInt 6)) (.number 4 (.ofRatio true 3 2)))
        (.number 8 (.ofRatio false 1 10))).eval = .ok x ∧
      evaluate { nesting := 1 } (fun name => some (if name = "a" then .ofRatio true 3 2 else .ofRatio false 1 10))
        "6 / a - b" = .ok x := by
  have hd : scanNames 0 "6 / a - b".toList = .ok (Derivation.named (.sum
      (.term (.product (.factor (.atom (.number ⟨['6'], none⟩) 0)) .slash 2 (.atom (.name ['a']) 4))) .minus 6
      (.factor (.atom (.name ['b']) 8)))) := by
    decide +kernel
  have hb : ∀ name ∈ names "6 / a - b", ∃ x,
      some (if name = "a" then Double.ofRatio true 3 2 else .ofRatio false 1 10) = some x ∧ x.isFinite = true := by
    intro name _
    refine ⟨_, rfl, ?_⟩
    split <;> decide +kernel
  have hvalue : ∃ x, _ ∧ evaluate { nesting := 1 } _ "6 / a - b" = .ok x :=
    evaluate_eq_eval_tree hd hb rfl (by decide) (by decide)
  obtain ⟨x, hx, hvalue⟩ := hvalue
  refine ⟨x, ?_, hvalue⟩
  rw [← hx]
  refine congrArg Expr.eval ?_
  decide +kernel

end Stylesheet.Formula
