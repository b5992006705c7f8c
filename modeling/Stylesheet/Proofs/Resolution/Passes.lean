/-
What every pass does, and how many there are. A pass only settles constants that wait: whatever has a
value or failed stays as it is, and what goes on waiting keeps its raw text. That no alias and no list
ever fails is what makes this true, for an alias would be resolved even then. So each pass that changes
something leaves fewer constants waiting, and the number of passes is bounded by theirs.
-/
import Mathlib.Tactic
import Stylesheet.Proofs.Resolution.Acyclic

namespace Stylesheet

open Relation (ReflTransGen)

/-! ## Waiting constants -/

def Resolution.isPending : Resolution → Bool
  | pending _ => true
  | _ => false

namespace States

/-- The constant waits. -/
def Waits (s : States) (name : String) : Prop := ∃ rawValue, s.find? name = some (.pending rawValue)

/-- How many constants wait. -/
def waiting (s : States) : Nat := s.entries.countP fun entry => entry.2.isPending

theorem waiting_eq_total (s : States) : s.waiting = s.total fun r => r.isPending.toNat := by
  unfold waiting NameMap.total
  induction s.entries with
  | nil => rfl
  | cons entry rest ih =>
    rw [List.countP_cons, List.foldr_cons, ih]
    cases h : entry.2.isPending <;> simp [h, Nat.add_comm]

theorem waiting_insert_lt {s : States} {name : String} {old new : Resolution} (hf : s.find? name = some old)
    (hold : old.isPending = true) (hnew : new.isPending = false) : States.waiting (s.insert name new) < s.waiting := by
  rw [waiting_eq_total, waiting_eq_total]
  exact NameMap.total_insert_lt hf (by simp [hold, hnew])

theorem not_waits_of_find? {s : States} {name : String} {r : Resolution} (hf : s.find? name = some r)
    (hr : r.isPending = false) : ¬ s.Waits name := by
  rintro ⟨rawValue, hw⟩
  rw [hf] at hw; cases hw; cases hr

/-! ## Settling -/

/-- `t` comes of `s` by settling some of the constants that wait. -/
structure Settles (s t : States) : Prop where
  kept : ∀ {name r}, s.find? name = some r → r.isPending = false → t.find? name = some r
  pending : ∀ {name rawValue}, t.find? name = some (.pending rawValue) → s.find? name = some (.pending rawValue)
  fewer : t = s ∨ (∃ name, s.Waits name ∧ ¬ t.Waits name) ∧ t.waiting < s.waiting

theorem Settles.refl (s : States) : Settles s s := ⟨fun h _ => h, id, .inl rfl⟩

theorem Settles.trans {s t u : States} (h1 : Settles s t) (h2 : Settles t u) : Settles s u := by
  constructor
  case kept =>
    intro name r hf hr
    exact h2.kept (h1.kept hf hr) hr
  case pending =>
    intro name rawValue hf
    exact h1.pending (h2.pending hf)
  case fewer =>
    rcases h1.fewer with rfl | ⟨⟨name, hw, hn⟩, hlt⟩
    · exact h2.fewer
    · refine .inr ⟨⟨name, hw, ?_⟩, ?_⟩
      · rintro ⟨rawValue, hf⟩
        exact hn ⟨rawValue, h2.pending hf⟩
      · rcases h2.fewer with rfl | ⟨-, hlt'⟩
        · exact hlt
        · exact hlt'.trans hlt

theorem settles_insert {s : States} {name rawValue : String} {new : Resolution}
    (hf : s.find? name = some (.pending rawValue)) (hnew : new.isPending = false) :
    Settles s (s.insert name new) := by
  constructor
  case kept =>
    intro n r hn hr
    rw [NameMap.find?_insert_of_ne _ ?_, hn]
    rintro rfl
    rw [hf] at hn; cases hn; cases hr
  case pending =>
    intro n raw hn
    rw [NameMap.find?_insert] at hn
    split at hn
    · cases hn; cases hnew
    · exact hn
  case fewer =>
    refine .inr ⟨⟨name, ⟨rawValue, hf⟩, ?_⟩, waiting_insert_lt hf rfl hnew⟩
    exact not_waits_of_find? (NameMap.find?_insert_self ..) hnew

end States

open States (Settles)

/-! ## One stage -/

namespace Stage

/-- What the passes of a stage rely on: in proper states the stage moves only what waits, to what does
not, and the states stay proper. -/
structure Orderly (stage : Stage) : Prop where
  proper : ∀ {cs s t}, Distinct cs → s.Proper cs → stage.Moves cs s t → t.Proper cs
  settles : ∀ {cs s t}, s.Proper cs → stage.Moves cs s t → Settles s t

/-- What is not resolved and no alias or list that failed waits. -/
theorem eq_pending_of_proper {cs : List Constant} {s : States} (h : s.Proper cs)
    {c : Constant} (hc : c ∈ cs) {old : Resolution}
    (hf : s.find? c.name = some old) (hold : old.isResolved = false)
    (hkind : c.isComposite = true ∨ aliasTarget? c.rawValue.toList ≠ none) : ∃ rawValue, old = .pending rawValue := by
  cases old with
  | resolved value => cases hold
  | pending rawValue => exact ⟨rawValue, rfl⟩
  | failed rawValue formula =>
    obtain ⟨hcomp, halias⟩ := h.failed hc hf
    rcases hkind with hk | hk
    · rw [hcomp] at hk; cases hk
    · exact absurd halias hk

theorem aliases_orderly : aliases.Orderly := by
  constructor
  case proper =>
    intro cs s t hd h hm
    exact h.aliases hd (.single hm)
  case settles =>
    rintro cs s _ h ⟨hc, hf, hs⟩
    obtain ⟨-, target, value, ht, -, rfl⟩ := aliasStep_some hs
    obtain ⟨rawValue, rfl⟩ := eq_pending_of_proper h hc hf (isResolved_eq_false_of_step hs) (.inr (by simp [ht]))
    exact States.settles_insert hf rfl

theorem formulas_orderly (limits : Formula.Limits) : (formulas limits).Orderly := by
  constructor
  case proper =>
    intro cs s t hd h hm
    exact h.formulas hd (.single hm)
  case settles =>
    rintro cs s _ h ⟨-, hf, hs⟩
    obtain ⟨rawValue, x, rfl, -, -, -, -, rfl⟩ := formulaStep_some hs
    refine States.settles_insert hf ?_
    unfold formulaOutcome
    split <;> rfl

theorem lists_orderly (limits : Formula.Limits) : (lists limits).Orderly := by
  constructor
  case proper =>
    rintro cs s _ hd h ⟨hc, -, hs⟩
    obtain ⟨-, -, texts, -, rfl⟩ := listStep_some hs
    refine h.insert hd hc ?_ ?_
    · rintro _ x ⟨⟩ ⟨⟩
    · rintro rawValue formula ⟨⟩
  case settles =>
    rintro cs s _ h ⟨hc, hf, hs⟩
    obtain ⟨hcomp, -, texts, -, rfl⟩ := listStep_some hs
    obtain ⟨rawValue, rfl⟩ := eq_pending_of_proper h hc hf (isResolved_eq_false_of_step hs) (.inl hcomp)
    exact States.settles_insert hf rfl

variable {stage : Stage} {cs : List Constant} {s t : States}

theorem Orderly.runs (h : stage.Orderly) (hd : Distinct cs) (hs : s.Proper cs) (hr : stage.Runs cs s t) :
    t.Proper cs ∧ Settles s t := by
  induction hr with
  | refl => exact ⟨hs, .refl s⟩
  | tail _ hm ih => exact ⟨h.proper hd ih.1 hm, ih.2.trans (h.settles ih.1 hm)⟩

/-- A pass settles constants that wait, and tells whether it did. -/
theorem Orderly.pass (h : stage.Orderly) (hd : Distinct cs) (hs : s.Proper cs) {changed : Bool}
    (hp : stage.pass cs s = .ok (t, changed)) :
    t.Proper cs ∧ Settles s t ∧ (changed = true ↔ ∃ name, s.Waits name ∧ ¬ t.Waits name) ∧
      (changed = true → t.waiting < s.waiting) := by
  obtain ⟨hrun, hend⟩ := runs_of_pass (fun _ hc => hc) hp
  obtain ⟨hproper, hsettles⟩ := h.runs hd hs hrun
  -- a pass that changed something came nearer to the end, so it did not stay where it was
  have hmoved (hc : changed = true) : (∃ name, s.Waits name ∧ ¬ t.Waits name) ∧ t.waiting < s.waiting := by
    rcases hsettles.fewer with rfl | hfewer
    · exact absurd ((distance_pass hp).2 hc) (Nat.lt_irrefl _)
    · exact hfewer
  refine ⟨hproper, hsettles, ⟨fun hc => (hmoved hc).1, ?_⟩, fun hc => (hmoved hc).2⟩
  rintro ⟨name, hw, hn⟩
  by_contra hc
  obtain ⟨rfl, -⟩ := hend (by simpa using hc)
  exact hn hw

end Stage

/-! ## Pass by pass -/

/-- Between two passes: the stages that are not over, the current one first, and the passes made. -/
structure Progress where
  stages : List Stage
  states : States
  passes : Nat

namespace Progress

/-- The next pass is one of the current stage, and the last of it if it changes nothing. -/
inductive Pass (cs : List Constant) : Progress → Progress → Prop
  | again {stage : Stage} {rest : List Stage} {s t : States} {n : Nat} (pass : stage.pass cs s = .ok (t, true)) :
    Pass cs ⟨stage :: rest, s, n⟩ ⟨stage :: rest, t, n + 1⟩
  | next {stage : Stage} {rest : List Stage} {s t : States} {n : Nat} (pass : stage.pass cs s = .ok (t, false)) :
    Pass cs ⟨stage :: rest, s, n⟩ ⟨rest, t, n + 1⟩

/-- Before the first pass of a run; there may have been others. -/
def start (limits : Formula.Limits) (s : States) (passes : Nat := 0) : Progress :=
  ⟨[.aliases, .formulas limits, .lists limits, .aliases], s, passes⟩

variable {cs : List Constant}

/-- No sequence of passes goes on for ever. -/
theorem wellFounded_pass (cs : List Constant) : WellFounded fun q p => Pass cs p q := by
  refine Subrelation.wf (r := InvImage (· < ·) fun p => p.stages.length + Stage.distance p.states) ?_
    (InvImage.wf _ Nat.lt_wfRel.wf)
  intro q p h
  show q.stages.length + Stage.distance q.states < p.stages.length + Stage.distance p.states
  cases h with
  | again hp =>
    have := (Stage.distance_pass hp).2 rfl
    simp only
    omega
  | next hp =>
    have := (Stage.distance_pass hp).1
    simp only [List.length_cons]
    omega

/-! ## What holds between passes -/

/-- Each entry that waits has the raw text of its constant, and nothing else. -/
def RawTexts (table : Table) (s : States) : Prop :=
  ∀ name r, s.find? name = some r → r.isPending = true →
    ∃ c, table.constants.find? name = some c ∧ r.text = c.rawValue ∧ r.number? = none ∧ r.unit? = none

/-- What holds between the passes of a run that `k` others came before: only what waited at first is settled,
and the passes made and the stages to come are in the bounds that it sets. -/
structure Inv (table : Table) (k : Nat) (p : Progress) : Prop where
  orderly : ∀ stage ∈ p.stages, stage.Orderly
  proper : p.states.Proper table.constants.values
  settles : Settles (States.initial table) p.states
  atLeast : k + 4 ≤ p.passes + p.stages.length
  atMost : p.passes + p.stages.length + p.states.waiting ≤ k + 4 + (States.initial table).waiting

theorem inv_start (table : Table) (limits : Formula.Limits) (k : Nat) :
    Inv table k (start limits (States.initial table) k) := by
  constructor
  case orderly =>
    intro stage hs
    simp only [start, List.mem_cons, List.not_mem_nil, or_false] at hs
    rcases hs with rfl | rfl | rfl | rfl
    · exact Stage.aliases_orderly
    · exact Stage.formulas_orderly limits
    · exact Stage.lists_orderly limits
    · exact Stage.aliases_orderly
  case proper => exact proper_initial table
  case settles => exact .refl _
  case atLeast => exact Nat.le_refl _
  case atMost => exact Nat.le_refl _

variable {table : Table} {k : Nat} {p q : Progress}

theorem Inv.pass (h : Inv table k p) (hs : Pass table.constants.values p q) : Inv table k q := by
  obtain ⟨horderly, hproper, hsettles, hlow, hhigh⟩ := h
  cases hs with
  | again hp =>
    obtain ⟨hproper', hsettles', -, hfewer⟩ := (horderly _ (List.mem_cons_self ..)).pass table.distinct hproper hp
    have := hfewer rfl
    refine ⟨horderly, hproper', hsettles.trans hsettles', ?_, ?_⟩ <;> simp only [List.length_cons] at * <;> omega
  | next hp =>
    obtain ⟨hproper', hsettles', -, -⟩ := (horderly _ (List.mem_cons_self ..)).pass table.distinct hproper hp
    obtain ⟨-, hend⟩ := Stage.runs_of_pass (fun _ hc => hc) hp
    obtain ⟨rfl, -⟩ := hend rfl
    refine ⟨fun stage hm => horderly stage (List.mem_cons_of_mem _ hm), hproper', hsettles.trans hsettles', ?_, ?_⟩ <;>
      simp only [List.length_cons] at * <;> omega

theorem Inv.passes (h : Inv table k p) (hs : ReflTransGen (Pass table.constants.values) p q) : Inv table k q := by
  induction hs with
  | refl => exact h
  | tail _ hm ih => exact ih.pass hm

theorem Inv.rawTexts (h : Inv table k p) : RawTexts table p.states := by
  intro name r hf hr
  cases r with
  | resolved value => cases hr
  | failed rawValue formula => cases hr
  | pending rawValue =>
    have hinit := h.settles.pending hf
    rw [States.find?_initial] at hinit
    obtain ⟨c, hc, hpend⟩ := Option.map_eq_some_iff.1 hinit
    rw [States.initialOf_of_not_resolved (by rw [hpend]; rintro value ⟨⟩)] at hpend
    cases hpend
    exact ⟨c, hc, rfl, rfl, rfl⟩

end Progress

end Stylesheet
