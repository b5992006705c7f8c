/-
What a resolver counts. It makes its passes one by one and counts each that ends; so does one stage, and so do
procedures in turn if each of them does (`Resolver.Makes.bind`). What it gives for a table is told without it, but
for the count, which goes on from one run to the next. So the constants that wait at first bound the passes of a
run, and not the count (`Resolver.resolve_monotone`, `Resolver.resolve_again`).
-/
import Stylesheet.Resolution.Resolver
import Stylesheet.Proofs.Resolution.Passes

namespace Stylesheet

open Relation (ReflTransGen)
open Progress (Pass start RawTexts)

namespace Resolver

variable {cs : List Constant} {stage : Stage} {stages rest left : List Stage} {s : States}

/-! ## Counted passes -/

/-- The procedure has this outcome, states after so many passes or an error. It makes its passes one by one, from
the states `s` and with `stages` to come, to the point where `rest` is left or a pass fails; and it counts them. -/
def Makes (cs : List Constant) (procedure : Procedure Resolver ResolutionError States) (stages rest : List Stage)
    (s : States) : Except ResolutionError (States × Nat) → Prop
  | .ok (t, n) => ∀ resolver : Resolver, procedure.on resolver = (.ok t, resolver.advance n) ∧
      ReflTransGen (Pass cs) ⟨stages, s, resolver.passes⟩ ⟨rest, t, resolver.passes + n⟩
  | .error e => ∀ resolver : Resolver, ∃ n p, procedure.on resolver = (.error e, resolver.advance n) ∧
      ReflTransGen (Pass cs) ⟨stages, s, resolver.passes⟩ p ∧ p.passes = resolver.passes + n

theorem untilStable_eq (stage : Stage) (cs : List Constant) (s : States) :
    untilStable stage cs s = match stage.pass cs s with
      | .error e => throw e
      | .ok (after, false) => modify (·.advance 1) >>= fun _ => pure after
      | .ok (after, true) => modify (·.advance 1) >>= fun _ => untilStable stage cs after := by
  rw [untilStable]
  split <;> simp_all

/-- Procedures in turn count the passes of all. -/
theorem Makes.bind {procedure : Procedure Resolver ResolutionError States}
    {f : States → Procedure Resolver ResolutionError States} {outcome : Except ResolutionError (States × Nat)}
    {g : States → Except ResolutionError (States × Nat)} (h : Makes cs procedure stages left s outcome)
    (hf : ∀ t m, outcome = .ok (t, m) → Makes cs (f t) left rest t (g t)) :
    Makes cs (procedure >>= f) stages rest s (outcome >>= fun (t, m) => (g t).map fun (u, n) => (u, m + n)) := by
  cases outcome with
  | error e =>
    intro resolver
    obtain ⟨n, p, hon, hrun, hcount⟩ := h resolver
    exact ⟨n, p, by rw [Procedure.on_bind, hon], hrun, hcount⟩
  | ok q =>
    obtain ⟨t, m⟩ := q
    have ht := hf t m rfl
    show Makes cs _ stages rest s ((g t).map _)
    cases hg : g t with
    | error e =>
      rw [hg] at ht
      intro resolver
      obtain ⟨hon, hrun⟩ := h resolver
      obtain ⟨n, p, hon', hrun', hcount⟩ := ht (resolver.advance m)
      refine ⟨m + n, p, ?_, hrun.trans hrun', hcount.trans (Nat.add_assoc ..)⟩
      rw [Procedure.on_bind, hon, ← advance_advance]
      exact hon'
    | ok q =>
      obtain ⟨u, n⟩ := q
      rw [hg] at ht
      intro resolver
      obtain ⟨hon, hrun⟩ := h resolver
      obtain ⟨hon', hrun'⟩ := ht (resolver.advance m)
      constructor
      · rw [Procedure.on_bind, hon, ← advance_advance]
        exact hon'
      · rw [← Nat.add_assoc]
        exact hrun.trans hrun'

/-- A stage counts its passes. -/
theorem makes_untilStable (rest : List Stage) :
    Makes cs (untilStable stage cs s) (stage :: rest) rest s (stage.untilStable cs s) := by
  induction hd : Stage.distance s using Nat.strongRecOn generalizing s with
  | ind d ih =>
    rw [untilStable_eq, Stage.untilStable_eq]
    cases hp : stage.pass cs s with
    | error e => exact fun resolver => ⟨0, _, rfl, .refl, rfl⟩
    | ok p =>
      obtain ⟨after, changed⟩ := p
      cases changed with
      | false => exact fun resolver => ⟨rfl, .single (.next hp)⟩
      | true =>
        have hpass : Makes cs (modify (·.advance 1) >>= fun _ => pure after) (stage :: rest) (stage :: rest) s
            (.ok (after, 1)) := fun resolver => ⟨rfl, .single (.again hp)⟩
        have hrest (t : States) (m : Nat) (ht : Except.ok (ε := ResolutionError) (after, 1) = .ok (t, m)) :
            Makes cs (untilStable stage cs t) (stage :: rest) rest t (stage.untilStable cs t) := by
          cases ht
          exact ih _ (hd ▸ (Stage.distance_pass hp).2 rfl) rfl
        simp only [Nat.add_comm _ 1]
        exact hpass.bind hrest

/-- The passes of what follows are added to those of what came before. -/
theorem runStages_eq (limits : Formula.Limits) (cs : List Constant) (s : States) : Resolved.runStages limits cs s =
    Stage.aliases.untilStable cs s >>= fun (t, k) => ((Stage.formulas limits).untilStable cs t >>= fun (u, l) =>
      ((Stage.lists limits).untilStable cs u >>= fun (v, m) => (Stage.aliases.untilStable cs v).map
        fun (w, n) => (w, m + n)).map fun (w, n) => (w, l + n)).map fun (w, n) => (w, k + n) := by
  unfold Resolved.runStages
  cases Stage.aliases.untilStable cs s with
  | error e => rfl
  | ok p =>
    obtain ⟨t, k⟩ := p
    dsimp only [bind, Except.bind]
    cases (Stage.formulas limits).untilStable cs t with
    | error e => rfl
    | ok p =>
      obtain ⟨u, l⟩ := p
      dsimp only
      cases (Stage.lists limits).untilStable cs u with
      | error e => rfl
      | ok p =>
        obtain ⟨v, m⟩ := p
        dsimp only
        cases Stage.aliases.untilStable cs v with
        | error e => rfl
        | ok p => simp only [Except.map, Nat.add_assoc]

/-- All stages count their passes. -/
theorem makes_runStages (limits : Formula.Limits) (cs : List Constant) (s : States) :
    Makes cs (runStages limits cs s) [.aliases, .formulas limits, .lists limits, .aliases] [] s
      (Resolved.runStages limits cs s) := by
  rw [runStages_eq]
  exact (makes_untilStable [.formulas limits, .lists limits, .aliases]).bind fun t _ _ =>
    (makes_untilStable [.lists limits, .aliases]).bind fun u _ _ =>
      (makes_untilStable [.aliases]).bind fun v _ _ => makes_untilStable []

/-! ## Runs of a resolver -/

theorem conclude_add (settings : Settings) (t : States) (k n : Nat) : Resolved.conclude settings t (k + n) =
    (Resolved.conclude settings t n).map fun r => { r with passes := k + r.passes } := by
  unfold Resolved.conclude
  cases Resolved.unresolvedNames t with
  | nil => rfl
  | cons first others => cases settings.strict <;> rfl

/-- What a resolver gives is told without it, but for the count: that goes on from the runs before. -/
theorem on_resolve (table : Table) (resolver : Resolver) : ∃ n p,
    (resolve table).on resolver =
      ((Resolved.ofTable table resolver.settings).map fun r => { r with passes := resolver.passes + r.passes },
        resolver.advance n) ∧
    ReflTransGen (Pass table.constants.values)
      (start resolver.settings.limits (States.initial table) resolver.passes) p ∧ p.passes = resolver.passes + n ∧
    ∀ r, Resolved.ofTable table resolver.settings = .ok r → r.passes = n ∧ p.stages = [] ∧ p.states = r.states := by
  have hresolve : (resolve table).on resolver = Procedure.on
      (runStages resolver.settings.limits table.constants.values (States.initial table) >>= fun states =>
        get >>= fun last => Procedure.ofExcept (Resolved.conclude resolver.settings states last.passes)) resolver := rfl
  have hmakes := makes_runStages resolver.settings.limits table.constants.values (States.initial table)
  rw [hresolve, Procedure.on_bind]
  unfold Resolved.ofTable
  cases hrun : Resolved.runStages resolver.settings.limits table.constants.values (States.initial table) with
  | error e =>
    rw [hrun] at hmakes
    obtain ⟨n, p, hon, hpasses, hcount⟩ := hmakes resolver
    exact ⟨n, p, by rw [hon]; rfl, hpasses, hcount, by rintro r ⟨⟩⟩
  | ok q =>
    obtain ⟨t, n⟩ := q
    rw [hrun] at hmakes
    obtain ⟨hon, hpasses⟩ := hmakes resolver
    refine ⟨n, _, ?_, hpasses, rfl, fun r hr => ?_⟩
    · rw [hon]
      simp only [Procedure.on_bind, Procedure.on_get, Procedure.on_ofExcept]
      exact congrArg (·, resolver.advance n) (conclude_add resolver.settings t resolver.passes n)
    · obtain rfl := Resolved.eq_of_conclude hr
      exact ⟨rfl, rfl, rfl⟩

/-! ## The theorem -/

/-- Between any two passes of a run, what waits has its raw text and nothing else, and no number of a resolved
constant is not a number. The next pass keeps all that is resolved or failed, and tells whether something no longer
waits. No sequence of passes goes on for ever. A run makes at most four passes and as many more as constants waited
at first, and at least four if it gives a result; in the result they are counted on top of those of all runs before. -/
theorem resolve_monotone (table : Table) (resolver : Resolver) :
    let cs := table.constants.values
    let first := start resolver.settings.limits (States.initial table) resolver.passes
    (∀ p, ReflTransGen (Pass cs) first p →
      RawTexts table p.states ∧
      (∀ name value x, p.states.find? name = some (.resolved value) → value.number = some x → x.isNaN = false) ∧
      ∀ stage rest t changed, p.stages = stage :: rest → stage.pass cs p.states = .ok (t, changed) →
        (∀ name r, p.states.find? name = some r → r.isPending = false → t.find? name = some r) ∧
        (changed = true ↔ ∃ name, p.states.Waits name ∧ ¬ t.Waits name)) ∧
    (WellFounded fun q p => Pass cs p q) ∧
    ∃ n, ((resolve table).on resolver).2 = resolver.advance n ∧ n ≤ 4 + (States.initial table).waiting ∧
      ∀ r, ((resolve table).on resolver).1 = .ok r →
        ReflTransGen (Pass cs) first ⟨[], r.states, r.passes⟩ ∧ r.passes = resolver.passes + n ∧ 4 ≤ n := by
  intro cs first
  have hinv (p : Progress) (hp : ReflTransGen (Pass cs) first p) : p.Inv table resolver.passes :=
    (Progress.inv_start table resolver.settings.limits resolver.passes).passes hp
  refine ⟨fun p hp => ⟨(hinv p hp).rawTexts, ?_, ?_⟩, Progress.wellFounded_pass cs, ?_⟩
  · intro name value x hv hx
    exact (hinv p hp).proper.numbers hv hx
  · intro stage rest t changed hstages hpass
    have horderly := (hinv p hp).orderly stage (by rw [hstages]; exact List.mem_cons_self ..)
    obtain ⟨-, hsettles, hchanged, -⟩ := horderly.pass table.distinct (hinv p hp).proper hpass
    exact ⟨fun name r hf hr => hsettles.kept hf hr, hchanged⟩
  · obtain ⟨n, p, hon, hp, hcount, hend⟩ := on_resolve table resolver
    have hlow := (hinv p hp).atLeast
    have hhigh := (hinv p hp).atMost
    rw [hon]
    refine ⟨n, rfl, by omega, fun result hresult => ?_⟩
    obtain ⟨r, hr, rfl⟩ := except_map_ok hresult
    obtain ⟨rfl, hstages, hstates⟩ := hend r hr
    have hlast : p = ⟨[], r.states, resolver.passes + r.passes⟩ := by
      rw [← hstages, ← hstates, ← hcount]
    rw [hstages, List.length_nil] at hlow
    exact ⟨hlast ▸ hp, rfl, by omega⟩

/-- Of two aliases that are declared before what they name the first pass resolves the second, and the next pass
the first. A new resolver makes seven passes, for three constants that wait. -/
theorem resolve_monotone_backwards :
    let table := Table.ofDeclarations {}
      [("third", "@second", none), ("second", "@first", none), ("pad", "@third 1px", some "Insets"),
        ("first", "4px", none)]
    (∃ t, Stage.aliases.pass table.constants.values (States.initial table) = .ok (t, true) ∧
      ∃ name, (States.initial table).Waits name ∧ ¬ t.Waits name) ∧
    ∃ r, ((resolve table).on { settings := {} }).1 = .ok r ∧ r.value? "pad" = some "4px 1px" ∧ r.passes = 7 ∧
      r.passes ≤ 4 + (States.initial table).waiting ∧ (States.initial table).waiting = 3 := by
  intro table
  obtain ⟨hpasses, -, n, -, hbound, hend⟩ := resolve_monotone table { settings := {} }
  refine ⟨?_, ?_⟩
  · obtain ⟨⟨t, changed⟩, hpass, hchanged⟩ :
        ∃ p, Stage.aliases.pass table.constants.values (States.initial table) = .ok p ∧
        p.2 = true := exists_ok_of_toOption (by decide +kernel)
    obtain rfl : changed = true := hchanged
    exact ⟨t, hpass, (((hpasses _ .refl).2.2 _ _ t true rfl hpass).2).1 rfl⟩
  · obtain ⟨r, hr, hvalues⟩ : ∃ r, ((resolve table).on { settings := {} }).1 = .ok r ∧
        (r.value? "pad", r.passes) = (some "4px 1px", 7) := exists_ok_of_toOption (by decide +kernel)
    obtain ⟨hpad, hcount⟩ : _ ∧ _ := by simpa only [Prod.mk.injEq] using hvalues
    obtain ⟨-, hn, -⟩ := hend r hr
    rw [Nat.zero_add] at hn
    exact ⟨r, hr, hpad, hcount, hn ▸ hbound, by decide +kernel⟩

/-- A resolver that resolves a table of one number twice tells eight passes, although nothing waited. -/
theorem resolve_again :
    let table := Table.ofDeclarations {} [("gap", "4px", none)]
    let first := (resolve table).on { settings := {} }
    ∃ r, ((resolve table).on first.2).1 = .ok r ∧ (States.initial table).waiting = 0 ∧ r.passes = 8 ∧
      ¬ (4 ≤ r.passes ∧ r.passes ≤ 4 + (States.initial table).waiting) := by
  intro table first
  obtain ⟨r, hr, hcount⟩ : ∃ r, ((resolve table).on first.2).1 = .ok r ∧ r.passes = 8 :=
    exists_ok_of_toOption (by decide +kernel)
  have hwaiting : (States.initial table).waiting = 0 := by decide +kernel
  exact ⟨r, hr, hwaiting, hcount, by omega⟩

end Resolver

end Stylesheet
