/-
Values of computations that may fail. A sequence of computations has a value if each of them has one, a
loop over a list gives the values of its elements in order, and it fails at the first element that does.
-/
import Mathlib.Data.List.Forall2

namespace Stylesheet

section

variable {ε α β : Type}

theorem except_bind_ok {x : Except ε α} {f : α → Except ε β} {b : β} (h : (x >>= f) = .ok b) :
    ∃ a, x = .ok a ∧ f a = .ok b := by
  cases x with
  | error e => cases h
  | ok a => exact ⟨a, rfl, h⟩

theorem except_map_ok {x : Except ε α} {f : α → β} {b : β} (h : x.map f = .ok b) : ∃ a, x = .ok a ∧ f a = b := by
  cases x with
  | error e => cases h
  | ok a => exact ⟨a, rfl, Except.ok.inj h⟩

theorem exists_error_iff {x : Except ε α} : (∃ e, x = .error e) ↔ ¬ ∃ a, x = .ok a := by
  cases x <;> simp

theorem exists_ok_of_toOption {x : Except ε α} {f : α → β} {b : β} (h : x.toOption.map f = some b) :
    ∃ a, x = .ok a ∧ f a = b := by
  cases x with
  | error e => cases h
  | ok a => exact ⟨a, rfl, Option.some.inj h⟩

end

/-! ## Loops over lists -/

/-- Two loops are the same, in any monad, if they do the same with each element. -/
theorem mapM_congr {m : Type → Type} [Monad m] [LawfulMonad m] {α β : Type} {f g : α → m β} :
    ∀ {l : List α}, (∀ a ∈ l, f a = g a) → l.mapM f = l.mapM g
  | [], _ => rfl
  | a :: l, h => by
    rw [List.mapM_cons, List.mapM_cons, h a (List.mem_cons_self ..),
      mapM_congr fun b hb => h b (List.mem_cons_of_mem _ hb)]

section MapM

variable {ε ε' α β : Type} {f : α → Except ε β} {l : List α} {bs : List β}

theorem mapM_cons_ok {a : α} (h : (a :: l).mapM f = .ok bs) :
    ∃ b rest, f a = .ok b ∧ l.mapM f = .ok rest ∧ bs = b :: rest := by
  rw [List.mapM_cons] at h
  obtain ⟨b, hb, h⟩ := except_bind_ok h
  obtain ⟨rest, hrest, h⟩ := except_bind_ok h
  cases h
  exact ⟨b, rest, hb, hrest, rfl⟩

theorem mapM_cons_of_ok {a : α} {b : β} (ha : f a = .ok b) (h : l.mapM f = .ok bs) :
    (a :: l).mapM f = .ok (b :: bs) := by
  rw [List.mapM_cons, ha, h]
  rfl

theorem forall₂_of_mapM_ok (h : l.mapM f = .ok bs) : List.Forall₂ (fun a b => f a = .ok b) l bs := by
  induction l generalizing bs with
  | nil =>
    cases h
    exact .nil
  | cons a l ih =>
    obtain ⟨b, rest, ha, hrest, rfl⟩ := mapM_cons_ok h
    exact .cons ha (ih hrest)

theorem length_of_mapM_ok (h : l.mapM f = .ok bs) : bs.length = l.length :=
  (forall₂_of_mapM_ok h).length_eq.symm

theorem exists_of_mapM_ok (h : l.mapM f = .ok bs) {b : β} (hb : b ∈ bs) : ∃ a ∈ l, f a = .ok b := by
  induction l generalizing bs with
  | nil => cases h; cases hb
  | cons a l ih =>
    obtain ⟨b', rest, ha, hrest, rfl⟩ := mapM_cons_ok h
    rcases List.mem_cons.1 hb with rfl | hb
    · exact ⟨a, List.mem_cons_self .., ha⟩
    · obtain ⟨a', hmem, ha'⟩ := ih hrest hb
      exact ⟨a', List.mem_cons_of_mem _ hmem, ha'⟩

theorem exists_of_mem_mapM_ok (h : l.mapM f = .ok bs) {a : α} (ha : a ∈ l) : ∃ b, f a = .ok b ∧ b ∈ bs := by
  induction l generalizing bs with
  | nil => cases ha
  | cons a' l ih =>
    obtain ⟨b, rest, hb, hrest, rfl⟩ := mapM_cons_ok h
    rcases List.mem_cons.1 ha with rfl | ha
    · exact ⟨b, hb, List.mem_cons_self ..⟩
    · obtain ⟨b', hb', hmem⟩ := ih hrest ha
      exact ⟨b', hb', List.mem_cons_of_mem _ hmem⟩

/-- A loop has the value of another whose elements all have theirs. -/
theorem mapM_ok_mono {g : α → Except ε' β} (hfg : ∀ a ∈ l, ∀ b, f a = .ok b → g a = .ok b) (h : l.mapM f = .ok bs) :
    l.mapM g = .ok bs := by
  induction l generalizing bs with
  | nil =>
    cases h
    rfl
  | cons a l ih =>
    obtain ⟨b, rest, ha, hrest, rfl⟩ := mapM_cons_ok h
    rw [List.mapM_cons, hfg a (List.mem_cons_self ..) b ha, ih (fun c hc => hfg c (List.mem_cons_of_mem _ hc)) hrest]
    rfl

theorem exists_mapM_ok (h : ∀ a ∈ l, ∃ b, f a = .ok b) : ∃ bs, l.mapM f = .ok bs := by
  induction l with
  | nil => exact ⟨[], rfl⟩
  | cons a l ih =>
    obtain ⟨b, hb⟩ := h a (List.mem_cons_self ..)
    obtain ⟨bs, hbs⟩ := ih fun c hc => h c (List.mem_cons_of_mem _ hc)
    refine ⟨b :: bs, ?_⟩
    rw [List.mapM_cons, hb, hbs]
    rfl

/-- Two loops, one over the values of the other, are one. -/
theorem mapM_ok_iff_of_comp {γ ε'' : Type} {g : β → Except ε' γ} {k : α → Except ε'' γ}
    (hcomp : ∀ a c, k a = .ok c ↔ ∃ b, f a = .ok b ∧ g b = .ok c) {cs : List γ} :
    l.mapM k = .ok cs ↔ ∃ bs, l.mapM f = .ok bs ∧ bs.mapM g = .ok cs := by
  constructor
  · intro h
    induction l generalizing cs with
    | nil =>
      cases h
      exact ⟨[], rfl, rfl⟩
    | cons a l ih =>
      obtain ⟨c, rest, hc, hrest, rfl⟩ := mapM_cons_ok h
      obtain ⟨b, hb, hg⟩ := (hcomp a c).1 hc
      obtain ⟨bs, hbs, hcs⟩ := ih hrest
      exact ⟨b :: bs, mapM_cons_of_ok hb hbs, mapM_cons_of_ok hg hcs⟩
  · rintro ⟨bs, hf, hg⟩
    induction l generalizing bs cs with
    | nil =>
      cases hf
      cases hg
      rfl
    | cons a l ih =>
      obtain ⟨b, rest, hb, hrest, rfl⟩ := mapM_cons_ok hf
      obtain ⟨c, cs', hc, hcs, rfl⟩ := mapM_cons_ok hg
      exact mapM_cons_of_ok ((hcomp a c).2 ⟨b, hb, hc⟩) (ih rest hrest hcs)

/-- Where the values of a loop part, its list parts too. -/
theorem exists_parts_of_mapM_ok {before after : List β} {b : β} (h : l.mapM f = .ok (before ++ b :: after)) :
    ∃ l₁ a l₂, l = l₁ ++ a :: l₂ ∧ l₁.length = before.length ∧ f a = .ok b ∧ l₂.mapM f = .ok after := by
  induction before generalizing l with
  | nil =>
    cases l with
    | nil => cases h
    | cons a l =>
      obtain ⟨b', rest, ha, hrest, heq⟩ := mapM_cons_ok h
      cases heq
      exact ⟨[], a, l, rfl, rfl, ha, hrest⟩
  | cons b' before ih =>
    cases l with
    | nil => cases h
    | cons a' l =>
      obtain ⟨c, rest, -, hrest, heq⟩ := mapM_cons_ok h
      cases heq
      obtain ⟨l₁, a, l₂, rfl, hlength, ha, hafter⟩ := ih hrest
      exact ⟨a' :: l₁, a, l₂, rfl, congrArg (· + 1) hlength, ha, hafter⟩

theorem mapM_eq_error {before after : List α} {a : α} {e : ε} (h : ∀ b ∈ before, ∃ c, f b = .ok c)
    (ha : f a = .error e) : (before ++ a :: after).mapM f = .error e := by
  obtain ⟨bs, hbs⟩ := exists_mapM_ok h
  rw [List.mapM_append, hbs, List.mapM_cons, ha]
  rfl

/-- A loop whose errors are seen through a function. -/
theorem mapM_mapError (f : α → Except ε β) (g : ε → ε') (l : List α) :
    l.mapM (fun a => (f a).mapError g) = (l.mapM f).mapError g := by
  induction l with
  | nil => rfl
  | cons a l ih =>
    rw [List.mapM_cons, List.mapM_cons, ih]
    cases f a with
    | error e => rfl
    | ok b => cases l.mapM f <;> rfl

/-- A loop gives values, or fails at the first element that does. -/
theorem mapM_cases (f : α → Except ε β) (l : List α) :
    (∃ bs, l.mapM f = .ok bs) ∨ ∃ before a after e, l = before ++ a :: after ∧ (∀ b ∈ before, ∃ c, f b = .ok c) ∧
      f a = .error e ∧ l.mapM f = .error e := by
  induction l with
  | nil => exact .inl ⟨[], rfl⟩
  | cons a l ih =>
    rw [List.mapM_cons]
    cases ha : f a with
    | error e => exact .inr ⟨[], a, l, e, rfl, by simp, ha, rfl⟩
    | ok b =>
      rcases ih with ⟨bs, hbs⟩ | ⟨before, a', after, e, rfl, hbefore, ha', hl⟩
      · exact .inl ⟨b :: bs, by rw [hbs]; rfl⟩
      · exact .inr ⟨a :: before, a', after, e, rfl, List.forall_mem_cons.2 ⟨⟨b, ha⟩, hbefore⟩, ha', by rw [hl]; rfl⟩

end MapM

/-! ## Loops with a state -/

/-- A loop whose steps are those of another one, seen through a function of the state, is that other loop. -/
theorem map_foldlM {ε α σ τ : Type} {f : σ → α → Except ε σ} {g : τ → α → Except ε τ} {view : σ → τ}
    (h : ∀ s a, (f s a).map view = g (view s) a) (l : List α) (s : σ) :
    (l.foldlM f s).map view = l.foldlM g (view s) := by
  induction l generalizing s with
  | nil => rfl
  | cons a l ih =>
    rw [List.foldlM_cons, List.foldlM_cons, ← h]
    cases f s a with
    | error e => rfl
    | ok s' => exact ih s'

/-- A loop whose errors are seen through a function in every step. -/
theorem foldlM_mapError {ε ε' α σ : Type} {f : σ → α → Except ε σ} {f' : σ → α → Except ε' σ} {g : ε → ε'}
    (h : ∀ s a, (f s a).mapError g = f' s a) (l : List α) (s : σ) : (l.foldlM f s).mapError g = l.foldlM f' s := by
  induction l generalizing s with
  | nil => rfl
  | cons a l ih =>
    rw [List.foldlM_cons, List.foldlM_cons, ← h]
    cases f s a with
    | error e => rfl
    | ok s' => exact ih s'

end Stylesheet
