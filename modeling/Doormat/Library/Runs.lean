import Mathlib.Data.List.Basic

/-! Runs of a machine whose steps may fail, and what holds throughout them. A run goes on
as long as its steps succeed. -/

namespace Runs

variable {σ α : Type*} (step : σ → α → Option σ)

/-- `P` holds in every state that a run comes to. -/
def Throughout (P : σ → Prop) : σ → List α → Prop
  | s, [] => P s
  | s, a :: as => P s ∧ ∀ t, step s a = some t → Throughout P t as

/-- Every step that a run takes meets the condition. -/
def Heeds (cond : σ → α → Prop) : σ → List α → Prop
  | _, [] => True
  | s, a :: as => ∀ t, step s a = some t → cond s a ∧ Heeds cond t as

/-- Every input of a run is one that the state it meets admits. -/
def Admits (admits : σ → α → Prop) : σ → List α → Prop
  | _, [] => True
  | s, a :: as => admits s a ∧ ∀ t, step s a = some t → Admits admits t as

/-- A whole run. -/
def run (s : σ) (as : List α) : Option σ := as.foldlM step s

variable {step}

theorem run_cons_eq_some {s t : σ} {a : α} {as : List α} :
    run step s (a :: as) = some t ↔ ∃ u, step s a = some u ∧ run step u as = some t := by
  simp only [run, List.foldlM_cons, Option.bind_eq_bind, Option.bind_eq_some_iff]

/-- Where it lies with the input alone whether a step fails, it does for a run. -/
theorem run_isSome_iff {R : α → Prop} (h : ∀ s a, (step s a).isSome = true ↔ R a) (s : σ)
    (as : List α) : (run step s as).isSome = true ↔ ∀ a ∈ as, R a := by
  induction as generalizing s with
  | nil => simp [run]
  | cons a as ih =>
      have hRest : run step s (a :: as) = (step s a).bind fun t => run step t as := rfl
      rw [hRest, List.forall_mem_cons, ← h s a]
      cases step s a with
      | none => simp
      | some t => simp [ih t]

/-- A run whose inputs are all such that no step fails comes to its end. -/
theorem run_of_forall {R : α → Prop} (h : ∀ s a, R a → ∃ t, step s a = some t) (s : σ)
    {as : List α} (hAll : ∀ a ∈ as, R a) : ∃ t, run step s as = some t := by
  induction as generalizing s with
  | nil => exact ⟨s, rfl⟩
  | cons a as ih =>
      obtain ⟨u, hStep⟩ := h s a (hAll a (List.mem_cons_self ..))
      obtain ⟨t, hRest⟩ := ih u fun b hb => hAll b (List.mem_cons_of_mem a hb)
      exact ⟨t, run_cons_eq_some.mpr ⟨u, hStep, hRest⟩⟩

/-- Where a step fails if and only if its input is not admitted, a run comes to its end if and
only if all its inputs are. -/
theorem run_iff_admits {admits : σ → α → Prop}
    (h : ∀ s a, (∃ t, step s a = some t) ↔ admits s a) (s : σ) (as : List α) :
    (∃ t, run step s as = some t) ↔ Admits step admits s as := by
  induction as generalizing s with
  | nil => exact iff_of_true ⟨s, rfl⟩ trivial
  | cons a as ih =>
      constructor
      · rintro ⟨t, hRun⟩
        obtain ⟨u, hStep, hRest⟩ := run_cons_eq_some.mp hRun
        refine ⟨(h s a).mp ⟨u, hStep⟩, ?_⟩
        intro v hv
        cases hStep.symm.trans hv
        exact (ih u).mp ⟨t, hRest⟩
      · rintro ⟨hAdmits, hRest⟩
        obtain ⟨u, hStep⟩ := (h s a).mpr hAdmits
        obtain ⟨t, hRun⟩ := (ih u).mpr (hRest u hStep)
        exact ⟨t, run_cons_eq_some.mpr ⟨u, hStep, hRun⟩⟩

variable {P Q Inv : σ → Prop} {cond : σ → α → Prop}

theorem Throughout.head {s : σ} {as : List α} (h : Throughout step P s as) : P s := by
  cases as with
  | nil => exact h
  | cons a as => exact h.1

theorem Throughout.mono (hPQ : ∀ s, P s → Q s) {s : σ} {as : List α} (h : Throughout step P s as) :
    Throughout step Q s as := by
  induction as generalizing s with
  | nil => exact hPQ s h
  | cons a as ih =>
      refine ⟨hPQ s h.1, ?_⟩
      intro t hStep
      exact ih (h.2 t hStep)

/-- What holds throughout a run holds where it ends. -/
theorem Throughout.last {s t : σ} {as : List α} (h : Throughout step P s as)
    (hRun : run step s as = some t) : P t := by
  induction as generalizing s with
  | nil =>
      cases hRun
      exact h
  | cons a as ih =>
      obtain ⟨u, hStep, hRest⟩ := run_cons_eq_some.mp hRun
      exact ih (h.2 u hStep) hRest

/-- The rule for an invariant that the steps of a kind keep. -/
theorem Heeds.throughout (hKeeps : ∀ {s a t}, Inv s → step s a = some t → cond s a → Inv t) {s : σ}
    {as : List α} (hs : Inv s) (h : Heeds step cond s as) : Throughout step Inv s as := by
  induction as generalizing s with
  | nil => exact hs
  | cons a as ih =>
      refine ⟨hs, ?_⟩
      intro t hStep
      obtain ⟨hCond, hRest⟩ := h t hStep
      exact ih (hKeeps hs hStep hCond) hRest

/-- The rule for an invariant that every step keeps. -/
theorem throughout_of_step (hKeeps : ∀ {s a t}, Inv s → step s a = some t → Inv t) {s : σ}
    (hs : Inv s) (as : List α) : Throughout step Inv s as := by
  induction as generalizing s with
  | nil => exact hs
  | cons a as ih =>
      refine ⟨hs, ?_⟩
      intro t hStep
      exact ih (hKeeps hs hStep)

/-- Where two conditions on a step come to the same as long as an invariant holds, and the
invariant lasts as long as the one is met, they come to the same for whole runs. -/
theorem heeds_iff_heeds {law : σ → α → Prop}
    (hIff : ∀ {s a}, Inv s → (law s a ↔ cond s a))
    (hKeeps : ∀ {s a t}, Inv s → step s a = some t → cond s a → Inv t) {s : σ} (hs : Inv s)
    (as : List α) : Heeds step law s as ↔ Heeds step cond s as := by
  induction as generalizing s with
  | nil => exact Iff.rfl
  | cons a as ih =>
      constructor
      · intro h t hStep
        obtain ⟨hLaw, hRest⟩ := h t hStep
        have hCond := (hIff hs).mp hLaw
        exact ⟨hCond, (ih (hKeeps hs hStep hCond)).mp hRest⟩
      · intro h t hStep
        obtain ⟨hCond, hRest⟩ := h t hStep
        exact ⟨(hIff hs).mpr hCond, (ih (hKeeps hs hStep hCond)).mpr hRest⟩

/-- Where a step leads from good to good if and only if it meets a condition, all states
of a run are good if and only if all its steps meet it. -/
theorem throughout_iff_heeds (hInv : ∀ {s a t}, Inv s → P s → step s a = some t → P t → Inv t)
    (hIff : ∀ {s a t}, Inv s → P s → step s a = some t → (P t ↔ cond s a)) {s : σ} {as : List α}
    (hs : Inv s) (hP : P s) : Throughout step P s as ↔ Heeds step cond s as := by
  induction as generalizing s with
  | nil => exact iff_of_true hP trivial
  | cons a as ih =>
      constructor
      · intro h t hStep
        have hRest := h.2 t hStep
        have hT := hRest.head
        exact ⟨(hIff hs hP hStep).mp hT, (ih (hInv hs hP hStep hT) hT).mp hRest⟩
      · intro h
        refine ⟨hP, ?_⟩
        intro t hStep
        obtain ⟨hCond, hRest⟩ := h t hStep
        have hT := (hIff hs hP hStep).mpr hCond
        exact (ih (hInv hs hP hStep hT) hT).mpr hRest

/-- A count that stays where a step meets a condition, and grows by one where it does not, has
stayed over a run if and only if all steps of the run meet the condition. -/
theorem count_eq_iff_heeds (count : σ → Nat)
    (hMeets : ∀ {s a t}, step s a = some t → cond s a → count t = count s)
    (hBreaks : ∀ {s a t}, step s a = some t → ¬ cond s a → count t = count s + 1) {s t : σ}
    {as : List α} (hRun : run step s as = some t) :
    count s ≤ count t ∧ (count t = count s ↔ Heeds step cond s as) := by
  induction as generalizing s with
  | nil =>
      cases hRun
      exact ⟨Nat.le_refl _, iff_of_true rfl trivial⟩
  | cons a as ih =>
      obtain ⟨u, hStep, hRest⟩ := run_cons_eq_some.mp hRun
      obtain ⟨hLe, hIff⟩ := ih hRest
      by_cases hCond : cond s a
      · have hSame := hMeets hStep hCond
        refine ⟨hSame ▸ hLe, ?_⟩
        rw [← hSame, hIff]
        constructor
        · intro h v hv
          cases hStep.symm.trans hv
          exact ⟨hCond, h⟩
        · intro h
          exact (h u hStep).2
      · have hMore := hBreaks hStep hCond
        refine ⟨by omega, iff_of_false (by omega) ?_⟩
        intro h
        exact hCond (h u hStep).1

/-- What the steps of a run put out, as far as it goes. -/
def outputs {β : Type*} (step : σ → α → Option σ) (out : σ → α → List β) : σ → List α → List β
  | _, [] => []
  | s, a :: as =>
      match step s a with
      | none => []
      | some t => out s a ++ outputs step out t as

/-- Where what a step puts out is good if and only if the step meets a condition, all that a run
puts out is good if and only if all its steps meet it. -/
theorem forall_outputs_iff {β : Type*} {out : σ → α → List β} {R : β → Prop}
    (hIff : ∀ {s a t}, step s a = some t → ((∀ b ∈ out s a, R b) ↔ cond s a)) (s : σ) (as : List α) :
    (∀ b ∈ outputs step out s as, R b) ↔ Heeds step cond s as := by
  induction as generalizing s with
  | nil => simp [outputs, Heeds]
  | cons a as ih =>
      rw [outputs, Heeds]
      cases hStep : step s a with
      | none => simp
      | some t =>
          simp only [List.forall_mem_append, hIff hStep, ih t, Option.some.injEq, forall_eq']

end Runs
