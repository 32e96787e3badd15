import Mathlib.Data.List.Basic

/-! Machines that read symbols one at a time, may fail, and emit outputs. -/

variable {σ τ β ω : Type*}

namespace Transducer

/-- Read a word from left to right and collect the outputs. -/
def reads (read : σ → β → Option (σ × List ω)) (s : σ) : List β → Option (σ × List ω)
  | [] => some (s, [])
  | b :: rest =>
      (read s b).bind fun r => (reads read r.1 rest).map fun t => (t.1, r.2 ++ t.2)

variable {read : σ → β → Option (σ × List ω)}

theorem reads_cons_eq_some {s s' : σ} {b : β} {rest : List β} {out : List ω} :
    reads read s (b :: rest) = some (s', out) ↔
      ∃ t out₁ out₂, read s b = some (t, out₁) ∧ reads read t rest = some (s', out₂) ∧
        out = out₁ ++ out₂ := by
  simp only [reads, Option.bind_eq_some_iff, Option.map_eq_some_iff, Prod.exists, Prod.mk.injEq]
  constructor
  · rintro ⟨t, out₁, hRead, u, out₂, hRest, rfl, rfl⟩
    exact ⟨t, out₁, out₂, hRead, hRest, rfl⟩
  · rintro ⟨t, out₁, out₂, hRead, hRest, rfl⟩
    exact ⟨t, out₁, hRead, s', out₂, hRest, rfl, rfl⟩

theorem reads_append (s : σ) (front rest : List β) :
    reads read s (front ++ rest) =
      (reads read s front).bind fun r => (reads read r.1 rest).map fun t => (t.1, r.2 ++ t.2) := by
  induction front generalizing s with
  | nil => simp [reads]
  | cons b front ih =>
      simp only [List.cons_append, reads, ih]
      rcases read s b with _ | ⟨t, out⟩
      · rfl
      · rcases hFront : reads read t front with _ | ⟨t', out'⟩
        · simp [hFront]
        · rcases hRest : reads read t' rest with _ | ⟨t'', out''⟩ <;> simp [hFront, hRest]

theorem reads_append_eq_some {s s' : σ} {front rest : List β} {out : List ω} :
    reads read s (front ++ rest) = some (s', out) ↔
      ∃ t out₁ out₂, reads read s front = some (t, out₁) ∧ reads read t rest = some (s', out₂) ∧
        out = out₁ ++ out₂ := by
  simp only [reads_append, Option.bind_eq_some_iff, Option.map_eq_some_iff, Prod.exists,
    Prod.mk.injEq]
  constructor
  · rintro ⟨t, out₁, hFront, u, out₂, hRest, rfl, rfl⟩
    exact ⟨t, out₁, out₂, hFront, hRest, rfl⟩
  · rintro ⟨t, out₁, out₂, hFront, hRest, rfl⟩
    exact ⟨t, out₁, hFront, s', out₂, hRest, rfl, rfl⟩

/-- An invariant of one step is an invariant of every run. -/
theorem reads_invariant {Inv : σ → Prop}
    (hStep : ∀ s b s' out, Inv s → read s b = some (s', out) → Inv s') {s s' : σ}
    {word : List β} {out : List ω} (hInv : Inv s) (hRun : reads read s word = some (s', out)) :
    Inv s' := by
  induction word generalizing s out with
  | nil =>
      obtain ⟨rfl, -⟩ := by simpa [reads] using hRun
      exact hInv
  | cons b rest ih =>
      obtain ⟨t, out₁, out₂, hRead, hRest, -⟩ := reads_cons_eq_some.mp hRun
      exact ih (hStep s b t out₁ hInv hRead) hRest

end Transducer
