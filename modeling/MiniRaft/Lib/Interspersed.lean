import Mathlib.Data.List.Basic
import Mathlib.Data.Nat.Notation

/-!
# Inputs that leave no trace

A deterministic machine is given a list of inputs, and the same list with silent inputs put in: inputs that change
nothing that is seen of a state. Then the same is seen.
-/

namespace Lib

section

variable {σ ι τ ω : Type*}

/-- The states that a machine goes through. -/
def visits (step : σ → ι → σ) : σ → List ι → List σ
  | s, [] => [s]
  | s, i :: inputs => s :: visits step (step s i) inputs

/-- What is observed at each input. -/
def observes (step : σ → ι → σ) (observe : σ → ι → List ω) : σ → List ι → List ω
  | _, [] => []
  | s, i :: inputs => observe s i ++ observes step observe (step s i) inputs

/-- From `s`, the second list is the first with inputs put in that are silent where they come. -/
inductive Interspersed (step : σ → ι → σ) (silent : σ → ι → Prop) : σ → List ι → List ι → Prop where
  | nil (s : σ) : Interspersed step silent s [] []
  | keep {s : σ} {inputs more : List ι} (i : ι) (rest : Interspersed step silent (step s i) inputs more) :
      Interspersed step silent s (i :: inputs) (i :: more)
  | insert {s : σ} {inputs more : List ι} (i : ι) (hush : silent s i)
      (rest : Interspersed step silent (step s i) inputs more) : Interspersed step silent s inputs (i :: more)

variable {step : σ → ι → σ} {silent : σ → ι → Prop} {view : σ → τ} {observe : σ → ι → List ω} {s t : σ}
  {inputs more : List ι}

namespace Interspersed

/-- **The same states are reached.** -/
theorem visits (h : Interspersed step silent s inputs more) (same : view s = view t)
    (congr : ∀ s t i, view s = view t → view (step s i) = view (step t i))
    (hushed : ∀ s i, silent s i → view (step s i) = view s) (q : τ) :
    q ∈ (visits step s more).map view ↔ q ∈ (Lib.visits step t inputs).map view := by
  induction h generalizing t with
  | nil s => simp [Lib.visits, same]
  | keep i rest ih =>
    have later := ih (congr _ _ i same)
    simp only [Lib.visits, List.map_cons, List.mem_cons, same, later]
  | @insert s inputs more i hush rest ih =>
    have later := ih ((hushed s i hush).trans same)
    have here : view s ∈ (Lib.visits step t inputs).map view := by
      rw [same]
      cases inputs <;> simp [Lib.visits]
    simp only [Lib.visits, List.map_cons, List.mem_cons, later]
    constructor
    · rintro (rfl | there)
      · exact here
      · exact there
    · exact .inr

/-- **The same is observed**, where silent inputs show nothing. -/
theorem observes (h : Interspersed step silent s inputs more) (same : view s = view t)
    (congr : ∀ s t i, view s = view t → view (step s i) = view (step t i))
    (hushed : ∀ s i, silent s i → view (step s i) = view s)
    (alike : ∀ s t i, view s = view t → observe s i = observe t i)
    (mute : ∀ s i, silent s i → observe s i = []) :
    Lib.observes step observe s more = Lib.observes step observe t inputs := by
  induction h generalizing t with
  | nil s => rfl
  | keep i rest ih => rw [Lib.observes, Lib.observes, alike _ _ i same, ih (congr _ _ i same)]
  | insert i hush rest ih => rw [Lib.observes, mute _ i hush, List.nil_append, ih ((hushed _ i hush).trans same)]

end Interspersed

end

end Lib
