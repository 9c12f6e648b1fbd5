import Mathlib.Data.List.Basic
import Mathlib.Logic.Relation
import Mathlib.Order.Basic
import Mathlib.Order.Nat

/-!
# What a system can do in time

Some run leads from a state to one with a property, and a clock says how much later that is. Runs are put together one
after the other, along a rank, or for one thing of a list after the other.
-/

namespace Lib

variable {α ι : Type*} {step : α → α → Prop} {clock : α → ℕ} {d d' n : ℕ} {φ ψ inv : α → Prop} {a b : α}

/-- Some run from `a` comes to a state with `φ`, at most `d` later. -/
def Attains (step : α → α → Prop) (clock : α → ℕ) (d : ℕ) (φ : α → Prop) (a : α) : Prop :=
  ∃ b, Relation.ReflTransGen step a b ∧ clock b ≤ clock a + d ∧ φ b

namespace Attains

theorem here (holds : φ a) : Attains step clock d φ a := ⟨a, .refl, Nat.le_add_right .., holds⟩

theorem single (st : step a b) (soon : clock b ≤ clock a + d) (holds : φ b) : Attains step clock d φ a :=
  ⟨b, .single st, soon, holds⟩

theorem mono (attains : Attains step clock d φ a) (le : d ≤ d') (weaker : ∀ b, φ b → ψ b) : Attains step clock d' ψ a := by
  obtain ⟨b, run, soon, holds⟩ := attains
  exact ⟨b, run, soon.trans (Nat.add_le_add_left le _), weaker b holds⟩

/-- One run after the other. -/
theorem andThen (first : Attains step clock d φ a) (next : ∀ b, φ b → Attains step clock d' ψ b) :
    Attains step clock (d + d') ψ a := by
  obtain ⟨b, run, soon, holds⟩ := first
  obtain ⟨b', run', soon', holds'⟩ := next b holds
  exact ⟨b', run.trans run', by omega, holds'⟩

/-- A run that takes no time before another. -/
theorem at_once (first : Attains step clock 0 φ a) (next : ∀ b, φ b → Attains step clock d ψ b) :
    Attains step clock d ψ a := (first.andThen next).mono (Nat.zero_add d).le fun _ holds => holds

/-- A run that takes no time after another. -/
theorem and_at_once (first : Attains step clock d φ a) (next : ∀ b, φ b → Attains step clock 0 ψ b) :
    Attains step clock d ψ a := first.andThen next

/-- **A rank comes down to zero**, by `d` for each of its steps. -/
theorem of_rank (rank : α → ℕ)
    (less : ∀ a, inv a → 0 < rank a → Attains step clock d (fun b => inv b ∧ rank b < rank a) a)
    (start : inv a) (le : rank a ≤ n) : Attains step clock (d * n) (fun b => inv b ∧ rank b = 0) a := by
  induction n generalizing a with
  | zero => exact here ⟨start, Nat.le_zero.mp le⟩
  | succ n ih =>
    rcases Nat.eq_zero_or_pos (rank a) with zero | pos
    · exact here ⟨start, zero⟩
    · have rest := (less a start pos).andThen fun b ⟨kept, lower⟩ => ih kept (by omega)
      exact rest.mono (by rw [Nat.mul_succ]; omega) fun _ holds => holds

/-- **One thing after the other** is done, where what is done stays so. -/
theorem each (items : List ι) (done : ι → α → Prop)
    (work : ∀ x ∈ items, ∀ a, inv a → Attains step clock d (fun b => inv b ∧ done x b ∧ ∀ y, done y a → done y b) a)
    (start : inv a) : Attains step clock (d * items.length) (fun b => inv b ∧ ∀ x ∈ items, done x b) a := by
  suffices h : Attains step clock (d * items.length) (fun b => inv b ∧ (∀ x ∈ items, done x b) ∧ ∀ y, done y a → done y b) a
    from h.mono le_rfl fun _ ⟨kept, all, _⟩ => ⟨kept, all⟩
  induction items generalizing a with
  | nil => exact here ⟨start, List.forall_mem_nil _, fun _ holds => holds⟩
  | cons x items ih =>
    have rest := (work x List.mem_cons_self a start).andThen fun b ⟨kept, own, old⟩ =>
      (ih (fun y mem => work y (List.mem_cons_of_mem x mem)) kept).mono le_rfl fun b' ⟨kept', all, old'⟩ =>
        (⟨kept', List.forall_mem_cons.mpr ⟨old' x own, all⟩, fun y holds => old' y (old y holds)⟩ :
          inv b' ∧ (∀ y ∈ x :: items, done y b') ∧ ∀ y, done y a → done y b')
    exact rest.mono (by rw [List.length_cons, Nat.mul_succ]; omega) fun _ holds => holds

end Attains

end Lib
