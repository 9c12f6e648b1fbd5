import Mathlib.Data.Finmap

/-!
# Assignments

A map after a list of assignments has under each key what the last assignment to it says.
-/

namespace Lib

variable {K V : Type*} [DecidableEq K]

/-- A new value for a key, or none to remove it. -/
structure Assignment (K V : Type*) where
  key : K
  value : Option V
  deriving DecidableEq

def assign (m : Finmap fun _ : K => V) (a : Assignment K V) : Finmap fun _ : K => V :=
  match a.value with
  | some v => m.insert a.key v
  | none => m.erase a.key

/-- What the last assignment to `k` says. -/
def lastTo (k : K) (as : List (Assignment K V)) : Option V := (as.findRev? (·.key = k)).bind (·.value)

theorem lookup_assign (m : Finmap fun _ : K => V) (a : Assignment K V) (k : K) :
    (assign m a).lookup k = if a.key = k then a.value else m.lookup k := by
  unfold assign
  by_cases same : a.key = k
  · subst same
    cases a.value with
    | none => simp
    | some v => simp
  · rw [if_neg same]
    cases a.value with
    | none => exact Finmap.lookup_erase_ne fun other => same other.symm
    | some v => exact Finmap.lookup_insert_of_ne m fun other => same other.symm

/-- **The last assignment counts.** -/
theorem lookup_assign_all (as : List (Assignment K V)) (k : K) :
    (as.foldl assign (∅ : Finmap fun _ : K => V)).lookup k = lastTo k as := by
  induction as using List.reverseRecOn with
  | nil => rfl
  | append_singleton as a ih =>
    rw [List.foldl_append, List.foldl_cons, List.foldl_nil, lookup_assign, ih]
    by_cases same : a.key = k
    · simp [lastTo, same]
    · simp [lastTo, same]

end Lib
