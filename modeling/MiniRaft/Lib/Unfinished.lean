import MiniRaft.Lib.Stored

/-!
# Merges that were not finished

A server that stores the leader log of its term first removes what conflicts with it. If it stops in between, its log
is a beginning of the log it had, and ends after what the two have in common. This is no action of `Step`, but it
keeps what the actions keep.
-/

namespace Lib

variable {S E : Type*} {Q : Quorums S} {tm : E → ℕ} {h h' h'' : Hist S E} {s x : S} {n j t : ℕ} {p : List E}

/-- The log of `s` and the leader log of its term, led by another server, have their first `n` entries in common, and
no more. -/
structure Hist.Parts (h : Hist S E) (s : S) (n : ℕ) : Prop where
  leads : ∃ L ≠ s, h.lead (h.term s) = some L
  held : (h.llog (h.term s)).take n <+: h.log s
  parts : ¬ (h.llog (h.term s)).take (n + 1) <+: h.log s

namespace Hist.Parts

theorem length_le (parts : h.Parts s n) (own : p <+: h.log s) (led : p <+: h.llog (h.term s)) : p.length ≤ n := by
  by_contra long
  exact parts.parts ((take_prefix_of_prefixed led (by omega)).trans own)

/-- What the two have in common is not removed. -/
theorem kept (parts : h.Parts s n) (le : n ≤ j) (own : p <+: h.log s) (led : p <+: h.llog (h.term s)) :
    p <+: (h.log s).take j :=
  List.prefix_take_iff.mpr ⟨own, (parts.length_le own led).trans le⟩

end Hist.Parts

variable [DecidableEq S]

/-- Only the first `j` entries of the log of `s` are left. -/
def Hist.cut (h : Hist S E) (s : S) (j : ℕ) : Hist S E :=
  { h with log := Function.update h.log s ((h.log s).take j) }

theorem Hist.le_cut (h : Hist S E) (s : S) (j : ℕ) : h.Le (h.cut s j) := { Hist.Le.refl h with }

theorem Hist.log_cut_self (h : Hist S E) (s : S) (j : ℕ) : (h.cut s j).log s = (h.log s).take j :=
  Function.update_self ..

theorem Hist.log_cut_of_ne (other : x ≠ s) : (h.cut s j).log x = h.log x := Function.update_of_ne other ..

theorem Hist.log_cut_prefixed (h : Hist S E) (s x : S) (j : ℕ) : (h.cut s j).log x <+: h.log x := by
  by_cases own : x = s
  · rw [own, h.log_cut_self]
    exact List.take_prefix ..
  · rw [log_cut_of_ne own]

namespace Hist.Parts

theorem logs (parts : h.Parts s n) (logs : h.Logs tm) : (h.cut s j).Logs tm :=
  { logs with
    leadLog := fun {x} leads => by
      have other : x ≠ s := by
        rintro rfl
        obtain ⟨L, ne, leads'⟩ := parts.leads
        exact ne (Option.some.inj (leads'.symm.trans leads))
      rw [log_cut_of_ne other]
      exact logs.leadLog leads
    logTerm := fun {x e} member => logs.logTerm ((h.log_cut_prefixed s x j).subset member)
    logCo := fun x => ((h.le_cut s j).coherent (logs.logCo x)).of_prefixed (h.log_cut_prefixed s x j) }

theorem keeps (parts : h.Parts s n) (le : n ≤ j) (inv : h.Inv Q tm) : (h.cut s j).Keeps Q tm where
  complete := inv.keeps.complete
  ballot := inv.keeps.ballot
  retain := fun {x t i} acked own choosable => by
    have held := inv.keeps.retain acked own choosable
    by_cases same : x = s
    · subst same
      rw [log_cut_self]
      obtain ⟨L, -, leads⟩ := parts.leads
      have reached : t ≤ h.term x := inv.logs.ackTerm (own.1.trans acked)
      -- the leader of the present term holds what may have been committed before it
      rcases Nat.eq_or_lt_of_le reached with rfl | early
      · exact parts.kept le held (List.take_prefix ..)
      · exact parts.kept le held (inv.keeps.complete leads early own choosable)
    · rw [log_cut_of_ne same]
      exact held

theorem inv (parts : h.Parts s n) (le : n ≤ j) (inv : h.Inv Q tm) : (h.cut s j).Inv Q tm :=
  ⟨{ inv.votes with }, parts.logs inv.logs, parts.keeps le inv⟩

/-- **Stopping in the middle of a merge** loses nothing that is decided, and leaves the other servers alone. -/
theorem evolved (parts : h.Parts s n) (le : n ≤ j) (inv : h.Inv Q tm) : Evolved Q tm s h (h.cut s j) where
  inv := parts.inv le inv
  le := h.le_cut s j
  frame := ⟨fun _ => rfl, log_cut_of_ne, fun _ => rfl, fun _ => rfl, fun _ e => e⟩
  kept := fun {x p} decided held => by
    by_cases same : x = s
    · subst same
      rw [log_cut_self]
      obtain ⟨L, -, leads⟩ := parts.leads
      exact parts.kept le held (decided.leader inv le_rfl leads)
    · rw [log_cut_of_ne same]
      exact held

/-- What was acknowledged stays stored. -/
theorem stored (parts : h.Parts s n) (le : n ≤ j) (stored : h.Stored) : (h.cut s j).Stored := by
  intro x
  by_cases same : x = s
  · subst same
    rw [log_cut_self]
    exact parts.kept le (stored x) (List.take_prefix ..)
  · rw [log_cut_of_ne same]
    exact stored x

end Hist.Parts

theorem Evolved.refl (inv : h.Inv Q tm) : Evolved Q tm s h h := Evolve.evolved inv .refl

omit [DecidableEq S] in
theorem Evolved.trans (first : Evolved Q tm s h h') (second : Evolved Q tm s h' h'') : Evolved Q tm s h h'' where
  inv := second.inv
  le := first.le.trans second.le
  frame := {
    term := fun other => (second.frame.term other).trans (first.frame.term other)
    log := fun other => (second.frame.log other).trans (first.frame.log other)
    vote := fun other => (second.frame.vote other).trans (first.frame.vote other)
    ack := fun other => (second.frame.ack other).trans (first.frame.ack other)
    lead := fun other e => first.frame.lead other (second.frame.lead other e) }
  kept := fun {x _} decided held =>
    second.kept (decided.mono first.le (first.le.term x)) (first.kept decided held)

end Lib
