import MiniRaft.Lib.Decided

/-!
# What is acknowledged is stored

As long as a server stays in a term, its log begins with all that it has acknowledged of the leader log of that
term.
-/

namespace Lib

variable {S E : Type*} {Q : Quorums S} {tm : E → ℕ} {h h' : Hist S E} {s : S}

def Hist.Stored (h : Hist S E) : Prop := ∀ x, (h.llog (h.term x)).take (h.ack x (h.term x)) <+: h.log x

/-- Nothing of a term is acknowledged before the term. -/
theorem Hist.Logs.ack_of_later (logs : h.Logs tm) {t : ℕ} (later : h.term s < t) : h.ack s t = 0 := by
  by_contra pos
  have := logs.ackTerm (Nat.pos_of_ne_zero pos)
  omega

variable [DecidableEq S]

theorem Hist.Stored.step (stored : h.Stored) (votes : h.Votes Q) (logs : h.Logs tm) (st : Step Q tm h s h') :
    h'.Stored := by
  have le := st.le votes logs
  -- a longer leader log, of which no more is acknowledged
  have longer {x : S} {m : List E} (pre : h.llog (h.term x) <+: m) : m.take (h.ack x (h.term x)) <+: h.log x := by
    rw [take_of_prefixed pre (logs.ackLen ..)]
    exact stored x
  intro x
  cases st with
  | @adopt t later | @stand t later =>
    by_cases hx : x = s
    · subst hx
      simp only [Function.update_self, logs.ack_of_later later, List.take_zero]
      exact List.nil_prefix
    · simp only [Function.update_of_ne hx]
      exact stored x
  | grant cand free fresh => exact stored x
  | win quorum elected stood first => exact longer (le.llog _)
  | @extend e leads own =>
    by_cases hx : x = s
    · subst hx
      simp only [Function.update_self, set2_self, List.take_length]
      exact List.prefix_rfl
    · simp only [Function.update_of_ne hx, set2_of_ne (fun same : x = s ∧ _ => hx same.1)]
      exact longer (le.llog _)
  | @accept L k l leads other bound merge =>
    by_cases hx : x = s
    · subst hx
      simp only [Function.update_self, set2_self]
      rcases Nat.le_total (h.ack x (h.term x)) k with more | less
      · rw [Nat.max_eq_right more]
        exact prefix_of_merge merge
      · rw [Nat.max_eq_left less]
        exact prefix_merge_of_prefixed merge (List.take_prefix ..) (stored x) (List.take_prefix ..)
    · simp only [Function.update_of_ne hx, set2_of_ne (fun same : x = s ∧ _ => hx same.1)]
      exact stored x

theorem Evolve.stored (ev : Evolve Q tm s h h') (inv : h.Inv Q tm) (stored : h.Stored) : h'.Stored := by
  induction ev with
  | refl => exact stored
  | @tail a b before st ih =>
    have inv' := (Evolve.evolved inv before).inv
    exact ih.step inv'.votes inv'.logs st

end Lib
