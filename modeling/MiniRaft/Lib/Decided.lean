import MiniRaft.Lib.Completeness

/-!
# Decided prefixes

A prefix is decided by term `t` when a leader of a term up to `t` has committed it. Decided prefixes are
ordered by extension, are held by every leader from `t` on, and are never lost from a log that holds them.
-/

namespace Lib

variable {S E : Type*} {Q : Quorums S} {tm : E → ℕ} {h h' : Hist S E} {s : S}

/-- The whole invariant of a history. -/
structure Hist.Inv (Q : Quorums S) (tm : E → ℕ) (h : Hist S E) : Prop where
  votes : h.Votes Q
  logs : h.Logs tm
  keeps : h.Keeps Q tm

/-- `p` is the beginning of what some term up to `t` has committed. -/
def Hist.Decided (Q : Quorums S) (tm : E → ℕ) (h : Hist S E) (t : ℕ) (p : List E) : Prop :=
  p = [] ∨ ∃ u ≤ t, ∃ i, h.Committed Q tm u i ∧ p.length ≤ i ∧ p <+: h.llog u

namespace Hist.Decided

theorem nil (t : ℕ) : h.Decided Q tm t [] := .inl rfl

theorem mono (le : h.Le h') {t u : ℕ} {p : List E} (d : h.Decided Q tm t p) (htu : t ≤ u) : h'.Decided Q tm u p := by
  rcases d with rfl | ⟨v, hv, i, c, len, pre⟩
  · exact nil u
  · exact .inr ⟨v, hv.trans htu, i, le.committed c, len, pre.trans (le.llog v)⟩

theorem of_prefixed {t : ℕ} {p q : List E} (d : h.Decided Q tm t p) (pre : q <+: p) : h.Decided Q tm t q := by
  rcases d with rfl | ⟨u, hu, i, c, len, pu⟩
  · exact .inl (List.prefix_nil.mp pre)
  · exact .inr ⟨u, hu, i, c, pre.length_le.trans len, pre.trans pu⟩

/-- Every leader of term `t` or later holds what is decided by `t`. -/
theorem leader (inv : h.Inv Q tm) {t u : ℕ} {p : List E} (d : h.Decided Q tm t p) (le : t ≤ u) {L : S}
    (leads : h.lead u = some L) : p <+: h.llog u := by
  rcases d with rfl | ⟨v, hv, i, c, len, pv⟩
  · exact List.nil_prefix
  · rcases Nat.eq_or_lt_of_le (hv.trans le) with rfl | lt
    · exact pv
    · have held := inv.keeps.complete leads lt c.1 c.choosable
      exact (List.prefix_take_iff.mpr ⟨pv, len⟩).trans held

/-- What is decided by `t` has no entry of a later term. -/
theorem termAt_le (inv : h.Inv Q tm) {t : ℕ} {p : List E} (d : h.Decided Q tm t p) (j : ℕ) : termAt tm p j ≤ t := by
  rcases Nat.eq_zero_or_pos (termAt tm p j) with zero | pos
  · omega
  obtain ⟨e, he, te, -, -⟩ := get_of_termAt_pos pos
  have member := List.mem_of_getElem? he
  rcases d with rfl | ⟨u, hu, i, c, len, pu⟩
  · cases member
  · exact te ▸ (inv.logs.llogTerm (pu.subset member)).2.trans hu

/-- Decided prefixes are ordered by extension. -/
theorem comparable (inv : h.Inv Q tm) {t u : ℕ} {p q : List E} (dp : h.Decided Q tm t p) (dq : h.Decided Q tm u q) :
    p <+: q ∨ q <+: p := by
  rcases dp with rfl | ⟨v, -, i, c, len, pv⟩
  · exact .inl List.nil_prefix
  rcases dq with rfl | ⟨w, -, j, d, len', qw⟩
  · exact .inr List.nil_prefix
  obtain ⟨L, leadV⟩ := Hist.Logs.Own.leads c.1 inv.logs
  obtain ⟨M, leadW⟩ := Hist.Logs.Own.leads d.1 inv.logs
  rcases Nat.le_total v w with le | le
  · exact List.prefix_or_prefix_of_prefix (leader inv (.inr ⟨v, le_rfl, i, c, len, pv⟩) le leadW) qw
  · exact List.prefix_or_prefix_of_prefix pv (leader inv (.inr ⟨w, le_rfl, j, d, len', qw⟩) le leadV)

/-- Two decided prefixes hold the same entry wherever both reach. -/
theorem agree (inv : h.Inv Q tm) {t u : ℕ} {p q : List E} (dp : h.Decided Q tm t p) (dq : h.Decided Q tm u q) {i : ℕ}
    {d e : E} (hd : p[i]? = some d) (he : q[i]? = some e) : d = e := by
  rcases comparable inv dp dq with pre | pre
  · exact Option.some.inj ((get_of_prefixed pre hd).symm.trans he)
  · exact Option.some.inj (hd.symm.trans (get_of_prefixed pre he))

end Hist.Decided

variable [DecidableEq S]

theorem Hist.Inv.step (inv : h.Inv Q tm) (st : Step Q tm h s h') : h'.Inv Q tm :=
  ⟨inv.votes.step st, inv.logs.step inv.votes st, inv.keeps.step inv.votes inv.logs st⟩

/-- **A decided prefix is never lost** from a log that holds it. -/
theorem Step.decided_kept (inv : h.Inv Q tm) (st : Step Q tm h s h') {x : S} {p : List E}
    (d : h.Decided Q tm (h.term x) p) (held : p <+: h.log x) : p <+: h'.log x := by
  cases st with
  | adopt | stand | grant | win => exact held
  | extend leads own =>
    by_cases hx : x = s
    · subst hx; simpa using held.trans (List.prefix_append ..)
    · simpa [Function.update_of_ne hx] using held
  | accept leads other bound merge =>
    by_cases hx : x = s
    · subst hx
      simpa using prefix_merge_of_prefixed merge (List.take_prefix ..) held (d.leader inv le_rfl leads)
    · simpa [Function.update_of_ne hx] using held

/-- What an action of `s` leaves alone: everything the other servers own. -/
structure Hist.Frame (s : S) (h h' : Hist S E) : Prop where
  term : ∀ {x}, x ≠ s → h'.term x = h.term x
  log : ∀ {x}, x ≠ s → h'.log x = h.log x
  vote : ∀ {x}, x ≠ s → h'.vote x = h.vote x
  ack : ∀ {x}, x ≠ s → h'.ack x = h.ack x
  lead : ∀ {x t}, x ≠ s → h'.lead t = some x → h.lead t = some x

theorem set2_row {α : Type*} {f : S → ℕ → α} {t : ℕ} {a : α} {x : S} (hx : x ≠ s) : set2 f s t a x = f x :=
  funext fun _ => set2_of_ne fun e => hx e.1

theorem Step.frame (st : Step Q tm h s h') : h.Frame s h' := by
  cases st with
  | adopt => exact ⟨fun hx => Function.update_of_ne hx .., fun _ => rfl, fun _ => rfl, fun _ => rfl, fun _ e => e⟩
  | stand => exact ⟨fun hx => Function.update_of_ne hx .., fun _ => rfl, set2_row, fun _ => rfl, fun _ e => e⟩
  | grant => exact ⟨fun _ => rfl, fun _ => rfl, set2_row, fun _ => rfl, fun _ e => e⟩
  | win =>
    refine ⟨fun _ => rfl, fun _ => rfl, fun _ => rfl, fun _ => rfl, fun {x t} hx e => ?_⟩
    by_cases ht : t = h.term s
    · subst ht; exact absurd (by simpa using e) (Ne.symm hx)
    · simpa [Function.update_of_ne ht] using e
  | extend => exact ⟨fun _ => rfl, fun hx => Function.update_of_ne hx .., fun _ => rfl, set2_row, fun _ e => e⟩
  | accept => exact ⟨fun _ => rfl, fun hx => Function.update_of_ne hx .., fun _ => rfl, set2_row, fun _ e => e⟩

/-- What any number of actions of `s` keep. -/
structure Evolved (Q : Quorums S) (tm : E → ℕ) (s : S) (h h' : Hist S E) : Prop where
  inv : h'.Inv Q tm
  le : h.Le h'
  frame : h.Frame s h'
  kept : ∀ {x p}, h.Decided Q tm (h.term x) p → p <+: h.log x → p <+: h'.log x

theorem Evolve.evolved (inv : h.Inv Q tm) (ev : Evolve Q tm s h h') : Evolved Q tm s h h' := by
  induction ev with
  | refl => exact ⟨inv, .refl h, ⟨fun _ => rfl, fun _ => rfl, fun _ => rfl, fun _ => rfl, fun _ e => e⟩, fun _ held => held⟩
  | @tail a b _ st ih =>
    have fr := st.frame
    have le := st.le ih.inv.votes ih.inv.logs
    exact {
      inv := ih.inv.step st
      le := ih.le.trans le
      frame := {
        term := fun hx => (fr.term hx).trans (ih.frame.term hx)
        log := fun hx => (fr.log hx).trans (ih.frame.log hx)
        vote := fun hx => (fr.vote hx).trans (ih.frame.vote hx)
        ack := fun hx => (fr.ack hx).trans (ih.frame.ack hx)
        lead := fun hx e => ih.frame.lead hx (fr.lead hx e) }
      kept := fun d held => st.decided_kept ih.inv (d.mono ih.le (ih.le.term _)) (ih.kept d held) }

end Lib
