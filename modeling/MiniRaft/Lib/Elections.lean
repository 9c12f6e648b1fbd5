import MiniRaft.Lib.Consensus

/-!
# One leader for each term

The invariant of votes, candidacies and leaders, kept by every action, and from it that a term has at
most one leader.
-/

namespace Lib

variable {S E : Type*} {Q : Quorums S} {tm : E → ℕ} {h h' : Hist S E} {s : S}

/-- Votes are cast in terms already reached, candidates vote for themselves, leaders hold a vote quorum. -/
structure Hist.Votes (Q : Quorums S) (h : Hist S E) : Prop where
  voteTerm : ∀ {s t c}, h.vote s t = some c → t ≤ h.term s
  standVote : ∀ {s t l}, h.stand s t = some l → h.vote s t = some s
  standPos : ∀ {s t l}, h.stand s t = some l → 1 ≤ t
  voteStood : ∀ {v t c}, h.vote v t = some c → ∃ l, h.stand c t = some l
  leadVotes : ∀ {t L}, h.lead t = some L → ∃ V, Q.vote V ∧ ∀ v ∈ V, h.vote v t = some L
  leadStood : ∀ {t L}, h.lead t = some L → ∃ l, h.stand L t = some l

namespace Hist.Votes

/-- The quorum that elects `s` meets the quorum of any leader of the same term. -/
theorem unique (inv : h.Votes Q) {t : ℕ} {V : Finset S} {L c : S} (quorum : Q.vote V)
    (votes : ∀ v ∈ V, h.vote v t = some c) (leads : h.lead t = some L) : L = c := by
  obtain ⟨W, quorum', votes'⟩ := inv.leadVotes leads
  obtain ⟨v, hv, hw⟩ := Q.vote_vote quorum quorum'
  exact Option.some.inj ((votes' v hw).symm.trans (votes v hv))

theorem leadTerm (inv : h.Votes Q) {t : ℕ} {L : S} (leads : h.lead t = some L) : t ≤ h.term L := by
  obtain ⟨l, stood⟩ := inv.leadStood leads
  exact inv.voteTerm (inv.standVote stood)

theorem leadPos (inv : h.Votes Q) {t : ℕ} {L : S} (leads : h.lead t = some L) : 1 ≤ t := by
  obtain ⟨l, stood⟩ := inv.leadStood leads
  exact inv.standPos stood

/-- Nobody led the term that `s` is about to win. -/
theorem leadNone (inv : h.Votes Q) {t : ℕ} {V : Finset S} (quorum : Q.vote V)
    (votes : ∀ v ∈ V, h.vote v t = some s) (first : h.lead t ≠ some s) : h.lead t = none := by
  cases leads : h.lead t with
  | none => rfl
  | some L => exact absurd (by rw [leads, inv.unique quorum votes leads]) first

/-- No vote and no candidacy is recorded for a term beyond the server's own. -/
theorem fresh (inv : h.Votes Q) {t : ℕ} (later : h.term s < t) : h.vote s t = none ∧ h.stand s t = none := by
  have vote : h.vote s t = none := by
    cases e : h.vote s t with
    | none => rfl
    | some c => exact absurd (inv.voteTerm e) (by omega)
  refine ⟨vote, ?_⟩
  cases e : h.stand s t with
  | none => rfl
  | some l => simp [inv.standVote e] at vote

theorem keepVotes {f : S → ℕ → Option S} (keep : ∀ {x u c}, h.vote x u = some c → f x u = some c)
    (inv : h.Votes Q) {t : ℕ} {L : S} (leads : h.lead t = some L) :
    ∃ V, Q.vote V ∧ ∀ v ∈ V, f v t = some L := by
  obtain ⟨V, quorum, votes⟩ := inv.leadVotes leads
  exact ⟨V, quorum, fun v hv => keep (votes v hv)⟩

end Hist.Votes

section

variable [DecidableEq S]

theorem set2_self {α : Type*} (f : S → ℕ → α) (s : S) (t : ℕ) (a : α) : set2 f s t a s t = a := by simp [set2]

theorem set2_of_ne {α : Type*} {f : S → ℕ → α} {s x : S} {t u : ℕ} {a : α} (ne : ¬ (x = s ∧ u = t)) :
    set2 f s t a x u = f x u := by simp only [set2, if_neg ne]

/-- Setting a cell that was empty, or held the same value, loses nothing. -/
theorem set2_keeps {α : Type*} {f : S → ℕ → Option α} {t : ℕ} {a : α} (free : ∀ x, f s t = some x → x = a)
    {x : S} {u : ℕ} {c : α} (e : f x u = some c) : set2 f s t (some a) x u = some c := by
  by_cases same : x = s ∧ u = t
  · obtain ⟨rfl, rfl⟩ := same
    rw [set2_self, free c e]
  · rw [set2_of_ne same, e]

theorem set2_cases {α : Type*} {f : S → ℕ → Option α} {t : ℕ} {a : α} {x : S} {u : ℕ} {c : α}
    (e : set2 f s t (some a) x u = some c) : x = s ∧ u = t ∧ c = a ∨ f x u = some c := by
  by_cases same : x = s ∧ u = t
  · obtain ⟨rfl, rfl⟩ := same
    rw [set2_self] at e
    exact .inl ⟨rfl, rfl, (Option.some.inj e).symm⟩
  · rw [set2_of_ne same] at e
    exact .inr e

theorem le_update {f : S → ℕ} {t : ℕ} (later : f s ≤ t) (x : S) : f x ≤ Function.update f s t x := by
  by_cases hx : x = s
  · subst hx; simpa using later
  · rw [Function.update_of_ne hx]

/-- The election invariant is kept by every action. -/
theorem Hist.Votes.step (inv : h.Votes Q) (st : Step Q tm h s h') : h'.Votes Q := by
  cases st with
  | adopt later =>
    exact ⟨fun e => (inv.voteTerm e).trans (le_update later.le _), inv.standVote, inv.standPos, inv.voteStood,
      inv.leadVotes, inv.leadStood⟩
  | @stand t later =>
    obtain ⟨noVote, noStand⟩ := inv.fresh later
    have keep : ∀ {x u c}, h.vote x u = some c → set2 h.vote s t (some s) x u = some c :=
      fun e => set2_keeps (fun x hx => by simp [noVote] at hx) e
    have keepStand : ∀ {x u l}, h.stand x u = some l → set2 h.stand s t (some (h.log s)) x u = some l :=
      fun e => set2_keeps (fun x hx => by simp [noStand] at hx) e
    refine ⟨fun {x u c} e => ?_, fun {x u l} e => ?_, fun {x u l} e => ?_, fun {v u c} e => ?_,
      fun leads => inv.keepVotes keep leads, fun leads => ?_⟩
    · rcases set2_cases e with ⟨rfl, rfl, -⟩ | e
      · simp
      · exact (inv.voteTerm e).trans (le_update later.le _)
    · rcases set2_cases e with ⟨rfl, rfl, -⟩ | e
      · exact set2_self ..
      · exact keep (inv.standVote e)
    · rcases set2_cases e with ⟨-, rfl, -⟩ | e
      · omega
      · exact inv.standPos e
    · rcases set2_cases e with ⟨rfl, rfl, rfl⟩ | e
      · exact ⟨_, set2_self ..⟩
      · obtain ⟨l, stood⟩ := inv.voteStood e
        exact ⟨l, keepStand stood⟩
    · obtain ⟨l, stood⟩ := inv.leadStood leads
      exact ⟨l, keepStand stood⟩
  | grant cand free fresh =>
    refine ⟨fun {x u c} e => ?_, fun e => set2_keeps free (inv.standVote e), inv.standPos, fun {v u c} e => ?_,
      fun leads => inv.keepVotes (fun e => set2_keeps free e) leads, inv.leadStood⟩
    · rcases set2_cases e with ⟨rfl, rfl, -⟩ | e
      · exact le_rfl
      · exact inv.voteTerm e
    · rcases set2_cases e with ⟨rfl, rfl, rfl⟩ | e
      · exact ⟨_, cand⟩
      · exact inv.voteStood e
  | @win V quorum votes stood first =>
    refine ⟨inv.voteTerm, inv.standVote, inv.standPos, inv.voteStood, fun {t L} leads => ?_, fun {t L} leads => ?_⟩
    all_goals
      by_cases same : t = h.term s
      · subst same
        obtain rfl : s = L := by simpa using leads
        first | exact ⟨V, quorum, votes⟩ | exact ⟨_, stood⟩
      · simp only [Function.update_of_ne same] at leads
        first | exact inv.leadVotes leads | exact inv.leadStood leads
  | extend leads own => exact { inv with }
  | accept leads other bound merge => exact { inv with }

end

end Lib
