import MiniRaft.Lib.LeaderLogs

/-!
# Leader completeness

An entry that a commit quorum has stored, or can still store, in its own term is in the log of every
leader of a later term. `Choosable` makes this an invariant of single states: it speaks of servers that may
still acknowledge, so it does not matter whether the quorum is complete when the later leader is elected.
-/

namespace Lib

variable {S E : Type*} {Q : Quorums S} {tm : E → ℕ} {h h' : Hist S E} {s : S}

/-- What keeps a choosable prefix alive: later leaders hold it, servers that stored it keep it, and so does
every candidate that one of those servers votes for in a later term. -/
structure Hist.Keeps (Q : Quorums S) (tm : E → ℕ) (h : Hist S E) : Prop where
  complete : ∀ {t u L i}, h.lead u = some L → t < u → h.Own tm t i → h.Choosable Q t i →
    (h.llog t).take i <+: h.llog u
  retain : ∀ {s t i}, i ≤ h.ack s t → h.Own tm t i → h.Choosable Q t i → (h.llog t).take i <+: h.log s
  ballot : ∀ {v c u l t i}, h.vote v u = some c → h.stand c u = some l → t < u → i ≤ h.ack v t →
    h.Own tm t i → h.Choosable Q t i → (h.llog t).take i <+: l

theorem Hist.Le.own_of_le (le : h.Le h') {t i : ℕ} (own : h'.Own tm t i) (old : i ≤ (h.llog t).length) :
    h.Own tm t i :=
  ⟨own.1, by rw [← termAt_of_prefixed (le.llog t) old, own.2.1], old⟩

theorem Hist.Own.pos (logs : h.Logs tm) {t i : ℕ} (own : h.Own tm t i) : 1 ≤ t := by
  obtain ⟨e, he⟩ : ∃ e, (h.llog t)[i - 1]? = some e :=
    ⟨_, List.getElem?_eq_getElem (by have := own.1; have := own.2.2; omega)⟩
  exact (logs.llogTerm (List.mem_of_getElem? he)).1.trans (logs.llogTerm (List.mem_of_getElem? he)).2

/-- A log that begins with an own prefix of `t` has last term at least `t`. -/
theorem Hist.Own.le_lastTerm (logs : h.Logs tm) {t i : ℕ} (own : h.Own tm t i) {m : List E}
    (co : h.Coherent tm m) (le : (h.llog t).take i <+: m) : i ≤ m.length ∧ t ≤ lastTerm tm m := by
  obtain ⟨low, term, len⟩ := own
  have pos := Hist.Own.pos logs ⟨low, term, len⟩
  have hlen : i ≤ m.length := by
    have := le.length_le
    rwa [List.length_take, Nat.min_eq_left len] at this
  obtain ⟨e, he, te, -, -⟩ := get_of_termAt_pos (term.symm ▸ pos : 0 < termAt tm (h.llog t) i)
  have hm : m[i - 1]? = some e := get_of_take_prefixed le (by omega) he
  obtain ⟨d, hl⟩ : ∃ d, m[m.length - 1]? = some d := ⟨_, List.getElem?_eq_getElem (by omega)⟩
  have := logs.sorted co (by omega) hm hl
  rw [lastTerm_of_get hl]
  exact ⟨hlen, by omega⟩

/-- **The vote comparison carries choosable prefixes.** If `m` holds the prefix and `l` is at least as up
to date, then `l` holds it: either `l` ends in a later term, whose leader holds the prefix, or both end in `t`
and `l` is no shorter. -/
theorem Hist.Keeps.dominate (inv : h.Keeps Q tm) (logs : h.Logs tm) {l m : List E} {t i : ℕ}
    (cl : h.Coherent tm l) (cm : h.Coherent tm m) (fresh : UpToDate tm l m) (own : h.Own tm t i)
    (ch : h.Choosable Q t i) (le : (h.llog t).take i <+: m) : (h.llog t).take i <+: l := by
  have pos := own.pos logs
  obtain ⟨len, last⟩ := own.le_lastTerm logs cm le
  have later : t ≤ lastTerm tm l := by rcases fresh with f | ⟨f, -⟩ <;> omega
  have whole := cl.whole (by omega)
  rcases Nat.eq_or_lt_of_le later with same | later
  · rcases fresh with f | ⟨-, longer⟩
    · omega
    · rw [← same] at whole
      exact take_prefix_of_prefixed whole (len.trans longer)
  · obtain ⟨e, he, te, -⟩ := last_of_lastTerm_pos (by omega : 0 < lastTerm tm l)
    obtain ⟨L, leads⟩ := logs.leads (fun e => by rw [e] at whole; simp [List.prefix_nil.mp whole] at later)
    rcases List.prefix_or_prefix_of_prefix (inv.complete leads later own ch) whole with held | short
    · exact held
    · -- the last entry of `l` would be an entry of the leader log of `t`
      have := (logs.llogTerm (List.mem_of_mem_take (short.subset (List.mem_of_getElem? he)))).2
      omega

/-- At most the servers still in a term can complete a quorum that an election of a later term meets. -/
theorem Hist.Choosable.voter (votes : h.Votes Q) {t u i : ℕ} {V : Finset S} {c : S} (ch : h.Choosable Q t i)
    (quorum : Q.vote V) (elected : ∀ v ∈ V, h.vote v u = some c) (later : t < u) :
    ∃ v ∈ V, i ≤ h.ack v t ∧ u ≤ h.term v := by
  obtain ⟨A, commit, all⟩ := ch
  obtain ⟨v, hA, hV⟩ := Q.commit_vote commit quorum
  have reached := votes.voteTerm (elected v hV)
  exact ⟨v, hV, (all v hA).resolve_right (by omega), reached⟩

variable [DecidableEq S]

/-- The invariant of choosable prefixes is kept by every action. -/
theorem Hist.Keeps.step (inv : h.Keeps Q tm) (votes : h.Votes Q) (logs : h.Logs tm) (st : Step Q tm h s h') :
    h'.Keeps Q tm := by
  have le := st.le votes logs
  have back := @Hist.Le.choosable _ _ Q _ _ le
  cases st with
  | adopt later =>
    exact ⟨fun leads lt own ch => inv.complete leads lt own (back ch), fun a own ch => inv.retain a own (back ch),
      fun v st lt a own ch => inv.ballot v st lt a own (back ch)⟩
  | @stand t later =>
    obtain ⟨noVote, noStand⟩ := votes.fresh later
    refine ⟨fun leads lt own ch => inv.complete leads lt own (back ch), fun a own ch => inv.retain a own (back ch),
      fun {v c u l t' i} vote stood lt a own ch => ?_⟩
    rcases set2_cases vote with ⟨rfl, rfl, rfl⟩ | cast
    · -- the candidate's own vote: it stands with the log it has
      obtain rfl : h.log c = l := by simpa [set2_self] using stood
      exact inv.retain a own (back ch)
    · rcases set2_cases stood with ⟨rfl, rfl, -⟩ | stood'
      · obtain ⟨l, stood'⟩ := votes.voteStood cast
        simp [noStand] at stood'
      · exact inv.ballot cast stood' lt a own (back ch)
  | grant cand free fresh =>
    refine ⟨fun leads lt own ch => inv.complete leads lt own (back ch), fun a own ch => inv.retain a own (back ch),
      fun {v c u l t i} vote stood lt a own ch => ?_⟩
    rcases set2_cases vote with ⟨rfl, rfl, rfl⟩ | cast
    · obtain rfl := Option.some.inj (cand.symm.trans stood)
      exact inv.dominate logs (logs.standCo cand) (logs.logCo v) fresh own (back ch) (inv.retain a own (back ch))
    · exact inv.ballot cast stood lt a own (back ch)
  | @win V quorum elected stood first =>
    -- no entry of the new term yet
    have other : ∀ {t i}, Hist.Own tm { h with
          lead := Function.update h.lead (h.term s) (some s)
          llog := Function.update h.llog (h.term s) (h.log s) } t i → t ≠ h.term s := by
      rintro t i ⟨low, term, len⟩ rfl
      simp only [Function.update_self] at term len
      have pos := votes.standPos stood
      obtain ⟨e, he, te, -, -⟩ := get_of_termAt_pos (term.symm ▸ pos : 0 < termAt tm (h.log s) i)
      have := (logs.standTerm stood (List.mem_of_getElem? he)).2
      omega
    have old : ∀ {t i}, Hist.Own tm _ t i → h.Own tm t i := fun own =>
      le.own_of_le own (by simpa [Function.update_of_ne (other own)] using own.2.2)
    refine ⟨fun {t u L i} leads lt own ch => ?_, fun {x t i} a own ch => ?_, fun {v c u l t i} vote st lt a own ch => ?_⟩
    · simp only [Function.update_of_ne (other own)]
      by_cases hu : u = h.term s
      · subst hu
        obtain ⟨v, hv, acked, -⟩ := (back ch).voter votes quorum elected lt
        simpa using inv.ballot (elected v hv) stood lt acked (old own) (back ch)
      · simp only [Function.update_of_ne hu] at leads ⊢
        exact inv.complete leads lt (old own) (back ch)
    · simp only [Function.update_of_ne (other own)]
      exact inv.retain a (old own) (back ch)
    · simp only [Function.update_of_ne (other own)]
      exact inv.ballot vote st lt a (old own) (back ch)
  | @extend e leads own =>
    have whole := logs.leadLog leads
    have old : ∀ {t i}, i ≤ (h.llog t).length →
        (Function.update h.llog (h.term s) (h.log s ++ [e]) t).take i = (h.llog t).take i :=
      fun hi => take_of_prefixed (le.llog _) hi
    have acked : ∀ {x t i}, i ≤ set2 h.ack s (h.term s) (h.log s ++ [e]).length x t → ¬ (x = s ∧ t = h.term s) →
        i ≤ h.ack x t := fun a ne => by rwa [set2_of_ne ne] at a
    refine ⟨fun {t u L i} leads' lt own' ch => ?_, fun {x t i} a own' ch => ?_, fun {v c u l t i} vote st lt a own' ch => ?_⟩
    · by_cases hi : i ≤ (h.llog t).length
      · exact (old hi).symm ▸ (inv.complete leads' lt (le.own_of_le own' hi) (back ch)).trans (le.llog u)
      · -- the new entry: the quorum that elected the later leader has given it up
        obtain ⟨V, quorum, elected⟩ := votes.leadVotes leads'
        obtain ⟨v, hv, low, reached⟩ := Hist.Choosable.voter (votes.step (Step.extend leads own)) ch quorum elected lt
        have := logs.ackLen v t
        refine absurd (acked low fun same => ?_) (by omega)
        have : h.term s = t := same.2.symm
        rw [same.1] at reached
        simp only at reached
        omega
    · by_cases same : x = s ∧ t = h.term s
      · obtain ⟨rfl, rfl⟩ := same
        simpa using List.take_prefix i (h.log x ++ [e])
      · have a := acked a same
        have hi := a.trans (logs.ackLen x t)
        have kept := inv.retain a (le.own_of_le own' hi) (back ch)
        rw [old hi]
        by_cases hx : x = s
        · subst hx; simpa using kept.trans (List.prefix_append _ [e])
        · simpa [Function.update_of_ne hx] using kept
    · have a := acked a fun same => by
        have := votes.voteTerm vote
        rw [same.1] at this
        have := same.2
        omega
      have hi := a.trans (logs.ackLen v t)
      exact (old hi).symm ▸ inv.ballot vote st lt a (le.own_of_le own' hi) (back ch)
  | @accept L k l leads other bound merge =>
    have acked : ∀ {x t i}, i ≤ set2 h.ack s (h.term s) (max (h.ack s (h.term s)) k) x t → ¬ (x = s ∧ t = h.term s) →
        i ≤ h.ack x t := fun a ne => by rwa [set2_of_ne ne] at a
    have batch : (h.llog (h.term s)).take k <+: h.llog (h.term s) := List.take_prefix ..
    refine ⟨fun leads lt own ch => inv.complete leads lt own (back ch), fun {x t i} a own ch => ?_,
      fun {v c u l t i} vote st lt a own ch => ?_⟩
    · by_cases hx : x = s
      · subst hx
        simp only [Function.update_self]
        by_cases ht : t = h.term x
        · subst ht
          simp only [set2_self] at a
          rcases le_max_iff.mp a with a | a
          · exact prefix_merge_of_prefixed merge batch (inv.retain a own (back ch)) (List.take_prefix ..)
          · exact (take_prefix_of_le a).trans (prefix_of_merge merge)
        · -- an older term: the present leader holds the prefix too
          have a := acked a fun same => ht same.2
          have early : t < h.term x := lt_of_le_of_ne (logs.ackTerm (own.1.trans a)) ht
          exact prefix_merge_of_prefixed merge batch (inv.retain a own (back ch)) (inv.complete leads early own (back ch))
      · simp only [Function.update_of_ne hx]
        exact inv.retain (acked a fun same => hx same.1) own (back ch)
    · refine inv.ballot vote st lt (acked a fun same => ?_) own (back ch)
      have := votes.voteTerm vote
      rw [same.1] at this
      have := same.2
      omega

end Lib
