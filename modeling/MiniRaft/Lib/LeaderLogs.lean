import MiniRaft.Lib.Elections

/-!
# Every log is made of leader logs

Each prefix of each log is the beginning of the leader log of its last entry's term. Log matching is a
consequence: two logs that agree on the term at an index agree up to that index.
-/

namespace Lib

variable {S E : Type*} {Q : Quorums S} {tm : E → ℕ} {h h' : Hist S E} {s : S}

namespace Hist.Coherent

theorem of_prefixed {l m : List E} (co : h.Coherent tm m) (le : l <+: m) : h.Coherent tm l := by
  intro i e he
  have len := (List.getElem?_eq_some_iff.mp he).1
  rw [← take_of_prefixed le (by omega : i + 1 ≤ l.length)]
  exact co i e (get_of_prefixed le he)

/-- **Log matching.** Coherent logs with one term at index `i` have the same first `i` entries. -/
theorem matching {l m : List E} (cl : h.Coherent tm l) (cm : h.Coherent tm m) {i : ℕ} {d e : E}
    (hd : l[i]? = some d) (he : m[i]? = some e) (same : tm d = tm e) : l.take (i + 1) = m.take (i + 1) := by
  have pl := cl i d hd
  have pm := same ▸ cm i e he
  have ll := (List.getElem?_eq_some_iff.mp hd).1
  have lm := (List.getElem?_eq_some_iff.mp he).1
  have len : (l.take (i + 1)).length = (m.take (i + 1)).length := by simp only [List.length_take]; omega
  exact (List.prefix_of_prefix_length_le pl pm len.le).eq_of_length len

/-- The same in terms of `termAt`, the empty prefix included. -/
theorem matching_termAt {l m : List E} (cl : h.Coherent tm l) (cm : h.Coherent tm m) {i : ℕ}
    (pos : 0 < termAt tm l i) (same : termAt tm l i = termAt tm m i) : l.take i = m.take i := by
  obtain ⟨d, hd, td, low, -⟩ := get_of_termAt_pos pos
  obtain ⟨e, he, te, -, -⟩ := get_of_termAt_pos (same ▸ pos)
  have := cl.matching cm hd he (td.trans (same.trans te.symm))
  rwa [show i - 1 + 1 = i by omega] at this

/-- A coherent log with last term `t` begins the leader log of `t`. -/
theorem whole {l : List E} (co : h.Coherent tm l) (pos : 0 < lastTerm tm l) : l <+: h.llog (lastTerm tm l) := by
  obtain ⟨e, he, te, len⟩ := last_of_lastTerm_pos pos
  have := co _ e he
  rwa [te, show l.length - 1 + 1 = l.length by omega, List.take_length] at this

/-- A leader's new entry keeps its log coherent once the leader log of its term records it. -/
theorem append {l : List E} {e : E} {t : ℕ} (co : h.Coherent tm l) (le : h.Le h') (own : tm e = t)
    (record : h'.llog t = l ++ [e]) : h'.Coherent tm (l ++ [e]) := by
  intro i d hd
  have len := (List.getElem?_eq_some_iff.mp hd).1
  simp only [List.length_append, List.length_singleton] at len
  rcases Nat.lt_or_ge i l.length with low | high
  · rw [List.getElem?_append_left low] at hd
    rw [List.take_append_of_le_length (by omega)]
    exact (co i d hd).trans (le.llog _)
  · obtain rfl : i = l.length := by omega
    obtain rfl : e = d := by simpa using hd
    rw [own, record, List.take_of_length_le (by simp)]

end Hist.Coherent

/-- What the logs of servers, candidates and leaders are made of, and what acknowledgements cover. -/
structure Hist.Logs (tm : E → ℕ) (h : Hist S E) : Prop where
  noLead : ∀ {t}, h.lead t = none → h.llog t = []
  leadLog : ∀ {s}, h.lead (h.term s) = some s → h.log s = h.llog (h.term s)
  logTerm : ∀ {s e}, e ∈ h.log s → 1 ≤ tm e ∧ tm e ≤ h.term s
  llogTerm : ∀ {t e}, e ∈ h.llog t → 1 ≤ tm e ∧ tm e ≤ t
  standTerm : ∀ {s t l e}, h.stand s t = some l → e ∈ l → 1 ≤ tm e ∧ tm e < t
  logCo : ∀ s, h.Coherent tm (h.log s)
  llogCo : ∀ t, h.Coherent tm (h.llog t)
  standCo : ∀ {s t l}, h.stand s t = some l → h.Coherent tm l
  ackLen : ∀ s t, h.ack s t ≤ (h.llog t).length
  ackTerm : ∀ {s t}, 0 < h.ack s t → t ≤ h.term s

namespace Hist.Logs

/-- Terms do not decrease along a coherent log. -/
theorem sorted (inv : h.Logs tm) {l : List E} (co : h.Coherent tm l) {i j : ℕ} {d e : E} (le : i ≤ j)
    (hd : l[i]? = some d) (he : l[j]? = some e) : tm d ≤ tm e :=
  (inv.llogTerm (List.mem_of_getElem? (get_of_take_prefixed (co j e he) (by omega) hd))).2

theorem pairwise (inv : h.Logs tm) {l : List E} (co : h.Coherent tm l) : (l.map tm).Pairwise (· ≤ ·) := by
  rw [List.pairwise_map, List.pairwise_iff_getElem]
  intro i j hi hj less
  exact inv.sorted co less.le (List.getElem?_eq_getElem hi) (List.getElem?_eq_getElem hj)

/-- An entry of a leader log exists only where there is a leader. -/
theorem leads (inv : h.Logs tm) {t : ℕ} (ne : h.llog t ≠ []) : ∃ L, h.lead t = some L := by
  cases e : h.lead t with
  | none => exact absurd (inv.noLead e) ne
  | some L => exact ⟨L, rfl⟩

theorem Own.leads {t i : ℕ} (own : h.Own tm t i) (inv : h.Logs tm) : ∃ L, h.lead t = some L :=
  inv.leads (fun e => by have := own.1.trans own.2.2; simp [e] at this)

end Hist.Logs

variable [DecidableEq S]

theorem set2_max_le {f : S → ℕ → ℕ} {t k : ℕ} {n : ℕ → ℕ} (old : ∀ x u, f x u ≤ n u) (new : k ≤ n t) (x : S) (u : ℕ) :
    set2 f s t k x u ≤ n u := by
  by_cases same : x = s ∧ u = t
  · obtain ⟨rfl, rfl⟩ := same; rwa [set2_self]
  · rw [set2_of_ne same]; exact old x u

/-- Histories only grow. -/
theorem Step.le (votes : h.Votes Q) (logs : h.Logs tm) (st : Step Q tm h s h') : h.Le h' := by
  have same := Hist.Le.refl h
  cases st with
  | adopt later => exact { same with term := le_update later.le }
  | @stand t later =>
    obtain ⟨noVote, noStand⟩ := votes.fresh later
    exact { same with
      term := le_update later.le
      vote := fun e => set2_keeps (fun x hx => by simp [noVote] at hx) e
      stand := fun e => set2_keeps (fun x hx => by simp [noStand] at hx) e }
  | grant cand free fresh => exact { same with vote := fun e => set2_keeps free e }
  | win quorum elected stood first =>
    have none := votes.leadNone quorum elected first
    refine { same with lead := fun {t L} leads => ?_, llog := fun t => ?_ }
    all_goals by_cases hu : t = h.term s
    · simp [hu, none] at leads
    · simpa [Function.update_of_ne hu] using leads
    · simp [hu, logs.noLead none]
    · simp [Function.update_of_ne hu]
  | @extend e leads own =>
    have whole := logs.leadLog leads
    refine { same with llog := fun t => ?_, ack := fun x t => ?_, late := fun x t => ?_ }
    · by_cases hu : t = h.term s
      · subst hu; simp [whole]
      · simp [Function.update_of_ne hu]
    all_goals by_cases hu : x = s ∧ t = h.term s
    · obtain ⟨rfl, rfl⟩ := hu
      have := logs.ackLen x (h.term x)
      simp only [set2_self, List.length_append, whole]; omega
    · simp [set2_of_ne hu]
    · exact .inr (by rw [hu.1, hu.2])
    · exact .inl (by simp [set2_of_ne hu])
  | accept leads other bound merge =>
    refine { same with ack := fun x t => ?_, late := fun x t => ?_ }
    all_goals by_cases hu : x = s ∧ t = h.term s
    · obtain ⟨rfl, rfl⟩ := hu; simp [set2_self]
    · simp [set2_of_ne hu]
    · exact .inr (by rw [hu.1, hu.2])
    · exact .inl (by simp [set2_of_ne hu])

/-- In a later term a server does not lead yet, and the others lead as before. -/
theorem Hist.Logs.leadLog_update (inv : h.Logs tm) (votes : h.Votes Q) {t : ℕ} (later : h.term s < t) {x : S}
    (leads : h.lead (Function.update h.term s t x) = some x) : h.log x = h.llog (Function.update h.term s t x) := by
  by_cases hx : x = s
  · subst hx
    rw [Function.update_self] at leads
    have := votes.leadTerm leads
    omega
  · rw [Function.update_of_ne hx] at leads ⊢
    exact inv.leadLog leads

/-- The invariant of logs is kept by every action. -/
theorem Hist.Logs.step (inv : h.Logs tm) (votes : h.Votes Q) (st : Step Q tm h s h') : h'.Logs tm := by
  have le := st.le votes inv
  cases st with
  | @adopt t later =>
    refine { inv with leadLog := fun {x} leads => ?_, logTerm := fun m => ?_, ackTerm := fun pos => ?_ }
    · exact inv.leadLog_update votes later leads
    · exact ⟨(inv.logTerm m).1, (inv.logTerm m).2.trans (le.term _)⟩
    · exact (inv.ackTerm pos).trans (le.term _)
  | @stand t later =>
    refine { inv with
      leadLog := fun {x} leads => ?_, logTerm := fun m => ?_, standTerm := fun {x u l e} stood m => ?_
      standCo := fun {x u l} stood => ?_, ackTerm := fun pos => ?_ }
    · exact inv.leadLog_update votes later leads
    · exact ⟨(inv.logTerm m).1, (inv.logTerm m).2.trans (le.term _)⟩
    · rcases set2_cases stood with ⟨rfl, rfl, rfl⟩ | stood
      · exact ⟨(inv.logTerm m).1, (inv.logTerm m).2.trans_lt later⟩
      · exact inv.standTerm stood m
    · rcases set2_cases stood with ⟨rfl, rfl, rfl⟩ | stood
      · exact inv.logCo x
      · exact inv.standCo stood
    · exact (inv.ackTerm pos).trans (le.term _)
  | grant cand free fresh => exact { inv with }
  | win quorum elected stood first =>
    have none := votes.leadNone quorum elected first
    have empty := inv.noLead none
    refine {
      noLead := fun {t} leads => ?_, leadLog := fun {x} leads => ?_, logTerm := inv.logTerm
      llogTerm := fun {t e} m => ?_, standTerm := inv.standTerm, logCo := fun x => le.coherent (inv.logCo x)
      llogCo := fun t => ?_, standCo := fun stood => le.coherent (inv.standCo stood)
      ackLen := fun x t => (inv.ackLen x t).trans (le.llog t).length_le, ackTerm := inv.ackTerm }
    · by_cases hu : t = h.term s
      · simp [hu] at leads
      · simp only [Function.update_of_ne hu] at leads ⊢; exact inv.noLead leads
    · by_cases hu : h.term x = h.term s
      · obtain rfl : s = x := by simpa [hu] using leads
        simp
      · simp only [Function.update_of_ne hu] at leads ⊢; exact inv.leadLog leads
    · by_cases hu : t = h.term s
      · subst hu; exact inv.logTerm (by simpa using m)
      · exact inv.llogTerm (by simpa [Function.update_of_ne hu] using m)
    · by_cases hu : t = h.term s
      · subst hu
        simpa using le.coherent (inv.logCo s)
      · simpa [Function.update_of_ne hu] using le.coherent (inv.llogCo t)
  | @extend e leads own =>
    have whole := inv.leadLog leads
    have pos := votes.leadPos leads
    have newTerm : ∀ d ∈ h.log s ++ [e], 1 ≤ tm d ∧ tm d ≤ h.term s := by
      intro d m
      rcases List.mem_append.mp m with m | m
      · exact inv.logTerm m
      · rw [List.mem_singleton.mp m, own]; exact ⟨pos, le_rfl⟩
    have newCo := (inv.logCo s).append le own (by simp)
    refine {
      noLead := fun {t} none => ?_, leadLog := fun {x} leads' => ?_, logTerm := fun {x d} m => ?_
      llogTerm := fun {t d} m => ?_, standTerm := inv.standTerm, logCo := fun x => ?_, llogCo := fun t => ?_
      standCo := fun stood => le.coherent (inv.standCo stood), ackLen := fun x t => ?_, ackTerm := fun {x t} pos' => ?_ }
    · by_cases hu : t = h.term s
      · simp [hu, leads] at none
      · simpa [Function.update_of_ne hu] using inv.noLead none
    · by_cases hu : h.term x = h.term s
      · obtain rfl : s = x := by simpa [hu, leads] using leads'
        simp
      · have hx : x ≠ s := fun e => hu (by rw [e])
        simpa [Function.update_of_ne hu, Function.update_of_ne hx] using inv.leadLog leads'
    · by_cases hx : x = s
      · subst hx; exact newTerm d (by simpa using m)
      · exact inv.logTerm (by simpa [Function.update_of_ne hx] using m)
    · by_cases hu : t = h.term s
      · subst hu; exact newTerm d (by simpa using m)
      · exact inv.llogTerm (by simpa [Function.update_of_ne hu] using m)
    · by_cases hx : x = s
      · subst hx; simpa using newCo
      · simpa [Function.update_of_ne hx] using le.coherent (inv.logCo x)
    · by_cases hu : t = h.term s
      · subst hu; simpa using newCo
      · simpa [Function.update_of_ne hu] using le.coherent (inv.llogCo t)
    · exact set2_max_le (n := fun u => (Function.update h.llog (h.term s) (h.log s ++ [e]) u).length)
        (fun x u => (inv.ackLen x u).trans (le.llog u).length_le) (by simp) x t
    · by_cases hu : x = s ∧ t = h.term s
      · exact (by rw [hu.1, hu.2] : t ≤ h.term x)
      · exact inv.ackTerm (by simpa [set2_of_ne hu] using pos')
  | @accept L k l leads other bound merge =>
    have log : ∀ {d}, d ∈ l → 1 ≤ tm d ∧ tm d ≤ h.term s := by
      intro d m
      rcases merge with ⟨-, rfl⟩ | ⟨-, rfl⟩
      · exact inv.logTerm m
      · exact inv.llogTerm (List.mem_of_mem_take m)
    have co : h.Coherent tm l := by
      rcases merge with ⟨-, rfl⟩ | ⟨-, rfl⟩
      · exact inv.logCo s
      · exact (inv.llogCo _).of_prefixed (List.take_prefix ..)
    refine { inv with
      leadLog := fun {x} leads' => ?_, logTerm := fun {x d} m => ?_, logCo := fun x => ?_
      ackLen := fun x t => set2_max_le inv.ackLen (max_le (inv.ackLen s _) bound) x t, ackTerm := fun {x t} pos => ?_ }
    · by_cases hx : x = s
      · subst hx; exact absurd (Option.some.inj (leads.symm.trans leads')) other
      · simpa [Function.update_of_ne hx] using inv.leadLog leads'
    · by_cases hx : x = s
      · subst hx; exact log (by simpa using m)
      · exact inv.logTerm (by simpa [Function.update_of_ne hx] using m)
    · by_cases hx : x = s
      · subst hx; simpa using le.coherent co
      · simpa [Function.update_of_ne hx] using le.coherent (inv.logCo x)
    · by_cases hu : x = s ∧ t = h.term s
      · exact (by rw [hu.1, hu.2] : t ≤ h.term x)
      · exact inv.ackTerm (by simpa [set2_of_ne hu] using pos)

end Lib
