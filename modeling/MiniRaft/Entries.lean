import MiniRaft.State

/-!
# The loop of `OnAppendEntries`

A payload cut out of a leader's log is merged into a log that matches the leader's: either the log holds it
already and is left alone, or the log becomes the leader's up to the end of the payload.
-/

namespace MiniRaft.TState

open Lib

variable {m : List TLogEntry}

theorem log_replace (s : TState) {i : ℕ} (small : i < 2 ^ 63) (entry : TLogEntry) :
    (s.replace i entry).log =
      if termAt TLogEntry.term s.log i = entry.term then s.log else s.log.take (i - 1) ++ [entry] := by
  unfold replace
  rw [s.logTerm_eq small]
  by_cases same : termAt TLogEntry.term s.log i = entry.term
  · rw [if_neg (not_not_intro same), if_pos same]
  · rw [if_pos same, if_neg same, log_append, (s.truncate_spec (i - 1)).1]

theorem take_replace {i k : ℕ} (entry : TLogEntry) (s : TState) (low : i ≤ k) :
    s.log.take i <+: (s.replace (k + 1) entry).log := by
  unfold replace
  split
  · rw [log_append, (s.truncate_spec _).1, Nat.add_sub_cancel]
    exact (take_prefix_of_le low).trans (List.prefix_append ..)
  · exact List.take_prefix ..

/-- What is before a batch stays. -/
theorem take_replaceAll {i : ℕ} (payload : List TLogEntry) :
    ∀ {k : ℕ} {s : TState}, i ≤ k → s.log.take i <+: (replaceAll k payload s).log := by
  induction payload with
  | nil => intro k s _; exact List.take_prefix ..
  | cons entry payload ih =>
    intro k s low
    have first := take_replace entry s low
    have rest := ih (s := s.replace (k + 1) entry) (by omega : i ≤ k + 1)
    exact (List.prefix_take_iff.mpr ⟨first, List.length_take_le ..⟩).trans rest

/-- A piece of `m` begins with its first entry. -/
theorem piece_cons {k n : ℕ} {entry : TLogEntry} {payload : List TLogEntry}
    (piece : entry :: payload = (m.drop k).take n) :
    m[k]? = some entry ∧ payload = (m.drop (k + 1)).take (n - 1) ∧ 1 ≤ n := by
  cases n with
  | zero => simp at piece
  | succ n =>
    cases drop : m.drop k with
    | nil => simp [drop] at piece
    | cons e rest =>
      rw [drop, List.take_succ_cons] at piece
      obtain ⟨rfl, rfl⟩ := List.cons.inj piece
      have get : m[k]? = some entry := by rw [← List.head?_drop, drop]; rfl
      refine ⟨get, ?_, by omega⟩
      rw [← List.drop_drop, drop]; rfl

theorem take_succ_of_get {k : ℕ} {entry : TLogEntry} (get : m[k]? = some entry) :
    m.take (k + 1) = m.take k ++ [entry] := by
  rw [List.take_add_one, get]; rfl

/-- At the end of the log every entry is appended. -/
theorem replaceAll_appends (payload : List TLogEntry) (pos : ∀ e ∈ payload, 1 ≤ e.term) :
    ∀ {k : ℕ} {s : TState}, k + payload.length < 2 ^ 63 → s.log.length = k →
      (replaceAll k payload s).log = s.log ++ payload := by
  induction payload with
  | nil => intro k s _ _; exact (List.append_nil _).symm
  | cons entry payload ih =>
    intro k s small len
    rw [List.length_cons] at small
    have none : termAt TLogEntry.term s.log (k + 1) ≠ entry.term := by
      have := pos entry (List.mem_cons_self ..)
      rw [termAt_beyond (by omega)]
      omega
    have extended : (s.replace (k + 1) entry).log = s.log ++ [entry] := by
      rw [s.log_replace (by omega), if_neg none, Nat.add_sub_cancel, List.take_of_length_le len.le]
    rw [replaceAll, ih (fun e he => pos e (List.mem_cons_of_mem _ he)) (by omega) (by rw [extended]; simp [len]), extended]
    simp

/-- Past the first conflict every entry is appended. -/
theorem replaceAll_extends (small : m.length < 2 ^ 63) (pos : ∀ e ∈ m, 1 ≤ e.term) {payload : List TLogEntry} {k n : ℕ}
    {s : TState} (piece : payload = (m.drop k).take n) (bound : k ≤ m.length) (log : s.log = m.take k) :
    (replaceAll k payload s).log = m.take (k + payload.length) := by
  have len : s.log.length = k := by rw [log, List.length_take]; omega
  have count : payload.length = min n (m.length - k) := by rw [piece, List.length_take, List.length_drop]
  have positive : ∀ e ∈ payload, 1 ≤ e.term := by
    intro e he
    rw [piece] at he
    exact pos e (List.mem_of_mem_drop (List.mem_of_mem_take he))
  rw [replaceAll_appends payload positive (by omega) len, log, List.take_add]
  congr 1
  subst piece
  exact List.prefix_iff_eq_take.mp (List.take_prefix ..)

/-- The entry at position `j` of the payload belongs at index `k + j + 1`: it is beyond the log, or the log has an
entry of another term there. -/
def Clashes (s : TState) (k : ℕ) (payload : List TLogEntry) (j : ℕ) : Prop :=
  ∃ e, payload[j]? = some e ∧ (s.log.length < k + j + 1 ∨ termAt TLogEntry.term s.log (k + j + 1) ≠ e.term)

theorem clashes_succ {s : TState} {k j : ℕ} {entry : TLogEntry} {payload : List TLogEntry} :
    s.Clashes k (entry :: payload) (j + 1) ↔ s.Clashes (k + 1) payload j := by
  unfold Clashes
  rw [List.getElem?_cons_succ, show k + (j + 1) + 1 = k + 1 + j + 1 by omega]

/-- An entry that the log has is not touched. -/
theorem replace_of_not_clashes {s : TState} {k : ℕ} (small : k + 1 < 2 ^ 63) {entry : TLogEntry}
    {payload : List TLogEntry} (fits : ¬ s.Clashes k (entry :: payload) 0) : s.replace (k + 1) entry = s := by
  have same : termAt TLogEntry.term s.log (k + 1) = entry.term := by
    by_contra differs
    exact fits ⟨entry, rfl, .inr differs⟩
  unfold replace
  rw [s.logTerm_eq small, if_neg (not_not_intro same)]

/-- **A payload that the log has changes nothing.** -/
theorem replaceAll_fits (payload : List TLogEntry) :
    ∀ {k : ℕ} {s : TState}, k + payload.length < 2 ^ 63 → (∀ j, ¬ s.Clashes k payload j) → replaceAll k payload s = s := by
  induction payload with
  | nil => intro k s _ _; rfl
  | cons entry payload ih =>
    intro k s small fits
    rw [List.length_cons] at small
    rw [replaceAll, replace_of_not_clashes (by omega) (fits 0)]
    exact ih (by omega) fun j clash => fits (j + 1) (clashes_succ.mpr clash)

/-- What one round leaves behind. -/
theorem replace_holds {s : TState} {k : ℕ} (small : k + 1 < 2 ^ 63) (inside : k ≤ s.log.length) {entry : TLogEntry}
    (pos : 1 ≤ entry.term) :
    k + 1 ≤ (s.replace (k + 1) entry).log.length ∧
      termAt TLogEntry.term (s.replace (k + 1) entry).log (k + 1) = entry.term := by
  rw [s.log_replace small, Nat.add_sub_cancel]
  have len : (s.log.take k).length = k := by rw [List.length_take, Nat.min_eq_left inside]
  split
  · rename_i same
    refine ⟨?_, same⟩
    by_contra short
    rw [termAt_beyond (by omega)] at same
    omega
  · refine ⟨by simp [len], ?_⟩
    apply termAt_of_get
    rw [List.getElem?_append_right len.le, len, Nat.sub_self]
    rfl

/-- **The merged log has the payload.** -/
theorem replaceAll_holds (payload : List TLogEntry) :
    ∀ {k : ℕ} {s : TState}, k + payload.length < 2 ^ 63 → k ≤ s.log.length → (∀ e ∈ payload, 1 ≤ e.term) →
      ∀ j, ¬ (replaceAll k payload s).Clashes k payload j := by
  induction payload with
  | nil =>
    intro k s _ _ _ j clash
    obtain ⟨e, none, -⟩ := clash
    cases none
  | cons entry payload ih =>
    intro k s small inside pos j
    rw [List.length_cons] at small
    obtain ⟨reach, there⟩ := replace_holds (by omega) inside (pos entry (List.mem_cons_self ..))
    rw [replaceAll]
    cases j with
    | zero =>
      rintro ⟨e, first, clash⟩
      cases first
      -- the later rounds leave the index of this entry alone
      have kept := take_replaceAll (s := s.replace (k + 1) entry) payload (le_refl (k + 1))
      have len : ((s.replace (k + 1) entry).log.take (k + 1)).length = k + 1 := by
        rw [List.length_take, Nat.min_eq_left reach]
      rcases clash with beyond | differs
      · have := kept.length_le
        omega
      · apply differs
        rw [termAt_of_prefixed kept len.ge, ← there, termAt_of_prefixed (List.take_prefix ..) len.ge]
    | succ j =>
      intro clash
      exact ih (by omega) reach (fun e he => pos e (List.mem_cons_of_mem _ he)) j (clashes_succ.mp clash)

/-- A log that has the payload is as long as that. -/
theorem length_of_not_clashes {s : TState} {k : ℕ} {payload : List TLogEntry} (inside : k ≤ s.log.length)
    (fits : ∀ j, ¬ s.Clashes k payload j) : k + payload.length ≤ s.log.length := by
  cases last : payload[payload.length - 1]? with
  | none =>
    rw [List.getElem?_eq_none_iff] at last
    omega
  | some e =>
    have := (List.getElem?_eq_some_iff.mp last).1
    by_contra short
    exact fits _ ⟨e, last, .inl (by omega)⟩

/-- **The first clash.** The log is cut before it and goes on with the payload. -/
theorem replaceAll_clash (payload : List TLogEntry) (pos : ∀ e ∈ payload, 1 ≤ e.term) :
    ∀ {k j : ℕ} {s : TState}, k + payload.length < 2 ^ 63 → k ≤ s.log.length → (∀ i < j, ¬ s.Clashes k payload i) →
      s.Clashes k payload j → (replaceAll k payload s).log = s.log.take (k + j) ++ payload.drop j := by
  induction payload with
  | nil =>
    intro k j s _ _ _ clash
    obtain ⟨e, none, -⟩ := clash
    cases none
  | cons entry payload ih =>
    intro k j s small inside before clash
    rw [List.length_cons] at small
    have positive : ∀ e ∈ payload, 1 ≤ e.term := fun e he => pos e (List.mem_cons_of_mem _ he)
    cases j with
    | zero =>
      have differs : termAt TLogEntry.term s.log (k + 1) ≠ entry.term := by
        obtain ⟨e, here, beyond | differs⟩ := clash
        · have := pos entry (List.mem_cons_self ..)
          rw [termAt_beyond (by omega)]
          omega
        · cases here
          exact differs
      have cut : (s.replace (k + 1) entry).log = s.log.take k ++ [entry] := by
        rw [s.log_replace (by omega), if_neg differs, Nat.add_sub_cancel]
      have len : (s.replace (k + 1) entry).log.length = k + 1 := by
        rw [cut, List.length_append, List.length_take, List.length_singleton, Nat.min_eq_left inside]
      rw [replaceAll, replaceAll_appends payload positive (by omega) len, cut]
      simp
    | succ j =>
      have first := before 0 (Nat.succ_pos j)
      have more : k + 1 ≤ s.log.length := by
        by_contra short
        exact first ⟨entry, rfl, .inl (by omega)⟩
      rw [replaceAll, replace_of_not_clashes (by omega) first, ih positive (by omega) more
        (fun i low early => before (i + 1) (by omega) (clashes_succ.mpr early)) (clashes_succ.mp clash)]
      rw [show k + 1 + j = k + (j + 1) by omega, List.drop_succ_cons]

/-- **The merge.** `matching` is log matching between the server's log and the leader's. -/
theorem replaceAll_merges (small : m.length < 2 ^ 63) (pos : ∀ e ∈ m, 1 ≤ e.term) {s : TState}
    (matching : ∀ i, 0 < termAt TLogEntry.term m i → termAt TLogEntry.term s.log i = termAt TLogEntry.term m i →
      s.log.take i = m.take i) (payload : List TLogEntry) :
    ∀ {k n : ℕ}, payload = (m.drop k).take n → k ≤ m.length → m.take k <+: s.log →
      m.take (k + payload.length) <+: s.log ∧ (replaceAll k payload s).log = s.log ∨
      ¬ m.take (k + payload.length) <+: s.log ∧ (replaceAll k payload s).log = m.take (k + payload.length) := by
  induction payload with
  | nil => intro k n _ _ held; exact .inl ⟨held, rfl⟩
  | cons entry payload ih =>
    intro k n piece bound held
    obtain ⟨get, rest, -⟩ := piece_cons piece
    have room := (List.getElem?_eq_some_iff.mp get).1
    have term : termAt TLogEntry.term m _ = _ := termAt_of_get get
    have shift : k + (entry :: payload).length = k + 1 + payload.length := by rw [List.length_cons]; omega
    rw [shift, replaceAll]
    by_cases same : termAt TLogEntry.term s.log (k + 1) = entry.term
    · -- the entry is there already: the log is not touched in this round
      have stay : s.replace (k + 1) entry = s := by
        unfold replace
        rw [s.logTerm_eq (by omega), if_neg (not_not_intro same)]
      have more := matching (k + 1) (by rw [term]; exact pos entry (List.mem_of_getElem? get)) (by rw [same, term])
      rw [stay]
      exact ih rest (by omega) (more ▸ List.take_prefix ..)
    · -- the first conflict: the log is cut to the entries before it
      have kept : s.log.take k = m.take k := by
        have := List.prefix_iff_eq_take.mp held
        rw [List.length_take, Nat.min_eq_left bound] at this
        exact this.symm
      have cut : (s.replace (k + 1) entry).log = m.take (k + 1) := by
        rw [s.log_replace (by omega), if_neg same, Nat.add_sub_cancel, kept, take_succ_of_get get]
      refine .inr ⟨fun all => same ?_, replaceAll_extends small pos rest (by omega) cut⟩
      have entryHeld := get_of_take_prefixed all (by omega) get
      rw [termAt_of_get entryHeld]

end MiniRaft.TState
