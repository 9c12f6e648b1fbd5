import Mathlib.Data.List.Basic
import Mathlib.Data.List.TakeDrop
import Mathlib.Order.Basic

/-!
# Logs as lists

A log is a list of entries, each carrying a term read by `tm`. Indices count from one; index zero is
the empty position before the first entry and has term zero. Nothing here depends on a protocol.
-/

namespace Lib

variable {E : Type*} {tm : E → ℕ}

/-- The term of the entry at index `i` (from one), zero outside the log. -/
def termAt (tm : E → ℕ) (l : List E) : ℕ → ℕ
  | 0 => 0
  | i + 1 => (l[i]?.map tm).getD 0

/-- The term of the last entry, zero for the empty log. -/
def lastTerm (tm : E → ℕ) (l : List E) : ℕ := termAt tm l l.length

/-- `l` is at least as up to date as `m`: a later last term, or the same one and no shorter. -/
def UpToDate (tm : E → ℕ) (l m : List E) : Prop :=
  lastTerm tm m < lastTerm tm l ∨ lastTerm tm l = lastTerm tm m ∧ m.length ≤ l.length

@[simp] theorem termAt_zero (l : List E) : termAt tm l 0 = 0 := rfl

theorem termAt_succ (l : List E) (i : ℕ) : termAt tm l (i + 1) = (l[i]?.map tm).getD 0 := rfl

theorem termAt_of_get {l : List E} {i : ℕ} {e : E} (h : l[i]? = some e) : termAt tm l (i + 1) = tm e := by
  simp [termAt, h]

theorem termAt_beyond {l : List E} {i : ℕ} (h : l.length < i) : termAt tm l i = 0 := by
  cases i with
  | zero => rfl
  | succ i => simp [termAt, List.getElem?_eq_none (by omega : l.length ≤ i)]

/-- An index with a positive term holds an entry of that term. -/
theorem get_of_termAt_pos {l : List E} {i : ℕ} (h : 0 < termAt tm l i) :
    ∃ e, l[i - 1]? = some e ∧ tm e = termAt tm l i ∧ 1 ≤ i ∧ i ≤ l.length := by
  cases i with
  | zero => simp at h
  | succ i =>
    cases he : l[i]? with
    | none => simp [termAt, he] at h
    | some e =>
      have := (List.getElem?_eq_some_iff.mp he).1
      exact ⟨e, by simpa using he, by simp [termAt, he], by omega, by omega⟩

/-- A piece of a log and the term before it, read off the list of all terms. -/
theorem termAt_cons_piece {l : List E} {k : ℕ} (n : ℕ) (hk : k ≤ l.length) :
    termAt tm l k :: ((l.drop k).take n).map tm = ((0 :: l.map tm).drop k).take (n + 1) := by
  have inside : k < (0 :: l.map tm).length := by
    rw [List.length_cons, List.length_map]
    exact Nat.lt_succ_of_le hk
  have here : (0 :: l.map tm)[k] = termAt tm l k := by
    cases k with
    | zero => rfl
    | succ k => simp [termAt, List.getElem?_eq_getElem (show k < l.length from hk)]
  rw [List.drop_eq_getElem_cons inside, List.take_succ_cons, here, List.drop_succ_cons, List.map_take, List.map_drop]

theorem get_of_prefixed {l m : List E} (h : l <+: m) {i : ℕ} {e : E} (he : l[i]? = some e) : m[i]? = some e := by
  obtain ⟨hi, rfl⟩ := List.getElem?_eq_some_iff.mp he
  exact List.prefix_iff_getElem?.mp h i hi

theorem termAt_of_prefixed {l m : List E} (h : l <+: m) {i : ℕ} (hi : i ≤ l.length) :
    termAt tm m i = termAt tm l i := by
  cases i with
  | zero => rfl
  | succ i =>
    have he : l[i]? = some l[i] := List.getElem?_eq_getElem (by omega)
    rw [termAt_of_get he, termAt_of_get (get_of_prefixed h he)]

/-- The first `i` entries of a log are those of any longer one. -/
theorem take_of_prefixed {l m : List E} (h : l <+: m) {i : ℕ} (hi : i ≤ l.length) : m.take i = l.take i := by
  obtain ⟨r, rfl⟩ := h
  exact List.take_append_of_le_length hi

/-- A piece inside a log is the same piece of any longer one. -/
theorem piece_of_prefixed {l m : List E} (h : l <+: m) {k n : ℕ} (hn : k + n ≤ l.length) :
    (m.drop k).take n = (l.drop k).take n := by
  rw [List.take_drop, List.take_drop, take_of_prefixed h hn]

theorem take_prefix_of_le {l : List E} {i j : ℕ} (h : i ≤ j) : l.take i <+: l.take j := by
  rw [List.prefix_take_iff]
  exact ⟨List.take_prefix i l, by rw [List.length_take]; omega⟩

/-- Two prefixes of one log are ordered by length. -/
theorem take_prefix_of_prefixed {l m : List E} {i : ℕ} (h : l <+: m) (hi : i ≤ l.length) : m.take i <+: l :=
  take_of_prefixed h hi ▸ List.take_prefix i l

theorem get_take_of_lt {l : List E} {i j : ℕ} (h : j < i) : (l.take i)[j]? = l[j]? := by
  rw [List.getElem?_take, if_pos h]

/-- The entry at an index of a shared prefix is shared. -/
theorem get_of_take_prefixed {l m : List E} {i j : ℕ} {e : E} (h : l.take i <+: m) (hj : j < i)
    (he : l[j]? = some e) : m[j]? = some e :=
  get_of_prefixed h (by rw [get_take_of_lt hj, he])

theorem lastTerm_of_get {l : List E} {e : E} (h : l[l.length - 1]? = some e) : lastTerm tm l = tm e := by
  have := (List.getElem?_eq_some_iff.mp h).1
  unfold lastTerm
  rw [show l.length = l.length - 1 + 1 by omega, termAt_of_get h]

@[simp] theorem lastTerm_nil : lastTerm tm ([] : List E) = 0 := rfl

@[simp] theorem lastTerm_append (l : List E) (e : E) : lastTerm tm (l ++ [e]) = tm e :=
  lastTerm_of_get (by simp)

/-- A log with a positive last term is not empty, and its last entry carries that term. -/
theorem last_of_lastTerm_pos {l : List E} (h : 0 < lastTerm tm l) :
    ∃ e, l[l.length - 1]? = some e ∧ tm e = lastTerm tm l ∧ 1 ≤ l.length := by
  obtain ⟨e, he, ht, h1, -⟩ := get_of_termAt_pos h
  exact ⟨e, he, ht, h1⟩

/-- Replacing a log by `m` unless it already begins with `m`: what a replica does with a batch. -/
theorem prefix_of_merge {l l' m : List E} (h : m <+: l ∧ l' = l ∨ ¬ m <+: l ∧ l' = m) : m <+: l' := by
  rcases h with ⟨h, rfl⟩ | ⟨-, rfl⟩
  · exact h
  · exact List.prefix_rfl

/-- Merging keeps every prefix that the batch's source shares. -/
theorem prefix_merge_of_prefixed {l l' m s p : List E} (h : m <+: l ∧ l' = l ∨ ¬ m <+: l ∧ l' = m)
    (hm : m <+: s) (hl : p <+: l) (hs : p <+: s) : p <+: l' := by
  rcases h with ⟨-, rfl⟩ | ⟨hn, rfl⟩
  · exact hl
  · rcases List.prefix_or_prefix_of_prefix hs hm with h | h
    · exact h
    · exact absurd (h.trans hl) hn

end Lib
