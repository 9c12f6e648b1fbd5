import Mathlib.Logic.Function.Basic
import Mathlib.Data.Finset.Card
import Mathlib.Logic.Relation
import MiniRaft.Lib.Log

/-!
# Terms, votes and leader logs

An abstract replicated log. Servers move through numbered terms; in each term a server votes at most
once, a server that gathers a vote quorum leads the term, and the log of that leader only grows. A
`Hist` keeps the present term and log of every server together with the whole history of votes,
candidacies, leaders, leader logs and acknowledgements. `Step Q tm h s h'` is what one server may do.

Vote quorums meet each other, and every commit quorum meets every vote quorum. Commit quorums need not
meet each other, so they may be smaller than a majority.
-/

namespace Lib

/-- Quorums for elections and for commitment. -/
structure Quorums (S : Type*) where
  vote : Finset S → Prop
  commit : Finset S → Prop
  vote_vote : ∀ {A B}, vote A → vote B → ∃ s, s ∈ A ∧ s ∈ B
  commit_vote : ∀ {A B}, commit A → vote B → ∃ s, s ∈ A ∧ s ∈ B

/-- The servers' present and their history. `stand s t` is the log with which `s` stood for election in
term `t`, `llog t` the log of the leader of `t`, `ack s t` how much of `llog t` server `s` has stored. -/
structure Hist (S E : Type*) where
  term : S → ℕ
  log : S → List E
  vote : S → ℕ → Option S
  stand : S → ℕ → Option (List E)
  lead : ℕ → Option S
  llog : ℕ → List E
  ack : S → ℕ → ℕ

section

variable {S E : Type*} [DecidableEq S] (Q : Quorums S) (tm : E → ℕ)

/-- Setting one cell of a table indexed by server and term. -/
def set2 {α : Type*} (f : S → ℕ → α) (s : S) (t : ℕ) (a : α) : S → ℕ → α :=
  fun x u => if x = s ∧ u = t then a else f x u


/-- One action of server `s`. -/
inductive Step (h : Hist S E) (s : S) : Hist S E → Prop where
  | adopt {t : ℕ} (later : h.term s < t) : Step h s { h with term := Function.update h.term s t }
  | stand {t : ℕ} (later : h.term s < t) : Step h s
      { h with
        term := Function.update h.term s t
        vote := set2 h.vote s t (some s)
        stand := set2 h.stand s t (some (h.log s)) }
  | grant {c : S} {l : List E} (cand : h.stand c (h.term s) = some l)
      (free : ∀ x, h.vote s (h.term s) = some x → x = c) (fresh : UpToDate tm l (h.log s)) : Step h s
      { h with vote := set2 h.vote s (h.term s) (some c) }
  | win {V : Finset S} (quorum : Q.vote V) (votes : ∀ v ∈ V, h.vote v (h.term s) = some s)
      (stood : h.stand s (h.term s) = some (h.log s)) (first : h.lead (h.term s) ≠ some s) : Step h s
      { h with
        lead := Function.update h.lead (h.term s) (some s)
        llog := Function.update h.llog (h.term s) (h.log s) }
  | extend {e : E} (leads : h.lead (h.term s) = some s) (own : tm e = h.term s) : Step h s
      { h with
        log := Function.update h.log s (h.log s ++ [e])
        llog := Function.update h.llog (h.term s) (h.log s ++ [e])
        ack := set2 h.ack s (h.term s) (h.log s ++ [e]).length }
  | accept {L : S} {k : ℕ} {l : List E} (leads : h.lead (h.term s) = some L) (other : L ≠ s)
      (bound : k ≤ (h.llog (h.term s)).length)
      (merge : (h.llog (h.term s)).take k <+: h.log s ∧ l = h.log s ∨
        ¬ (h.llog (h.term s)).take k <+: h.log s ∧ l = (h.llog (h.term s)).take k) : Step h s
      { h with
        log := Function.update h.log s l
        ack := set2 h.ack s (h.term s) (max (h.ack s (h.term s)) k) }

/-- Any number of actions of `s`. -/
def Evolve (s : S) : Hist S E → Hist S E → Prop := Relation.ReflTransGen (fun h h' => Step Q tm h s h')

end

section

variable {S E : Type*}

/-- Index `i` of the leader log of `t` holds an entry of that very term. -/
def Hist.Own (tm : E → ℕ) (h : Hist S E) (t i : ℕ) : Prop := 1 ≤ i ∧ termAt tm (h.llog t) i = t ∧ i ≤ (h.llog t).length

/-- A commit quorum has stored, or still may store, index `i` in term `t`. -/
def Hist.Choosable (Q : Quorums S) (h : Hist S E) (t i : ℕ) : Prop :=
  ∃ A, Q.commit A ∧ ∀ s ∈ A, i ≤ h.ack s t ∨ h.term s ≤ t

/-- A commit quorum has stored index `i`, an entry of term `t`, in that term. -/
def Hist.Committed (Q : Quorums S) (tm : E → ℕ) (h : Hist S E) (t i : ℕ) : Prop :=
  h.Own tm t i ∧ ∃ A, Q.commit A ∧ ∀ s ∈ A, i ≤ h.ack s t

/-- Every prefix of `l` is the beginning of the leader log of its last term. -/
def Hist.Coherent (tm : E → ℕ) (h : Hist S E) (l : List E) : Prop :=
  ∀ i e, l[i]? = some e → l.take (i + 1) <+: h.llog (tm e)

/-- `h'` is a later history than `h`: nothing recorded is lost, and only servers still in a term (or
before it) acknowledge more of it. -/
structure Hist.Le (h h' : Hist S E) : Prop where
  term : ∀ s, h.term s ≤ h'.term s
  vote : ∀ {s t c}, h.vote s t = some c → h'.vote s t = some c
  stand : ∀ {s t l}, h.stand s t = some l → h'.stand s t = some l
  lead : ∀ {t L}, h.lead t = some L → h'.lead t = some L
  llog : ∀ t, h.llog t <+: h'.llog t
  ack : ∀ s t, h.ack s t ≤ h'.ack s t
  late : ∀ s t, h'.ack s t ≤ h.ack s t ∨ h.term s ≤ t

theorem Hist.Le.refl (h : Hist S E) : h.Le h where
  term _ := le_rfl
  vote := id
  stand := id
  lead := id
  llog _ := List.prefix_rfl
  ack _ _ := le_rfl
  late _ _ := .inl le_rfl

theorem Hist.Le.trans {a b c : Hist S E} (h : a.Le b) (k : b.Le c) : a.Le c where
  term s := (h.term s).trans (k.term s)
  vote e := k.vote (h.vote e)
  stand e := k.stand (h.stand e)
  lead e := k.lead (h.lead e)
  llog t := (h.llog t).trans (k.llog t)
  ack s t := (h.ack s t).trans (k.ack s t)
  late s t := by
    rcases h.late s t with h1 | h1
    · rcases k.late s t with k1 | k1
      · exact .inl (k1.trans h1)
      · exact .inr ((h.term s).trans k1)
    · exact .inr h1

theorem Hist.Le.own {tm : E → ℕ} {h h' : Hist S E} (le : h.Le h') {t i : ℕ} (own : h.Own tm t i) : h'.Own tm t i := by
  obtain ⟨pos, term, len⟩ := own
  exact ⟨pos, by rw [termAt_of_prefixed (le.llog t) len, term], len.trans (le.llog t).length_le⟩

/-- What was choosable in a prefix that exists already is only ever given up. -/
theorem Hist.Le.choosable {Q : Quorums S} {h h' : Hist S E} (le : h.Le h') {t i : ℕ}
    (c : h'.Choosable Q t i) : h.Choosable Q t i := by
  obtain ⟨A, quorum, all⟩ := c
  refine ⟨A, quorum, fun s hs => ?_⟩
  rcases all s hs with acked | early
  · exact (le.late s t).imp_left (acked.trans ·)
  · exact .inr ((le.term s).trans early)

theorem Hist.Le.committed {Q : Quorums S} {tm : E → ℕ} {h h' : Hist S E} (le : h.Le h') {t i : ℕ}
    (c : h.Committed Q tm t i) : h'.Committed Q tm t i := by
  obtain ⟨own, A, quorum, all⟩ := c
  exact ⟨le.own own, A, quorum, fun s hs => (all s hs).trans (le.ack s t)⟩

theorem Hist.Le.coherent {tm : E → ℕ} {h h' : Hist S E} (le : h.Le h') {l : List E} (c : h.Coherent tm l) :
    h'.Coherent tm l :=
  fun i e he => (c i e he).trans (le.llog _)

theorem Hist.Committed.choosable {Q : Quorums S} {tm : E → ℕ} {h : Hist S E} {t i : ℕ} (c : h.Committed Q tm t i) :
    h.Choosable Q t i := by
  obtain ⟨-, A, quorum, all⟩ := c
  exact ⟨A, quorum, fun s hs => .inl (all s hs)⟩

end

end Lib
