import MiniRaft.Wire

/-!
# How a stream is cut (`TMessageReader::Read`)

The reader throws "Connection closed" when a header word does not come at once. What a connection receives depends on the
pieces that the stream comes in, as far as the first message goes that has one of its header words cut.
-/

namespace MiniRaft

open Lib TMessageHolder TMessageReader

/-- The header words that the reader gets to in the bytes at `p`, those of a message or of what is none. -/
inductive Headers (p : ℕ) : List ℕ → List UInt8 → Prop where
  | message {m : TMessageHolder} {rest : List UInt8} (framed : m.Framed) : Headers p (words p m) (write m ++ rest)
  | broken {ws : List ℕ} {f : ReadFault} {rest : List UInt8} (broken : Broken p ws f rest) : Headers p ws rest

/-- `i` messages are followed by one with a header word that was cut. -/
def SplitAt (s : Stream UInt8) (i : ℕ) : Prop :=
  ∃ ms tail ws, s.items = writeAll ms ++ tail ∧ (∀ m ∈ ms, m.Framed) ∧ ms.length = i ∧
    Headers (writeAll ms).length ws tail ∧ Cut s ws

/-- That message is the first of them. -/
def FirstSplit (s : Stream UInt8) (i : ℕ) : Prop := SplitAt s i ∧ ∀ j < i, ¬ SplitAt s j

/-- The stream in one piece. -/
def joined (s : Stream UInt8) : Stream UInt8 := { s with ends := ∅ }

variable {s : Stream UInt8} {p i : ℕ} {ms : List TMessageHolder} {ws : List ℕ} {rest : List UInt8}

/-- `ReadSome` returns any number of the next bytes, between one and those it was asked for, depending on the pieces. -/
theorem readSome_any {bytes : List UInt8} {n k : ℕ} (pos : 0 < n) (inside : p < bytes.length) :
    (∃ ends, (Stream.mk bytes ends).readSome n p = k) ↔ 0 < k ∧ k ≤ n ∧ p + k ≤ bytes.length := by
  constructor
  · rintro ⟨ends, rfl⟩
    exact ⟨Stream.readSome_pos pos inside, Stream.readSome_le n p, Stream.readSome_inside n inside.le⟩
  · rintro ⟨some_, le, within⟩
    exact ⟨{p + k}, Stream.readSome_piece some_ le within⟩

theorem FirstSplit.exists (split : SplitAt s i) : ∃ j, FirstSplit s j := by
  classical
  exact ⟨Nat.find ⟨i, split⟩, Nat.find_spec ⟨i, split⟩, fun j below => Nat.find_min ⟨i, split⟩ below⟩

theorem not_cut_joined (s : Stream UInt8) (ws : List ℕ) : ¬ Cut (joined s) ws := by
  rintro ⟨o, -, e, mem, -⟩
  exact Finset.notMem_empty e mem

/-- A word that was cut is one of some message. -/
theorem cut_wordsAll (cut : Cut s (wordsAll p ms)) : ∃ before m after, ms = before ++ m :: after ∧
    Cut s (words (p + (writeAll before).length) m) := by
  induction ms generalizing p with
  | nil =>
    obtain ⟨o, mem, -⟩ := cut
    cases mem
  | cons m ms ih =>
    rw [wordsAll, cut_append] at cut
    rcases cut with here | later
    · exact ⟨[], m, ms, rfl, here⟩
    · obtain ⟨before, m', after, rfl, cut⟩ := ih later
      refine ⟨m :: before, m', after, rfl, ?_⟩
      rwa [writeAll, List.length_append, ← Nat.add_assoc]

/-! ## One message -/

/-- **A message with a header word cut is not read**: the reader takes the connection for closed. -/
theorem read_split (headers : Headers p ws rest) (here : s.items.drop p = rest) (cut : Cut s ws) :
    read s (s.items.length + 1) p = .error .closed := by
  have short : rest.length ≤ s.items.length + 1 := by
    rw [← here, List.length_drop]
    omega
  cases headers with
  | @message m rest framed =>
    rw [List.length_append] at short
    rw [read_framed framed here (by omega), if_pos cut]
  | broken broken => rw [read_broken broken here short, if_pos cut]

/-- In one piece the same bytes are read as a message, or the reader fails for another reason. -/
theorem read_joined_ne_closed (headers : Headers p ws rest) (here : s.items.drop p = rest) :
    read (joined s) (s.items.length + 1) p ≠ .error .closed := by
  have short : rest.length ≤ s.items.length + 1 := by
    rw [← here, List.length_drop]
    omega
  cases headers with
  | @message m rest framed =>
    rw [List.length_append] at short
    rw [read_framed (s := joined s) framed here (by omega), if_neg (not_cut_joined s _)]
    exact nofun
  | broken broken =>
    rw [read_broken (s := joined s) broken here short, if_neg (not_cut_joined s _)]
    exact fun same => broken.ne_closed (Except.error.inj same)

/-- **A message with no header word cut** is read as in one piece. -/
theorem read_eq_joined (inside : p ≤ s.items.length) (uncut : ∀ ws, Headers p ws (s.items.drop p) → ¬ Cut s ws) :
    read s (s.items.length + 1) p = read (joined s) (s.items.length + 1) p := by
  have short : (s.items.drop p).length ≤ s.items.length + 1 := by
    rw [List.length_drop]
    omega
  have deep := read_ne_depth (d := s.items.length + 1) inside (by omega)
  have deep' := read_ne_depth (s := joined s) (d := s.items.length + 1) inside (by show s.items.length < _; omega)
  have message (m : TMessageHolder) (rest : List UInt8) (framed : m.Framed) (here : s.items.drop p = write m ++ rest) :
      read s (s.items.length + 1) p = read (joined s) (s.items.length + 1) p := by
    have whole := uncut (words p m) (here ▸ .message framed)
    rw [here, List.length_append] at short
    rw [read_framed framed here (by omega), read_framed (s := joined s) framed here (by omega), if_neg whole,
      if_neg (not_cut_joined s _)]
  have fault (ws : List ℕ) (f : ReadFault) (broken : Broken p ws f (s.items.drop p)) :
      read s (s.items.length + 1) p = read (joined s) (s.items.length + 1) p := by
    rw [read_broken broken rfl short, read_broken (s := joined s) broken rfl short, if_neg (uncut ws (.broken broken)),
      if_neg (not_cut_joined s _)]
  generalize mine : read s (s.items.length + 1) p = r at deep message fault ⊢
  generalize other : read (joined s) (s.items.length + 1) p = r' at deep' message fault ⊢
  have outcome := read_outcome s (s.items.length + 1) p
  have outcome' := read_outcome (joined s) (s.items.length + 1) p
  rw [mine] at outcome
  rw [other] at outcome'
  cases outcome with
  | @message m rest framed here _ => exact message m rest framed here
  | @fault ws f broken _ => exact fault ws f broken
  | depth => exact absurd rfl deep
  | closed =>
    cases outcome' with
    | @message m rest framed here _ => exact message m rest framed here
    | @fault ws f broken _ => exact fault ws f broken
    | depth => exact absurd rfl deep'
    | closed => rfl

/-! ## A whole connection -/

theorem receive_closed {k : ℕ} : receive s (k + 1) p = ([], .closed) ↔ read s (s.items.length + 1) p = .error .closed := by
  unfold receive
  cases read s (s.items.length + 1) p with
  | ok r => simp
  | error f =>
    rw [Except.error.injEq, Prod.mk.injEq]
    exact and_iff_right rfl

/-- Up to the first cut the messages are received, and there the connection ends. -/
theorem received_of_split (first : FirstSplit s i) :
    (received s).1.length = i ∧ received s = ((received (joined s)).1.take i, .closed) ∧
      received (joined s) ≠ received s := by
  obtain ⟨⟨ms, tail, ws, bytes, each, rfl, headers, cut⟩, least⟩ := first
  have whole : ¬ Cut s (wordsAll 0 ms) := by
    intro earlier
    obtain ⟨before, m, after, rfl, cut⟩ := cut_wordsAll earlier
    rw [Nat.zero_add] at cut
    rw [List.forall_mem_append, List.forall_mem_cons] at each
    refine least before.length (by rw [List.length_append, List.length_cons]; omega)
      ⟨before, write m ++ (writeAll after ++ tail), words _ m, ?_, each.1, rfl, .message each.2.1, cut⟩
    rw [bytes, writeAll_append, writeAll, List.append_assoc, List.append_assoc]
  obtain ⟨k, mine⟩ := received_framed bytes each whole
  rw [receive, read_split headers (drop_writeAll bytes) cut] at mine
  change received s = (ms ++ [], .closed) at mine
  rw [List.append_nil] at mine
  obtain ⟨k', other⟩ := received_framed (s := joined s) bytes each (not_cut_joined s _)
  refine ⟨by rw [mine], by rw [mine, other, List.take_left], ?_⟩
  intro same
  rw [mine, other, Prod.mk.injEq, List.append_right_eq_self] at same
  exact read_joined_ne_closed headers (drop_writeAll bytes) (receive_closed.mp (Prod.ext same.1 same.2))

/-- Where no message is cut, all is received as in one piece. -/
theorem receive_eq_joined (bytes : s.items = writeAll ms ++ rest) (each : ∀ m ∈ ms, m.Framed)
    (uncut : ∀ i, ¬ SplitAt s i) (k : ℕ) :
    receive s k (writeAll ms).length = receive (joined s) k (writeAll ms).length := by
  induction k generalizing ms rest with
  | zero => rfl
  | succ k ih =>
    have inside : (writeAll ms).length ≤ s.items.length := by
      rw [bytes, List.length_append]
      exact Nat.le_add_right ..
    have same := read_eq_joined inside fun ws headers cut =>
      uncut ms.length ⟨ms, rest, ws, bytes, each, rfl, drop_writeAll bytes ▸ headers, cut⟩
    have outcome := read_outcome s (s.items.length + 1) (writeAll ms).length
    unfold receive
    rw [show (joined s).items = s.items from rfl, ← same]
    generalize read s (s.items.length + 1) (writeAll ms).length = r at outcome
    cases outcome with
    | @message m rest' framed here whole =>
      rw [drop_writeAll bytes] at here
      have next : writeAll (ms ++ [m]) = writeAll ms ++ write m := by
        rw [writeAll_append, writeAll, writeAll, List.append_nil]
      have later := ih (show s.items = writeAll (ms ++ [m]) ++ rest' by rw [next, bytes, here, List.append_assoc])
        (List.forall_mem_append.mpr ⟨each, List.forall_mem_singleton.mpr framed⟩)
      rw [next, List.length_append] at later
      dsimp only
      rw [later]
    | fault => rfl
    | closed => rfl
    | depth => rfl

theorem received_of_uncut (uncut : ∀ i, ¬ SplitAt s i) : received s = received (joined s) :=
  receive_eq_joined (show s.items = writeAll [] ++ s.items from rfl) nofun uncut _

theorem FirstSplit.of_received {bytes : List UInt8} {ends ends' : Finset ℕ}
    (same : received ⟨bytes, ends⟩ = received ⟨bytes, ends'⟩) (first : FirstSplit ⟨bytes, ends⟩ i) :
    FirstSplit ⟨bytes, ends'⟩ i := by
  obtain ⟨count, -, differs⟩ := received_of_split first
  by_cases split : ∃ j, SplitAt ⟨bytes, ends'⟩ j
  · obtain ⟨j, first'⟩ := FirstSplit.exists split.choose_spec
    obtain ⟨count', -, -⟩ := received_of_split first'
    rw [← same, count] at count'
    exact count' ▸ first'
  · have whole := received_of_uncut (not_exists.mp split)
    exact absurd (whole.symm.trans same.symm) differs

/-- **What is received depends on the first cut in a header word alone**: of two ways to cut a stream the connection receives
the same messages, and ends the same way, if and only if in both or in neither a header word is cut, and the first message
with one is the same. -/
theorem received_eq_iff (bytes : List UInt8) (ends ends' : Finset ℕ) :
    received ⟨bytes, ends⟩ = received ⟨bytes, ends'⟩ ↔ ∀ i, FirstSplit ⟨bytes, ends⟩ i ↔ FirstSplit ⟨bytes, ends'⟩ i := by
  constructor
  · exact fun same i => ⟨FirstSplit.of_received same, FirstSplit.of_received same.symm⟩
  · intro firsts
    by_cases split : ∃ i, FirstSplit ⟨bytes, ends⟩ i
    · obtain ⟨i, first⟩ := split
      rw [(received_of_split first).2.1, (received_of_split ((firsts i).mp first)).2.1]
      rfl
    · have uncut (i : ℕ) : ¬ SplitAt ⟨bytes, ends⟩ i := fun here => split (FirstSplit.exists here)
      have uncut' (i : ℕ) : ¬ SplitAt ⟨bytes, ends'⟩ i := fun here =>
        split ((FirstSplit.exists here).imp fun j first => (firsts j).mpr first)
      rw [received_of_uncut uncut, received_of_uncut uncut']
      rfl

/-- A command comes in two pieces, the first of two bytes: the connection ends without it. -/
theorem received_eq_iff_cut :
    let bytes := write (.mk { type := 8, value := [1, 0, 0, 0, 0, 0, 0, 0, 42] } [])
    (received ⟨bytes, {2}⟩).1.length = 0 ∧ (received ⟨bytes, {2}⟩).2 = .closed ∧
      (received ⟨bytes, ∅⟩).1.length = 1 ∧ received ⟨bytes, {2}⟩ ≠ received ⟨bytes, ∅⟩ := by
  intro bytes
  have none_ : (received ⟨bytes, {2}⟩).1.length = 0 := by decide +kernel
  have one : (received ⟨bytes, ∅⟩).1.length = 1 := by decide +kernel
  refine ⟨none_, by decide +kernel, one, fun same => ?_⟩
  rw [same, one] at none_
  cases none_

end MiniRaft
