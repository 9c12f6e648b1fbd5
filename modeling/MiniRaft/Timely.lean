import MiniRaft.Availability
import MiniRaft.Pings
import MiniRaft.Sent

/-!
# Runs that keep time

Some of the servers are told the time at least once in each period, and their messages to one another arrive within a lag, in
any order and perhaps more than once. What the other servers do is left open: they may fail, restart and send, but what they
send does not arrive.
-/

namespace MiniRaft

/-- A message from one server to another, and when it was sent. -/
structure Mail where
  src : ℕ
  dst : ℕ
  message : TMessage
  sentAt : Time
  deriving DecidableEq

/-- How long a server may not be told the time, and how long a message may be on its way. -/
structure Pace where
  period : Time
  lag : Time

/-- What happens to one of the servers. -/
inductive Happening where
  | timeout (s : ℕ)
  | receive (mail : Mail)
  | append (s : ℕ) (entry : TLogEntry)
  | approveRead (s : ℕ)

namespace Happening

def server : Happening → ℕ
  | .timeout s | .append s _ | .approveRead s => s
  | .receive mail => mail.dst

def call (t : Time) : Happening → Call
  | .timeout _ => .processTimeout t
  | .receive mail => .process t mail.message
  | .append _ entry => .append entry
  | .approveRead _ => .approveRead

end Happening

/-- The servers at a time. `ticked` is when each was last told the time, `mails` what may arrive, and `pending` what has not
arrived yet. -/
structure Timeline where
  now : Time
  cluster : Cluster
  ticked : ℕ → Time
  mails : List Mail
  pending : List Mail

/-- What a call at `t` has sent to the servers `Q`. -/
def mailsOf (Q : Finset ℕ) (s : ℕ) (t : Time) (r r' : TRaft) : List Mail :=
  (r'.effects.drop r.effects.length).filterMap fun
    | .send d m => if d ∈ Q then some { src := s, dst := d, message := m, sentAt := t } else none
    | _ => none

namespace Timeline

/-- The servers after something happens at `t`. -/
def next (delay : UInt32 → ℕ) (Q : Finset ℕ) (t : Time) (e : Happening) (l : Timeline) : Timeline :=
  let r := l.cluster e.server
  let r' := r.perform delay (e.call t)
  let sent := mailsOf Q e.server t r r'
  { now := t
    cluster := Function.update l.cluster e.server r'
    ticked := match e with
      | .timeout s => Function.update l.ticked s t
      | _ => l.ticked
    mails := l.mails ++ sent
    pending := (match e with
      | .receive mail => l.pending.erase mail
      | _ => l.pending) ++ sent }

/-- Nothing is overdue at `t`. -/
structure OnTime (pace : Pace) (Q : Finset ℕ) (t : Time) (l : Timeline) : Prop where
  later : l.now ≤ t
  told : ∀ s ∈ Q, t ≤ l.ticked s + pace.period
  arrived : ∀ mail ∈ l.pending, t ≤ mail.sentAt + pace.lag

/-- A message arrives within the lag, and requests of clients are taken up by leaders only. -/
def Allows (pace : Pace) (t : Time) (l : Timeline) : Happening → Prop
  | .timeout _ => True
  | .receive mail => mail ∈ l.mails ∧ t ≤ mail.sentAt + pace.lag
  | .append s _ | .approveRead s => (l.cluster s).stateName = .leader

/-- Something happens to one of the servers `Q`, to which only messages of one another arrive, or to another one. -/
inductive Step (delay : UInt32 → ℕ) (lim : ℕ) (pace : Pace) (ids Q : Finset ℕ) (l : Timeline) : Timeline → Prop where
  | here {t : Time} (onTime : OnTime pace Q t l) (e : Happening) (mem : e.server ∈ Q) (allowed : Allows pace t l e)
      (room : ((l.cluster e.server).perform delay (e.call t)).state.log.length < lim) :
      Step delay lim pace ids Q l (l.next delay Q t e)
  | elsewhere {t : Time} (onTime : OnTime pace Q t l) {c : Cluster} (st : Cluster.Step delay lim ids l.cluster c)
      (same : ∀ s ∈ Q, c s = l.cluster s) : Step delay lim pace ids Q l { l with now := t, cluster := c }

/-- From one time to a later one. -/
def Later (delay : UInt32 → ℕ) (lim : ℕ) (pace : Pace) (ids Q : Finset ℕ) : Timeline → Timeline → Prop :=
  Relation.ReflTransGen (Step delay lim pace ids Q)

/-- What holds at any time: the cluster is one that a run reaches, what is on its way was sent, and nothing is overdue. -/
structure Course (delay : UInt32 → ℕ) (lim wait : ℕ) (pace : Pace) (ids Q : Finset ℕ) (l : Timeline) : Prop extends
    OnTime pace Q l.now l where
  group : Cluster.Group delay lim wait ids Q (l.now, l.cluster)
  sent : ∀ mail ∈ l.mails, mail.src ∈ Q ∧ mail.dst ∈ Q ∧ .send mail.dst mail.message ∈ (l.cluster mail.src).effects
  soon : ∀ mail ∈ l.mails, mail.sentAt ≤ l.now
  listed : ∀ mail ∈ l.pending, mail ∈ l.mails
  past : ∀ s ∈ Q, l.ticked s ≤ l.now

variable {delay : UInt32 → ℕ} {lim wait : ℕ} {pace : Pace} {ids Q : Finset ℕ} {l l' : Timeline} {s : ℕ} {t : Time}
  {e : Happening} {mail : Mail} {r r' : TRaft}

theorem mem_mailsOf : mail ∈ mailsOf Q s t r r' ↔ mail.src = s ∧ mail.dst ∈ Q ∧ mail.sentAt = t ∧
    .send mail.dst mail.message ∈ r'.effects.drop r.effects.length := by
  unfold mailsOf
  rw [List.mem_filterMap]
  constructor
  · rintro ⟨effect, there, taken⟩
    cases effect with
    | send d m =>
      dsimp only at taken
      split at taken
      · rename_i known
        obtain rfl := Option.some.inj taken
        exact ⟨rfl, known, rfl, there⟩
      · cases taken
    | commit => cases taken
    | fault => cases taken
  · rintro ⟨rfl, known, rfl, there⟩
    exact ⟨_, there, if_pos known⟩

theorem Step.onTime (st : Step delay lim pace ids Q l l') : OnTime pace Q l'.now l := by
  cases st with
  | here onTime => exact onTime
  | elsewhere onTime => exact onTime

/-! ## One step -/

variable {y : ℕ}

/-- What the server sends by a call. -/
def sent (delay : UInt32 → ℕ) (Q : Finset ℕ) (t : Time) (e : Happening) (l : Timeline) : List Mail :=
  mailsOf Q e.server t (l.cluster e.server) ((l.cluster e.server).perform delay (e.call t))

@[simp] theorem now_next : (l.next delay Q t e).now = t := rfl

theorem next_own : (l.next delay Q t e).cluster e.server = (l.cluster e.server).perform delay (e.call t) :=
  Function.update_self ..

theorem next_other (other : y ≠ e.server) : (l.next delay Q t e).cluster y = l.cluster y := Function.update_of_ne other ..

theorem mem_mails_next : mail ∈ (l.next delay Q t e).mails ↔ mail ∈ l.mails ∨ mail ∈ l.sent delay Q t e := List.mem_append

theorem ticked_next_of_ne (other : e ≠ .timeout y) : (l.next delay Q t e).ticked y = l.ticked y := by
  cases e with
  | timeout s => exact Function.update_of_ne (fun own => other (congrArg _ own.symm)) ..
  | receive mail => rfl
  | append s entry => rfl
  | approveRead s => rfl

theorem ticked_next : (l.next delay Q t e).ticked y = l.ticked y ∨ (l.next delay Q t e).ticked y = t := by
  by_cases own : e = .timeout y
  · subst own
    exact .inr (Function.update_self ..)
  · exact .inl (ticked_next_of_ne own)

theorem mem_pending_next (there : mail ∈ (l.next delay Q t e).pending) : mail ∈ l.pending ∨ mail ∈ l.sent delay Q t e := by
  refine (List.mem_append.mp there).imp_left fun old => ?_
  cases e with
  | receive arrived => exact List.mem_of_mem_erase old
  | timeout s => exact old
  | append s entry => exact old
  | approveRead s => exact old

theorem pending_next_of_new (sent : mail ∈ l.sent delay Q t e) : mail ∈ (l.next delay Q t e).pending :=
  List.mem_append_right _ sent

/-- What has not arrived by this step is still to arrive. -/
theorem pending_next_of_ne (there : mail ∈ l.pending) (other : e ≠ .receive mail) : mail ∈ (l.next delay Q t e).pending := by
  apply List.mem_append_left
  cases e with
  | receive arrived => exact (List.mem_erase_of_ne fun same => other (congrArg _ same.symm)).mpr there
  | timeout s => exact there
  | append s entry => exact there
  | approveRead s => exact there

namespace Course

/-- What may be done to a server of a timeline may be done to it in the cluster. -/
theorem enabled (course : Course delay lim wait pace ids Q l) (sub : Q ⊆ ids) (allowed : Allows pace t l e) :
    Cluster.Enabled ids l.cluster e.server (e.call t) := by
  cases e with
  | timeout s => trivial
  | receive mail =>
    obtain ⟨known, -, there⟩ := course.sent mail allowed.1
    exact ⟨mail.src, sub known, there⟩
  | append s entry => exact allowed
  | approveRead s => exact allowed

/-- What the call sends. -/
theorem since (course : Course delay lim wait pace ids Q l) (sub : Q ⊆ ids) (allowed : Allows pace t l e) :
    TRaft.Since ((e.call t).Sends ((l.cluster e.server).perform delay (e.call t))) (l.cluster e.server)
      ((l.cluster e.server).perform delay (e.call t)) := (course.enabled sub allowed).since

/-- What the servers `Q` have sent one another by a call. -/
theorem of_sent (course : Course delay lim wait pace ids Q l) (sub : Q ⊆ ids) (allowed : Allows pace t l e)
    (there : mail ∈ l.sent delay Q t e) : mail.src = e.server ∧ mail.dst ∈ Q ∧ mail.sentAt = t ∧
      (e.call t).Sends ((l.next delay Q t e).cluster e.server) mail.dst mail.message := by
  obtain ⟨source, known, now, new⟩ := mem_mailsOf.mp there
  exact ⟨source, known, now, next_own ▸ (course.since sub allowed).of_drop new⟩

/-- **The invariant of a timeline.** -/
theorem step (course : Course delay lim wait pace ids Q l) (sub : Q ⊆ ids) (delays : ∀ seed, delay seed ≤ wait)
    (st : Step delay lim pace ids Q l l') : Course delay lim wait pace ids Q l' := by
  have later := st.onTime.later
  cases st with
  | @here t onTime e mem allowed room =>
    have enabled := course.enabled sub allowed
    have timed := (course.group.timed e.server mem).mono later
    have timed' : TRaft.Timed wait t ((l.cluster e.server).perform delay (e.call t)) := by
      cases e with
      | timeout s => exact timed.processTimeout delays le_rfl
      | receive mail => exact timed.process delays le_rfl mail.message
      | append s entry => exact timed.asked ⟨allowed, .inl ⟨entry, rfl⟩⟩
      | approveRead s => exact timed.asked ⟨allowed, .inr rfl⟩
    have st : Cluster.Step delay lim ids l.cluster (l.next delay Q t e).cluster := .call (sub mem) _ enabled room
    have onTime' : OnTime pace Q t (l.next delay Q t e) := by
      refine ⟨le_rfl, fun y peer => ?_, fun mail there => ?_⟩
      · rcases ticked_next (l := l) (e := e) (y := y) with same | now
        · rw [same]
          exact onTime.told y peer
        · rw [now]
          exact Nat.le_add_right ..
      · rcases mem_pending_next there with old | new
        · exact onTime.arrived mail old
        · rw [(mem_mailsOf.mp new).2.2.1]
          exact Nat.le_add_right ..
    refine { onTime' with
      group := ⟨course.group.reach.tail st, fun y peer => ?_⟩
      sent := fun mail there => ?_
      soon := fun mail there => ?_
      listed := fun mail there => mem_mails_next.mpr ((mem_pending_next there).imp_left (course.listed mail))
      past := fun y peer => ?_ }
    · change TRaft.Timed wait t ((l.next delay Q t e).cluster y)
      by_cases own : y = e.server
      · rw [own, next_own]
        exact timed'
      · rw [next_other own]
        exact (course.group.timed y peer).mono later
    · rcases mem_mails_next.mp there with old | new
      · obtain ⟨source, known, there⟩ := course.sent mail old
        exact ⟨source, known, (st.grows _).subset there⟩
      · obtain ⟨source, known, -, there⟩ := mem_mailsOf.mp new
        rw [source, next_own]
        exact ⟨mem, known, List.mem_of_mem_drop there⟩
    · rcases mem_mails_next.mp there with old | new
      · exact (course.soon mail old).trans later
      · exact (mem_mailsOf.mp new).2.2.1.le
    · rcases ticked_next (l := l) (e := e) (y := y) with same | now
      · exact same.le.trans ((course.past y peer).trans later)
      · exact now.le
  | @elsewhere t onTime c st same =>
    exact {
      group := ⟨course.group.reach.tail st, fun y peer => by
        change TRaft.Timed wait t (c y)
        rw [same y peer]
        exact (course.group.timed y peer).mono later⟩
      sent := fun mail there => by
        obtain ⟨source, known, sent⟩ := course.sent mail there
        exact ⟨source, known, (st.grows _).subset sent⟩
      soon := fun mail there => (course.soon mail there).trans later
      listed := course.listed
      past := fun y peer => (course.past y peer).trans later
      later := le_rfl
      told := onTime.told
      arrived := onTime.arrived }

theorem run (course : Course delay lim wait pace ids Q l) (sub : Q ⊆ ids) (delays : ∀ seed, delay seed ≤ wait)
    (later : Later delay lim pace ids Q l l') : Course delay lim wait pace ids Q l' := by
  induction later with
  | refl => exact course
  | tail _ st ih => exact ih.step sub delays st

/-- Whatever has happened before: the servers are told the time, and nothing is on its way. -/
theorem of_group {a : Time × Cluster} (group : Cluster.Group delay lim wait ids Q a) :
    Course delay lim wait pace ids Q ⟨a.1, a.2, fun _ => a.1, [], []⟩ where
  later := le_rfl
  told _ _ := Nat.le_add_right ..
  arrived := nofun
  group := group
  sent := nofun
  soon := nofun
  listed := nofun
  past _ _ := le_rfl

/-- No message that may arrive is of a later term than its sender. -/
theorem dated (course : Course delay lim wait pace ids Q l) (sub : Q ⊆ ids) (there : mail ∈ l.mails) {ex : TMessageEx}
    (header : ex ∈ mail.message.ex?) : ex.term ≤ (l.cluster mail.src).state.currentTerm := by
  obtain ⟨source, -, sent⟩ := course.sent mail there
  exact (course.group.reach.dated (sub source)) _ _ sent ex header

end Course

/-! ## Runs that are computed -/

instance : Decidable (OnTime pace Q t l) :=
  decidable_of_iff (l.now ≤ t ∧ (∀ s ∈ Q, t ≤ l.ticked s + pace.period) ∧ ∀ mail ∈ l.pending, t ≤ mail.sentAt + pace.lag)
    ⟨fun ⟨later, told, arrived⟩ => ⟨later, told, arrived⟩, fun onTime => ⟨onTime.later, onTime.told, onTime.arrived⟩⟩

instance : Decidable (Allows pace t l e) :=
  match e with
  | .timeout _ => inferInstanceAs (Decidable True)
  | .receive mail => inferInstanceAs (Decidable (mail ∈ l.mails ∧ t ≤ mail.sentAt + pace.lag))
  | .append s _ | .approveRead s => inferInstanceAs (Decidable ((l.cluster s).stateName = .leader))

/-- One thing after the other, as far as that can be. Where nothing is said the message arrives that is longest on its way. -/
def play (delay : UInt32 → ℕ) (lim : ℕ) (pace : Pace) (Q : Finset ℕ) : List (Time × Option Happening) → Timeline → Option Timeline
  | [], l => some l
  | (t, cue) :: cues, l =>
    match cue <|> l.pending.head?.map .receive with
    | none => none
    | some e =>
      if e.server ∈ Q ∧ OnTime pace Q t l ∧ Allows pace t l e ∧
          ((l.cluster e.server).perform delay (e.call t)).state.log.length < lim then
        play delay lim pace Q cues (l.next delay Q t e)
      else none

theorem Later.of_play {cues : List (Time × Option Happening)} (played : play delay lim pace Q cues l = some l') :
    Later delay lim pace ids Q l l' := by
  induction cues generalizing l with
  | nil => exact Option.some.inj played ▸ .refl
  | cons cue cues ih =>
    unfold play at played
    split at played
    · cases played
    · split at played
      · rename_i e _ may
        exact .head (.here may.2.1 e may.1 may.2.2.1 may.2.2.2) (ih played)
      · cases played

/-- A property of what is played is checked by playing it. -/
theorem exists_of_play (ids : Finset ℕ) (cues : List (Time × Option Happening)) (φ : Timeline → Prop) [DecidablePred φ]
    (played : (play delay lim pace Q cues l).any (φ ·)) : ∃ l', Later delay lim pace ids Q l l' ∧ φ l' := by
  obtain ⟨l', played, holds⟩ := (Option.any_eq_true _ _).mp played
  exact ⟨l', .of_play played, by simpa using holds⟩

end Timeline

end MiniRaft
