import MiniRaft.Machine
import MiniRaft.Messages

/-!
# Replicated state machines (`IRsm`)

A state machine is its own state `ρ` together with `LastAppliedIndex`, which it may change itself. `Read` and
`Write` may return a null message.
-/

namespace MiniRaft

structure TRsm (ρ : Type*) where
  lastAppliedIndex : ℕ := 0
  impl : ρ
  deriving DecidableEq

structure IRsm (ρ : Type*) where
  read : TCommandRequest → ℕ → TRsm ρ → Option TCommandResponse × TRsm ρ
  write : TLogEntry → ℕ → TRsm ρ → Option TCommandResponse × TRsm ρ
  prepare : TCommandRequest → TRsm ρ → TLogEntry × TRsm ρ

/-- What the state machines of the repository do with `LastAppliedIndex`: only `Write` changes it, and only to its
own index. -/
structure IRsm.Lawful {ρ : Type*} (rsm : IRsm ρ) : Prop where
  read : ∀ c i r, (rsm.read c i r).2.lastAppliedIndex = r.lastAppliedIndex
  prepare : ∀ c r, (rsm.prepare c r).2.lastAppliedIndex = r.lastAppliedIndex
  write : ∀ e i r, (rsm.write e i r).2.lastAppliedIndex = r.lastAppliedIndex ∨
    (rsm.write e i r).2.lastAppliedIndex = i

/-- `TDummyRsm`: a list of entries. -/
abbrev TDummyRsm := TRsm (List TLogEntry)

namespace TDummyRsm

/-- The `int64_t` at the beginning of `Data`, least significant byte first. -/
def readIndex (data : List UInt8) : ℤ :=
  toInt64 ((data.take 8).foldr (fun byte n => byte.toNat + 256 * n) 0)

/-- `Read`. The answer has room for the entry's header as well, which is filled from the 16 bytes `beyond` the
entry. -/
def read (beyond : List UInt8) (message : TCommandRequest) (index : ℕ) (rsm : TDummyRsm) :
    Option TCommandResponse × TDummyRsm :=
  let i := readIndex message.data
  if 0 < i ∧ i ≤ rsm.impl.length then
    (some { index := index, data := (rsm.impl.getD (i.toNat - 1) default).data ++ beyond }, rsm)
  else (some { index := index }, rsm)

/-- `Write`. -/
def write (message : TLogEntry) (index : ℕ) (rsm : TDummyRsm) : Option TCommandResponse × TDummyRsm :=
  if rsm.lastAppliedIndex < index then (none, { lastAppliedIndex := index, impl := rsm.impl ++ [message] })
  else (none, rsm)

/-- `Prepare`. -/
def prepare (command : TCommandRequest) (rsm : TDummyRsm) : TLogEntry × TDummyRsm := ({ data := command.data }, rsm)

def rsm (beyond : List UInt8) : IRsm (List TLogEntry) where
  read := read beyond
  write := write
  prepare := prepare

theorem lawful (beyond : List UInt8) : (rsm beyond).Lawful where
  read c i r := by
    change (read beyond c i r).2.lastAppliedIndex = _
    unfold read
    dsimp only
    split <;> rfl
  prepare _ _ := rfl
  write e i r := by
    change (write e i r).2.lastAppliedIndex = _ ∨ (write e i r).2.lastAppliedIndex = _
    unfold write
    split
    · exact .inr rfl
    · exact .inl rfl

end TDummyRsm

end MiniRaft
