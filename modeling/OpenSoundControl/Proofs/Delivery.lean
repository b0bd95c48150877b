import OpenSoundControl.Codec

/-!
Packets written to a sink. A sink takes in what it has room for and fails when that is not all; a
packet that cannot be encoded never reaches it.
-/

namespace OpenSoundControl

namespace Sink

def Fits (sink : Sink) (bytes : Bytes) : Prop :=
  ∀ room ∈ sink.room, bytes.length ≤ room

def taken (sink : Sink) (bytes : Bytes) : Nat :=
  match sink.room with
  | none => bytes.length
  | some room => min room bytes.length

theorem write_snd (sink : Sink) (bytes : Bytes) :
    (sink.write bytes).2 = { sink with
      room := sink.room.map (· - bytes.length)
      stored := sink.stored ++ bytes.take (sink.taken bytes) } := by
  rcases sink with ⟨room, writeMessage, flushMessage, stored, flushes⟩
  cases room with
  | none => simp [write, taken]
  | some room =>
      rw [taken, ← List.take_eq_take_min, write]
      dsimp only
      split <;> rfl

theorem write_stored (sink : Sink) (bytes : Bytes) :
    (sink.write bytes).2.stored = sink.stored ++ bytes.take (sink.taken bytes) := by
  rw [write_snd]

theorem write_flushMessage (sink : Sink) (bytes : Bytes) :
    (sink.write bytes).2.flushMessage = sink.flushMessage := by
  rw [write_snd]

theorem write_flushes (sink : Sink) (bytes : Bytes) :
    (sink.write bytes).2.flushes = sink.flushes := by
  rw [write_snd]

theorem flush_eq_of_none {sink : Sink} (none : sink.flushMessage = none) :
    sink.flush = (.ok (), { sink with flushes := sink.flushes + 1 }) := by
  rw [flush, none]

theorem flush_eq_of_some {sink : Sink} {text : String} (some : sink.flushMessage = some text) :
    sink.flush = (.error (.writer text), { sink with flushes := sink.flushes + 1 }) := by
  rw [flush, some]

theorem flush_snd (sink : Sink) : sink.flush.2 = { sink with flushes := sink.flushes + 1 } := by
  unfold flush
  dsimp only
  split <;> rfl

theorem write_of_fits {sink : Sink} {bytes : Bytes} (fits : sink.Fits bytes) :
    (sink.write bytes).1 = .ok () := by
  unfold write
  cases room : sink.room with
  | none => rfl
  | some room =>
      dsimp only
      rw [if_pos (fits _ room)]

theorem write_of_not_fits {sink : Sink} {bytes : Bytes} (full : ¬sink.Fits bytes) :
    (sink.write bytes).1 = .error (.writer sink.writeMessage) := by
  unfold Fits at full
  unfold write
  cases room : sink.room with
  | none => simp [room] at full
  | some size =>
      have short : ¬bytes.length ≤ size := by simpa [room] using full
      dsimp only
      rw [if_neg short]

end Sink

namespace Codec

variable {codec : Codec} {message : Message} {packet : Bytes}

theorem encodeTo_of_fits (encoded : codec.encode message = .ok packet) {sink : Sink}
    (fits : sink.Fits packet) :
    codec.encodeTo message sink =
      ((sink.write packet).2.flush.1.map fun _ => packet.length,
        (sink.write packet).2.flush.2) := by
  have written : sink.write packet = (.ok (), (sink.write packet).2) :=
    Prod.ext (Sink.write_of_fits fits) rfl
  rw [encodeTo, encoded]
  dsimp only
  rw [written]

theorem encodeTo_of_not_fits (encoded : codec.encode message = .ok packet) {sink : Sink}
    (full : ¬sink.Fits packet) :
    codec.encodeTo message sink =
      (.error (.writer sink.writeMessage), (sink.write packet).2) := by
  have failed : sink.write packet = (.error (.writer sink.writeMessage), (sink.write packet).2) :=
    Prod.ext (Sink.write_of_not_fits full) rfl
  rw [encodeTo, encoded]
  dsimp only
  rw [failed]

/-- A sink gets the packet as far as it goes and nothing else. The size of the packet is the answer
only if all of it has arrived and has been flushed. -/
theorem encodeTo_outcome (codec : Codec) (message : Message) (sink : Sink) :
    match codec.encode message with
    | .error error => codec.encodeTo message sink = (.error error, sink)
    | .ok packet =>
        (codec.encodeTo message sink).2.stored =
            sink.stored ++ packet.take (sink.taken packet) ∧
          (∀ count, (codec.encodeTo message sink).1 = .ok count ↔
            sink.Fits packet ∧ sink.flushMessage = none ∧ count = packet.length) ∧
          ∀ error, (codec.encodeTo message sink).1 = .error error ↔
            ¬sink.Fits packet ∧ error = .writer sink.writeMessage ∨
              sink.Fits packet ∧ ∃ text, sink.flushMessage = some text ∧ error = .writer text := by
  cases encoded : codec.encode message with
  | error error => rw [encodeTo, encoded]
  | ok packet =>
      dsimp only
      by_cases fits : sink.Fits packet
      · rw [encodeTo_of_fits encoded fits]
        refine ⟨?_, ?_⟩
        · rw [Sink.flush_snd]
          exact sink.write_stored packet
        · have kept := sink.write_flushMessage packet
          cases message : sink.flushMessage with
          | none =>
              rw [Sink.flush_eq_of_none (kept.trans message)]
              simp [fits, Except.map, eq_comm]
          | some text =>
              rw [Sink.flush_eq_of_some (kept.trans message)]
              simp [fits, Except.map, eq_comm]
      · rw [encodeTo_of_not_fits encoded fits]
        refine ⟨sink.write_stored packet, ?_⟩
        simp [fits, eq_comm]

theorem flushes_encodeTo (encoded : codec.encode message = .ok packet) (sink : Sink) :
    (sink.Fits packet → (codec.encodeTo message sink).2.flushes = sink.flushes + 1) ∧
      (¬sink.Fits packet → (codec.encodeTo message sink).2.flushes = sink.flushes) := by
  constructor
  · intro fits
    rw [encodeTo_of_fits encoded fits, Sink.flush_snd]
    exact congrArg (· + 1) (sink.write_flushes packet)
  · intro full
    rw [encodeTo_of_not_fits encoded full]
    exact sink.write_flushes packet

end Codec

end OpenSoundControl
