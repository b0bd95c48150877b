import OpenSoundControl.Message.Text
import OpenSoundControl.Proofs.Delivery

/-!
What the diagnostic writers leave in a sink. Many small writes in a row end as one write of all
their bytes would: the sink takes in what it has room for, wherever that ends, and the first failure
is the last thing that happens.
-/

namespace OpenSoundControl

namespace Sink

theorem write_nil (sink : Sink) : sink.write [] = (.ok (), sink) := by
  rcases sink with ⟨room, writeMessage, flushMessage, stored, flushes⟩
  cases room <;> simp [write]

theorem write_append (sink : Sink) (front back : Bytes) :
    sink.write (front ++ back) =
      match sink.write front with
      | (.ok (), after) => after.write back
      | (.error error, after) => (.error error, after) := by
  rcases sink with ⟨room, writeMessage, flushMessage, stored, flushes⟩
  cases room with
  | none => simp [write]
  | some room =>
      by_cases fits : front.length ≤ room
      · -- What the front leaves of the room decides about the back.
        have rest : room - front.length - back.length = room - (front.length + back.length) := by
          omega
        have both : front.length + back.length ≤ room ↔ back.length ≤ room - front.length := by
          omega
        simp [write, fits, rest, both, List.take_append, List.take_of_length_le fits]
      · have full : ¬front.length + back.length ≤ room := by omega
        have nothing : room - front.length = 0 := by omega
        have neither : room - (front.length + back.length) = 0 := by omega
        simp [write, fits, full, nothing, neither, List.take_append]

theorem write_flush_independent (sink : Sink) (bytes : Bytes) (flush : Option String) :
    write { sink with flushMessage := flush } bytes =
      ((sink.write bytes).1, { (sink.write bytes).2 with flushMessage := flush }) := by
  rcases sink with ⟨room, writeMessage, flushMessage, stored, flushes⟩
  cases room with
  | none => simp [write]
  | some room => by_cases fits : bytes.length ≤ room <;> simp [write, fits]

theorem taken_of_fits {sink : Sink} {bytes : Bytes} (fits : sink.Fits bytes) :
    sink.taken bytes = bytes.length := by
  unfold taken
  cases room : sink.room with
  | none => rfl
  | some size => exact Nat.min_eq_right (fits size room)

namespace Writer

/-- The writer does to any sink what one write of the bytes does, and gives the answer if they
fit. -/
def Writes {α : Type} (writer : Writer α) (bytes : Bytes) (answer : α) : Prop :=
  ∀ sink, writer.run.run sink = ((sink.write bytes).1.map fun _ => answer, (sink.write bytes).2)

variable {α β : Type} {front back : Bytes} {answer : α} {result : β}

theorem put_writes (bytes : Bytes) : (put bytes).Writes bytes () := by
  intro sink
  change sink.write bytes = _
  rcases sink.write bytes with ⟨outcome, after⟩
  cases outcome <;> rfl

theorem pure_writes (answer : α) : Writes (pure answer) [] answer := by
  intro sink
  rw [write_nil]
  rfl

theorem Writes.followed {first : Writer α} {second : Writer β}
    (begins : first.Writes front answer) (ends : second.Writes back result) :
    (first >>= fun _ => second).Writes (front ++ back) result := by
  intro sink
  rw [ExceptT.run_bind, StateT.run_bind, begins sink, write_append]
  rcases sink.write front with ⟨outcome, after⟩
  cases outcome with
  | error error => rfl
  | ok => exact ends after

theorem Writes.discarded {writer : Writer α} (writes : writer.Writes front answer) :
    (discard writer).Writes front () := by
  have last : (discard writer).Writes (front ++ []) () := writes.followed (pure_writes ())
  rwa [List.append_nil] at last

theorem Writes.each {writer : α → Writer Unit} {bytes : α → Bytes}
    (writes : ∀ item, (writer item).Writes (bytes item) ()) (items : List α) :
    (items.forM writer).Writes (items.flatMap bytes) () := by
  induction items with
  | nil => exact pure_writes ()
  | cons item rest ih => exact (writes item).followed ih

theorem Writes.unlimited {writer : Writer α} (writes : writer.Writes front answer) :
    (writer.run.run Sink.unlimited).2.stored = front := by
  rw [writes]
  rfl

end Writer

/-- Writing these bytes and nothing else, without a flush: no sink answers otherwise than its room
demands, and none is flushed, or would do otherwise if its flush did. -/
structure Delivers {α : Type} (write : Sink → Except Error α × Sink) (bytes : Bytes)
    (answer : α) : Prop where
  stored : ∀ sink, (write sink).2.stored = sink.stored ++ bytes.take (sink.taken bytes)
  ok_iff : ∀ sink value, (write sink).1 = .ok value ↔ sink.Fits bytes ∧ value = answer
  error_iff : ∀ sink error, (write sink).1 = .error error ↔
    ¬sink.Fits bytes ∧ error = .writer sink.writeMessage
  unflushed : ∀ sink, (write sink).2.flushes = sink.flushes
  independent : ∀ (sink : Sink) flush, write { sink with flushMessage := flush } =
    ((write sink).1, { (write sink).2 with flushMessage := flush })

theorem Writer.Writes.delivers {α : Type} {writer : Writer α} {bytes : Bytes} {answer : α}
    (writes : writer.Writes bytes answer) :
    Delivers (fun sink => writer.run.run sink) bytes answer := by
  constructor
  · intro sink
    rw [writes]
    exact sink.write_stored bytes
  · intro sink value
    rw [writes]
    by_cases fits : sink.Fits bytes
    · simp [write_of_fits fits, fits, Except.map, eq_comm]
    · simp [write_of_not_fits fits, fits, Except.map]
  · intro sink error
    rw [writes]
    by_cases fits : sink.Fits bytes
    · simp [write_of_fits fits, fits, Except.map]
    · simp [write_of_not_fits fits, fits, Except.map, eq_comm]
  · intro sink
    rw [writes]
    exact sink.write_flushes bytes
  · intro sink flush
    rw [writes, writes, write_flush_independent]

theorem Delivers.length_stored {α : Type} {write : Sink → Except Error α × Sink} {bytes : Bytes}
    {answer value : α} (delivers : Delivers write bytes answer) {sink : Sink}
    (written : (write sink).1 = .ok value) :
    (write sink).2.stored.length = sink.stored.length + bytes.length := by
  obtain ⟨fits, -⟩ := (delivers.ok_iff sink value).mp written
  rw [delivers.stored, taken_of_fits fits, List.take_length, List.length_append]

end Sink

open Sink (Delivers)
open Sink.Writer

namespace Argument

theorem writer_writes (argument : Argument) :
    argument.writer.Writes argument.textBytes argument.textBytes.length := by
  have counted : argument.writer.Writes (argument.textBytes ++ []) argument.textBytes.length :=
    (put_writes argument.textBytes).followed (pure_writes argument.textBytes.length)
  rwa [List.append_nil] at counted

theorem writeTo_unlimited (argument : Argument) :
    (argument.writeTo Sink.unlimited).2.stored = argument.textBytes :=
  argument.writer_writes.unlimited

end Argument

namespace Message

def spaced (argument : Argument) : Bytes :=
  Utf8.encode " " ++ argument.textBytes

def textBytes (message : Message) : Bytes :=
  Utf8.encode message.address ++ (Utf8.encode " ," ++ (Utf8.encode message.typeTags ++
    message.arguments.flatMap spaced))

theorem writer_writes (message : Message) : message.writer.Writes message.textBytes () := by
  have each (argument : Argument) :
      Writes (put (Utf8.encode " ") >>= fun _ => discard argument.writer) (spaced argument) () :=
    (put_writes _).followed argument.writer_writes.discarded
  have arguments := Writes.each each message.arguments
  have tags := (put_writes (Utf8.encode message.typeTags)).followed arguments
  have comma := (put_writes (Utf8.encode " ,")).followed tags
  exact (put_writes (Utf8.encode message.address)).followed comma

theorem print_unlimited (message : Message) :
    (message.print Sink.unlimited).2.stored = message.textBytes :=
  message.writer_writes.unlimited

/-- Printing a message, and writing an argument, puts into a sink what there is room for of the
bytes that an unlimited sink gets, and flushes nothing. It succeeds if that is all of them, an
argument with the number of bytes that have arrived. -/
theorem print_delivers (message : Message) :
    Delivers message.print (message.print Sink.unlimited).2.stored () ∧
      ∀ argument : Argument,
        Delivers argument.writeTo (argument.writeTo Sink.unlimited).2.stored
            (argument.writeTo Sink.unlimited).2.stored.length ∧
          ∀ sink count, (argument.writeTo sink).1 = .ok count →
            (argument.writeTo sink).2.stored.length = sink.stored.length + count := by
  constructor
  · rw [print_unlimited]
    exact message.writer_writes.delivers
  · intro argument
    have delivers : Delivers argument.writeTo argument.textBytes argument.textBytes.length :=
      argument.writer_writes.delivers
    rw [argument.writeTo_unlimited]
    refine ⟨delivers, ?_⟩
    intro sink count written
    obtain ⟨-, rfl⟩ := (delivers.ok_iff sink count).mp written
    exact delivers.length_stored written

def unfinished : Message := ⟨"/a", [.string "", .blob [0xC3]], none⟩

theorem print_delivers_unfinished :
    (unfinished.print (Sink.fixed 8)).2.stored = [47, 97, 32, 44, 115, 98, 32, 32] ∧
      (unfinished.print (Sink.fixed 8)).1 = .error (.writer "failed to write whole buffer") ∧
      (unfinished.print (Sink.fixed 8)).2.flushes = 0 ∧
      ((Argument.bool true).writeTo (Sink.fixed 4)).1 = .ok 4 ∧
      ((Argument.bool true).writeTo (Sink.fixed 4)).2.stored.length = 4 := by
  obtain ⟨printed, arguments⟩ := print_delivers unfinished
  obtain ⟨written, counted⟩ := arguments (.bool true)
  rw [print_unlimited] at printed
  have full : ¬(Sink.fixed 8).Fits unfinished.textBytes := by
    intro fits
    exact absurd (fits 8 rfl) (by decide)
  have stored := printed.stored (Sink.fixed 8)
  have fits : ((Argument.bool true).writeTo (Sink.fixed 4)).1 = .ok 4 := by
    apply (written.ok_iff _ _).mpr
    rw [Argument.writeTo_unlimited]
    constructor
    · rintro _ ⟨⟩
      decide
    · rfl
  refine ⟨stored.trans (by decide), ?_, printed.unflushed (Sink.fixed 8), fits,
    counted (Sink.fixed 4) 4 fits⟩
  exact (printed.error_iff _ _).mpr ⟨full, rfl⟩

end Message

end OpenSoundControl
