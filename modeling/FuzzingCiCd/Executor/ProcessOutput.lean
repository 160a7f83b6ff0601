import Mathlib.Algebra.Ring.Nat
import Mathlib.Data.Finset.Insert
import Mathlib.Data.List.Sort
import Mathlib.Logic.Function.Basic

/-!
# Captured output of a child process

`LocalProcessRunner` gives the pumps of the child's stdout and stderr one
`ChunkedProcessOutputStream` each. A stream collects bytes in a buffer of its own and hands full
chunks to a consumer; the sequence number, the list of chunks and the set of truncated streams are
shared by the two.

## Granularity

The pumps are two threads. What they do to their own stream is private, so the steps that matter are
the accesses to what they share, and one turn of the loop in `write` makes at most one delivery and
one mark. A step of the model is therefore one turn of that loop, or one call that has no loop; the
part of a `write` that is still to be done is kept in the pump. A schedule says whose step comes
next. An order of whole calls is the schedule in which a pump keeps the turn until its call is done.

## Main results

* `Capturing.step`: what a step of either pump preserves.
* `finished_along`: a schedule that gives each pump enough turns brings both to the end of their
  calls, so no call of `write` loops for ever.
* `capture_exact`: when both streams have been closed, the chunks of each hold the first bytes
  written to it, up to the limit.
-/

namespace FuzzingCiCd.Executor

inductive ProcessStreamType
  | stdout
  | stderr
  deriving DecidableEq

/-- A piece of the output of a process, numbered within its stream. -/
structure ProcessOutputChunk where
  stream : ProcessStreamType
  sequence : ℕ
  data : List UInt8
  deriving DecidableEq

/-- The part of a request that concerns the output. The constructor refuses limits below one. -/
structure ProcessExecutionRequest where
  outputChunkBytes : ℕ
  maxOutputBytesPerStream : ℕ
  /-- A consumer may throw a `RuntimeException`, given by its message. -/
  outputConsumer : ProcessOutputChunk → Except String Unit
  outputChunkBytes_pos : 1 ≤ outputChunkBytes
  maxOutputBytesPerStream_pos : 1 ≤ maxOutputBytesPerStream

namespace ProcessExecutionRequest

def DEFAULT_OUTPUT_CHUNK_BYTES : ℕ := 16 * 1024

def DEFAULT_MAX_OUTPUT_BYTES_PER_STREAM : ℕ := 1024 * 1024

/-- What the builder makes when it is told nothing about the output. -/
def defaults : ProcessExecutionRequest where
  outputChunkBytes := DEFAULT_OUTPUT_CHUNK_BYTES
  maxOutputBytesPerStream := DEFAULT_MAX_OUTPUT_BYTES_PER_STREAM
  outputConsumer := fun _ ↦ .ok ()
  outputChunkBytes_pos := by decide
  maxOutputBytesPerStream_pos := by decide

end ProcessExecutionRequest

/-! ## The streams

The two pumps share the numbers, the chunks and the flags for what was cut off, so a run is a
sequence of their turns. A `write` takes one turn for each pass of its loop, since the other
stream can emit in between. -/

/-- A call of an output stream. -/
inductive OutputCall
  | writeByte (value : ℤ)
  | write (bytes : List UInt8) (offset length : ℤ)
  | flush
  | close
  deriving DecidableEq

/-- `bytes[offset, offset + length)`, which is nothing where `Objects.checkFromIndexSize` throws. -/
def OutputCall.slice (bytes : List UInt8) (offset length : ℤ) : List UInt8 :=
  if 0 ≤ offset ∧ 0 ≤ length ∧ offset + length ≤ bytes.length then
    (bytes.drop offset.toNat).take length.toNat
  else []

/-- The low eight bits of an `int`. -/
def OutputCall.lowByte (value : ℤ) : UInt8 := .ofNat (value % 256).toNat

/-- The bytes a call writes to its stream. -/
def OutputCall.bytes : OutputCall → List UInt8
  | .writeByte value => [lowByte value]
  | .write bytes offset length => slice bytes offset length
  | .flush => []
  | .close => []

/-- What the two streams of a run share. -/
structure SharedOutput where
  sequence : ℕ
  chunks : List ProcessOutputChunk
  truncatedStreams : Finset ProcessStreamType
  outputFailure : Option String

def SharedOutput.markTruncated (output : SharedOutput) (stream : ProcessStreamType) :
    SharedOutput :=
  { output with truncatedStreams := insert stream output.truncatedStreams }

/-- As many turns as a call can take: a `write` one to begin and at most one for each byte. -/
def OutputCall.turns : OutputCall → ℕ
  | .writeByte _ => 1
  | .write bytes offset length => (slice bytes offset length).length + 1
  | .flush => 1
  | .close => 1

/-- A stream and the thread that writes to it: `writing` is what the `write` in progress has not
taken yet, `todo` are the calls to come. -/
structure ChunkedProcessOutputStream where
  buffer : List UInt8
  capturedBytes : ℕ
  writing : List UInt8
  todo : List OutputCall

namespace ChunkedProcessOutputStream

variable (request : ProcessExecutionRequest) (stream : ProcessStreamType)

/-- A consumer that throws ends the call in progress with an `IOException`. -/
def emit (pump : ChunkedProcessOutputStream) (output : SharedOutput) :
    ChunkedProcessOutputStream × SharedOutput :=
  if pump.buffer = [] then (pump, output)
  else
    let chunk : ProcessOutputChunk := ⟨stream, output.sequence, pump.buffer⟩
    let pump := { pump with buffer := [] }
    -- the chunk is in the list of the run before the consumer of the request sees it
    let output := { output with
      sequence := output.sequence + 1
      chunks := output.chunks ++ [chunk] }
    match request.outputConsumer chunk with
    | .ok () => (pump, output)
    | .error message =>
      ({ pump with writing := [] },
        { output with outputFailure := output.outputFailure.or (some message) })

/-- `emit` once the buffer holds a chunk. -/
def emitFull (pump : ChunkedProcessOutputStream) (output : SharedOutput) :
    ChunkedProcessOutputStream × SharedOutput :=
  if request.outputChunkBytes ≤ pump.buffer.length then emit request stream pump output
  else (pump, output)

/-- `write(int)`. -/
def writeByte (value : ℤ) (pump : ChunkedProcessOutputStream) (output : SharedOutput) :
    ChunkedProcessOutputStream × SharedOutput :=
  if request.maxOutputBytesPerStream ≤ pump.capturedBytes then (pump, output.markTruncated stream)
  else
    emitFull request stream
      { pump with
        buffer := pump.buffer ++ [OutputCall.lowByte value]
        capturedBytes := pump.capturedBytes + 1 } output

/-- One turn of the loop in `write(byte[], int, int)`. -/
def writeTurn (pump : ChunkedProcessOutputStream) (output : SharedOutput) :
    ChunkedProcessOutputStream × SharedOutput :=
  let availableBytes := request.maxOutputBytesPerStream - pump.capturedBytes
  if availableBytes = 0 then ({ pump with writing := [] }, output.markTruncated stream)
  else
    let writable := min (min pump.writing.length (request.outputChunkBytes - pump.buffer.length))
      availableBytes
    let (pump, output) := emitFull request stream
      { pump with
        buffer := pump.buffer ++ pump.writing.take writable
        capturedBytes := pump.capturedBytes + writable
        writing := pump.writing.drop writable } output
    if pump.writing ≠ [] ∧ request.maxOutputBytesPerStream ≤ pump.capturedBytes then
      ({ pump with writing := [] }, output.markTruncated stream)
    else (pump, output)

/-- A call without a loop, or the start of a `write`. -/
def begin (call : OutputCall) (pump : ChunkedProcessOutputStream) (output : SharedOutput) :
    ChunkedProcessOutputStream × SharedOutput :=
  match call with
  | .writeByte value => writeByte request stream value pump output
  | .write bytes offset length =>
    ({ pump with writing := OutputCall.slice bytes offset length }, output)
  | .flush => emit request stream pump output
  | .close => emit request stream pump output

/-- The next step of a pump. -/
def next (pump : ChunkedProcessOutputStream) (output : SharedOutput) :
    ChunkedProcessOutputStream × SharedOutput :=
  if pump.writing ≠ [] then writeTurn request stream pump output
  else
    match pump.todo with
    | [] => (pump, output)
    | call :: todo => begin request stream call { pump with todo := todo } output

end ChunkedProcessOutputStream

/-! ## Runs -/

/-- The output side of a run. -/
structure OutputRun where
  pump : ProcessStreamType → ChunkedProcessOutputStream
  output : SharedOutput

namespace OutputRun

variable (request : ProcessExecutionRequest)

/-- Both streams are closed after their calls. -/
def start (calls : ProcessStreamType → List OutputCall) : OutputRun where
  pump stream := ⟨[], 0, [], calls stream ++ [.close]⟩
  output := ⟨0, [], ∅, none⟩

def step (run : OutputRun) (stream : ProcessStreamType) : OutputRun :=
  let (pump, output) :=
    ChunkedProcessOutputStream.next request stream (run.pump stream) run.output
  ⟨Function.update run.pump stream pump, output⟩

/-- The run under a schedule. -/
def along (schedule : List ProcessStreamType) (run : OutputRun) : OutputRun :=
  schedule.foldl (step request) run

/-- The pumps have made all their calls. -/
def Finished (run : OutputRun) : Prop :=
  ∀ stream, (run.pump stream).writing = [] ∧ (run.pump stream).todo = []

end OutputRun

/-! ## Results -/

/-- How a process ended, and what is kept of its output. -/
structure ProcessExecutionResult where
  exitCode : ℤ
  timedOut : Bool
  killedAfterGracePeriod : Bool
  outputChunks : List ProcessOutputChunk
  truncatedStreams : Finset ProcessStreamType

namespace ProcessExecutionResult

/-- `sorted(Comparator.comparingLong(ProcessOutputChunk::sequence))`. -/
def sortedChunks (chunks : List ProcessOutputChunk) : List ProcessOutputChunk :=
  chunks.mergeSort fun a b ↦ a.sequence ≤ b.sequence

/-- The canonical constructor. -/
def construct (exitCode : ℤ) (timedOut killedAfterGracePeriod : Bool)
    (outputChunks : List ProcessOutputChunk) (truncatedStreams : Finset ProcessStreamType) :
    ProcessExecutionResult where
  exitCode := exitCode
  timedOut := timedOut
  killedAfterGracePeriod := killedAfterGracePeriod
  outputChunks := sortedChunks outputChunks
  truncatedStreams := truncatedStreams

def chunks (result : ProcessExecutionResult) (stream : ProcessStreamType) :
    List ProcessOutputChunk :=
  sortedChunks (result.outputChunks.filter fun chunk ↦ chunk.stream = stream)

/-- The text of a stream; the charset decodes all its bytes together. -/
def text (result : ProcessExecutionResult) (stream : ProcessStreamType)
    (charset : List UInt8 → List Char) : List Char :=
  charset ((result.chunks stream).flatMap ProcessOutputChunk.data)

def stdoutText (result : ProcessExecutionResult) (charset : List UInt8 → List Char) : List Char :=
  result.text .stdout charset

def stderrText (result : ProcessExecutionResult) (charset : List UInt8 → List Char) : List Char :=
  result.text .stderr charset

def truncated (result : ProcessExecutionResult) (stream : ProcessStreamType) : Bool :=
  stream ∈ result.truncatedStreams

end ProcessExecutionResult

/-- The end of `LocalProcessRunner.run`: the first failure of the consumer is thrown again. -/
def OutputRun.result (run : OutputRun) (exitCode : ℤ) (timedOut killedAfterGracePeriod : Bool) :
    Except String ProcessExecutionResult :=
  match run.output.outputFailure with
  | some _ => .error "Не удалось обработать stdout/stderr дочернего процесса"
  | none =>
    .ok (.construct exitCode timedOut killedAfterGracePeriod run.output.chunks
      run.output.truncatedStreams)

/-! ## What the streams hold

`consumed` are the bytes that a stream has been given so far, whether it kept them or not. -/

/-- The bytes of a stream that have been delivered. -/
def SharedOutput.delivered (output : SharedOutput) (stream : ProcessStreamType) : List UInt8 :=
  (output.chunks.filter fun chunk ↦ chunk.stream = stream).flatMap ProcessOutputChunk.data

/-- A stream has kept the first bytes it was given, and is marked when that is not all of them. -/
structure Capture (request : ProcessExecutionRequest) (stream : ProcessStreamType)
    (consumed : List UInt8) (pump : ChunkedProcessOutputStream) (output : SharedOutput) :
    Prop where
  kept : output.delivered stream ++ pump.buffer = consumed.take request.maxOutputBytesPerStream
  count : pump.capturedBytes = min request.maxOutputBytesPerStream consumed.length
  marked : stream ∈ output.truncatedStreams ↔ request.maxOutputBytesPerStream < consumed.length

/-- The chunks are numbered in the order of the list, and each is of a legal size. -/
structure Numbered (request : ProcessExecutionRequest) (output : SharedOutput) : Prop where
  sequences : output.chunks.map ProcessOutputChunk.sequence = List.range output.sequence
  sizes : ∀ chunk ∈ output.chunks,
    1 ≤ chunk.data.length ∧ chunk.data.length ≤ request.outputChunkBytes
  served : output.outputFailure = none

/-- Two outputs that agree on the other stream. -/
def Apart (stream : ProcessStreamType) (before after : SharedOutput) : Prop :=
  ∀ other, other ≠ stream → after.delivered other = before.delivered other ∧
    (other ∈ after.truncatedStreams ↔ other ∈ before.truncatedStreams)

section Streams

variable {request : ProcessExecutionRequest} {stream : ProcessStreamType}
  {consumed bytes : List UInt8} {pump : ChunkedProcessOutputStream}
  {output after last : SharedOutput}

theorem Apart.refl (stream : ProcessStreamType) (output : SharedOutput) :
    Apart stream output output :=
  fun _ _ ↦ ⟨rfl, Iff.rfl⟩

theorem Apart.trans (h : Apart stream output after) (h' : Apart stream after last) :
    Apart stream output last := fun other hother ↦
  ⟨(h' other hother).1.trans (h other hother).1, (h' other hother).2.trans (h other hother).2⟩

theorem apart_markTruncated : Apart stream output (output.markTruncated stream) := by
  refine fun other hother ↦ ⟨rfl, ?_⟩
  rw [SharedOutput.markTruncated, Finset.mem_insert]
  exact or_iff_right hother

theorem Numbered.markTruncated (h : Numbered request output) :
    Numbered request (output.markTruncated stream) :=
  ⟨h.sequences, h.sizes, h.served⟩

theorem Capture.append (h : Capture request stream consumed pump output)
    (hroom : pump.capturedBytes + bytes.length ≤ request.maxOutputBytesPerStream)
    (writing : List UInt8) (todo : List OutputCall) :
    Capture request stream (consumed ++ bytes)
      ⟨pump.buffer ++ bytes, pump.capturedBytes + bytes.length, writing, todo⟩ output := by
  have hcount := h.count
  rcases Nat.eq_zero_or_pos bytes.length with hnil | hpos
  · obtain rfl := List.length_eq_zero_iff.mp hnil
    simpa using (⟨h.kept, h.count, h.marked⟩ : Capture request stream consumed
      ⟨pump.buffer, pump.capturedBytes, writing, todo⟩ output)
  · -- the limit has not been reached, so what was given before has all been kept
    have hle : consumed.length + bytes.length ≤ request.maxOutputBytesPerStream := by omega
    have hkept := h.kept
    rw [List.take_of_length_le (by omega)] at hkept
    refine ⟨?_, ?_, ?_⟩
    · rw [List.take_of_length_le (by rw [List.length_append]; exact hle), ← hkept,
        List.append_assoc]
    · dsimp only
      rw [List.length_append]
      omega
    · rw [h.marked, List.length_append]
      omega

/-- Bytes beyond the limit are dropped, and the stream is marked. -/
theorem Capture.overflow (h : Capture request stream consumed pump output)
    (hfull : request.maxOutputBytesPerStream ≤ pump.capturedBytes) (hbytes : bytes ≠ [])
    (writing : List UInt8) (todo : List OutputCall) :
    Capture request stream (consumed ++ bytes)
      ⟨pump.buffer, pump.capturedBytes, writing, todo⟩ (output.markTruncated stream) := by
  have hcount := h.count
  have hpos := List.length_pos_iff.mpr hbytes
  refine ⟨?_, ?_, ?_⟩
  · rw [List.take_append_of_le_length (by omega)]
    exact h.kept
  · dsimp only
    rw [List.length_append]
    omega
  · rw [SharedOutput.markTruncated, List.length_append]
    refine iff_of_true (Finset.mem_insert_self _ _) ?_
    omega

end Streams

/-! ### Deliveries -/

section Deliveries

variable {request : ProcessExecutionRequest} {stream : ProcessStreamType}
  {consumed : List UInt8} {pump : ChunkedProcessOutputStream} {output : SharedOutput}

open ChunkedProcessOutputStream

/-- A consumer that does not throw gets the whole buffer, if there is anything in it. -/
theorem emit_eq (hconsumer : ∀ chunk, request.outputConsumer chunk = .ok ())
    (hbuffer : pump.buffer ≠ []) :
    emit request stream pump output = ({ pump with buffer := [] }, { output with
      sequence := output.sequence + 1
      chunks := output.chunks ++ [⟨stream, output.sequence, pump.buffer⟩] }) := by
  rw [emit, if_neg hbuffer]
  dsimp only
  rw [hconsumer]

theorem emit_fst (hconsumer : ∀ chunk, request.outputConsumer chunk = .ok ()) :
    (emit request stream pump output).1 = { pump with buffer := [] } := by
  by_cases hbuffer : pump.buffer = []
  · rw [emit, if_pos hbuffer, ← hbuffer]
  · rw [emit_eq hconsumer hbuffer]

theorem delivered_emit (hconsumer : ∀ chunk, request.outputConsumer chunk = .ok ())
    (other : ProcessStreamType) :
    (emit request stream pump output).2.delivered other =
      output.delivered other ++ if stream = other then pump.buffer else [] := by
  by_cases hbuffer : pump.buffer = []
  · rw [emit, if_pos hbuffer, hbuffer, ite_self, List.append_nil]
  · rw [emit_eq hconsumer hbuffer, SharedOutput.delivered, List.filter_append,
      List.flatMap_append]
    by_cases hother : stream = other <;> simp [SharedOutput.delivered, hother]

theorem truncatedStreams_emit (hconsumer : ∀ chunk, request.outputConsumer chunk = .ok ()) :
    (emit request stream pump output).2.truncatedStreams = output.truncatedStreams := by
  by_cases hbuffer : pump.buffer = []
  · rw [emit, if_pos hbuffer]
  · rw [emit_eq hconsumer hbuffer]

theorem apart_emit (hconsumer : ∀ chunk, request.outputConsumer chunk = .ok ()) :
    Apart stream output (emit request stream pump output).2 := by
  refine fun other hother ↦ ⟨?_, by rw [truncatedStreams_emit hconsumer]⟩
  rw [delivered_emit hconsumer, if_neg (Ne.symm hother), List.append_nil]

theorem Numbered.emit (h : Numbered request output)
    (hconsumer : ∀ chunk, request.outputConsumer chunk = .ok ())
    (hsize : pump.buffer.length ≤ request.outputChunkBytes) :
    Numbered request (emit request stream pump output).2 := by
  by_cases hbuffer : pump.buffer = []
  · rw [ChunkedProcessOutputStream.emit, if_pos hbuffer]
    exact h
  · rw [emit_eq hconsumer hbuffer]
    refine ⟨?_, fun chunk hchunk ↦ ?_, h.served⟩
    · rw [List.map_append, h.sequences, List.range_succ]
      rfl
    · rcases List.mem_append.mp hchunk with hold | hnew
      · exact h.sizes chunk hold
      · obtain rfl := List.mem_singleton.mp hnew
        exact ⟨List.length_pos_iff.mpr hbuffer, hsize⟩

theorem Capture.emit (h : Capture request stream consumed pump output)
    (hconsumer : ∀ chunk, request.outputConsumer chunk = .ok ()) :
    Capture request stream consumed (emit request stream pump output).1
      (emit request stream pump output).2 := by
  refine ⟨?_, ?_, ?_⟩
  · rw [delivered_emit hconsumer, if_pos rfl, emit_fst hconsumer, List.append_nil]
    exact h.kept
  · rw [emit_fst hconsumer]
    exact h.count
  · rw [truncatedStreams_emit hconsumer]
    exact h.marked

end Deliveries

/-! ### Steps of a pump

`Sound` says of one stream what is kept of the bytes that it was given and what is still in its
buffer, and that the numbers of the chunks grow over both streams. A turn of the loop in `write`
takes some of the bytes that are pending, any other call all of its own, and neither touches the
other stream. -/

/-- What holds of a stream between the steps of its pump. -/
structure Sound (request : ProcessExecutionRequest) (stream : ProcessStreamType)
    (consumed : List UInt8) (pump : ChunkedProcessOutputStream) (output : SharedOutput) : Prop where
  capture : Capture request stream consumed pump output
  numbered : Numbered request output
  room : pump.buffer.length < request.outputChunkBytes

/-- The bytes a pump has still to write. -/
def ChunkedProcessOutputStream.pending (pump : ChunkedProcessOutputStream) : List UInt8 :=
  pump.writing ++ pump.todo.flatMap OutputCall.bytes

section Steps

variable {request : ProcessExecutionRequest} {stream : ProcessStreamType}
  {consumed : List UInt8} {pump : ChunkedProcessOutputStream} {output : SharedOutput}

open ChunkedProcessOutputStream

theorem emitFull_sound (hconsumer : ∀ chunk, request.outputConsumer chunk = .ok ())
    (hcapture : Capture request stream consumed pump output) (hnumbered : Numbered request output)
    (hsize : pump.buffer.length ≤ request.outputChunkBytes) :
    Sound request stream consumed (emitFull request stream pump output).1
        (emitFull request stream pump output).2 ∧
      Apart stream output (emitFull request stream pump output).2 ∧
      (emitFull request stream pump output).1.writing = pump.writing ∧
      (emitFull request stream pump output).1.todo = pump.todo := by
  rw [emitFull]
  by_cases hfull : request.outputChunkBytes ≤ pump.buffer.length
  · rw [if_pos hfull]
    have hsound := hcapture.emit hconsumer
    have hapart : Apart stream output (emit request stream pump output).2 := apart_emit hconsumer
    have hnext := @Numbered.emit _ stream _ _ hnumbered hconsumer hsize
    rw [emit_fst hconsumer] at hsound ⊢
    exact ⟨⟨hsound, hnext, request.outputChunkBytes_pos⟩, hapart, rfl, rfl⟩
  · rw [if_neg hfull]
    exact ⟨⟨hcapture, hnumbered, not_le.mp hfull⟩, Apart.refl _ _, rfl, rfl⟩

theorem emit_sound (hconsumer : ∀ chunk, request.outputConsumer chunk = .ok ())
    (h : Sound request stream consumed pump output) :
    Sound request stream consumed (emit request stream pump output).1
      (emit request stream pump output).2 := by
  refine ⟨h.capture.emit hconsumer, h.numbered.emit hconsumer h.room.le, ?_⟩
  rw [emit_fst hconsumer]
  exact request.outputChunkBytes_pos

theorem writeByte_sound (hconsumer : ∀ chunk, request.outputConsumer chunk = .ok ())
    (h : Sound request stream consumed pump output) (value : ℤ) :
    Sound request stream (consumed ++ [OutputCall.lowByte value])
        (writeByte request stream value pump output).1
        (writeByte request stream value pump output).2 ∧
      Apart stream output (writeByte request stream value pump output).2 ∧
      (writeByte request stream value pump output).1.writing = pump.writing ∧
      (writeByte request stream value pump output).1.todo = pump.todo := by
  rw [writeByte]
  by_cases hfull : request.maxOutputBytesPerStream ≤ pump.capturedBytes
  · rw [if_pos hfull]
    exact ⟨⟨h.capture.overflow hfull (List.cons_ne_nil _ _) _ _, h.numbered.markTruncated, h.room⟩,
      apart_markTruncated, rfl, rfl⟩
  · rw [if_neg hfull]
    have hone : pump.capturedBytes + [OutputCall.lowByte value].length ≤
        request.maxOutputBytesPerStream := not_le.mp hfull
    have hsize : (pump.buffer ++ [OutputCall.lowByte value]).length ≤
        request.outputChunkBytes := by
      rw [List.length_append]
      exact h.room
    exact emitFull_sound hconsumer (h.capture.append hone pump.writing pump.todo) h.numbered hsize

/-- A turn of the loop takes some of the bytes, or all of them when the limit is reached. -/
theorem writeTurn_sound (hconsumer : ∀ chunk, request.outputConsumer chunk = .ok ())
    (h : Sound request stream consumed pump output) (hwriting : pump.writing ≠ []) :
    ∃ taken, taken ++ (writeTurn request stream pump output).1.writing = pump.writing ∧
      Sound request stream (consumed ++ taken) (writeTurn request stream pump output).1
        (writeTurn request stream pump output).2 ∧
      Apart stream output (writeTurn request stream pump output).2 ∧
      (writeTurn request stream pump output).1.todo = pump.todo := by
  have hcount := h.capture.count
  rw [writeTurn]
  dsimp only
  by_cases havailable : request.maxOutputBytesPerStream - pump.capturedBytes = 0
  · rw [if_pos havailable]
    have hfull : request.maxOutputBytesPerStream ≤ pump.capturedBytes := by omega
    exact ⟨pump.writing, List.append_nil _,
      ⟨h.capture.overflow hfull hwriting _ _, h.numbered.markTruncated, h.room⟩,
      apart_markTruncated, rfl⟩
  · rw [if_neg havailable]
    generalize hwritable : min (min pump.writing.length
      (request.outputChunkBytes - pump.buffer.length))
      (request.maxOutputBytesPerStream - pump.capturedBytes) = writable
    have hlength : (pump.writing.take writable).length = writable := by
      rw [List.length_take]
      omega
    have hroom : pump.capturedBytes + (pump.writing.take writable).length ≤
        request.maxOutputBytesPerStream := by omega
    have hsize : (pump.buffer ++ pump.writing.take writable).length ≤
        request.outputChunkBytes := by
      have := h.room
      rw [List.length_append]
      omega
    have hcapture := h.capture.append hroom (pump.writing.drop writable) pump.todo
    rw [hlength] at hcapture
    obtain ⟨hsound, hapart, hrest, htodo⟩ := emitFull_sound hconsumer hcapture h.numbered hsize
    dsimp only at hrest htodo
    have hsplit := List.take_append_drop writable pump.writing
    split
    · -- the limit is reached inside the call, and the rest of its bytes is dropped
      rename_i hlimit
      refine ⟨pump.writing, List.append_nil _, ⟨?_, hsound.numbered.markTruncated, hsound.room⟩,
        hapart.trans apart_markTruncated, htodo⟩
      have hover := hsound.capture.overflow hlimit.2 hlimit.1 [] pump.todo
      rw [List.append_assoc, hrest, hsplit] at hover
      rw [htodo]
      exact hover
    · refine ⟨pump.writing.take writable, ?_, hsound, hapart, htodo⟩
      rw [hrest, hsplit]

/-- **A step of a pump** moves bytes from what is pending to what has been given to its stream, and
leaves the other stream alone. -/
theorem next_sound (hconsumer : ∀ chunk, request.outputConsumer chunk = .ok ())
    (h : Sound request stream consumed pump output) :
    ∃ taken, taken ++ (next request stream pump output).1.pending = pump.pending ∧
      Sound request stream (consumed ++ taken) (next request stream pump output).1
        (next request stream pump output).2 ∧
      Apart stream output (next request stream pump output).2 := by
  rw [next]
  -- with nothing to write the pump takes its next call, else it goes on with the chunk
  by_cases hwriting : pump.writing = []
  · rw [if_neg (not_not_intro hwriting)]
    rcases htodo : pump.todo with _ | ⟨call, todo⟩
    · exact ⟨[], rfl, by rwa [List.append_nil], Apart.refl _ _⟩
    · dsimp only
      have hstart : Sound request stream consumed { pump with todo := todo } output :=
        ⟨⟨h.capture.kept, h.capture.count, h.capture.marked⟩, h.numbered, h.room⟩
      have hpending : pump.pending = call.bytes ++ todo.flatMap OutputCall.bytes := by
        rw [pending, hwriting, htodo]
        rfl
      rw [hpending]
      cases call with
      | writeByte value =>
        obtain ⟨hsound, hapart, hw, ht⟩ := writeByte_sound hconsumer hstart value
        refine ⟨[OutputCall.lowByte value], ?_, hsound, hapart⟩
        rw [begin, pending, hw, ht]
        dsimp only
        rw [hwriting]
        rfl
      | write bytes offset length =>
        refine ⟨[], rfl, ?_, Apart.refl _ _⟩
        rw [List.append_nil]
        exact ⟨⟨h.capture.kept, h.capture.count, h.capture.marked⟩, h.numbered, h.room⟩
      | flush =>
        refine ⟨[], ?_, by rw [List.append_nil]; exact emit_sound hconsumer hstart,
          apart_emit hconsumer⟩
        rw [begin, emit_fst hconsumer, pending, hwriting]
        rfl
      | close =>
        refine ⟨[], ?_, by rw [List.append_nil]; exact emit_sound hconsumer hstart,
          apart_emit hconsumer⟩
        rw [begin, emit_fst hconsumer, pending, hwriting]
        rfl
  · rw [if_pos hwriting]
    obtain ⟨taken, hsplit, hsound, hapart, htodo⟩ := writeTurn_sound hconsumer h hwriting
    refine ⟨taken, ?_, hsound, hapart⟩
    rw [pending, htodo, ← List.append_assoc, hsplit, pending]

/-- Either the stream is still to be closed, or there is nothing left in it. -/
def Closing (pump : ChunkedProcessOutputStream) : Prop :=
  (∃ calls, pump.todo = calls ++ [.close]) ∨
    pump.todo = [] ∧ pump.writing = [] ∧ pump.buffer = []

theorem next_closing (hconsumer : ∀ chunk, request.outputConsumer chunk = .ok ())
    (h : Sound request stream consumed pump output) (hclosing : Closing pump) :
    Closing (next request stream pump output).1 := by
  rcases hclosing with ⟨calls, hcalls⟩ | ⟨htodo, hwriting, hbuffer⟩
  · rw [next]
    by_cases hwriting : pump.writing = []
    · rw [if_neg (not_not_intro hwriting), hcalls]
      rcases calls with _ | ⟨call, calls⟩
      · refine Or.inr ?_
        rw [List.nil_append]
        dsimp only [begin]
        rw [emit_fst hconsumer]
        exact ⟨rfl, hwriting, rfl⟩
      · -- a call before the last one leaves the calls after it alone
        refine Or.inl ⟨calls, ?_⟩
        rw [List.cons_append]
        cases call with
        | writeByte value =>
          have hstart : Sound request stream consumed
              { pump with todo := calls ++ [.close] } output :=
            ⟨⟨h.capture.kept, h.capture.count, h.capture.marked⟩, h.numbered, h.room⟩
          exact (writeByte_sound hconsumer hstart value).2.2.2
        | write bytes offset length => rfl
        | flush => exact congrArg todo (emit_fst hconsumer)
        | close => exact congrArg todo (emit_fst hconsumer)
    · rw [if_pos hwriting]
      obtain ⟨-, -, -, -, htodo⟩ := writeTurn_sound hconsumer h hwriting
      exact Or.inl ⟨calls, htodo.trans hcalls⟩
  · rw [next, if_neg (not_not_intro hwriting), htodo]
    exact Or.inr ⟨htodo, hwriting, hbuffer⟩

end Steps

/-! ## Runs of both pumps -/

/-- What holds of a run of both pumps at any time. -/
def Capturing (request : ProcessExecutionRequest) (calls : ProcessStreamType → List OutputCall)
    (run : OutputRun) : Prop :=
  ∀ stream, ∃ consumed,
    consumed ++ (run.pump stream).pending = (calls stream).flatMap OutputCall.bytes ∧
      Sound request stream consumed (run.pump stream) run.output ∧ Closing (run.pump stream)

section Runs

variable {request : ProcessExecutionRequest} {calls : ProcessStreamType → List OutputCall}
  {run : OutputRun}

theorem capturing_start : Capturing request calls (.start calls) := by
  refine fun stream ↦ ⟨[], ?_, ⟨⟨?_, ?_, ?_⟩, ⟨rfl, ?_, rfl⟩, request.outputChunkBytes_pos⟩,
    Or.inl ⟨calls stream, rfl⟩⟩
  · simp [ChunkedProcessOutputStream.pending, OutputRun.start, OutputCall.bytes]
  · rw [List.take_nil]
    rfl
  · exact (Nat.min_zero _).symm
  · exact iff_of_false (Finset.notMem_empty stream) (Nat.not_lt_zero _)
  · exact fun chunk hchunk ↦ absurd hchunk List.not_mem_nil

theorem Capturing.step (hconsumer : ∀ chunk, request.outputConsumer chunk = .ok ())
    (h : Capturing request calls run) (stream : ProcessStreamType) :
    Capturing request calls (run.step request stream) := by
  obtain ⟨consumed, hbytes, hsound, hclosing⟩ := h stream
  obtain ⟨taken, hpending, hnext, hapart⟩ := next_sound hconsumer hsound
  intro other
  by_cases hother : other = stream
  · subst hother
    refine ⟨consumed ++ taken, ?_, ?_, ?_⟩ <;>
      simp only [OutputRun.step, Function.update_self]
    · rw [List.append_assoc, hpending, hbytes]
    · exact hnext
    · exact next_closing hconsumer hsound hclosing
  · -- the other stream sees neither its pump nor its chunks change
    obtain ⟨consumed', hbytes', hsound', hclosing'⟩ := h other
    refine ⟨consumed', ?_, ?_, ?_⟩ <;>
      simp only [OutputRun.step, Function.update_of_ne hother]
    · exact hbytes'
    · obtain ⟨hdelivered, hmarked⟩ := hapart other hother
      refine ⟨⟨?_, hsound'.capture.count, ?_⟩, hnext.numbered, hsound'.room⟩
      · rw [hdelivered]
        exact hsound'.capture.kept
      · rw [hmarked]
        exact hsound'.capture.marked
    · exact hclosing'

theorem Capturing.along (hconsumer : ∀ chunk, request.outputConsumer chunk = .ok ())
    (h : Capturing request calls run) (schedule : List ProcessStreamType) :
    Capturing request calls (run.along request schedule) := by
  induction schedule generalizing run with
  | nil => exact h
  | cons stream schedule ih => exact ih (h.step hconsumer stream)

end Runs

/-! ### Every run comes to its end

The loop in `write` ends: the buffer has room for a byte between two turns, so each turn takes at
least one byte of the call or drops the rest of it. -/

/-- As many turns as the pump can still take. -/
def ChunkedProcessOutputStream.turns (pump : ChunkedProcessOutputStream) : ℕ :=
  pump.writing.length + (pump.todo.map OutputCall.turns).sum

section Turns

variable {request : ProcessExecutionRequest} {stream : ProcessStreamType}
  {pump : ChunkedProcessOutputStream} {output : SharedOutput}

open ChunkedProcessOutputStream

/-- A delivery adds no turns; a consumer that throws ends the `write` in progress. -/
theorem emit_turns_le (pump : ChunkedProcessOutputStream) (output : SharedOutput) :
    (emit request stream pump output).1.turns ≤ pump.turns := by
  rw [emit]
  by_cases hbuffer : pump.buffer = []
  · rw [if_pos hbuffer]
  · rw [if_neg hbuffer]
    dsimp only
    cases request.outputConsumer ⟨stream, output.sequence, pump.buffer⟩ with
    | ok => exact le_refl _
    | error message =>
      rw [turns, List.length_nil, Nat.zero_add]
      exact Nat.le_add_left _ _

theorem emitFull_turns_le (pump : ChunkedProcessOutputStream) (output : SharedOutput) :
    (emitFull request stream pump output).1.turns ≤ pump.turns := by
  rw [emitFull]
  by_cases hfull : request.outputChunkBytes ≤ pump.buffer.length
  · rw [if_pos hfull]
    exact emit_turns_le pump output
  · rw [if_neg hfull]

/-- **A turn of the loop** shortens what is left of the call. -/
theorem writeTurn_turns_lt (hroom : pump.buffer.length < request.outputChunkBytes)
    (hwriting : pump.writing ≠ []) :
    (writeTurn request stream pump output).1.turns < pump.turns := by
  have hpos := List.length_pos_iff.mpr hwriting
  rw [writeTurn]
  dsimp only
  by_cases havailable : request.maxOutputBytesPerStream - pump.capturedBytes = 0
  · rw [if_pos havailable, turns, turns, List.length_nil]
    exact Nat.add_lt_add_right hpos _
  · rw [if_neg havailable]
    generalize hwritable : min (min pump.writing.length
      (request.outputChunkBytes - pump.buffer.length))
      (request.maxOutputBytesPerStream - pump.capturedBytes) = writable
    -- there is a byte to take, room for it in the buffer, and the limit has not been reached
    have htakes : 0 < writable := by omega
    have hshorter : (pump.writing.drop writable).length < pump.writing.length := by
      rw [List.length_drop]
      omega
    have hrest := (@emitFull_turns_le request stream
      ⟨pump.buffer ++ pump.writing.take writable, pump.capturedBytes + writable,
        pump.writing.drop writable, pump.todo⟩ output).trans_lt (Nat.add_lt_add_right hshorter _)
    split
    · refine lt_of_le_of_lt ?_ hrest
      rw [turns, List.length_nil, Nat.zero_add]
      exact Nat.le_add_left _ _
    · exact hrest

/-- A call without a loop is done at once, and a `write` has a turn for each of its bytes. -/
theorem begin_turns_lt (call : OutputCall) (hwriting : pump.writing = []) :
    (begin request stream call pump output).1.turns < call.turns + pump.turns := by
  cases call with
  | writeByte value =>
    rw [begin, writeByte, OutputCall.turns]
    split
    · exact Nat.lt_one_add_iff.mpr (le_refl _)
    · exact Nat.lt_one_add_iff.mpr (emitFull_turns_le _ _)
  | write bytes offset length =>
    rw [begin, OutputCall.turns, turns, turns, hwriting, List.length_nil, Nat.zero_add]
    exact Nat.add_lt_add_right (Nat.lt_succ_self _) _
  | flush => exact Nat.lt_one_add_iff.mpr (emit_turns_le _ _)
  | close => exact Nat.lt_one_add_iff.mpr (emit_turns_le _ _)

/-- **A step of a pump** leaves it fewer turns, until it has none left. -/
theorem next_turns_le (hroom : pump.buffer.length < request.outputChunkBytes) :
    (next request stream pump output).1.turns ≤ pump.turns - 1 := by
  rw [next]
  by_cases hwriting : pump.writing = []
  · rw [if_neg (not_not_intro hwriting)]
    rcases htodo : pump.todo with _ | ⟨call, todo⟩
    · rw [turns, hwriting, htodo]
      exact le_refl _
    · have hlt := @begin_turns_lt request stream { pump with todo := todo } output call hwriting
      have hturns : pump.turns = call.turns + { pump with todo := todo }.turns := by
        rw [turns, turns, htodo, List.map_cons, List.sum_cons]
        exact Nat.add_left_comm _ _ _
      rw [hturns]
      exact Nat.le_sub_one_of_lt hlt
  · rw [if_pos hwriting]
    exact Nat.le_sub_one_of_lt (writeTurn_turns_lt hroom hwriting)

theorem turns_eq_zero_iff : pump.turns = 0 ↔ pump.writing = [] ∧ pump.todo = [] := by
  have hpos : ∀ call : OutputCall, 0 < call.turns := by
    rintro (_ | _ | _ | _)
    · exact Nat.one_pos
    · exact Nat.succ_pos _
    · exact Nat.one_pos
    · exact Nat.one_pos
  rw [turns, Nat.add_eq_zero_iff, List.length_eq_zero_iff]
  refine and_congr_right fun _ ↦ ?_
  rcases pump.todo with _ | ⟨call, todo⟩
  · exact iff_of_true rfl rfl
  · rw [List.map_cons, List.sum_cons]
    exact iff_of_false (by have := hpos call; omega) (List.cons_ne_nil _ _)

end Turns

section EndOfRuns

variable {request : ProcessExecutionRequest} {calls : ProcessStreamType → List OutputCall}
  {run : OutputRun}

theorem pump_step (request : ProcessExecutionRequest) (run : OutputRun)
    (stream : ProcessStreamType) :
    (run.step request stream).pump = Function.update run.pump stream
      (ChunkedProcessOutputStream.next request stream (run.pump stream) run.output).1 := rfl

/-- A pump has fewer turns left for each one it has been given. -/
theorem Capturing.turns_along_le (hconsumer : ∀ chunk, request.outputConsumer chunk = .ok ())
    (h : Capturing request calls run) (schedule : List ProcessStreamType)
    (stream : ProcessStreamType) :
    ((run.along request schedule).pump stream).turns ≤
      (run.pump stream).turns - schedule.count stream := by
  induction schedule generalizing run with
  | nil => exact le_refl _
  | cons other schedule ih =>
    have hrest := ih (h.step hconsumer other)
    obtain ⟨_, -, hsound, -⟩ := h other
    have hstep : ((run.step request other).pump stream).turns ≤
        (run.pump stream).turns - if other = stream then 1 else 0 := by
      by_cases hother : other = stream
      · subst hother
        rw [if_pos rfl, pump_step, Function.update_self]
        exact next_turns_le hsound.room
      · rw [if_neg hother, pump_step, Function.update_of_ne (Ne.symm hother)]
        exact le_refl _
    rw [List.count_cons]
    simp only [beq_iff_eq]
    refine hrest.trans ?_
    omega

/-- **Enough turns.** A schedule that gives each pump as many turns as its calls can take brings the
run to its end. -/
theorem finished_along (hconsumer : ∀ chunk, request.outputConsumer chunk = .ok ())
    {schedule : List ProcessStreamType}
    (h : ∀ stream,
      ((calls stream ++ [OutputCall.close]).map OutputCall.turns).sum ≤ schedule.count stream) :
    ((OutputRun.start calls).along request schedule).Finished := by
  refine fun stream ↦ turns_eq_zero_iff.mp (Nat.le_zero.mp ?_)
  have hle := (@capturing_start request calls).turns_along_le hconsumer schedule stream
  have hstart : ((OutputRun.start calls).pump stream).turns ≤ schedule.count stream :=
    (Nat.zero_add _).le.trans (h stream)
  omega

end EndOfRuns

/-! ### The result of a run

When both pumps have come to their ends, the shared list holds the chunks of both streams in the
order of their numbers. Those of one stream are a sublist of it, and their bytes are what the
stream was given, up to the limit. -/

section Results

variable {chunks : List ProcessOutputChunk} {n : ℕ}

/-- Chunks that are numbered in the order of the list are sorted already. -/
theorem pairwise_of_sequences (h : chunks.map ProcessOutputChunk.sequence = List.range n) :
    chunks.Pairwise fun a b ↦ a.sequence < b.sequence := by
  rw [← List.pairwise_map, h]
  exact List.pairwise_lt_range

theorem sortedChunks_eq (h : chunks.Pairwise fun a b ↦ a.sequence < b.sequence) :
    ProcessExecutionResult.sortedChunks chunks = chunks := by
  refine List.mergeSort_of_pairwise (h.imp fun hlt ↦ ?_)
  exact decide_eq_true hlt.le

end Results

section FinishedRuns

variable {request : ProcessExecutionRequest} {calls : ProcessStreamType → List OutputCall}
  {run : OutputRun} {exitCode : ℤ} {timedOut killedAfterGracePeriod : Bool}
  {result : ProcessExecutionResult}

theorem Capturing.result_eq (h : Capturing request calls run) (exitCode : ℤ)
    (timedOut killedAfterGracePeriod : Bool) :
    run.result exitCode timedOut killedAfterGracePeriod =
      .ok (.construct exitCode timedOut killedAfterGracePeriod run.output.chunks
        run.output.truncatedStreams) := by
  obtain ⟨-, -, ⟨-, hnumbered, -⟩, -⟩ := h .stdout
  rw [OutputRun.result, hnumbered.served]

theorem Capturing.numbered (h : Capturing request calls run) : Numbered request run.output := by
  obtain ⟨-, -, ⟨-, hnumbered, -⟩, -⟩ := h .stdout
  exact hnumbered

theorem Capturing.outputChunks (h : Capturing request calls run)
    (hresult : run.result exitCode timedOut killedAfterGracePeriod = .ok result) :
    result.outputChunks = run.output.chunks ∧
      result.truncatedStreams = run.output.truncatedStreams ∧
      ∀ stream, result.chunks stream =
        run.output.chunks.filter fun chunk ↦ chunk.stream = stream := by
  have hsorted := pairwise_of_sequences h.numbered.sequences
  rw [h.result_eq] at hresult
  obtain rfl := Except.ok.inj hresult
  refine ⟨sortedChunks_eq hsorted, rfl, fun stream ↦ ?_⟩
  rw [ProcessExecutionResult.chunks, ProcessExecutionResult.construct, sortedChunks_eq hsorted,
    sortedChunks_eq (hsorted.filter _)]

/-- When all calls have been made, everything has been given to the streams and their buffers are
empty. -/
theorem Capturing.delivered_eq (h : Capturing request calls run) (hfinished : run.Finished)
    (stream : ProcessStreamType) :
    run.output.delivered stream =
        ((calls stream).flatMap OutputCall.bytes).take request.maxOutputBytesPerStream ∧
      (stream ∈ run.output.truncatedStreams ↔ request.maxOutputBytesPerStream <
        ((calls stream).flatMap OutputCall.bytes).length) := by
  obtain ⟨consumed, hbytes, hsound, hclosing⟩ := h stream
  obtain ⟨hwriting, htodo⟩ := hfinished stream
  have hall : consumed = (calls stream).flatMap OutputCall.bytes := by
    rw [← hbytes, ChunkedProcessOutputStream.pending, hwriting, htodo]
    exact (List.append_nil _).symm
  have hbuffer : (run.pump stream).buffer = [] := by
    rcases hclosing with ⟨before, hbefore⟩ | ⟨-, -, hbuffer⟩
    · exact absurd (htodo.symm.trans hbefore) (by simp)
    · exact hbuffer
  have hkept := hsound.capture.kept
  rw [hbuffer, List.append_nil] at hkept
  subst hall
  exact ⟨hkept, hsound.capture.marked⟩

theorem Capturing.text_eq (h : Capturing request calls run) (hfinished : run.Finished)
    (hresult : run.result exitCode timedOut killedAfterGracePeriod = .ok result)
    (stream : ProcessStreamType) (charset : List UInt8 → List Char) :
    result.text stream charset = charset
      (((calls stream).flatMap OutputCall.bytes).take request.maxOutputBytesPerStream) := by
  rw [ProcessExecutionResult.text, (h.outputChunks hresult).2.2 stream]
  exact congrArg charset (h.delivered_eq hfinished stream).1

end FinishedRuns

/-- **Process output is captured exactly.** Whatever is written to the two streams, in calls of any
sizes and under any schedule of the two pumps: both are closed at the latest when each pump has had
as many turns as its calls can take, and once both are closed the run has a result. For each stream
its chunks make up the first bytes written, up to the limit; each has a legal size; the stream is
marked exactly when more was written than the limit; the sequence numbers of all chunks increase;
and the text is the decoding of those bytes. -/
theorem capture_exact (request : ProcessExecutionRequest)
    (hconsumer : ∀ chunk, request.outputConsumer chunk = .ok ())
    (calls : ProcessStreamType → List OutputCall) (schedule : List ProcessStreamType)
    (exitCode : ℤ) (timedOut killedAfterGracePeriod : Bool) :
    ((∀ stream,
        ((calls stream ++ [OutputCall.close]).map OutputCall.turns).sum ≤ schedule.count stream) →
      ((OutputRun.start calls).along request schedule).Finished) ∧
    (((OutputRun.start calls).along request schedule).Finished →
      ∃ result, ((OutputRun.start calls).along request schedule).result exitCode timedOut
          killedAfterGracePeriod = .ok result ∧
        (result.outputChunks.Pairwise fun a b ↦ a.sequence < b.sequence) ∧
        ∀ stream,
          (result.chunks stream).flatMap ProcessOutputChunk.data =
              ((calls stream).flatMap OutputCall.bytes).take request.maxOutputBytesPerStream ∧
          (∀ chunk ∈ result.chunks stream,
            1 ≤ chunk.data.length ∧ chunk.data.length ≤ request.outputChunkBytes) ∧
          (result.truncated stream = true ↔ request.maxOutputBytesPerStream <
            ((calls stream).flatMap OutputCall.bytes).length) ∧
          ∀ charset, result.text stream charset = charset
            (((calls stream).flatMap OutputCall.bytes).take request.maxOutputBytesPerStream)) := by
  refine ⟨finished_along hconsumer, fun hfinished ↦ ?_⟩
  have hcapturing : Capturing request calls ((OutputRun.start calls).along request schedule) :=
    capturing_start.along hconsumer schedule
  have hresult := hcapturing.result_eq exitCode timedOut killedAfterGracePeriod
  refine ⟨_, hresult, ?_, fun stream ↦ ?_⟩
  · rw [(hcapturing.outputChunks hresult).1]
    exact pairwise_of_sequences hcapturing.numbered.sequences
  · obtain ⟨hkept, hmarked⟩ := hcapturing.delivered_eq hfinished stream
    obtain ⟨-, htruncated, hchunks⟩ := hcapturing.outputChunks hresult
    refine ⟨?_, fun chunk hchunk ↦ ?_, ?_, hcapturing.text_eq hfinished hresult stream⟩
    · rw [hchunks]
      exact hkept
    · rw [hchunks] at hchunk
      exact hcapturing.numbered.sizes chunk (List.mem_of_mem_filter hchunk)
    · rw [ProcessExecutionResult.truncated, decide_eq_true_iff, htruncated]
      exact hmarked

/-- Chunks of four bytes and a limit of five. -/
def smallRequest : ProcessExecutionRequest where
  outputChunkBytes := 4
  maxOutputBytesPerStream := 5
  outputConsumer := fun _ ↦ .ok ()
  outputChunkBytes_pos := by decide
  maxOutputBytesPerStream_pos := by decide

/-- Six letters in two calls on stdout, two digits in two calls on stderr. -/
def smallCalls : ProcessStreamType → List OutputCall
  | .stdout => [.write [97, 98, 99, 100, 101] 0 5, .writeByte 102]
  | .stderr => [.writeByte 49, .flush, .write [48, 50, 51] 1 1]

theorem capture_exact_small :
    ∃ result, ((OutputRun.start smallCalls).along smallRequest
        [.stdout, .stderr, .stdout, .stderr, .stderr, .stdout, .stderr, .stdout, .stdout, .stdout,
          .stderr, .stdout, .stdout]).result 0 false false = .ok result ∧
      (result.chunks .stdout).flatMap ProcessOutputChunk.data = [97, 98, 99, 100, 101] ∧
      (result.chunks .stderr).flatMap ProcessOutputChunk.data = [49, 50] ∧
      result.truncated .stdout = true := by
  obtain ⟨hends, hexact⟩ := capture_exact smallRequest (fun _ ↦ rfl) smallCalls
    [.stdout, .stderr, .stdout, .stderr, .stderr, .stdout, .stderr, .stdout, .stdout, .stdout,
      .stderr, .stdout, .stdout] 0 false false
  obtain ⟨result, hresult, -, h⟩ := hexact (hends fun stream ↦ by cases stream <;> decide)
  exact ⟨result, hresult, (h .stdout).1, (h .stderr).1, (h .stdout).2.2.1.mpr (by decide)⟩

/-! ## What the runner returns for a process -/

/-- A result that the runner can return for a process that has written the given bytes to its
streams, in whatever calls and under whatever schedule. -/
def RunnerResult (request : ProcessExecutionRequest) (written : ProcessStreamType → List UInt8)
    (result : ProcessExecutionResult) : Prop :=
  ∃ calls schedule, (∀ stream, (calls stream).flatMap OutputCall.bytes = written stream) ∧
    ((OutputRun.start calls).along request schedule).Finished ∧
    ((OutputRun.start calls).along request schedule).result result.exitCode result.timedOut
      result.killedAfterGracePeriod = .ok result

section RunnerResults

variable {request : ProcessExecutionRequest} {written : ProcessStreamType → List UInt8}
  {result : ProcessExecutionResult}

/-- The text of a stream is the decoding of what has been captured of it. -/
theorem RunnerResult.text_eq (h : RunnerResult request written result)
    (hconsumer : ∀ chunk, request.outputConsumer chunk = .ok ()) (stream : ProcessStreamType)
    (charset : List UInt8 → List Char) :
    result.text stream charset =
      charset ((written stream).take request.maxOutputBytesPerStream) := by
  obtain ⟨calls, schedule, hwritten, hfinished, hresult⟩ := h
  rw [← hwritten]
  exact Capturing.text_eq (capturing_start.along hconsumer schedule) hfinished hresult stream
    charset

/-- **The runner has a result for every process** that ends by itself. -/
theorem exists_runnerResult (hconsumer : ∀ chunk, request.outputConsumer chunk = .ok ())
    (written : ProcessStreamType → List UInt8) :
    ∃ result, RunnerResult request written result ∧ result.exitCode = 0 ∧
      result.timedOut = false := by
  let calls : ProcessStreamType → List OutputCall := fun stream ↦
    [.write (written stream) 0 (written stream).length]
  have hbytes : ∀ stream, (calls stream).flatMap OutputCall.bytes = written stream := by
    intro stream
    simp [calls, OutputCall.bytes, OutputCall.slice]
  let turns : ProcessStreamType → ℕ := fun stream ↦
    ((calls stream ++ [OutputCall.close]).map OutputCall.turns).sum
  let schedule : List ProcessStreamType :=
    List.replicate (turns .stdout) .stdout ++ List.replicate (turns .stderr) .stderr
  have hfinished : ((OutputRun.start calls).along request schedule).Finished := by
    refine finished_along hconsumer fun stream ↦ ?_
    cases stream with
    | stdout => simp [schedule, turns]
    | stderr => simp [schedule, turns]
  have hcapturing : Capturing request calls ((OutputRun.start calls).along request schedule) :=
    capturing_start.along hconsumer schedule
  exact ⟨.construct 0 false false _ _,
    ⟨calls, schedule, hbytes, hfinished, hcapturing.result_eq 0 false false⟩, rfl, rfl⟩

end RunnerResults

end FuzzingCiCd.Executor
