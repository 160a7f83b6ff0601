import FuzzingCiCd.Mutator.Frames
import FuzzingCiCd.Foundation.Programs

/-!
# The worker

The part of `llm_mutator_server.py` that talks to a mutator: the thread of one connection, which
runs `handle_client`, as a program that asks for what is outside it. These are the socket, the queue
of samples, and the corpus that the payload of a feedback goes to. One turn of the loop is a program
of its own, and an exception ends the thread like a return: `with conn` closes the connection.
-/

namespace FuzzingCiCd.Mutator

/-! ## Requests -/

/-- A candidate in the queue. Each one has a number of its own. -/
structure Sample where
  id : ℕ
  data : Bytes
  deriving DecidableEq

inductive WorkerRequest where
  /-- `stop_event.is_set()` -/
  | isSet
  | recv (size : ℕ)
  /-- A part of `sendall`. -/
  | send (buf : Bytes)
  /-- `sample_queue.get_nowait()` -/
  | getNowait
  /-- `register_feedback_sample(payload)` -/
  | register (payload : Bytes)
  deriving DecidableEq

inductive Chunk (size : ℕ) where
  | received (bytes : Bytes) (ne : bytes ≠ []) (le : bytes.length ≤ size)
  /-- The peer has closed the connection. -/
  | eof
  | raised

inductive Sent (len : ℕ) where
  | written (n : ℕ) (pos : 0 < n) (le : n ≤ len)
  | raised

/-- An answer `none` is an empty queue, or an exception of `register_feedback_sample`. -/
@[reducible] def WorkerRequest.Answer : WorkerRequest → Type
  | .isSet => Bool
  | .recv size => Chunk size
  | .send buf => Sent buf.length
  | .getNowait => Option Sample
  | .register _ => Option Unit

abbrev Worker := Program WorkerRequest WorkerRequest.Answer

/-! ## The thread of a connection -/

section Thread

open Program

/-- `recv_exact`, with the chunks that have been read; `none` is its `ConnectionError`. -/
def recvExact (remaining : ℕ) (chunks : Bytes) : Worker (Option Bytes) :=
  if remaining = 0 then pure (some chunks)
  else
    .ask (.recv remaining) fun
      | .received chunk _hne _ => recvExact (remaining - chunk.length) (chunks ++ chunk)
      | .eof => pure none
      | .raised => pure none
termination_by remaining
decreasing_by
  have := List.length_pos_iff.mpr _hne
  omega

/-- `socket.sendall`. -/
def sendall (buf : Bytes) : Worker (Option Unit) :=
  if _h : buf = [] then pure (some ())
  else
    .ask (.send buf) fun
      | .written n _ _ => sendall (buf.drop n)
      | .raised => pure none
termination_by buf.length
decreasing_by
  have := List.length_pos_iff.mpr _h
  rw [List.length_drop]
  omega

/-- How a turn of the loop ends: it goes on, or the connection is closed. -/
inductive Turn where
  | again | closed
  deriving DecidableEq

/-- `conn.sendall(n.to_bytes(4, "big"))` and `conn.sendall(data)`. -/
def reply (n : ℕ) (data : Bytes) : Worker Turn :=
  match toBytes n with
  | none => pure .closed
  | some raw => do
    match ← sendall raw with
    | none => return .closed
    | some _ =>
      match ← sendall data with
      | none => return .closed
      | some _ => return .again

/-- The branch `op == b"A"`. -/
def feedback (maxSampleSize : ℕ) : Worker Turn := do
  match ← recvExact 4 [] with
  | none => return .closed
  | some rawLen =>
    if fromBytes rawLen ≤ 0 ∨ fromBytes rawLen > maxSampleSize then return .closed
    match ← recvExact (fromBytes rawLen) [] with
    | none => return .closed
    | some payload =>
      match ← request (WorkerRequest.register payload) with
      | none => return .closed
      | some _ => return .again

/-- One turn of the loop of `handle_client`. A request finds a sample or the empty queue, for which
no candidate follows the length. -/
def handleClient (maxSampleSize : ℕ) : Worker Turn := do
  if ← request WorkerRequest.isSet then return .closed
  match ← request (WorkerRequest.recv 1) with
  | .eof => return .closed
  | .raised => return .closed
  | .received op _ _ =>
    if op = [71] then
      match ← request WorkerRequest.getNowait with
      | none => reply 0 []
      | some sample => reply sample.data.length sample.data
    else if op = [65] then feedback maxSampleSize
    else return .closed

end Thread

end FuzzingCiCd.Mutator
