import FuzzingCiCd.Mutator.Frames
import FuzzingCiCd.Foundation.Programs
import Mathlib.Logic.Function.Basic

/-!
# The custom mutator

The part of `afl_llm_mutator.c` that talks to the worker, as programs that make system calls: a
call is a request, and what the system returns is the answer. A call that a signal interrupts is
made again, so that an interruption does not show.

The socket of the mutator is dropped after every failed call. What has been written until then
stays written, and what the worker still sends is never read: the next call opens a new
connection.

An operation is *sent completely* with the last of its bytes. `ClientWorld` follows the bytes on
each connection and notes the operations there; the mutator itself does not know of this.
-/

namespace FuzzingCiCd.Mutator

open PrefixCode

/-! ## System calls -/

/-- The calls that the mutator makes. A connection keeps its number when it is closed. -/
inductive ClientRequest where
  | time
  | connect
  | send (fd : ℕ) (buf : Bytes)
  | recv (fd len : ℕ)
  | close (fd : ℕ)
  deriving DecidableEq

inductive SendAnswer (len : ℕ) where
  | written (n : ℕ) (pos : 0 < n) (le : n ≤ len)
  | wouldBlock
  | failed

inductive RecvAnswer (len : ℕ) where
  | received (bytes : Bytes) (ne : bytes ≠ []) (le : bytes.length ≤ len)
  /-- The worker has closed the connection. -/
  | eof
  | wouldBlock
  | failed

@[reducible] def ClientRequest.Answer : ClientRequest → Type
  | .time => ℕ
  | .connect => Option ℕ
  | .send _ buf => SendAnswer buf.length
  | .recv _ len => RecvAnswer len
  | .close _ => Unit

abbrev Client := Program ClientRequest ClientRequest.Answer

/-- A result below zero: `-1`, or `-2` after a call that would block. -/
inductive Failure where
  | broken | late
  deriving DecidableEq

/-! ## The mutator -/

/-- The fields of `my_mutator_t` that belong to the connection. -/
structure MyMutator where
  sock : Option ℕ
  lastReconnectAttempt : ℕ
  deriving DecidableEq

section Mutator

open Program

/-- The connection of `afl_custom_init`. -/
def aflCustomInit : Client MyMutator := do
  let sock ← request ClientRequest.connect
  return { sock := sock, lastReconnectAttempt := 0 }

def maybeReconnect (data : MyMutator) : Client MyMutator := do
  let now ← request ClientRequest.time
  if data.sock.isSome then return data
  if data.lastReconnectAttempt = now then return data
  let sock ← request ClientRequest.connect
  return { lastReconnectAttempt := now, sock := sock }

def dropConnection (data : MyMutator) : Client MyMutator :=
  match data.sock with
  | none => pure data
  | some fd => do
    let _ ← request (ClientRequest.close fd)
    return { data with sock := none }

/-- `send_all`. -/
def sendAll (fd : ℕ) (buf : Bytes) : Client (Except Failure Unit) :=
  if _h : buf = [] then pure (.ok ())
  else
    .ask (.send fd buf) fun
      | .written n _ _ => sendAll fd (buf.drop n)
      | .wouldBlock => pure (.error .late)
      | .failed => pure (.error .broken)
termination_by buf.length
decreasing_by
  have := List.length_pos_iff.mpr _h
  rw [List.length_drop]
  omega

/-- The loop of `recv_all_deadline` with the bytes that it has read. -/
def recvLoop (fd maxSpins len spins : ℕ) (buf : Bytes) : Client (Except Failure Bytes) :=
  if len = 0 then pure (.ok buf)
  else
    .ask (.recv fd len) fun
      | .received bytes _hne _ => recvLoop fd maxSpins (len - bytes.length) spins (buf ++ bytes)
      | .eof => pure (.error .broken)
      | .wouldBlock =>
        if spins + 1 ≥ maxSpins then pure (.error .late)
        else recvLoop fd maxSpins len (spins + 1) buf
      | .failed => pure (.error .broken)
termination_by len + (maxSpins - spins)
decreasing_by
  · have := List.length_pos_iff.mpr _hne
    omega
  · omega

def recvAllDeadline (fd len maxSpins : ℕ) : Client (Except Failure Bytes) :=
  recvLoop fd maxSpins len 0 []

/-- `drain_bytes`. -/
def drainBytes (fd len : ℕ) : Client (Except Failure Unit) :=
  if len = 0 then pure (.ok ())
  else do
    match ← recvAllDeadline fd (min 1024 len) 4 with
    | .error failure => return .error failure
    | .ok _ => drainBytes fd (len - min 1024 len)
termination_by len

/-- The end of a call after a failure. -/
def fail (data : MyMutator) : Client (MyMutator × Option Bytes) := do
  let data ← dropConnection data
  return (data, none)

/-- `fetch_candidate`, with what it puts into `dst` when it returns 1. -/
def fetchCandidate (data : MyMutator) (maxSize : ℕ) : Client (MyMutator × Option Bytes) := do
  let data ← maybeReconnect data
  match data.sock with
  | none => return (data, none)
  | some fd =>
    match ← sendAll fd [71] with
    | .error _ => fail data
    | .ok _ =>
      match ← recvAllDeadline fd 4 2 with
      | .error _ => fail data
      | .ok hdr =>
        if payloadLen hdr = 0 then return (data, none)
        let toCopy := min (payloadLen hdr) maxSize
        match ← recvAllDeadline fd toCopy 4 with
        | .error _ => fail data
        | .ok dst =>
          if payloadLen hdr > toCopy then
            match ← drainBytes fd (payloadLen hdr - toCopy) with
            | .error _ => fail data
            | .ok _ => return (data, some dst)
          else return (data, some dst)

/-- `send_feedback`. -/
def sendFeedback (data : MyMutator) (buf : Bytes) : Client MyMutator := do
  let data ← maybeReconnect data
  match data.sock with
  | none => return data
  | some fd =>
    if buf = [] then return data
    let payload := buf.take 65535
    match ← sendAll fd (65 :: header payload.length) with
    | .error _ => dropConnection data
    | .ok _ =>
      match ← sendAll fd payload with
      | .error _ => dropConnection data
      | .ok _ => return data

end Mutator

end FuzzingCiCd.Mutator
