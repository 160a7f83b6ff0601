import FuzzingCiCd.Foundation.Buffers
import FuzzingCiCd.Mutator.AflLlmMutator

/-!
# Candidates in their buffer

`fetch_candidate` with the memory it writes to: a call to `recv` names a position in a buffer and a
number of bytes, and a range that is not inside the buffer is a fault. The functions make the same
system calls as those that only speak of the bytes, and no call has a fault if the capacity that
`fetch_candidate` is given is that of its buffer, or less.

## Main results

* `related_recvLoopInto`: the loop of `recv_all_deadline` fills its range.
* `related_fetchCandidateInto`: `fetch_candidate` leaves its candidate at the start of the buffer.
-/

namespace FuzzingCiCd.Mutator

open Program

/-- What the arrays on the stack hold when a call begins. -/
structure Locals where
  candidate : Vector UInt8 65536
  hdr : Vector UInt8 4
  scratch : Vector UInt8 1024

namespace Locals

variable (locals : Locals)

def candidateBuffer : Buffer UInt8 := .ofVector locals.candidate (by decide)

def hdrBuffer : Buffer UInt8 := .ofVector locals.hdr (by decide)

def scratchBuffer : Buffer UInt8 := .ofVector locals.scratch (by decide)

end Locals

/-- The loop of `recv_all_deadline`, which writes at `ptr`. -/
def recvLoopInto (fd maxSpins : ℕ) (buf : Buffer UInt8) (ptr len spins : ℕ) :
    Client (Except BufferFault (Buffer UInt8 × Except Failure Unit)) :=
  if len = 0 then pure (.ok (buf, .ok ()))
  else if buf.size < ptr + len then pure (.error .outOfBounds)
  else
    .ask (.recv fd len) fun
      | .received bytes _hne _ =>
        match buf.splice ptr bytes with
        | .error fault => pure (.error fault)
        | .ok buf =>
          recvLoopInto fd maxSpins buf (ptr + bytes.length) (len - bytes.length) spins
      | .eof => pure (.ok (buf, .error .broken))
      | .wouldBlock =>
        if spins + 1 ≥ maxSpins then pure (.ok (buf, .error .late))
        else recvLoopInto fd maxSpins buf ptr len (spins + 1)
      | .failed => pure (.ok (buf, .error .broken))
termination_by len + (maxSpins - spins)
decreasing_by
  · have := List.length_pos_iff.mpr _hne
    omega
  · omega

def recvAllDeadlineInto (fd : ℕ) (buf : Buffer UInt8) (len maxSpins : ℕ) :
    Client (Except BufferFault (Buffer UInt8 × Except Failure Unit)) :=
  recvLoopInto fd maxSpins buf 0 len 0

/-- `drain_bytes`. -/
def drainBytesInto (fd : ℕ) (scratch : Buffer UInt8) (len : ℕ) :
    Client (Except BufferFault (Except Failure Unit)) :=
  if len = 0 then pure (.ok (.ok ()))
  else do
    let chunk := min 1024 len
    match ← recvAllDeadlineInto fd scratch chunk 4 with
    | .error fault => return .error fault
    | .ok (_, .error failure) => return .ok (.error failure)
    | .ok (scratch, .ok _) => drainBytesInto fd scratch (len - chunk)
termination_by len

/-- The end of a call after a failure. -/
def failInto (data : MyMutator) (dst : Buffer UInt8) :
    Client (Except BufferFault (MyMutator × Buffer UInt8 × Option ℕ)) := do
  let data ← dropConnection data
  return .ok (data, dst, none)

/-- `fetch_candidate`, with `*dst_len` when it returns 1. -/
def fetchCandidateInto (locals : Locals) (data : MyMutator) (dst : Buffer UInt8) (maxSize : ℕ) :
    Client (Except BufferFault (MyMutator × Buffer UInt8 × Option ℕ)) := do
  let data ← maybeReconnect data
  match data.sock with
  | none => return .ok (data, dst, none)
  | some fd =>
    match ← sendAll fd [71] with
    | .error _ => failInto data dst
    | .ok _ =>
      match ← recvAllDeadlineInto fd locals.hdrBuffer 4 2 with
      | .error fault => return .error fault
      | .ok (_, .error _) => failInto data dst
      | .ok (hdr, .ok _) =>
        if payloadLen hdr.data = 0 then return .ok (data, dst, none)
        let toCopy := min (payloadLen hdr.data) maxSize
        match ← recvAllDeadlineInto fd dst toCopy 4 with
        | .error fault => return .error fault
        | .ok (dst, .error _) => failInto data dst
        | .ok (dst, .ok _) =>
          if payloadLen hdr.data > toCopy then
            match ← drainBytesInto fd locals.scratchBuffer (payloadLen hdr.data - toCopy) with
            | .error fault => return .error fault
            | .ok (.error _) => failInto data dst
            | .ok (.ok _) => return .ok (data, dst, some toCopy)
          else return .ok (data, dst, some toCopy)

/-! ## The same calls

The functions with a buffer make the calls of those without, in the same order and with the same
arguments. `Related` compares the two programs call by call, and what is received ends up in the
buffer at the place it belongs to, with the bounds checked at every write. -/

section Related

variable {fd maxSpins ptr len spins : ℕ} {buf dst : Buffer UInt8} {got : Bytes}

/-- What has been received, in the buffer and beside it. -/
def Filled (buf : Buffer UInt8) (len : ℕ)
    (result : Except BufferFault (Buffer UInt8 × Except Failure Unit))
    (received : Except Failure Bytes) : Prop :=
  ∃ buf', result = .ok (buf', received.map fun _ ↦ ()) ∧ buf'.size = buf.size ∧
    ∀ bytes, received = .ok bytes → buf'.data.take len = bytes

theorem filled_congr {buf' : Buffer UInt8} (h : buf'.size = buf.size) (len : ℕ) :
    Filled buf' len = Filled buf len := by
  funext result received
  rw [Filled, Filled, h]

/-- **The loop of `recv_all_deadline`** stays inside the range it is given and fills it. -/
theorem related_recvLoopInto (hroom : ptr + len ≤ buf.size) (hgot : buf.data.take ptr = got) :
    Related (Filled buf (ptr + len)) (recvLoopInto fd maxSpins buf ptr len spins)
      (recvLoop fd maxSpins len spins got) := by
  -- bytes that arrive make `len` smaller, a wait that brings none makes the spins left fewer
  induction hmeasure : len + (maxSpins - spins) using Nat.strong_induction_on
    generalizing len spins got ptr buf with
  | _ n ih =>
  subst hmeasure
  rw [recvLoopInto, recvLoop]
  by_cases hlen : len = 0
  · rw [if_pos hlen, if_pos hlen]
    refine .done ⟨buf, rfl, rfl, fun bytes hbytes ↦ ?_⟩
    rw [hlen, Nat.add_zero, hgot, Except.ok.inj hbytes]
  rw [if_neg hlen, if_neg hlen, if_neg (Nat.not_lt.mpr hroom)]
  refine .ask fun answer ↦ ?_
  rcases answer with ⟨bytes, hne, hle⟩ | _ | _ | _
  · have hpos := List.length_pos_iff.mpr hne
    have hfits : ptr + bytes.length ≤ buf.size := by omega
    obtain ⟨buf', hsplice, hdata, hsize⟩ := Buffer.splice_of_le bytes hfits
    have hptr : (buf.data.take ptr).length = ptr := by
      rw [List.length_take]
      exact Nat.min_eq_left (by rw [Buffer.size] at hroom; omega)
    dsimp only
    rw [hsplice]
    have htotal : ptr + bytes.length + (len - bytes.length) = ptr + len := by omega
    have hrest : Related (Filled buf' (ptr + bytes.length + (len - bytes.length)))
        (recvLoopInto fd maxSpins buf' (ptr + bytes.length) (len - bytes.length) spins)
        (recvLoop fd maxSpins (len - bytes.length) spins (got ++ bytes)) := by
      refine ih _ ?_ ?_ ?_ rfl
      · omega
      · rw [hsize, htotal]
        exact hroom
      · rw [hdata, hgot, List.take_left']
        rw [List.length_append, ← hgot, hptr]
    rw [htotal, filled_congr hsize] at hrest
    exact hrest
  · exact .done ⟨buf, rfl, rfl, fun _ h ↦ by cases h⟩
  · dsimp only
    by_cases hspins : spins + 1 ≥ maxSpins
    · rw [if_pos hspins, if_pos hspins]
      exact .done ⟨buf, rfl, rfl, fun _ h ↦ by cases h⟩
    · rw [if_neg hspins, if_neg hspins]
      exact ih _ (by omega) hroom hgot rfl
  · exact .done ⟨buf, rfl, rfl, fun _ h ↦ by cases h⟩

theorem related_recvAllDeadlineInto (hroom : len ≤ buf.size) :
    Related (Filled buf len) (recvAllDeadlineInto fd buf len maxSpins)
      (recvAllDeadline fd len maxSpins) := by
  have h : Related (Filled buf (0 + len)) (recvLoopInto fd maxSpins buf 0 len 0)
      (recvLoop fd maxSpins len 0 []) :=
    related_recvLoopInto (by rw [Nat.zero_add]; exact hroom) rfl
  rw [Nat.zero_add] at h
  exact h

/-- **`drain_bytes`** reads into its own array, as often as it takes. -/
theorem related_drainBytesInto {scratch : Buffer UInt8} (hscratch : scratch.size = 1024) :
    Related (fun result drained ↦ result = .ok drained) (drainBytesInto fd scratch len)
      (drainBytes fd len) := by
  induction len using Nat.strong_induction_on generalizing scratch with
  | _ len ih =>
  rw [drainBytesInto, drainBytes]
  by_cases hlen : len = 0
  · rw [if_pos hlen, if_pos hlen]
    exact .done rfl
  rw [if_neg hlen, if_neg hlen]
  refine (related_recvAllDeadlineInto (by rw [hscratch]; exact Nat.min_le_left _ _)).bind ?_
  rintro result received ⟨scratch', rfl, hsize, -⟩
  rcases received with failure | bytes
  · exact .done rfl
  · exact ih _ (by omega) (hsize.trans hscratch)

/-- What `fetch_candidate` returns, in its buffer and beside it. -/
def FetchedInto (dst : Buffer UInt8) (maxSize : ℕ)
    (result : Except BufferFault (MyMutator × Buffer UInt8 × Option ℕ))
    (fetched : MyMutator × Option Bytes) : Prop :=
  ∃ dst', result = .ok (fetched.1, dst', fetched.2.map List.length) ∧ dst'.size = dst.size ∧
    ∀ candidate, fetched.2 = some candidate →
      candidate.length ≤ maxSize ∧ dst'.data.take candidate.length = candidate

theorem related_failInto (data : MyMutator) (dst' : Buffer UInt8) (hsize : dst'.size = dst.size)
    (maxSize : ℕ) : Related (FetchedInto dst maxSize) (failInto data dst') (fail data) :=
  .bind_same _ fun _ ↦ .done ⟨dst', rfl, hsize, nofun⟩

/-- **`fetch_candidate`** makes the calls that it makes without a buffer, and none of them writes
outside of one. Its candidate is at the start of the buffer, and not longer than it may be. -/
theorem related_fetchCandidateInto (locals : Locals) (data : MyMutator) {maxSize : ℕ}
    (hmax : maxSize ≤ dst.size) :
    Related (FetchedInto dst maxSize) (fetchCandidateInto locals data dst maxSize)
      (fetchCandidate data maxSize) := by
  rw [fetchCandidateInto, fetchCandidate]
  refine .bind_same _ fun data ↦ ?_
  rcases data.sock with _ | fd
  · exact .done ⟨dst, rfl, rfl, nofun⟩
  refine .bind_same _ fun sent ↦ ?_
  rcases sent with failure | ⟨⟨⟩⟩
  · exact related_failInto data dst rfl maxSize
  have hfour : locals.hdrBuffer.size = 4 := Buffer.size_ofVector _ _
  refine (related_recvAllDeadlineInto (Nat.le_of_eq hfour.symm)).bind ?_
  rintro result received ⟨hdr, rfl, hsize, hhdr⟩
  rcases received with failure | bytes
  · exact related_failInto data dst rfl maxSize
  -- the header fills its array
  have hbytes : hdr.data = bytes := by
    rw [← hhdr bytes rfl, List.take_of_length_le (Nat.le_of_eq (hsize.trans hfour))]
  dsimp only [Except.map]
  rw [hbytes]
  by_cases hzero : payloadLen bytes = 0
  · rw [if_pos hzero, if_pos hzero]
    exact .done ⟨dst, rfl, rfl, nofun⟩
  rw [if_neg hzero, if_neg hzero]
  have hcopy : min (payloadLen bytes) maxSize ≤ dst.size := (Nat.min_le_right _ _).trans hmax
  refine (related_recvAllDeadlineInto hcopy).bind ?_
  rintro result received ⟨dst', rfl, hsize', hdst⟩
  rcases received with failure | candidate
  · exact related_failInto data dst' hsize' maxSize
  have hlength : candidate.length = min (payloadLen bytes) maxSize := by
    rw [← hdst candidate rfl, List.length_take]
    exact Nat.min_eq_left (hcopy.trans (Nat.le_of_eq hsize'.symm))
  have hfetched : FetchedInto dst maxSize
      (.ok (data, dst', some (min (payloadLen bytes) maxSize))) (data, some candidate) := by
    refine ⟨dst', by rw [Option.map_some, hlength], hsize', fun other hother ↦ ?_⟩
    obtain rfl := Option.some.inj hother
    rw [hlength]
    exact ⟨Nat.min_le_right _ _, hdst candidate rfl⟩
  dsimp only [Except.map]
  by_cases hmore : payloadLen bytes > min (payloadLen bytes) maxSize
  · rw [if_pos hmore, if_pos hmore]
    refine (related_drainBytesInto (Buffer.size_ofVector _ _)).bind ?_
    rintro result drained rfl
    rcases drained with failure | ⟨⟨⟩⟩
    · exact related_failInto data dst' hsize' maxSize
    · exact .done hfetched
  · rw [if_neg hmore, if_neg hmore]
    exact .done hfetched

end Related

end FuzzingCiCd.Mutator
