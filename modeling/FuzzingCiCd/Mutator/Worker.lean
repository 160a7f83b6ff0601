import FuzzingCiCd.Mutator.LlmMutatorServer

/-!
# The worker on a connection

What the thread of a connection does with the bytes there, whatever comes in. At the start of a turn
the operations that it has decoded are exactly what it has read, and the answers that it has
given are exactly what it has written. At any time the former begins what it has read, and what
it has written begins the answers to the candidates that it took.

## Main results

* `safe_reply`, `safe_feedback`: the two kinds of turns.
* `safe_handleClient`: each turn starts where the one before has ended.
-/

namespace FuzzingCiCd.Mutator

open PrefixCode Program

/-! ## The connection

The worker's end of a connection is the bytes it has read and written, the commands that it took
them for and its answers. `Consistent` holds at every call, with one command or one answer in
part; `AtTurn` is the case without parts, which is where a turn begins. -/

/-- The worker's end of a connection. -/
structure WorkerEnd where
  /-- What has been written. -/
  out : Bytes
  /-- What has been read. -/
  inp : Bytes
  /-- The operations that have taken effect. -/
  decoded : List Operation
  /-- What the queue had for each request. -/
  answers : List (Option Sample)

def WorkerEnd.empty : WorkerEnd := ⟨[], [], [], []⟩

/-- The candidate that is sent for what the queue had. -/
def candidateOf : Option Sample → Bytes
  | none => []
  | some sample => sample.data

namespace WorkerEnd

variable (e : WorkerEnd)

def wrote (bytes : Bytes) : WorkerEnd := { e with out := e.out ++ bytes }

def read (bytes : Bytes) : WorkerEnd := { e with inp := e.inp ++ bytes }

/-- A request takes effect when it takes a sample, and a feedback when it is registered. -/
def respond (e : WorkerEnd) : (r : WorkerRequest) → r.Answer → Option WorkerEnd
  | .isSet, _ => some e
  | .recv _, .received bytes _ _ => some (e.read bytes)
  | .recv _, _ => some e
  | .send buf, .written n _ _ => some (e.wrote (buf.take n))
  | .send _, .raised => some e
  | .getNowait, sample =>
    some { e with decoded := e.decoded ++ [.get], answers := e.answers ++ [sample] }
  | .register payload, _ => some { e with decoded := e.decoded ++ [.put payload] }

/-- **Always.** -/
structure Consistent : Prop where
  fits : ∀ op ∈ e.decoded, op.Fits
  inp : frames Operation.encode e.decoded <+: e.inp
  out : ∃ served, served <+: e.answers.map candidateOf ∧ (∀ c ∈ served, Short c) ∧
    e.out <+: frames answer served
  count : e.answers.length = gets e.decoded

/-- **Between two turns.** -/
structure AtTurn : Prop where
  fits : ∀ op ∈ e.decoded, op.Fits
  inp : e.inp = frames Operation.encode e.decoded
  short : ∀ c ∈ e.answers.map candidateOf, Short c
  out : e.out = frames answer (e.answers.map candidateOf)
  count : e.answers.length = gets e.decoded

end WorkerEnd

section Ends

open WorkerEnd

variable {e : WorkerEnd}

theorem atTurn_empty : AtTurn .empty where
  fits _ h := by cases h
  inp := rfl
  short _ h := by cases h
  out := rfl
  count := rfl

theorem WorkerEnd.AtTurn.consistent (h : e.AtTurn) : e.Consistent where
  fits := h.fits
  inp := by rw [h.inp]
  out := ⟨_, List.prefix_refl _, h.short, by rw [h.out]⟩
  count := h.count

theorem WorkerEnd.read_nil (e : WorkerEnd) : e.read [] = e := by
  rw [WorkerEnd.read, List.append_nil]

theorem WorkerEnd.wrote_nil (e : WorkerEnd) : e.wrote [] = e := by
  rw [WorkerEnd.wrote, List.append_nil]

theorem WorkerEnd.Consistent.read (h : e.Consistent) (bytes : Bytes) :
    (e.read bytes).Consistent where
  fits := h.fits
  inp := h.inp.trans (List.prefix_append _ _)
  out := h.out
  count := h.count

theorem WorkerEnd.AtTurn.consistent_get (h : e.AtTurn) (sample : Option Sample) {part : Bytes}
    (hpart : part = [] ∨ Short (candidateOf sample) ∧ part <+: answer (candidateOf sample)) :
    Consistent ⟨e.out ++ part, e.inp ++ [71], e.decoded ++ [.get], e.answers ++ [sample]⟩ where
  fits op hop := by
    rcases List.mem_append.mp hop with hold | hnew
    · exact h.fits op hold
    · rw [List.mem_singleton.mp hnew]
      trivial
  inp := by
    dsimp only
    rw [frames_concat, h.inp]
    exact List.prefix_refl _
  out := by
    dsimp only
    rw [List.map_append]
    rcases hpart with rfl | ⟨hshort, hpre⟩
    · exact ⟨_, List.prefix_append _ _, h.short, by rw [List.append_nil, h.out]⟩
    · refine ⟨_, List.prefix_refl _, ?_, ?_⟩
      · rintro c hc
        rcases List.mem_append.mp hc with hold | hnew
        · exact h.short c hold
        · rw [List.mem_singleton.mp hnew]
          exact hshort
      · rw [List.map_cons, List.map_nil, frames_concat, h.out, List.prefix_append_right_inj]
        exact hpre
  count := by
    dsimp only
    rw [List.length_append, h.count, gets, gets, List.count_append]
    rfl

theorem WorkerEnd.AtTurn.get (h : e.AtTurn) {sample : Option Sample}
    (hshort : Short (candidateOf sample)) :
    AtTurn ⟨e.out ++ answer (candidateOf sample), e.inp ++ [71], e.decoded ++ [.get],
      e.answers ++ [sample]⟩ where
  fits := (h.consistent_get sample (Or.inl rfl)).fits
  inp := by
    dsimp only
    rw [frames_concat, h.inp]
    rfl
  short := by
    rintro c hc
    rw [List.map_append] at hc
    rcases List.mem_append.mp hc with hold | hnew
    · exact h.short c hold
    · rw [List.mem_singleton.mp hnew]
      exact hshort
  out := by
    dsimp only
    rw [List.map_append, List.map_cons, List.map_nil, frames_concat, h.out]
  count := (h.consistent_get sample (Or.inl rfl)).count

theorem WorkerEnd.AtTurn.put (h : e.AtTurn) {payload : Bytes} (hfits : payload.length < 256 ^ 4) :
    AtTurn { e with
      inp := e.inp ++ (Operation.put payload).encode
      decoded := e.decoded ++ [.put payload] } where
  fits op hop := by
    rcases List.mem_append.mp hop with hold | hnew
    · exact h.fits op hold
    · rw [List.mem_singleton.mp hnew]
      exact hfits
  inp := by
    dsimp only
    rw [frames_concat, h.inp]
  short := h.short
  out := h.out
  count := by
    dsimp only
    rw [h.count, gets, gets, List.count_append]
    rfl

end Ends

/-! ## Socket functions -/

section Functions

variable {e : WorkerEnd} {I : WorkerEnd → Prop}

theorem safe_recvExact {Q : Option Bytes → WorkerEnd → Prop} {remaining : ℕ} {chunks : Bytes}
    (hI : ∀ got, I (e.read got)) (hraised : ∀ got, Q none (e.read got))
    (hdone : ∀ got, got.length = chunks.length + remaining → Q (some got) (e.read got)) :
    Safe WorkerEnd.respond I Q (recvExact remaining chunks) (e.read chunks) := by
  induction remaining using Nat.strong_induction_on generalizing chunks with
  | _ remaining ih =>
  rw [recvExact]
  split
  · rename_i hremaining
    exact hdone chunks (by rw [hremaining, Nat.add_zero])
  · refine ⟨hI chunks, ?_⟩
    rintro (⟨bytes, hne, hle⟩ | _ | _) e' hanswer
    · obtain rfl := Option.some.inj hanswer
      have hpos := List.length_pos_iff.mpr hne
      have hread : (e.read chunks).read bytes = e.read (chunks ++ bytes) := by
        rw [WorkerEnd.read, WorkerEnd.read, WorkerEnd.read, List.append_assoc]
      rw [hread]
      refine ih _ (by omega) fun got hgot ↦ hdone got ?_
      rw [hgot, List.length_append]
      omega
    · obtain rfl := Option.some.inj hanswer
      exact hraised chunks
    · obtain rfl := Option.some.inj hanswer
      exact hraised chunks

theorem safe_sendall {Q : Option Unit → WorkerEnd → Prop} {part buf : Bytes}
    (hI : ∀ sent, sent <+: part ++ buf → I (e.wrote sent))
    (hraised : ∀ sent, sent <+: part ++ buf → Q none (e.wrote sent))
    (hdone : Q (some ()) (e.wrote (part ++ buf))) :
    Safe WorkerEnd.respond I Q (sendall buf) (e.wrote part) := by
  induction hlength : buf.length using Nat.strong_induction_on generalizing part buf with
  | _ n ih =>
  subst hlength
  rw [sendall]
  split
  · rename_i hbuf
    rw [hbuf, List.append_nil] at hdone
    exact hdone
  · rename_i hbuf
    have hpos := List.length_pos_iff.mpr hbuf
    refine ⟨hI part (List.prefix_append _ _), ?_⟩
    rintro (⟨n, hn, hle⟩ | _) e' hanswer
    · obtain rfl := Option.some.inj hanswer
      have hwrote : (e.wrote part).wrote (buf.take n) = e.wrote (part ++ buf.take n) := by
        rw [WorkerEnd.wrote, WorkerEnd.wrote, WorkerEnd.wrote, List.append_assoc]
      have htake : part ++ buf.take n ++ buf.drop n = part ++ buf := by
        rw [List.append_assoc, List.take_append_drop]
      rw [hwrote]
      refine ih (buf.drop n).length ?_ ?_ ?_ ?_ rfl
      · rw [List.length_drop]
        omega
      · rw [htake]
        exact hI
      · rw [htake]
        exact hraised
      · rw [htake]
        exact hdone
    · obtain rfl := Option.some.inj hanswer
      exact hraised part (List.prefix_append _ _)

end Functions

/-! ## A turn -/

section Turns

variable {e : WorkerEnd}

/-- How a turn leaves the connection. -/
def Turned (turn : Turn) (e : WorkerEnd) : Prop :=
  e.Consistent ∧ (turn = .again → e.AtTurn)

theorem turned_closed (h : e.Consistent) : Turned .closed e := ⟨h, fun hagain ↦ by cases hagain⟩

theorem turned_again (h : e.AtTurn) : Turned .again e := ⟨h.consistent, fun _ ↦ h⟩

theorem safe_reply (h : e.AtTurn) (sample : Option Sample) :
    Safe WorkerEnd.respond WorkerEnd.Consistent Turned
      (reply (candidateOf sample).length (candidateOf sample))
      ⟨e.out, e.inp ++ [71], e.decoded ++ [.get], e.answers ++ [sample]⟩ := by
  have hnothing := h.consistent_get sample (Or.inl rfl)
  rw [List.append_nil] at hnothing
  rw [reply]
  by_cases hshort : (candidateOf sample).length < 256 ^ 4
  · rw [toBytes_eq hshort]
    -- Each part of the answer can be the last one that is written.
    have hpart : ∀ sent, sent <+: answer (candidateOf sample) → WorkerEnd.Consistent (.wrote
        ⟨e.out, e.inp ++ [71], e.decoded ++ [.get], e.answers ++ [sample]⟩ sent) :=
      fun sent hsent ↦ h.consistent_get sample (Or.inr ⟨hshort, hsent⟩)
    have hlength : ∀ sent, sent <+: [] ++ header (candidateOf sample).length →
        sent <+: answer (candidateOf sample) := fun sent hsent ↦
      hsent.trans (List.prefix_append _ _)
    rw [← WorkerEnd.wrote_nil ⟨e.out, _, _, _⟩]
    refine Safe.bind (safe_sendall (fun sent hsent ↦ hpart sent (hlength sent hsent))
      (fun sent hsent ↦ turned_closed (hpart sent (hlength sent hsent))) ?_)
    refine Safe.bind (safe_sendall hpart (fun sent hsent ↦ turned_closed (hpart sent hsent)) ?_)
    exact turned_again (h.get hshort)
  · rw [toBytes, if_neg hshort]
    exact turned_closed hnothing

theorem safe_feedback (h : e.AtTurn) (maxSampleSize : ℕ) :
    Safe WorkerEnd.respond WorkerEnd.Consistent Turned (feedback maxSampleSize)
      (e.read [65]) := by
  have hread := h.consistent.read [65]
  rw [feedback, ← WorkerEnd.read_nil (e.read [65])]
  refine Safe.bind (safe_recvExact hread.read (fun got ↦ turned_closed (hread.read got))
    fun rawLen hrawLen ↦ ?_)
  rw [List.length_nil, Nat.zero_add] at hrawLen
  dsimp only
  split
  · exact turned_closed (hread.read rawLen)
  rw [← WorkerEnd.read_nil ((e.read [65]).read rawLen)]
  refine Safe.bind (safe_recvExact (hread.read rawLen).read
    (fun got ↦ turned_closed ((hread.read rawLen).read got)) fun payload hpayload ↦ ?_)
  rw [List.length_nil, Nat.zero_add] at hpayload
  have hfits : payload.length < 256 ^ 4 := by
    rw [hpayload]
    exact fromBytes_lt hrawLen
  -- What has been read is the feedback with this payload.
  have hencode : [65] ++ rawLen ++ payload = (Operation.put payload).encode := by
    rw [Operation.encode, hpayload, header_fromBytes hrawLen]
    rfl
  have hput := h.put hfits
  rw [← hencode, ← List.append_assoc, ← List.append_assoc] at hput
  refine ⟨(hread.read rawLen).read payload, ?_⟩
  rintro (_ | _) e' hanswer
  · obtain rfl := Option.some.inj hanswer
    exact turned_closed hput.consistent
  · obtain rfl := Option.some.inj hanswer
    exact turned_again hput

/-- **`handle_client`.** Each turn starts where the one before has ended. -/
theorem safe_handleClient (h : e.AtTurn) (maxSampleSize : ℕ) :
    Safe WorkerEnd.respond WorkerEnd.Consistent Turned (handleClient maxSampleSize) e := by
  rw [handleClient]
  refine ⟨h.consistent, ?_⟩
  rintro stopped e₁ hanswer
  obtain rfl := Option.some.inj hanswer
  dsimp only [Program.bind]
  split
  · exact turned_closed h.consistent
  refine ⟨h.consistent, ?_⟩
  rintro (⟨op, hne, hle⟩ | _ | _) e₂ hanswer
  · obtain rfl := Option.some.inj hanswer
    dsimp only [Program.bind]
    split
    · rename_i hop
      rw [hop]
      refine ⟨h.consistent.read [71], ?_⟩
      rintro (_ | sample) e₃ hanswer
      · obtain rfl := Option.some.inj hanswer
        exact safe_reply h none
      · obtain rfl := Option.some.inj hanswer
        exact safe_reply h (some sample)
    split
    · rename_i hop
      rw [hop]
      exact safe_feedback h maxSampleSize
    · exact turned_closed (h.consistent.read op)
  · obtain rfl := Option.some.inj hanswer
    exact turned_closed h.consistent
  · obtain rfl := Option.some.inj hanswer
    exact turned_closed h.consistent

end Turns

end FuzzingCiCd.Mutator
