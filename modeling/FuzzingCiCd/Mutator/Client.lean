import FuzzingCiCd.Mutator.AflLlmMutator

/-!
# The mutator on its connections

What the calls of the mutator write to and read from each of its connections, whatever the system
and the worker answer. Between two calls the connection that is kept is *aligned*: complete
operations have been written and complete answers read, one for each request. A connection that has
been dropped, and the one in use during a call, is *intact*: after complete operations there can
be a part of another one, and after complete answers a part of another one.

The world of a call is the state of all connections. What one function does to it is said once
(`safe_sendAll`, `safe_recvAllDeadline`, `safe_drainBytes`), and the two calls are put together from
that.

## Main results

* `safe_sendAll`, `safe_recvAllDeadline`, `safe_drainBytes`: one function each, with what it leaves
  when it fails.
* `safe_fetchCandidate`, `safe_sendFeedback`: the two calls keep every connection intact.
-/

namespace FuzzingCiCd.Mutator

open PrefixCode Program

/-! ## The connections -/

/-- A finished request: its number on the connection, the capacity and what was returned. -/
structure Fetched where
  request : ℕ
  maxSize : ℕ
  candidate : Option Bytes
  deriving DecidableEq

/-- The mutator's end of a connection. -/
structure ClientEnd where
  /-- What has been written. -/
  out : Bytes
  /-- What has been read. -/
  inp : Bytes
  /-- The operations that have been sent completely. -/
  completed : List Operation
  /-- The requests that were finished and left the connection open. -/
  fetched : List Fetched

def ClientEnd.empty : ClientEnd := ⟨[], [], [], []⟩

/-- What the library has of the world: its connections and the call that is running. -/
structure ClientWorld where
  /-- The number of the next connection. -/
  next : ℕ
  ends : ℕ → ClientEnd
  /-- The operation of the running call, and what the call has written of it. -/
  current : Option Operation
  written : Bytes

def ClientWorld.initial : ClientWorld := ⟨0, fun _ ↦ .empty, none, []⟩

namespace ClientWorld

variable (w : ClientWorld) (fd : ℕ) (bytes : Bytes)

/-- Bytes are handed to the system. With its last byte the operation is sent completely. -/
def wrote : ClientWorld :=
  { w with
    written := w.written ++ bytes
    ends := Function.update w.ends fd
      { w.ends fd with
        out := (w.ends fd).out ++ bytes
        completed := (w.ends fd).completed ++
          w.current.toList.filter (·.encode = w.written ++ bytes) } }

def read : ClientWorld :=
  { w with
    ends := Function.update w.ends fd { w.ends fd with inp := (w.ends fd).inp ++ bytes } }

/-- A request is finished on a connection that stays open. -/
def fetched (maxSize : ℕ) (candidate : Option Bytes) : ClientWorld :=
  { w with
    ends := Function.update w.ends fd
      { w.ends fd with
        fetched := (w.ends fd).fetched ++
          [⟨gets (w.ends fd).completed - 1, maxSize, candidate⟩] } }

/-- The answers that the system can give. It knows nothing of the worker. -/
def respond (w : ClientWorld) : (r : ClientRequest) → r.Answer → Option ClientWorld
  | .time, _ => some w
  | .connect, none => some w
  | .connect, some fd => if fd = w.next then some { w with next := w.next + 1 } else none
  | .send fd buf, .written n _ _ => some (w.wrote fd (buf.take n))
  | .send _ _, _ => some w
  | .recv fd _, .received bytes _ _ => some (w.read fd bytes)
  | .recv _ _, _ => some w
  | .close _, _ => some w

end ClientWorld

/-! ## Aligned and intact connections -/

/-- What the mutator returns for a candidate. -/
def taken (maxSize : ℕ) (candidate : Bytes) : Option Bytes :=
  if candidate = [] then none else some (candidate.take maxSize)

/-- Each finished request got the candidate with its number. -/
def Reports (fetched : List Fetched) (candidates : List Bytes) : Prop :=
  fetched.length = candidates.length ∧
    ∀ (i : ℕ) (f : Fetched), fetched[i]? = some f →
      f.request = i ∧ ∃ c, candidates[i]? = some c ∧ f.candidate = taken f.maxSize c

/-- **Between two calls** the connection in use is at the end of an operation and of an answer. -/
structure Aligned (e : ClientEnd) : Prop where
  fits : ∀ op ∈ e.completed, op.Fits
  out : e.out = frames Operation.encode e.completed
  inp : ∃ candidates, (∀ c ∈ candidates, Short c) ∧ e.inp = frames answer candidates ∧
    Reports e.fetched candidates
  count : e.fetched.length = gets e.completed

/-- **Always** each connection has complete operations and a cut one, and complete answers and a
part of another one. -/
structure Intact (e : ClientEnd) : Prop where
  fits : ∀ op ∈ e.completed, op.Fits
  out : ∃ part, Cut Operation.Fits Operation.encode part ∧
    e.out = frames Operation.encode e.completed ++ part
  inp : ∃ candidates part c, (∀ c ∈ candidates, Short c) ∧ Short c ∧ part <+: answer c ∧
    e.inp = frames answer candidates ++ part ∧ Reports e.fetched candidates

theorem cut_nil : Cut Operation.Fits Operation.encode [] :=
  ⟨.get, trivial, List.nil_prefix, (Operation.encode_ne_nil .get).symm⟩

theorem Aligned.intact {e : ClientEnd} (h : Aligned e) : Intact e where
  fits := h.fits
  out := ⟨[], cut_nil, by rw [List.append_nil]; exact h.out⟩
  inp := by
    obtain ⟨candidates, hshort, hinp, hreports⟩ := h.inp
    exact ⟨candidates, [], [], hshort, short_nil, List.nil_prefix,
      by rw [List.append_nil]; exact hinp, hreports⟩

theorem aligned_empty : Aligned .empty where
  fits _ h := by cases h
  out := rfl
  inp := ⟨[], List.forall_mem_nil _, rfl, rfl, fun _ _ h ↦ by cases h⟩
  count := rfl

/-- All connections are intact, and those to come are empty. -/
structure Whole (w : ClientWorld) : Prop where
  intact : ∀ fd, Intact (w.ends fd)
  fresh : ∀ fd, w.next ≤ fd → w.ends fd = .empty

/-- **Between two calls.** -/
structure Idle (data : MyMutator) (w : ClientWorld) : Prop where
  whole : Whole w
  aligned : ∀ fd, data.sock = some fd → fd < w.next ∧ Aligned (w.ends fd)

theorem whole_initial : Whole .initial where
  intact _ := aligned_empty.intact
  fresh _ _ := rfl

theorem Whole.update {w : ClientWorld} (h : Whole w) {fd : ℕ} (hfd : fd < w.next) {e : ClientEnd}
    (he : Intact e) (current : Option Operation) (written : Bytes) :
    Whole ⟨w.next, Function.update w.ends fd e, current, written⟩ where
  intact fd' := by
    by_cases hne : fd' = fd
    · rw [hne]
      dsimp only
      rw [Function.update_self]
      exact he
    · dsimp only
      rw [Function.update_of_ne hne]
      exact h.intact fd'
  fresh fd' hfd' := by
    have hne : fd' ≠ fd := by
      have : w.next ≤ fd' := hfd'
      omega
    dsimp only
    rw [Function.update_of_ne hne]
    exact h.fresh fd' hfd'

/-! ## Writing -/

section Writing

variable {w : ClientWorld} {fd : ℕ} {op : Operation}

/-- A part of the operation of the call has been written on a connection. -/
def ClientWorld.transmitted (w : ClientWorld) (fd : ℕ) (op : Operation) (part : Bytes) :
    ClientWorld :=
  { w with
    written := part
    ends := Function.update w.ends fd
      { w.ends fd with
        out := (w.ends fd).out ++ part
        completed := (w.ends fd).completed ++ if part = op.encode then [op] else [] } }

theorem wrote_transmitted (hcurrent : w.current = some op) {part : Bytes} (hpart : part ≠ op.encode)
    (bytes : Bytes) :
    (w.transmitted fd op part).wrote fd bytes = w.transmitted fd op (part ++ bytes) := by
  rw [ClientWorld.wrote, ClientWorld.transmitted, ClientWorld.transmitted]
  dsimp only
  rw [Function.update_self, Function.update_idem, hcurrent, if_neg hpart]
  simp [List.filter_singleton, eq_comm, Bool.cond_decide]

/-- **`send_all`.** It writes its bytes, or a part of them when it fails. -/
theorem safe_sendAll {I : ClientWorld → Prop} {Q : Except Failure Unit → ClientWorld → Prop}
    (hcurrent : w.current = some op)
    (hI : ∀ part, part <+: op.encode → I (w.transmitted fd op part))
    (hfailed : ∀ part failure, part <+: op.encode → part ≠ op.encode →
      Q (.error failure) (w.transmitted fd op part))
    {part buf : Bytes} (rest : Bytes) (hsplit : part ++ buf ++ rest = op.encode)
    (hdone : Q (.ok ()) (w.transmitted fd op (part ++ buf))) :
    Safe ClientWorld.respond I Q (sendAll fd buf) (w.transmitted fd op part) := by
  induction hlength : buf.length using Nat.strong_induction_on generalizing buf part with
  | _ n ih =>
  subst hlength
  rw [sendAll]
  split
  · rename_i hbuf
    rw [hbuf, List.append_nil] at hdone
    exact hdone
  · rename_i hbuf
    have hpre : part <+: op.encode := ⟨buf ++ rest, by rw [← List.append_assoc, hsplit]⟩
    have hne : part ≠ op.encode := by
      intro heq
      have hlength := congrArg List.length hsplit
      rw [← heq, List.length_append, List.length_append] at hlength
      have := List.length_pos_iff.mpr hbuf
      omega
    refine ⟨hI part hpre, ?_⟩
    rintro (⟨n, hpos, hle⟩ | _ | _) w' hanswer
    · obtain rfl := Option.some.inj hanswer
      rw [wrote_transmitted hcurrent hne]
      have htake : part ++ buf.take n ++ buf.drop n = part ++ buf := by
        rw [List.append_assoc, List.take_append_drop]
      refine ih (buf.drop n).length ?_ ?_ ?_ rfl
      · rw [List.length_drop]
        omega
      · rw [htake]
        exact hsplit
      · rw [htake]
        exact hdone
    · obtain rfl := Option.some.inj hanswer
      exact hfailed part .late hpre hne
    · obtain rfl := Option.some.inj hanswer
      exact hfailed part .broken hpre hne

end Writing

/-! ## Reading -/

section Reading

variable {w : ClientWorld} {fd : ℕ}

theorem read_read (w : ClientWorld) (fd : ℕ) (a b : Bytes) :
    (w.read fd a).read fd b = w.read fd (a ++ b) := by
  rw [ClientWorld.read, ClientWorld.read, ClientWorld.read]
  dsimp only
  rw [Function.update_self, Function.update_idem, List.append_assoc]

theorem read_nil (w : ClientWorld) (fd : ℕ) : w.read fd [] = w := by
  rw [ClientWorld.read, List.append_nil, Function.update_eq_self]

theorem safe_recvLoop {I : ClientWorld → Prop} {Q : Except Failure Bytes → ClientWorld → Prop}
    {maxSpins spins len : ℕ} {buf : Bytes}
    (hI : ∀ got, buf <+: got → got.length < buf.length + len → I (w.read fd got))
    (hfailed : ∀ got failure, buf <+: got → got.length < buf.length + len →
      Q (.error failure) (w.read fd got))
    (hdone : ∀ got, got.length = buf.length + len → Q (.ok got) (w.read fd got)) :
    Safe ClientWorld.respond I Q (recvLoop fd maxSpins len spins buf) (w.read fd buf) := by
  induction hmeasure : len + (maxSpins - spins) using Nat.strong_induction_on
    generalizing len spins buf with
  | _ n ih =>
  subst hmeasure
  rw [recvLoop]
  split
  · rename_i hlen
    exact hdone buf (by rw [hlen, Nat.add_zero])
  · rename_i hlen
    have hless : buf.length < buf.length + len := by omega
    refine ⟨hI buf (List.prefix_refl _) hless, ?_⟩
    rintro (⟨bytes, hne, hle⟩ | _ | _ | _) w' hanswer
    · obtain rfl := Option.some.inj hanswer
      have hpos := List.length_pos_iff.mpr hne
      have hlength : (buf ++ bytes).length + (len - bytes.length) = buf.length + len := by
        rw [List.length_append]
        omega
      rw [read_read]
      refine ih _ (by omega) (fun got hgot ↦ ?_) (fun got failure hgot ↦ ?_) (fun got ↦ ?_) rfl
      · rw [hlength]
        exact hI got ((List.prefix_append _ _).trans hgot)
      · rw [hlength]
        exact hfailed got failure ((List.prefix_append _ _).trans hgot)
      · rw [hlength]
        exact hdone got
    · obtain rfl := Option.some.inj hanswer
      exact hfailed buf .broken (List.prefix_refl _) hless
    · obtain rfl := Option.some.inj hanswer
      dsimp only
      split
      · exact hfailed buf .late (List.prefix_refl _) hless
      · exact ih _ (by omega) hI hfailed hdone rfl
    · obtain rfl := Option.some.inj hanswer
      exact hfailed buf .broken (List.prefix_refl _) hless

/-- **`recv_all_deadline`.** It reads as many bytes as it was asked for, or less when it fails. -/
theorem safe_recvAllDeadline {I : ClientWorld → Prop}
    {Q : Except Failure Bytes → ClientWorld → Prop} {maxSpins len : ℕ}
    (hI : ∀ got, got.length < len → I (w.read fd got))
    (hfailed : ∀ got failure, got.length < len → Q (.error failure) (w.read fd got))
    (hdone : ∀ got, got.length = len → Q (.ok got) (w.read fd got)) :
    Safe ClientWorld.respond I Q (recvAllDeadline fd len maxSpins) w := by
  have h := @safe_recvLoop w fd I Q maxSpins 0 len []
  rw [read_nil, List.length_nil, Nat.zero_add] at h
  exact h (fun got _ ↦ hI got) (fun got failure _ ↦ hfailed got failure) hdone

theorem safe_drainBytes {I : ClientWorld → Prop} {Q : Except Failure Unit → ClientWorld → Prop}
    {len : ℕ} (hI : ∀ got, got.length < len → I (w.read fd got))
    (hfailed : ∀ got failure, got.length < len → Q (.error failure) (w.read fd got))
    (hdone : ∀ got, got.length = len → Q (.ok ()) (w.read fd got)) :
    Safe ClientWorld.respond I Q (drainBytes fd len) w := by
  induction len using Nat.strong_induction_on generalizing w with
  | _ len ih =>
  rw [drainBytes]
  split
  · rename_i hlen
    have h := hdone [] hlen.symm
    rw [read_nil] at h
    exact h
  · rename_i hlen
    refine Safe.bind (safe_recvAllDeadline (fun got hgot ↦ hI got ?_)
      (fun got failure hgot ↦ hfailed got failure ?_) (fun chunk hchunk ↦ ?_))
    · omega
    · omega
    · refine ih _ (by omega) (fun got hgot ↦ ?_) (fun got failure hgot ↦ ?_) (fun got hgot ↦ ?_)
      · rw [read_read]
        exact hI _ (by rw [List.length_append]; omega)
      · rw [read_read]
        exact hfailed _ failure (by rw [List.length_append]; omega)
      · rw [read_read]
        exact hdone _ (by rw [List.length_append]; omega)

end Reading

/-! ## What an operation leaves behind -/

section Ends

variable {e : ClientEnd} {op : Operation}

theorem Aligned.intact_transmitted (h : Aligned e) (hop : op.Fits) {part : Bytes}
    (hpart : part <+: op.encode) :
    Intact { e with
      out := e.out ++ part
      completed := e.completed ++ if part = op.encode then [op] else [] } where
  fits op' hop' := by
    rcases List.mem_append.mp hop' with hold | hnew
    · exact h.fits op' hold
    · split at hnew
      · rw [List.mem_singleton.mp hnew]
        exact hop
      · cases hnew
  out := by
    dsimp only
    split
    · rename_i heq
      refine ⟨[], cut_nil, ?_⟩
      rw [heq, frames_concat, h.out, List.append_nil]
    · rename_i hne
      refine ⟨part, ⟨op, hop, hpart, hne⟩, ?_⟩
      rw [List.append_nil, h.out]
  inp := h.intact.inp

theorem Aligned.put (h : Aligned e) {payload : Bytes} (hfits : payload.length < 256 ^ 4) :
    Aligned { e with
      out := e.out ++ (Operation.put payload).encode
      completed := e.completed ++ [.put payload] } where
  fits op hop := by
    rcases List.mem_append.mp hop with hold | hnew
    · exact h.fits op hold
    · rw [List.mem_singleton.mp hnew]
      exact hfits
  out := by
    dsimp only
    rw [frames_concat, h.out]
  inp := h.inp
  count := by
    dsimp only
    rw [gets, List.count_append, h.count]
    rfl

theorem Aligned.intact_asked (h : Aligned e) {got c : Bytes} (hshort : Short c)
    (hgot : got <+: answer c) :
    Intact { e with
      out := e.out ++ Operation.get.encode
      completed := e.completed ++ [.get]
      inp := e.inp ++ got } where
  fits op hop := by
    rcases List.mem_append.mp hop with hold | hnew
    · exact h.fits op hold
    · rw [List.mem_singleton.mp hnew]
      trivial
  out := by
    refine ⟨[], cut_nil, ?_⟩
    rw [frames_concat, h.out, List.append_nil]
  inp := by
    obtain ⟨candidates, hcandidates, hinp, hreports⟩ := h.inp
    exact ⟨candidates, got, c, hcandidates, hshort, hgot, by rw [hinp], hreports⟩

theorem Reports.concat {fetched : List Fetched} {candidates : List Bytes}
    (h : Reports fetched candidates) (maxSize : ℕ) (c : Bytes) :
    Reports (fetched ++ [⟨fetched.length, maxSize, taken maxSize c⟩]) (candidates ++ [c]) := by
  obtain ⟨hlength, hget⟩ := h
  refine ⟨by rw [List.length_append, List.length_append, hlength]; rfl, fun i f hf ↦ ?_⟩
  rcases Nat.lt_trichotomy i fetched.length with hlt | heq | hgt
  · rw [List.getElem?_append_left hlt] at hf
    rw [List.getElem?_append_left (hlength ▸ hlt)]
    exact hget i f hf
  · rw [heq, List.getElem?_concat_length] at hf
    rw [heq, hlength, List.getElem?_concat_length, ← Option.some.inj hf, ← hlength]
    exact ⟨rfl, c, rfl, rfl⟩
  · rw [List.getElem?_eq_none] at hf
    · cases hf
    · rw [List.length_append, List.length_singleton]
      omega

/-- A request whose answer has been read leaves its connection aligned. -/
theorem Aligned.fetched (h : Aligned e) (maxSize : ℕ) {c : Bytes} (hshort : Short c) :
    Aligned
      { out := e.out ++ Operation.get.encode
        completed := e.completed ++ [.get]
        inp := e.inp ++ answer c
        fetched := e.fetched ++
          [⟨gets (e.completed ++ [.get]) - 1, maxSize, taken maxSize c⟩] } := by
  have hgets : gets (e.completed ++ [.get]) = e.fetched.length + 1 := by
    rw [gets, List.count_append, h.count]
    rfl
  refine ⟨?_, ?_, ?_, ?_⟩
  · rintro op hop
    rcases List.mem_append.mp hop with hold | hnew
    · exact h.fits op hold
    · rw [List.mem_singleton.mp hnew]
      trivial
  · dsimp only
    rw [frames_concat, h.out]
  · obtain ⟨candidates, hcandidates, hinp, hreports⟩ := h.inp
    refine ⟨candidates ++ [c], ?_, ?_, ?_⟩
    · rintro c' hc'
      rcases List.mem_append.mp hc' with hold | hnew
      · exact hcandidates c' hold
      · rw [List.mem_singleton.mp hnew]
        exact hshort
    · dsimp only
      rw [frames_concat, hinp]
    · dsimp only
      rw [hgets, Nat.add_sub_cancel]
      exact hreports.concat maxSize c
  · dsimp only
    rw [hgets, List.length_append, List.length_singleton]

end Ends

/-! ## The calls

An operation begins on an aligned connection, or on none, and has to end so. In between the
connection is only `Whole`: a message may have been sent or read in part. Every way out of the
loops that leaves it so closes the socket, which is what `safe_fail` is for. -/

section Calls

variable {data : MyMutator} {w : ClientWorld} {fd : ℕ}

theorem transmitted_nil (h : w.written = []) (fd : ℕ) (op : Operation) :
    w.transmitted fd op [] = w := by
  rw [ClientWorld.transmitted, if_neg (op.encode_ne_nil).symm, List.append_nil, List.append_nil,
    Function.update_eq_self, ← h]

/-- What a request leaves behind: a kept connection is aligned, and a request that has lost its
connection returns nothing. -/
structure Fetches (maxSize : ℕ) (result : MyMutator × Option Bytes) (w : ClientWorld) : Prop where
  whole : Whole w
  kept : ∀ fd, result.1.sock = some fd → Idle result.1 (w.fetched fd maxSize result.2)
  lost : result.1.sock = none → result.2 = none

theorem read_transmitted (w : ClientWorld) (fd : ℕ) (got : Bytes) :
    (w.transmitted fd .get Operation.get.encode).read fd got =
      ⟨w.next, Function.update w.ends fd
        { w.ends fd with
          out := (w.ends fd).out ++ Operation.get.encode
          completed := (w.ends fd).completed ++ [.get]
          inp := (w.ends fd).inp ++ got }, w.current, Operation.get.encode⟩ := by
  rw [ClientWorld.read, ClientWorld.transmitted, if_pos rfl]
  dsimp only
  rw [Function.update_self, Function.update_idem]

theorem Idle.whole_read (h : Idle data w) (hsock : data.sock = some fd) {got c : Bytes}
    (hshort : Short c) (hgot : got <+: answer c) :
    Whole ((w.transmitted fd .get Operation.get.encode).read fd got) := by
  obtain ⟨hfd, haligned⟩ := h.aligned fd hsock
  rw [read_transmitted]
  exact h.whole.update hfd (haligned.intact_asked hshort hgot) _ _

theorem Idle.fetches (h : Idle data w) (hsock : data.sock = some fd) {c : Bytes} (hshort : Short c)
    (maxSize : ℕ) :
    Fetches maxSize (data, taken maxSize c)
      ((w.transmitted fd .get Operation.get.encode).read fd (answer c)) := by
  obtain ⟨hfd, haligned⟩ := h.aligned fd hsock
  refine ⟨h.whole_read hsock hshort (List.prefix_refl _), fun fd' hfd' ↦ ?_, fun hnone ↦ ?_⟩
  · obtain rfl := Option.some.inj (hsock.symm.trans hfd')
    have hend := haligned.fetched maxSize hshort
    rw [read_transmitted, ClientWorld.fetched]
    dsimp only
    rw [Function.update_self, Function.update_idem]
    refine ⟨h.whole.update hfd hend.intact _ _, fun fd' hfd' ↦ ?_⟩
    obtain rfl := Option.some.inj (hsock.symm.trans hfd')
    dsimp only
    rw [Function.update_self]
    exact ⟨hfd, hend⟩
  · dsimp only at hnone
    rw [hsock] at hnone
    cases hnone

theorem Idle.put (h : Idle data w) (hsock : data.sock = some fd) {payload : Bytes}
    (hfits : (Operation.put payload).Fits) :
    Idle data (w.transmitted fd (.put payload) (Operation.put payload).encode) := by
  obtain ⟨hfd, haligned⟩ := h.aligned fd hsock
  have hend := haligned.put hfits
  rw [ClientWorld.transmitted, if_pos rfl]
  refine ⟨h.whole.update hfd hend.intact _ _, fun fd' hfd' ↦ ?_⟩
  obtain rfl := Option.some.inj (hsock.symm.trans hfd')
  dsimp only
  rw [Function.update_self]
  exact ⟨hfd, hend⟩

/-- A new connection is aligned, and nothing else changes. -/
theorem idle_connect {w' : ClientWorld} (h : Whole w) (now : ℕ) {sock : Option ℕ}
    (hanswer : w.respond .connect sock = some w') :
    Idle ⟨sock, now⟩ w' ∧ w'.current = w.current ∧ w'.written = w.written := by
  rcases sock with _ | fd
  · obtain rfl := Option.some.inj hanswer
    exact ⟨⟨h, fun fd hfd ↦ by cases hfd⟩, rfl, rfl⟩
  · rw [ClientWorld.respond] at hanswer
    split at hanswer
    · rename_i hfd
      obtain rfl := Option.some.inj hanswer
      refine ⟨⟨⟨h.intact, fun fd' hfd' ↦ h.fresh fd' (Nat.le_of_succ_le hfd')⟩, ?_⟩, rfl, rfl⟩
      rintro _ ⟨⟩
      dsimp only
      rw [hfd, h.fresh w.next (Nat.le_refl _)]
      exact ⟨Nat.lt_succ_self _, aligned_empty⟩
    · cases hanswer

theorem safe_maybeReconnect {Q : MyMutator → ClientWorld → Prop} (h : Idle data w)
    (hdone : ∀ data' w', Idle data' w' → w'.current = w.current → w'.written = w.written →
      Q data' w') :
    Safe ClientWorld.respond Whole Q (maybeReconnect data) w := by
  rw [maybeReconnect]
  refine ⟨h.whole, ?_⟩
  rintro now w₁ hanswer
  obtain rfl := Option.some.inj hanswer
  dsimp only [Program.bind]
  split
  · exact hdone data w h rfl rfl
  split
  · exact hdone data w h rfl rfl
  refine ⟨h.whole, ?_⟩
  rintro sock w₂ hanswer
  obtain ⟨hidle, hcurrent, hwritten⟩ := idle_connect h.whole now hanswer
  exact hdone _ w₂ hidle hcurrent hwritten

theorem safe_aflCustomInit :
    Safe ClientWorld.respond Whole Idle aflCustomInit .initial :=
  ⟨whole_initial, fun _ _ hanswer ↦ (idle_connect whole_initial 0 hanswer).1⟩

theorem safe_dropConnection {Q : MyMutator → ClientWorld → Prop} (h : Whole w)
    (hdone : ∀ data', data'.sock = none → Q data' w) :
    Safe ClientWorld.respond Whole Q (dropConnection data) w := by
  rw [dropConnection]
  split
  · rename_i hsock
    exact hdone data hsock
  · refine ⟨h, ?_⟩
    rintro _ w' hanswer
    obtain rfl := Option.some.inj hanswer
    exact hdone _ rfl

theorem safe_fail {maxSize : ℕ} (h : Whole w) :
    Safe ClientWorld.respond Whole (Fetches maxSize) (fail data) w := by
  rw [fail]
  refine Safe.bind (safe_dropConnection h fun data' hsock ↦ ?_)
  refine ⟨h, fun fd hfd ↦ ?_, fun _ ↦ rfl⟩
  rw [hsock] at hfd
  cases hfd

/-- **`fetch_candidate`.** It keeps every connection whole, and is idle at its end, with a candidate
of the worker or none. -/
theorem safe_fetchCandidate (h : Idle data w) (hcurrent : w.current = some .get)
    (hwritten : w.written = []) (maxSize : ℕ) :
    Safe ClientWorld.respond Whole (Fetches maxSize) (fetchCandidate data maxSize) w := by
  rw [fetchCandidate]
  refine Safe.bind (safe_maybeReconnect h fun data' w₁ hidle hcurrent' hwritten' ↦ ?_)
  rw [hcurrent] at hcurrent'
  rw [hwritten] at hwritten'
  clear h hcurrent hwritten
  rcases hsock : data'.sock with _ | fd
  · refine ⟨hidle.whole, fun fd hfd ↦ ?_, fun _ ↦ rfl⟩
    rw [hsock] at hfd
    cases hfd
  dsimp only
  obtain ⟨hfd, haligned⟩ := hidle.aligned fd hsock
  -- The request is written.
  rw [← transmitted_nil hwritten' fd .get]
  have hwriting : ∀ part, part <+: Operation.get.encode → Whole (w₁.transmitted fd .get part) :=
    fun part hpart ↦ hidle.whole.update hfd
      (haligned.intact_transmitted Operation.fits_get hpart) _ _
  refine Safe.bind (safe_sendAll hcurrent' hwriting
    (fun part failure hpart _ ↦ safe_fail (hwriting part hpart)) [] rfl ?_)
  -- The header is read.
  have hheader : ∀ got, got.length < 4 →
      Whole ((w₁.transmitted fd .get Operation.get.encode).read fd got) := by
    intro got hgot
    obtain ⟨c, hshort, hpre⟩ := prefix_answer_of_le (Nat.le_of_lt hgot)
    exact hidle.whole_read hsock hshort hpre
  refine Safe.bind (safe_recvAllDeadline hheader
    (fun got failure hgot ↦ safe_fail (hheader got hgot)) fun hdr hhdr ↦ ?_)
  have hlen := payloadLen_eq hhdr
  dsimp only
  split
  · rename_i hzero
    have hempty : answer [] = hdr := by
      rw [answer, List.append_nil, List.length_nil, ← hzero, hlen, header_fromBytes hhdr]
    rw [← hempty]
    exact hidle.fetches hsock short_nil maxSize
  rename_i hpos
  -- The candidate is read, and what is too long of it.
  have hbody : ∀ got, got.length ≤ payloadLen hdr →
      Whole ((w₁.transmitted fd .get Operation.get.encode).read fd (hdr ++ got)) := by
    intro got hgot
    obtain ⟨c, hshort, hpre⟩ := prefix_answer hhdr (hlen ▸ hgot)
    exact hidle.whole_read hsock hshort hpre
  have hresult : ∀ dst rest, dst.length = min (payloadLen hdr) maxSize →
      dst.length + rest.length = payloadLen hdr →
      Fetches maxSize (data', some dst)
        ((w₁.transmitted fd .get Operation.get.encode).read fd (hdr ++ (dst ++ rest))) := by
    intro dst rest hdst hrest
    have hlength : (dst ++ rest).length = fromBytes hdr := by
      rw [List.length_append, hrest, hlen]
    have hanswer : answer (dst ++ rest) = hdr ++ (dst ++ rest) := by
      rw [answer, hlength, header_fromBytes hhdr]
    have htaken : taken maxSize (dst ++ rest) = some dst := by
      have hne : dst ++ rest ≠ [] := by
        intro hnil
        rw [hnil, List.length_nil, ← hlen] at hlength
        exact hpos hlength.symm
      rw [taken, if_neg hne]
      by_cases hfit : payloadLen hdr ≤ maxSize
      · have hnil : rest = [] := List.length_eq_zero_iff.mp (by omega)
        rw [hnil, List.append_nil, List.take_of_length_le (by omega)]
      · rw [List.take_left' (by omega)]
    have hshort : Short (dst ++ rest) := by
      rw [Short, hlength]
      exact fromBytes_lt hhdr
    rw [← hanswer, ← htaken]
    exact hidle.fetches hsock hshort maxSize
  refine Safe.bind (safe_recvAllDeadline (fun got hgot ↦ ?_) (fun got failure hgot ↦ ?_)
    fun dst hdst ↦ ?_)
  · rw [read_read]
    exact hbody got (by omega)
  · rw [read_read]
    exact safe_fail (hbody got (by omega))
  rw [read_read]
  dsimp only
  split
  · refine Safe.bind (safe_drainBytes (fun got hgot ↦ ?_) (fun got failure hgot ↦ ?_)
      fun rest hrest ↦ ?_)
    · rw [read_read, List.append_assoc]
      exact hbody (dst ++ got) (by rw [List.length_append]; omega)
    · rw [read_read, List.append_assoc]
      exact safe_fail (hbody (dst ++ got) (by rw [List.length_append]; omega))
    · rw [read_read, List.append_assoc]
      exact hresult dst rest hdst (by omega)
  · have h := hresult dst [] hdst (by rw [List.length_nil]; omega)
    rw [List.append_nil] at h
    exact h

/-- **`send_feedback`.** It keeps every connection whole, and is idle at its end. -/
theorem safe_sendFeedback {buf : Bytes} (h : Idle data w)
    (hcurrent : w.current = some (.put (buf.take 65535))) (hwritten : w.written = []) :
    Safe ClientWorld.respond Whole Idle (sendFeedback data buf) w := by
  have hfits : (Operation.put (buf.take 65535)).Fits := by
    rw [Operation.Fits, List.length_take]
    omega
  rw [sendFeedback]
  refine Safe.bind (safe_maybeReconnect h fun data' w₁ hidle hcurrent' hwritten' ↦ ?_)
  rw [hcurrent] at hcurrent'
  rw [hwritten] at hwritten'
  clear h hcurrent hwritten
  rcases hsock : data'.sock with _ | fd
  · exact hidle
  dsimp only
  split
  · exact hidle
  obtain ⟨hfd, haligned⟩ := hidle.aligned fd hsock
  rw [← transmitted_nil hwritten' fd (.put (buf.take 65535))]
  have hwriting : ∀ part, part <+: (Operation.put (buf.take 65535)).encode →
      Whole (w₁.transmitted fd (.put (buf.take 65535)) part) :=
    fun part hpart ↦ hidle.whole.update hfd (haligned.intact_transmitted hfits hpart) _ _
  have hfailed : ∀ part (_ : Failure), part <+: (Operation.put (buf.take 65535)).encode →
      part ≠ (Operation.put (buf.take 65535)).encode →
      Safe ClientWorld.respond Whole Idle (dropConnection data')
        (w₁.transmitted fd (.put (buf.take 65535)) part) := by
    rintro part - hpart -
    refine safe_dropConnection (hwriting part hpart) fun data'' hnone ↦ ⟨hwriting part hpart, ?_⟩
    intro fd' hfd'
    rw [hnone] at hfd'
    cases hfd'
  refine Safe.bind (safe_sendAll hcurrent' hwriting hfailed (buf.take 65535) rfl ?_)
  refine Safe.bind (safe_sendAll hcurrent' hwriting hfailed [] ?_ ?_)
  · rw [List.append_nil]
    rfl
  exact hidle.put hsock hfits

end Calls

end FuzzingCiCd.Mutator
