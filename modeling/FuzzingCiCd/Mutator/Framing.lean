import FuzzingCiCd.Mutator.Client
import FuzzingCiCd.Mutator.Worker
import FuzzingCiCd.Foundation.Transition

/-!
# The mutator and the worker together

A fuzzer calls its mutator, and the mutator and the threads of the worker run side by side, one
system call at a time. Every connection is a pair of byte streams: what one side has written
arrives at the other one after any delay and cut into any pieces, and either side can see the
connection closed or broken at any moment. Threads of connections that the mutator has dropped
go on with what still arrives there.

Neither program needs to know the other one: each side of a connection is consistent whatever it
reads, the streams only take bytes from one side to the other, and operations and answers are prefix
codes.

## Main results

* `coherent_step`: every step keeps the invariant.
* `framed`: in every state of every run the promise holds.
-/

namespace FuzzingCiCd.Mutator

open PrefixCode Program Transition

/-! ## The system

The mutator, the threads of the worker and its queue are programs that make one call of the
system at a time. A step lets one of them go on with an answer that the others allow: bytes
arrive in order and as they were sent, and the queue gives its first sample. When they arrive,
and in which parts, is open. -/

/-- The calls of the fuzzer. -/
inductive Call where
  | fetch (maxSize : ℕ)
  | feedback (buf : Bytes)

/-- The operation of a call. -/
def Call.operation : Call → Operation
  | .fetch _ => .get
  | .feedback buf => .put (buf.take 65535)

/-- A call that has not returned. -/
inductive Running where
  | fetching (maxSize : ℕ) (program : Client (MyMutator × Option Bytes))
  /-- A call without a result. -/
  | acting (program : Client MyMutator)

def Call.start (data : MyMutator) : Call → Running
  | .fetch maxSize => .fetching maxSize (fetchCandidate data maxSize)
  | .feedback buf => .acting (sendFeedback data buf)

def Running.resume (running : Running) (r : ClientRequest) (answer : r.Answer) : Option Running :=
  match running with
  | .fetching maxSize program => (program.resume r answer).map (.fetching maxSize)
  | .acting program => (program.resume r answer).map .acting

/-- The whole system: a caller with its library, the threads of the worker and its queue. -/
structure System where
  data : MyMutator
  running : Option Running
  client : ClientWorld
  /-- The results of requests that have lost their connection. -/
  lost : List (Option Bytes)
  threads : ℕ → Worker Turn
  workers : ℕ → WorkerEnd
  queue : List Sample
  /-- The number of the next sample. -/
  produced : ℕ

inductive Event where
  | call (call : Call)
  /-- A system call of the mutator returns. -/
  | client (r : ClientRequest) (answer : r.Answer)
  | returns
  /-- A request of the thread of a connection is answered. -/
  | worker (fd : ℕ) (r : WorkerRequest) (answer : r.Answer)
  /-- The loop of the thread starts again. -/
  | turn (fd : ℕ)
  /-- A producer puts a sample into the queue. -/
  | produce (data : Bytes)
  /-- Another mutator takes a sample. -/
  | taken

namespace System

variable (maxSampleSize : ℕ) (s : System)

/-- The mutator reads what the worker has written, in order. -/
def clientCan : (r : ClientRequest) → r.Answer → Bool
  | .recv fd _, .received bytes _ _ =>
    ((s.client.ends fd).inp ++ bytes).isPrefixOf (s.workers fd).out
  | _, _ => true

/-- The thread reads what the mutator has written, in order, and takes the first sample. -/
def workerCan (fd : ℕ) : (r : WorkerRequest) → r.Answer → Bool
  | .recv _, .received bytes _ _ =>
    ((s.workers fd).inp ++ bytes).isPrefixOf (s.client.ends fd).out
  | .getNowait, sample => sample = s.queue.head?
  | _, _ => true

def queueAfter : WorkerRequest → List Sample
  | .getNowait => s.queue.tail
  | _ => s.queue

/-- The start of a call. -/
def started (call : Call) : System :=
  { s with
    running := some (call.start s.data)
    client := { s.client with current := some call.operation, written := [] } }

/-- The end of a request. -/
def fetched (maxSize : ℕ) (data : MyMutator) (candidate : Option Bytes) : System :=
  match data.sock with
  | none => { s with data := data, running := none, lost := s.lost ++ [candidate] }
  | some fd =>
    { s with data := data, running := none, client := s.client.fetched fd maxSize candidate }

end System

def step (maxSampleSize : ℕ) : Event → System → Except Unit System
  | .call call, s => if s.running.isSome then .error () else .ok (s.started call)
  | .client r answer, s =>
    if s.clientCan r answer then
      match s.running.bind (·.resume r answer), s.client.respond r answer with
      | some running, some client => .ok { s with running := some running, client := client }
      | _, _ => .error ()
    else .error ()
  | .returns, s =>
    match s.running with
    | some (.fetching maxSize (.done (data, candidate))) => .ok (s.fetched maxSize data candidate)
    | some (.acting (.done data)) => .ok { s with data := data, running := none }
    | _ => .error ()
  | .worker fd r answer, s =>
    if s.workerCan fd r answer then
      match (s.threads fd).resume r answer, (s.workers fd).respond r answer with
      | some thread, some worker =>
        .ok { s with
          threads := Function.update s.threads fd thread
          workers := Function.update s.workers fd worker
          queue := s.queueAfter r }
      | _, _ => .error ()
    else .error ()
  | .turn fd, s =>
    match s.threads fd with
    | .done .again =>
      .ok { s with threads := Function.update s.threads fd (handleClient maxSampleSize) }
    | _ => .error ()
  | .produce data, s =>
    if data.take maxSampleSize = [] then .error ()
    else
      .ok { s with
        queue := s.queue ++ [⟨s.produced, data.take maxSampleSize⟩]
        produced := s.produced + 1 }
  | .taken, s => .ok { s with queue := s.queue.tail }

/-- The fuzzer starts its mutator, and every connection will have a thread. -/
def System.initial (maxSampleSize : ℕ) : System where
  data := ⟨none, 0⟩
  running := some (.acting aflCustomInit)
  client := .initial
  lost := []
  threads _ := handleClient maxSampleSize
  workers _ := .empty
  queue := []
  produced := 0

/-! ## What is promised -/

/-- **The promise.** -/
structure Framed (s : System) : Prop where
  /-- The worker decodes operations that were sent completely, in their order. -/
  decoded : ∀ fd, (s.workers fd).decoded <+: (s.client.ends fd).completed
  /-- One answer for each request that the worker has decoded. -/
  answered : ∀ fd, (s.workers fd).answers.length = gets (s.workers fd).decoded
  /-- The finished requests of a connection are its first ones. -/
  numbered : ∀ fd (i : ℕ) (f : Fetched), (s.client.ends fd).fetched[i]? = some f → f.request = i
  /-- A candidate that is returned begins the sample that was taken for the request. -/
  candidate : ∀ fd, ∀ f ∈ (s.client.ends fd).fetched, ∀ dst ∈ f.candidate,
    ∃ sample, (s.workers fd).answers[f.request]? = some (some sample) ∧
      dst = sample.data.take (min sample.data.length f.maxSize)
  /-- A request that has lost its connection returns no candidate. -/
  lost : ∀ candidate ∈ s.lost, candidate = none
  /-- No sample is taken for two requests. -/
  once : ∀ (fd fd' i i' : ℕ) sample, (s.workers fd).answers[i]? = some (some sample) →
    (s.workers fd').answers[i']? = some (some sample) → fd = fd' ∧ i = i'
  /-- What has been read are the answers to the finished requests and a part of the next one. -/
  aligned : ∀ fd, ∃ part,
    (s.client.ends fd).inp =
      frames answer (((s.workers fd).answers.take (s.client.ends fd).fetched.length).map
        candidateOf) ++ part ∧
    part <+: frames answer ((((s.workers fd).answers.drop
      (s.client.ends fd).fetched.length).take 1).map candidateOf)

/-! ## The samples -/

/-- Every sample is in the queue, or was taken for one request, or is gone. -/
structure Distinct (queue : List Sample) (produced : ℕ) (answers : ℕ → List (Option Sample)) :
    Prop where
  nodup : (queue.map Sample.id).Nodup
  queued : ∀ sample ∈ queue, sample.id < produced
  given : ∀ (fd i : ℕ) (sample : Sample), (answers fd)[i]? = some (some sample) →
    sample.id < produced ∧ ∀ other ∈ queue, other.id ≠ sample.id
  once : ∀ (fd fd' i i' : ℕ) (sample sample' : Sample), (answers fd)[i]? = some (some sample) →
    (answers fd')[i']? = some (some sample') → sample.id = sample'.id → fd = fd' ∧ i = i'

section Samples

variable {queue : List Sample} {produced : ℕ} {answers : ℕ → List (Option Sample)}

theorem distinct_initial : Distinct [] 0 fun _ ↦ [] where
  nodup := List.nodup_nil
  queued _ h := by cases h
  given _ _ _ h := by cases h
  once _ _ _ _ _ _ h := by cases h

theorem Distinct.produce (h : Distinct queue produced answers) (data : Bytes) :
    Distinct (queue ++ [⟨produced, data⟩]) (produced + 1) answers where
  nodup := by
    rw [List.map_append, List.map_cons, List.map_nil, List.nodup_append]
    refine ⟨h.nodup, List.nodup_singleton _, ?_⟩
    rintro id hid _ hnew rfl
    obtain ⟨sample, hsample, rfl⟩ := List.mem_map.mp hid
    have := h.queued sample hsample
    rw [List.mem_singleton.mp hnew] at this
    exact Nat.lt_irrefl _ this
  queued sample hsample := by
    rcases List.mem_append.mp hsample with hold | hnew
    · exact Nat.lt_succ_of_lt (h.queued sample hold)
    · rw [List.mem_singleton.mp hnew]
      exact Nat.lt_succ_self _
  given fd i sample hsample := by
    obtain ⟨hlt, hfree⟩ := h.given fd i sample hsample
    refine ⟨Nat.lt_succ_of_lt hlt, fun other hother ↦ ?_⟩
    rcases List.mem_append.mp hother with hold | hnew
    · exact hfree other hold
    · rw [List.mem_singleton.mp hnew]
      exact Nat.ne_of_gt hlt
  once := h.once

theorem Distinct.tail (h : Distinct queue produced answers) :
    Distinct queue.tail produced answers where
  nodup := by
    rw [List.map_tail]
    exact h.nodup.sublist (List.tail_sublist _)
  queued sample hsample := h.queued sample (List.mem_of_mem_tail hsample)
  given fd i sample hsample := by
    obtain ⟨hlt, hfree⟩ := h.given fd i sample hsample
    exact ⟨hlt, fun other hother ↦ hfree other (List.mem_of_mem_tail hother)⟩
  once := h.once

theorem Distinct.take (h : Distinct queue produced answers) (fd : ℕ) :
    Distinct queue.tail produced
      (Function.update answers fd (answers fd ++ [queue.head?])) := by
  -- An answer is an earlier one, or the new one.
  have hcases : ∀ (fd' i : ℕ) (sample : Sample),
      (Function.update answers fd (answers fd ++ [queue.head?]) fd')[i]? = some (some sample) →
      (answers fd')[i]? = some (some sample) ∨
        fd' = fd ∧ i = (answers fd).length ∧ queue.head? = some sample := by
    intro fd' i sample hsample
    by_cases hfd : fd' = fd
    · rw [hfd, Function.update_self] at hsample
      rcases Nat.lt_trichotomy i (answers fd).length with hlt | heq | hgt
      · rw [List.getElem?_append_left hlt] at hsample
        exact Or.inl (hfd ▸ hsample)
      · rw [heq, List.getElem?_concat_length] at hsample
        exact Or.inr ⟨hfd, heq, Option.some.inj hsample⟩
      · rw [List.getElem?_eq_none] at hsample
        · cases hsample
        · rw [List.length_append, List.length_singleton]
          omega
    · rw [Function.update_of_ne hfd] at hsample
      exact Or.inl hsample
  have hhead : ∀ sample, queue.head? = some sample → sample ∈ queue := fun _ ↦ List.mem_of_mem_head?
  refine ⟨h.tail.nodup, h.tail.queued, fun fd' i sample hsample ↦ ?_, ?_⟩
  · rcases hcases fd' i sample hsample with hold | ⟨-, -, hfirst⟩
    · exact h.tail.given fd' i sample hold
    · refine ⟨h.queued sample (hhead sample hfirst), fun other hother heq ↦ ?_⟩
      obtain ⟨rest, rfl⟩ := List.head?_eq_some_iff.mp hfirst
      have hnodup := h.nodup
      rw [List.map_cons, List.nodup_cons] at hnodup
      exact hnodup.1 (List.mem_map.mpr ⟨other, hother, heq⟩)
  · intro fd₁ fd₂ i₁ i₂ sample₁ sample₂ h₁ h₂ hid
    rcases hcases fd₁ i₁ sample₁ h₁ with hold₁ | ⟨rfl, rfl, hfirst₁⟩
    · rcases hcases fd₂ i₂ sample₂ h₂ with hold₂ | ⟨rfl, rfl, hfirst₂⟩
      · exact h.once fd₁ fd₂ i₁ i₂ sample₁ sample₂ hold₁ hold₂ hid
      · exact absurd hid.symm ((h.given fd₁ i₁ sample₁ hold₁).2 sample₂ (hhead sample₂ hfirst₂))
    · rcases hcases fd₂ i₂ sample₂ h₂ with hold₂ | ⟨rfl, rfl, -⟩
      · exact absurd hid ((h.given fd₂ i₂ sample₂ hold₂).2 sample₁ (hhead sample₁ hfirst₁))
      · exact ⟨rfl, rfl⟩

end Samples

/-! ## The invariant

The bytes that a worker has read are the first of those that the mutator has sent over the same
connection, and the other way round. With the consistency of each side by itself this is all that
is needed: an answer of the system moves one stream, and the program that asked for it keeps its
own side (`Safe`) whatever the other one does. -/

/-- The mutator is between two calls, or in one that will end well. -/
def Calling (data : MyMutator) (running : Option Running) (w : ClientWorld) : Prop :=
  match running with
  | none => Idle data w
  | some (.fetching maxSize program) =>
    Safe ClientWorld.respond Whole (Fetches maxSize) program w
  | some (.acting program) => Safe ClientWorld.respond Whole Idle program w

/-- **The invariant.** Each side is consistent by itself, and the streams connect them. -/
structure Coherent (s : System) : Prop where
  client : Calling s.data s.running s.client
  lost : ∀ candidate ∈ s.lost, candidate = none
  workers : ∀ fd, Safe WorkerEnd.respond WorkerEnd.Consistent Turned (s.threads fd) (s.workers fd)
  requests : ∀ fd, (s.workers fd).inp <+: (s.client.ends fd).out
  replies : ∀ fd, (s.client.ends fd).inp <+: (s.workers fd).out
  samples : Distinct s.queue s.produced fun fd ↦ (s.workers fd).answers

theorem coherent_initial (maxSampleSize : ℕ) : Coherent (.initial maxSampleSize) where
  client := safe_aflCustomInit
  lost _ h := by cases h
  workers _ := safe_handleClient atTurn_empty maxSampleSize
  requests _ := List.nil_prefix
  replies _ := List.nil_prefix
  samples := distinct_initial

theorem Calling.whole {data : MyMutator} {running : Option Running} {w : ClientWorld}
    (h : Calling data running w) : Whole w := by
  rcases running with _ | ⟨maxSize, program⟩ | program
  · exact Idle.whole h
  · exact Safe.holds h fun _ _ ↦ Fetches.whole
  · exact Safe.holds h fun _ _ ↦ Idle.whole

section Steps

variable {s : System}

theorem Coherent.consistent (h : Coherent s) (fd : ℕ) : (s.workers fd).Consistent :=
  (h.workers fd).holds fun _ _ ↦ And.left

theorem coherent_started (h : Coherent s) (hrunning : s.running = none) (call : Call) :
    Coherent (s.started call) where
  client := by
    have hidle : Idle s.data s.client := by
      have := h.client
      rw [hrunning] at this
      exact this
    have hstart : Idle s.data
        { s.client with current := some call.operation, written := [] } :=
      ⟨⟨hidle.whole.intact, hidle.whole.fresh⟩, hidle.aligned⟩
    cases call with
    | fetch maxSize => exact safe_fetchCandidate hstart rfl rfl maxSize
    | feedback buf => exact safe_sendFeedback hstart rfl rfl
  lost := h.lost
  workers := h.workers
  requests := h.requests
  replies := h.replies
  samples := h.samples

/-- The streams still connect the two sides after an answer of the system. -/
theorem streams_client (h : Coherent s) {r : ClientRequest} {answer : r.Answer} {w : ClientWorld}
    (hcan : s.clientCan r answer = true) (hrespond : s.client.respond r answer = some w) (fd : ℕ) :
    (s.workers fd).inp <+: (w.ends fd).out ∧ (w.ends fd).inp <+: (s.workers fd).out := by
  have hold := fun fd ↦ And.intro (h.requests fd) (h.replies fd)
  have hupdate : ∀ fd' e, ((s.workers fd').inp <+: e.out ∧ e.inp <+: (s.workers fd').out) →
      (s.workers fd).inp <+: (Function.update s.client.ends fd' e fd).out ∧
        (Function.update s.client.ends fd' e fd).inp <+: (s.workers fd).out := fun fd' e he ↦
    (Function.forall_update_iff s.client.ends fun fd (e : ClientEnd) ↦
      (s.workers fd).inp <+: e.out ∧ e.inp <+: (s.workers fd).out).mpr
        ⟨he, fun fd _ ↦ hold fd⟩ fd
  cases r with
  | time =>
    obtain rfl := Option.some.inj hrespond
    exact hold fd
  | connect =>
    rcases answer with _ | fd'
    · obtain rfl := Option.some.inj hrespond
      exact hold fd
    · rw [ClientWorld.respond] at hrespond
      split at hrespond
      · obtain rfl := Option.some.inj hrespond
        exact hold fd
      · cases hrespond
  | send fd' buf =>
    -- what is sent goes behind what the worker has read
    rcases answer with ⟨n, hpos, hle⟩ | _ | _
    · obtain rfl := Option.some.inj hrespond
      exact hupdate fd' _ ⟨(h.requests fd').trans (List.prefix_append _ _), h.replies fd'⟩
    · obtain rfl := Option.some.inj hrespond
      exact hold fd
    · obtain rfl := Option.some.inj hrespond
      exact hold fd
  | recv fd' len =>
    -- what is received was sent: `clientCan` allows no other bytes
    rcases answer with ⟨bytes, hne, hle⟩ | _ | _ | _
    · obtain rfl := Option.some.inj hrespond
      exact hupdate fd' _ ⟨h.requests fd', List.isPrefixOf_iff_prefix.mp hcan⟩
    · obtain rfl := Option.some.inj hrespond
      exact hold fd
    · obtain rfl := Option.some.inj hrespond
      exact hold fd
    · obtain rfl := Option.some.inj hrespond
      exact hold fd
  | close fd' =>
    obtain rfl := Option.some.inj hrespond
    exact hold fd

theorem streams_worker (h : Coherent s) {fd : ℕ} {r : WorkerRequest} {answer : r.Answer}
    {e : WorkerEnd} (hcan : s.workerCan fd r answer = true)
    (hrespond : (s.workers fd).respond r answer = some e) :
    e.inp <+: (s.client.ends fd).out ∧ (s.client.ends fd).inp <+: e.out := by
  have hold := And.intro (h.requests fd) (h.replies fd)
  cases r with
  | isSet =>
    obtain rfl := Option.some.inj hrespond
    exact hold
  | recv size =>
    rcases answer with ⟨bytes, hne, hle⟩ | _ | _
    · obtain rfl := Option.some.inj hrespond
      exact ⟨List.isPrefixOf_iff_prefix.mp hcan, hold.2⟩
    · obtain rfl := Option.some.inj hrespond
      exact hold
    · obtain rfl := Option.some.inj hrespond
      exact hold
  | send buf =>
    rcases answer with ⟨n, hpos, hle⟩ | _
    · obtain rfl := Option.some.inj hrespond
      exact ⟨hold.1, hold.2.trans (List.prefix_append _ _)⟩
    · obtain rfl := Option.some.inj hrespond
      exact hold
  | getNowait =>
    obtain rfl := Option.some.inj hrespond
    exact hold
  | register payload =>
    obtain rfl := Option.some.inj hrespond
    exact hold

theorem samples_worker (h : Coherent s) {fd : ℕ} {r : WorkerRequest} {answer : r.Answer}
    {e : WorkerEnd} (hcan : s.workerCan fd r answer = true)
    (hrespond : (s.workers fd).respond r answer = some e) :
    Distinct (s.queueAfter r) s.produced
      fun fd' ↦ (Function.update s.workers fd e fd').answers := by
  have hanswers : (fun fd' ↦ (Function.update s.workers fd e fd').answers) =
      Function.update (fun fd' ↦ (s.workers fd').answers) fd e.answers := by
    funext fd'
    exact Function.apply_update (fun _ ↦ WorkerEnd.answers) s.workers fd e fd'
  have hsame : e.answers = (s.workers fd).answers → Distinct s.queue s.produced
      (Function.update (fun fd' ↦ (s.workers fd').answers) fd e.answers) := by
    intro heq
    rw [heq, Function.update_eq_self fd fun fd' ↦ (s.workers fd').answers]
    exact h.samples
  rw [hanswers]
  cases r with
  | isSet =>
    obtain rfl := Option.some.inj hrespond
    exact hsame rfl
  | recv size =>
    rcases answer with ⟨bytes, hne, hle⟩ | _ | _
    · obtain rfl := Option.some.inj hrespond
      exact hsame rfl
    · obtain rfl := Option.some.inj hrespond
      exact hsame rfl
    · obtain rfl := Option.some.inj hrespond
      exact hsame rfl
  | send buf =>
    rcases answer with ⟨n, hpos, hle⟩ | _
    · obtain rfl := Option.some.inj hrespond
      exact hsame rfl
    · obtain rfl := Option.some.inj hrespond
      exact hsame rfl
  | getNowait =>
    obtain rfl := Option.some.inj hrespond
    rw [of_decide_eq_true hcan]
    exact h.samples.take fd
  | register payload =>
    obtain rfl := Option.some.inj hrespond
    exact hsame rfl

theorem Calling.resume {data : MyMutator} {running running' : Running} {w w' : ClientWorld}
    {r : ClientRequest} {answer : r.Answer} (h : Calling data (some running) w)
    (hresume : running.resume r answer = some running') (hrespond : w.respond r answer = some w') :
    Calling data (some running') w' := by
  rcases running with ⟨maxSize, program⟩ | program
  · obtain ⟨program', hprogram, rfl⟩ := Option.map_eq_some_iff.mp hresume
    exact Safe.resume h hprogram hrespond
  · obtain ⟨program', hprogram, rfl⟩ := Option.map_eq_some_iff.mp hresume
    exact Safe.resume h hprogram hrespond

theorem coherent_fetched (h : Coherent s) {maxSize : ℕ} {data : MyMutator}
    {candidate : Option Bytes} (hfetches : Fetches maxSize (data, candidate) s.client) :
    Coherent (s.fetched maxSize data candidate) := by
  rw [System.fetched]
  rcases hsock : data.sock with _ | fd
  · refine ⟨⟨hfetches.whole, fun fd hfd ↦ ?_⟩, fun c hc ↦ ?_, h.workers, h.requests, h.replies,
      h.samples⟩
    · rw [hsock] at hfd
      cases hfd
    · rcases List.mem_append.mp hc with hold | hnew
      · exact h.lost c hold
      · rw [List.mem_singleton.mp hnew]
        exact hfetches.lost hsock
  · -- What is noted of the request changes no byte.
    have hbytes : ∀ fd', ((s.client.fetched fd maxSize candidate).ends fd').out =
        (s.client.ends fd').out ∧ ((s.client.fetched fd maxSize candidate).ends fd').inp =
          (s.client.ends fd').inp := by
      refine (Function.forall_update_iff s.client.ends fun fd' (e : ClientEnd) ↦
        e.out = (s.client.ends fd').out ∧ e.inp = (s.client.ends fd').inp).mpr ⟨⟨rfl, rfl⟩, ?_⟩
      exact fun fd' _ ↦ ⟨rfl, rfl⟩
    refine ⟨hfetches.kept fd hsock, h.lost, h.workers, fun fd' ↦ ?_, fun fd' ↦ ?_, h.samples⟩
    · dsimp only
      rw [(hbytes fd').1]
      exact h.requests fd'
    · dsimp only
      rw [(hbytes fd').2]
      exact h.replies fd'

/-- **Preservation.** Every step keeps the invariant. -/
theorem coherent_step (h : Coherent s) {maxSampleSize : ℕ} {event : Event} {t : System}
    (hstep : step maxSampleSize event s = .ok t) : Coherent t := by
  cases event with
  | call call =>
    rw [step] at hstep
    split at hstep
    · cases hstep
    · rename_i hrunning
      obtain rfl := Except.ok.inj hstep
      exact coherent_started h (Option.not_isSome_iff_eq_none.mp hrunning) call
  | client r answer =>
    -- at most one stream of the client changes, and no worker moves
    rw [step] at hstep
    split at hstep
    swap
    · cases hstep
    rename_i hcan
    split at hstep
    swap
    · cases hstep
    rename_i running client hresume hrespond
    obtain rfl := Except.ok.inj hstep
    obtain ⟨before, hbefore, hresume⟩ := Option.bind_eq_some_iff.mp hresume
    have hcalling := h.client
    rw [hbefore] at hcalling
    exact ⟨hcalling.resume hresume hrespond, h.lost, h.workers,
      fun fd ↦ (streams_client h hcan hrespond fd).1,
      fun fd ↦ (streams_client h hcan hrespond fd).2, h.samples⟩
  | returns =>
    have hcalling := h.client
    rw [step] at hstep
    split at hstep
    · rename_i hrunning
      obtain rfl := Except.ok.inj hstep
      rw [hrunning] at hcalling
      exact coherent_fetched h hcalling
    · rename_i hrunning
      obtain rfl := Except.ok.inj hstep
      rw [hrunning] at hcalling
      exact ⟨hcalling, h.lost, h.workers, h.requests, h.replies, h.samples⟩
    · cases hstep
  | worker fd r answer =>
    -- only the worker of `fd` moves, so each invariant is that of the others and its own
    rw [step] at hstep
    split at hstep
    swap
    · cases hstep
    rename_i hcan
    split at hstep
    swap
    · cases hstep
    rename_i thread worker hresume hrespond
    obtain rfl := Except.ok.inj hstep
    have hstreams := streams_worker h hcan hrespond
    refine ⟨h.client, h.lost, fun fd' ↦ ?_, ?_, ?_, samples_worker h hcan hrespond⟩
    · by_cases hfd : fd' = fd
      · rw [hfd]
        dsimp only
        rw [Function.update_self, Function.update_self]
        exact (h.workers fd).resume hresume hrespond
      · dsimp only
        rw [Function.update_of_ne hfd, Function.update_of_ne hfd]
        exact h.workers fd'
    · exact (Function.forall_update_iff s.workers fun fd (e : WorkerEnd) ↦
        e.inp <+: (s.client.ends fd).out).mpr ⟨hstreams.1, fun fd' _ ↦ h.requests fd'⟩
    · exact (Function.forall_update_iff s.workers fun fd (e : WorkerEnd) ↦
        (s.client.ends fd).inp <+: e.out).mpr ⟨hstreams.2, fun fd' _ ↦ h.replies fd'⟩
  | turn fd =>
    -- the turn that asked for this one left the connection between two commands
    rw [step] at hstep
    split at hstep
    · rename_i hthread
      obtain rfl := Except.ok.inj hstep
      have hturned := h.workers fd
      rw [hthread] at hturned
      exact ⟨h.client, h.lost, (Function.forall_update_iff s.threads fun fd (p : Worker Turn) ↦
        Safe WorkerEnd.respond WorkerEnd.Consistent Turned p (s.workers fd)).mpr
          ⟨safe_handleClient (hturned.2 rfl) maxSampleSize, fun fd' _ ↦ h.workers fd'⟩,
        h.requests, h.replies, h.samples⟩
    · cases hstep
  | produce data =>
    rw [step] at hstep
    split at hstep
    · cases hstep
    · obtain rfl := Except.ok.inj hstep
      exact ⟨h.client, h.lost, h.workers, h.requests, h.replies, h.samples.produce _⟩
  | taken =>
    obtain rfl := Except.ok.inj hstep
    exact ⟨h.client, h.lost, h.workers, h.requests, h.replies, h.samples.tail⟩

end Steps

/-! ## From the invariant to the promise -/

section Promise

variable {s : System}

theorem cut_answer_nil : Cut Short answer [] :=
  ⟨[], short_nil, List.nil_prefix, nofun⟩

/-- What the mutator has read of a connection: the answers to its finished requests, which are the
first ones that the worker gave, and a part of the next one. -/
theorem Coherent.received (h : Coherent s) (fd : ℕ) :
    ∃ candidates part, Reports (s.client.ends fd).fetched candidates ∧
      candidates <+: (s.workers fd).answers.map candidateOf ∧
      (s.client.ends fd).inp = frames answer candidates ++ part ∧
      part <+: frames answer
        ((((s.workers fd).answers.map candidateOf).drop candidates.length).take 1) := by
  obtain ⟨candidates, part, c, hcandidates, hshort, hpart, hinp, hreports⟩ :=
    (h.client.whole.intact fd).inp
  obtain ⟨served, hserved, hserveds, hout⟩ := (h.consistent fd).out
  have hpre : frames answer candidates ++ part <+: frames answer served ++ [] := by
    rw [← hinp, List.append_nil]
    exact (h.replies fd).trans hout
  obtain ⟨rest, rfl⟩ := isPrefixCode_answer.prefix_of_prefix_append hcandidates hserveds
    cut_answer_nil ((List.prefix_append _ _).trans hpre)
  refine ⟨candidates, part, hreports, (List.prefix_append _ _).trans hserved, hinp, ?_⟩
  rw [List.append_nil, frames_append, List.prefix_append_right_inj] at hpre
  obtain ⟨more, hmore⟩ := hserved
  rw [← hmore, List.append_assoc, List.drop_left]
  cases rest with
  | nil =>
    rw [List.prefix_nil.mp hpre]
    exact List.nil_prefix
  | cons next rest =>
    rw [frames_cons] at hpre
    rw [List.cons_append, List.take_succ_cons, List.take_zero, frames_cons, frames_nil,
      List.append_nil]
    exact isPrefixCode_answer.prefix_head hshort
      (hserveds next (List.mem_append_right _ List.mem_cons_self)) hpart hpre

theorem Coherent.toFramed (h : Coherent s) : Framed s where
  decoded fd := by
    obtain ⟨part, hcut, hout⟩ := (h.client.whole.intact fd).out
    refine Operation.isPrefixCode_encode.prefix_of_prefix_append (h.consistent fd).fits
      (h.client.whole.intact fd).fits hcut ?_
    rw [← hout]
    exact (h.consistent fd).inp.trans (h.requests fd)
  answered fd := (h.consistent fd).count
  numbered fd i f hf := by
    obtain ⟨_, _, hreports, -⟩ := h.received fd
    exact (hreports.2 i f hf).1
  candidate fd f hf dst hdst := by
    obtain ⟨candidates, _, hreports, ⟨more, hmore⟩, -⟩ := h.received fd
    obtain ⟨i, hi⟩ := List.getElem?_of_mem hf
    obtain ⟨hrequest, c, hc, hcandidate⟩ := hreports.2 i f hi
    have hi' : i < candidates.length := (List.getElem?_eq_some_iff.mp hc).1
    have hanswer : ((s.workers fd).answers.map candidateOf)[i]? = some c := by
      rw [← hmore, List.getElem?_append_left hi', hc]
    rw [List.getElem?_map, Option.map_eq_some_iff] at hanswer
    obtain ⟨sample, hsample, rfl⟩ := hanswer
    rw [hcandidate, taken] at hdst
    split at hdst
    · cases hdst
    rename_i hne
    rcases sample with _ | sample
    · exact absurd rfl hne
    · refine ⟨sample, by rw [hrequest, hsample], ?_⟩
      rw [← Option.some.inj hdst, candidateOf, Nat.min_comm]
      exact List.take_eq_take_min
  lost := h.lost
  once fd fd' i i' sample hsample hsample' :=
    h.samples.once fd fd' i i' sample sample hsample hsample' rfl
  aligned fd := by
    obtain ⟨candidates, part, hreports, hcandidates, hinp, hpart⟩ := h.received fd
    refine ⟨part, ?_, ?_⟩
    · rw [hinp, List.map_take, hreports.1, ← List.prefix_iff_eq_take.mp hcandidates]
    · rw [List.map_take, List.map_drop, hreports.1]
      exact hpart

end Promise

/-- **Framing.** In every state of every run the promise holds. -/
theorem framed (maxSampleSize : ℕ) (events : List Event) :
    Framed (replay (step maxSampleSize) (.initial maxSampleSize) events) :=
  (replay_invariant' (fun _ _ _ h hstep ↦ coherent_step h hstep) events
    (coherent_initial maxSampleSize)).toFramed

/-- A candidate of three bytes for a capacity of two; its answer arrives in pieces. -/
def exchange : List Event :=
  [.client .connect (some 0), .returns, .produce [1, 2, 3], .call (.fetch 2), .client .time (5 : ℕ),
    .client (.send 0 [71]) (.written 1 (by decide) (by decide)),
    .worker 0 .isSet false, .worker 0 (.recv 1) (.received [71] (by decide) (by decide)),
    .worker 0 .getNowait (some ⟨0, [1, 2, 3]⟩),
    .worker 0 (.send [0, 0, 0, 3]) (.written 4 (by decide) (by decide)),
    .client (.recv 0 4) (.received [0, 0] (by decide) (by decide)),
    .worker 0 (.send [1, 2, 3]) (.written 3 (by decide) (by decide)),
    .client (.recv 0 2) .wouldBlock,
    .client (.recv 0 2) (.received [0, 3] (by decide) (by decide)),
    .client (.recv 0 2) (.received [1, 2] (by decide) (by decide)),
    .client (.recv 0 1) (.received [3] (by decide) (by decide)), .returns]

example : ((replay (step 65535) (.initial 65535) exchange).client.ends 0).fetched =
    [⟨0, 2, some [1, 2]⟩] := by
  decide +kernel

end FuzzingCiCd.Mutator
