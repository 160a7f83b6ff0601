import FuzzingCiCd.Executor.FileIdempotencyGuard
import FuzzingCiCd.Foundation.ProcessLocks
import FuzzingCiCd.Foundation.Transition

/-!
# Runs of the idempotency guard in several processes

`FileIdempotencyGuard` once more, now with the locks of the file system under it: any number of
processes with any number of threads acquire claims on jobs, complete them, close them and crash.
For each execution of a job there are a lock file and a state file.

`acquire` opens a channel on the lock file for every request. When the request is answered as a
duplicate, and also after `release`, the channel is closed a little later; in between, other threads
may go on. Closing it can take the lock of the process away, so a claim of this process, which is
still open, loses its lock, and another process can acquire the same job.

A crash inside an operation is a crash before or after its write, since the state file is replaced
by an atomic move. Accesses whose files cannot be read or written are left out. `complete` does not
look whether its claim is closed; the handler completes a claim before it closes it.

## Main results

* `acquireFor_cases`: what a request can be answered with.
* `coherent_apply`: the invariant of a run whose claims are completed before they are closed.
* `lawful_run_iff`: in such a run every step keeps the promise exactly when every step meets the
  condition.
-/

namespace FuzzingCiCd.Executor

open Contracts Transition

namespace FileIdempotencyGuard

/-! ## Claims and files -/

/-- A claim that allows its holder to execute the job. -/
structure FileClaim where
  process : ℕ
  jobExecutionId : UUID
  closed : Bool
  /-- The process of the claim runs. -/
  alive : Bool
  /-- The status of the event that the claim was last completed with. -/
  last : Option ExecutionStatus
  deriving DecidableEq

def FileClaim.isOpen (claim : FileClaim) : Bool := claim.alive && !claim.closed

/-- The directory of the guard, the locks on its files and the claims, numbered as they were
given. -/
structure Guards where
  locks : ProcessLocks UUID ℕ
  states : UUID → Option IdempotencyState
  claims : ℕ → Option FileClaim
  next : ℕ

def Guards.initial : Guards := ⟨.initial, fun _ ↦ none, fun _ ↦ none, 0⟩

/-- The state file records a result that need not be repeated. -/
def Guards.Completed (s : Guards) (id : UUID) : Prop :=
  ∃ state ∈ s.states id, isDuplicateCompleted state.status = true

/-- An open claim on a job. -/
def Guards.Claims (s : Guards) (n process : ℕ) (id : UUID) : Prop :=
  ∃ c ∈ s.claims n, c.isOpen = true ∧ c.process = process ∧ c.jobExecutionId = id

/-! ## Steps -/

inductive GuardStep where
  | acquire (process : ℕ) (job : JobMessage) (now : Instant)
  | complete (n : ℕ) (event : ExecutorEventMessage) (now : Instant)
  | close (n : ℕ)
  /-- A process closes a channel on a lock file, and the system releases its lock with it or not. -/
  | closeChannel (process : ℕ) (id : UUID) (drops : Bool)
  | crash (process : ℕ)

section Steps

variable (s : Guards)

/-- `acquire` for a job with an id. -/
def acquireFor (process : ℕ) (id : UUID) (job : JobMessage) (now : Instant) :
    IdempotencyDecision × Guards :=
  match s.locks.tryLock process id with
  | .granted =>
    let (decision, files) := acquireLocked job s.next now ⟨none, s.states id⟩
    if decision.shouldExecute then
      (decision,
        { locks := s.locks.lock process id
          states := Function.update s.states id files.state
          claims := Function.update s.claims s.next (some ⟨process, id, false, true, none⟩)
          next := s.next + 1 })
    else (decision, { s with locks := (s.locks.lock process id).release process id })
  | _ =>
    (.duplicateRunning ((s.states id).map IdempotencyState.updatedAt),
      { s with locks := s.locks.leave process id })

/-- `complete`. -/
def completeClaim (n : ℕ) (event : ExecutorEventMessage) (now : Instant) : Guards :=
  match s.claims n with
  | none => s
  | some claim =>
    if claim.alive then
      { s with
        states := Function.update s.states claim.jobExecutionId (some (.completed event now))
        claims := Function.update s.claims n (some { claim with last := some event.status }) }
    else s

/-- `close`; a claim that is closed already stays as it is. -/
def closeClaim (n : ℕ) : Guards :=
  match s.claims n with
  | none => s
  | some claim =>
    if claim.isOpen then
      { s with
        locks := s.locks.release claim.process claim.jobExecutionId
        claims := Function.update s.claims n (some { claim with closed := true }) }
    else s

/-- A process ends, and its claims and locks with it. -/
def crash (process : ℕ) : Guards :=
  { s with
    locks := s.locks.exit process
    claims := fun n ↦ (s.claims n).map fun claim ↦
      if claim.process = process then { claim with alive := false } else claim }

def guardStep : GuardStep → Guards → Except Empty Guards
  | .acquire process job now, s =>
    match job.jobExecutionId with
    | none => .ok s
    | some id => .ok (acquireFor s process id job now).2
  | .complete n event now, s => .ok (completeClaim s n event now)
  | .close n, s => .ok (closeClaim s n)
  | .closeChannel process id drops, s =>
    .ok { s with locks := s.locks.closeChannel process id drops }
  | .crash process, s => .ok (crash s process)

end Steps

/-! ## What the guard promises -/

/-- At most one claim is open for each job. -/
def Exclusive (s : Guards) : Prop :=
  ∀ m n process process' id, s.Claims m process id → s.Claims n process' id → m = n

/-- The claim was closed after it was completed with a success. -/
def FileClaim.Settled (claim : FileClaim) : Prop :=
  claim.closed = true ∧ ∃ status ∈ claim.last, isDuplicateCompleted status = true

/-- **The promise.** After the step at most one claim is open for each job, a request that is
allowed to execute finds no settled claim, and a duplicate does not touch the state files. -/
structure Lawful (s : Guards) (step : GuardStep) : Prop where
  exclusive : Exclusive (apply guardStep s step)
  once : ∀ process job now id, step = .acquire process job now → job.jobExecutionId = some id →
    (acquireFor s process id job now).1.shouldExecute = true →
    ∀ n, ∀ claim ∈ s.claims n, claim.Settled → claim.jobExecutionId ≠ id
  untouched : ∀ process job now id, step = .acquire process job now →
    job.jobExecutionId = some id → (acquireFor s process id job now).1.shouldExecute = false →
    (acquireFor s process id job now).2.states = s.states

/-- **The condition.** Where a process acquires a job, every open claim of another process still
has its lock, or the job is completed. -/
def Guarded (s : Guards) (step : GuardStep) : Prop :=
  ∀ process job now id, step = .acquire process job now → job.jobExecutionId = some id →
    ∀ n other, s.Claims n other id → other ≠ process →
      s.locks.holder id = some other ∨ s.Completed id

/-- A claim is completed while it is open. -/
def Timely (s : Guards) (step : GuardStep) : Prop :=
  ∀ n event now, step = .complete n event now → ∀ claim ∈ s.claims n, claim.isOpen = true

theorem timely_of_ne {s : Guards} {step : GuardStep}
    (h : ∀ n event now, step ≠ .complete n event now) : Timely s step :=
  fun n event now heq ↦ absurd heq (h n event now)

/-! ## Requests -/

section Requests

variable {s : Guards} {process : ℕ} {id : UUID} {job : JobMessage} {now : Instant}

/-- The part of `acquire` behind the lock starts a job that is not completed, and answers for a
completed one. -/
theorem acquireLocked_cases (s : Guards) (id : UUID) (job : JobMessage) (now : Instant) :
    (s.Completed id ∧ (acquireLocked job s.next now ⟨none, s.states id⟩).1.shouldExecute = false) ∨
    (¬ s.Completed id ∧ acquireLocked job s.next now ⟨none, s.states id⟩ =
      (.started, ⟨some s.next, some (.running job now)⟩)) := by
  rw [Guards.Completed, acquireLocked]
  rcases hstate : s.states id with _ | state
  · exact Or.inr ⟨by simp, rfl⟩
  dsimp only
  by_cases hcompleted : isDuplicateCompleted state.status = true
  · rw [if_pos hcompleted]
    exact Or.inl ⟨⟨state, rfl, hcompleted⟩, rfl⟩
  · rw [if_neg hcompleted]
    refine Or.inr ⟨?_, rfl⟩
    rintro ⟨other, hother, hcompleted'⟩
    rw [← Option.some.inj hother] at hcompleted'
    exact hcompleted hcompleted'

/-- The guards after a request that is allowed to execute. -/
def Guards.started (s : Guards) (process : ℕ) (id : UUID) (job : JobMessage) (now : Instant) :
    Guards where
  locks := s.locks.lock process id
  states := Function.update s.states id (some (.running job now))
  claims := Function.update s.claims s.next (some ⟨process, id, false, true, none⟩)
  next := s.next + 1

/-- **Requests.** A request is a duplicate, without or with a lock that it gives back, or it is
started. -/
theorem acquireFor_cases (s : Guards) (process : ℕ) (id : UUID) (job : JobMessage) (now : Instant) :
    ((acquireFor s process id job now).1.shouldExecute = false ∧
      (s.locks.tryLock process id ≠ .granted ∧
        (acquireFor s process id job now).2 = { s with locks := s.locks.leave process id } ∨
      s.locks.tryLock process id = .granted ∧ s.Completed id ∧
        (acquireFor s process id job now).2 =
          { s with locks := (s.locks.lock process id).release process id })) ∨
    ((acquireFor s process id job now).1.shouldExecute = true ∧
      s.locks.tryLock process id = .granted ∧ ¬ s.Completed id ∧
      (acquireFor s process id job now).2 = s.started process id job now) := by
  rw [acquireFor]
  rcases hlock : s.locks.tryLock process id with _ | _ | _
  · dsimp only
    rcases acquireLocked_cases s id job now with ⟨hcompleted, hanswer⟩ | ⟨hcompleted, hanswer⟩
    · rw [if_neg (by rw [hanswer]; exact Bool.false_ne_true)]
      exact Or.inl ⟨hanswer, Or.inr ⟨rfl, hcompleted, rfl⟩⟩
    · rw [hanswer]
      exact Or.inr ⟨rfl, rfl, hcompleted, rfl⟩
  · exact Or.inl ⟨rfl, Or.inl ⟨nofun, rfl⟩⟩
  · exact Or.inl ⟨rfl, Or.inl ⟨nofun, rfl⟩⟩

end Requests

/-! ## The invariant

The valid locks are those of the open claims, a job has at most one of them, and a settled job is
completed and has none. A job that is granted to nobody's loss has no open claim, so that an
acquisition keeps this. -/

/-- What holds in every state of a lawful run. -/
structure Coherent (s : Guards) : Prop where
  fresh : ∀ n, s.next ≤ n → s.claims n = none
  backed : s.locks.Backed
  /-- The valid locks are those of the open claims. -/
  known : ∀ process id, (process, id) ∈ s.locks.valid ↔ ∃ n, s.Claims n process id
  exclusive : Exclusive s
  /-- The state file says what the open claim was last completed with. -/
  written : ∀ n, ∀ claim ∈ s.claims n, claim.isOpen = true → ∀ status ∈ claim.last,
    ∃ state ∈ s.states claim.jobExecutionId, state.status = status
  /-- A settled job is completed, and nobody has a claim on it. -/
  settled : ∀ n, ∀ claim ∈ s.claims n, claim.Settled →
    s.Completed claim.jobExecutionId ∧ ∀ m process, ¬ s.Claims m process claim.jobExecutionId

theorem coherent_initial : Coherent .initial where
  fresh _ _ := rfl
  backed := ProcessLocks.backed_initial
  known _ _ := iff_of_false List.not_mem_nil fun ⟨_, _, h, _⟩ ↦ by cases h
  exclusive _ _ _ _ _ h := by obtain ⟨_, h, -⟩ := h; cases h
  written _ _ h := by cases h
  settled _ _ h := by cases h

section Invariant

variable {s : Guards} {process : ℕ} {id : UUID} {job : JobMessage} {now : Instant}

/-- A job that is granted to nobody's loss has no open claim. -/
theorem not_claims_of_granted (h : Coherent s) (hgranted : s.locks.tryLock process id = .granted)
    (hcompleted : ¬ s.Completed id)
    (hguarded : ∀ n other, s.Claims n other id → other ≠ process →
      s.locks.holder id = some other ∨ s.Completed id) (n other : ℕ) : ¬ s.Claims n other id := by
  intro hclaim
  have hvalid : (other, id) ∈ s.locks.valid := (h.known other id).mpr ⟨n, hclaim⟩
  have hholder : s.locks.holder id ≠ some other :=
    ProcessLocks.not_held_of_granted hgranted hvalid
  by_cases hother : other = process
  · rw [hother] at hvalid
    exact (ProcessLocks.tryLock_eq_granted.mp hgranted).1 hvalid
  · exact (hguarded n other hclaim hother).elim hholder hcompleted

theorem mem_update {claims : ℕ → Option FileClaim} {n m : ℕ} {claim claim' : FileClaim} :
    claim ∈ Function.update claims n (some claim') m ↔
      (m = n ∧ claim = claim') ∨ (m ≠ n ∧ claim ∈ claims m) := by
  by_cases hm : m = n
  · rw [hm, Function.update_self]
    simp [eq_comm]
  · rw [Function.update_of_ne hm]
    simp [hm]

theorem claims_started (h : Coherent s) (n other : ℕ) (other' : UUID) :
    (s.started process id job now).Claims n other other' ↔
      s.Claims n other other' ∨ (n = s.next ∧ other = process ∧ other' = id) := by
  constructor
  · rintro ⟨claim, hclaim, hopen, hprocess, hid⟩
    rcases mem_update.mp hclaim with ⟨hn, rfl⟩ | ⟨-, hold⟩
    · exact Or.inr ⟨hn, hprocess.symm, hid.symm⟩
    · exact Or.inl ⟨claim, hold, hopen, hprocess, hid⟩
  · rintro (⟨claim, hclaim, hopen⟩ | ⟨hn, rfl, rfl⟩)
    · have hn : n ≠ s.next := by
        rintro rfl
        rw [h.fresh s.next (Nat.le_refl _)] at hclaim
        cases hclaim
      exact ⟨claim, mem_update.mpr (Or.inr ⟨hn, hclaim⟩), hopen⟩
    · exact ⟨_, mem_update.mpr (Or.inl ⟨hn, rfl⟩), rfl, rfl, rfl⟩

theorem exclusive_started (h : Coherent s) (hfree : ∀ n other, ¬ s.Claims n other id) :
    Exclusive (s.started process id job now) := by
  intro m n p q i hm hn
  rw [claims_started h] at hm hn
  rcases hm with hm | ⟨rfl, rfl, rfl⟩
  · rcases hn with hn | ⟨rfl, rfl, rfl⟩
    · exact h.exclusive m n p q i hm hn
    · exact absurd hm (hfree m p)
  · rcases hn with hn | ⟨rfl, rfl, -⟩
    · exact absurd hn (hfree n q)
    · rfl

theorem coherent_started (h : Coherent s) (hcompleted : ¬ s.Completed id)
    (hfree : ∀ n other, ¬ s.Claims n other id) : Coherent (s.started process id job now) where
  fresh n hn := by
    have hne : n ≠ s.next := by
      have : s.next + 1 ≤ n := hn
      omega
    rw [Guards.started]
    dsimp only
    rw [Function.update_of_ne hne]
    exact h.fresh n (by have : s.next + 1 ≤ n := hn; omega)
  backed := h.backed.lock
  known q i := by
    have hvalid : (q, i) ∈ (s.started process id job now).locks.valid ↔
        (q, i) = (process, id) ∨ (q, i) ∈ s.locks.valid := List.mem_cons
    rw [hvalid, h.known, Prod.mk.injEq]
    simp only [claims_started h]
    constructor
    · rintro (⟨rfl, rfl⟩ | ⟨n, hn⟩)
      · exact ⟨s.next, Or.inr ⟨rfl, rfl, rfl⟩⟩
      · exact ⟨n, Or.inl hn⟩
    · rintro ⟨n, hn | ⟨-, hq, hi⟩⟩
      · exact Or.inr ⟨n, hn⟩
      · exact Or.inl ⟨hq, hi⟩
  exclusive := exclusive_started h hfree
  written n claim hclaim hopen status hstatus := by
    rcases mem_update.mp hclaim with ⟨-, rfl⟩ | ⟨-, hold⟩
    · cases hstatus
    -- Another open claim is one on another job.
    have hid : claim.jobExecutionId ≠ id := fun hid ↦
      hfree n claim.process ⟨claim, hold, hopen, rfl, hid⟩
    rw [Guards.started]
    dsimp only
    rw [Function.update_of_ne hid]
    exact h.written n claim hold hopen status hstatus
  settled n claim hclaim hsettled := by
    rcases mem_update.mp hclaim with ⟨-, rfl⟩ | ⟨-, hold⟩
    · cases hsettled.1
    obtain ⟨hdone, hnone⟩ := h.settled n claim hold hsettled
    have hid : claim.jobExecutionId ≠ id := by
      intro hid
      rw [hid] at hdone
      exact hcompleted hdone
    refine ⟨?_, fun m q hclaims ↦ ?_⟩
    · rw [Guards.Completed, Guards.started]
      dsimp only
      rw [Function.update_of_ne hid]
      exact hdone
    · rcases (claims_started h m q _).mp hclaims with hclaims | ⟨-, -, hid'⟩
      · exact hnone m q hclaims
      · exact hid hid'

theorem Coherent.locks (h : Coherent s) {locks : ProcessLocks UUID ℕ} (hbacked : locks.Backed)
    (hvalid : ∀ q i, (q, i) ∈ locks.valid ↔ (q, i) ∈ s.locks.valid) :
    Coherent { s with locks := locks } where
  fresh := h.fresh
  backed := hbacked
  known q i := (hvalid q i).trans (h.known q i)
  exclusive := h.exclusive
  written := h.written
  settled := h.settled

theorem coherent_acquireFor (h : Coherent s)
    (hguarded : ∀ n other, s.Claims n other id → other ≠ process →
      s.locks.holder id = some other ∨ s.Completed id) :
    Coherent (acquireFor s process id job now).2 := by
  rcases acquireFor_cases s process id job now with
    ⟨-, ⟨-, heq⟩ | ⟨hgranted, -, heq⟩⟩ | ⟨-, hgranted, hcompleted, heq⟩
  · rw [heq]
    exact h.locks h.backed fun _ _ ↦ Iff.rfl
  · rw [heq]
    refine h.locks h.backed.lock.release fun q i ↦ ?_
    rw [ProcessLocks.mem_valid_release]
    have hfree := (ProcessLocks.tryLock_eq_granted.mp hgranted).1
    constructor
    · rintro ⟨hmem, hne⟩
      exact (List.mem_cons.mp hmem).resolve_left hne
    · intro hmem
      refine ⟨List.mem_cons_of_mem _ hmem, ?_⟩
      rintro heq
      rw [heq] at hmem
      exact hfree hmem
  · rw [heq]
    exact coherent_started h hcompleted
      (not_claims_of_granted h hgranted hcompleted hguarded)

/-! ## Claims

Completing and closing a claim change one claim and the files of its job. The claim that is
closed gives up the only valid lock of its job, so that afterwards nobody holds it; a second
closing finds nothing to do. -/

theorem claims_update {n : ℕ} {claim claim' : FileClaim} {locks : ProcessLocks UUID ℕ}
    {states : UUID → Option IdempotencyState} (hclaim : s.claims n = some claim)
    (hprocess : claim'.process = claim.process) (hid : claim'.jobExecutionId = claim.jobExecutionId)
    (hopen : claim.isOpen = true) (m q : ℕ) (i : UUID) :
    Guards.Claims ⟨locks, states, Function.update s.claims n (some claim'), s.next⟩ m q i ↔
      s.Claims m q i ∧ (m = n → claim'.isOpen = true) := by
  constructor
  · rintro ⟨_, hmem, hopen', hq, hi⟩
    rcases mem_update.mp hmem with ⟨rfl, rfl⟩ | ⟨hne, hmem⟩
    · exact ⟨⟨claim, hclaim, hopen, hprocess ▸ hq, hid ▸ hi⟩, fun _ ↦ hopen'⟩
    · exact ⟨⟨_, hmem, hopen', hq, hi⟩, fun heq ↦ absurd heq hne⟩
  · rintro ⟨⟨_, hmem, hopen', hq, hi⟩, hopen''⟩
    by_cases hm : m = n
    · obtain rfl := hm
      obtain rfl := Option.some.inj (hclaim.symm.trans hmem)
      exact ⟨claim', mem_update.mpr (Or.inl ⟨rfl, rfl⟩), hopen'' rfl, hprocess.trans hq,
        hid.trans hi⟩
    · exact ⟨_, mem_update.mpr (Or.inr ⟨hm, hmem⟩), hopen', hq, hi⟩

theorem fresh_update {n : ℕ} {claim claim' : FileClaim} (h : Coherent s)
    (hclaim : s.claims n = some claim) (m : ℕ) (hm : s.next ≤ m) :
    Function.update s.claims n (some claim') m = none := by
  have hne : m ≠ n := by
    rintro rfl
    rw [h.fresh m hm] at hclaim
    cases hclaim
  rw [Function.update_of_ne hne]
  exact h.fresh m hm

theorem coherent_complete {n : ℕ} {claim : FileClaim} {event : ExecutorEventMessage}
    (h : Coherent s) (hclaim : s.claims n = some claim) (hopen : claim.isOpen = true) :
    Coherent (completeClaim s n event now) := by
  have halive : claim.alive = true := (Bool.and_eq_true_iff.mp hopen).1
  have hn : s.Claims n claim.process claim.jobExecutionId := ⟨claim, hclaim, hopen, rfl, rfl⟩
  rw [completeClaim, hclaim]
  dsimp only
  rw [if_pos halive]
  have hclaims := fun m q i ↦ (@claims_update s _ _ { claim with last := some event.status } s.locks
    (Function.update s.states claim.jobExecutionId (some (.completed event now))) hclaim rfl rfl
      hopen m q i).trans
      (and_iff_left fun _ ↦ hopen)
  constructor
  · exact fresh_update h hclaim
  · exact h.backed
  · intro q i
    simp only [hclaims]
    exact h.known q i
  · intro m m' q q' i hm hm'
    exact h.exclusive m m' q q' i ((hclaims m q i).mp hm) ((hclaims m' q' i).mp hm')
  · intro m other hother hopen' status hstatus
    dsimp only
    rcases mem_update.mp hother with ⟨rfl, rfl⟩ | ⟨hm, hold⟩
    · rw [Function.update_self]
      exact ⟨_, rfl, Option.some.inj hstatus⟩
    · have hid : other.jobExecutionId ≠ claim.jobExecutionId := fun hid ↦
        hm (h.exclusive m n other.process claim.process _ ⟨other, hold, hopen', rfl, hid⟩ hn)
      rw [Function.update_of_ne hid]
      exact h.written m other hold hopen' status hstatus
  · intro m other hother hsettled
    rcases mem_update.mp hother with ⟨rfl, rfl⟩ | ⟨-, hold⟩
    · -- An open claim is not settled.
      rw [FileClaim.isOpen, show claim.closed = true from hsettled.1] at hopen
      simp at hopen
    · obtain ⟨hdone, hnone⟩ := h.settled m other hold hsettled
      have hid : other.jobExecutionId ≠ claim.jobExecutionId := by
        intro hid
        rw [hid] at hnone
        exact hnone n _ hn
      refine ⟨?_, fun k q hk ↦ hnone k q ((hclaims k q _).mp hk)⟩
      rw [Guards.Completed]
      dsimp only
      rw [Function.update_of_ne hid]
      exact hdone

theorem coherent_close {n : ℕ} (h : Coherent s) : Coherent (closeClaim s n) := by
  rw [closeClaim]
  rcases hclaim : s.claims n with _ | claim
  · exact h
  dsimp only
  by_cases hopen : claim.isOpen = true
  swap
  · rw [if_neg hopen]
    exact h
  rw [if_pos hopen]
  have hn : s.Claims n claim.process claim.jobExecutionId := ⟨claim, hclaim, hopen, rfl, rfl⟩
  have hclosed : ¬ { claim with closed := true }.isOpen = true := by simp [FileClaim.isOpen]
  have hclaims := fun m q i ↦ (@claims_update s _ _ { claim with closed := true }
    (s.locks.release claim.process claim.jobExecutionId) s.states hclaim rfl rfl hopen m q i).trans
      (and_congr_right fun _ ↦ (forall_congr' fun _ ↦ iff_false_intro hclosed))
  constructor
  · exact fresh_update h hclaim
  · exact h.backed.release
  · intro q i
    simp only [hclaims, ProcessLocks.mem_valid_release, h.known q i]
    constructor
    · rintro ⟨⟨m, hm⟩, hne⟩
      refine ⟨m, hm, ?_⟩
      rintro rfl
      obtain ⟨other, hother, -, rfl, rfl⟩ := hm
      obtain rfl := Option.some.inj (hclaim.symm.trans hother)
      exact hne rfl
    · rintro ⟨m, hm, hne⟩
      refine ⟨⟨m, hm⟩, ?_⟩
      rintro heq
      obtain ⟨rfl, rfl⟩ := Prod.mk.inj heq
      exact hne (h.exclusive m n _ _ _ hm hn)
  · intro m m' q q' i hm hm'
    exact h.exclusive m m' q q' i ((hclaims m q i).mp hm).1 ((hclaims m' q' i).mp hm').1
  · intro m other hother hopen' status hstatus
    rcases mem_update.mp hother with ⟨rfl, rfl⟩ | ⟨-, hold⟩
    · exact absurd hopen' hclosed
    · exact h.written m other hold hopen' status hstatus
  · intro m other hother hsettled
    rcases mem_update.mp hother with ⟨rfl, rfl⟩ | ⟨-, hold⟩
    · -- The claim is settled by its closing: the state file has its last status.
      obtain ⟨-, status, hstatus, hcompleted⟩ := hsettled
      obtain ⟨state, hstate, heq⟩ := h.written m claim hclaim hopen status hstatus
      refine ⟨⟨state, hstate, heq ▸ hcompleted⟩, fun k q hk ↦ ?_⟩
      obtain ⟨hold, hne⟩ := (hclaims k q _).mp hk
      exact hne (h.exclusive k m _ _ _ hold hn)
    · obtain ⟨hdone, hnone⟩ := h.settled m other hold hsettled
      exact ⟨hdone, fun k q hk ↦ hnone k q ((hclaims k q _).mp hk).1⟩

/-! ## Crashes -/

theorem claims_crash (s : Guards) (process m q : ℕ) (i : UUID) :
    (crash s process).Claims m q i ↔ s.Claims m q i ∧ q ≠ process := by
  constructor
  · rintro ⟨other, hother, hopen, rfl, rfl⟩
    obtain ⟨claim, hclaim, rfl⟩ := Option.map_eq_some_iff.mp hother
    by_cases hprocess : claim.process = process
    · rw [if_pos hprocess] at hopen
      simp [FileClaim.isOpen] at hopen
    · rw [if_neg hprocess] at hopen ⊢
      exact ⟨⟨claim, hclaim, hopen, rfl, rfl⟩, hprocess⟩
  · rintro ⟨⟨claim, hclaim, hopen, rfl, rfl⟩, hprocess⟩
    refine ⟨claim, Option.map_eq_some_iff.mpr ⟨claim, hclaim, ?_⟩, hopen, rfl, rfl⟩
    rw [if_neg hprocess]

theorem coherent_crash (h : Coherent s) : Coherent (crash s process) := by
  constructor
  · intro n hn
    rw [crash]
    dsimp only
    rw [h.fresh n hn]
    rfl
  · exact h.backed.exit
  · intro q i
    simp only [claims_crash]
    rw [crash, ProcessLocks.mem_valid_exit, h.known q i]
    exact exists_and_right.symm
  · intro m m' q q' i hm hm'
    exact h.exclusive m m' q q' i ((claims_crash s process m q i).mp hm).1
      ((claims_crash s process m' q' i).mp hm').1
  · intro m other hother hopen status hstatus
    obtain ⟨claim, hclaim, rfl⟩ := Option.map_eq_some_iff.mp hother
    by_cases hprocess : claim.process = process
    · rw [if_pos hprocess] at hopen
      simp [FileClaim.isOpen] at hopen
    · rw [if_neg hprocess] at hopen hstatus ⊢
      exact h.written m claim hclaim hopen status hstatus
  · intro m other hother hsettled
    obtain ⟨claim, hclaim, rfl⟩ := Option.map_eq_some_iff.mp hother
    have hold : claim.Settled := by
      by_cases hprocess : claim.process = process
      · rw [if_pos hprocess] at hsettled
        exact hsettled
      · rw [if_neg hprocess] at hsettled
        exact hsettled
    obtain ⟨hdone, hnone⟩ := h.settled m claim hclaim hold
    rw [apply_ite FileClaim.jobExecutionId, ite_self]
    exact ⟨hdone, fun k q hk ↦ hnone k q ((claims_crash s process k q _).mp hk).1⟩

end Invariant

/-! ## The condition of a step -/

section Steps

variable {s : Guards} {step : GuardStep}

theorem apply_acquire {process : ℕ} {job : JobMessage} {now : Instant} {id : UUID}
    (hid : job.jobExecutionId = some id) :
    apply guardStep s (.acquire process job now) = (acquireFor s process id job now).2 := by
  rw [apply, guardStep, hid]

/-- **Preservation.** A guarded step whose claim, if it completes one, is open keeps the
invariant. -/
theorem coherent_apply (h : Coherent s) (hguarded : Guarded s step) (htimely : Timely s step) :
    Coherent (apply guardStep s step) := by
  cases step with
  | acquire process job now =>
    rcases hid : job.jobExecutionId with _ | id
    · rw [apply, guardStep, hid]
      exact h
    · rw [apply_acquire hid]
      exact coherent_acquireFor h (hguarded process job now id rfl hid)
  | complete n event now =>
    rcases hclaim : s.claims n with _ | claim
    · rw [apply, guardStep, completeClaim, hclaim]
      exact h
    · exact coherent_complete h hclaim (htimely n event now rfl claim hclaim)
  | close n => exact coherent_close h
  | closeChannel process id drops =>
    refine h.locks (h.backed.closeChannel drops) fun q i ↦ ?_
    rw [ProcessLocks.valid_closeChannel]
  | crash process => exact coherent_crash h

/-- A request for a job with an open claim of another process whose lock is lost succeeds, and then
two claims are open. -/
theorem not_exclusive_of_lost (h : Coherent s) {process : ℕ} {job : JobMessage} {now : Instant}
    {id : UUID} {n other : ℕ} (hclaim : s.Claims n other id) (hother : other ≠ process)
    (hlost : s.locks.holder id ≠ some other) (hcompleted : ¬ s.Completed id) :
    ¬ Exclusive (acquireFor s process id job now).2 := by
  have honly : ∀ q, (q, id) ∈ s.locks.valid → q = other := by
    intro q hq
    obtain ⟨m, hm⟩ := (h.known q id).mp hq
    obtain rfl := h.exclusive m n q other id hm hclaim
    obtain ⟨claim, hmem, -, hq, -⟩ := hm
    obtain ⟨claim', hmem', -, hother, -⟩ := hclaim
    obtain rfl := Option.some.inj (hmem.symm.trans hmem')
    exact hq.symm.trans hother
  have hgranted : s.locks.tryLock process id = .granted := by
    refine ProcessLocks.granted_of_lost h.backed ?_ fun hvalid ↦ hother (honly process hvalid).symm
    intro q hq
    rw [honly q hq]
    exact hlost
  rcases acquireFor_cases s process id job now with
    ⟨-, ⟨hrefused, -⟩ | ⟨-, hdone, -⟩⟩ | ⟨-, -, -, heq⟩
  · exact absurd hgranted hrefused
  · exact absurd hdone hcompleted
  · rw [heq]
    intro hexclusive
    have hn := hexclusive n s.next other process id
      ((claims_started h n other id).mpr (Or.inl hclaim))
      ((claims_started h s.next process id).mpr (Or.inr ⟨rfl, rfl, rfl⟩))
    obtain ⟨claim, hmem, -⟩ := hclaim
    rw [hn, h.fresh s.next (Nat.le_refl _)] at hmem
    cases hmem

/-- In a coherent state the guard keeps its promise exactly where the condition holds. -/
theorem lawful_iff (h : Coherent s) (htimely : Timely s step) :
    Lawful s step ↔ Guarded s step := by
  constructor
  · rintro hlawful process job now id rfl hid n other hclaim hother
    by_contra hlost
    rw [not_or] at hlost
    have hexclusive := hlawful.exclusive
    rw [apply_acquire hid] at hexclusive
    exact not_exclusive_of_lost h hclaim hother hlost.1 hlost.2 hexclusive
  · intro hguarded
    refine ⟨(coherent_apply h hguarded htimely).exclusive, ?_, ?_⟩
    · rintro process job now id - - hexecute n claim hclaim hsettled rfl
      rcases acquireFor_cases s process claim.jobExecutionId job now with
        ⟨hduplicate, -⟩ | ⟨-, -, hcompleted, -⟩
      · rw [hexecute] at hduplicate
        cases hduplicate
      · exact hcompleted (h.settled n claim hclaim hsettled).1
    · rintro process job now id - - hduplicate
      rcases acquireFor_cases s process id job now with
        ⟨-, ⟨-, heq⟩ | ⟨-, -, heq⟩⟩ | ⟨hexecute, -⟩
      · rw [heq]
      · rw [heq]
      · rw [hexecute] at hduplicate
        cases hduplicate

end Steps

/-! ## Locks that survive -/

/-- The system does not release a lock with another channel of its process. -/
def Kept (_ : Guards) (step : GuardStep) : Prop :=
  ∀ process id, step ≠ .closeChannel process id true

theorem held_apply {s : Guards} {step : GuardStep} (h : s.locks.Held) (hkept : Kept s step) :
    (apply guardStep s step).locks.Held := by
  cases step with
  | acquire process job now =>
    rcases hid : job.jobExecutionId with _ | id
    · rw [apply, guardStep, hid]
      exact h
    · rw [apply_acquire hid]
      rcases acquireFor_cases s process id job now with
        ⟨-, ⟨-, heq⟩ | ⟨hgranted, -, heq⟩⟩ | ⟨-, hgranted, -, heq⟩
      · rw [heq]
        exact h
      · rw [heq]
        exact (h.lock hgranted).release
      · rw [heq]
        exact h.lock hgranted
  | complete n event now =>
    rw [apply, guardStep, completeClaim]
    dsimp only
    split
    · exact h
    · split
      · exact h
      · exact h
  | close n =>
    rw [apply, guardStep, closeClaim]
    dsimp only
    split
    · exact h
    · split
      · exact h.release
      · exact h
  | closeChannel process id drops =>
    cases drops with
    | true => exact absurd rfl (hkept process id)
    | false => exact h.closeChannel
  | crash process => exact h.exit

/-- A run with locks that only their own channels release meets the condition. -/
theorem guarded_of_kept {s : Guards} {steps : List GuardStep} (h : Coherent s)
    (hheld : s.locks.Held) (htimely : Along guardStep Timely s steps)
    (hkept : Along guardStep Kept s steps) : Along guardStep Guarded s steps := by
  induction steps generalizing s with
  | nil => trivial
  | cons step steps ih =>
    have hguarded : Guarded s step := fun process job now id _ _ n other hclaim _ ↦
      Or.inl (hheld other id ((h.known other id).mpr ⟨n, hclaim⟩))
    exact ⟨hguarded, ih (coherent_apply h hguarded htimely.1) (held_apply hheld hkept.1)
      htimely.2 hkept.2⟩

/-! ## Runs -/

/-- **Mutual exclusion.** In a run whose claims are completed before they are closed, every step
keeps the promise exactly when every step meets the condition. -/
theorem lawful_run_iff (steps : List GuardStep) (htimely : Along guardStep Timely .initial steps) :
    Along guardStep Lawful .initial steps ↔ Along guardStep Guarded .initial steps :=
  along_congr (fun _ _ ↦ coherent_apply) (fun _ _ ↦ lawful_iff) coherent_initial htimely

/-! ## A duplicate in the same process -/

namespace Small

def finished : ExecutorEventMessage where
  schemaVersion := 1
  messageId := 7
  correlationId := none
  pipelineRunId := some 3
  pipelineId := some 4
  stageId := some 5
  jobId := some 6
  jobExecutionId := some 2
  jobType := some .build
  templatePath := some "build/custom"
  eventType := .jobFinished
  status := .success
  attempt := 1
  workerId := "worker-1"
  durationMs := none
  artifacts := []
  metrics := []
  summary := none
  error := none
  logs := none
  additionalData := []

/-- Another thread of the first process gets the job once more and closes its channel. -/
def redelivered : List GuardStep :=
  [.acquire 1 Small.job 0, .acquire 1 Small.job 1, .closeChannel 1 2 true,
    .acquire 2 Small.job 2]

/-- The channel is closed without a loss, and the job completed. -/
def served : List GuardStep :=
  [.acquire 1 Small.job 0, .acquire 1 Small.job 1, .closeChannel 1 2 false, .acquire 2 Small.job 2,
    .complete 0 finished 3, .close 0, .acquire 2 Small.job 4]

end Small

theorem lawful_served : Along guardStep Lawful .initial Small.served := by
  have htimely : Along guardStep Timely .initial Small.served := by
    rw [Small.served]
    simp only [Along, and_true]
    refine ⟨timely_of_ne ?_, timely_of_ne ?_, timely_of_ne ?_, timely_of_ne ?_, ?_,
      timely_of_ne ?_, timely_of_ne ?_⟩
    rotate_left 4
    · rintro n event now heq claim hclaim
      have hfirst : (replay guardStep .initial (Small.served.take 4)).claims 0 =
          some ⟨1, 2, false, true, none⟩ := by decide +kernel
      cases heq
      rw [Small.served, List.take_succ_cons, List.take_succ_cons, List.take_succ_cons,
        List.take_succ_cons, List.take_zero] at hfirst
      simp only [replay_cons, replay_nil] at hfirst
      rw [Option.some.inj (hclaim.symm.trans hfirst), FileClaim.isOpen]
      decide
    all_goals
      rintro n event now heq
      cases heq
  refine (lawful_run_iff Small.served htimely).mpr
    (guarded_of_kept coherent_initial ProcessLocks.held_initial htimely ?_)
  rw [Small.served]
  simp only [Along, and_true]
  refine ⟨?_, ?_, ?_, ?_, ?_, ?_, ?_⟩
  all_goals
    rintro process id heq
    cases heq

/-- Both processes have an open claim on the job. -/
theorem not_lawful_redelivered :
    Along guardStep Timely .initial Small.redelivered ∧
      ¬ Along guardStep Lawful .initial Small.redelivered := by
  constructor
  · rw [Small.redelivered]
    simp only [Along, and_true]
    refine ⟨timely_of_ne ?_, timely_of_ne ?_, timely_of_ne ?_, timely_of_ne ?_⟩
    all_goals
      rintro n event now heq
      cases heq
  · rw [along_iff]
    intro h
    obtain ⟨hexclusive, -, -⟩ := h (Small.redelivered.take 3) (.acquire 2 Small.job 2)
      (List.prefix_refl _)
    have hfirst : (replay guardStep .initial Small.redelivered).claims 0 =
        some ⟨1, 2, false, true, none⟩ := by decide +kernel
    have hsecond : (replay guardStep .initial Small.redelivered).claims 1 =
        some ⟨2, 2, false, true, none⟩ := by decide +kernel
    have heq := hexclusive 0 1 1 2 2 ⟨_, hfirst, rfl, rfl, rfl⟩ ⟨_, hsecond, rfl, rfl, rfl⟩
    exact absurd heq Nat.zero_ne_one

end FileIdempotencyGuard

end FuzzingCiCd.Executor
