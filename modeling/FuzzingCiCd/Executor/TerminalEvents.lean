import FuzzingCiCd.Executor.HandlerOutcome

/-!
# One terminal event for each call

Whoever waits for a job goes by its terminal event, `JOB_FINISHED` or `JOB_SKIPPED`. A call ought to
publish one such event and to return it.

The handler publishes the event first and counts it, marks it in the claim and releases the claim
afterwards. A throw on the way from the publication to the end of the method either comes to a
`catch` branch, which publishes a second terminal event with the status `FAILED`, or leaves the
method, which then returns nothing. So the first terminal event that the publisher accepts stays the
only one and is returned exactly when nothing after it throws: `oneTerminal_iff`.

## Main results

* `released_eq_ok`: when the end of the method is reached behind a published event.
* `terminal_of_some`, `terminal_of_none`: the terminal events of a call, by what is announced first.
-/

namespace FuzzingCiCd.Executor.ExecutorJobHandler

open Contracts Transition

/-! ## Terminal events -/

def isTerminal (message : ExecutorEventMessage) : Bool :=
  message.eventType = .jobFinished || message.eventType = .jobSkipped

/-- The publishers accept whatever they are given. -/
def PublishersWork (env : Environment) : Prop :=
  (∀ message, env.publish message = .ok ()) ∧ ∀ message, env.publishLog message = .ok ()

section Statement

variable (env : Environment) (metrics : ExecutorJobMetrics) (job : JobMessage)

/-- The terminal events that a call has published. -/
def terminals : List ExecutorEventMessage :=
  (run env metrics job).2.1.published.filter isTerminal

/-- **One terminal event.** A call publishes at most one, one if the publishers work and the job can
be named, and it returns what it publishes. -/
structure OneTerminal : Prop where
  atMost : (terminals env metrics job).length ≤ 1
  exactly : PublishersWork env → job.jobExecutionId ≠ none →
    (terminals env metrics job).length = 1
  returned : ∀ message ∈ terminals env metrics job, (run env metrics job).1 = .ok message

/-- The terminal event that the `catch` branches build for a throw. -/
def failureOf (thrown : Thrown) : Option (ExecutorEventMessage × Bool) :=
  (caught job thrown).map fun branch ↦ (failedEvent env job branch.1, branch.2)

/-- The same if the publisher accepts it. -/
def acceptedFailure (thrown : Thrown) : Option (ExecutorEventMessage × Bool) :=
  (failureOf env job thrown).filter fun event ↦ (env.publish event.1).toBool

/-- The first terminal event that the publisher accepts: the one that is due or, if there is none
or it is refused, the failure that this leads to. -/
def firstOut : Option (ExecutorEventMessage × Bool) :=
  match due env job with
  | .error thrown => acceptedFailure env job thrown
  | .ok event =>
    match env.publish event.1 with
    | .ok _ => some event
    | .error failure => acceptedFailure env job (.failure failure)

/-- Nothing after the publication of a terminal event throws. -/
structure Settles (message : ExecutorEventMessage) (completes : Bool) : Prop where
  counted : env.jobFinished message = .ok ()
  marked : completes = true → claims env job = true → env.complete message = .ok ()
  cleaned : hasWorkspace env job = true →
    env.cleanup (shouldPreserveAsFailure message.status) = .ok ()
  closed : claims env job = true → env.close = .ok ()
  stopped : metrics.jobStopped = .ok ()

/-- No throw comes between the first terminal event and the return, and when the publishers work
none keeps that event from coming. -/
structure Undisturbed : Prop where
  begun : PublishersWork env → job.jobExecutionId ≠ none →
    metrics.jobStarted = .ok () ∧ due env job ≠ .error (.failure .error)
  settles : metrics.jobStarted = .ok () → ∀ message completes,
    firstOut env job = some (message, completes) → Settles env metrics job message completes

end Statement

/-! ## What comes out

The terminal part of a call is a sequence of attempts: the event that is due, and where its
publication or what follows it throws, the event of the failure, if there is one.
`terminal_of_some` says when the first of them is alone and returned. -/

section Output

variable {env : Environment} {metrics : ExecutorJobMetrics} {job : JobMessage}

theorem isTerminal_failedEvent (exception : ExecutorJobException) :
    isTerminal (failedEvent env job exception) = true := rfl

theorem isTerminal_of_due {message : ExecutorEventMessage} {completes : Bool}
    (h : due env job = .ok (message, completes)) : isTerminal message = true := by
  rw [due, bind_eq_ok] at h
  obtain ⟨decision, -, h⟩ := h
  by_cases hexecute : decision.shouldExecute = true
  · rw [if_pos hexecute, bind_eq_ok] at h
    obtain ⟨⟨⟩, -, h⟩ := h
    obtain ⟨result, -, h⟩ := bind_eq_ok.mp h
    obtain ⟨rfl, -⟩ := Prod.mk.inj (Except.ok.inj h)
    rfl
  · rw [if_neg hexecute] at h
    obtain ⟨rfl, -⟩ := Prod.mk.inj (Except.ok.inj h)
    rfl

theorem filter_progressEvents : (progressEvents env job).filter isTerminal = [] := by
  have hartifacts : (servedEvents env job).filter isTerminal = [] := by
    rw [servedEvents]
    rcases returned env job with thrown | result
    · rfl
    dsimp only [acceptedArtifacts]
    split_ifs
    · rfl
    · rfl
    · rfl
    · rfl
  rw [progressEvents]
  by_cases hreaches : reaches env job = true
  · rw [if_pos hreaches, List.filter_cons_of_neg (by exact Bool.false_ne_true), hartifacts]
  · rw [if_neg hreaches]
    rfl

theorem announced_of_ok {message : ExecutorEventMessage} (h : env.publish message = .ok ())
    (completes : Bool) : announced env message completes =
      ((followed env message completes).map fun _ ↦ message, [message]) := by
  rw [announced, h]

theorem announced_of_error {message : ExecutorEventMessage} {failure : Failure}
    (h : env.publish message = .error failure) (completes : Bool) :
    announced env message completes = (.error (.failure failure), []) := by
  rw [announced, h]

theorem reported_eq (thrown : Thrown) : reported env job thrown =
    match failureOf env job thrown with
    | none => (.error thrown, [])
    | some (message, completes) => announced env message (completes && claims env job) := by
  rw [reported, failureOf]
  rcases caught job thrown with _ | branch
  · rfl
  · rfl

/-- A throw whose failure is refused, or has no branch, leaves the method. -/
theorem reported_of_none {thrown : Thrown} (h : acceptedFailure env job thrown = none) :
    ∃ thrown', reported env job thrown = (.error thrown', []) := by
  rw [acceptedFailure] at h
  rw [reported_eq]
  rcases hfailure : failureOf env job thrown with _ | ⟨message, completes⟩
  · exact ⟨thrown, rfl⟩
  rcases hpublish : env.publish message with failure | ⟨⟨⟩⟩
  · exact ⟨.failure failure, announced_of_error hpublish _⟩
  · rw [hfailure, Option.filter_some, hpublish] at h
    cases h

theorem reported_of_some {thrown : Thrown} {message : ExecutorEventMessage} {completes : Bool}
    (h : acceptedFailure env job thrown = some (message, completes)) :
    reported env job thrown =
      ((followed env message (completes && claims env job)).map fun _ ↦ message, [message]) := by
  rw [acceptedFailure, Option.filter_eq_some_iff] at h
  obtain ⟨hfailure, hpublish⟩ := h
  rw [reported_eq, hfailure]
  refine announced_of_ok ?_ _
  dsimp only at hpublish
  rcases hcase : env.publish message with failure | ⟨⟨⟩⟩
  · rw [hcase] at hpublish
    cases hpublish
  · rfl

theorem terminal_of_none (h : firstOut env job = none) :
    ∃ thrown, terminal env job = (.error thrown, []) := by
  rw [firstOut] at h
  rw [terminal]
  rcases hdue : due env job with thrown | ⟨message, completes⟩
  · rw [hdue] at h
    exact reported_of_none h
  · rw [hdue] at h
    dsimp only [endOf] at h ⊢
    rcases hpublish : env.publish message with failure | ⟨⟨⟩⟩
    · rw [hpublish] at h
      obtain ⟨thrown, hreported⟩ := reported_of_none h
      rw [announced_of_error hpublish]
      dsimp only
      rw [hreported]
      exact ⟨thrown, rfl⟩
    · rw [hpublish] at h
      cases h

theorem followed_error {message : ExecutorEventMessage} {completes : Bool} {thrown : Thrown}
    (h : followed env message completes = .error thrown) :
      ∃ failure, thrown = .failure failure := by
  have hmapError : ∀ {x : Except Failure Unit}, x.mapError Thrown.failure = .error thrown →
      ∃ failure, thrown = .failure failure := by
    rintro (failure | ⟨⟨⟩⟩) hx
    · exact ⟨failure, (Except.error.inj hx).symm⟩
    · cases hx
  rw [followed] at h
  rcases hfinished : env.jobFinished message with failure | ⟨⟨⟩⟩
  · rw [hfinished] at h
    exact ⟨failure, (Except.error.inj h).symm⟩
  · rw [hfinished] at h
    change made completes (env.complete message) = .error thrown at h
    rw [made] at h
    by_cases hcompletes : completes = true
    · rw [if_pos hcompletes] at h
      exact hmapError h
    · rw [if_neg hcompletes] at h
      cases h

/-- What a collaborator throws is reported as a failure. -/
theorem status_of_reported {failure : Failure} {message : ExecutorEventMessage}
    (h : (reported env job (.failure failure)).1 = .ok message) : message.status = .failed := by
  have hannounced : ∀ {exception : ExecutorJobException} {completes : Bool},
      exception.status = .failed →
      (announced env (failedEvent env job exception) completes).1 = .ok message →
      message.status = .failed := by
    intro exception completes hstatus h
    rw [announced] at h
    rcases hpublish : env.publish (failedEvent env job exception) with f | ⟨⟨⟩⟩
    · rw [hpublish] at h
      cases h
    · rw [hpublish] at h
      rcases hfollowed : followed env (failedEvent env job exception) completes with t | ⟨⟨⟩⟩
      · rw [hfollowed] at h
        cases h
      · rw [hfollowed] at h
        rw [← Except.ok.inj h]
        exact hstatus
  rw [reported] at h
  rcases failure with text | ⟨className, text⟩ | _
  · dsimp only [caught] at h
    exact hannounced rfl h
  · dsimp only [caught] at h
    exact hannounced rfl h
  · cases h

/-- **The first terminal event.** It is alone and returned if nothing throws after it; otherwise
another one follows or the call throws. -/
theorem terminal_of_some {message : ExecutorEventMessage} {completes : Bool}
    (h : firstOut env job = some (message, completes)) :
    (followed env message (completes && claims env job) = .ok () →
      terminal env job = (.ok message, [message])) ∧
    ((∃ thrown, followed env message (completes && claims env job) = .error thrown) →
      (∃ rest, (terminal env job).2 = message :: rest ∧
        (rest = [] → ∃ thrown, (terminal env job).1 = .error thrown)) ∧
      ∀ sent, (terminal env job).1 = .ok sent → sent.status = .failed) := by
  have hcaught : ∀ {thrown}, acceptedFailure env job thrown = some (message, completes) →
      (followed env message (completes && claims env job) = .ok () →
        reported env job thrown = (.ok message, [message])) ∧
      ((∃ thrown', followed env message (completes && claims env job) = .error thrown') →
        (∃ rest, (reported env job thrown).2 = message :: rest ∧
          (rest = [] → ∃ thrown', (reported env job thrown).1 = .error thrown')) ∧
        ∀ sent, (reported env job thrown).1 = .ok sent → sent.status = .failed) := by
    intro thrown hfailure
    rw [reported_of_some hfailure]
    refine ⟨fun hfollowed ↦ by rw [hfollowed]; rfl, ?_⟩
    rintro ⟨thrown', hfollowed⟩
    rw [hfollowed]
    exact ⟨⟨[], rfl, fun _ ↦ ⟨thrown', rfl⟩⟩, fun _ hsent ↦ by cases hsent⟩
  rw [firstOut] at h
  rw [terminal]
  rcases hdue : due env job with thrown | ⟨first, marks⟩
  · rw [hdue] at h
    exact hcaught h
  · rw [hdue] at h
    dsimp only [endOf] at h ⊢
    rcases hpublish : env.publish first with failure | ⟨⟨⟩⟩
    · rw [hpublish] at h
      rw [announced_of_error hpublish]
      exact hcaught h
    · rw [hpublish] at h
      obtain ⟨rfl, rfl⟩ := Prod.mk.inj (Option.some.inj h)
      rw [announced_of_ok hpublish]
      refine ⟨fun hfollowed ↦ by rw [hfollowed]; rfl, ?_⟩
      rintro ⟨thrown, hfollowed⟩
      rw [hfollowed]
      obtain ⟨failure, rfl⟩ := followed_error hfollowed
      refine ⟨⟨(reported env job (.failure failure)).2, rfl, fun hrest ↦ ?_⟩, fun sent ↦
        status_of_reported⟩
      -- what is thrown after the event and not reported is thrown by the call
      rcases hfailure : acceptedFailure env job (.failure failure) with _ | ⟨second, marks'⟩
      · obtain ⟨thrown', hreported⟩ := reported_of_none hfailure
        exact ⟨thrown', congrArg Prod.fst hreported⟩
      · rw [reported_of_some hfailure] at hrest
        cases hrest

theorem isTerminal_terminal : ∀ message ∈ (terminal env job).2, isTerminal message = true := by
  have hannounced : ∀ {message : ExecutorEventMessage} (completes : Bool),
      isTerminal message = true → ∀ m ∈ (announced env message completes).2,
        isTerminal m = true := by
    intro message completes hmessage m hm
    rw [announced] at hm
    rcases hpublish : env.publish message with failure | ⟨⟨⟩⟩
    · rw [hpublish] at hm
      exact absurd hm List.not_mem_nil
    · rw [hpublish] at hm
      rwa [List.mem_singleton.mp hm]
  have hreported : ∀ thrown, ∀ m ∈ (reported env job thrown).2, isTerminal m = true := by
    intro thrown m hm
    rw [reported] at hm
    rcases hcaught : caught job thrown with _ | ⟨exception, completes⟩
    · rw [hcaught] at hm
      exact absurd hm List.not_mem_nil
    · rw [hcaught] at hm
      exact hannounced _ (isTerminal_failedEvent exception) m hm
  rw [terminal]
  rcases hdue : due env job with thrown | ⟨message, completes⟩
  · exact hreported thrown
  · have hfirst := hannounced (completes && claims env job) (isTerminal_of_due hdue)
    dsimp only [endOf]
    revert hfirst
    rcases announced env message (completes && claims env job) with ⟨thrown | sent, events⟩
    · exact fun hfirst ↦ List.forall_mem_append.mpr ⟨hfirst, hreported thrown⟩
    · exact fun hfirst ↦ hfirst

theorem terminals_eq (h : metrics.jobStarted = .ok ()) :
    terminals env metrics job = (terminal env job).2 := by
  rw [terminals, run_eq, h]
  dsimp only [tried]
  rw [List.filter_append, filter_progressEvents, List.nil_append, List.filter_eq_self]
  exact isTerminal_terminal

end Output

/-! ## The condition

The events of a call are those of `terminal`, so the condition is read off its cases: something
comes out first, its counting and marking succeed, and the `finally` block throws nothing. Each
part is an equation for the success of the calls that make it up. -/

section Condition

variable {env : Environment} {metrics : ExecutorJobMetrics} {job : JobMessage}

theorem mapError_eq_ok {x : Except Failure Unit} :
    x.mapError Thrown.failure = .ok () ↔ x = .ok () := by
  rcases x with failure | ⟨⟨⟩⟩
  · exact iff_of_false nofun nofun
  · exact iff_of_true rfl rfl

theorem made_eq_ok {test : Bool} {x : Except Failure Unit} :
    made test x = .ok () ↔ (test = true → x = .ok ()) := by
  rw [made]
  rcases test with _ | _
  · exact iff_of_true rfl fun h ↦ by cases h
  · rw [if_pos rfl, mapError_eq_ok]
    exact ⟨fun h _ ↦ h, fun h ↦ h rfl⟩

theorem followed_eq_ok {message : ExecutorEventMessage} {completes : Bool} :
    followed env message completes = .ok () ↔
      env.jobFinished message = .ok () ∧ (completes = true → env.complete message = .ok ()) := by
  rw [followed, bind_eq_ok, ← mapError_eq_ok, ← made_eq_ok]
  constructor
  · rintro ⟨⟨⟩, h, h'⟩
    exact ⟨h, h'⟩
  · exact fun h ↦ ⟨(), h⟩

theorem released_eq_ok {p : Progress} : released env metrics p = .ok () ↔
    (p.workspace = true → env.cleanup (shouldPreserveAsFailure p.cleanupStatus) = .ok ()) ∧
      (p.claimed = true → env.close = .ok ()) ∧ metrics.jobStopped = .ok () := by
  rw [released, bind_eq_ok, ← made_eq_ok, ← made_eq_ok, ← mapError_eq_ok]
  constructor
  · rintro ⟨⟨⟩, hcleanup, h⟩
    obtain ⟨⟨⟩, hclose, hstop⟩ := bind_eq_ok.mp h
    exact ⟨hcleanup, hclose, hstop⟩
  · rintro ⟨hcleanup, hclose, hstop⟩
    exact ⟨(), hcleanup, bind_eq_ok.mpr ⟨(), hclose, hstop⟩⟩

/-- Nothing after an event throws when it is counted and marked and the `finally` block ends. -/
theorem settles_iff {message : ExecutorEventMessage} {completes : Bool} {p : Progress}
    (hworkspace : p.workspace = hasWorkspace env job) (hclaimed : p.claimed = claims env job)
    (hstatus : p.cleanupStatus = message.status) :
    Settles env metrics job message completes ↔
      followed env message (completes && claims env job) = .ok () ∧
        released env metrics p = .ok () := by
  rw [followed_eq_ok, released_eq_ok, hworkspace, hclaimed, hstatus, Bool.and_eq_true, and_imp]
  exact ⟨fun h ↦ ⟨⟨h.counted, h.marked⟩, h.cleaned, h.closed, h.stopped⟩,
    fun h ↦ ⟨h.1.1, h.1.2, h.2.1, h.2.2.1, h.2.2.2⟩⟩

/-- A call whose publishers work comes to a terminal event unless an `Error` ends its body. -/
theorem firstOut_eq_none_iff (hworks : PublishersWork env) (hid : job.jobExecutionId ≠ none) :
    firstOut env job = none ↔ due env job = .error (.failure .error) := by
  rw [firstOut]
  rcases hdue : due env job with thrown | event
  · have hfilter : ∀ x : Option (ExecutorEventMessage × Bool),
        x.filter (fun event ↦ (env.publish event.1).toBool) = x := by
      rintro (_ | event)
      · rfl
      · rw [Option.filter_some, hworks.1]
        rfl
    dsimp only
    rw [acceptedFailure, hfilter, failureOf, Option.map_eq_none_iff]
    rcases thrown with exception | message | ⟨className, message⟩ | _
    · rw [caught, if_neg hid]
      exact iff_of_false (Option.some_ne_none _) fun h ↦ by cases h
    · exact iff_of_false (Option.some_ne_none _) fun h ↦ by cases h
    · exact iff_of_false (Option.some_ne_none _) fun h ↦ by cases h
    · exact iff_of_true rfl rfl
  · dsimp only
    rw [hworks.1]
    exact iff_of_false (Option.some_ne_none _) fun h ↦ by cases h

/-- **One terminal event.** A call publishes one terminal event and returns it exactly when it is
undisturbed. -/
theorem oneTerminal_iff (env : Environment) (metrics : ExecutorJobMetrics) (job : JobMessage) :
    OneTerminal env metrics job ↔ Undisturbed env metrics job := by
  rcases hstarted : metrics.jobStarted with failure | ⟨⟨⟩⟩
  · -- the call ends before its body
    have hnone : terminals env metrics job = [] := by
      rw [terminals, run_eq, hstarted]
      rfl
    constructor
    · intro h
      refine ⟨fun hworks hid ↦ ?_, fun hbegun ↦ ?_⟩
      · have hone := h.exactly hworks hid
        rw [hnone] at hone
        cases hone
      · rw [hstarted] at hbegun
        cases hbegun
    · intro h
      refine ⟨by rw [hnone]; exact Nat.zero_le 1, fun hworks hid ↦ ?_, by simp [hnone]⟩
      have hbegun := (h.begun hworks hid).1
      rw [hstarted] at hbegun
      cases hbegun
  have hterminals := @terminals_eq env _ job hstarted
  have houtcome : (run env metrics job).1 =
      (do released env metrics (tried env job); (terminal env job).1) := by
    rw [run_eq, hstarted]
  rcases hfirst : firstOut env job with _ | ⟨message, completes⟩
  · obtain ⟨thrown, hterminal⟩ := terminal_of_none hfirst
    rw [hterminal] at hterminals
    constructor
    · intro h
      refine ⟨fun hworks hid ↦ ?_, fun _ message completes hsome ↦ ?_⟩
      · have hone := h.exactly hworks hid
        rw [hterminals] at hone
        cases hone
      · rw [hfirst] at hsome
        cases hsome
    · intro h
      refine ⟨by rw [hterminals]; exact Nat.zero_le 1, fun hworks hid ↦ ?_, by simp [hterminals]⟩
      exact absurd ((firstOut_eq_none_iff hworks hid).mp hfirst) (h.begun hworks hid).2
  obtain ⟨hfollowed, hdisturbed⟩ := terminal_of_some hfirst
  have hbegun : PublishersWork env → job.jobExecutionId ≠ none →
      metrics.jobStarted = .ok () ∧ due env job ≠ .error (.failure .error) := by
    refine fun hworks hid ↦ ⟨hstarted, fun hdue ↦ ?_⟩
    rw [(firstOut_eq_none_iff hworks hid).mpr hdue] at hfirst
    cases hfirst
  have hsettles : Undisturbed env metrics job ↔ Settles env metrics job message completes := by
    refine ⟨fun h ↦ h.settles hstarted message completes hfirst, fun h ↦ ⟨hbegun, ?_⟩⟩
    intro _ other marks hother
    obtain ⟨rfl, rfl⟩ := Prod.mk.inj (Option.some.inj (hfirst.symm.trans hother))
    exact h
  rw [hsettles]
  have hsettled : followed env message (completes && claims env job) = .ok () →
      (Settles env metrics job message completes ↔
        followed env message (completes && claims env job) = .ok () ∧
          released env metrics (tried env job) = .ok ()) := by
    refine fun hok ↦ settles_iff rfl rfl ?_
    dsimp only [tried]
    rw [finalStatus, hfollowed hok]
  constructor
  · intro h
    have hok : followed env message (completes && claims env job) = .ok () := by
      rcases hcase : followed env message (completes && claims env job) with thrown | ⟨⟨⟩⟩
      · exfalso
        obtain ⟨⟨rest, hrest, hthrows⟩, -⟩ := hdisturbed ⟨thrown, hcase⟩
        have hmost := h.atMost
        rw [hterminals, hrest, List.length_cons] at hmost
        obtain ⟨thrown', hthrown⟩ := hthrows (List.length_eq_zero_iff.mp (by omega))
        have hreturned := h.returned message (by rw [hterminals, hrest]; exact List.mem_cons_self)
        rw [houtcome, bind_eq_ok, hthrown] at hreturned
        obtain ⟨-, -, hreturned⟩ := hreturned
        cases hreturned
      · rfl
    rw [hfollowed hok] at hterminals
    have hreturned := h.returned message (by rw [hterminals]; exact List.mem_singleton_self _)
    rw [houtcome, bind_eq_ok] at hreturned
    obtain ⟨⟨⟩, hreleased, -⟩ := hreturned
    exact (hsettled hok).mpr ⟨hok, hreleased⟩
  · intro h
    have hok : followed env message (completes && claims env job) = .ok () :=
      followed_eq_ok.mpr ⟨h.counted, by
        rw [Bool.and_eq_true, and_imp]
        exact h.marked⟩
    have hreleased := ((hsettled hok).mp h).2
    rw [hfollowed hok] at hterminals houtcome
    rw [hreleased] at houtcome
    refine ⟨by rw [hterminals]; exact Nat.le_refl 1, fun _ _ ↦ by rw [hterminals]; rfl, ?_⟩
    intro m hm
    rw [hterminals] at hm
    rw [List.mem_singleton.mp hm, houtcome]
    rfl

end Condition

/-! ## A result that cannot be recorded -/

namespace Small

def result : ExecutorJobResult where
  status := .success
  summary := none
  artifacts := []
  metrics := []
  logs := none
  error := none
  additionalData := []

/-- Everything works. -/
def succeeding : Environment := .smooth fun _ ↦ .ok (some result)

/-- The state file of the guard cannot be written any more. -/
def unrecorded : Environment :=
  { succeeding with
    complete := fun _ ↦ .error (.idempotency
      (some "Не удалось сохранить idempotency result job: 00000000-0000-0000-0000-000000000002")) }

end Small

/-- A job succeeds, and its call reports a success and then a failure. -/
theorem two_terminals :
    (terminals Small.unrecorded .noop Small.job).map ExecutorEventMessage.status =
      [.success, .failed] ∧
    ¬ OneTerminal Small.unrecorded .noop Small.job := by
  have hterminals : (terminals Small.unrecorded .noop Small.job).map ExecutorEventMessage.status =
      [.success, .failed] := by decide +kernel
  refine ⟨hterminals, fun h ↦ ?_⟩
  have hmost := h.atMost
  rw [← List.length_map ExecutorEventMessage.status, hterminals] at hmost
  exact absurd hmost (by decide)

end FuzzingCiCd.Executor.ExecutorJobHandler
