import FuzzingCiCd.Executor.TerminalEvents
import FuzzingCiCd.Executor.SecretRedactor

/-!
# What a call discloses of the texts of a job

The code of a job hands texts back: logs, the summary and the error of a result, or the message and
the details of an exception. Two of its outcomes are *alike* when they differ in these texts only,
and the redactor makes the texts equal. Whoever reads the messages of the executor should not be
able to tell two alike outcomes apart.

Only the logs pass through the redactor. The other texts are published as they are, in the terminal
event, so alike outcomes are told apart exactly when one of these texts differs and the event that
carries it gets out: `indistinguishable_iff`.

## Main results

* `reported_eq_iff`, `endOf_eq_iff`: what the terminal events of alike throws and alike results have
  in common, text by text.
* `indistinguishable_iff`: which alike outcomes the messages of a call do not tell apart.
-/

namespace FuzzingCiCd.Executor.ExecutorJobHandler

open Contracts Transition

/-! ## Alike outcomes -/

/-- What the code of a job hands back. -/
abbrev Outcome := Except Thrown (Option ExecutorJobResult)

/-- Texts that the redactor makes equal. -/
def Masked (redactor : SecretRedactor) (a b : Option String) : Prop :=
  a.map redactor.redact = b.map redactor.redact

/-- Errors that differ in masked texts only. -/
structure AlikeErrors (redactor : SecretRedactor) (a b : ExecutorError) : Prop where
  type : a.type = b.type
  code : a.code = b.code
  metadata : a.metadata = b.metadata
  message : Masked redactor a.message b.message
  details : Masked redactor a.details b.details

/-- Results that differ in masked texts only. -/
structure AlikeResults (redactor : SecretRedactor) (a b : ExecutorJobResult) : Prop where
  status : a.status = b.status
  artifacts : a.artifacts = b.artifacts
  metrics : a.metrics = b.metrics
  additionalData : a.additionalData = b.additionalData
  logs : Masked redactor a.logs b.logs
  summary : Masked redactor a.summary b.summary
  error : Option.Rel (AlikeErrors redactor) a.error b.error

/-- Exceptions that differ in masked texts only. -/
structure AlikeExceptions (redactor : SecretRedactor) (a b : ExecutorJobException) : Prop where
  errorType : a.errorType = b.errorType
  code : a.code = b.code
  metadata : a.metadata = b.metadata
  status : a.status = b.status
  message : Masked redactor a.message b.message
  details : Masked redactor a.details b.details

/-- Outcomes that differ in masked texts only. -/
inductive Alike (redactor : SecretRedactor) : Outcome → Outcome → Prop
  | empty : Alike redactor (.ok none) (.ok none)
  | result {a b : ExecutorJobResult} (h : AlikeResults redactor a b) :
      Alike redactor (.ok (some a)) (.ok (some b))
  | job {a b : ExecutorJobException} (h : AlikeExceptions redactor a b) :
      Alike redactor (.error (.job a)) (.error (.job b))
  | idempotency {a b : Option String} (h : Masked redactor a b) :
      Alike redactor (.error (.failure (.idempotency a))) (.error (.failure (.idempotency b)))
  | exception (className : String) {a b : Option String} (h : Masked redactor a b) :
      Alike redactor (.error (.failure (.exception className a)))
        (.error (.failure (.exception className b)))
  | error : Alike redactor (.error (.failure .error)) (.error (.failure .error))

/-- The texts that the terminal event takes from an outcome: a summary, and the message and the
details of an error. -/
def shown : Outcome → Option String × Option String × Option String
  | .ok none => (none, none, none)
  | .ok (some result) =>
    (result.summary, result.error.bind ExecutorError.message,
      result.error.bind ExecutorError.details)
  | .error (.job exception) => (exception.message, exception.message, exception.details)
  | .error (.failure (.idempotency message)) => (none, none, message)
  | .error (.failure (.exception _ message)) => (none, none, message)
  | .error (.failure .error) => (none, none, none)

section Statement

variable (redactor : SecretRedactor) (env : Environment) (metrics : ExecutorJobMetrics)
  (job : JobMessage)

/-- The surroundings with the redactor and with the outcome of the code of the job. -/
def handing (outcome : Outcome) : Environment :=
  { env with redact := redactor.redact, execute := fun _ ↦ outcome }

/-- The events and the log messages that a call publishes. -/
def messages (outcome : Outcome) : List ExecutorEventMessage × List ExecutorEventMessage :=
  let after := (run (handing redactor env outcome) metrics job).2
  (after.1.published, after.2.logs)

/-- The logs and the artifacts of a result are published without a throw. -/
def delivers : Outcome → Bool
  | .ok (some result) =>
    (logged (handing redactor env (.ok (some result))) job result).toBool &&
      (stored (handing redactor env (.ok (some result))) job result).toBool
  | _ => true

/-- The events that carry the texts of two outcomes are both refused by the publisher, and nothing
else tells the refusals apart. -/
inductive Refused : Outcome → Outcome → Prop
  | result {a b : ExecutorJobResult} {f g : Failure}
      (ha : env.publish (finishedEvent env job a) = .error f)
      (hb : env.publish (finishedEvent env job b) = .error g)
      (hreports : (acceptedFailure env job (.failure f)).map Prod.fst =
        (acceptedFailure env job (.failure g)).map Prod.fst) :
      Refused (.ok (some a)) (.ok (some b))
  | thrown {s t : Thrown} (hs : acceptedFailure env job s = none)
      (ht : acceptedFailure env job t = none) : Refused (.error s) (.error t)

/-- The call does not come to the texts, or they are equal, or they do not get out. -/
def Confined (a b : Outcome) : Prop :=
  metrics.jobStarted = .ok () → reaches env job = true → delivers redactor env job a = true →
    shown a = shown b ∨ Refused env job a b

end Statement

/-! ## Events and texts

Two outcomes that are alike have the same events up to the texts in them. Nothing is lost when an
event is built: the message and the details are in it, so that the events of alike outcomes are
equal exactly when the texts are. -/

section Texts

variable {redactor : SecretRedactor} {env : Environment} {job : JobMessage}

theorem failedEvent_injective {a b : ExecutorJobException}
    (h : failedEvent env job a = failedEvent env job b) : a = b := by
  have herror := congrArg ExecutorEventMessage.error h
  have hstatus := congrArg ExecutorEventMessage.status h
  obtain ⟨htype, hcode, hmessage, hdetails, hmetadata⟩ :=
    ExecutorError.mk.inj (Option.some.inj herror)
  rcases a with ⟨errorType, code, message, details, metadata, status⟩
  rcases b with ⟨errorType', code', message', details', metadata', status'⟩
  obtain rfl := Option.some.inj htype
  obtain rfl := Option.some.inj hcode
  obtain rfl : message = message' := hmessage
  obtain rfl : details = details' := hdetails
  obtain rfl : metadata = metadata' := hmetadata
  obtain rfl : status = status' := hstatus
  rfl

theorem AlikeErrors.eq {a b : ExecutorError} (h : AlikeErrors redactor a b)
    (hmessage : a.message = b.message) (hdetails : a.details = b.details) : a = b := by
  rcases a with ⟨type, code, message, details, metadata⟩
  rcases b with ⟨type', code', message', details', metadata'⟩
  obtain ⟨rfl, rfl, rfl, -, -⟩ := h
  rw [ExecutorError.mk.injEq]
  exact ⟨rfl, rfl, hmessage, hdetails, rfl⟩

theorem AlikeExceptions.eq {a b : ExecutorJobException} (h : AlikeExceptions redactor a b)
    (hmessage : a.message = b.message) (hdetails : a.details = b.details) : a = b := by
  rcases a with ⟨errorType, code, message, details, metadata, status⟩
  rcases b with ⟨errorType', code', message', details', metadata', status'⟩
  obtain ⟨rfl, rfl, rfl, rfl, -, -⟩ := h
  rw [ExecutorJobException.mk.injEq]
  exact ⟨rfl, rfl, hmessage, hdetails, rfl, rfl⟩

theorem finishedEvent_ne_failedEvent (result : ExecutorJobResult)
    (exception : ExecutorJobException) :
    finishedEvent env job result ≠ failedEvent env job exception := by
  intro h
  have hsite := env.messageId_injective (congrArg ExecutorEventMessage.messageId h)
  cases hsite

/-- The events of alike results are equal exactly when the texts in them are. -/
theorem finishedEvent_eq_iff {a b : ExecutorJobResult} (h : AlikeResults redactor a b) :
    finishedEvent env job a = finishedEvent env job b ↔
      shown (.ok (some a)) = shown (.ok (some b)) := by
  constructor
  · intro hevent
    have hsummary : a.summary = b.summary := congrArg ExecutorEventMessage.summary hevent
    have herror : a.error = b.error := congrArg ExecutorEventMessage.error hevent
    rw [shown, shown, hsummary, herror]
  · intro hshown
    obtain ⟨hsummary, hrest⟩ := Prod.mk.inj hshown
    obtain ⟨hmessage, hdetails⟩ := Prod.mk.inj hrest
    have herror : a.error = b.error := by
      have hrel := h.error
      rcases ha : a.error with _ | e
      · rcases hb : b.error with _ | e'
        · rfl
        · rw [ha, hb] at hrel
          cases hrel
      · rcases hb : b.error with _ | e'
        · rw [ha, hb] at hrel
          cases hrel
        · rw [ha, hb] at hrel hmessage hdetails
          rcases hrel with hrel | _
          exact congrArg some (hrel.eq hmessage hdetails)
    rw [finishedEvent, finishedEvent, h.status, h.artifacts, h.metrics, h.additionalData, hsummary,
      herror]

theorem Alike.thrown_eq {s t : Thrown} (h : Alike redactor (.error s) (.error t))
    (hshown : shown (.error s) = shown (.error t)) : s = t := by
  obtain ⟨hmessage, hrest⟩ := Prod.mk.inj hshown
  obtain ⟨-, hdetails⟩ := Prod.mk.inj hrest
  rcases h with _ | _ | h | h | ⟨className, h⟩ | _
  · rw [h.eq hmessage hdetails]
  · obtain rfl := hdetails
    rfl
  · obtain rfl := hdetails
    rfl
  · rfl

/-- Alike throws that are reported by the same exception have equal texts. -/
theorem Alike.shown_eq {s t : Thrown} (h : Alike redactor (.error s) (.error t))
    {exception : ExecutorJobException} {completes completes' : Bool}
    (hs : caught job s = some (exception, completes))
    (ht : caught job t = some (exception, completes')) :
    shown (.error s) = shown (.error t) := by
  rcases h with _ | _ | h | @⟨a, b, h⟩ | @⟨className, a, b, h⟩ | _
  · rw [caught] at hs ht
    split_ifs at hs ht
    obtain ⟨rfl, -⟩ := Prod.mk.inj (Option.some.inj hs)
    obtain ⟨rfl, -⟩ := Prod.mk.inj (Option.some.inj ht)
    rfl
  · obtain ⟨hs, -⟩ := Prod.mk.inj (Option.some.inj hs)
    obtain ⟨ht, -⟩ := Prod.mk.inj (Option.some.inj ht)
    have hdetails : a = b := congrArg ExecutorJobException.details (hs.trans ht.symm)
    rw [hdetails]
  · obtain ⟨hs, -⟩ := Prod.mk.inj (Option.some.inj hs)
    obtain ⟨ht, -⟩ := Prod.mk.inj (Option.some.inj ht)
    have hdetails : a = b := congrArg ExecutorJobException.details (hs.trans ht.symm)
    rw [hdetails]
  · rfl

theorem reported_snd (thrown : Thrown) :
    (reported env job thrown).2 = ((acceptedFailure env job thrown).map Prod.fst).toList := by
  rcases haccepted : acceptedFailure env job thrown with _ | ⟨message, completes⟩
  · obtain ⟨thrown', hreported⟩ := reported_of_none haccepted
    rw [hreported]
    rfl
  · rw [reported_of_some haccepted]
    rfl

/-- The reports of alike throws. -/
theorem reported_eq_iff {s t : Thrown} (h : Alike redactor (.error s) (.error t)) :
    (reported env job s).2 = (reported env job t).2 ↔
      shown (.error s) = shown (.error t) ∨ Refused env job (.error s) (.error t) := by
  have haccepted : ∀ {thrown : Thrown} {event}, acceptedFailure env job thrown = some event →
      ∃ branch, caught job thrown = some branch ∧
      event = (failedEvent env job branch.1, branch.2) := by
    intro thrown event hevent
    rw [acceptedFailure, Option.filter_eq_some_iff, failureOf, Option.map_eq_some_iff] at hevent
    obtain ⟨⟨branch, hbranch, rfl⟩, -⟩ := hevent
    exact ⟨branch, hbranch, rfl⟩
  constructor
  · intro heq
    rw [reported_snd, reported_snd] at heq
    rcases hs : acceptedFailure env job s with _ | event
    · rcases ht : acceptedFailure env job t with _ | event'
      · exact Or.inr (.thrown hs ht)
      · rw [hs, ht] at heq
        cases heq
    · rcases ht : acceptedFailure env job t with _ | event'
      · rw [hs, ht] at heq
        cases heq
      · rw [hs, ht] at heq
        obtain ⟨⟨exception, completes⟩, hcaught, rfl⟩ := haccepted hs
        obtain ⟨⟨exception', completes'⟩, hcaught', rfl⟩ := haccepted ht
        obtain rfl : exception = exception' := failedEvent_injective (List.cons.inj heq).1
        exact Or.inl (h.shown_eq hcaught hcaught')
  · rintro (hshown | hrefused)
    · rw [h.thrown_eq hshown]
    · rcases hrefused with _ | ⟨hs, ht⟩
      rw [reported_snd, reported_snd, hs, ht]

/-- What the call publishes for an event that the publisher accepts begins with it. -/
theorem endOf_of_ok {message : ExecutorEventMessage} {completes : Bool}
    (h : env.publish message = .ok ()) :
    ∃ rest, (endOf env job (.ok (message, completes))).2 = message :: rest := by
  rw [endOf, announced_of_ok h]
  rcases followed env message (completes && claims env job) with thrown | ⟨⟨⟩⟩
  · exact ⟨_, rfl⟩
  · exact ⟨_, rfl⟩

theorem endOf_of_error {message : ExecutorEventMessage} {completes : Bool} {failure : Failure}
    (h : env.publish message = .error failure) :
    (endOf env job (.ok (message, completes))).2 = (reported env job (.failure failure)).2 := by
  rw [endOf, announced_of_error h]
  rfl

/-- The terminal events of alike results. -/
theorem endOf_eq_iff {a b : ExecutorJobResult} (h : AlikeResults redactor a b) :
    (endOf env job (.ok (finishedEvent env job a, true))).2 =
        (endOf env job (.ok (finishedEvent env job b, true))).2 ↔
      shown (.ok (some a)) = shown (.ok (some b)) ∨
        Refused env job (.ok (some a)) (.ok (some b)) := by
  -- a refused event leads at most to a failure, which is no event of a result
  have hother : ∀ (c : ExecutorJobResult) (rest : List ExecutorEventMessage) (f : Failure),
      finishedEvent env job c :: rest ≠ (reported env job (.failure f)).2 := by
    intro c rest f heq
    rw [reported_snd] at heq
    rcases haccepted : acceptedFailure env job (.failure f) with _ | event
    · rw [haccepted] at heq
      cases heq
    · rw [haccepted] at heq
      rw [acceptedFailure, Option.filter_eq_some_iff, failureOf,
        Option.map_eq_some_iff] at haccepted
      obtain ⟨⟨branch, -, rfl⟩, -⟩ := haccepted
      exact finishedEvent_ne_failedEvent c branch.1 (List.cons.inj heq).1
  rw [← finishedEvent_eq_iff h]
  constructor
  · intro heq
    rcases ha : env.publish (finishedEvent env job a) with f | ⟨⟨⟩⟩
    · rcases hb : env.publish (finishedEvent env job b) with g | ⟨⟨⟩⟩
      · rw [endOf_of_error ha, endOf_of_error hb, reported_snd, reported_snd] at heq
        have hheads := congrArg List.head? heq
        rw [Option.head?_toList, Option.head?_toList] at hheads
        exact Or.inr (.result ha hb hheads)
      · obtain ⟨rest, hrest⟩ := @endOf_of_ok _ job _ true hb
        rw [endOf_of_error ha, hrest] at heq
        exact absurd heq.symm (hother b rest f)
    · obtain ⟨rest, hrest⟩ := @endOf_of_ok _ job _ true ha
      rcases hb : env.publish (finishedEvent env job b) with g | ⟨⟨⟩⟩
      · rw [endOf_of_error hb, hrest] at heq
        exact absurd heq (hother a rest g)
      · obtain ⟨rest', hrest'⟩ := @endOf_of_ok _ job _ true hb
        rw [hrest, hrest'] at heq
        exact Or.inl (List.cons.inj heq).1
  · rintro (hevent | hrefused)
    · rw [hevent]
    · rcases hrefused with ⟨ha, hb, hreports⟩ | _
      rw [endOf_of_error ha, endOf_of_error hb, reported_snd, reported_snd, hreports]

end Texts

/-! ## The two runs

Both calls make the same decisions: the guard and the start do not depend on what the code of the
job hands back, and alike results publish the same progress and the same log messages, which are
redacted. They can differ in the terminal event only, if the call comes to one and it gets out. -/

section Runs

variable {redactor : SecretRedactor} {env : Environment} {metrics : ExecutorJobMetrics}
  {job : JobMessage} {o o' : Outcome}

theorem logged_handing {a b : ExecutorJobResult} (h : AlikeResults redactor a b) (o o' : Outcome) :
    logged (handing redactor env o) job a = logged (handing redactor env o') job b ∧
      acceptedLogs (handing redactor env o) job a =
        acceptedLogs (handing redactor env o') job b := by
  have hlogs := h.logs
  rw [Masked] at hlogs
  rw [logged, logged, acceptedLogs, acceptedLogs]
  rcases ha : a.logs with _ | text
  · rcases hb : b.logs with _ | text'
    · exact ⟨rfl, rfl⟩
    · rw [ha, hb] at hlogs
      cases hlogs
  · rcases hb : b.logs with _ | text'
    · rw [ha, hb] at hlogs
      cases hlogs
    · rw [ha, hb] at hlogs
      have htext : redactor.redact text = redactor.redact text' := Option.some.inj hlogs
      have hblank : JavaText.isBlank text = JavaText.isBlank text' := by
        rw [← redactor.isBlank_redact text, htext, redactor.isBlank_redact]
      have hevent : logEvent (handing redactor env o) job text =
          logEvent (handing redactor env o') job text' := by
        rw [logEvent, logEvent]
        dsimp only [handing]
        rw [htext]
        rfl
      dsimp only
      rw [hblank, hevent]
      exact ⟨rfl, rfl⟩

theorem stored_handing {a b : ExecutorJobResult} (h : AlikeResults redactor a b) (o o' : Outcome) :
    stored (handing redactor env o) job a = stored (handing redactor env o') job b ∧
      acceptedArtifacts (handing redactor env o) job a =
        acceptedArtifacts (handing redactor env o') job b := by
  have hevent : artifactsEvent (handing redactor env o) job a =
      artifactsEvent (handing redactor env o') job b := by
    rw [artifactsEvent, artifactsEvent, h.artifacts, h.metrics, h.additionalData]
    rfl
  rw [stored, stored, acceptedArtifacts, acceptedArtifacts, h.artifacts, hevent]
  exact ⟨rfl, rfl⟩

/-- Alike outcomes publish the same events and log messages before the terminal event. -/
theorem before_handing (h : Alike redactor o o') :
    progressEvents (handing redactor env o) job = progressEvents (handing redactor env o') job ∧
      logEvents (handing redactor env o) job = logEvents (handing redactor env o') job := by
  have hserved : servedEvents (handing redactor env o) job =
      servedEvents (handing redactor env o') job ∧
      servedLogs (handing redactor env o) job = servedLogs (handing redactor env o') job := by
    rcases h with _ | @⟨a, b, h⟩ | _ | _ | _ | _
    · exact ⟨rfl, rfl⟩
    · obtain ⟨hlogged, hlogs⟩ := @logged_handing _ env job _ _ h
        (.ok (some a)) (.ok (some b))
      obtain ⟨-, hartifacts⟩ := @stored_handing _ env job _ _ h
        (.ok (some a)) (.ok (some b))
      refine ⟨?_, hlogs⟩
      change (if (logged _ job a).toBool = true then acceptedArtifacts _ job a else []) =
        if (logged _ job b).toBool = true then acceptedArtifacts _ job b else []
      rw [hlogged, hartifacts]
    · exact ⟨rfl, rfl⟩
    · exact ⟨rfl, rfl⟩
    · exact ⟨rfl, rfl⟩
    · exact ⟨rfl, rfl⟩
  rw [progressEvents, progressEvents, logEvents, logEvents, hserved.1, hserved.2]
  exact ⟨rfl, rfl⟩

/-- The messages of alike outcomes are equal when the terminal events are. -/
theorem messages_eq_iff (h : Alike redactor o o') (hstarted : metrics.jobStarted = .ok ()) :
    messages redactor env metrics job o = messages redactor env metrics job o' ↔
      (terminal (handing redactor env o) job).2 = (terminal (handing redactor env o') job).2 := by
  obtain ⟨hprogress, hlogs⟩ := @before_handing _ env job _ _ h
  rw [messages, messages, run_eq, run_eq, hstarted]
  dsimp only [tried]
  rw [hprogress, hlogs, Prod.mk.injEq, and_iff_left rfl, List.append_cancel_left_eq]

/-- A call that reaches the code of the job comes to the event of its result, or to its throw. -/
theorem due_of_reaches (h : reaches env job = true) :
    due env job = (served env job).map fun result ↦ (finishedEvent env job result, true) := by
  rw [reaches, executes, Bool.and_eq_true] at h
  obtain ⟨hexecutes, hstarted⟩ := h
  rw [due]
  rcases haccepted : accepted env job with thrown | decision
  · rw [haccepted] at hexecutes
    cases hexecutes
  rw [haccepted] at hexecutes
  rw [ok_bind, if_pos hexecutes]
  rcases hstart : started env job with thrown | ⟨⟨⟩⟩
  · rw [hstart] at hstarted
    cases hstarted
  · rw [ok_bind]
    rcases served env job with thrown | result
    · rfl
    · rfl

/-- Neither the guard nor the start of the job depends on what the code of the job hands back. -/
theorem accepted_handing (o : Outcome) :
    accepted (handing redactor env o) job = accepted env job := rfl

theorem started_handing (o : Outcome) :
    started (handing redactor env o) job = started env job := rfl

/-- A call that does not reach the code of the job does not depend on it. -/
theorem due_of_not_reaches (h : reaches env job = false) (o o' : Outcome) :
    due (handing redactor env o) job = due (handing redactor env o') job := by
  rw [reaches, executes] at h
  rw [due, due, accepted_handing, accepted_handing, started_handing, started_handing]
  rcases haccepted : accepted env job with thrown | decision
  · rfl
  rw [haccepted] at h
  rw [ok_bind, ok_bind]
  by_cases hexecute : decision.shouldExecute = true
  · rw [if_pos hexecute, if_pos hexecute]
    rcases hstart : started env job with thrown | ⟨⟨⟩⟩
    · rfl
    · rw [hstart] at h
      dsimp only at h
      rw [hexecute] at h
      cases h
  · rw [if_neg hexecute, if_neg hexecute]
    rfl

/-- **What a call discloses.** The messages of two calls with alike outcomes are equal exactly when
the call does not come to the texts, or the texts of the terminal event are equal as they are, or
this event does not get out. -/
theorem indistinguishable_iff (redactor : SecretRedactor) (env : Environment)
    (metrics : ExecutorJobMetrics) (job : JobMessage) {o o' : Outcome} (h : Alike redactor o o') :
    messages redactor env metrics job o = messages redactor env metrics job o' ↔
      Confined redactor env metrics job o o' := by
  rcases hbegun : metrics.jobStarted with failure | ⟨⟨⟩⟩
  · have hnothing : ∀ o, messages redactor env metrics job o = ([], []) := by
      intro o
      rw [messages, run_eq, hbegun]
      rfl
    rw [hnothing, hnothing]
    refine iff_of_true rfl fun hstarted ↦ ?_
    rw [hbegun] at hstarted
    cases hstarted
  rw [messages_eq_iff h hbegun, Confined, forall_prop_of_true hbegun]
  by_cases hreaches : reaches env job = true
  swap
  · rw [Bool.not_eq_true] at hreaches
    refine iff_of_true ?_ fun htrue ↦ ?_
    · rw [terminal, terminal, due_of_not_reaches hreaches o o']
      rfl
    · rw [hreaches] at htrue
      cases htrue
  rw [forall_prop_of_true hreaches]
  -- the end of a call, from what the code of the job hands back
  have hend : ∀ o, (terminal (handing redactor env o) job).2 =
      (endOf env job ((served (handing redactor env o) job).map
        fun result ↦ (finishedEvent env job result, true))).2 := by
    intro o
    have hdue := @due_of_reaches (handing redactor env o) job hreaches
    rw [terminal, hdue]
    rfl
  have hthrown : ∀ {s t : Thrown}, Alike redactor (.error s) (.error t) →
      ((endOf env job (.error s)).2 = (endOf env job (.error t)).2 ↔
        (true = true → shown (.error s) = shown (.error t) ∨
          Refused env job (.error s) (.error t))) := by
    intro s t h
    rw [forall_prop_of_true rfl]
    exact reported_eq_iff h
  rw [hend, hend]
  rcases h with _ | @⟨a, b, h⟩ | h | h | ⟨className, h⟩ | _
  · exact iff_of_true rfl fun _ ↦ Or.inl rfl
  · -- a result, whose logs and artifacts come first
    obtain ⟨hlogged, -⟩ := @logged_handing _ env job _ _ h
      (.ok (some a)) (.ok (some b))
    obtain ⟨hstored, -⟩ := @stored_handing _ env job _ _ h
      (.ok (some a)) (.ok (some b))
    have hserved : ∀ (o : Outcome) (c : ExecutorJobResult), o = .ok (some c) →
        served (handing redactor env o) job = (do
          logged (handing redactor env o) job c
          stored (handing redactor env o) job c
          return c) := by
      rintro o c rfl
      rfl
    rw [hserved _ a rfl, hserved _ b rfl, ← hlogged, ← hstored, delivers]
    rcases logged (handing redactor env (.ok (some a))) job a with thrown | ⟨⟨⟩⟩
    · exact iff_of_true rfl fun hdelivers ↦ by cases hdelivers
    rcases stored (handing redactor env (.ok (some a))) job a with thrown | ⟨⟨⟩⟩
    · exact iff_of_true rfl fun hdelivers ↦ by cases hdelivers
    · exact (endOf_eq_iff h).trans ⟨fun hequal _ ↦ hequal, fun hequal ↦ hequal rfl⟩
  · exact hthrown (.job h)
  · exact hthrown (.idempotency h)
  · exact hthrown (.exception className h)
  · exact hthrown .error

end Runs

/-! ## A command line in an exception -/

namespace Small

/-- A remote command fails, and what it wrote becomes the details of an exception. -/
def stderr (text : String) : Outcome :=
  .error (.job (.create .userCodeError (some "deploy.ssh-bash.command")
    (some "SSH Bash deployment команда завершилась с ошибкой") (some text)
    [("exitCode", .num (.int 1))] .failed))

/-- A result with logs. -/
def stdout (text : String) : Outcome := .ok (some { result with logs := some text })

theorem alike_stderr {redactor : SecretRedactor} {text text' : String}
    (h : redactor.redact text = redactor.redact text') :
    Alike redactor (stderr text) (stderr text') :=
  .job ⟨rfl, rfl, rfl, rfl, rfl, congrArg some h⟩

theorem alike_stdout {redactor : SecretRedactor} {text text' : String}
    (h : redactor.redact text = redactor.redact text') :
    Alike redactor (stdout text) (stdout text') :=
  .result ⟨rfl, rfl, rfl, rfl, congrArg some h, rfl, .none⟩

end Small

/-- Secrets in the logs are not disclosed. -/
theorem indistinguishable_stdout :
    messages (.default "\n") Small.succeeding .noop Small.job (Small.stdout "token: abc") =
      messages (.default "\n") Small.succeeding .noop Small.job (Small.stdout "token: def") :=
  (indistinguishable_iff _ _ _ _ (Small.alike_stdout (by decide +kernel))).mpr
    fun _ _ _ ↦ Or.inl rfl

/-- The redactor masks the password, and the terminal event carries it. -/
theorem distinguishable_stderr :
    Alike (.default "\n") (Small.stderr "password=hunter2") (Small.stderr "password=hunter3") ∧
    messages (.default "\n") Small.succeeding .noop Small.job (Small.stderr "password=hunter2") ≠
      messages (.default "\n") Small.succeeding .noop Small.job
        (Small.stderr "password=hunter3") := by
  refine ⟨Small.alike_stderr (by decide +kernel), ?_⟩
  decide +kernel

end FuzzingCiCd.Executor.ExecutorJobHandler
