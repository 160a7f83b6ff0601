import FuzzingCiCd.Executor.Reports

/-!
# A call of the handler with what it leaves to others

`handleWithLoggingContext` from `metrics.jobStarted` to `metrics.jobStopped`. Beside the events of
`Progress` it notes what the log publisher accepted, and which calls the counters and the `finally`
block have attempted: a call of the `finally` block that throws ends the block, and the calls after
it are not attempted.

Apart from the notes it is `handle`: `observes_handle`.
-/

namespace FuzzingCiCd.Executor.ExecutorJobHandler

open Contracts

/-! ## Notes -/

/-- The calls around the body of the handler. -/
inductive Surrounding where
  | jobStarted
  | cleanup (failed : Bool)
  | close
  | jobStopped
  deriving DecidableEq

/-- What is noted beside `Progress`: the accepted log messages and the attempted calls. -/
structure Notes where
  logs : List ExecutorEventMessage
  attempts : List Surrounding
  deriving DecidableEq

def Notes.empty : Notes := ⟨[], []⟩

/-- The counters around the body; `jobFinished` belongs to `Environment`. -/
structure ExecutorJobMetrics where
  jobStarted : Except Failure Unit
  jobStopped : Except Failure Unit

def ExecutorJobMetrics.noop : ExecutorJobMetrics := ⟨.ok (), .ok ()⟩

/-- A step of the handler with its notes. -/
abbrev NotedStep (α : Type) := Exec (Progress × Notes) Thrown α

def noteLog (message : ExecutorEventMessage) : NotedStep Unit :=
  Exec.modify fun s ↦ (s.1, { s.2 with logs := s.2.logs ++ [message] })

def noteAttempt (surrounding : Surrounding) : NotedStep Unit :=
  Exec.modify fun s ↦ (s.1, { s.2 with attempts := s.2.attempts ++ [surrounding] })

/-! ## The method -/

section Method

variable (env : Environment) (metrics : ExecutorJobMetrics) (job : JobMessage)

def publishLogsNoted (result : ExecutorJobResult) : NotedStep Unit :=
  match result.logs with
  | none => return ()
  | some logs =>
    if JavaText.isBlank logs then return ()
    else do
      Exec.onFst (call (env.publishLog (logEvent env job logs)))
      noteLog (logEvent env job logs)

def serveNoted : NotedStep ExecutorJobResult := do
  let result ← Exec.onFst (execute env job)
  publishLogsNoted env job result
  Exec.onFst (publishArtifacts env job result)
  return result

def bodyNoted : NotedStep ExecutorEventMessage := do
  Exec.onFst (Exec.ofExcept ((validate job).mapError Thrown.job))
  let decision ← Exec.onFst (call (env.acquire job))
  Exec.onFst (Exec.modify fun progress ↦ { progress with claimed := true })
  if !decision.shouldExecute then Exec.onFst (skipDuplicate env job decision)
  else
    Exec.onFst (call (env.createWorkspace job))
    Exec.onFst (Exec.modify fun progress ↦ { progress with workspace := true })
    Exec.onFst (publishEvent env (runningEvent env job))
    let result ← serveNoted env job
    Exec.onFst (conclude env job result)

/-- A call of the `finally` block that is made only in some states. -/
def attemptIf (test : Progress → Bool) (surrounding : Progress → Surrounding)
    (outcome : Progress → Except Failure Unit) : NotedStep Unit := do
  let s ← Exec.get
  if test s.1 then
    noteAttempt (surrounding s.1)
    Exec.onFst (call (outcome s.1))
  else return ()

/-- The `finally` block. -/
def finish : NotedStep Unit := do
  attemptIf Progress.workspace
    (fun progress ↦ .cleanup (shouldPreserveAsFailure progress.cleanupStatus))
    fun progress ↦ env.cleanup (shouldPreserveAsFailure progress.cleanupStatus)
  attemptIf Progress.claimed (fun _ ↦ .close) fun _ ↦ env.close
  attemptIf (fun _ ↦ true) (fun _ ↦ .jobStopped) fun _ ↦ metrics.jobStopped

def handleWithLoggingContext : NotedStep ExecutorEventMessage := do
  attemptIf (fun _ ↦ true) (fun _ ↦ .jobStarted) fun _ ↦ metrics.jobStarted
  Exec.ensure
    (Exec.recover (bodyNoted env job) fun thrown ↦ Exec.onFst (handleThrown env job thrown))
    (finish env metrics)

/-- A call, from its first step on. -/
def run : Except Thrown ExecutorEventMessage × (Progress × Notes) :=
  handleWithLoggingContext env metrics job (.initial, .empty)

end Method

/-! ## Without the notes -/

section Observation

variable (env : Environment) (job : JobMessage)

theorem observes_publishLogs (result : ExecutorJobResult) :
    Exec.Observes (publishLogsNoted env job result) (publishLogs env job result) := by
  rw [publishLogsNoted, publishLogs]
  cases result.logs with
  | none => exact Exec.observes_pure _
  | some logs =>
    dsimp only
    by_cases hblank : JavaText.isBlank logs = true
    · rw [if_pos hblank, if_pos hblank]
      exact Exec.observes_pure _
    · rw [if_neg hblank, if_neg hblank]
      rintro ⟨p, notes⟩
      rcases hcall : env.publishLog (logEvent env job logs) with failure | ⟨⟨⟩⟩
      · rfl
      · rfl

theorem observes_serve : Exec.Observes (serveNoted env job) (serve env job) :=
  (Exec.observes_onFst _).bind fun result ↦ (observes_publishLogs env job result).bind fun _ ↦
    (Exec.observes_onFst _).bind fun _ ↦ Exec.observes_pure _

theorem observes_body : Exec.Observes (bodyNoted env job) (body env job) := by
  refine (Exec.observes_onFst _).bind fun _ ↦ (Exec.observes_onFst _).bind fun decision ↦
    (Exec.observes_onFst _).bind fun _ ↦ ?_
  by_cases hskip : (!decision.shouldExecute) = true
  · rw [if_pos hskip, if_pos hskip]
    exact Exec.observes_onFst _
  · rw [if_neg hskip, if_neg hskip]
    exact (Exec.observes_onFst _).bind fun _ ↦ (Exec.observes_onFst _).bind fun _ ↦
      (Exec.observes_onFst _).bind fun _ ↦ (observes_serve env job).bind fun result ↦
        Exec.observes_onFst _

theorem observes_attemptIf (test : Progress → Bool) (surrounding : Progress → Surrounding)
    (outcome : Progress → Except Failure Unit) :
    Exec.Observes (attemptIf test surrounding outcome) (callIf test outcome) := by
  rintro ⟨p, notes⟩
  rw [attemptIf, callIf, Exec.bind_of_ok (Exec.get_apply _), Exec.bind_of_ok (Exec.get_apply _)]
  by_cases htest : test p = true
  · rw [if_pos htest, if_pos htest]
    exact (Exec.observes_onFst (call (outcome p))).modify_bind
      (f := fun notes ↦ { notes with attempts := notes.attempts ++ [surrounding p] }) (p, notes)
  · rw [if_neg htest, if_neg htest]
    rfl

/-- **The handler.** When the counters do not throw, a call is `handle` with its notes. -/
theorem observes_handle :
    Exec.Observes (handleWithLoggingContext env .noop job) (handle env job) := by
  have hstop : Exec.Observes (finish env .noop) (release env) := by
    intro s
    have hall := ((observes_attemptIf Progress.workspace
      (fun progress ↦ .cleanup (shouldPreserveAsFailure progress.cleanupStatus))
      (fun progress ↦ env.cleanup (shouldPreserveAsFailure progress.cleanupStatus))).bind fun _ ↦
        (observes_attemptIf Progress.claimed (fun _ ↦ .close) (fun _ ↦ env.close)).bind fun _ ↦
          observes_attemptIf (fun _ ↦ true) (fun _ ↦ .jobStopped) fun _ ↦ .ok ()) s
    refine hall.trans ?_
    rw [release]
    rcases hcleanup : callIf Progress.workspace _ s.1 with ⟨thrown | ⟨⟨⟩⟩, p⟩
    · rw [Exec.bind_of_error hcleanup, Exec.bind_of_error hcleanup]
    · rw [Exec.bind_of_ok hcleanup, Exec.bind_of_ok hcleanup]
      rcases hclose : callIf Progress.claimed (fun _ ↦ env.close) p with ⟨thrown | ⟨⟨⟩⟩, q⟩
      · rw [Exec.bind_of_error hclose]
      · rw [Exec.bind_of_ok hclose]
        rfl
  intro s
  exact ((observes_body env job).recover fun thrown ↦ Exec.observes_onFst _).ensure hstop _

end Observation

end FuzzingCiCd.Executor.ExecutorJobHandler
