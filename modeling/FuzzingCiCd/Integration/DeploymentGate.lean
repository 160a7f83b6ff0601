import FuzzingCiCd.Executor.DeploymentParameters
import FuzzingCiCd.Master.Approvals

/-!
# Guarded deployments

The master asks for an approval when its own reading of a job's parameters names a guarded
environment; the deploy service deploys to the environment of its own reading. The two differ in
three ways: the service falls back to a default where the master sees no environment, it strips
the text the master takes as it is, and the master takes the text `null` for no environment.

The theorem compares them on whole histories. Dispatching at most once holds whatever the
parameters are.

## Main results

* `asks_iff`: the two readings of the parameters compared.
* `dispatched_once`: nothing is dispatched twice, with or without an approval.
* `gated_throughout_iff`: for which histories no deployment to a guarded environment goes out
  without an approval.
-/

namespace FuzzingCiCd.Integration

open Transition Master PipelineRunService Executor

/-! ## The claim on the messages -/

/-- Deploying to the named environment takes an approval. -/
def Guards (c : Catalog) (name : String) : Prop :=
  ∃ environment, c.findEnvironment name = some environment ∧
    (environment.config.pathAsBoolean "protected" ||
      environment.config.pathAsBoolean "requires_approval") = true

/-- The deploy service deploys a job with these parameters to a guarded environment. -/
def DeploysGuarded (c : Catalog) (jobType : String) (params : Option JsonMap) : Prop :=
  jobType = JobType.deploy.value ∧
    ∃ name, DeploymentParameters.environment (params.getD []) = .ok name ∧ Guards c name

/-- One dispatch for an execution at most, and none to a guarded environment without approval. -/
structure Gated (c : Catalog) (db : Db) : Prop where
  once : ∀ x, (db.dispatches.filter fun event ↦ event.aggregateId = x).length ≤ 1
  approved : ∀ event ∈ db.dispatches, ∀ message, event.payload = .job message →
    DeploysGuarded c message.jobType message.params →
    ∃ a ∈ db.approvals, a.jobExecutionId = event.aggregateId ∧ a.status = .approved

/-! ## The two readings -/

/-- The job is dispatched with parameters that take it to a guarded environment. -/
def DeploysJobGuarded (c : Catalog) (job : JobEntity) : Prop :=
  ∃ params, JobMessageFactory.toMap job.params = .ok params ∧
    DeploysGuarded c job.jobType.value params

/-- The text of the parameters, as it stands, names a guarded environment. -/
def NamesGuarded (c : Catalog) (job : JobEntity) : Prop :=
  ∃ text, job.params.get? "environment" = some (.str text) ∧ JavaText.isBlank text = false ∧
    JavaText.equalsIgnoreCase "null" text = false ∧ Guards c text

section Readings

variable {c : Catalog} {job : JobEntity}

theorem property_toMap {params : Option JsonMap}
    (h : JobMessageFactory.toMap job.params = .ok params) :
    Json.property (params.getD []) DeploymentParameters.ENVIRONMENT_KEY =
      ((job.params.get? "environment").map SensitiveDataSanitizer.redact).getD .null := by
  have hkey : SensitiveDataSanitizer.isSensitiveKey "environment" = false := by decide +kernel
  rw [← SensitiveDataSanitizer.get?_redact hkey, Json.property,
    DeploymentParameters.ENVIRONMENT_KEY]
  rw [JobMessageFactory.toMap] at h
  split at h
  · rename_i hnull
    obtain rfl := Except.ok.inj h
    rw [hnull]
    rfl
  · rename_i fields hobj
    obtain rfl := Except.ok.inj h
    rw [hobj]
    rfl
  · cases h

/-- The master asks exactly where the text names a guarded environment. -/
theorem asks_iff_of_text (htype : job.jobType = .deploy) {text : String}
    (htext : job.params.get? "environment" = some (.str text)) :
    Asks c job ↔ NamesGuarded c job := by
  have hread : readEnvironmentName job.params =
      if JavaText.isBlank text || JavaText.equalsIgnoreCase "null" text then none
      else some text := by
    rw [readEnvironmentName, htext]
    rfl
  have hnames : NamesGuarded c job ↔ JavaText.isBlank text = false ∧
      JavaText.equalsIgnoreCase "null" text = false ∧ Guards c text := by
    constructor
    · rintro ⟨text', htext', hrest⟩
      obtain rfl := Json.str.inj (Option.some.inj (htext.symm.trans htext'))
      exact hrest
    · exact fun hrest ↦ ⟨text, htext, hrest⟩
  rw [hnames, Asks, resolveApprovalEnvironment, if_neg (by simp [htype]), hread]
  by_cases hnone : (JavaText.isBlank text || JavaText.equalsIgnoreCase "null" text) = true
  · rw [if_pos hnone]
    rw [Bool.or_eq_true] at hnone
    refine iff_of_false (by simp) ?_
    rintro ⟨hblank, hnull, -⟩
    simp [hblank, hnull] at hnone
  · rw [if_neg hnone]
    rw [Bool.or_eq_true, not_or, Bool.not_eq_true, Bool.not_eq_true] at hnone
    rw [and_iff_right hnone.1, and_iff_right hnone.2, Guards]
    dsimp only
    cases hfind : c.findEnvironment text with
    | none => simp
    | some environment =>
      simp only [Option.some.injEq, exists_eq_left', apply_ite Option.isSome, Option.isSome_some,
        Option.isSome_none, Bool.if_false_right, Bool.and_true, Bool.decide_eq_true]

/-- **The readings compared.** A guarded deployment is one the master asks about exactly when the
unstripped text names a guarded environment. -/
theorem asks_iff (h : DeploysJobGuarded c job) : Asks c job ↔ NamesGuarded c job := by
  obtain ⟨params, hparams, htype, name, hname, -⟩ := h
  have hdeploy : job.jobType = .deploy := by
    cases hjob : job.jobType <;> rw [hjob] at htype <;>
      first | rfl | exact absurd htype (by decide)
  rw [DeploymentParameters.environment_eq_ok, property_toMap hparams] at hname
  rcases hget : job.params.get? "environment" with _ | value
  · -- no environment: the service takes its default, the master sees none
    refine iff_of_false ?_ ?_
    · simp [Asks, resolveApprovalEnvironment, readEnvironmentName, hget]
    · rintro ⟨text, htext, -⟩
      exact absurd (hget.symm.trans htext) (by simp)
  · rw [hget, Option.map_some, Option.getD_some, SensitiveDataSanitizer.redact_eq_null] at hname
    rcases hname with ⟨rfl, -⟩ | ⟨text, htext, -⟩
    · refine iff_of_false ?_ ?_
      · simp [Asks, resolveApprovalEnvironment, readEnvironmentName, hget]
      · rintro ⟨text, htext, -⟩
        exact absurd (hget.symm.trans htext) (by simp)
    · rw [SensitiveDataSanitizer.redact_eq_str] at htext
      exact asks_iff_of_text hdeploy (htext ▸ hget)

end Readings

/-! ## Histories -/

/-- Nothing is dispatched twice. -/
theorem dispatched_once {c : Catalog} {db : Db} (h : Ledger c db) (x : UUID) :
    (db.dispatches.filter fun event ↦ event.aggregateId = x).length ≤ 1 := by
  have hcount := List.nodup_iff_count_le_one.mp h.sent_once x
  rw [Db.sent, List.count, List.countP_map, List.countP_eq_length_filter] at hcount
  exact hcount

/-- **The gate.** Every dispatch of a history is the only one of its execution, and no deployment
to a guarded environment is dispatched before it is approved, exactly when the parameters of every
job that is executed and deployed to a guarded environment name a guarded environment as they
stand. -/
theorem gated_throughout_iff (c : Catalog) (calls : List Call) :
    (∀ js, js <+: calls → Gated c (history c js)) ↔
      ∀ e ∈ (history c calls).executions, ∀ job, c.findJob e.jobId = some job →
        DeploysJobGuarded c job → NamesGuarded c job := by
  constructor
  · intro hgated e he job hjob hguarded
    have hledger := ledger_history c calls
    obtain ⟨job', hjob', hcreated⟩ := hledger.created e he
    obtain rfl := Option.some.inj (hjob.symm.trans hjob')
    rcases hcreated with ⟨hasks, -⟩ | ⟨-, hsent, hnone⟩
    · exact (asks_iff hguarded).mp hasks
    · -- it was dispatched as it was created, and nothing was ever requested
      obtain ⟨event, hevent, hid⟩ := List.mem_map.mp hsent
      obtain ⟨e', he', hid', job', message, hfind, hcarries⟩ := hledger.carried event hevent
      obtain rfl := hledger.sound.executions_keyed.eq he he' (hid.symm.trans hid'.symm)
      obtain rfl := Option.some.inj (hjob.symm.trans hfind)
      obtain ⟨params, hparams, hdeploys⟩ := hguarded
      obtain rfl := Except.ok.inj (hcarries.params.symm.trans hparams)
      rw [← hcarries.jobType] at hdeploys
      obtain ⟨a, ha, haid, -⟩ := (hgated calls List.prefix_rfl).approved event hevent message
        hcarries.payload hdeploys
      exact absurd (List.mem_map.mpr ⟨a, ha, haid.trans hid⟩) hnone
  · rintro hreads js ⟨later, rfl⟩
    have hledger := ledger_history c js
    refine ⟨dispatched_once hledger, fun event hevent message hpayload hdeploys ↦ ?_⟩
    obtain ⟨e, he, hid, job, message', hjob, hcarries⟩ := hledger.carried event hevent
    obtain rfl := OutboxPayload.job.inj (hcarries.payload.symm.trans hpayload)
    rw [hcarries.jobType] at hdeploys
    have hguarded : DeploysJobGuarded c job := ⟨_, hcarries.params, hdeploys⟩
    obtain ⟨e', he', hjobId⟩ := execution_of_history later he
    have hasks := (asks_iff hguarded).mpr (hreads e' he' job (hjobId ▸ hjob) hguarded)
    obtain ⟨job', hjob', hcreated⟩ := hledger.created e he
    obtain rfl := Option.some.inj (hjob.symm.trans hjob')
    rcases hcreated with ⟨-, hrequested⟩ | ⟨hno, -⟩
    · rw [← hid]
      exact hledger.approved_of_sent (hid ▸ List.mem_map_of_mem hevent) hrequested
    · exact absurd hasks hno

/-- A deployment to the protected environment, with a space in front of its name. -/
def spaced : Catalog :=
  Small.pipeline
    [{ Small.deployment 2 0 with params := .obj [("environment", .str " production")] }]
    [] (by decide) (by decide)

theorem deployed_without_approval : ¬ ∀ c calls, Gated c (history c calls) := by
  intro h
  have hgated := h spaced [Small.call (.createRun 0 none)]
  have hnone : (history spaced [Small.call (.createRun 0 none)]).approvals = [] := by
    decide +kernel
  have hsent : (history spaced [Small.call (.createRun 0 none)]).dispatches.map
      (fun event ↦ event.payload.casesOn (fun message ↦ some (message.jobType, message.params))
        fun _ ↦ none) =
      [some ("deploy", some [("environment", .str " production")])] := by
    decide +kernel
  obtain ⟨event, hevent, hmessage⟩ := List.mem_map.mp
    (hsent.symm ▸ List.mem_singleton_self (some ("deploy", some [("environment", Json.str
      " production")])))
  rcases hpayload : event.payload with message | cancel
  · rw [hpayload] at hmessage
    obtain ⟨htype, hparams⟩ := Prod.mk.inj (Option.some.inj hmessage)
    have hdeploys : DeploysGuarded spaced message.jobType message.params := by
      rw [htype, hparams]
      exact ⟨rfl, "production", by decide, _, rfl, rfl⟩
    obtain ⟨a, ha, -⟩ := hgated.approved event hevent message hpayload hdeploys
    rw [hnone] at ha
    exact absurd ha List.not_mem_nil
  · rw [hpayload] at hmessage
    cases hmessage

end FuzzingCiCd.Integration
