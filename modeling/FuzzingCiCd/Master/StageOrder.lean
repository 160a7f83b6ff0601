import FuzzingCiCd.Master.GraphRuns

/-!
# Stages in order

Without explicit dependencies the builder lets every job wait for the jobs of the stage before its
own and, in a sequential stage, for the job before it. That a job waits for *all* earlier stages
follows from stage to stage, along a chain of jobs. A stage without jobs breaks the chain: nothing
in the stage after it waits for anything.

`stagesOrdered_iff` says that the stages run in order exactly when no stage without jobs stands
between stages that have some.

## Main results

* `mem_dependencies`: the implicit edges of a job.
* `stagesOrdered_iff`: for which pipelines all runs keep the order of the stages.
-/

namespace FuzzingCiCd.Master

open ReadyJobResolver

namespace ExecutionGraphBuilder

/-! ## Implicit edges

The builder goes through the stages by position and through the jobs of each by theirs. The edges
of a job are read off from the place at which it comes: the jobs of the stage before, and in a
sequential stage the job before it, which stands for them. -/

/-- The job that a job of a sequential stage waits for. -/
def previousJob (earlier : List JobEntity) (prev : Option JobEntity) : Option JobEntity :=
  earlier.getLast?.or prev

theorem previousJob_cons (job : JobEntity) (earlier : List JobEntity) (prev : Option JobEntity) :
    previousJob (job :: earlier) prev = previousJob earlier (some job) := by
  rw [previousJob, previousJob, List.getLast?_cons]
  cases earlier.getLast? with
  | none => rfl
  | some last => rfl

/-- The jobs that a job without explicit dependencies waits for. -/
def targets (runPolicy : StageRunPolicy) (previousStageJobs : List JobEntity)
    (previous : Option JobEntity) : List JobEntity :=
  (if runPolicy = .sequential then previous.toList else []) ++ previousStageJobs

theorem stageEdges_cons (runPolicy : StageRunPolicy) (previousStageJobs : List JobEntity)
    (prev : Option JobEntity) (job : JobEntity) (rest : List JobEntity) :
    stageEdges (fun _ ↦ false) runPolicy previousStageJobs prev (job :: rest) =
      (targets runPolicy previousStageJobs prev).map (fun target ↦
        (job.id, ⟨target.id, .onSuccess⟩)) ++
      stageEdges (fun _ ↦ false) runPolicy previousStageJobs (some job) rest := by
  cases runPolicy with
  | parallel => simp [stageEdges, targets]
  | sequential =>
    cases prev with
    | none => simp [stageEdges, targets]
    | some prev => simp [stageEdges, targets]

theorem mem_stageEdges {runPolicy : StageRunPolicy} {previousStageJobs jobs : List JobEntity}
    {prev : Option JobEntity} {jobId : UUID} {edge : DependencyEdge} :
    (jobId, edge) ∈ stageEdges (fun _ ↦ false) runPolicy previousStageJobs prev jobs ↔
      ∃ earlier job later, jobs = earlier ++ job :: later ∧ job.id = jobId ∧
        ∃ target ∈ targets runPolicy previousStageJobs (previousJob earlier prev),
          edge = ⟨target.id, .onSuccess⟩ := by
  induction jobs generalizing prev with
  | nil => simp [stageEdges]
  | cons first rest ih =>
    rw [stageEdges_cons, List.mem_append, List.mem_map, ih]
    constructor
    · rintro (⟨target, htarget, heq⟩ | ⟨earlier, job, later, rfl, hid, htarget⟩)
      · obtain ⟨hid, hedge⟩ := Prod.mk.inj heq
        exact ⟨[], first, rest, rfl, hid, target, htarget, hedge.symm⟩
      · refine ⟨first :: earlier, job, later, rfl, hid, ?_⟩
        rwa [previousJob_cons]
    · rintro ⟨earlier, job, later, heq, hid, htarget⟩
      cases earlier with
      | nil =>
        obtain ⟨rfl, rfl⟩ := List.cons.inj heq
        obtain ⟨target, hmem, rfl⟩ := htarget
        exact Or.inl ⟨target, hmem, by rw [hid]⟩
      | cons e earlier =>
        obtain ⟨rfl, rfl⟩ := List.cons.inj heq
        rw [previousJob_cons] at htarget
        exact Or.inr ⟨earlier, job, later, rfl, hid, htarget⟩

/-- The jobs of the stage before, for the first stage those given. -/
def previousJobs (jobs : List JobEntity) (before : List StageEntity)
    (previousStageJobs : List JobEntity) : List JobEntity :=
  match before.getLast? with
  | none => previousStageJobs
  | some stage => stageJobs jobs stage.id

theorem previousJobs_cons (jobs : List JobEntity) (stage : StageEntity)
    (before : List StageEntity) (previousStageJobs : List JobEntity) :
    previousJobs jobs (stage :: before) previousStageJobs =
      previousJobs jobs before (stageJobs jobs stage.id) := by
  rw [previousJobs, previousJobs, List.getLast?_cons]
  cases before.getLast? with
  | none => rfl
  | some last => rfl

theorem mem_implicitEdges {jobs previousStageJobs : List JobEntity} {stages : List StageEntity}
    {entry : UUID × DependencyEdge} :
    entry ∈ implicitEdges (fun _ ↦ false) jobs previousStageJobs stages ↔
      ∃ before stage after, stages = before ++ stage :: after ∧
        entry ∈ stageEdges (fun _ ↦ false) stage.runPolicy
          (previousJobs jobs before previousStageJobs) none (stageJobs jobs stage.id) := by
  induction stages generalizing previousStageJobs with
  | nil => simp [implicitEdges]
  | cons first rest ih =>
    rw [implicitEdges, List.mem_append, ih]
    constructor
    · rintro (hentry | ⟨before, stage, after, rfl, hentry⟩)
      · exact ⟨[], first, rest, rfl, hentry⟩
      · refine ⟨first :: before, stage, after, rfl, ?_⟩
        rwa [previousJobs_cons]
    · rintro ⟨before, stage, after, heq, hentry⟩
      cases before with
      | nil =>
        obtain ⟨rfl, rfl⟩ := List.cons.inj heq
        exact Or.inl hentry
      | cons s before =>
        obtain ⟨rfl, rfl⟩ := List.cons.inj heq
        rw [previousJobs_cons] at hentry
        exact Or.inr ⟨before, stage, after, rfl, hentry⟩

/-- The stages by position. -/
def orderedStages (stages : List StageEntity) : List StageEntity :=
  stages.insertionSort fun a b ↦ a.position ≤ b.position

/-- **Implicit edges.** Those of a job, from its place among the stages and in its stage. -/
theorem mem_dependencies {stages : List StageEntity} {jobs : List JobEntity} {jobId : UUID}
    {edge : DependencyEdge} :
    edge ∈ (build stages jobs []).dependencies jobId ↔
      ∃ before stage after, orderedStages stages = before ++ stage :: after ∧
        ∃ earlier job later, stageJobs jobs stage.id = earlier ++ job :: later ∧ job.id = jobId ∧
          ∃ target ∈ targets stage.runPolicy (previousJobs jobs before []) earlier.getLast?,
            edge = ⟨target.id, .onSuccess⟩ := by
  have hmem : edge ∈ (build stages jobs []).dependencies jobId ↔
      (jobId, edge) ∈ implicitEdges (fun _ ↦ false) jobs [] (orderedStages stages) := by
    rw [ExecutionGraph.dependencies, List.mem_map]
    constructor
    · rintro ⟨entry, hentry, rfl⟩
      obtain ⟨hin, hid⟩ := List.mem_filter.mp hentry
      rw [← of_decide_eq_true hid]
      exact hin
    · intro hin
      exact ⟨(jobId, edge), List.mem_filter.mpr ⟨hin, decide_eq_true rfl⟩, rfl⟩
  rw [hmem, mem_implicitEdges]
  simp only [mem_stageEdges, previousJob, Option.or_none]

end ExecutionGraphBuilder

open ExecutionGraphBuilder

/-! ## The property -/

/-- When a job is ready, everything before it has succeeded. -/
def StagesSucceeded (stages : List StageEntity) (jobs : List JobEntity)
    (rows : List JobExecutionEntity) : Prop :=
  ∀ before stage after, orderedStages stages = before ++ stage :: after →
    ∀ earlier job later, stageJobs jobs stage.id = earlier ++ job :: later →
      job.id ∈ (build stages jobs []).ready rows →
        (∀ s ∈ before, ∀ k ∈ stageJobs jobs s.id, latestStatus rows k.id = some .success) ∧
          (stage.runPolicy = .sequential →
            ∀ k ∈ earlier, latestStatus rows k.id = some .success)

/-- A stage without jobs does not stand between stages with jobs. -/
def Gapless (stages : List StageEntity) (jobs : List JobEntity) : Prop :=
  ∀ before stage after, orderedStages stages = before ++ stage :: after →
    stageJobs jobs stage.id = [] →
      (∀ s ∈ before, stageJobs jobs s.id = []) ∨ ∀ s ∈ after, stageJobs jobs s.id = []

section Order

variable {stages : List StageEntity} {jobs : List JobEntity}

/-- One job waits for another one, or for one that waits for it. -/
def WaitsFor (stages : List StageEntity) (jobs : List JobEntity) : UUID → UUID → Prop :=
  Relation.TransGen fun j k ↦
    ∃ edge ∈ (build stages jobs []).dependencies j, edge.dependsOnJobId = k

/-! ### Chains -/

theorem waitsFor_target {before after : List StageEntity} {stage : StageEntity}
    (hstages : orderedStages stages = before ++ stage :: after) {earlier later : List JobEntity}
    {job target : JobEntity} (hjobs : stageJobs jobs stage.id = earlier ++ job :: later)
    (htarget : target ∈ ExecutionGraphBuilder.targets stage.runPolicy
      (previousJobs jobs before []) earlier.getLast?) :
    WaitsFor stages jobs job.id target.id :=
  .single ⟨⟨target.id, .onSuccess⟩, mem_dependencies.mpr ⟨before, stage, after, hstages, earlier,
    job, later, hjobs, rfl, target, htarget, rfl⟩, rfl⟩

/-- In a sequential stage a job waits for all earlier ones. -/
theorem waitsFor_earlier {before after : List StageEntity} {stage : StageEntity}
    (hstages : orderedStages stages = before ++ stage :: after)
    (hsequential : stage.runPolicy = .sequential) {earlier later : List JobEntity}
    {job k : JobEntity} (hjobs : stageJobs jobs stage.id = earlier ++ job :: later)
    (hk : k ∈ earlier) : WaitsFor stages jobs job.id k.id := by
  induction earlier using List.reverseRecOn generalizing job later with
  | nil => exact absurd hk List.not_mem_nil
  | append_singleton earlier last ih =>
    have hlast : WaitsFor stages jobs job.id last.id := by
      refine waitsFor_target hstages hjobs ?_
      rw [ExecutionGraphBuilder.targets, if_pos hsequential, List.getLast?_concat]
      exact List.mem_append_left _ (List.mem_singleton.mpr rfl)
    rw [List.append_assoc, List.singleton_append] at hjobs
    rcases List.mem_append.mp hk with hk | hk
    · exact hlast.trans (ih hjobs hk)
    · rwa [List.mem_singleton.mp hk]

/-- Without gaps a job waits for all jobs of earlier stages. -/
theorem waitsFor_before (hgapless : Gapless stages jobs) {before after : List StageEntity}
    {stage : StageEntity} (hstages : orderedStages stages = before ++ stage :: after)
    {job k : JobEntity} (hjob : job ∈ stageJobs jobs stage.id) {s : StageEntity} (hs : s ∈ before)
    (hk : k ∈ stageJobs jobs s.id) : WaitsFor stages jobs job.id k.id := by
  induction before using List.reverseRecOn generalizing stage after job with
  | nil => exact absurd hs List.not_mem_nil
  | append_singleton before previous ih =>
    have hdirect : ∀ m ∈ stageJobs jobs previous.id, WaitsFor stages jobs job.id m.id := by
      intro m hm
      obtain ⟨earlier, later, hjobs⟩ := List.append_of_mem hjob
      refine waitsFor_target hstages hjobs ?_
      rw [ExecutionGraphBuilder.targets, previousJobs, List.getLast?_concat]
      exact List.mem_append_right _ hm
    rw [List.append_assoc, List.singleton_append] at hstages
    rcases List.mem_append.mp hs with hs | hs
    · -- the stage in between has a job, through which the chain goes
      have hnonempty : stageJobs jobs previous.id ≠ [] := by
        intro hempty
        rcases hgapless before previous (stage :: after) hstages hempty with hbefore | hafter
        · rw [hbefore s hs] at hk
          exact absurd hk List.not_mem_nil
        · rw [hafter stage List.mem_cons_self] at hjob
          exact absurd hjob List.not_mem_nil
      obtain ⟨m, hm⟩ := List.exists_mem_of_ne_nil _ hnonempty
      exact (hdirect m hm).trans (ih hstages hm hs)
    · rw [List.mem_singleton.mp hs] at hk
      exact hdirect k hk

theorem stagesSucceeded_of_gapless (hgapless : Gapless stages jobs)
    {rows : List JobExecutionEntity} (hrun : GraphRun (build stages jobs []) rows) :
    StagesSucceeded stages jobs rows := by
  intro before stage after hstages earlier job later hjobs hready
  have hsuccess : ∀ jobId, ∀ edge ∈ (build stages jobs []).dependencies jobId,
      edge.condition = .onSuccess := by
    intro jobId edge hedge
    obtain ⟨-, -, -, -, -, -, -, -, -, target, -, rfl⟩ := mem_dependencies.mp hedge
    rfl
  have hwaits : ∀ {k : UUID}, WaitsFor stages jobs job.id k →
      latestStatus rows k = some .success :=
    fun hk ↦ hrun.founded.success_of_upstream hsuccess (ExecutionGraph.mem_ready.mp hready).2.2 hk
  have hjob : job ∈ stageJobs jobs stage.id := by
    rw [hjobs]
    exact List.mem_append_right _ List.mem_cons_self
  refine ⟨fun s hs k hk ↦ hwaits (waitsFor_before hgapless hstages hjob hs hk), ?_⟩
  exact fun hsequential k hk ↦ hwaits (waitsFor_earlier hstages hsequential hjobs hk)

/-! ### Gaps

A stage without jobs leaves nothing to wait for, so the stage behind it starts at once. In the
other direction the first stage with jobs behind such a gap has a job without dependencies, and
the run in which it starts before anything else is over is a counterexample. -/

/-- The first stage with jobs after a stage without any. -/
theorem exists_after_gap (hgap : ¬ Gapless stages jobs) :
    ∃ before stage after, orderedStages stages = before ++ stage :: after ∧
      previousJobs jobs before [] = [] ∧ stageJobs jobs stage.id ≠ [] ∧
      ∃ s ∈ before, stageJobs jobs s.id ≠ [] := by
  rw [Gapless] at hgap
  push Not at hgap
  obtain ⟨before, gap, after, hstages, hempty, ⟨s, hs, hsjobs⟩, t, ht, htjobs⟩ := hgap
  have hsome : (after.find? fun t ↦ stageJobs jobs t.id ≠ []).isSome :=
    List.find?_isSome.mpr ⟨t, ht, decide_eq_true htjobs⟩
  obtain ⟨stage, hfind⟩ := Option.isSome_iff_exists.mp hsome
  obtain ⟨hstage, gaps, rest, rfl, hgaps⟩ := List.find?_eq_some_iff_append.mp hfind
  refine ⟨before ++ gap :: gaps, stage, rest, ?_, ?_, of_decide_eq_true hstage, s,
    List.mem_append_left _ hs, hsjobs⟩
  · rw [hstages, List.append_assoc, List.cons_append]
  · rw [previousJobs, List.getLast?_append_cons, List.getLast?_cons]
    cases hlast : gaps.getLast? with
    | none => exact hempty
    | some last => simpa using hgaps last (List.mem_of_getLast? hlast)

theorem keyed_orderedStages (hstages : Table.Keyed StageEntity.id stages) :
    Table.Keyed StageEntity.id (orderedStages stages) :=
  ((List.perm_insertionSort _ stages).map StageEntity.id).nodup_iff.mpr hstages

theorem keyed_stageJobs (hjobs : Table.Keyed JobEntity.id jobs) (stageId : UUID) :
    Table.Keyed JobEntity.id (stageJobs jobs stageId) :=
  ((List.perm_insertionSort _ _).map JobEntity.id).nodup_iff.mpr (hjobs.filter _)

theorem mem_stageJobs {job : JobEntity} {stageId : UUID} :
    job ∈ stageJobs jobs stageId ↔ job ∈ jobs ∧ job.stageId = stageId := by
  rw [stageJobs, List.mem_insertionSort, List.mem_filter, decide_eq_true_iff]

theorem eq_of_split {α : Type} {key : α → UUID} {l before before' after after' : List α} {a a' : α}
    (hl : Table.Keyed key l) (h : l = before ++ a :: after) (h' : l = before' ++ a' :: after')
    (hkey : key a' = key a) : before' = before ∧ a' = a := by
  have hnodup := List.Nodup.of_map key hl
  have ha : a' = a := hl.eq (by simp [h']) (by simp [h]) hkey
  subst ha
  have hsplit := h'.symm.trans h
  rw [h', List.nodup_append] at hnodup
  have hbefore : a' ∉ before' := fun hmem ↦ hnodup.2.2 a' hmem a' List.mem_cons_self rfl
  have hafter : a' ∉ after' := (List.nodup_cons.mp hnodup.2.1).1
  exact ⟨((List.append_cons_inj_of_notMem hbefore hafter).mp hsplit).1, rfl⟩

/-- The first job of a stage that follows a stage without jobs waits for nothing. -/
theorem dependencies_eq_nil (hkeyed : Table.Keyed StageEntity.id stages)
    (hjobs : Table.Keyed JobEntity.id jobs) {before after : List StageEntity} {stage : StageEntity}
    (hstages : orderedStages stages = before ++ stage :: after)
    (hprevious : previousJobs jobs before [] = []) {job : JobEntity} {later : List JobEntity}
    (hfirst : stageJobs jobs stage.id = job :: later) :
    (build stages jobs []).dependencies job.id = [] := by
  rw [List.eq_nil_iff_forall_not_mem]
  intro edge hedge
  obtain ⟨before', stage', after', hstages', earlier, job', later', hjobs', hid, target, htarget,
    -⟩ := mem_dependencies.mp hedge
  have hjob := mem_stageJobs.mp (show job ∈ stageJobs jobs stage.id by simp [hfirst])
  have hjob' := mem_stageJobs.mp (show job' ∈ stageJobs jobs stage'.id by simp [hjobs'])
  obtain rfl := hjobs.eq hjob'.1 hjob.1 hid
  obtain ⟨rfl, rfl⟩ := eq_of_split (keyed_orderedStages hkeyed) hstages hstages'
    (hjob'.2.symm.trans hjob.2)
  obtain ⟨rfl, -⟩ := eq_of_split (keyed_stageJobs hjobs stage'.id)
    (hfirst.trans (List.nil_append _).symm) hjobs' rfl
  rw [hprevious] at htarget
  simp [ExecutionGraphBuilder.targets] at htarget

end Order

/-- **Stage ordering.** In all runs all jobs wait for the stages before their own and, in a
sequential stage, for the jobs before them, exactly when no stage without jobs stands between
stages with jobs. -/
theorem stagesOrdered_iff {stages : List StageEntity} {jobs : List JobEntity}
    (hstages : Table.Keyed StageEntity.id stages) (hjobs : Table.Keyed JobEntity.id jobs) :
    (∀ rows, GraphRun (build stages jobs []) rows → StagesSucceeded stages jobs rows) ↔
      Gapless stages jobs := by
  constructor
  · intro hordered
    by_contra hgap
    -- at the start of a run the first job after the gap is ready
    obtain ⟨before, stage, after, hsplit, hprevious, hnonempty, s, hs, hsjobs⟩ :=
      exists_after_gap hgap
    obtain ⟨job, later, hfirst⟩ := List.exists_cons_of_ne_nil hnonempty
    obtain ⟨k, hk⟩ := List.exists_mem_of_ne_nil _ hsjobs
    have hjob := mem_stageJobs.mp (show job ∈ stageJobs jobs stage.id by simp [hfirst])
    have hready : job.id ∈ (build stages jobs []).ready [] := by
      refine ExecutionGraph.mem_ready.mpr ⟨⟨job, hjob.1, rfl⟩, by simp, ?_⟩
      rw [dependencies_eq_nil hstages hjobs hsplit hprevious hfirst]
      simp
    have hsucceeded := (hordered [] .start before stage after hsplit [] job later hfirst hready).1
      s hs k hk
    exact absurd hsucceeded (by simp [latestStatus, Latest.latest, Latest.descending])
  · exact fun hgapless rows hrun ↦ stagesSucceeded_of_gapless hgapless hrun

/-- The runs of the master, as long as nothing is retried. -/
theorem stagesSucceeded_history (c : Catalog) {calls : List Call}
    (hretry : ∀ call ∈ calls, call.operation.isRetry = false) {r : UUID} {v : RunView}
    (hv : (history c calls).view r = some v)
    (hexplicit : c.dependenciesOf ((c.jobsOf v.run.pipelineId).map JobEntity.id) = [])
    (hgapless : Gapless (c.stagesOf v.run.pipelineId) (c.jobsOf v.run.pipelineId)) :
    StagesSucceeded (c.stagesOf v.run.pipelineId) (c.jobsOf v.run.pipelineId) v.rows := by
  have hrun := graphRun_history c hretry hv
  rw [Catalog.graphOf, hexplicit] at hrun
  exact stagesSucceeded_of_gapless hgapless hrun

theorem gapless_of_nonempty {stages : List StageEntity} {jobs : List JobEntity}
    (h : ∀ stage ∈ stages, stageJobs jobs stage.id ≠ []) : Gapless stages jobs := by
  intro before stage after hstages hempty
  have hmem : stage ∈ orderedStages stages := by
    rw [hstages]
    exact List.mem_append_right _ List.mem_cons_self
  exact absurd hempty (h stage ((List.mem_insertionSort _).mp hmem))

namespace Small

/-- Stages for building, testing and deploying. -/
def stages : List StageEntity :=
  [⟨1, 0, 1, .sequential⟩, ⟨2, 0, 2, .parallel⟩, ⟨3, 0, 3, .sequential⟩]

def stageJob (id stageId position : ℕ) : JobEntity := { job id position with stageId := stageId }

/-- Every stage has jobs. -/
def stagedJobs : List JobEntity :=
  [stageJob 10 1 1, stageJob 11 1 2, stageJob 20 2 1, stageJob 30 3 1]

/-- There is nothing to test. -/
def untestedJobs : List JobEntity := [stageJob 10 1 1, stageJob 11 1 2, stageJob 30 3 1]

end Small

theorem stagesSucceeded_start : StagesSucceeded Small.stages Small.stagedJobs [] :=
  (stagesOrdered_iff (by decide) (by decide)).mpr (gapless_of_nonempty (by decide)) [] .start

/-- With an empty stage in between, the deployment is ready before anything was built. -/
theorem ready_across_gap : ∃ rows, GraphRun (build Small.stages Small.untestedJobs []) rows ∧
    ¬ StagesSucceeded Small.stages Small.untestedJobs rows := by
  refine ⟨[], .start, fun h ↦ ?_⟩
  have hsuccess := (h [⟨1, 0, 1, .sequential⟩, ⟨2, 0, 2, .parallel⟩] ⟨3, 0, 3, .sequential⟩ []
    (by decide) [] (Small.stageJob 30 3 1) [] (by decide) (by decide)).1
    ⟨1, 0, 1, .sequential⟩ (by decide) (Small.stageJob 10 1 1) (by decide)
  exact absurd hsuccess (by decide)

end FuzzingCiCd.Master
