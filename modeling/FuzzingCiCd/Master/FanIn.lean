import FuzzingCiCd.Master.EventTransactions
import Mathlib.Data.List.Induction

/-!
# Upstream jobs that finish together

The events of all unfinished upstream jobs of a job are handled, each in a transaction of its own.
The job is dispatched exactly if one of the transactions looks for ready jobs after all the others
have committed: two of them that overlap each miss the end of the other one.

`Follows` is the invariant of schedules. It says what is committed in terms of the transactions that
have committed, and that nobody but a last transaction dispatches the job.

## Main results

* `FanIn.mem_of_ready`, `FanIn.ready`: the job is ready exactly when all events are applied.
* `Follows.move`, `exists_follows`: the invariant, for a move and for a schedule.
* `dispatched_iff`: when the job is dispatched.
-/

namespace FuzzingCiCd.Master

/-! ## Rows with the events of some transactions -/

/-- The row with the event about it, if one of the transactions has one, applied. -/
def applyAmong (done : List EventTransaction) (e : JobExecutionEntity) : JobExecutionEntity :=
  match done.find? fun t ↦ t.message.jobExecutionId = some e.id with
  | some t => t.applied e
  | none => e

/-- Rows for jobs and with identifiers that are new to the run. -/
def NewTo (v : RunView) (fresh : List JobExecutionEntity) : Prop :=
  ∀ f ∈ fresh, ∀ e ∈ v.rows, e.jobId ≠ f.jobId ∧ e.id ≠ f.id

section Among

variable {done : List EventTransaction} {t : EventTransaction} {e : JobExecutionEntity}

theorem keeps_applyAmong (done : List EventTransaction) : Keeps (applyAmong done) := by
  constructor
  all_goals
    intro e
    rw [applyAmong]
    split
    · rfl
    · rfl

theorem applyAmong_of_mem (ht : t ∈ done) (hid : t.message.jobExecutionId = some e.id)
    (hunique : ∀ t' ∈ done, t'.message.jobExecutionId = some e.id → t' = t) :
    applyAmong done e = t.applied e := by
  rcases hfind : done.find? (fun t ↦ t.message.jobExecutionId = some e.id) with _ | t'
  · have hnone := List.find?_eq_none.mp hfind t ht
    exact absurd (decide_eq_true hid) hnone
  · have hid' : t'.message.jobExecutionId = some e.id := by simpa using List.find?_some hfind
    rw [applyAmong, hfind, hunique t' (List.mem_of_find?_eq_some hfind) hid']

theorem applyAmong_of_not (h : ∀ t ∈ done, t.message.jobExecutionId ≠ some e.id) :
    applyAmong done e = e := by
  have hfind : done.find? (fun t ↦ t.message.jobExecutionId = some e.id) = none := by
    rw [List.find?_eq_none]
    intro t ht
    simpa using h t ht
  rw [applyAmong, hfind]

theorem applyAmong_concat_of_ne (hid : t.message.jobExecutionId ≠ some e.id) :
    applyAmong (done ++ [t]) e = applyAmong done e := by
  have hlast : List.find? (fun t ↦ t.message.jobExecutionId = some e.id) [t] = none := by
    rw [List.find?_eq_none]
    intro t' ht'
    rw [List.mem_singleton.mp ht']
    simpa using hid
  rw [applyAmong, List.find?_append, hlast, Option.or_none, applyAmong]

/-- **What a transaction sees.** Its own row in place of the committed one. -/
theorem save_applied {v : RunView} {fresh : List JobExecutionEntity}
    (hkeyed : Table.Keyed JobExecutionEntity.id v.rows) (hfresh : NewTo v fresh) (he : e ∈ v.rows)
    (hid : t.message.jobExecutionId = some e.id)
    (hunique : ∀ t' ∈ done, t'.message.jobExecutionId = some e.id → t' = t) :
    Table.save JobExecutionEntity.id (v.rows.map (applyAmong done) ++ fresh) (t.applied e) =
      v.rows.map (applyAmong (done ++ [t])) ++ fresh := by
  have hkeeps := keeps_applyAmong done
  have hexists : ∃ y ∈ v.rows.map (applyAmong done) ++ fresh, y.id = (t.applied e).id :=
    ⟨_, List.mem_append_left _ (List.mem_map_of_mem he), hkeeps.id e⟩
  rw [Table.save_existing hexists, List.map_append, List.map_map]
  congr 1
  · refine List.map_congr_left fun e' he' ↦ ?_
    rw [Function.comp_apply, hkeeps.id, t.applied_id]
    by_cases hsame : e'.id = e.id
    · obtain rfl := hkeyed.eq he' he hsame
      rw [if_pos rfl]
      refine (applyAmong_of_mem (List.mem_append_right _ List.mem_cons_self) hid ?_).symm
      intro t' ht' hid'
      rcases List.mem_append.mp ht' with ht' | ht'
      · exact hunique t' ht' hid'
      · exact List.mem_singleton.mp ht'
    · have hne : t.message.jobExecutionId ≠ some e'.id := by
        rw [hid]
        exact fun h ↦ hsame (Option.some.inj h).symm
      rw [if_neg hsame, applyAmong_concat_of_ne hne]
  · have hsame : ∀ f ∈ fresh, (if f.id = (t.applied e).id then t.applied e else f) = f :=
      fun f hf ↦ if_neg fun h ↦ (hfresh f hf e he).2 h.symm
    rw [List.map_congr_left hsame, List.map_id']

end Among

/-! ## A job and its unfinished upstream jobs -/

/-- The event ends the latest execution of an upstream job of the given one. -/
structure EndsUpstream (c : Catalog) (v : RunView) (job : JobEntity) (t : EventTransaction)
    (e : JobExecutionEntity) : Prop where
  latest : Latest.latest JobExecutionEntity.jobId JobExecutionEntity.attempt e.jobId v.rows = some e
  target : t.message.jobExecutionId = some e.id
  unfinished : e.status.isFinalStatus = false
  ends : ExecutorEventService.endsExecution t.message e = true
  edge : ∃ edge ∈ (c.graphOf v.run.pipelineId).dependencies job.id, edge.dependsOnJobId = e.jobId

instance (c : Catalog) (v : RunView) (job : JobEntity) (t : EventTransaction)
    (e : JobExecutionEntity) : Decidable (EndsUpstream c v job t e) :=
  decidable_of_iff (_ ∧ _ ∧ _ ∧ _ ∧ _)
    ⟨fun ⟨h₁, h₂, h₃, h₄, h₅⟩ ↦ ⟨h₁, h₂, h₃, h₄, h₅⟩,
      fun ⟨h₁, h₂, h₃, h₄, h₅⟩ ↦ ⟨h₁, h₂, h₃, h₄, h₅⟩⟩

/-- The final events of different upstream jobs of a job, all of whose edges they satisfy. -/
structure FanIn (c : Catalog) (v : RunView) (job : JobEntity)
    (transactions : List EventTransaction) : Prop where
  upstream : ∀ t ∈ transactions, ∃ e, EndsUpstream c v job t e
  distinct : (transactions.map fun t ↦ t.message.jobExecutionId).Nodup
  newId : ∀ t ∈ transactions, ∀ jobId, ∀ e ∈ v.rows, e.id ≠ t.newId jobId
  satisfied : job ∈ c.readyJobs v.run.pipelineId (v.rows.map (applyAmong transactions))

section Ready

variable {c : Catalog} {v : RunView} {job : JobEntity}
  {transactions done : List EventTransaction} {fresh : List JobExecutionEntity}

theorem EndsUpstream.mem {t : EventTransaction} {e : JobExecutionEntity}
    (h : EndsUpstream c v job t e) : e ∈ v.rows :=
  (Latest.of_latest h.latest).1

theorem FanIn.unique (h : FanIn c v job transactions) {t t' : EventTransaction}
    (ht : t ∈ transactions) (ht' : t' ∈ transactions) {x : UUID}
    (hid : t.message.jobExecutionId = some x) (hid' : t'.message.jobExecutionId = some x) :
    t' = t :=
  List.inj_on_of_nodup_map h.distinct ht' ht (hid'.trans hid.symm)

theorem latestStatus_rows (hv : Attempted c v) {k : UUID} (hk : ∀ f ∈ fresh, f.jobId ≠ k) :
    latestStatus (v.rows.map (applyAmong done) ++ fresh) k =
      (Latest.latest JobExecutionEntity.jobId JobExecutionEntity.attempt k v.rows).map
        fun e ↦ (applyAmong done e).status := by
  have hkeeps := keeps_applyAmong done
  have hranked := (hv.numbered.map hkeeps.jobId hkeeps.attempt).ranked
  rw [latestStatus, Latest.latest_append_of_ne hranked hk,
    Latest.latest_map hkeeps.jobId hkeeps.attempt, Option.map_map]
  rfl

/-- **Too early.** The job is not ready while the event of an upstream job is missing. -/
theorem FanIn.mem_of_ready (h : FanIn c v job transactions) (hv : Attempted c v)
    (hdone : done ⊆ transactions) (hfresh : NewTo v fresh)
    (hready : job ∈ c.readyJobs v.run.pipelineId (v.rows.map (applyAmong done) ++ fresh)) :
    transactions ⊆ done := by
  intro t ht
  by_contra hmissing
  obtain ⟨e, he⟩ := h.upstream t ht
  obtain ⟨edge, hedge, hdepends⟩ := he.edge
  have hsatisfied := (Catalog.mem_readyJobs.mp hready).2.2 edge hedge
  obtain ⟨s, hs, hfinal, -⟩ := ReadyJobResolver.edgeSatisfied_iff.mp hsatisfied
  have hnone : ∀ t' ∈ done, t'.message.jobExecutionId ≠ some e.id := by
    intro t' ht' hid'
    exact hmissing (h.unique ht (hdone ht') he.target hid' ▸ ht')
  rw [hdepends, latestStatus_rows hv fun f hf ↦ (hfresh f hf e he.mem).1.symm, he.latest,
    Option.map_some, applyAmong_of_not hnone] at hs
  rw [← Option.some.inj hs, he.unfinished] at hfinal
  cases hfinal

/-- **In time.** The job is ready once all events are applied. -/
theorem FanIn.ready (h : FanIn c v job transactions) (hv : Attempted c v)
    (hdone : done ⊆ transactions) (hall : transactions ⊆ done) (hfresh : NewTo v fresh)
    (hjob : ∀ f ∈ fresh, f.jobId ≠ job.id) :
    job ∈ c.readyJobs v.run.pipelineId (v.rows.map (applyAmong done) ++ fresh) := by
  obtain ⟨hmem, hnew, hedges⟩ := Catalog.mem_readyJobs.mp h.satisfied
  have hsame : ∀ e, applyAmong done e = applyAmong transactions e := by
    intro e
    by_cases hexists : ∃ t ∈ transactions, t.message.jobExecutionId = some e.id
    · obtain ⟨t, ht, hid⟩ := hexists
      rw [applyAmong_of_mem ht hid fun t' ht' hid' ↦ h.unique ht ht' hid hid',
        applyAmong_of_mem (hall ht) hid fun t' ht' hid' ↦ h.unique ht (hdone ht') hid hid']
    · push Not at hexists
      rw [applyAmong_of_not hexists, applyAmong_of_not fun t ht ↦ hexists t (hdone ht)]
  rw [List.map_congr_left fun e _ ↦ hsame e]
  refine Catalog.mem_readyJobs.mpr ⟨hmem, List.forall_mem_append.mpr ⟨hnew, hjob⟩, ?_⟩
  intro edge hedge
  have hsatisfied := hedges edge hedge
  obtain ⟨s, hs, -⟩ := ReadyJobResolver.edgeSatisfied_iff.mp hsatisfied
  -- the upstream job has a row already, so no transaction has created one for it
  have hk : ∀ f ∈ fresh, f.jobId ≠ edge.dependsOnJobId := by
    intro f hf heq
    rw [latestStatus, Latest.latest_map (keeps_applyAmong _).jobId (keeps_applyAmong _).attempt]
      at hs
    obtain ⟨e', he', -⟩ := Option.map_eq_some_iff.mp hs
    obtain ⟨e, he, -⟩ := Option.map_eq_some_iff.mp he'
    obtain ⟨hmem, hkey, -⟩ := Latest.of_latest he
    exact (hfresh f hf e hmem).1 (hkey.trans heq.symm)
  have hrows : latestStatus (v.rows.map (applyAmong transactions) ++ fresh) edge.dependsOnJobId =
      latestStatus (v.rows.map (applyAmong transactions)) edge.dependsOnJobId := by
    have hnil : latestStatus (v.rows.map (applyAmong transactions) ++ []) edge.dependsOnJobId = _ :=
      latestStatus_rows hv (by simp)
    rw [List.append_nil] at hnil
    rw [latestStatus_rows hv hk, hnil]
  rw [ReadyJobResolver.edgeSatisfied, hrows]
  exact hsatisfied

end Ready

/-! ## Schedules

A schedule may stop anywhere, so the invariant speaks of transactions in every state: `Follows`
says that what is committed is what the transactions in `done` have written, and `Wrote` what
each transaction has written so far; the job can only have been created by one that was the last
to look for it. There is one lemma for each of the four moves. -/

namespace Progress

/-- The moves that lead here. -/
def number : Progress → ℕ
  | .pending => 0
  | .applied _ => 1
  | .dispatched _ _ => 2
  | .recomputed _ _ _ => 3
  | .committed => 4
  | .rolledBack => 4

theorem exists_applied {p : Progress} (h : p.number = 1) : ∃ own, p = .applied own := by
  cases p with
  | applied own => exact ⟨own, rfl⟩
  | _ => exact absurd h (by simp [number])

/-- The own row, not yet committed. -/
def own : Progress → Option JobExecutionEntity
  | .applied own => some own
  | .dispatched own _ => some own
  | .recomputed own _ _ => some own
  | _ => none

/-- The created rows, not yet committed. -/
def created : Progress → List JobExecutionEntity
  | .dispatched _ created => created
  | .recomputed _ created _ => created
  | _ => []

/-- The row of the run, not yet committed. -/
def run : Progress → Option PipelineRunEntity
  | .recomputed _ _ run => run
  | _ => none

end Progress

/-- The transaction looks for ready jobs after all the others have committed: when it makes its
second move, the others have made their four. -/
def Last (transactions : List EventTransaction) (schedule : List ℕ) (i : ℕ) : Prop :=
  i < transactions.length ∧ ∃ before after, schedule = before ++ i :: after ∧
    before.count i = 1 ∧ ∀ j < transactions.length, j ≠ i → 4 ≤ before.count j

theorem Last.append {transactions : List EventTransaction} {schedule : List ℕ} {i : ℕ}
    (h : Last transactions schedule i) (later : List ℕ) :
    Last transactions (schedule ++ later) i := by
  obtain ⟨hi, before, after, rfl, hcount, hothers⟩ := h
  exact ⟨hi, before, after ++ later, by rw [List.append_assoc]; rfl, hcount, hothers⟩

/-- What a transaction has written after a schedule. -/
structure Wrote (c : Catalog) (v : RunView) (job : JobEntity) (transactions : List EventTransaction)
    (schedule : List ℕ) (i : ℕ) (t : EventTransaction) (p : Progress) : Prop where
  number : p.number = min 4 (schedule.count i)
  own : ∀ row ∈ p.own, ∃ e, EndsUpstream c v job t e ∧ row = t.applied e
  new : NewTo v p.created
  last : (∃ f ∈ p.created, f.jobId = job.id) → Last transactions schedule i
  pipelineId : ∀ run ∈ p.run, run.pipelineId = v.run.pipelineId

theorem Wrote.nothing {c : Catalog} {v : RunView} {job : JobEntity}
    {transactions : List EventTransaction} {schedule : List ℕ} {i : ℕ} {t : EventTransaction}
    {p : Progress} (hnumber : p.number = min 4 (schedule.count i)) (hown : p.own = none)
    (hcreated : p.created = []) (hrun : p.run = none) :
    Wrote c v job transactions schedule i t p where
  number := hnumber
  own := by simp [hown]
  new := by simp [hcreated, NewTo]
  last := by simp [hcreated]
  pipelineId := by simp [hrun]

theorem Wrote.other {c : Catalog} {v : RunView} {job : JobEntity}
    {transactions : List EventTransaction} {schedule : List ℕ} {i j : ℕ} {t : EventTransaction}
    {p : Progress} (h : Wrote c v job transactions schedule j t p) (hne : j ≠ i) :
    Wrote c v job transactions (schedule ++ [i]) j t p where
  number := by
    rw [List.count_append, List.count_singleton, beq_eq_false_iff_ne.mpr hne.symm]
    exact h.number
  own := h.own
  new := h.new
  last hjob := (h.last hjob).append [i]
  pipelineId := h.pipelineId

/-- The database after a schedule: the transactions in `done` have committed, and they have created
the rows in `fresh`. -/
structure Follows (c : Catalog) (v : RunView) (job : JobEntity)
    (transactions : List EventTransaction) (schedule : List ℕ) (s : Concurrent)
    (done : List EventTransaction) (fresh : List JobExecutionEntity) : Prop where
  pipelineId : s.run.pipelineId = v.run.pipelineId
  rows : s.rows = v.rows.map (applyAmong done) ++ fresh
  done_subset : done ⊆ transactions
  committed : ∀ i t, transactions[i]? = some t → (s.progress i = .committed ↔ t ∈ done)
  new : NewTo v fresh
  last : (∃ f ∈ fresh, f.jobId = job.id) → ∃ i, Last transactions schedule i
  wrote : ∀ i t, transactions[i]? = some t →
    Wrote c v job transactions schedule i t (s.progress i)

section Follows

variable {c : Catalog} {v : RunView} {job : JobEntity}
  {transactions done : List EventTransaction} {fresh : List JobExecutionEntity}
  {schedule : List ℕ} {s : Concurrent} {i : ℕ} {t : EventTransaction}

theorem follows_start (c : Catalog) (v : RunView) (job : JobEntity)
    (transactions : List EventTransaction) :
    Follows c v job transactions [] (.start v) [] [] where
  pipelineId := rfl
  rows := by
    rw [List.append_nil, List.map_congr_left fun e _ ↦ applyAmong_of_not (by simp), List.map_id']
    rfl
  done_subset := List.nil_subset _
  committed _ _ _ := by simp [Concurrent.start]
  new := by simp [NewTo]
  last := by simp
  wrote _ _ _ := .nothing rfl rfl rfl rfl

theorem Follows.setProgress (h : Follows c v job transactions schedule s done fresh)
    (ht : transactions[i]? = some t) {p : Progress} (hp : p ≠ .committed) (hdone : t ∉ done)
    (hwrote : Wrote c v job transactions (schedule ++ [i]) i t p) :
    Follows c v job transactions (schedule ++ [i]) (s.setProgress i p) done fresh where
  pipelineId := h.pipelineId
  rows := h.rows
  done_subset := h.done_subset
  committed j t' ht' := by
    by_cases hj : j = i
    · subst hj
      obtain rfl := Option.some.inj (ht.symm.trans ht')
      rw [Concurrent.setProgress_self]
      exact iff_of_false hp hdone
    · rw [Concurrent.setProgress_of_ne _ hj]
      exact h.committed j t' ht'
  new := h.new
  last hjob := by
    obtain ⟨k, hk⟩ := h.last hjob
    exact ⟨k, hk.append [i]⟩
  wrote j t' ht' := by
    by_cases hj : j = i
    · subst hj
      obtain rfl := Option.some.inj (ht.symm.trans ht')
      rw [Concurrent.setProgress_self]
      exact hwrote
    · rw [Concurrent.setProgress_of_ne _ hj]
      exact (h.wrote j t' ht').other hj

theorem Follows.stay (h : Follows c v job transactions schedule s done fresh)
    (hi : ∀ t, transactions[i]? = some t → (s.progress i).number = 4) :
    Follows c v job transactions (schedule ++ [i]) s done fresh where
  pipelineId := h.pipelineId
  rows := h.rows
  done_subset := h.done_subset
  committed := h.committed
  new := h.new
  last hjob := by
    obtain ⟨k, hk⟩ := h.last hjob
    exact ⟨k, hk.append [i]⟩
  wrote j t' ht' := by
    by_cases hj : j = i
    · subst hj
      have hwrote := h.wrote j t' ht'
      have hnumber := hwrote.number
      refine ⟨?_, hwrote.own, hwrote.new, fun hjob ↦ (hwrote.last hjob).append _, hwrote.pipelineId⟩
      rw [hi t' ht'] at hnumber ⊢
      rw [List.count_append]
      omega
    · exact (h.wrote j t' ht').other hj

private theorem count_concat_self (schedule : List ℕ) (i : ℕ) :
    (schedule ++ [i]).count i = schedule.count i + 1 := by
  rw [List.count_append, List.count_singleton_self]

/-- A transaction that has not committed finds its execution as it was. -/
theorem Follows.find (h : Follows c v job transactions schedule s done fresh)
    (hfan : FanIn c v job transactions) (hv : Attempted c v) (ht : t ∈ transactions)
    (hdone : t ∉ done) :
    ∃ e, EndsUpstream c v job t e ∧
      s.rows.find? (fun e ↦ t.message.jobExecutionId = some e.id) = some e := by
  obtain ⟨e, he⟩ := hfan.upstream t ht
  have hsame : applyAmong done e = e := by
    refine applyAmong_of_not fun t' ht' hid' ↦ hdone ?_
    rw [← hfan.unique ht (h.done_subset ht') he.target hid']
    exact ht'
  have hkeyed : Table.Keyed JobExecutionEntity.id (v.rows.map (applyAmong done)) :=
    (Table.keyed_map (keeps_applyAmong done).id).mpr hv.keyed
  have hmem : e ∈ v.rows.map (applyAmong done) := List.mem_map.mpr ⟨e, he.mem, hsame⟩
  have hfind := (Table.findById_eq_some hkeyed).mpr ⟨hmem, rfl⟩
  refine ⟨e, he, ?_⟩
  rw [he.target, h.rows, List.find?_append]
  simp only [Option.some.injEq]
  simp only [eq_comm (a := e.id)]
  rw [Table.findById] at hfind
  rw [hfind, Option.some_or]

/-- The first move: the event is applied to the execution. -/
theorem Follows.apply (h : Follows c v job transactions schedule s done fresh)
    (hfan : FanIn c v job transactions) (hv : Attempted c v) (ht : transactions[i]? = some t)
    (hp : s.progress i = .pending) :
    Follows c v job transactions (schedule ++ [i]) (Concurrent.advance c t i s) done fresh := by
  have hwrote := h.wrote i t ht
  have hdone : t ∉ done := by
    rw [← h.committed i t ht, hp]
    exact Progress.noConfusion
  obtain ⟨e, he, hfind⟩ := h.find hfan hv (List.mem_of_getElem? ht) hdone
  have hnumber := hwrote.number
  rw [hp, Progress.number] at hnumber
  rw [Concurrent.advance, hp]
  dsimp only
  rw [hfind]
  dsimp only
  rw [if_pos he.ends]
  refine h.setProgress ht Progress.noConfusion hdone ⟨?_, ?_, ?_, ?_, ?_⟩
  · rw [count_concat_self, Progress.number]
    omega
  · rintro row hrow
    exact ⟨e, he, (Option.mem_some_iff.mp hrow).symm⟩
  · simp [Progress.created, NewTo]
  · simp [Progress.created]
  · simp [Progress.run]

theorem Follows.view (h : Follows c v job transactions schedule s done fresh)
    (hfan : FanIn c v job transactions) (hv : Attempted c v) (ht : t ∈ transactions)
    {e : JobExecutionEntity} (he : EndsUpstream c v job t e) :
    Table.save JobExecutionEntity.id s.rows (t.applied e) =
      v.rows.map (applyAmong (done ++ [t])) ++ fresh := by
  rw [h.rows]
  exact save_applied hv.keyed h.new he.mem he.target
    fun t' ht' hid' ↦ hfan.unique ht (h.done_subset ht') he.target hid'

/-- A transaction that finds the job ready is the last one. -/
theorem Follows.last_of_ready (h : Follows c v job transactions schedule s done fresh)
    (hfan : FanIn c v job transactions) (hv : Attempted c v) (ht : transactions[i]? = some t)
    (hcount : schedule.count i = 1)
    (hready : job ∈ c.readyJobs v.run.pipelineId
      (v.rows.map (applyAmong (done ++ [t])) ++ fresh)) :
    Last transactions (schedule ++ [i]) i := by
  have hsubset : done ++ [t] ⊆ transactions :=
    List.append_subset.mpr ⟨h.done_subset,
      List.cons_subset.mpr ⟨List.mem_of_getElem? ht, List.nil_subset _⟩⟩
  have hall := hfan.mem_of_ready hv hsubset h.new hready
  obtain ⟨hi, hti⟩ := List.getElem?_eq_some_iff.mp ht
  refine ⟨hi, schedule, [], rfl, hcount, fun j hj hne ↦ ?_⟩
  have hdistinct : transactions[j] ≠ t := by
    rw [← hti]
    exact fun heq ↦ hne ((List.Nodup.of_map _ hfan.distinct).getElem_inj_iff.mp heq)
  have hdone : transactions[j] ∈ done := by
    rcases List.mem_append.mp (hall (List.getElem_mem hj)) with hmem | hmem
    · exact hmem
    · exact absurd (List.mem_singleton.mp hmem) hdistinct
  have hj' := List.getElem?_eq_getElem hj
  have hnumber := (h.wrote j _ hj').number
  rw [(h.committed j _ hj').mpr hdone, Progress.number] at hnumber
  omega

theorem Follows.dispatch (h : Follows c v job transactions schedule s done fresh)
    (hfan : FanIn c v job transactions) (hv : Attempted c v) (ht : transactions[i]? = some t)
    {own : JobExecutionEntity} (hp : s.progress i = .applied own) :
    Follows c v job transactions (schedule ++ [i]) (Concurrent.advance c t i s) done fresh := by
  have hwrote := h.wrote i t ht
  have hdone : t ∉ done := by
    rw [← h.committed i t ht, hp]
    exact Progress.noConfusion
  have hmem := List.mem_of_getElem? ht
  have hnumber := hwrote.number
  have hown := hwrote.own
  rw [hp] at hnumber hown
  rw [Progress.number] at hnumber
  obtain ⟨e, he, rfl⟩ := hown own rfl
  rw [Concurrent.advance, hp]
  dsimp only
  rw [Progress.view, h.view hfan hv hmem he, h.pipelineId]
  refine h.setProgress ht Progress.noConfusion hdone ⟨?_, ?_, ?_, ?_, ?_⟩
  · rw [count_concat_self, Progress.number]
    omega
  · rintro row hrow
    exact ⟨e, he, (Option.mem_some_iff.mp hrow).symm⟩
  · intro f hf e' he'
    obtain ⟨job', hjob', rfl⟩ := List.mem_map.mp hf
    have hnone := (Catalog.mem_readyJobs.mp hjob').2.1 (applyAmong (done ++ [t]) e')
      (List.mem_append_left _ (List.mem_map_of_mem he'))
    rw [(keeps_applyAmong _).jobId] at hnone
    rw [createdExecution_jobId, createdExecution_id]
    exact ⟨hnone, hfan.newId t hmem job'.id e' he'⟩
  · rintro ⟨f, hf, hjob⟩
    obtain ⟨job', hjob', rfl⟩ := List.mem_map.mp hf
    rw [createdExecution_jobId] at hjob
    have heq := (Catalog.keyed_jobsOf v.run.pipelineId).eq (Catalog.mem_readyJobs.mp hjob').1
      (Catalog.mem_readyJobs.mp hfan.satisfied).1 hjob
    rw [heq] at hjob'
    exact h.last_of_ready hfan hv ht (by omega) hjob'
  · simp [Progress.run]

theorem Follows.recompute (h : Follows c v job transactions schedule s done fresh)
    (ht : transactions[i]? = some t) {own : JobExecutionEntity}
    {created : List JobExecutionEntity} (hp : s.progress i = .dispatched own created) :
    Follows c v job transactions (schedule ++ [i]) (Concurrent.advance c t i s) done fresh := by
  have hwrote := h.wrote i t ht
  have hdone : t ∉ done := by
    rw [← h.committed i t ht, hp]
    exact Progress.noConfusion
  obtain ⟨hnumber, hown, hnew, hlast, -⟩ := hwrote
  rw [hp] at hnumber hown hnew hlast
  rw [Progress.number] at hnumber
  rw [Concurrent.advance, hp]
  refine h.setProgress ht Progress.noConfusion hdone
    ⟨?_, hown, hnew, fun hjob ↦ (hlast hjob).append [i], ?_⟩
  · rw [count_concat_self, Progress.number]
    omega
  · rintro run hrun
    rw [← Option.mem_some_iff.mp hrun]
    exact h.pipelineId

/-- The fourth move: everything is committed, or rolled back. -/
theorem Follows.commit (h : Follows c v job transactions schedule s done fresh)
    (hfan : FanIn c v job transactions) (hv : Attempted c v) (ht : transactions[i]? = some t)
    {own : JobExecutionEntity} {created : List JobExecutionEntity}
    {run : Option PipelineRunEntity} (hp : s.progress i = .recomputed own created run) :
    ∃ done' fresh', Follows c v job transactions (schedule ++ [i]) (Concurrent.advance c t i s)
      done' fresh' := by
  have hwrote := h.wrote i t ht
  have hdone : t ∉ done := by
    rw [← h.committed i t ht, hp]
    exact Progress.noConfusion
  have hmem := List.mem_of_getElem? ht
  obtain ⟨hnumber, hown, hnew, hlast, hrun⟩ := hwrote
  rw [hp] at hnumber hown hnew hlast hrun
  rw [Progress.number] at hnumber
  have hcount : (4 : ℕ) = min 4 ((schedule ++ [i]).count i) := by
    rw [count_concat_self]
    omega
  rw [Concurrent.advance, hp]
  dsimp only
  -- an attempt that another transaction has inserted rolls this one back
  by_cases hviolates : violatesAttempt s.rows created = true
  · rw [if_pos hviolates]
    exact ⟨done, fresh, h.setProgress ht Progress.noConfusion hdone (.nothing hcount rfl rfl rfl)⟩
  · rw [if_neg hviolates]
    obtain ⟨e, he, rfl⟩ := hown own rfl
    refine ⟨done ++ [t], fresh ++ created, ?_, ?_, ?_, ?_, ?_, ?_, ?_⟩
    · rcases run with _ | run
      · exact h.pipelineId
      · exact hrun run rfl
    · rw [Progress.view, h.view hfan hv hmem he, List.append_assoc]
    · exact List.append_subset.mpr ⟨h.done_subset,
        List.cons_subset.mpr ⟨hmem, List.nil_subset _⟩⟩
    · intro j t' ht'
      rw [List.mem_append, List.mem_singleton]
      by_cases hj : j = i
      · subst hj
        obtain rfl := Option.some.inj (ht.symm.trans ht')
        exact iff_of_true (Function.update_self ..) (Or.inr rfl)
      · have hdistinct : t' ≠ t := by
          rintro rfl
          exact hj ((List.getElem?_inj (List.getElem?_eq_some_iff.mp ht').1
            (List.Nodup.of_map _ hfan.distinct)).mp (ht'.trans ht.symm))
        dsimp only
        rw [Function.update_of_ne hj, h.committed j t' ht', or_iff_left hdistinct]
    · exact fun f hf ↦ (List.mem_append.mp hf).elim (h.new f) (hnew f)
    · rintro ⟨f, hf, hjob⟩
      rcases List.mem_append.mp hf with hf | hf
      · obtain ⟨k, hk⟩ := h.last ⟨f, hf, hjob⟩
        exact ⟨k, hk.append [i]⟩
      · exact ⟨i, (hlast ⟨f, hf, hjob⟩).append [i]⟩
    · intro j t' ht'
      dsimp only
      by_cases hj : j = i
      · subst hj
        rw [Function.update_self]
        exact .nothing hcount rfl rfl rfl
      · rw [Function.update_of_ne hj]
        exact (h.wrote j t' ht').other hj

/-- **One move.** Whatever a transaction does next, the invariant stays. -/
theorem Follows.move (h : Follows c v job transactions schedule s done fresh)
    (hfan : FanIn c v job transactions) (hv : Attempted c v) (i : ℕ) :
    ∃ done' fresh', Follows c v job transactions (schedule ++ [i])
      (Concurrent.move c transactions s i) done' fresh' := by
  rw [Concurrent.move]
  rcases ht : transactions[i]? with _ | t
  · exact ⟨done, fresh, h.stay fun t ht' ↦ absurd (ht.symm.trans ht') (by simp)⟩
  · dsimp only
    rcases hp : s.progress i with _ | own | ⟨own, created⟩ | ⟨own, created, run⟩ | _ | _
    · exact ⟨done, fresh, h.apply hfan hv ht hp⟩
    · exact ⟨done, fresh, h.dispatch hfan hv ht hp⟩
    · exact ⟨done, fresh, h.recompute ht hp⟩
    · exact h.commit hfan hv ht hp
    · rw [Concurrent.advance, hp]
      exact ⟨done, fresh, h.stay fun _ _ ↦ by rw [hp]; rfl⟩
    · rw [Concurrent.advance, hp]
      exact ⟨done, fresh, h.stay fun _ _ ↦ by rw [hp]; rfl⟩

/-- **Every schedule.** What is committed is what the transactions that are done have written. -/
theorem exists_follows (hfan : FanIn c v job transactions) (hv : Attempted c v)
    (schedule : List ℕ) : ∃ done fresh, Follows c v job transactions schedule
      (Concurrent.play c transactions (.start v) schedule) done fresh := by
  induction schedule using List.reverseRecOn with
  | nil => exact ⟨[], [], follows_start c v job transactions⟩
  | append_singleton schedule i ih =>
    obtain ⟨done, fresh, h⟩ := ih
    rw [Concurrent.play_append]
    exact h.move hfan hv i

end Follows

/-! ## The transaction that comes last

If a transaction makes its second move after all the others have made their four, nobody changes
the rows any more that it sees: it finds the job ready, dispatches it and computes the status
from all executions (`Finishing`). If there is no such transaction, nobody finds the job ready. -/

namespace Concurrent

variable {c : Catalog} {transactions : List EventTransaction} {s : Concurrent} {i j : ℕ}

theorem advance_progress_of_ne (t : EventTransaction) (h : j ≠ i) :
    (advance c t i s).progress j = s.progress j := by
  rw [advance]
  split
  · split
    · exact setProgress_of_ne s h _
    · split
      · exact setProgress_of_ne s h _
      · exact setProgress_of_ne s h _
  · exact setProgress_of_ne s h _
  · exact setProgress_of_ne s h _
  · split
    · exact setProgress_of_ne s h _
    · exact Function.update_of_ne h ..
  · rfl
  · rfl

theorem move_progress_of_ne (h : j ≠ i) :
    (move c transactions s i).progress j = s.progress j := by
  rw [move]
  split
  · rfl
  · exact advance_progress_of_ne _ h

theorem move_eq_self (h : i < transactions.length → (s.progress i).number = 4) :
    move c transactions s i = s := by
  rw [move]
  rcases ht : transactions[i]? with _ | t
  · rfl
  · have hnumber := h (List.getElem?_eq_some_iff.mp ht).1
    dsimp only
    rcases hp : s.progress i with _ | own | ⟨own, created⟩ | ⟨own, created, run⟩ | _ | _
    all_goals rw [hp, Progress.number] at hnumber
    · omega
    · omega
    · omega
    · omega
    · rw [advance, hp]
    · rw [advance, hp]

theorem play_progress_eq (schedule : List ℕ) (h : (s.progress j).number = 4) :
    (play c transactions s schedule).progress j = s.progress j := by
  induction schedule generalizing s with
  | nil => rfl
  | cons i schedule ih =>
    rw [play_cons]
    by_cases hij : j = i
    · subst hij
      rw [move_eq_self fun _ ↦ h]
      exact ih h
    · have hsame := @move_progress_of_ne c transactions s _ _ hij
      rw [ih (by rw [hsame]; exact h), hsame]

/-- One transaction is left. It has dispatched the ready jobs, among rows that no other transaction
changes any more. -/
inductive Finishing (rows : List JobExecutionEntity) (own : JobExecutionEntity)
    (created : List JobExecutionEntity) (s : Concurrent) (i : ℕ) : Prop where
  | dispatched (hp : s.progress i = .dispatched own created) (hrows : s.rows = rows)
  | recomputed (run : PipelineRunEntity)
      (hp : s.progress i = .recomputed own created (some run)) (hrows : s.rows = rows)
      (hstatus : run.status =
        reduceRunStatus (Table.save JobExecutionEntity.id rows own ++ created))
  | committed (hp : s.progress i = .committed)
      (hrows : s.rows = Table.save JobExecutionEntity.id rows own ++ created)
      (hstatus : s.run.status = reduceRunStatus s.rows)
  | rolledBack (hp : s.progress i = .rolledBack)

section Finishing

variable {rows created : List JobExecutionEntity} {own : JobExecutionEntity}

theorem Finishing.advance (h : Finishing rows own created s i) (t : EventTransaction) :
    Finishing rows own created (advance c t i s) i := by
  rw [Concurrent.advance]
  rcases h with ⟨hp, hrows⟩ | ⟨run, hp, hrows, hstatus⟩ | ⟨hp, hrows, hstatus⟩ | hp
  all_goals rw [hp]
  · refine .recomputed _ (setProgress_self ..) hrows ?_
    rw [Master.recomputed, Progress.view, hrows]
  · dsimp only
    by_cases hviolates : violatesAttempt s.rows created = true
    · rw [if_pos hviolates]
      exact .rolledBack (setProgress_self ..)
    · rw [if_neg hviolates]
      refine .committed (Function.update_self ..) ?_ ?_
      · rw [Progress.view, hrows]
      · dsimp only
        rw [Progress.view, hrows, Option.getD_some, hstatus]
  · exact .committed hp hrows hstatus
  · exact .rolledBack hp

theorem Finishing.play (h : Finishing rows own created s i)
    (hothers : ∀ j < transactions.length, j ≠ i → (s.progress j).number = 4)
    (schedule : List ℕ) : Finishing rows own created (play c transactions s schedule) i := by
  induction schedule generalizing s with
  | nil => exact h
  | cons k schedule ih =>
    rw [play_cons]
    by_cases hk : k = i
    · subst hk
      refine ih ?_ fun j hj hne ↦ ?_
      · rw [move]
        split
        · exact h
        · exact h.advance _
      · rw [move_progress_of_ne hne]
        exact hothers j hj hne
    · rw [move_eq_self fun hlt ↦ hothers k hlt hk]
      exact ih h hothers

end Finishing

end Concurrent

theorem count_created {job : JobEntity} {jobs : List JobEntity}
    (hkeyed : Table.Keyed JobEntity.id jobs) (hjob : job ∈ jobs)
    {create : JobEntity → JobExecutionEntity} (hcreate : ∀ job, (create job).jobId = job.id) :
    attempts (jobs.map create) job.id = 1 := by
  have heq : JobExecutionEntity.jobId ∘ create = JobEntity.id := funext hcreate
  rw [← hcreate job]
  refine Latest.count_of_nodup ?_ (List.mem_map_of_mem hjob)
  rw [List.map_map, heq]
  exact hkeyed

section Final

variable {c : Catalog} {db : Db} {r : UUID} {v : RunView} {job : JobEntity}
  {transactions done : List EventTransaction} {fresh : List JobExecutionEntity}
  {before schedule : List ℕ} {s : Concurrent} {i : ℕ}

/-- Nobody has dispatched the job before the last transaction looks for ready jobs. -/
theorem Follows.none_before (h : Follows c v job transactions before s done fresh)
    (hi : i < transactions.length) (hcount : before.count i = 1) :
    ∀ f ∈ fresh, f.jobId ≠ job.id := by
  intro f hf hjob
  obtain ⟨k, -, before', after', rfl, honce, hothers⟩ := h.last ⟨f, hf, hjob⟩
  rw [List.count_append, List.count_cons] at hcount
  by_cases hk : i = k
  · subst hk
    rw [beq_self_eq_true, if_pos rfl] at hcount
    omega
  · have := hothers i hi hk
    omega

/-- The last transaction finds the job ready and dispatches it. -/
theorem Follows.finishing (h : Follows c v job transactions before s done fresh)
    (hfan : FanIn c v job transactions) (hv : Attempted c v) (hi : i < transactions.length)
    (hcount : before.count i = 1)
    (hothers : ∀ j < transactions.length, j ≠ i → s.progress j = .committed) :
    ∃ rows own created, Concurrent.Finishing rows own created
        (Concurrent.move c transactions s i) i ∧
      attempts (Table.save JobExecutionEntity.id rows own ++ created) job.id = 1 := by
  have ht := List.getElem?_eq_getElem hi
  generalize transactions[i] = t at ht
  have hmem := List.mem_of_getElem? ht
  obtain ⟨hnumber, hown, -⟩ := h.wrote i t ht
  rw [hcount] at hnumber
  obtain ⟨own, hp⟩ := Progress.exists_applied hnumber
  rw [hp] at hown
  obtain ⟨e, he, rfl⟩ := hown own rfl
  have hview := h.view hfan hv hmem he
  have hnone := h.none_before hi hcount
  have hsubset : done ++ [t] ⊆ transactions :=
    List.append_subset.mpr ⟨h.done_subset, List.cons_subset.mpr ⟨hmem, List.nil_subset _⟩⟩
  have hall : transactions ⊆ done ++ [t] := by
    intro t' ht'
    obtain ⟨j, hj, rfl⟩ := List.getElem_of_mem ht'
    by_cases hne : j = i
    · subst hne
      rw [List.getElem?_eq_getElem hj] at ht
      rw [Option.some.inj ht]
      exact List.mem_append_right _ List.mem_cons_self
    · exact List.mem_append_left _
        ((h.committed j _ (List.getElem?_eq_getElem hj)).mp (hothers j hj hne))
  have hready := hfan.ready hv hsubset hall h.new hnone
  rw [Concurrent.move, ht]
  dsimp only
  rw [Concurrent.advance, hp]
  refine ⟨s.rows, t.applied e, _, .dispatched (Concurrent.setProgress_self ..) rfl, ?_⟩
  rw [Progress.view, hview, h.pipelineId, attempts, Latest.count_append, Latest.count_append]
  have hzero : Latest.count JobExecutionEntity.jobId job.id
      (v.rows.map (applyAmong (done ++ [t]))) = 0 := by
    refine Latest.count_eq_zero.mpr fun f hf ↦ ?_
    exact (Catalog.mem_readyJobs.mp hready).2.1 f (List.mem_append_left _ hf)
  rw [hzero, Latest.count_eq_zero.mpr hnone, Nat.add_zero, Nat.zero_add]
  exact count_created (Catalog.keyed_readyJobs v.run.pipelineId _) hready
    fun job ↦ createdExecution_jobId ..

/-- **No lost dispatch.** When the events of all unfinished upstream jobs of a job have been
handled, the job has exactly one execution and the status of the run is that of its executions
exactly if a transaction has looked for ready jobs after all the others had committed. -/
theorem dispatched_iff (hdb : Reachable c db) (hv : db.view r = some v)
    (hfan : FanIn c v job transactions) (schedule : List ℕ)
    (hall : ∀ i < transactions.length,
      (Concurrent.play c transactions (.start v) schedule).progress i = .committed) :
    (attempts (Concurrent.play c transactions (.start v) schedule).rows job.id = 1 ∧
      (Concurrent.play c transactions (.start v) schedule).run.status =
        reduceRunStatus (Concurrent.play c transactions (.start v) schedule).rows) ↔
      ∃ i, Last transactions schedule i := by
  have hattempted := attempted_view hdb r v hv
  constructor
  · rintro ⟨hone, -⟩
    obtain ⟨done, fresh, h⟩ := exists_follows hfan hattempted schedule
    by_contra hlast
    have hzero : attempts (Concurrent.play c transactions (.start v) schedule).rows job.id = 0 := by
      rw [h.rows, attempts, Latest.count_eq_zero]
      refine List.forall_mem_append.mpr ⟨fun f hf ↦ ?_, fun f hf hjob ↦ hlast
        (h.last ⟨f, hf, hjob⟩)⟩
      obtain ⟨e, he, rfl⟩ := List.mem_map.mp hf
      rw [(keeps_applyAmong done).jobId, ← (keeps_applyAmong transactions).jobId]
      exact (Catalog.mem_readyJobs.mp hfan.satisfied).2.1 _ (List.mem_map_of_mem he)
    omega
  · rintro ⟨i, hi, before, after, rfl, hcount, hothers⟩
    rw [Concurrent.play_append] at hall ⊢
    obtain ⟨done, fresh, h⟩ := exists_follows hfan hattempted before
    have hcommitted : ∀ j < transactions.length, j ≠ i →
        (Concurrent.play c transactions (.start v) before).progress j = .committed := by
      intro j hj hne
      have hnumber := (h.wrote j _ (List.getElem?_eq_getElem hj)).number
      rw [min_eq_left (hothers j hj hne)] at hnumber
      rw [← hall j hj, Concurrent.play_progress_eq _ hnumber]
    -- from here on nobody else writes, so what `i` finds is what it leaves
    obtain ⟨rows, own, created, hfinishing, hone⟩ :=
      h.finishing hfan hattempted hi hcount hcommitted
    have hend := @Concurrent.Finishing.play c transactions _ _ _ _ _ hfinishing (fun j hj hne ↦ by
      rw [Concurrent.move_progress_of_ne hne, hcommitted j hj hne, Progress.number]) after
    rw [← Concurrent.play_cons] at hend
    have hi' := hall i hi
    rcases hend with ⟨hp, -⟩ | ⟨run, hp, -, -⟩ | ⟨-, hrows, hstatus⟩ | hp
    · rw [hp] at hi'
      cases hi'
    · rw [hp] at hi'
      cases hi'
    · exact ⟨by rw [hrows]; exact hone, hstatus⟩
    · rw [hp] at hi'
      cases hi'

end Final

/-! ## Two upstream jobs -/

namespace Small

/-- A job that follows two others. -/
def join : Catalog :=
  pipeline [job 2 0, job 3 1, job 5 2] [⟨5, 2, .onSuccess⟩, ⟨5, 3, .onSuccess⟩] (by decide)
    (by decide)

/-- Both upstream jobs run. -/
def bothRunning : List Call :=
  [call (.createRun 0 none), deliver (message 100 2 .running), deliver (message 101 5 .running)]

/-- Both upstream jobs succeed. -/
def bothSucceed : List EventTransaction :=
  [⟨1, message 102 2 .success, fun jobId ↦ 200 + jobId⟩,
   ⟨2, message 103 5 .success, fun jobId ↦ 300 + jobId⟩]

end Small

/-- The run with both upstream jobs running, and the job that follows them. -/
theorem fanIn_join : ∃ v ∈ (history Small.join Small.bothRunning).view 0,
    FanIn Small.join v (Small.job 5 2) Small.bothSucceed := by
  have hview : ∃ v ∈ (history Small.join Small.bothRunning).view 0,
      (∀ t ∈ Small.bothSucceed, ∃ e ∈ v.rows, EndsUpstream Small.join v (Small.job 5 2) t e) ∧
      (∀ e ∈ v.rows, e.id < 100) ∧ Small.job 5 2 ∈ Small.join.readyJobs v.run.pipelineId
        (v.rows.map (applyAmong Small.bothSucceed)) := by decide +kernel
  obtain ⟨v, hv, hupstream, hids, hsatisfied⟩ := hview
  refine ⟨v, hv, fun t ht ↦ ?_, by decide, fun t ht jobId e he ↦ ?_, hsatisfied⟩
  · obtain ⟨e, -, hends⟩ := hupstream t ht
    exact ⟨e, hends⟩
  · have hnew : 100 ≤ t.newId jobId := by
      rcases List.mem_cons.mp ht with rfl | ht
      · exact le_trans (by decide) (Nat.le_add_right 200 jobId)
      · rw [List.mem_singleton.mp ht]
        exact le_trans (by decide) (Nat.le_add_right 300 jobId)
    exact ((hids e he).trans_le hnew).ne

/-- One after the other. -/
theorem dispatched_of_serial : ∃ v ∈ (history Small.join Small.bothRunning).view 0,
    attempts (Concurrent.play Small.join Small.bothSucceed (.start v) [0, 0, 0, 0, 1, 1, 1, 1]).rows
      5 = 1 := by
  obtain ⟨v, hv, hfan⟩ := fanIn_join
  have hcommitted : ∀ v ∈ (history Small.join Small.bothRunning).view 0, ∀ i < 2,
      (Concurrent.play Small.join Small.bothSucceed (.start v)
        [0, 0, 0, 0, 1, 1, 1, 1]).progress i =
        .committed := by decide +kernel
  refine ⟨v, hv, ((dispatched_iff ⟨_, rfl⟩ hv hfan _ (hcommitted v hv)).mpr ⟨1, by decide, ?_⟩).1⟩
  exact ⟨[0, 0, 0, 0, 1], [1, 1], rfl, by decide, by decide⟩

/-- In turns. Neither of the transactions sees the success of the other one. -/
theorem not_dispatched_in_turns : ∃ v ∈ (history Small.join Small.bothRunning).view 0,
    FanIn Small.join v (Small.job 5 2) Small.bothSucceed ∧
      (∀ i < 2, (Concurrent.play Small.join Small.bothSucceed (.start v)
        [0, 1, 0, 1, 0, 1, 0, 1]).progress i = .committed) ∧
      attempts (Concurrent.play Small.join Small.bothSucceed (.start v)
        [0, 1, 0, 1, 0, 1, 0, 1]).rows 5 = 0 := by
  obtain ⟨v, hv, hfan⟩ := fanIn_join
  have hplay : ∀ v ∈ (history Small.join Small.bothRunning).view 0,
      (∀ i < 2, (Concurrent.play Small.join Small.bothSucceed (.start v)
        [0, 1, 0, 1, 0, 1, 0, 1]).progress i = .committed) ∧
      attempts (Concurrent.play Small.join Small.bothSucceed (.start v)
        [0, 1, 0, 1, 0, 1, 0, 1]).rows 5 = 0 := by decide +kernel
  exact ⟨v, hv, hfan, hplay v hv⟩

end FuzzingCiCd.Master
