import FuzzingCiCd.Master.RunView

/-!
# Operations act on views

The proof that every operation of the master acts on the view of every run by a `RunStep`. Each
operation is taken apart once, here; everything proved about runs afterwards goes by the
constructors of `RunStep`.

## How a view follows the database

A view reads the tables by the identifier of its run. A change of a table is therefore a change of
one view and leaves the others as they are (`view_updateRun`, `view_of_effect_other`), and an
operation on one run is put together from such changes (`refines_of_effect`).
-/

namespace FuzzingCiCd.Master

open Transition PipelineRunService

/-! ## How views follow changes of the database -/

theorem ViewEffect.refl {v : RunView} (hkeyed : Table.Keyed JobExecutionEntity.id v.rows) :
    ViewEffect v v (fun e ↦ e) [] [] where
  keeps := keeps_id
  rows := by rw [List.map_id', List.append_nil]
  awaiting _ h := Or.inl h
  dispatched := (List.append_nil _).symm
  keyed := hkeyed
  fresh_run _ h := absurd h List.not_mem_nil
  fresh_ids _ _ _ h := absurd h List.not_mem_nil

theorem findByPipelineRunId_mem {db : Db} {r : UUID} {e : JobExecutionEntity} :
    e ∈ db.findByPipelineRunId r ↔ e ∈ db.executions ∧ e.pipelineRunId = r := by
  rw [Db.findByPipelineRunId, List.mem_filter, decide_eq_true_iff]

theorem findByPipelineRunId_of_effect {db db' : Db} {u : JobExecutionEntity → JobExecutionEntity}
    {fresh sent : List JobExecutionEntity} (h : Effect db db' u fresh sent) (r : UUID) :
    db'.findByPipelineRunId r =
      (db.findByPipelineRunId r).map u ++ fresh.filter fun e ↦ e.pipelineRunId = r := by
  rw [Db.findByPipelineRunId, h.executions, List.filter_append, List.filter_map]
  congr 2
  rw [Db.findByPipelineRunId]
  congr 1
  funext e
  simp [h.keeps.pipelineRunId]

theorem view_of_effect {db db' : Db} {u : JobExecutionEntity → JobExecutionEntity}
    {fresh sent : List JobExecutionEntity} (hs : Sound db) (h : Effect db db' u fresh sent)
    {r : UUID} {v : RunView} (hv : db.view r = some v) :
    ∃ v', db'.view r = some v' ∧ v'.run = v.run ∧
      ViewEffect v v' u (fresh.filter fun e ↦ e.pipelineRunId = r) (sentIds r sent) := by
  obtain ⟨hrun, hrows, hawait, hdisp⟩ := Db.view_eq_some hv
  have hrunid : v.run.id = r := (hs.findRun.mp hrun).2
  obtain ⟨v', hv', hrun'⟩ := Db.view_of_findRun (show db'.findRun r = some v.run by
    rw [Db.findRun, h.runs]
    exact hrun)
  obtain ⟨-, hrows', hawait', hdisp'⟩ := Db.view_eq_some hv'
  refine ⟨v', hv', hrun', h.keeps, ?_, ?_, ?_, ?_, ?_, ?_⟩
  · rw [hrows', hrows, findByPipelineRunId_of_effect h]
  · intro x hx
    rw [hawait'] at hx
    rw [hawait]
    refine (h.awaiting r x hx).imp_right ?_
    rintro ⟨e, he, her, rfl⟩
    exact ⟨e, List.mem_filter.mpr ⟨he, decide_eq_true her⟩, rfl⟩
  · rw [hdisp', h.dispatched, hdisp]
  · rw [hrows']
    exact h.sound.executions_keyed.filter _
  · intro e he
    rw [hrunid]
    simpa using (List.mem_filter.mp he).2
  · intro e he f hf
    rw [hrows] at he
    exact h.id_ne (findByPipelineRunId_mem.mp he).1 (List.mem_filter.mp hf).1

/-- The view of the run that the created executions and the messages belong to. -/
theorem view_of_effect_self {db db' : Db} {u : JobExecutionEntity → JobExecutionEntity}
    {fresh sent : List JobExecutionEntity} (hs : Sound db) (h : Effect db db' u fresh sent)
    {r : UUID} {v : RunView} (hv : db.view r = some v) (hfresh : ∀ e ∈ fresh, e.pipelineRunId = r)
    (hsent : ∀ e ∈ sent, e.pipelineRunId = r) :
    ∃ v', db'.view r = some v' ∧ v'.run = v.run ∧
      ViewEffect v v' u fresh (sent.map JobExecutionEntity.id) := by
  have hself : ∀ l : List JobExecutionEntity, (∀ e ∈ l, e.pipelineRunId = r) →
      l.filter (fun e ↦ e.pipelineRunId = r) = l :=
    fun l hl ↦ List.filter_eq_self.mpr fun e he ↦ decide_eq_true (hl e he)
  have := view_of_effect hs h hv
  rwa [sentIds, hself fresh hfresh, hself sent hsent] at this

theorem view_of_effect_other {db db' : Db} {u : JobExecutionEntity → JobExecutionEntity}
    {fresh sent : List JobExecutionEntity} (hs : Sound db) (h : Effect db db' u fresh sent)
    {r : UUID} {v : RunView} (hv : db.view r = some v) (hfresh : ∀ e ∈ fresh, e.pipelineRunId ≠ r)
    (hsent : ∀ e ∈ sent, e.pipelineRunId ≠ r) :
    ∃ v', db'.view r = some v' ∧ v'.run = v.run ∧ ViewEffect v v' u [] [] := by
  have hnone : ∀ l : List JobExecutionEntity, (∀ e ∈ l, e.pipelineRunId ≠ r) →
      l.filter (fun e ↦ e.pipelineRunId = r) = [] :=
    fun l hl ↦ List.filter_eq_nil_iff.mpr (by simpa using hl)
  have := view_of_effect hs h hv
  rwa [sentIds, hnone fresh hfresh, hnone sent hsent] at this

theorem findRun_updateRun {db : Db} {f : PipelineRunEntity → PipelineRunEntity}
    (hf : ∀ run, (f run).id = run.id) (q r : UUID) :
    (db.updateRun q f).findRun r = (db.findRun r).map fun run ↦ if r = q then f run else run := by
  rw [Db.findRun, Db.updateRun, Table.findById, Table.update, List.find?_map, Db.findRun,
    Table.findById]
  have hkey : ((fun run : PipelineRunEntity ↦ decide (run.id = r)) ∘
      fun run ↦ if run.id = q then f run else run) = fun run ↦ decide (run.id = r) := by
    funext run
    rw [Function.comp_apply, Table.key_update hf]
  rw [hkey]
  refine Option.map_congr fun run hrun ↦ ?_
  have hid : run.id = r := by simpa using List.find?_some hrun
  rw [hid]

theorem view_updateRun {db : Db} {f : PipelineRunEntity → PipelineRunEntity}
    (hf : ∀ run, (f run).id = run.id) (q r : UUID) :
    (db.updateRun q f).view r =
      (db.view r).map fun v ↦ { v with run := if r = q then f v.run else v.run } := by
  rw [Db.view, findRun_updateRun hf, Option.map_map, Db.view, Option.map_map]
  rfl

theorem ViewEffect.withRun {v v' : RunView} {u : JobExecutionEntity → JobExecutionEntity}
    {fresh : List JobExecutionEntity} {sent : List UUID} (h : ViewEffect v v' u fresh sent)
    (run : PipelineRunEntity) : ViewEffect v { v' with run := run } u fresh sent where
  keeps := h.keeps
  rows := h.rows
  awaiting := h.awaiting
  dispatched := h.dispatched
  keyed := h.keyed
  fresh_run := h.fresh_run
  fresh_ids := h.fresh_ids

theorem view_eq_none_of_runs {db db' : Db} (h : db'.runs = db.runs) {r : UUID} :
    db'.view r = none ↔ db.view r = none := by
  rw [Db.view, Db.view, Option.map_eq_none_iff, Option.map_eq_none_iff, Db.findRun, Db.findRun, h]

theorem view_updateRun_eq_none {db : Db} {f : PipelineRunEntity → PipelineRunEntity}
    (hf : ∀ run, (f run).id = run.id) {q r : UUID} :
    (db.updateRun q f).view r = none ↔ db.view r = none := by
  rw [view_updateRun hf, Option.map_eq_none_iff]

/-! ## Rows of other runs -/

theorem mem_rows {db : Db} {r : UUID} {v : RunView} (hv : db.view r = some v)
    {e : JobExecutionEntity} : e ∈ v.rows ↔ e ∈ db.executions ∧ e.pipelineRunId = r := by
  rw [(Db.view_eq_some hv).2.1, findByPipelineRunId_mem]

theorem id_ne_of_run {db : Db} (hs : Sound db) {e x : JobExecutionEntity} (he : e ∈ db.executions)
    (hx : x ∈ db.executions) (h : e.pipelineRunId ≠ x.pipelineRunId) : e.id ≠ x.id :=
  fun hid ↦ h (by rw [hs.executions_keyed.eq he hx hid])

theorem row_id_ne {db : Db} (hs : Sound db) {r : UUID} {v : RunView} (hv : db.view r = some v)
    {x : JobExecutionEntity} (hx : x ∈ db.executions) (hne : r ≠ x.pipelineRunId) :
    ∀ e ∈ v.rows, e.id ≠ x.id := by
  intro e he
  obtain ⟨he, her⟩ := (mem_rows hv).mp he
  exact id_ne_of_run hs he hx (her ▸ hne)

/-- A change of executions is idle on a run whose rows keep their statuses. -/
theorem idle_of_effect (c : Catalog) (call : Call) {db₀ db db₁ : Db}
    {u : JobExecutionEntity → JobExecutionEntity} {fresh sent : List JobExecutionEntity}
    (hs : Sound db) (h : Effect db db₁ u fresh sent) {r : UUID} {v : RunView}
    (hv : db.view r = some v) (hfresh : ∀ e ∈ fresh, e.pipelineRunId ≠ r)
    (hsent : ∀ e ∈ sent, e.pipelineRunId ≠ r)
    (hstatus : ∀ e ∈ db.executions, e.pipelineRunId = r → (u e).status = e.status)
    (hidle : Idles c db₀ v call) :
    ∃ v', db₁.view r = some v' ∧ RunStep c db₀ call v v' := by
  obtain ⟨v', hv', hrun, heffect⟩ := view_of_effect_other hs h hv hfresh hsent
  refine ⟨v', hv', .idle hidle heffect ?_ hrun⟩
  intro e he
  rw [(Db.view_eq_some hv).2.1, findByPipelineRunId_mem] at he
  exact hstatus e he.1 he.2

theorem refines_self {c : Catalog} {call : Call} {db : Db} (hs : Sound db)
    (hidle : ∀ r v, db.view r = some v → Idles c db v call) : Refines c call db db where
  sound := hs
  old r v hv := by
    have hkeyed : Table.Keyed JobExecutionEntity.id v.rows := by
      rw [(Db.view_eq_some hv).2.1]
      exact hs.executions_keyed.filter _
    exact ⟨v, hv, .idle (hidle r v hv) (ViewEffect.refl hkeyed) (fun _ _ ↦ rfl) rfl⟩
  new r v' hnone hv' := by
    rw [hnone] at hv'
    exact absurd hv' (by simp)

theorem updateRun_id (db : Db) (r : UUID) : db.updateRun r (fun run ↦ run) = db := by
  rw [Db.updateRun, Table.update]
  simp only [ite_self, List.map_id']

/-- **The shape of an operation on one run.** Executions of run `q` are changed and created, then
the run is changed by `f`. Other runs see nothing, so the operation refines a step as soon as it
makes one on the view of `q`. -/
theorem refines_of_effect {c : Catalog} {call : Call} {db db₁ : Db}
    {u : JobExecutionEntity → JobExecutionEntity} {fresh sent : List JobExecutionEntity}
    (hs : Sound db) (h : Effect db db₁ u fresh sent) {q : UUID}
    (hfresh : ∀ e ∈ fresh, e.pipelineRunId = q) (hsent : ∀ e ∈ sent, e.pipelineRunId = q)
    (hothers : ∀ e ∈ db.executions, e.pipelineRunId ≠ q → (u e).status = e.status)
    (hidle : ∀ r v, db.view r = some v → r ≠ q → Idles c db v call)
    {f : PipelineRunEntity → PipelineRunEntity} (hf : ∀ run, (f run).id = run.id)
    (hself : ∀ v v', db.view q = some v →
      ViewEffect v v' u fresh (sent.map JobExecutionEntity.id) →
      v'.rows = db₁.findByPipelineRunId q → v'.run = f v.run → RunStep c db call v v') :
    Refines c call db (db₁.updateRun q f) where
  sound := h.sound.updateRun hf q
  old := by
    intro r v hv
    by_cases hr : r = q
    · subst hr
      obtain ⟨v₁, hv₁, hrun, heffect⟩ := view_of_effect_self hs h hv hfresh hsent
      refine ⟨{ v₁ with run := f v₁.run }, ?_,
        hself v _ hv (heffect.withRun _) (Db.view_eq_some hv₁).2.1 (by rw [hrun])⟩
      rw [view_updateRun hf, hv₁, Option.map_some, if_pos rfl]
    · obtain ⟨v₁, hv₁, hstep⟩ := idle_of_effect c call hs h hv
        (fun e he ↦ by rw [hfresh e he]; exact Ne.symm hr)
        (fun e he ↦ by rw [hsent e he]; exact Ne.symm hr)
        (fun e he her ↦ hothers e he (her ▸ hr)) (hidle r v hv hr)
      refine ⟨v₁, ?_, hstep⟩
      rw [view_updateRun hf, hv₁, Option.map_some, if_neg hr]
  new := by
    intro r v' hnone hv'
    rw [← view_eq_none_of_runs h.runs, ← view_updateRun_eq_none hf (q := q)] at hnone
    rw [hnone] at hv'
    exact absurd hv' (by simp)

/-- The case of an operation that leaves the row of the run alone. -/
theorem refines_of_effect' {c : Catalog} {call : Call} {db db₁ : Db}
    {u : JobExecutionEntity → JobExecutionEntity} (hs : Sound db) (h : Effect db db₁ u [] [])
    {q : UUID} (hothers : ∀ e ∈ db.executions, e.pipelineRunId ≠ q → (u e).status = e.status)
    (hidle : ∀ r v, db.view r = some v → r ≠ q → Idles c db v call)
    (hself : ∀ v v', db.view q = some v → ViewEffect v v' u [] [] → v'.run = v.run →
      RunStep c db call v v') :
    Refines c call db db₁ := by
  have := refines_of_effect hs h (by simp) (by simp) hothers hidle
    (f := fun run ↦ run) (fun _ ↦ rfl) fun v v' hv heffect _ hrun ↦ hself v v' hv heffect hrun
  rwa [updateRun_id] at this

/-- An operation that changes the run first may as well change it last. -/
theorem Effect.swap {db db' : Db} {u : JobExecutionEntity → JobExecutionEntity}
    {fresh sent : List JobExecutionEntity} {f : PipelineRunEntity → PipelineRunEntity}
    (hf : ∀ run, (f run).id = run.id) {r : UUID} (hs : Sound db)
    (h : Effect (db.updateRun r f) db' u fresh sent) :
    ∃ db₁, Effect db db₁ u fresh sent ∧ db' = db₁.updateRun r f := by
  have hids : ∀ run ∈ db.runs, ∃ run' ∈ db'.runs, run'.id = run.id := by
    intro run hrun
    rw [h.runs]
    exact ⟨_, List.mem_map_of_mem hrun, Table.key_update hf r run⟩
  refine ⟨{ db' with runs := db.runs }, ?_, ?_⟩
  · refine ⟨{ h.sound with runs_keyed := hs.runs_keyed, runs_lt := ?_, run_of_execution := ?_ },
      h.keeps, h.executions, rfl, h.awaiting, h.dispatched⟩
    · intro run hrun
      obtain ⟨run', hrun', hid⟩ := hids run hrun
      exact hid ▸ h.sound.runs_lt run' hrun'
    · intro e he
      obtain ⟨run', hrun', hid⟩ := h.sound.run_of_execution e he
      rw [h.runs] at hrun'
      obtain ⟨run, hrun, hid'⟩ := Table.exists_of_mem_update hf hrun'
      exact ⟨run, hrun, hid'.trans hid⟩
  · rw [Db.updateRun, ← show db'.runs = Table.update PipelineRunEntity.id r f db.runs from h.runs]

/-! ## Canceling -/

theorem setsStatus_mark (rows : List JobExecutionEntity) (x : UUID) (t : JobExecutionStatus)
    (now : Instant) : SetsStatus rows (mark [x] t now) x t := by
  intro e _
  by_cases h : e.id = x
  · rw [mark_of_mem (List.mem_singleton.mpr h), if_pos h]
    rfl
  · rw [mark_of_not_mem (fun hmem ↦ h (List.mem_singleton.mp hmem)), if_neg h]

theorem mark_status_of_run_ne {db : Db} (hs : Sound db) {q : UUID} {ids : List UUID}
    (hids : ∀ id ∈ ids, ∃ x ∈ db.executions, x.pipelineRunId = q ∧ x.id = id)
    {e : JobExecutionEntity} (he : e ∈ db.executions) (hne : e.pipelineRunId ≠ q)
    (status : JobExecutionStatus) (now : Instant) : (mark ids status now e).status = e.status := by
  rw [mark_of_not_mem]
  intro hmem
  obtain ⟨x, hx, hrun, hid⟩ := hids e.id hmem
  exact id_ne_of_run hs he hx (hrun ▸ hne) hid.symm

theorem mem_active {db : Db} {r : UUID} {e : JobExecutionEntity} :
    e ∈ (db.findByPipelineRunId r).filter (fun e ↦ e.status.isActive) ↔
      e ∈ db.executions ∧ e.pipelineRunId = r ∧ e.status.isActive = true := by
  rw [List.mem_filter, findByPipelineRunId_mem, and_assoc]

theorem cancelRun_refines {c : Catalog} {ctx : CallContext} {runId : UUID} {db db' : Db}
    (hs : Sound db) (h : cancelRun c ctx runId db = .ok db') :
    Refines c ⟨ctx, .cancelRun runId⟩ db db' := by
  rw [cancelRun, bind_eq_ok] at h
  obtain ⟨run, hrun, h⟩ := h
  rw [orNotFound_eq_ok, hs.findRun] at hrun
  obtain ⟨hrun, rfl⟩ := hrun
  have hcancel : ∀ run : PipelineRunEntity, (canceling run).id = run.id := fun _ ↦ rfl
  have hsave := saveRun_update hs hrun (hcancel run)
  rw [canceling] at hsave
  dsimp only at h
  rw [hsave] at h
  obtain rfl := Except.ok.inj h
  have hmem : ∀ e ∈ (db.findByPipelineRunId run.id).filter (fun e ↦ e.status.isActive),
      e ∈ (db.updateRun run.id canceling).executions :=
    fun e he ↦ (mem_active.mp he).1
  have heffect := foldl_requestCancellation_ok c ctx (canceling run)
      (hs.updateRun hcancel run.id) hmem
    ((hs.executions_keyed.filter _).filter _)
  -- the source saves the run before its executions; the effect has it behind them
  obtain ⟨db₁, heffect, heq⟩ := heffect.swap hcancel hs
  have hids : ∀ id, id ∈ ((db.findByPipelineRunId run.id).filter
      (fun e ↦ e.status.isActive)).map JobExecutionEntity.id ↔
      ∃ x ∈ db.executions, (x.pipelineRunId = run.id ∧ x.status.isActive = true) ∧ x.id = id := by
    intro id
    rw [List.mem_map]
    simp only [mem_active, and_assoc]
  refine heq ▸ refines_of_effect hs heffect (by simp) (by simp) ?_ ?_ hcancel ?_
  · intro e he hne
    refine mark_status_of_run_ne hs (q := run.id) ?_ he hne _ _
    intro id hid
    obtain ⟨x, hx, ⟨hxrun, -⟩, hxid⟩ := (hids id).mp hid
    exact ⟨x, hx, hxrun, hxid⟩
  · intro r v hv hr heq
    exact hr ((hs.findRun.mp (Db.view_eq_some hv).1).2.symm.trans heq.symm)
  · intro v v' hv heffect _ hrun'
    have hvid : v.run.id = run.id := (hs.findRun.mp (Db.view_eq_some hv).1).2
    rw [← hvid]
    refine .cancelRun heffect ?_ hrun'
    intro e he
    rw [mem_rows hv] at he
    by_cases hactive : e.status.isActive = true
    · rw [mark_of_mem ((hids _).mpr ⟨e, he.1, ⟨he.2, hactive⟩, rfl⟩), if_pos hactive]
      rfl
    · rw [mark_of_not_mem, if_neg hactive]
      intro hmem
      obtain ⟨x, hx, ⟨-, hxactive⟩, hxid⟩ := (hids _).mp hmem
      exact hactive (hs.executions_keyed.eq hx he.1 hxid ▸ hxactive)

theorem cancelExecution_refines {c : Catalog} {ctx : CallContext} {executionId : UUID}
    {db db' : Db} (hs : Sound db) (h : JobExecutionService.cancel c ctx executionId db = .ok db') :
    Refines c ⟨ctx, .cancelExecution executionId⟩ db db' := by
  rw [JobExecutionService.cancel, bind_eq_ok] at h
  obtain ⟨x, hx, h⟩ := h
  rw [bind_eq_ok] at h
  obtain ⟨run, -, h⟩ := h
  rw [orNotFound_eq_ok, hs.findExecution] at hx
  obtain ⟨hx, rfl⟩ := hx
  by_cases hfinal : x.status.isFinalStatus = true
  · rw [if_pos (by simpa [JobExecutionStatus.isFinalStatus] using hfinal)] at h
    obtain rfl := Except.ok.inj h
    refine refines_self hs fun r v hv e he hid ↦ ?_
    rwa [hs.executions_keyed.eq ((mem_rows hv).mp he).1 hx hid]
  · rw [if_neg (by simpa [JobExecutionStatus.isFinalStatus] using hfinal)] at h
    obtain rfl := Except.ok.inj h
    refine refines_of_effect' (q := x.pipelineRunId) hs (requestCancellation_ok _ _ _ hs hx)
      (fun e he hne ↦ ?_) (fun r v hv hr e he hid ↦ ?_) fun v v' hv heffect hrun ↦ ?_
    · refine mark_status_of_run_ne hs (q := x.pipelineRunId) ?_ he hne _ _
      intro id hid
      exact ⟨x, hx, rfl, (List.mem_singleton.mp hid).symm⟩
    · exact absurd hid (row_id_ne hs hv hx hr e he)
    · exact .cancelExecution ((mem_rows hv).mpr ⟨hx, rfl⟩) (by simpa using hfinal) heffect
        (setsStatus_mark _ _ _ _) hrun

/-! ## Timing out -/

theorem foldl_saveExecution (f : JobExecutionEntity → JobExecutionEntity)
    (xs : List JobExecutionEntity) (db : Db) :
    xs.foldl (fun db e ↦ db.saveExecution (f e)) db =
      { db with executions :=
          xs.foldl (fun l e ↦ Table.save JobExecutionEntity.id l (f e)) db.executions } := by
  induction xs generalizing db with
  | nil => rfl
  | cons x xs ih =>
    rw [List.foldl_cons, ih, List.foldl_cons]
    rfl

/-- The change that a watchdog tick makes to a row. -/
def expire (now : Instant) (e : JobExecutionEntity) : JobExecutionEntity :=
  if e.status = .running ∧ TimeoutWatchdog.isExpired now e = true then e.finish .timeout now else e

theorem keeps_expire (now : Instant) : Keeps (expire now) :=
  Keeps.ite (u := fun e ↦ e.finish .timeout now)
    ⟨fun _ ↦ rfl, fun _ ↦ rfl, fun _ ↦ rfl, fun _ ↦ rfl⟩ _

theorem expire_status (now : Instant) (e : JobExecutionEntity) :
    (expire now e).status =
      if e.status = .running ∧ TimeoutWatchdog.isExpired now e = true then .timeout
      else e.status := by
  rw [expire, apply_ite JobExecutionEntity.status]
  rfl

theorem checkTimeouts_eq {db : Db} (hs : Sound db) (now : Instant) :
    TimeoutWatchdog.checkTimeouts now db = db.mapExecutions (expire now) := by
  have hkeeps : ∀ e : JobExecutionEntity, (e.finish .timeout now).id = e.id := fun _ ↦ rfl
  rw [TimeoutWatchdog.checkTimeouts, ← List.foldl_filter, List.filter_filter, foldl_saveExecution,
    Table.foldl_save_filter hkeeps _ hs.executions_keyed, Db.mapExecutions]
  congr 2
  funext e
  simp [expire, and_comm]

theorem checkTimeouts_refines {c : Catalog} {ctx : CallContext} {db : Db} (hs : Sound db) :
    Refines c ⟨ctx, .checkTimeouts⟩ db (TimeoutWatchdog.checkTimeouts ctx.now db) := by
  rw [checkTimeouts_eq hs]
  have heffect := effect_mapExecutions hs (keeps_expire ctx.now)
  refine ⟨heffect.sound, fun r v hv ↦ ?_, fun r v' hnone hv' ↦ ?_⟩
  · obtain ⟨v', hv', hrun, hview⟩ := view_of_effect_self hs heffect hv (by simp) (by simp)
    exact ⟨v', hv', .checkTimeouts hview (fun e _ ↦ expire_status ctx.now e) hrun⟩
  · rw [← view_eq_none_of_runs heffect.runs] at hnone
    rw [hnone] at hv'
    exact absurd hv' (by simp)

/-! ## Retrying

A retry marks the superseded attempts and creates the new ones in one loop, and writes the run
last. The effect of the loop is that of all marks followed by all creations, since what is
created early in the loop is not marked later. -/

theorem saveRun_reopened {db : Db} (hs : Sound db) {run : PipelineRunEntity}
    (hrun : run ∈ db.runs) (status : PipelineRunStatus) :
    db.saveRun { run with status := status, finishedAt := none } =
      db.updateRun run.id fun run ↦ reopened run status :=
  saveRun_update hs hrun (f := fun run ↦ reopened run status) rfl

theorem retryRun_refines {c : Catalog} {ctx : CallContext} {runId : UUID} {db db' : Db}
    (hs : Sound db) (h : retryRun c ctx runId db = .ok db') :
    Refines c ⟨ctx, .retryRun runId⟩ db db' := by
  rw [retryRun, bind_eq_ok] at h
  obtain ⟨run, hrun, h⟩ := h
  rw [orNotFound_eq_ok, hs.findRun] at hrun
  obtain ⟨hrun, rfl⟩ := hrun
  dsimp only at h
  rw [bind_eq_ok] at h
  obtain ⟨⟨retried, db₁⟩, hretry, h⟩ := h
  have hmem : ∀ e ∈ Latest.latestEntries JobExecutionEntity.jobId JobExecutionEntity.attempt
      (db.findByPipelineRunId run.id), e ∈ db.executions ∧ e.pipelineRunId = run.id :=
    fun e he ↦ findByPipelineRunId_mem.mp (Latest.mem_of_mem_latestEntries he)
  obtain ⟨hrows, heffect⟩ := retryLatest_ok hs ⟨run, hrun, rfl⟩ (fun e he ↦ (hmem e he).1)
    (Latest.nodup_map_latestEntries (hs.executions_keyed.filter _)) hretry
  have hpicks : ∀ e ∈ retryPicks c (db.findByPipelineRunId run.id),
      e ∈ db.executions ∧ e.pipelineRunId = run.id :=
    fun e he ↦ hmem e (List.mem_filter.mp he).1
  have hothers : ∀ e ∈ db.executions, e.pipelineRunId ≠ run.id →
      (mark ((retryPicks c (db.findByPipelineRunId run.id)).map JobExecutionEntity.id) .retrying
        ctx.now e).status = e.status := by
    intro e he hne
    refine mark_status_of_run_ne hs (q := run.id) ?_ he hne _ _
    intro id hid
    obtain ⟨x, hx, rfl⟩ := List.mem_map.mp hid
    exact ⟨x, (hpicks x hx).1, (hpicks x hx).2, rfl⟩
  have hfresh : ∀ e ∈ retried, e.pipelineRunId = run.id := by
    intro e he
    obtain ⟨x, -, job, -, -, hrow⟩ := exists_of_forall₂_right hrows he
    exact hrow.pipelineRunId
  have hidle : ∀ r v, db.view r = some v → r ≠ run.id →
      Idles c db v ⟨ctx, .retryRun run.id⟩ := by
    intro r v hv hr heq
    exact absurd ((hs.findRun.mp (Db.view_eq_some hv).1).2.symm.trans heq.symm) hr
  -- a run without retryable attempts is neither saved nor reopened
  by_cases hempty : retried = []
  · subst hempty
    obtain rfl := Except.ok.inj h
    have hnone : retryPicks c (db.findByPipelineRunId run.id) = [] :=
      List.forall₂_nil_right_iff.mp hrows
    refine refines_of_effect' (q := run.id) hs heffect hothers hidle
      fun v v' hv hview hrun' ↦ ?_
    refine .idle (fun _ ↦ ?_) hview (fun e _ ↦ ?_) hrun'
    · rw [(Db.view_eq_some hv).2.1]
      exact hnone
    change (mark ((retryPicks c _).map _) _ _ e).status = _
    rw [hnone, List.map_nil, mark_of_not_mem List.not_mem_nil]
  · rw [if_neg (by simpa using hempty)] at h
    have hrun₁ : run ∈ db₁.runs := heffect.runs ▸ hrun
    rw [saveRun_reopened heffect.sound hrun₁] at h
    obtain rfl := Except.ok.inj h
    refine refines_of_effect (q := run.id) hs heffect hfresh
      (fun e he ↦ hfresh e (List.mem_filter.mp he).1) hothers hidle (fun _ ↦ rfl)
      fun v v' hv hview _ hrun' ↦ ?_
    obtain ⟨hfind, hvrows, -, -⟩ := Db.view_eq_some hv
    have hvid : v.run.id = run.id := (hs.findRun.mp hfind).2
    rw [← hvid]
    refine .retryRun ?_ hview (fun e _ ↦ ?_) ?_ hrun'
    · rw [hvrows]
      intro hnone
      change List.Forall₂ _ (retryPicks c _) _ at hrows
      rw [hnone] at hrows
      exact hempty (List.forall₂_nil_left_iff.mp hrows)
    · rw [hvrows]
      by_cases he : e.id ∈ (retryPicks c (db.findByPipelineRunId run.id)).map
          JobExecutionEntity.id
      · rw [if_pos he]
        exact congrArg JobExecutionEntity.status (mark_of_mem he)
      · rw [if_neg he]
        exact congrArg JobExecutionEntity.status (mark_of_not_mem he)
    · rw [hvid, hvrows]
      exact hrows

theorem retryExecution_refines {c : Catalog} {ctx : CallContext} {executionId : UUID}
    {db db' : Db} (hs : Sound db) (h : retryExecution c ctx executionId db = .ok db') :
    Refines c ⟨ctx, .retryExecution executionId⟩ db db' := by
  rw [retryExecution, bind_eq_ok] at h
  obtain ⟨x, hx, h⟩ := h
  rw [bind_eq_ok] at h
  obtain ⟨run, hrun, h⟩ := h
  rw [bind_eq_ok] at h
  obtain ⟨job, hjob, h⟩ := h
  rw [orNotFound_eq_ok, hs.findExecution] at hx
  rw [orNotFound_eq_ok, hs.findRun] at hrun
  rw [orNotFound_eq_ok, Catalog.findJob_eq_some] at hjob
  obtain ⟨hx, rfl⟩ := hx
  obtain ⟨hrun, hrunid⟩ := hrun
  -- an execution that is no candidate is refused, so there is no step to refine
  by_cases hcand : isRetryCandidate x job = true
  · rw [if_neg (by simpa using hcand)] at h
    dsimp only at h
    rw [saveExecution_setStatus hs hx, bind_eq_ok] at h
    obtain ⟨⟨retried, db₁⟩, hcreate, h⟩ := h
    have hmark := effect_mapExecutions hs (keeps_mark [x.id] .retrying ctx.now)
    obtain ⟨hrow, -, hcreated⟩ := createExecution_ok hmark.sound ⟨run, hrun, rfl⟩ hcreate
    have heffect := hmark.trans hcreated (by simp)
    have hrun₁ : run ∈ db₁.runs := heffect.runs ▸ hrun
    rw [saveRun_reopened heffect.sound hrun₁] at h
    obtain rfl := Except.ok.inj h
    refine refines_of_effect (q := run.id) hs heffect ?_ ?_ ?_ ?_ (fun _ ↦ rfl)
      fun v v' hv hview _ hrun' ↦ ?_
    · intro e he
      rw [List.mem_singleton.mp he]
      exact hrow.pipelineRunId
    · intro e he
      rw [List.mem_singleton.mp (List.mem_filter.mp he).1]
      exact hrow.pipelineRunId
    · intro e he hne
      refine mark_status_of_run_ne hs (q := run.id) ?_ he hne _ _
      intro id hid
      exact ⟨x, hx, hrunid.symm, (List.mem_singleton.mp hid).symm⟩
    · exact fun r v hv hr ↦ row_id_ne hs hv hx (hrunid ▸ hr)
    · obtain ⟨hfind, hvrows, -, -⟩ := Db.view_eq_some hv
      have hvid : v.run.id = run.id := (hs.findRun.mp hfind).2
      refine .retryExecution ((mem_rows hv).mpr ⟨hx, hrunid.symm⟩) hjob.1
        hjob.2 hcand hview (setsStatus_mark _ _ _ _) ?_ hrun'
      rw [hvid, hvrows]
      exact hrow
  · rw [if_pos (by simpa using hcand)] at h
    exact absurd h (by simp)

/-! ## Approvals

Both decisions write the approval first and then look for the execution. If it is not waiting any
more, the decision is all that happens and the step is idle. -/

/-- What deciding an approval writes to it. -/
def decided (status : ApprovalStatus) (ctx : CallContext) (a : DeploymentApprovalEntity) :
    DeploymentApprovalEntity :=
  { a with status := status, approvedBy := ctx.userId, decidedAt := some ctx.now }

theorem decide_ok {status : ApprovalStatus} {ctx : CallContext} {approvalId : UUID} {db db' : Db}
    (hs : Sound db) (h : DeploymentApprovalService.decide status ctx approvalId db = .ok db') :
    ∃ a ∈ db.approvals, a.id = approvalId ∧ a.status = .pending ∧
      db' = db.updateApproval approvalId (decided status ctx) := by
  rw [DeploymentApprovalService.decide, bind_eq_ok] at h
  obtain ⟨a, ha, h⟩ := h
  rw [orNotFound_eq_ok, Db.findApproval, Table.findById_eq_some hs.approvals_keyed] at ha
  obtain ⟨ha, rfl⟩ := ha
  by_cases hpending : a.status = .pending
  · rw [if_neg (by simpa using hpending)] at h
    have hsave := saveApproval_update hs ha (f := decided status ctx) rfl
    rw [decided] at hsave
    rw [hsave] at h
    exact ⟨a, ha, rfl, hpending, (Except.ok.inj h).symm⟩
  · rw [if_pos hpending] at h
    exact absurd h (by simp)

theorem effect_decided {db : Db} (hs : Sound db) (status : ApprovalStatus)
    (hstatus : status ≠ .pending) (ctx : CallContext) (k : UUID) :
    Effect db (db.updateApproval k (decided status ctx)) (fun e ↦ e) [] [] :=
  effect_updateApproval (f := decided status ctx) hs (fun _ ↦ rfl) (fun _ ↦ rfl) (fun _ ↦ rfl)
    (fun _ ↦ hstatus) k

theorem findApproval_decided {db : Db} (hs : Sound db) {status : ApprovalStatus}
    {ctx : CallContext} {a : DeploymentApprovalEntity} (ha : a ∈ db.approvals) :
    (db.updateApproval a.id (decided status ctx)).findApproval a.id =
      some (decided status ctx a) := by
  have hkeyed : Table.Keyed DeploymentApprovalEntity.id
      (db.updateApproval a.id (decided status ctx)).approvals :=
    (Table.keyed_update (f := decided status ctx) (fun _ ↦ rfl) a.id).mpr hs.approvals_keyed
  rw [Db.findApproval, Table.findById_eq_some hkeyed]
  exact ⟨List.mem_map.mpr ⟨a, ha, if_pos rfl⟩, rfl⟩

theorem mem_approvals {db : Db} {r : UUID} {v : RunView} (hv : db.view r = some v)
    {a : DeploymentApprovalEntity} :
    a ∈ v.approvals ↔ a ∈ db.approvals ∧ a.pipelineRunId = r := by
  rw [Db.view, Option.map_eq_some_iff] at hv
  obtain ⟨run, -, rfl⟩ := hv
  rw [List.mem_filter, decide_eq_true_iff]

theorem enqueueExecution_effect {c : Catalog} {now : Instant} {run : PipelineRunEntity}
    {job : JobEntity} {e x : JobExecutionEntity} {db db' : Db} (hs : Sound db)
    (hmem : run ∈ db.runs) (hrun : x.pipelineRunId = run.id) (hid : x.id = e.id)
    (h : enqueueExecution c now run job e db = .ok db') :
    Effect db db' (fun e ↦ e) [] [x] := by
  obtain ⟨hsound, hexec, hruns, happr, hdisp⟩ := enqueueExecution_ok hs ⟨run, hmem, rfl⟩ h
  refine ⟨hsound, keeps_id, ?_, hruns, fun r y hy ↦ Or.inl ?_, fun r ↦ ?_⟩
  · rw [hexec, List.map_id', List.append_nil]
  · rwa [Db.awaiting, happr] at hy
  · rw [hdisp, sentIds, List.filter_singleton, hrun, ← hid]
    by_cases hr : run.id = r <;> simp [hr]

theorem approve_refines {c : Catalog} {ctx : CallContext} {approvalId : UUID} {db db' : Db}
    (hs : Sound db) (h : DeploymentApprovalService.approve c ctx approvalId db = .ok db') :
    Refines c ⟨ctx, .approve approvalId⟩ db db' := by
  rw [DeploymentApprovalService.approve, bind_eq_ok] at h
  obtain ⟨db₁, hdecide, h⟩ := h
  obtain ⟨a, ha, rfl, hpending, rfl⟩ := decide_ok hs hdecide
  have hdecided := effect_decided hs .approved (by decide) ctx a.id
  rw [enqueueApprovedExecution, findApproval_decided hs ha, bind_eq_ok] at h
  obtain ⟨a', ha', h⟩ := h
  obtain rfl := Option.some.inj (orNotFound_eq_ok.mp ha')
  rw [if_neg (by simp [decided]), bind_eq_ok] at h
  obtain ⟨x, hx, h⟩ := h
  rw [orNotFound_eq_ok, hdecided.sound.findExecution] at hx
  obtain ⟨hx, hxid⟩ := hx
  change x ∈ db.executions at hx
  have hother : ∀ r v, db.view r = some v → r ≠ x.pipelineRunId →
      Idles c db v ⟨ctx, .approve a.id⟩ := by
    intro r v hv hr a' ha' haid e he hid
    rw [hs.approvals_keyed.eq ((mem_approvals hv).mp ha').1 ha haid] at hid
    exact absurd (hid.trans hxid.symm) (row_id_ne hs hv hx hr e he)
  -- an execution that waits no longer is left as it is: only the approval is decided
  by_cases hwaiting : x.status = .waitingApproval
  · rw [if_neg (by simpa using hwaiting), bind_eq_ok] at h
    obtain ⟨run, hrun, h⟩ := h
    rw [bind_eq_ok] at h
    obtain ⟨job, -, h⟩ := h
    rw [orNotFound_eq_ok, hdecided.sound.findRun] at hrun
    obtain ⟨hrun, hrunid⟩ := hrun
    dsimp only at h
    rw [saveExecution_setStatus hdecided.sound hx, bind_eq_ok] at h
    obtain ⟨db₂, henqueue, h⟩ := h
    have hmark := effect_mapExecutions hdecided.sound (keeps_mark [x.id] .queued ctx.now)
    have hsend := enqueueExecution_effect (x := x) hmark.sound hrun hrunid.symm rfl henqueue
    have heffect := (hdecided.trans hmark (by simp)).trans hsend (by simp)
    have hrun₂ : run ∈ db₂.runs := heffect.runs ▸ hrun
    rw [saveRun_reopened heffect.sound hrun₂] at h
    obtain rfl := Except.ok.inj h
    refine refines_of_effect (q := run.id) hs heffect (by simp) ?_ ?_
      (fun r v hv hr ↦ hother r v hv (hrunid ▸ hr)) (fun _ ↦ rfl) fun v v' hv hview _ hrun' ↦ ?_
    · intro e he
      rw [List.mem_singleton.mp he]
      exact hrunid.symm
    · intro e he hne
      refine mark_status_of_run_ne hs (q := run.id) ?_ he hne _ _
      intro id hid
      exact ⟨x, hx, hrunid.symm, (List.mem_singleton.mp hid).symm⟩
    · have harun : a.pipelineRunId = run.id := by
        rw [hrunid]
        exact (hs.approval_run a ha x hx hxid).symm
      exact .approve ((mem_rows hv).mpr ⟨hx, hrunid.symm⟩) ((mem_approvals hv).mpr ⟨ha, harun⟩)
        hxid.symm hpending hwaiting hview (setsStatus_mark _ _ _ _) hrun'
  · rw [if_pos hwaiting] at h
    obtain rfl := Except.ok.inj h
    refine refines_of_effect' (q := x.pipelineRunId) hs hdecided (fun _ _ _ ↦ rfl) hother
      fun v v' hv hview hrun ↦ .idle ?_ hview (fun _ _ ↦ rfl) hrun
    intro a' ha' haid e he hid
    rw [hs.approvals_keyed.eq ((mem_approvals hv).mp ha').1 ha haid] at hid
    rwa [hs.executions_keyed.eq ((mem_rows hv).mp he).1 hx (hid.trans hxid.symm)]

theorem recomputeRunStatus_ok {now : Instant} {r : UUID} {db db' : Db} (hs : Sound db)
    (h : recomputeRunStatus now r db = .ok db') :
    db' = db.updateRun r fun run ↦ recomputed now run (db.findByPipelineRunId r) := by
  rw [recomputeRunStatus, bind_eq_ok] at h
  obtain ⟨run, hrun, h⟩ := h
  rw [orNotFound_eq_ok, hs.findRun] at hrun
  obtain ⟨hrun, rfl⟩ := hrun
  have hsave := saveRun_update hs hrun
    (f := fun run' ↦ recomputed now run' (db.findByPipelineRunId run.id)) rfl
  exact (Except.ok.inj h).symm.trans hsave

theorem reject_refines {c : Catalog} {ctx : CallContext} {approvalId : UUID} {db db' : Db}
    (hs : Sound db) (h : DeploymentApprovalService.reject ctx approvalId db = .ok db') :
    Refines c ⟨ctx, .reject approvalId⟩ db db' := by
  rw [DeploymentApprovalService.reject, bind_eq_ok] at h
  obtain ⟨db₁, hdecide, h⟩ := h
  obtain ⟨a, ha, rfl, hpending, rfl⟩ := decide_ok hs hdecide
  have hdecided := effect_decided hs .rejected (by decide) ctx a.id
  rw [rejectApprovalExecution, findApproval_decided hs ha, bind_eq_ok] at h
  obtain ⟨a', ha', h⟩ := h
  obtain rfl := Option.some.inj (orNotFound_eq_ok.mp ha')
  rw [bind_eq_ok] at h
  obtain ⟨x, hx, h⟩ := h
  rw [orNotFound_eq_ok, hdecided.sound.findExecution] at hx
  obtain ⟨hx, hxid⟩ := hx
  change x ∈ db.executions at hx
  have hother : ∀ r v, db.view r = some v → r ≠ x.pipelineRunId →
      Idles c db v ⟨ctx, .reject a.id⟩ := by
    intro r v hv hr a' ha' haid e he hid
    rw [hs.approvals_keyed.eq ((mem_approvals hv).mp ha').1 ha haid] at hid
    exact absurd (hid.trans hxid.symm) (row_id_ne hs hv hx hr e he)
  -- as for `approve`: the execution is skipped only while it waits
  by_cases hwaiting : x.status = .waitingApproval
  · rw [if_neg (by simpa using hwaiting)] at h
    dsimp only at h
    have hkeeps : Keeps fun e ↦ if e.id = x.id then e.finish .skipped ctx.now else e :=
      Keeps.ite (u := fun e ↦ e.finish .skipped ctx.now)
        ⟨fun _ ↦ rfl, fun _ ↦ rfl, fun _ ↦ rfl, fun _ ↦ rfl⟩ _
    rw [saveExecution_update hdecided.sound hx (f := fun e ↦ e.finish .skipped ctx.now) rfl] at h
    have hskip := effect_mapExecutions hdecided.sound hkeeps
    have heffect := hdecided.trans hskip (by simp)
    rw [recomputeRunStatus_ok heffect.sound h]
    refine refines_of_effect (q := x.pipelineRunId) hs heffect (by simp) (by simp) ?_
      hother (fun _ ↦ rfl) fun v v' hv hview hrows hrun' ↦ ?_
    · intro e he hne
      rw [if_neg (id_ne_of_run hs he hx hne)]
    · have harun : a.pipelineRunId = x.pipelineRunId := (hs.approval_run a ha x hx hxid).symm
      refine .reject ((mem_rows hv).mpr ⟨hx, rfl⟩) ((mem_approvals hv).mpr ⟨ha, harun⟩)
        (fun a' ha' haid ↦ hs.approvals_keyed.eq ((mem_approvals hv).mp ha').1 ha haid) hxid.symm
        hpending hwaiting hview (fun e _ ↦ ?_) ?_
      · rw [apply_ite JobExecutionEntity.status]
        rfl
      · rw [hrows]
        exact hrun'
  · rw [if_pos hwaiting] at h
    obtain rfl := Except.ok.inj h
    refine refines_of_effect' (q := x.pipelineRunId) hs hdecided (fun _ _ _ ↦ rfl) hother
      fun v v' hv hview hrun ↦ .idle ?_ hview (fun _ _ ↦ rfl) hrun
    intro a' ha' haid e he hid
    rw [hs.approvals_keyed.eq ((mem_approvals hv).mp ha').1 ha haid] at hid
    rwa [hs.executions_keyed.eq ((mem_rows hv).mp he).1 hx (hid.trans hxid.symm)]

end FuzzingCiCd.Master
