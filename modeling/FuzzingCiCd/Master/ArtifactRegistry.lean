import FuzzingCiCd.Master.Consumption

/-!
# The registry of artifacts

Events announce artifacts, and `ArtifactService.register` saves a row for each: under the id that
the announcement brings, or under a new one. Nothing is looked up by the execution and the uri, and
the run of the row is the one that the message names.

So an artifact that is announced twice has two rows unless both announcements bring the same id, and
an id that is brought for something else moves the row. If announcements name the run of their
execution, and bring the same id exactly when they are of the same artifact, every announced
artifact has one row, of the run of its execution, and rows stay where they are:
`registered_throughout`.
-/

namespace FuzzingCiCd.Master

open Transition

/-! ## Rows

An announcement saves one row: the one whose id it brings, or a new one. If it brings the id of a
row exactly when the row is that of its artifact (`Matches`), there is one row for each artifact
before and after. The other announcements of the event have to match the new rows as well, which
is what `Agree` asks of two of them. -/

/-- Every artifact has one row, of the run of its execution. -/
structure Registry (db : Db) : Prop where
  apart : ∀ row ∈ db.artifacts, ∀ row' ∈ db.artifacts,
    row.jobExecutionId = row'.jobExecutionId → row.uri = row'.uri → row = row'
  run : ∀ row ∈ db.artifacts, ∃ e ∈ db.executions,
    row.jobExecutionId = some e.id ∧ row.pipelineRunId = some e.pipelineRunId
  ids_lt : ∀ row ∈ db.artifacts, row.id < db.nextId

/-- An announcement brings the id of a row exactly if the row is that of the artifact. -/
def Matches (db : Db) (jobExecutionId : Option UUID) (descriptor : ArtifactDescriptor) : Prop :=
  ∀ row ∈ db.artifacts, descriptor.artifactId = some row.id ↔
    row.jobExecutionId = jobExecutionId ∧ row.uri = descriptor.uri

/-- Two announcements of an execution bring the same id exactly if they are of one artifact. -/
def Agree (descriptor descriptor' : ArtifactDescriptor) : Prop :=
  descriptor.artifactId ≠ none ∧ descriptor.artifactId = descriptor'.artifactId ↔
    descriptor.uri = descriptor'.uri

/-- The rows are there still, for the same artifacts and runs. -/
def KeepsRows (db db' : Db) : Prop :=
  ∀ row ∈ db.artifacts, ∃ row' ∈ db'.artifacts, row'.id = row.id ∧
    row'.jobExecutionId = row.jobExecutionId ∧ row'.pipelineRunId = row.pipelineRunId ∧
    row'.uri = row.uri

theorem KeepsRows.trans {db db' db'' : Db} (h : KeepsRows db db') (h' : KeepsRows db' db'') :
    KeepsRows db db'' := by
  intro row hrow
  obtain ⟨row', hrow', hid, hexecution, hrun, huri⟩ := h row hrow
  obtain ⟨row'', hrow'', hid', hexecution', hrun', huri'⟩ := h' row' hrow'
  exact ⟨row'', hrow'', hid'.trans hid, hexecution'.trans hexecution, hrun'.trans hrun,
    huri'.trans huri⟩

theorem keepsRows_of_eq {db db' : Db} (h : db'.artifacts = db.artifacts) : KeepsRows db db' :=
  fun row hrow ↦ ⟨row, h ▸ hrow, rfl, rfl, rfl, rfl⟩

namespace ArtifactService

variable {now : Instant} {db : Db} {e : JobExecutionEntity} {descriptor : ArtifactDescriptor}

/-- **One announcement.** The row that it saves, and what is left of the others. -/
theorem registerOne_row (h : Registry db)
    (hmatches : Matches db (some e.id) descriptor)
    (hknown : ∀ id ∈ descriptor.artifactId, id < db.nextId) :
    ∃ row, row.jobExecutionId = some e.id ∧ row.pipelineRunId = some e.pipelineRunId ∧
      row.uri = descriptor.uri ∧
      (descriptor.artifactId = none ∧ row.id = db.nextId ∨ descriptor.artifactId = some row.id) ∧
      (∀ x ∈ db.artifacts, x.id = row.id ↔
        x.jobExecutionId = row.jobExecutionId ∧ x.uri = row.uri) ∧
      (∀ x, x ∈ (registerOne now (some e.pipelineRunId) (some e.id) db descriptor).artifacts ↔
        x = row ∨ x ∈ db.artifacts ∧ x.id ≠ row.id) ∧
      row.id < (registerOne now (some e.pipelineRunId) (some e.id) db descriptor).nextId := by
  rw [registerOne]
  rcases hid : descriptor.artifactId with _ | id
  · refine ⟨registerOne.artifact now (some e.pipelineRunId) (some e.id) descriptor
      (.obj (descriptor.metadata.getD [])) db.nextId, rfl, rfl, rfl, .inl ⟨rfl, rfl⟩, ?_,
      fun x ↦ Table.mem_save_iff, Nat.lt_succ_self db.nextId⟩
    intro x hx
    -- nothing was announced for the artifact, and the id is new
    refine iff_of_false (h.ids_lt x hx).ne fun hsame ↦ ?_
    have hbrought := (hmatches x hx).mpr hsame
    rw [hid] at hbrought
    cases hbrought
  · refine ⟨registerOne.artifact now (some e.pipelineRunId) (some e.id) descriptor
      (.obj (descriptor.metadata.getD [])) id, rfl, rfl, rfl, .inr rfl, ?_,
      fun x ↦ Table.mem_save_iff, hknown id hid⟩
    intro x hx
    change x.id = id ↔ x.jobExecutionId = some e.id ∧ x.uri = descriptor.uri
    rw [← hmatches x hx, hid, Option.some.injEq]
    exact eq_comm

/-- The registry after an announcement, and for the other announcements of the event. -/
theorem registerOne_registry (h : Registry db)
    (hkeyed : Table.Keyed JobExecutionEntity.id db.executions) (he : e ∈ db.executions)
    (hmatches : Matches db (some e.id) descriptor)
    (hknown : ∀ id ∈ descriptor.artifactId, id < db.nextId) {db' : Db}
    (hdb' : registerOne now (some e.pipelineRunId) (some e.id) db descriptor = db') :
    Registry db' ∧ KeepsRows db db' ∧ db'.executions = db.executions ∧ db.nextId ≤ db'.nextId ∧
      (∃ row ∈ db'.artifacts, row.jobExecutionId = some e.id ∧ row.uri = descriptor.uri) ∧
      ∀ descriptor', Agree descriptor descriptor' → Matches db (some e.id) descriptor' →
        (∀ id ∈ descriptor'.artifactId, id < db.nextId) → Matches db' (some e.id) descriptor' := by
  obtain ⟨row, hexecution, hrun, huri, hid, hslot, hrows, hlt⟩ :=
    @registerOne_row now db e descriptor h hmatches hknown
  obtain ⟨artifacts, n, hframe⟩ :=
    registerOne_frame now (some e.pipelineRunId) (some e.id) db descriptor
  rw [hdb'] at hrows hlt hframe
  have hexecutions : db'.executions = db.executions := by rw [hframe]
  have hnext : db.nextId ≤ db'.nextId := by
    rw [hframe]
    exact Nat.le_add_right _ n
  refine ⟨⟨?_, ?_, ?_⟩, ?_, hexecutions, hnext, ⟨row, (hrows row).mpr (.inl rfl), hexecution, huri⟩,
    ?_⟩
  · intro x hx y hy hsame hsameUri
    rcases (hrows x).mp hx with rfl | ⟨hxold, hxid⟩
    · rcases (hrows y).mp hy with rfl | ⟨hyold, hyid⟩
      · rfl
      · exact absurd ((hslot y hyold).mpr ⟨hsame.symm, hsameUri.symm⟩) hyid
    · rcases (hrows y).mp hy with rfl | ⟨hyold, hyid⟩
      · exact absurd ((hslot x hxold).mpr ⟨hsame, hsameUri⟩) hxid
      · exact h.apart x hxold y hyold hsame hsameUri
  · intro x hx
    rw [hexecutions]
    rcases (hrows x).mp hx with rfl | ⟨hold, -⟩
    · exact ⟨e, he, hexecution, hrun⟩
    · exact h.run x hold
  · intro x hx
    rcases (hrows x).mp hx with rfl | ⟨hold, -⟩
    · exact hlt
    · exact (h.ids_lt x hold).trans_le hnext
  · intro x hx
    by_cases hxid : x.id = row.id
    · obtain ⟨hsame, hsameUri⟩ := (hslot x hx).mp hxid
      refine ⟨row, (hrows row).mpr (.inl rfl), hxid.symm, hsame.symm, ?_, hsameUri.symm⟩
      obtain ⟨owner, howner, hownid, hownrun⟩ := h.run x hx
      have hid : owner.id = e.id :=
        Option.some.inj (hownid.symm.trans (hsame.trans hexecution))
      obtain rfl := hkeyed.eq howner he hid
      exact hrun.trans hownrun.symm
    · exact ⟨x, (hrows x).mpr (.inr ⟨hx, hxid⟩), rfl, rfl, rfl, rfl⟩
  -- another announcement: it brings the id of the new row exactly when it is of its place
  · intro descriptor' hagree hmatches' hknown' x hx
    rcases (hrows x).mp hx with rfl | ⟨hold, hxid⟩
    · rw [Agree] at hagree
      rw [hexecution, and_iff_right rfl, huri, ← hagree]
      rcases hid with ⟨hnone, hfresh⟩ | hsome
      · refine iff_of_false (fun hbrought ↦ ?_) fun hboth ↦ hboth.1 hnone
        exact (hknown' _ hbrought).ne hfresh
      · rw [hsome, and_iff_right (Option.some_ne_none _)]
        exact eq_comm
    · exact hmatches' x hold

/-- **The announcements of an event.** Each of them has a row at the end, and no row moves. -/
theorem register_registry {descriptors : List ArtifactDescriptor} (h : Registry db)
    (hkeyed : Table.Keyed JobExecutionEntity.id db.executions) (he : e ∈ db.executions)
    (hmatches : ∀ descriptor ∈ descriptors, Matches db (some e.id) descriptor)
    (hknown : ∀ descriptor ∈ descriptors, ∀ id ∈ descriptor.artifactId, id < db.nextId)
    (hagree : descriptors.Pairwise Agree) {db' : Db}
    (hdb' : descriptors.foldl (registerOne now (some e.pipelineRunId) (some e.id)) db = db') :
    Registry db' ∧ KeepsRows db db' ∧ db'.executions = db.executions ∧
      ∀ descriptor ∈ descriptors,
        ∃ row ∈ db'.artifacts, row.jobExecutionId = some e.id ∧ row.uri = descriptor.uri := by
  induction descriptors generalizing db with
  | nil =>
    obtain rfl : db = db' := hdb'
    exact ⟨h, keepsRows_of_eq rfl, rfl, by simp⟩
  | cons descriptor descriptors ih =>
    rw [List.forall_mem_cons] at hmatches hknown
    rw [List.pairwise_cons] at hagree
    obtain ⟨hfirst, hkeeps, hexecutions, hnext, ⟨row, hrow, hexecution, huri⟩, hothers⟩ :=
      @registerOne_registry now db e descriptor h hkeyed he hmatches.1 hknown.1 _ rfl
    obtain ⟨hrest, hkeeps', hexecutions', hpresent⟩ := ih hfirst (hexecutions ▸ hkeyed)
      (hexecutions ▸ he)
      (fun other hother ↦ hothers other (hagree.1 other hother) (hmatches.2 other hother)
        (hknown.2 other hother))
      (fun other hother id hid ↦ (hknown.2 other hother id hid).trans_le hnext) hagree.2 hdb'
    refine ⟨hrest, hkeeps.trans hkeeps', hexecutions'.trans hexecutions,
      List.forall_mem_cons.mpr ⟨?_, hpresent⟩⟩
    obtain ⟨row', hrow', -, hexecution', -, huri'⟩ := hkeeps' row hrow
    exact ⟨row', hrow', hexecution'.trans hexecution, huri'.trans huri⟩

end ArtifactService

/-! ## Events

Registering is one part of an event: nothing that comes before or behind it writes an artifact,
and executions keep their runs. So an event that fits registers what it announces, and one that
is not consumed leaves the registry as it is. -/

section Events

variable {c : Catalog} {now : Instant} {delivery : ExecutorEventService.Delivery}
  {message : ExecutorEventMessage} {db db' : Db}

/-- Rows of executions stay, with their runs. -/
def KeepsExecutions (db db' : Db) : Prop :=
  ∀ e ∈ db.executions, ∃ e' ∈ db'.executions, e'.id = e.id ∧ e'.pipelineRunId = e.pipelineRunId

theorem Registry.of_eq (h : Registry db) (hartifacts : db'.artifacts = db.artifacts)
    (hexecutions : KeepsExecutions db db') (hnext : db.nextId ≤ db'.nextId) : Registry db' := by
  refine ⟨hartifacts ▸ h.apart, fun row hrow ↦ ?_, fun row hrow ↦ ?_⟩
  · obtain ⟨e, he, hid, hrun⟩ := h.run row (hartifacts ▸ hrow)
    obtain ⟨e', he', hid', hrun'⟩ := hexecutions e he
    exact ⟨e', he', by rw [hid, hid'], by rw [hrun, hrun']⟩
  · exact (h.ids_lt row (hartifacts ▸ hrow)).trans_le hnext

theorem continueRun_artifacts {r : UUID} (hs : Sound db)
    (hcontinue : ExecutorEventService.continueRun c now r db = .ok db') :
    db'.artifacts = db.artifacts ∧ KeepsExecutions db db' := by
  rw [ExecutorEventService.continueRun] at hcontinue
  rcases hfind : db.findRun r with _ | run
  · rw [hfind] at hcontinue
    obtain rfl := Except.ok.inj hcontinue
    exact ⟨rfl, fun e he ↦ ⟨e, he, rfl, rfl⟩⟩
  · rw [hfind] at hcontinue
    obtain ⟨⟨created, db₁⟩, hdispatch, hrecompute⟩ := bind_eq_ok.mp hcontinue
    obtain ⟨hmem, rfl⟩ := hs.findRun.mp hfind
    obtain ⟨-, -, heffect⟩ := PipelineRunService.dispatchReadyJobs_ok hs ⟨run, hmem, rfl⟩ hdispatch
    obtain ⟨ready, -, hready⟩ := bind_eq_ok.mp hdispatch
    have hupdate := recomputeRunStatus_ok heffect.sound hrecompute
    rw [hupdate]
    refine ⟨(createReady_rest hready).1, fun e he ↦ ⟨e, ?_, rfl, rfl⟩⟩
    change e ∈ db₁.executions
    rw [heffect.executions, List.map_id']
    exact List.mem_append_left _ he

/-- An event that announces artifacts in accordance with the rows: it names the run of its
execution, and an announcement brings the id of the row of its artifact if there is one, and of no
other row. The ids that are brought are none that are still to be drawn at random. -/
structure Fits (db : Db) (message : ExecutorEventMessage) : Prop where
  run : message.artifacts.getD [] ≠ [] → ∀ e ∈ db.executions,
    message.jobExecutionId = some e.id → message.pipelineRunId = some e.pipelineRunId
  rows : ∀ descriptor ∈ message.artifacts.getD [], Matches db message.jobExecutionId descriptor
  agree : (message.artifacts.getD []).Pairwise Agree
  known : ∀ descriptor ∈ message.artifacts.getD [], ∀ id ∈ descriptor.artifactId, id < db.nextId

theorem register_fits {e : JobExecutionEntity} (h : Registry db)
    (hkeyed : Table.Keyed JobExecutionEntity.id db.executions) (he : e ∈ db.executions)
    (hid : message.jobExecutionId = some e.id) (hfits : Fits db message)
    (hdb' : ArtifactService.register now message.pipelineRunId message.jobExecutionId
      message.artifacts db = db') :
    Registry db' ∧ KeepsRows db db' ∧ db'.executions = db.executions ∧
      ∀ descriptor ∈ message.artifacts.getD [],
        ∃ row ∈ db'.artifacts, row.jobExecutionId = some e.id ∧ row.uri = descriptor.uri := by
  rw [ArtifactService.register] at hdb'
  by_cases hnone : message.artifacts.getD [] = []
  · rw [hnone] at hdb' ⊢
    obtain rfl : db = db' := hdb'
    exact ⟨h, keepsRows_of_eq rfl, rfl, by simp⟩
  · rw [hfits.run hnone e he hid, hid] at hdb'
    exact ArtifactService.register_registry h hkeyed he (hid ▸ hfits.rows) hfits.known hfits.agree
      hdb'

theorem store_registry {e : JobExecutionEntity} (hs : Sound db) (h : Registry db)
    (hfits : Fits db message) (he : e ∈ db.executions) (hid : message.jobExecutionId = some e.id)
    (hstore : ExecutorEventService.store now delivery message e db = db') :
    Registry db' ∧ KeepsRows db db' ∧ ∀ descriptor ∈ message.artifacts.getD [],
      ∃ row ∈ db'.artifacts, row.jobExecutionId = some e.id ∧ row.uri = descriptor.uri := by
  have hkeeps := ExecutorEventService.keeps_applyTo now message e
  generalize hdb₁ : db.mapExecutions (ExecutorEventService.applyTo now message e) = db₁
  have hexecutions : db₁.executions =
      db.executions.map (ExecutorEventService.applyTo now message e) := by rw [← hdb₁]; rfl
  have hartifacts : db₁.artifacts = db.artifacts := by rw [← hdb₁]; rfl
  have hnext : db₁.nextId = db.nextId := by rw [← hdb₁]; rfl
  have hmapped : Registry db₁ := by
    refine h.of_eq hartifacts (fun x hx ↦ ?_) hnext.ge
    rw [hexecutions]
    exact ⟨_, List.mem_map_of_mem hx, hkeeps.id x, hkeeps.pipelineRunId x⟩
  have hfits₁ : Fits db₁ message := by
    refine ⟨fun hsome x hx hxid ↦ ?_, ?_, hfits.agree, hnext ▸ hfits.known⟩
    · obtain ⟨y, hy, rfl⟩ := List.mem_map.mp (hexecutions ▸ hx)
      rw [hkeeps.id] at hxid
      rw [hkeeps.pipelineRunId]
      exact hfits.run hsome y hy hxid
    · intro descriptor hdescriptor row hrow
      exact hfits.rows descriptor hdescriptor row (hartifacts ▸ hrow)
  have he₁ : ExecutorEventService.applyTo now message e e ∈ db₁.executions := by
    rw [hexecutions]
    exact List.mem_map_of_mem he
  have hkeyed : Table.Keyed JobExecutionEntity.id db₁.executions := by
    rw [hexecutions]
    exact (Table.keyed_map hkeeps.id).mpr hs.executions_keyed
  generalize hdb₂ : ArtifactService.register now message.pipelineRunId message.jobExecutionId
    message.artifacts db₁ = db₂
  obtain ⟨hregistry, hrows, hexecutions₂, hpresent⟩ :=
    register_fits hmapped hkeyed he₁ (hid.trans (congrArg some (hkeeps.id e).symm)) hfits₁ hdb₂
  rw [hkeeps.id] at hpresent
  -- the inbox comes last
  rw [ExecutorEventService.store, saveExecution_applyEvent hs now message he, hdb₁, hdb₂] at hstore
  rw [← hstore]
  refine ⟨hregistry.of_eq rfl (fun x hx ↦ ⟨x, hx, rfl, rfl⟩) (Nat.le_add_right _ 1), ?_, hpresent⟩
  exact fun row hrow ↦ hrows row (hartifacts ▸ hrow)

theorem handle_unregistered (hs : Sound db) (hnot : ¬(Consumes db delivery message ∧
      ∃ e ∈ db.executions, message.jobExecutionId = some e.id))
    (hok : ExecutorEventService.handle c now delivery message db = .ok db') :
    db'.artifacts = db.artifacts ∧ db'.executions = db.executions ∧ db.nextId ≤ db'.nextId := by
  rw [ExecutorEventService.handle] at hok
  rcases hdup : InboxDeduplicationService.isDuplicate delivery.consumerName delivery.eventSource
      delivery.sourceDocumentId message.messageId db with _ | _
  · rw [hdup, if_neg Bool.false_ne_true] at hok
    rcases htype : ExecutorEventType.fromValue message.eventType with _ | type
    · rw [htype] at hok
      obtain rfl := Except.ok.inj hok
      exact ⟨rfl, rfl, Nat.le_add_right _ 1⟩
    · rcases hid : message.jobExecutionId with _ | id
      · rw [htype, hid] at hok
        cases hok
      · rcases hfind : db.findExecution id with _ | e
        · simp only [htype, hid, hfind] at hok
          obtain rfl := Except.ok.inj hok
          exact ⟨rfl, rfl, Nat.le_add_right _ 1⟩
        · obtain ⟨he, rfl⟩ := hs.findExecution.mp hfind
          exact absurd ⟨⟨hdup, by rw [htype]; rfl⟩, e, he, hid⟩ hnot
  · rw [hdup, if_pos rfl] at hok
    obtain rfl := Except.ok.inj hok
    exact ⟨rfl, rfl, le_refl _⟩

/-- **An event** that fits registers what it announces, if it is consumed. -/
theorem handle_registry (hs : Sound db) (h : Registry db) (hfits : Fits db message)
    (hok : ExecutorEventService.handle c now delivery message db = .ok db') :
    Registry db' ∧ KeepsRows db db' ∧ (Consumes db delivery message →
      (∃ e ∈ db.executions, message.jobExecutionId = some e.id) →
        ∀ descriptor ∈ message.artifacts.getD [], ∃ row ∈ db'.artifacts,
          row.jobExecutionId = message.jobExecutionId ∧ row.uri = descriptor.uri) := by
  by_cases hfound : Consumes db delivery message ∧
      ∃ e ∈ db.executions, message.jobExecutionId = some e.id
  · obtain ⟨hnew, e, he, hid⟩ := hfound
    generalize hstored : ExecutorEventService.store now delivery message e db = db₁
    obtain ⟨hregistry, hrows, hpresent⟩ := store_registry hs h hfits he hid hstored
    rw [hid]
    rw [ExecutorEventService.handle_of_consumes c now hs he hid hnew, hstored] at hok
    split at hok
    · have hsound : Sound db₁ := hstored ▸
        (ExecutorEventService.store_effect now delivery message hs he).sound
      obtain ⟨hartifacts, hexecutions⟩ := continueRun_artifacts hsound hok
      refine ⟨hregistry.of_eq hartifacts hexecutions (keepsInbox_continueRun hok).nextId,
        hrows.trans (keepsRows_of_eq hartifacts), fun _ _ ↦ ?_⟩
      rw [hartifacts]
      exact hpresent
    · obtain rfl := Except.ok.inj hok
      exact ⟨hregistry, hrows, fun _ _ ↦ hpresent⟩
  · refine ⟨?_, ?_, fun hnew hsome ↦ absurd ⟨hnew, hsome⟩ hfound⟩
    · have hsame := handle_unregistered hs hfound hok
      exact h.of_eq hsame.1 (fun e he ↦ ⟨e, hsame.2.1 ▸ he, rfl, rfl⟩) hsame.2.2
    · exact keepsRows_of_eq (handle_unregistered hs hfound hok).1

end Events

/-! ## Sequences of events

`UpToDate` is carried along the sequence: the registry is one, and what the past events have
announced is in it. A row that is there once is never moved, so what was announced early is there
at the end. -/

/-- An event as a consumer passes it on. -/
structure ExecutorEvent where
  now : Instant
  delivery : ExecutorEventService.Delivery
  message : ExecutorEventMessage

/-- The artifacts that an event announces, by their execution and uri. -/
def ExecutorEvent.announces (event : ExecutorEvent) : List (Option UUID × Option String) :=
  (event.message.artifacts.getD []).map fun descriptor ↦
    (event.message.jobExecutionId, descriptor.uri)

/-- The transaction of an event. -/
def eventStep (c : Catalog) (event : ExecutorEvent) (db : Db) : Except Failure Db :=
  ExecutorEventService.transaction c event.now event.delivery event.message db

/-- The rows of an artifact. -/
def rowsOf (db : Db) (artifact : Option UUID × Option String) : List ArtifactEntity :=
  db.artifacts.filter fun row ↦ row.jobExecutionId = artifact.1 ∧ row.uri = artifact.2

/-- Every artifact that was announced has one row, of the run of its execution. -/
structure WellRegistered (db : Db) (events : List ExecutorEvent) : Prop where
  once : ∀ event ∈ events, ∀ artifact ∈ event.announces, (rowsOf db artifact).length = 1
  run : ∀ event ∈ events, ∀ artifact ∈ event.announces, ∀ row ∈ rowsOf db artifact,
    ∃ e ∈ db.executions, row.jobExecutionId = some e.id ∧ row.pipelineRunId = some e.pipelineRunId

/-- No row is moved to another execution or run. -/
def Stays (db db' : Db) : Prop :=
  ∀ row ∈ db.artifacts, ∃ row' ∈ db'.artifacts, row'.id = row.id ∧
    row'.jobExecutionId = row.jobExecutionId ∧ row'.pipelineRunId = row.pipelineRunId

/-- An event that announces artifacts is consumed, and fits. -/
structure InOrder (c : Catalog) (db : Db) (event : ExecutorEvent) : Prop where
  consumed : event.announces ≠ [] → Consumes db event.delivery event.message ∧
    Acceptable c db event.delivery event.message
  fits : Fits db event.message

/-- What holds after events that were in order. -/
structure UpToDate (c : Catalog) (past : List ExecutorEvent) (db : Db) : Prop where
  reachable : Reachable c db
  schema : Schema c db
  registry : Registry db
  present : ∀ event ∈ past, ∀ artifact ∈ event.announces,
    ∃ row ∈ db.artifacts, row.jobExecutionId = artifact.1 ∧ row.uri = artifact.2

section Sequences

variable {c : Catalog} {db db' : Db} {event : ExecutorEvent} {past : List ExecutorEvent}

theorem UpToDate.next (h : UpToDate c past db) (horder : InOrder c db event) :
    UpToDate c (past ++ [event]) (apply (eventStep c) db event) ∧
      KeepsRows db (apply (eventStep c) db event) := by
  have hfresh : InboxFresh db := by
    obtain ⟨calls, rfl⟩ := h.reachable
    exact inboxFresh_history calls
  rcases apply_cases (eventStep c) db event with ⟨db', hok, happly⟩ | hsame
  · rw [happly]
    obtain ⟨hhandle, hfound⟩ :=
      ExecutorEventService.handle_of_transaction h.schema h.reachable.sound hfresh hok
    obtain ⟨hregistry, hrows, hpresent⟩ :=
      handle_registry h.reachable.sound h.registry horder.fits hhandle
    have hstep : step c ⟨⟨event.now, none⟩, .executorEvent event.delivery event.message⟩ db =
        .ok db' := hhandle
    refine ⟨⟨h.reachable.step hstep, ExecutorEventService.schema_of_transaction h.schema hok,
      hregistry, ?_⟩, hrows⟩
    refine List.forall_mem_append.mpr ⟨fun other hother artifact hartifact ↦ ?_, ?_⟩
    · obtain ⟨row, hrow, hexecution, huri⟩ := h.present other hother artifact hartifact
      obtain ⟨row', hrow', -, hexecution', -, huri'⟩ := hrows row hrow
      exact ⟨row', hrow', hexecution'.trans hexecution, huri'.trans huri⟩
    · rw [List.forall_mem_singleton]
      intro artifact hartifact
      have hnew := (horder.consumed (List.ne_nil_of_mem hartifact)).1
      obtain ⟨descriptor, hdescriptor, rfl⟩ := List.mem_map.mp hartifact
      exact hpresent hnew (hfound hnew) descriptor hdescriptor
  · -- what announces something commits
    have hnone : event.announces = [] := by
      by_contra hsome
      obtain ⟨hnew, hacceptable⟩ := horder.consumed hsome
      obtain ⟨db', hok, hregistered, -⟩ := (consumed_iff h.reachable h.schema event.now
        event.delivery event.message).mpr (Or.inr hacceptable)
      have happly : apply (eventStep c) db event = db' := apply_of_ok hok
      rw [← happly, hsame, ← isDuplicate_iff, hnew.1] at hregistered
      cases hregistered
    rw [hsame]
    refine ⟨⟨h.reachable, h.schema, h.registry, List.forall_mem_append.mpr ⟨h.present, ?_⟩⟩,
      keepsRows_of_eq rfl⟩
    rw [List.forall_mem_singleton, hnone]
    simp

theorem upToDate_replay (h : UpToDate c [] db) (events : List ExecutorEvent)
    (horder : Along (eventStep c) (InOrder c) db events) (hpast : past <+: events) :
    UpToDate c past (replay (eventStep c) db past) := by
  induction past using List.reverseRecOn with
  | nil => exact h
  | append_singleton past event ih =>
    rw [replay_concat]
    exact ((ih ((List.prefix_append _ _).trans hpast)).next
      (along_iff.mp horder past event hpast)).1

theorem UpToDate.wellRegistered (h : UpToDate c past db) : WellRegistered db past := by
  constructor
  · intro event hevent artifact hartifact
    obtain ⟨row, hrow, hexecution, huri⟩ := h.present event hevent artifact hartifact
    have hmem : row ∈ rowsOf db artifact :=
      List.mem_filter.mpr ⟨hrow, decide_eq_true ⟨hexecution, huri⟩⟩
    have hall : ∀ x ∈ rowsOf db artifact, x = row := by
      intro x hx
      obtain ⟨hx, htest⟩ := List.mem_filter.mp hx
      obtain ⟨hexecution', huri'⟩ := of_decide_eq_true htest
      exact h.registry.apart x hx row hrow (hexecution'.trans hexecution.symm)
        (huri'.trans huri.symm)
    have hnodup : (rowsOf db artifact).Nodup := (List.Nodup.of_map _ h.schema.artifact_pk).filter _
    rw [List.eq_replicate_of_mem hall, List.nodup_replicate] at hnodup
    exact le_antisymm hnodup (List.length_pos_of_mem hmem)
  · intro event hevent artifact hartifact row hrow
    exact h.registry.run row (List.mem_filter.mp hrow).1

end Sequences

/-- **The registry of artifacts.** If every event of a sequence is in order, every artifact that was
announced has one row, of the run of its execution, in every state that is reached, and no event
moves a row to another execution or run. -/
theorem registered_throughout (c : Catalog) (db : Db) (hdb : Reachable c db) (hschema : Schema c db)
    (hempty : db.artifacts = []) (events : List ExecutorEvent)
    (horder : Along (eventStep c) (InOrder c) db events) :
    (∀ past, past <+: events → WellRegistered (replay (eventStep c) db past) past) ∧
      ∀ past event, past ++ [event] <+: events →
        Stays (replay (eventStep c) db past) (replay (eventStep c) db (past ++ [event])) := by
  have hstart : UpToDate c [] db := by
    refine ⟨hdb, hschema, ⟨?_, ?_, ?_⟩, by simp⟩
    · simp [hempty]
    · simp [hempty]
    · simp [hempty]
  refine ⟨fun past hpast ↦ (upToDate_replay hstart events horder hpast).wellRegistered,
    fun past event hpast ↦ ?_⟩
  have hbefore := upToDate_replay hstart events horder ((List.prefix_append _ _).trans hpast)
  rw [replay_concat]
  intro row hrow
  obtain ⟨row', hrow', hid, hexecution, hrun, -⟩ :=
    (hbefore.next (along_iff.mp horder past event hpast)).2 row hrow
  exact ⟨row', hrow', hid, hexecution, hrun⟩

namespace Small

/-- A build artifact, with the id that it is announced under. -/
def binary (artifactId : Option UUID) : ArtifactDescriptor where
  artifactId := artifactId
  type := some "build_artifact"
  name := some "app"
  uri := some "storage://build-artifacts/2/app"
  sizeBytes := some 1
  sha256 := none
  metadata := none

/-- An event of the job of `queuedJob` that announces the artifact. -/
def announcement (messageId : UUID) (eventType : ExecutorEventType) (status : Option String)
    (artifactId : Option UUID) : ExecutorEvent where
  now := 0
  delivery := resultsDelivery
  message := { message messageId 2 .success with
    eventType := some eventType.name
    status := status
    pipelineRunId := some 0
    artifacts := some [binary artifactId] }

/-- The artifact is announced while the job runs, and again at its end. -/
def announcedTwice (artifactId : Option UUID) : List ExecutorEvent :=
  [announcement 100 .jobArtifact none artifactId,
    announcement 101 .jobFinished (some ExecutorStatus.success.name) artifactId]

/-- The job has announced its artifact for the first time. -/
def announcedOnce : Db :=
  apply (eventStep solo) queuedJob (announcement 100 .jobArtifact none (some 0))

/-- The announcement is in order if the master has the run and the execution, brings the id of the
row exactly if there is one, and lets the run be continued. -/
theorem inOrder_announcement {db : Db} {messageId : UUID} {eventType : ExecutorEventType}
    {status : Option String} {id : UUID}
    (hnew : Consumes db resultsDelivery (announcement messageId eventType status (some id)).message)
    (hrun : Table.References PipelineRunEntity.id db.runs (some 0))
    (hexecution : Table.References JobExecutionEntity.id db.executions (some 2))
    (howner : db.executions.all fun e ↦ e.id ≠ 2 ∨ e.pipelineRunId = 0)
    (hrows : db.artifacts.all fun row ↦ id = row.id ↔
      row.jobExecutionId = some 2 ∧ row.uri = (binary none).uri)
    (hid : id < db.nextId)
    (hcontinues : Continues solo db (announcement messageId eventType status (some id)).message) :
    InOrder solo db (announcement messageId eventType status (some id)) := by
  have hregistrable : Registrable db.executions resultsDelivery
      (announcement messageId eventType status (some id)).message :=
    ⟨hexecution, Option.some_ne_none _, by decide, .inl (Option.some_ne_none _),
      (by decide : 0 < (1 : Int32).toInt)⟩
  have hstorable : Storable db.runs (some 0) (binary (some id)) :=
    ⟨hrun, ⟨"build_artifact", by decide, rfl⟩, Option.some_ne_none _, Option.some_ne_none _,
      by rintro _ ⟨⟩; decide⟩
  refine ⟨fun _ ↦ ⟨hnew, hregistrable, fun _ ↦ ⟨Option.some_ne_none _, ⟨nofun, ?_, hregistrable⟩,
    hcontinues⟩⟩, ⟨fun _ e he heid ↦ ?_, ?_, List.pairwise_singleton _ _, ?_⟩⟩
  · exact List.forall_mem_singleton.mpr hstorable
  · have htest := of_decide_eq_true (List.all_eq_true.mp howner e he)
    exact congrArg some (htest.resolve_left (not_not_intro (Option.some.inj heid).symm)).symm
  · refine List.forall_mem_singleton.mpr fun row hrow ↦ ?_
    have htest := of_decide_eq_true (List.all_eq_true.mp hrows row hrow)
    exact (Option.some.injEq _ _).to_iff.trans htest
  · refine List.forall_mem_singleton.mpr ?_
    rintro _ ⟨⟩
    exact hid

end Small

theorem registered_announcedTwice :
    WellRegistered (replay (eventStep Small.solo) queuedJob (Small.announcedTwice (some 0)))
      (Small.announcedTwice (some 0)) := by
  refine (registered_throughout Small.solo queuedJob ⟨_, rfl⟩ (by decide +kernel)
    (by decide +kernel) (Small.announcedTwice (some 0)) ⟨?_, ?_, trivial⟩).1 _ (List.prefix_refl _)
  · refine Small.inOrder_announcement ⟨by decide +kernel, by decide⟩ (by decide +kernel)
      (by decide +kernel) (by decide +kernel) (by decide +kernel) (by decide +kernel) ?_
    intro e _ _ hends
    cases hends
  · refine Small.inOrder_announcement ⟨by decide +kernel, by decide⟩ (by decide +kernel)
      (by decide +kernel) (by decide +kernel) (by decide +kernel) (by decide +kernel) ?_
    intro e he _ _ run hrun _ t ht
    have hlands : (Small.announcedOnce.executions.all fun e ↦
        Small.announcedOnce.runs.all fun run ↦ lands Small.solo run.pipelineId
          (Small.announcedOnce.findByPipelineRunId run.id) e.id .success) = true := by
      decide +kernel
    obtain rfl : t = .success := (Option.some.inj ht).symm
    exact List.all_eq_true.mp (List.all_eq_true.mp hlands e he) run hrun

/-- Without an id, the artifact has two rows. -/
theorem not_wellRegistered : ¬∀ c db, Reachable c db → Schema c db → db.artifacts = [] →
    ∀ events, WellRegistered (replay (eventStep c) db events) events := by
  intro h
  have hone := (h Small.solo queuedJob ⟨_, rfl⟩ (by decide +kernel) (by decide +kernel)
    (Small.announcedTwice none)).once _ List.mem_cons_self _ List.mem_cons_self
  revert hone
  decide +kernel

end FuzzingCiCd.Master
