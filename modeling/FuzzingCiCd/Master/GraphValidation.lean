import FuzzingCiCd.Foundation.DepthFirst
import FuzzingCiCd.Foundation.Transition
import FuzzingCiCd.Master.Graph

/-!
# Validating a graph

`ExecutionGraphValidator.hasCycle` is a depth-first search from each job, each time with empty sets.
Edges may repeat, lead back to their own job or to a job that is not in the graph; the search goes
wherever they lead.

## Main results

* `hasCycle_eq`: the source's search is the general one at the edges of the graph.
* `validate_exact`: it ends on every graph and finds a cycle exactly when there is one.
* `acc_of_validate`: every path from a job of a valid graph ends.
-/

namespace FuzzingCiCd.Master

open DepthFirst

/-- The jobs that a job waits for. -/
def ExecutionGraph.upstream (graph : ExecutionGraph) (jobId : UUID) : List UUID :=
  (graph.dependencies jobId).map DependencyEdge.dependsOnJobId

theorem ExecutionGraph.mem_upstream {graph : ExecutionGraph} {jobId upstreamId : UUID} :
    upstreamId ∈ graph.upstream jobId ↔
      ∃ edge ∈ graph.dependencies jobId, edge.dependsOnJobId = upstreamId :=
  List.mem_map

namespace ExecutionGraphValidator

variable {graph : ExecutionGraph}

def Stop.ofSearch : DepthFirst.Stop → Stop
  | .cycle => .cycle
  | .outOfFuel => .outOfFuel

theorem foldlM_mapError {α β γ ε ε' : Type} (t : ε → ε') (g : α → γ) (f : β → γ → Except ε β)
    (l : List α) (b : β) :
    ((l.map g).foldlM f b).mapError t = l.foldlM (fun b a ↦ (f b (g a)).mapError t) b := by
  induction l generalizing b with
  | nil => rfl
  | cons a l ih =>
    rw [List.map_cons, List.foldlM_cons, List.foldlM_cons]
    cases f b (g a) with
    | error e => rfl
    | ok b' => exact ih b'

/-- The source's search is the general one. -/
theorem hasCycle_eq (fuel : ℕ) (visiting visited : List UUID) (current : UUID) :
    hasCycle graph fuel visiting visited current =
      (search graph.upstream fuel visiting visited current).mapError Stop.ofSearch := by
  induction fuel generalizing visiting visited current with
  | zero => rfl
  | succ fuel ih =>
    rw [hasCycle, search]
    split
    · rfl
    · split
      · rfl
      · have hloop : (graph.dependencies current).foldlM (fun visited dep ↦
            hasCycle graph fuel (current :: visiting) visited dep.dependsOnJobId) visited =
            ((graph.upstream current).foldlM (fun visited vertex ↦
              search graph.upstream fuel (current :: visiting) visited vertex)
              visited).mapError Stop.ofSearch := by
          rw [ExecutionGraph.upstream, foldlM_mapError]
          simp only [ih]
        rw [hloop]
        cases (graph.upstream current).foldlM (fun visited vertex ↦
          search graph.upstream fuel (current :: visiting) visited vertex) visited with
        | error e => rfl
        | ok done => rfl

theorem hasCycle_eq_ok {fuel : ℕ} {visiting visited done : List UUID} {current : UUID} :
    hasCycle graph fuel visiting visited current = .ok done ↔
      search graph.upstream fuel visiting visited current = .ok done := by
  rw [hasCycle_eq]
  cases search graph.upstream fuel visiting visited current with
  | ok done' =>
    constructor
    · exact fun h ↦ congrArg Except.ok (Except.ok.inj h)
    · exact fun h ↦ congrArg Except.ok (Except.ok.inj h)
  | error e => exact iff_of_false nofun nofun

theorem hasCycle_eq_outOfFuel {fuel : ℕ} {visiting visited : List UUID} {current : UUID} :
    hasCycle graph fuel visiting visited current = .error .outOfFuel ↔
      search graph.upstream fuel visiting visited current = .error .outOfFuel := by
  rw [hasCycle_eq]
  cases search graph.upstream fuel visiting visited current with
  | ok done => exact iff_of_false nofun nofun
  | error e =>
    cases e with
    | cycle => exact iff_of_false nofun nofun
    | outOfFuel => exact iff_of_true rfl rfl

/-! ## The search of a graph -/

/-- The jobs of the graph and the targets of its edges. -/
def vertices (graph : ExecutionGraph) : List UUID :=
  graph.jobs.map JobEntity.id ++ graph.edges.map fun entry ↦ entry.2.dependsOnJobId

theorem length_vertices : (vertices graph).length < searchFuel graph := by
  rw [vertices, searchFuel, List.length_append, List.length_map, List.length_map]
  exact Nat.lt_succ_self _

theorem upstream_subset (jobId : UUID) : graph.upstream jobId ⊆ vertices graph := by
  intro x hx
  obtain ⟨edge, hedge, rfl⟩ := ExecutionGraph.mem_upstream.mp hx
  obtain ⟨entry, hentry, rfl⟩ := List.mem_map.mp hedge
  exact List.mem_append_right _ (List.mem_map.mpr ⟨entry, (List.mem_filter.mp hentry).1, rfl⟩)

theorem id_mem_vertices {job : JobEntity} (h : job ∈ graph.jobs) : job.id ∈ vertices graph :=
  List.mem_append_left _ (List.mem_map_of_mem h)

theorem hasCycle_ne_outOfFuel {job : JobEntity} (hjob : job ∈ graph.jobs) {fuel : ℕ}
    (hfuel : searchFuel graph ≤ fuel) : hasCycle graph fuel [] [] job.id ≠ .error .outOfFuel := by
  rw [Ne, hasCycle_eq_outOfFuel]
  exact search_ne_outOfFuel (fun a _ ↦ upstream_subset a) (id_mem_vertices hjob)
    (List.nil_subset _) List.nodup_nil (length_vertices.trans_le hfuel)

/-- The search from a job ends well exactly when the job cannot reach a cycle. -/
theorem hasCycle_ok_iff {job : JobEntity} (hjob : job ∈ graph.jobs) :
    (∃ done, hasCycle graph (searchFuel graph) [] [] job.id = .ok done) ↔
      ¬ ReachesCycle graph.upstream job.id := by
  simp only [hasCycle_eq_ok]
  exact search_ok_iff (fun a _ ↦ upstream_subset a) (id_mem_vertices hjob) length_vertices

/-! ## The check of a graph -/

theorem forM_eq_error {α ε : Type} {f : α → Except ε Unit} {e : ε} {l : List α}
    (hf : ∀ a e', f a = .error e' → e' = e) (h : l.forM f ≠ .ok ()) : l.forM f = .error e := by
  induction l with
  | nil => exact absurd rfl h
  | cons a l ih =>
    have hcons : (a :: l).forM f = (f a >>= fun _ ↦ l.forM f) := rfl
    rw [hcons] at h ⊢
    cases hfirst : f a with
    | ok u =>
      rw [hfirst] at h
      exact ih h
    | error e' =>
      rw [hf a e' hfirst]
      rfl

theorem validate_eq_ok : validate graph = .ok () ↔
    ∀ job ∈ graph.jobs, ∃ done, hasCycle graph (searchFuel graph) [] [] job.id = .ok done := by
  rw [validate, Transition.forM_eq_ok]
  refine forall₂_congr fun job _ ↦ ?_
  cases hasCycle graph (searchFuel graph) [] [] job.id with
  | ok done => exact iff_of_true rfl ⟨done, rfl⟩
  | error e => exact iff_of_false nofun nofun

/-- Every path from a job of a valid graph ends. -/
theorem acc_of_validate (h : validate graph = .ok ()) {job : JobEntity} (hjob : job ∈ graph.jobs) :
    Acc (Function.swap (Succ graph.upstream)) job.id := by
  obtain ⟨done, hdone⟩ := validate_eq_ok.mp h job hjob
  exact acc_of_search (hasCycle_eq_ok.mp hdone)

/-- What `validate` throws. -/
def cycleDetected : ServiceException :=
  .api .badRequest "graph_cycle_detected" "Pipeline graph has cyclic dependencies"

theorem validate_eq_error (h : validate graph ≠ .ok ()) :
    validate graph = .error cycleDetected := by
  rw [validate] at h ⊢
  refine forM_eq_error (fun job e he ↦ ?_) h
  split at he
  case h_1 => cases he
  case h_2 => exact (Except.error.inj he).symm

/-- **Cycle detection is exact.** The search from every job ends, whatever the edges are, and the
graph is refused exactly when a cycle can be reached from a job. -/
theorem validate_exact (graph : ExecutionGraph) :
    (∀ job ∈ graph.jobs, ∀ fuel, searchFuel graph ≤ fuel →
      hasCycle graph fuel [] [] job.id ≠ .error .outOfFuel) ∧
    (validate graph = .error cycleDetected ↔
      ∃ job ∈ graph.jobs, ReachesCycle graph.upstream job.id) ∧
    (validate graph = .ok () ↔ ¬ ∃ job ∈ graph.jobs, ReachesCycle graph.upstream job.id) := by
  have hok : validate graph = .ok () ↔
      ¬ ∃ job ∈ graph.jobs, ReachesCycle graph.upstream job.id := by
    rw [validate_eq_ok]
    push Not
    exact forall₂_congr fun job hjob ↦ hasCycle_ok_iff hjob
  refine ⟨fun job hjob fuel hfuel ↦ hasCycle_ne_outOfFuel hjob hfuel, ?_, hok⟩
  constructor
  · intro herror
    by_contra hcycle
    exact absurd (herror.symm.trans (hok.mpr hcycle)) nofun
  · intro hcycle
    exact validate_eq_error fun h ↦ hok.mp h hcycle

end ExecutionGraphValidator

end FuzzingCiCd.Master
