import Mathlib.Data.List.Perm.Subperm
import Mathlib.Logic.Relation

/-!
# Searching for a cycle

A depth-first search over a graph that is given by the successors of a vertex. It carries the
vertices of the current path and those that are done, and stops at a vertex of the path.

The two sets have separate roles in the proof. That a cycle is found only where there is one rests
on the path: every vertex of it leads to the current one. That none is missed rests on the vertices
that are done: each of them is accessible, so that no path from it comes back. The fuel bounds the
length of the path, which has no vertex twice.

## Main results

* `search_ne_outOfFuel`: there is fuel enough for every path.
* `search_ok_iff`: the search ends well exactly when it cannot reach a cycle.
-/

namespace DepthFirst

variable {α : Type*}

/-- How a search stops early. -/
inductive Stop where
  | cycle | outOfFuel
  deriving DecidableEq

/-- The edges. -/
def Succ (next : α → List α) (a b : α) : Prop := b ∈ next a

/-- A cycle can be reached. -/
def ReachesCycle (next : α → List α) (start : α) : Prop :=
  ∃ a, Relation.ReflTransGen (Succ next) start a ∧ Relation.TransGen (Succ next) a a

/-! ## Loops that may stop -/

section Loop

variable {β ε : Type*} {f : β → α → Except ε β}

theorem exists_of_foldlM_error {l : List α} {b : β} {e : ε} (h : l.foldlM f b = .error e) :
    ∃ a ∈ l, ∃ b', f b' a = .error e := by
  induction l generalizing b with
  | nil => cases h
  | cons a l ih =>
    rw [List.foldlM_cons] at h
    cases hround : f b a with
    | error e' =>
      rw [hround] at h
      obtain rfl : e' = e := Except.error.inj h
      exact ⟨a, List.mem_cons_self, b, hround⟩
    | ok b' =>
      rw [hround] at h
      obtain ⟨x, hx, hstop⟩ := ih h
      exact ⟨x, List.mem_cons_of_mem a hx, hstop⟩

end Loop

variable {next : α → List α}

theorem foldlM_adds {ε : Type*} {f : List α → α → Except ε (List α)} {I : List α → Prop}
    (hround : ∀ s a s', I s → f s a = .ok s' → I s' ∧ s ⊆ s' ∧ a ∈ s') {l s s' : List α}
    (hI : I s) (h : l.foldlM f s = .ok s') : I s' ∧ s ⊆ s' ∧ l ⊆ s' := by
  induction l generalizing s with
  | nil =>
    obtain rfl := Except.ok.inj h
    exact ⟨hI, List.Subset.refl s, List.nil_subset s⟩
  | cons a l ih =>
    rw [List.foldlM_cons] at h
    cases hfirst : f s a with
    | error e =>
      rw [hfirst] at h
      cases h
    | ok t =>
      rw [hfirst] at h
      obtain ⟨ht, hsub, hmem⟩ := hround s a t hI hfirst
      obtain ⟨hI', hsub', hrest⟩ := ih ht h
      exact ⟨hI', List.Subset.trans hsub hsub', List.cons_subset.mpr ⟨hsub' hmem, hrest⟩⟩

/-! ## Accessible vertices -/

/-- No path from the vertices comes back. -/
def Done (next : α → List α) (visited : List α) : Prop :=
  ∀ a ∈ visited, Acc (Function.swap (Succ next)) a

theorem not_reachesCycle_of_acc {a : α} (h : Acc (Function.swap (Succ next)) a) :
    ¬ ReachesCycle next a := by
  induction h with
  | intro a hacc ih =>
    rintro ⟨b, hreach, hcycle⟩
    rcases Relation.ReflTransGen.cases_head hreach with rfl | ⟨c, hac, hcb⟩
    · -- the cycle goes on from the successor by which it leaves
      obtain ⟨c, hac, hca⟩ := Relation.TransGen.head'_iff.mp hcycle
      exact ih c hac ⟨a, hca, hcycle⟩
    · exact ih c hac ⟨b, hcb, hcycle⟩

/-! ## The search -/

section Search

variable [DecidableEq α]

/-- The search from `current` stops at a cycle or returns the vertices that are done. -/
def search (next : α → List α) : ℕ → List α → List α → α → Except Stop (List α)
  | 0, _, _, _ => .error .outOfFuel
  | fuel + 1, visiting, visited, current =>
    if visited.contains current then .ok visited
    else if visiting.contains current then .error .cycle
    else do
      let visited ← (next current).foldlM (fun visited vertex ↦
        search next fuel (current :: visiting) visited vertex) visited
      return current :: visited

theorem done_of_search {fuel : ℕ} {visiting visited visited' : List α} {current : α}
    (hdone : Done next visited) (h : search next fuel visiting visited current = .ok visited') :
    Done next visited' ∧ visited ⊆ visited' ∧ current ∈ visited' := by
  induction fuel generalizing visiting visited visited' current with
  | zero => cases h
  | succ fuel ih =>
    rw [search] at h
    by_cases hvisited : visited.contains current = true
    · rw [if_pos hvisited] at h
      obtain rfl := Except.ok.inj h
      exact ⟨hdone, List.Subset.refl _, List.contains_iff_mem.mp hvisited⟩
    · rw [if_neg hvisited] at h
      split at h
      case isTrue => cases h
      case isFalse =>
        cases hloop : (next current).foldlM (fun visited vertex ↦
            search next fuel (current :: visiting) visited vertex) visited with
        | error e =>
          rw [hloop] at h
          cases h
        | ok done =>
          rw [hloop] at h
          obtain rfl : current :: done = visited' := Except.ok.inj h
          obtain ⟨hI, hsub, hnext⟩ := foldlM_adds (fun s a s' hs hround ↦ ih hs hround) hdone hloop
          refine ⟨List.forall_mem_cons.mpr ⟨?_, hI⟩, List.subset_cons_of_subset _ hsub,
            List.mem_cons_self⟩
          -- all successors are done
          exact Acc.intro current fun b hb ↦ hI b (hnext hb)

/-! ### A cycle that is found -/

theorem reachesCycle_of_search {fuel : ℕ} {visiting visited : List α} {current : α}
    (hpath : ∀ a ∈ visiting, Relation.TransGen (Succ next) a current)
    (h : search next fuel visiting visited current = .error .cycle) :
    ReachesCycle next current := by
  induction fuel generalizing visiting visited current with
  | zero => cases h
  | succ fuel ih =>
    rw [search] at h
    split at h
    case isTrue => cases h
    case isFalse =>
      split at h
      case isTrue hvisiting =>
        exact ⟨current, .refl, hpath current (List.contains_iff_mem.mp hvisiting)⟩
      case isFalse =>
        cases hloop : (next current).foldlM (fun visited vertex ↦
            search next fuel (current :: visiting) visited vertex) visited with
        | ok done =>
          rw [hloop] at h
          cases h
        | error e =>
          rw [hloop] at h
          obtain rfl : e = .cycle := Except.error.inj h
          obtain ⟨a, ha, visited', hround⟩ := exists_of_foldlM_error hloop
          obtain ⟨b, hreach, hcycle⟩ := ih (List.forall_mem_cons.mpr
            ⟨.single ha, fun x hx ↦ (hpath x hx).tail ha⟩) hround
          exact ⟨b, .head ha hreach, hcycle⟩

/-! ### Fuel -/

/-- **Termination.** The path has no vertex twice, so it is no longer than a set that contains it
and is closed under successors. -/
theorem search_ne_outOfFuel {fuel : ℕ} {vertices visiting visited : List α} {current : α}
    (hclosed : ∀ a ∈ vertices, next a ⊆ vertices) (hcurrent : current ∈ vertices)
    (hvisiting : visiting ⊆ vertices) (hnodup : visiting.Nodup)
    (hfuel : vertices.length < fuel + visiting.length) :
    search next fuel visiting visited current ≠ .error .outOfFuel := by
  induction fuel generalizing visiting visited current with
  | zero =>
    have hlength := (hnodup.subperm hvisiting).length_le
    omega
  | succ fuel ih =>
    intro h
    rw [search] at h
    split at h
    case isTrue => cases h
    case isFalse =>
      split at h
      case isTrue => cases h
      case isFalse hnew =>
        cases hloop : (next current).foldlM (fun visited vertex ↦
            search next fuel (current :: visiting) visited vertex) visited with
        | ok done =>
          rw [hloop] at h
          cases h
        | error e =>
          rw [hloop] at h
          obtain rfl : e = .outOfFuel := Except.error.inj h
          obtain ⟨a, ha, visited', hround⟩ := exists_of_foldlM_error hloop
          have hfresh : current ∉ visiting := fun hmem ↦ hnew (List.contains_iff_mem.mpr hmem)
          refine ih (hclosed current hcurrent ha) (List.cons_subset.mpr ⟨hcurrent, hvisiting⟩)
            (List.nodup_cons.mpr ⟨hfresh, hnodup⟩) ?_ hround
          rw [List.length_cons]
          omega

theorem acc_of_search {fuel : ℕ} {start : α} {done : List α}
    (h : search next fuel [] [] start = .ok done) : Acc (Function.swap (Succ next)) start := by
  obtain ⟨hdone, -, hmem⟩ := done_of_search (fun a ha ↦ absurd ha List.not_mem_nil) h
  exact hdone start hmem

/-- **The search is exact.** With fuel for all vertices it ends well exactly when it cannot reach a
cycle. -/
theorem search_ok_iff {fuel : ℕ} {vertices : List α} {start : α}
    (hclosed : ∀ a ∈ vertices, next a ⊆ vertices) (hstart : start ∈ vertices)
    (hfuel : vertices.length < fuel) :
    (∃ done, search next fuel [] [] start = .ok done) ↔ ¬ ReachesCycle next start := by
  constructor
  · rintro ⟨done, h⟩
    exact not_reachesCycle_of_acc (acc_of_search h)
  · intro hcycle
    cases h : search next fuel [] [] start with
    | ok done => exact ⟨done, rfl⟩
    | error e =>
      cases e with
      | cycle =>
        exact absurd (reachesCycle_of_search (fun a ha ↦ absurd ha List.not_mem_nil) h) hcycle
      | outOfFuel =>
        exact absurd h (search_ne_outOfFuel hclosed hstart (List.nil_subset _) List.nodup_nil
          hfuel)

end Search

end DepthFirst
