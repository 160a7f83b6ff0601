import FuzzingCiCd.Foundation.FileTree
import Mathlib.Algebra.Ring.Nat

/-!
# Walks through a tree of files

A *lawful* tree is one that a file system can hold: every path occurs once, and the paths above one
are directories. `walk` lists what lies at a path and below it as a file system finds it, directory
by directory, and in a lawful tree that is everything with the path as a prefix.

What is deleted and what is left add up, in whatever way the nodes are weighed, so that the totals
of a loop of deletions follow from the tree it leaves.

## Main results

* `mem_walk`: what a walk finds in a lawful tree.
* `weigh_delete`: what is deleted and what is left add up.
-/

namespace FileTree

variable {α β : Type*} [DecidableEq α]

/-- A tree as a file system has it: a path has one node, and what leads to a node is a directory. -/
structure Lawful (tree : FileTree α β) : Prop where
  keyed : (tree.map Prod.fst).Nodup
  leads : ∀ path lead, tree.find path ≠ none → lead <+: path → lead ≠ path →
    tree.find lead = some .directory

/-- What a directory holds. -/
def children (tree : FileTree α β) (path : List α) : List (List α) :=
  (tree.map Prod.fst).filter fun child ↦ child ≠ [] && child.dropLast = path

/-- What lies at a path and at most so many steps below it. -/
def walk (tree : FileTree α β) : ℕ → List α → List (List α)
  | 0, path => [path]
  | depth + 1, path =>
    match tree.find path with
    | some .directory => path :: (tree.children path).flatMap (tree.walk depth)
    | _ => [path]

/-- No path of the tree is longer. -/
def depth (tree : FileTree α β) : ℕ := (tree.map fun entry ↦ entry.1.length).foldr max 0

/-- The nodes of a tree, counted with a weight. -/
def weigh (weight : Node β → ℕ) (tree : FileTree α β) : ℕ :=
  (tree.map fun entry ↦ weight entry.2).sum

section Walk

variable {tree : FileTree α β} {path start : List α} {node : Node β}

theorem find_ne_none_iff : tree.find path ≠ none ↔ path ∈ tree.map Prod.fst := by
  rw [find, Ne, Option.map_eq_none_iff, List.find?_eq_none, List.mem_map]
  simp

theorem mem_children : path ∈ tree.children start ↔
    tree.find path ≠ none ∧ ∃ name, path = start ++ [name] := by
  rw [children, List.mem_filter, find_ne_none_iff, Bool.and_eq_true, decide_eq_true_iff,
    decide_eq_true_iff]
  refine and_congr_right fun _ ↦ ?_
  constructor
  · rintro ⟨hne, rfl⟩
    exact ⟨path.getLast hne, (List.dropLast_append_getLast hne).symm⟩
  · rintro ⟨name, rfl⟩
    exact ⟨List.concat_ne_nil _ _, List.dropLast_concat⟩

/-- **What a walk finds** in a lawful tree: everything below its start that is not too deep. -/
theorem mem_walk (h : tree.Lawful) {depth : ℕ} (hstart : tree.find start ≠ none) :
    path ∈ tree.walk depth start ↔
      tree.find path ≠ none ∧ start <+: path ∧ path.length ≤ start.length + depth := by
  induction depth generalizing start with
  | zero =>
    rw [walk, List.mem_singleton]
    constructor
    · rintro rfl
      exact ⟨hstart, List.prefix_rfl, Nat.le_refl _⟩
    · rintro ⟨-, hpre, hlength⟩
      exact (hpre.eq_of_length_le hlength).symm
  | succ depth ih =>
    by_cases heq : path = start
    · subst heq
      refine iff_of_true ?_ ⟨hstart, List.prefix_rfl, by omega⟩
      rw [walk]
      split
      · exact List.mem_cons_self
      · exact List.mem_singleton_self _
    have hbelow : path ∈ tree.walk (depth + 1) start ↔ tree.find start = some .directory ∧
        ∃ child ∈ tree.children start, path ∈ tree.walk depth child := by
      rw [walk]
      split
      · rename_i hdirectory
        rw [List.mem_cons, List.mem_flatMap, or_iff_right heq, and_iff_right hdirectory]
      · rename_i hother
        exact iff_of_false (fun hmem ↦ heq (List.mem_singleton.mp hmem)) fun hand ↦ hother hand.1
    rw [hbelow]
    constructor
    · rintro ⟨-, child, hchild, hmem⟩
      obtain ⟨hfound, name, rfl⟩ := mem_children.mp hchild
      obtain ⟨hpath, hpre, hlength⟩ := (ih hfound).mp hmem
      rw [List.length_append, List.length_singleton] at hlength
      exact ⟨hpath, (List.prefix_append _ _).trans hpre, by omega⟩
    · rintro ⟨hpath, ⟨rest, rfl⟩, hlength⟩
      rcases rest with _ | ⟨name, rest⟩
      · exact absurd (List.append_nil _) heq
      have hlead : start ++ [name] <+: start ++ name :: rest :=
        ⟨rest, List.append_cons .. |>.symm⟩
      -- the child on the way is a directory, or the path itself
      have hchild : tree.find (start ++ [name]) ≠ none := by
        by_cases hsame : start ++ [name] = start ++ name :: rest
        · rw [hsame]
          exact hpath
        · rw [h.leads _ _ hpath hlead hsame]
          exact Option.some_ne_none _
      refine ⟨h.leads _ _ hpath (List.prefix_append _ _) fun hsame ↦ heq hsame.symm,
        start ++ [name], mem_children.mpr ⟨hchild, name, rfl⟩,
        (ih hchild).mpr ⟨hpath, hlead, ?_⟩⟩
      rw [List.length_append, List.length_cons] at hlength
      rw [List.length_append, List.length_append, List.length_cons, List.length_singleton]
      omega

theorem length_le_depth (h : tree.find path ≠ none) : path.length ≤ tree.depth := by
  rw [find_ne_none_iff] at h
  obtain ⟨entry, hentry, rfl⟩ := List.mem_map.mp h
  induction tree with
  | nil => exact absurd hentry List.not_mem_nil
  | cons first rest ih =>
    rw [depth, List.map_cons, List.foldr_cons]
    rcases List.mem_cons.mp hentry with rfl | hrest
    · exact Nat.le_max_left _ _
    · exact (ih hrest (List.mem_map_of_mem hrest)).trans (Nat.le_max_right _ _)

/-- A walk that may go as deep as the tree finds everything below its start. -/
theorem mem_walk_depth (h : tree.Lawful) (hstart : tree.find start ≠ none) :
    path ∈ tree.walk tree.depth start ↔ tree.find path ≠ none ∧ start <+: path := by
  rw [mem_walk h hstart]
  refine and_congr_right fun hpath ↦ and_iff_left ?_
  exact (length_le_depth hpath).trans (Nat.le_add_left _ _)

end Walk

/-! ## What deletions leave -/

section Delete

variable {tree : FileTree α β} {path : List α} {node : Node β} (weight : Node β → ℕ)

theorem occupied_iff : tree.occupied path = true ↔
    ∃ other, tree.find other ≠ none ∧ path <+: other ∧ other ≠ path := by
  rw [occupied, List.any_eq_true]
  constructor
  · rintro ⟨entry, hentry, hbelow⟩
    rw [Bool.and_eq_true, List.isPrefixOf_iff_prefix, decide_eq_true_iff] at hbelow
    exact ⟨entry.1, find_ne_none_iff.mpr (List.mem_map_of_mem hentry), hbelow⟩
  · rintro ⟨other, hfound, hbelow⟩
    obtain ⟨entry, hentry, rfl⟩ := List.mem_map.mp (find_ne_none_iff.mp hfound)
    refine ⟨entry, hentry, ?_⟩
    rw [Bool.and_eq_true, List.isPrefixOf_iff_prefix, decide_eq_true_iff]
    exact hbelow

/-- What is deleted and what is left add up. -/
theorem weigh_delete (h : (tree.map Prod.fst).Nodup) (hfind : tree.find path = some node) :
    (tree.delete path).weigh weight + weight node = tree.weigh weight := by
  induction tree with
  | nil => cases hfind
  | cons entry rest ih =>
    rw [List.map_cons, List.nodup_cons] at h
    obtain ⟨hfresh, hrest⟩ := h
    by_cases hpath : entry.1 = path
    · -- no later entry has the path
      have hnode : entry.2 = node := by
        rw [find, List.find?_cons, decide_eq_true hpath] at hfind
        exact Option.some.inj hfind
      have hstays : delete rest path = rest := by
        refine List.filter_eq_self.mpr fun other hother ↦ decide_eq_true ?_
        rintro rfl
        exact hfresh (hpath ▸ List.mem_map_of_mem hother)
      have hdelete : delete (entry :: rest) path = rest := by
        rw [delete, List.filter_cons_of_neg (by simpa using hpath)]
        exact hstays
      rw [hdelete, weigh, weigh, List.map_cons, List.sum_cons, hnode, Nat.add_comm]
    · have hlater : find rest path = some node := by
        rw [find, List.find?_cons, decide_eq_false hpath] at hfind
        exact hfind
      have hdelete : delete (entry :: rest) path = entry :: delete rest path := by
        rw [delete, List.filter_cons_of_pos (by simpa using hpath)]
        rfl
      have hsum := ih hrest hlater
      rw [hdelete]
      rw [weigh, weigh] at hsum ⊢
      rw [List.map_cons, List.map_cons, List.sum_cons, List.sum_cons, ← hsum, Nat.add_assoc]

theorem weigh_below (tree : FileTree α β) (path : List α) :
    (tree.deleteBelow path).weigh weight + (tree.below path).weigh weight = tree.weigh weight := by
  induction tree with
  | nil => rfl
  | cons entry rest ih =>
    rw [deleteBelow, below, weigh, weigh] at ih ⊢
    rw [weigh] at ih ⊢
    rw [List.map_cons, List.sum_cons, ← ih]
    rw [List.filter_cons, List.filter_cons]
    rcases path.isPrefixOf entry.1 with _ | _
    · simp only [Bool.not_false, if_true, Bool.false_eq_true, if_false, List.map_cons,
        List.sum_cons]
      omega
    · simp only [Bool.not_true, if_true, Bool.false_eq_true, if_false, List.map_cons,
        List.sum_cons]
      omega

end Delete

end FileTree
