import Mathlib.Data.List.Infix

/-!
# Trees of files

A tree of directories and files as the list of what it holds, each with the names that lead to it.
Reading is `find`; the operations create what is missing, write a file where there is nothing, and
delete one path or everything below one. Each has a lemma that says what is found afterwards, and
nothing else about it is used. What the files hold is `content`, and `written` is what they hold
after some of them are written in order.

Nothing here requires a tree to hold the directories above what it holds.

## Main results

* `find_create_of_some`: creating directories changes nothing that is there.
* `content_createDirectories`, `written_of_not_mem`: contents stay where nothing is written.
-/

namespace FileTree

/-- What a path leads to. -/
inductive Node (β : Type*)
  | directory
  | file (content : β)
  deriving DecidableEq

end FileTree

/-- A tree of files with contents in `β`, by paths of names in `α`. -/
abbrev FileTree (α β : Type*) := List (List α × FileTree.Node β)

namespace FileTree

variable {α β : Type*} [DecidableEq α]

def find (tree : FileTree α β) (path : List α) : Option (Node β) :=
  (List.find? (fun entry ↦ entry.1 = path) tree).map Prod.snd

/-- Puts a node where there is nothing. -/
def create (tree : FileTree α β) (path : List α) (node : Node β) : FileTree α β :=
  if (tree.find path).isSome then tree else tree ++ [(path, node)]

/-- The directories that lead to a path, and the path itself, from the top down. -/
def createDirectories (tree : FileTree α β) (path : List α) : FileTree α β :=
  path.inits.foldl (fun tree path ↦ create tree path .directory) tree

def delete (tree : FileTree α β) (path : List α) : FileTree α β :=
  tree.filter fun entry ↦ entry.1 ≠ path

/-- The path and everything below it. -/
def below (tree : FileTree α β) (path : List α) : FileTree α β :=
  tree.filter fun entry ↦ path.isPrefixOf entry.1

def deleteBelow (tree : FileTree α β) (path : List α) : FileTree α β :=
  tree.filter fun entry ↦ !path.isPrefixOf entry.1

def Node.isFile : Node β → Bool
  | .directory => false
  | .file _ => true

/-- Puts a node in the place of what is there. -/
def replace (tree : FileTree α β) (path : List α) (node : Node β) : FileTree α β :=
  tree.delete path ++ [(path, node)]

/-- Something lies below the path. -/
def occupied (tree : FileTree α β) (path : List α) : Bool :=
  tree.any fun entry ↦ path.isPrefixOf entry.1 && entry.1 ≠ path

/-- What the file at a path holds. -/
def content (tree : FileTree α β) (path : List α) : Option β :=
  match tree.find path with
  | some (.file content) => some content
  | _ => none

/-- What the files hold after writes, one after the other. -/
def written (writes : List (List α × β)) (contents : List α → Option β) : List α → Option β :=
  writes.foldl (fun contents write ↦ Function.update contents write.1 (some write.2)) contents

/-- A file stands where the path needs a directory. -/
def blocked (tree : FileTree α β) (path : List α) : Bool :=
  path.inits.any fun lead ↦ (tree.find lead).any Node.isFile

section Find

variable {tree : FileTree α β} {path other : List α}

theorem find_append (tree rest : FileTree α β) (path : List α) :
    find (tree ++ rest) path = (tree.find path).or (rest.find path) := by
  rw [find, List.find?_append, Option.map_or]
  rfl

theorem find_create (tree : FileTree α β) (path : List α) (node : Node β) (other : List α) :
    (tree.create path node).find other =
      (tree.find other).or (if other = path then some node else none) := by
  have hsingle : find [(path, node)] other = if other = path then some node else none := by
    rw [find, List.find?_singleton]
    by_cases h : other = path
    · rw [if_pos (decide_eq_true h.symm), if_pos h]
      rfl
    · rw [if_neg (by simpa using Ne.symm h), if_neg h]
      rfl
  rw [create]
  split
  · rename_i hsome
    by_cases h : other = path
    · obtain ⟨found, hfound⟩ := Option.isSome_iff_exists.mp hsome
      rw [h, hfound]
      rfl
    · rw [if_neg h, Option.or_none]
  · rw [find_append, hsingle]

/-- What is there stays there. -/
theorem find_create_of_some {node : Node β} (h : tree.find other = some node) (path : List α)
    (made : Node β) : (tree.create path made).find other = some node := by
  rw [find_create, h, Option.some_or]

theorem find_createDirectories (tree : FileTree α β) (path other : List α) :
    (tree.createDirectories path).find other =
      (tree.find other).or (if other <+: path then some .directory else none) := by
  have hfold : ∀ (paths : List (List α)) (tree : FileTree α β),
      find (paths.foldl (fun tree path ↦ create tree path .directory) tree) other =
        (tree.find other).or (if other ∈ paths then some .directory else none) := by
    intro paths
    induction paths with
    | nil => exact fun tree ↦ (Option.or_none).symm
    | cons path paths ih =>
      intro tree
      rw [List.foldl_cons, ih, find_create, Option.or_assoc]
      by_cases h : other = path
      · simp [h]
      · simp [h]
  rw [createDirectories, hfold]
  simp only [List.mem_inits]

theorem find_filter (p : List α → Bool) (tree : FileTree α β) (other : List α) :
    find (tree.filter fun entry ↦ p entry.1) other =
      if p other = true then find tree other else none := by
  induction tree with
  | nil => exact (ite_self none).symm
  | cons entry rest ih =>
    rw [List.filter_cons]
    by_cases hother : entry.1 = other
    · by_cases hp : p other = true
      · rw [hother, if_pos hp, if_pos hp, find, find, List.find?_cons, List.find?_cons, hother]
        simp
      · rw [hother, if_neg hp, ih]
        simp [hp]
    · have hskip : find (entry :: rest) other = find rest other := by
        rw [find, List.find?_cons, decide_eq_false hother]
        rfl
      rw [hskip, ← ih]
      split
      · rw [find, List.find?_cons, decide_eq_false hother]
        rfl
      · rfl

theorem find_delete (tree : FileTree α β) (path other : List α) :
    (tree.delete path).find other = if other = path then none else tree.find other := by
  have h := find_filter (fun found ↦ decide (found ≠ path)) tree other
  rw [delete, h]
  by_cases hother : other = path <;> simp [hother]

theorem find_deleteBelow (tree : FileTree α β) (path other : List α) :
    (tree.deleteBelow path).find other = if path <+: other then none else tree.find other := by
  have h := find_filter (fun found ↦ !path.isPrefixOf found) tree other
  rw [deleteBelow, h]
  by_cases hother : path <+: other
  · rw [if_pos hother, List.isPrefixOf_iff_prefix.mpr hother]
    rfl
  · rw [if_neg hother, Bool.eq_false_iff.mpr fun h ↦ hother (List.isPrefixOf_iff_prefix.mp h)]
    rfl

theorem blocked_eq_false :
    tree.blocked path = false ↔ ∀ lead, lead <+: path → ∀ content,
      tree.find lead ≠ some (.file content) := by
  rw [blocked, List.any_eq_false]
  constructor
  · intro h lead hlead content hfile
    have hnot := h lead ((List.mem_inits _ _).mpr hlead)
    rw [hfile] at hnot
    exact hnot rfl
  · intro h lead hlead hfile
    rcases hfound : tree.find lead with _ | _ | content
    · rw [hfound] at hfile
      cases hfile
    · rw [hfound] at hfile
      cases hfile
    · exact h lead ((List.mem_inits _ _).mp hlead) content hfound

theorem find_replace (tree : FileTree α β) (path : List α) (node : Node β) (other : List α) :
    (tree.replace path node).find other = if other = path then some node else tree.find other := by
  have hcreate : tree.replace path node = (tree.delete path).create path node := by
    rw [create, find_delete, if_pos rfl]
    rfl
  rw [hcreate, find_create, find_delete]
  by_cases h : other = path
  · rw [if_pos h, if_pos h, if_pos h, Option.none_or]
  · rw [if_neg h, if_neg h, if_neg h, Option.or_none]

end Find

/-! ## What files hold -/

section Contents

variable {tree : FileTree α β} {path : List α} {writes : List (List α × β)}
  {contents : List α → Option β}

/-- Making directories leaves the files alone. -/
theorem content_createDirectories (tree : FileTree α β) (path : List α) :
    (tree.createDirectories path).content = tree.content := by
  funext other
  rw [content, content, find_createDirectories]
  rcases tree.find other with _ | node
  · rw [Option.none_or]
    by_cases h : other <+: path
    · rw [if_pos h]
    · rw [if_neg h]
  · rfl

theorem content_replace (tree : FileTree α β) (path : List α) (held : β) :
    (tree.replace path (.file held)).content =
      Function.update tree.content path (some held) := by
  funext other
  rw [content, find_replace, Function.update_apply]
  by_cases h : other = path
  · rw [if_pos h, if_pos h]
  · rw [if_neg h, if_neg h]
    rfl

@[simp] theorem written_nil (contents : List α → Option β) : written [] contents = contents := rfl

@[simp] theorem written_cons (write : List α × β) (writes : List (List α × β))
    (contents : List α → Option β) : written (write :: writes) contents =
      written writes (Function.update contents write.1 (some write.2)) := rfl

/-- Where nothing is written everything stays. -/
theorem written_of_not_mem (h : ∀ write ∈ writes, write.1 ≠ path) :
    written writes contents path = contents path := by
  induction writes generalizing contents with
  | nil => rfl
  | cons write writes ih =>
    obtain ⟨hfirst, hrest⟩ := List.forall_mem_cons.mp h
    rw [written_cons, ih hrest, Function.update_of_ne hfirst.symm]

/-- Where something is written it is one of the writes that stays, the last one. -/
theorem exists_written (contents : List α → Option β)
    (h : ∃ write ∈ writes, write.1 = path) :
    ∃ write ∈ writes, write.1 = path ∧ written writes contents path = some write.2 := by
  induction writes generalizing contents with
  | nil =>
    obtain ⟨write, hmem, -⟩ := h
    exact absurd hmem List.not_mem_nil
  | cons write writes ih =>
    by_cases hlater : ∃ other ∈ writes, other.1 = path
    · obtain ⟨other, hmem, hplace, hheld⟩ := ih _ hlater
      exact ⟨other, List.mem_cons_of_mem _ hmem, hplace, hheld⟩
    · obtain ⟨other, hmem, hplace⟩ := h
      have hother : other = write := (List.mem_cons.mp hmem).resolve_right
        fun hin ↦ hlater ⟨other, hin, hplace⟩
      subst hother
      refine ⟨other, List.mem_cons_self, hplace, ?_⟩
      rw [written_cons, written_of_not_mem fun later hin heq ↦ hlater ⟨later, hin, heq⟩, ← hplace,
        Function.update_self]

end Contents

end FileTree
