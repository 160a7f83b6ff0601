import Mathlib.Data.List.Sort
import Mathlib.Order.Basic

/-!
# Reading a sorted index page by page

A reader asks an index for the entries after a position, in the order of their keys and at most a
given number of them, and takes the key of the last one for its next position. What it has not
read lies after that position as long as nothing enters the index before it: `mem_page_of_le`.
-/

namespace Pages

variable {α κ : Type*} [LinearOrder κ] (key : α → κ)

/-- The key lies after a position; every key lies after none. -/
def After (position : Option κ) (k : κ) : Prop := ∀ p ∈ position, p < k

instance (position : Option κ) (k : κ) : Decidable (After position k) :=
  inferInstanceAs (Decidable (∀ p ∈ position, p < k))

/-- The first entries after a position. -/
def page (position : Option κ) (size : ℕ) (entries : List α) : List α :=
  ((entries.filter fun x ↦ After position (key x)).insertionSort (key · ≤ key ·)).take size

variable {key} {position : Option κ} {size : ℕ} {entries : List α} {x y : α}

theorem mem_of_mem_page (h : x ∈ page key position size entries) :
    x ∈ entries ∧ After position (key x) := by
  have hsorted := List.mem_of_mem_take h
  rw [List.mem_insertionSort, List.mem_filter] at hsorted
  exact ⟨hsorted.1, of_decide_eq_true hsorted.2⟩

/-- **Nothing is skipped.** With keys that tell the entries apart, an entry after the position that
does not lie after some entry of the page is on the page. -/
theorem mem_page_of_le (hkeys : ∀ x ∈ entries, ∀ y ∈ entries, key x = key y → x = y)
    (hy : y ∈ page key position size entries) (hx : x ∈ entries) (hafter : After position (key x))
    (hle : key x ≤ key y) : x ∈ page key position size entries := by
  have : Std.Total (key · ≤ key · : α → α → Prop) := ⟨fun a b ↦ le_total (key a) (key b)⟩
  have : IsTrans α (key · ≤ key ·) := ⟨fun _ _ _ ↦ le_trans⟩
  have hy' := mem_of_mem_page hy
  rw [page] at hy ⊢
  have hsorted := List.pairwise_insertionSort (key · ≤ key ·)
    (entries.filter fun x ↦ After position (key x))
  have hmem : x ∈ (entries.filter fun x ↦ After position (key x)).insertionSort
      (key · ≤ key ·) := by
    rw [List.mem_insertionSort, List.mem_filter]
    exact ⟨hx, decide_eq_true hafter⟩
  generalize (entries.filter fun x ↦ After position (key x)).insertionSort (key · ≤ key ·) = sorted
    at hy hsorted hmem ⊢
  rw [← List.take_append_drop size sorted] at hsorted hmem
  rcases List.mem_append.mp hmem with htake | hdrop
  · exact htake
  · -- An entry behind the page has the key of the one on it only if they are the same.
    have hge := (List.pairwise_append.mp hsorted).2.2 y hy x hdrop
    rw [hkeys x hx y hy'.1 (le_antisymm hle hge)]
    exact hy

/-! ## Positions of a sorted list -/

section Sorted

/-- The entries in the order of their keys. -/
def sorted (key : α → κ) (entries : List α) : List α := entries.insertionSort (key · ≤ key ·)

variable {before after : List α}

theorem perm_sorted (entries : List α) : (sorted key entries).Perm entries :=
  List.perm_insertionSort _ _

theorem pairwise_sorted_le (entries : List α) :
    (sorted key entries).Pairwise fun a b ↦ key a ≤ key b := by
  have : Std.Total (key · ≤ key · : α → α → Prop) := ⟨fun a b ↦ le_total (key a) (key b)⟩
  have : IsTrans α (key · ≤ key ·) := ⟨fun _ _ _ ↦ le_trans⟩
  exact List.pairwise_insertionSort _ _

theorem pairwise_sorted (hkeys : (entries.map key).Nodup) :
    (sorted key entries).Pairwise fun a b ↦ key a < key b := by
  have hne : (sorted key entries).Pairwise fun a b ↦ key a ≠ key b :=
    List.pairwise_map.mp (((perm_sorted entries).map key).nodup_iff.mpr hkeys)
  exact ((pairwise_sorted_le entries).and hne).imp fun h ↦ lt_of_le_of_ne h.1 h.2

theorem page_eq (hkeys : (entries.map key).Nodup) :
    page key position size entries =
      ((sorted key entries).filter fun x ↦ After position (key x)).take size := by
  have hsub : ((entries.filter fun x ↦ After position (key x)).map key).Nodup :=
    (List.filter_sublist.map key).nodup hkeys
  rw [page, ← sorted]
  congr 1
  refine List.Perm.eq_of_pairwise (fun a b _ _ hab hba ↦ absurd hab hba.asymm)
    (pairwise_sorted hsub) ((pairwise_sorted hkeys).filter _) ?_
  exact (perm_sorted _).trans ((perm_sorted entries).filter _).symm

theorem page_none (hkeys : (entries.map key).Nodup) :
    page key none size entries = (sorted key entries).take size := by
  rw [page_eq hkeys, List.filter_eq_self.mpr]
  exact fun x _ ↦ decide_eq_true fun p hp ↦ by cases hp

/-- **Behind an entry** comes the rest of the sorted entries. -/
theorem page_some (hkeys : (entries.map key).Nodup)
    (hsorted : sorted key entries = before ++ x :: after) :
    page key (some (key x)) size entries = after.take size := by
  have hascending := pairwise_sorted hkeys
  rw [hsorted, List.pairwise_append, List.pairwise_cons] at hascending
  obtain ⟨-, ⟨hafter, -⟩, hbefore⟩ := hascending
  have hnot : ∀ y ∈ before ++ [x], ¬ key x < key y := by
    intro y hy
    rcases List.mem_append.mp hy with hy | hy
    · exact (hbefore y hy x List.mem_cons_self).asymm
    · rw [List.mem_singleton.mp hy]
      exact lt_irrefl _
  rw [page_eq hkeys, hsorted, ← List.singleton_append, ← List.append_assoc, List.filter_append,
    List.filter_eq_nil_iff.mpr fun y hy ↦ by simp [After, hnot y hy], List.nil_append,
    List.filter_eq_self.mpr fun y hy ↦ by simpa [After] using hafter y hy]

end Sorted

end Pages
