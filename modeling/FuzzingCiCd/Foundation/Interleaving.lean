import Mathlib.Data.List.Basic

/-!
# Merged streams

Several sources write into one stream, each in its own order. An entry of the stream carries the
number of its source, and the entries of one number are what that source has written.
-/

namespace Interleaving

variable {α : Type*}

/-- What the source has written into the stream. -/
def written (stream : List (ℕ × α)) (i : ℕ) : List α :=
  (stream.filter fun entry ↦ entry.1 = i).map Prod.snd

/-- The stream merges what the sources write, in the order of each of them. -/
def Merges (source : ℕ → List α) (stream : List (ℕ × α)) : Prop :=
  ∀ i, written stream i = source i

section Merges

variable {source : ℕ → List α} {stream before after : List (ℕ × α)} {i : ℕ} {a b : α}

theorem mem_written : a ∈ written stream i ↔ (i, a) ∈ stream := by
  rw [written, List.mem_map]
  constructor
  · rintro ⟨⟨j, x⟩, hmem, rfl⟩
    rw [List.mem_filter, decide_eq_true_iff] at hmem
    obtain ⟨hmem, rfl⟩ := hmem
    exact hmem
  · exact fun hmem ↦ ⟨(i, a), List.mem_filter.mpr ⟨hmem, decide_eq_true rfl⟩, rfl⟩

theorem Merges.mem_iff (h : Merges source stream) : (i, a) ∈ stream ↔ a ∈ source i := by
  rw [← h i, mem_written]

/-- The part of the stream that has been read holds a prefix of each source. -/
theorem Merges.written_prefix (h : Merges source (before ++ after)) :
    written before i <+: source i := by
  rw [← h i, written, written, List.filter_append, List.map_append]
  exact List.prefix_append _ _

theorem Merges.head_mem (h : Merges source (before ++ after)) {rest : List α}
    (hsource : source i = b :: rest) (hmem : (i, a) ∈ before) : (i, b) ∈ before := by
  have hpre := h.written_prefix (i := i)
  rw [← mem_written] at hmem ⊢
  obtain ⟨c, cs, hcs⟩ := List.exists_cons_of_ne_nil (List.ne_nil_of_mem hmem)
  rw [hsource, hcs, List.cons_prefix_cons] at hpre
  rw [hcs, hpre.1]
  exact List.mem_cons_self

end Merges

end Interleaving
