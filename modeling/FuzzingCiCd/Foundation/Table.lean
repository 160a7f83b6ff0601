import Mathlib.Data.List.Nodup

/-!
# Tables of rows with a key

A table as a list of rows in insertion order, each identified by its key, with the two repository
operations a service uses: looking a row up by its key, and saving one, which replaces the row of
the same key in place or adds the row at the end.

Services save a row they have just read and changed, or a row under a fresh key. The lemmas turn
the first into a map over the table and the second into an append, for a single row and for a loop
that saves every row of a selection.

## Main results

* `Keyed.save`: saving keeps the keys of a table apart.
* `save_update`: saving a changed row changes that row and no other.
* `Unique.eq`: a value of a unique column belongs to one row.
-/

namespace Table

variable {α κ : Type*} [DecidableEq κ] (key : α → κ)

/-- The row of key `k`. -/
def findById (k : κ) (l : List α) : Option α := l.find? fun x ↦ key x = k

/-- Replaces the row of the same key, or adds the row. -/
def save (l : List α) (x : α) : List α :=
  if l.any fun y ↦ key y = key x then l.map fun y ↦ if key y = key x then x else y else l ++ [x]

/-- No two rows share a key. -/
def Keyed (l : List α) : Prop := (l.map key).Nodup

instance (l : List α) : Decidable (Keyed key l) := inferInstanceAs (Decidable (l.map key).Nodup)

/-- No two rows share a value of a column; rows without a value do not count. -/
def Unique (column : α → Option κ) (l : List α) : Prop := (l.filterMap column).Nodup

instance (column : α → Option κ) (l : List α) : Decidable (Unique column l) :=
  inferInstanceAs (Decidable (l.filterMap column).Nodup)

/-- The value, if there is one, is the key of a row. -/
def References (l : List α) (value : Option κ) : Prop := ∀ k ∈ value, ∃ x ∈ l, key x = k

instance (l : List α) (value : Option κ) : Decidable (References key l value) :=
  inferInstanceAs (Decidable (∀ k ∈ value, ∃ x ∈ l, key x = k))

/-- Changes the row of key `k`, if there is one. -/
def update (k : κ) (f : α → α) (l : List α) : List α := l.map fun x ↦ if key x = k then f x else x

variable {key}

/-! ## Lookup -/

theorem findById_some {k : κ} {l : List α} {x : α} (h : findById key k l = some x) :
    x ∈ l ∧ key x = k := by
  refine ⟨List.mem_of_find?_eq_some h, ?_⟩
  simpa using List.find?_some h

theorem findById_cons (k : κ) (x : α) (l : List α) :
    findById key k (x :: l) = if key x = k then some x else findById key k l := by
  rw [findById, List.find?_cons, findById]
  by_cases h : key x = k <;> simp [h]

theorem findById_eq_none {k : κ} {l : List α} : findById key k l = none ↔ ∀ x ∈ l, key x ≠ k := by
  simp [findById, List.find?_eq_none]

omit [DecidableEq κ] in
theorem Keyed.eq {l : List α} (hl : Keyed key l) {x y : α} (hx : x ∈ l) (hy : y ∈ l)
    (h : key x = key y) : x = y :=
  List.inj_on_of_nodup_map hl hx hy h

theorem findById_eq_some {k : κ} {l : List α} {x : α} (hl : Keyed key l) :
    findById key k l = some x ↔ x ∈ l ∧ key x = k := by
  refine ⟨findById_some, ?_⟩
  rintro ⟨hx, rfl⟩
  rcases h : findById key (key x) l with _ | y
  · exact absurd rfl (findById_eq_none.mp h x hx)
  · obtain ⟨hy, hk⟩ := findById_some h
    rw [hl.eq hy hx hk]

omit [DecidableEq κ] in
theorem Keyed.filter {l : List α} (hl : Keyed key l) (p : α → Bool) : Keyed key (l.filter p) :=
  (List.filter_sublist.map key).nodup hl

/-! ## Saving

Saving replaces the row with the key, or adds one. A loop that saves a change of each of some
rows is therefore a map over the table, and the keys are what they were; the services' loops over
executions are turned into such maps by `foldl_save_filter`. -/

theorem save_fresh {l : List α} {x : α} (h : ∀ y ∈ l, key y ≠ key x) : save key l x = l ++ [x] := by
  rw [save, if_neg]
  simpa using h

theorem save_existing {l : List α} {x : α} (h : ∃ y ∈ l, key y = key x) :
    save key l x = l.map fun y ↦ if key y = key x then x else y := by
  rw [save, if_pos]
  simpa using h

theorem mem_save {l : List α} {x y : α} (h : y ∈ save key l x) : y ∈ l ∨ y = x := by
  rw [save] at h
  split at h
  · obtain ⟨z, hz, rfl⟩ := List.mem_map.mp h
    by_cases hk : key z = key x
    · exact Or.inr (if_pos hk)
    · rw [if_neg hk]
      exact Or.inl hz
  · exact (List.mem_append.mp h).imp_right List.mem_singleton.mp

theorem mem_save_iff {l : List α} {x y : α} :
    y ∈ save key l x ↔ y = x ∨ y ∈ l ∧ key y ≠ key x := by
  by_cases h : ∃ z ∈ l, key z = key x
  · rw [save_existing h, List.mem_map]
    constructor
    · rintro ⟨z, hz, rfl⟩
      by_cases hk : key z = key x
      · exact Or.inl (if_pos hk)
      · rw [if_neg hk]
        exact Or.inr ⟨hz, hk⟩
    · rintro (rfl | ⟨hy, hk⟩)
      · obtain ⟨z, hz, hk⟩ := h
        exact ⟨z, hz, if_pos hk⟩
      · exact ⟨y, hy, if_neg hk⟩
  · have hfresh : ∀ z ∈ l, key z ≠ key x := fun z hz hk ↦ h ⟨z, hz, hk⟩
    rw [save_fresh hfresh, List.mem_append, List.mem_singleton, or_comm]
    exact or_congr_right ⟨fun hy ↦ ⟨hy, hfresh y hy⟩, fun hy ↦ hy.1⟩

theorem mem_save_self (l : List α) (x : α) : x ∈ save key l x := by
  by_cases h : ∃ y ∈ l, key y = key x
  · obtain ⟨y, hy, hk⟩ := h
    rw [save_existing ⟨y, hy, hk⟩]
    exact List.mem_map.mpr ⟨y, hy, if_pos hk⟩
  · rw [save_fresh fun y hy hk ↦ h ⟨y, hy, hk⟩]
    exact List.mem_append_right _ (List.mem_singleton.mpr rfl)

theorem save_last {l : List α} {x x' : α} (h : ∀ y ∈ l, key y ≠ key x) (hx : key x' = key x) :
    save key (l ++ [x]) x' = l ++ [x'] := by
  rw [save_existing ⟨x, List.mem_append_right _ (List.mem_singleton.mpr rfl), hx.symm⟩,
    List.map_append, List.map_singleton, if_pos hx.symm]
  congr 1
  calc l.map (fun y ↦ if key y = key x' then x' else y) = l.map id :=
        List.map_congr_left fun y hy ↦ if_neg (hx ▸ h y hy)
    _ = l := List.map_id l

theorem save_save {l : List α} {x x' : α} (h : ∀ y ∈ l, key y ≠ key x) (hx : key x' = key x) :
    save key (save key l x) x' = l ++ [x'] := by
  rw [save_fresh h, save_last h hx]

/-- Saving a changed row changes that row. -/
theorem save_update {l : List α} (hl : Keyed key l) {x : α} (hx : x ∈ l) (f : α → α)
    (hf : key (f x) = key x) : save key l (f x) = update key (key x) f l := by
  rw [save_existing ⟨x, hx, hf.symm⟩, update]
  refine List.map_congr_left fun y hy ↦ ?_
  rw [hf]
  by_cases h : key y = key x
  · rw [if_pos h, if_pos h, hl.eq hy hx h]
  · rw [if_neg h, if_neg h]

omit [DecidableEq κ] in
theorem keyed_map {u : α → α} (hu : ∀ x, key (u x) = key x) {l : List α} :
    Keyed key (l.map u) ↔ Keyed key l := by
  have h : key ∘ u = key := funext hu
  rw [Keyed, List.map_map, h, Keyed]

omit [DecidableEq κ] in
theorem keyed_append {l new : List α} :
    Keyed key (l ++ new) ↔ Keyed key l ∧ Keyed key new ∧ ∀ x ∈ l, ∀ y ∈ new, key x ≠ key y := by
  rw [Keyed, List.map_append, List.nodup_append, Keyed, Keyed]
  simp

/-- Saving keeps a table keyed. -/
theorem Keyed.save {l : List α} (hl : Keyed key l) (x : α) : Keyed key (save key l x) := by
  by_cases h : ∃ y ∈ l, key y = key x
  · rw [save_existing h, keyed_map]
    · exact hl
    · intro y
      by_cases hk : key y = key x
      · rw [if_pos hk, hk]
      · rw [if_neg hk]
  · have hfresh : ∀ y ∈ l, key y ≠ key x := fun y hy hk ↦ h ⟨y, hy, hk⟩
    rw [save_fresh hfresh, keyed_append]
    refine ⟨hl, by simp [Keyed], fun y hy z hz ↦ ?_⟩
    rw [List.mem_singleton.mp hz]
    exact hfresh y hy

omit [DecidableEq κ] in
/-- A row with a new value, or without one, keeps a column unique. -/
theorem Unique.append {column : α → Option κ} {l : List α} (hl : Unique column l) {x : α}
    (hx : ∀ v ∈ column x, ∀ y ∈ l, column y ≠ some v) : Unique column (l ++ [x]) := by
  rw [Unique, List.filterMap_append, List.nodup_append]
  refine ⟨hl, ?_, ?_⟩
  · cases h : column x <;> simp [h]
  · rintro v hv w hw rfl
    obtain ⟨y, hy, hyv⟩ := List.mem_filterMap.mp hv
    obtain ⟨z, hz, hzv⟩ := List.mem_filterMap.mp hw
    rw [List.mem_singleton.mp hz] at hzv
    exact hx v hzv y hy hyv

omit [DecidableEq κ] in
/-- A value of a unique column belongs to one row. -/
theorem Unique.eq {column : α → Option κ} {l : List α} (hl : Unique column l) {x y : α}
    (hx : x ∈ l) (hy : y ∈ l) {v : κ} (hxv : column x = some v) (hyv : column y = some v) :
    x = y := by
  induction l with
  | nil => exact absurd hx List.not_mem_nil
  | cons a l ih =>
    have hmem : ∀ z ∈ l, column z = some v → v ∈ l.filterMap column :=
      fun z hz hzv ↦ List.mem_filterMap.mpr ⟨z, hz, hzv⟩
    rw [Unique, List.filterMap_cons] at hl
    rcases List.mem_cons.mp hx with rfl | hx'
    · rw [hxv] at hl
      rcases List.mem_cons.mp hy with rfl | hy'
      · rfl
      · exact absurd (hmem y hy' hyv) (List.nodup_cons.mp hl).1
    · rcases List.mem_cons.mp hy with rfl | hy'
      · rw [hyv] at hl
        exact absurd (hmem x hx' hxv) (List.nodup_cons.mp hl).1
      · refine ih ?_ hx' hy'
        split at hl
        · exact hl
        · exact (List.nodup_cons.mp hl).2

omit [DecidableEq κ] in
theorem references_map {u : α → α} (hu : ∀ x, key (u x) = key x) {l : List α}
    (value : Option κ) :
    References key (l.map u) value ↔ References key l value := by
  simp only [References, List.mem_map, exists_exists_and_eq_and, hu]

theorem key_update {f : α → α} (hf : ∀ x, key (f x) = key x) (k : κ) (x : α) :
    key (if key x = k then f x else x) = key x := by
  by_cases h : key x = k
  · rw [if_pos h, hf]
  · rw [if_neg h]

theorem keyed_update {f : α → α} (hf : ∀ x, key (f x) = key x) (k : κ) {l : List α} :
    Keyed key (update key k f l) ↔ Keyed key l :=
  keyed_map (key_update hf k)

theorem exists_of_mem_update {f : α → α} (hf : ∀ x, key (f x) = key x) {k : κ} {l : List α}
    {y : α} (h : y ∈ update key k f l) : ∃ x ∈ l, key x = key y := by
  obtain ⟨x, hx, rfl⟩ := List.mem_map.mp h
  exact ⟨x, hx, (key_update hf k x).symm⟩

/-- A loop that saves changed rows of a table changes each of those rows. -/
theorem foldl_save {f : α → α} (hf : ∀ x, key (f x) = key x) {xs : List α} (hxs : Keyed key xs)
    {l : List α} (hl : ∀ x ∈ xs, ∃ y ∈ l, key y = key x) :
    xs.foldl (fun l x ↦ save key l (f x)) l =
      l.map fun y ↦ ((findById key (key y) xs).map f).getD y := by
  induction xs generalizing l with
  | nil => simp [findById]
  | cons x xs ih =>
    have hx : ∀ z ∈ xs, key z ≠ key x := by
      rw [Keyed, List.map_cons, List.nodup_cons] at hxs
      intro z hz h
      exact hxs.1 (h ▸ List.mem_map_of_mem hz)
    have htail : Keyed key xs := by
      rw [Keyed, List.map_cons, List.nodup_cons] at hxs
      exact hxs.2
    have hsave : save key l (f x) = l.map fun y ↦ if key y = key x then f x else y := by
      rw [save_existing (by simpa [hf] using hl x List.mem_cons_self), hf]
    rw [List.foldl_cons, hsave, ih htail]
    · rw [List.map_map]
      refine List.map_congr_left fun y _ ↦ ?_
      by_cases h : key y = key x
      · have hnone : findById key (key x) xs = none := findById_eq_none.mpr hx
        rw [Function.comp_apply, if_pos h, hf, hnone, h, findById_cons, if_pos rfl]
        rfl
      · have h' : key x ≠ key y := fun e ↦ h e.symm
        rw [Function.comp_apply, if_neg h, findById_cons, if_neg h']
    · intro z hz
      obtain ⟨y, hy, hk⟩ := hl z (List.mem_cons_of_mem _ hz)
      refine ⟨if key y = key x then f x else y, List.mem_map_of_mem hy, ?_⟩
      by_cases h : key y = key x
      · rw [if_pos h, hf, ← h, hk]
      · rw [if_neg h, hk]

/-- A loop that saves a change of every selected row is a map over the table. -/
theorem foldl_save_filter {f : α → α} (hf : ∀ x, key (f x) = key x) (p : α → Bool) {l : List α}
    (hl : Keyed key l) :
    (l.filter p).foldl (fun l x ↦ save key l (f x)) l = l.map fun x ↦ if p x then f x else x := by
  rw [foldl_save hf (hl.filter p)]
  · refine List.map_congr_left fun y hy ↦ ?_
    by_cases h : p y = true
    · rw [(findById_eq_some (hl.filter p)).mpr ⟨List.mem_filter.mpr ⟨hy, h⟩, rfl⟩, if_pos h]
      rfl
    · rw [if_neg h]
      have hnone : findById key (key y) (l.filter p) = none := by
        refine findById_eq_none.mpr fun z hz hk ↦ ?_
        obtain ⟨hzl, hzp⟩ := List.mem_filter.mp hz
        exact h (hl.eq hzl hy hk ▸ hzp)
      rw [hnone]
      rfl
  · intro x hx
    exact ⟨x, (List.mem_filter.mp hx).1, rfl⟩

end Table
