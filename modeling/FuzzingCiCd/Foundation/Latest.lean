import Mathlib.Data.List.Sort

/-!
# The latest entry of each key

A list whose entries carry a key and a rank, read as a history: the *latest* entry of a key is one
of greatest rank. Two readings occur in practice and are defined here as they are computed: a
lookup in the list sorted by descending rank, and the list of first entries per key of the sorted
list. Both sorts are stable, so among entries of equal rank the earlier one wins.

The lemmas say what the lookup returns, that the two readings agree, and how it behaves under the
two ways a history changes: entries are updated in place without touching key or rank, or entries
are appended.

## Numbered histories

A history is *numbered* if the entries of each key are ranked from one on without gaps. Then the
latest entry of a key has the rank that counts its entries (`Numbered.rank_latest`), a rank
identifies an entry (`Numbered.ranked`), and a history that is continued with the next ranks stays
numbered (`Numbered.append`).
-/

namespace Latest

variable {α κ : Type*} [DecidableEq κ] (key : α → κ) (rank : α → ℕ)

/-- The list by descending rank; stable. -/
def descending (l : List α) : List α := l.insertionSort fun a b ↦ rank b ≤ rank a

/-- The latest entry of key `k`. -/
def latest (k : κ) (l : List α) : Option α := (descending rank l).find? fun a ↦ key a = k

/-- The first entry of each key, in order of first appearance. -/
def firsts : List α → List α
  | [] => []
  | a :: l => a :: (firsts l).filter fun b ↦ key b ≠ key a

/-- The latest entry of each key. -/
def latestEntries (l : List α) : List α := firsts key (descending rank l)

variable {key rank}

instance total_rank : Std.Total fun a b : α ↦ rank b ≤ rank a := ⟨fun _ _ ↦ Nat.le_total _ _⟩

instance isTrans_rank : IsTrans α fun a b : α ↦ rank b ≤ rank a := ⟨fun _ _ _ h₁ h₂ ↦ h₂.trans h₁⟩

theorem mem_descending {a : α} {l : List α} : a ∈ descending rank l ↔ a ∈ l :=
  List.mem_insertionSort _

theorem pairwise_descending (l : List α) :
    (descending rank l).Pairwise fun a b ↦ rank b ≤ rank a :=
  List.pairwise_insertionSort _ _

/-! ## The lookup -/

private theorem find_first_of_pairwise {l : List α} {k : κ} {a : α}
    (hsorted : l.Pairwise fun a b ↦ rank b ≤ rank a)
    (h : l.find? (fun a ↦ key a = k) = some a) : ∀ b ∈ l, key b = k → rank b ≤ rank a := by
  induction l with
  | nil => simp at h
  | cons x l ih =>
    rw [List.pairwise_cons] at hsorted
    intro b hb hk
    rw [List.find?_cons] at h
    by_cases hx : key x = k
    · simp only [hx, decide_true, Option.some.injEq] at h
      subst h
      rcases List.mem_cons.mp hb with rfl | hb
      · exact le_rfl
      · exact hsorted.1 b hb
    · simp only [hx, decide_false] at h
      rcases List.mem_cons.mp hb with rfl | hb
      · exact absurd hk hx
      · exact ih hsorted.2 h b hb hk

/-- What the lookup returns is an entry of the key, and none of the key outranks it. -/
theorem of_latest {k : κ} {l : List α} {a : α} (h : latest key rank k l = some a) :
    a ∈ l ∧ key a = k ∧ ∀ b ∈ l, key b = k → rank b ≤ rank a := by
  refine ⟨mem_descending.mp (List.mem_of_find?_eq_some h), ?_, ?_⟩
  · simpa using List.find?_some h
  · intro b hb hk
    exact find_first_of_pairwise (pairwise_descending l) h b (mem_descending.mpr hb) hk

theorem latest_eq_none {k : κ} {l : List α} :
    latest key rank k l = none ↔ ∀ b ∈ l, key b ≠ k := by
  rw [latest, List.find?_eq_none]
  simp [mem_descending]

theorem exists_latest (key : α → κ) (rank : α → ℕ) {l : List α} {b : α} (hb : b ∈ l) :
    ∃ a, latest key rank (key b) l = some a := by
  rcases h : latest key rank (key b) l with _ | a
  · exact absurd rfl (latest_eq_none.mp h b hb)
  · exact ⟨a, rfl⟩

/-- Keys and ranks identify the entries. -/
def Ranked (key : α → κ) (rank : α → ℕ) (l : List α) : Prop :=
  ∀ a ∈ l, ∀ b ∈ l, key a = key b → rank a = rank b → a = b

/-- Where the entries of a key have distinct ranks, its latest one is that which nothing
outranks. -/
theorem latest_eq_some_of_key {k : κ} {l : List α} {a : α}
    (hl : ∀ a ∈ l, ∀ b ∈ l, key a = k → key b = k → rank a = rank b → a = b) :
    latest key rank k l = some a ↔ a ∈ l ∧ key a = k ∧ ∀ b ∈ l, key b = k → rank b ≤ rank a := by
  refine ⟨of_latest, ?_⟩
  rintro ⟨ha, hk, hmax⟩
  obtain ⟨b, hb⟩ := exists_latest key rank ha
  rw [hk] at hb
  obtain ⟨hbl, hbk, hbmax⟩ := of_latest hb
  rw [hb, hl a ha b hbl hk hbk (le_antisymm (hbmax a ha hk) (hmax b hbl hbk))]

/-- With distinct ranks the latest entry is the one that nothing outranks. -/
theorem latest_eq_some {k : κ} {l : List α} {a : α} (hl : Ranked key rank l) :
    latest key rank k l = some a ↔ a ∈ l ∧ key a = k ∧ ∀ b ∈ l, key b = k → rank b ≤ rank a :=
  latest_eq_some_of_key fun a ha b hb hak hbk ↦ hl a ha b hb (hak.trans hbk.symm)

/-! ## The entries -/

theorem mem_firsts {l : List α} {a : α} :
    a ∈ firsts key l ↔ l.find? (fun b ↦ key b = key a) = some a := by
  induction l with
  | nil => simp [firsts]
  | cons x l ih =>
    rw [firsts, List.mem_cons, List.mem_filter, ih, List.find?_cons]
    by_cases hx : key x = key a
    · simp only [hx, decide_true, Option.some.injEq]
      constructor
      · rintro (rfl | ⟨-, hne⟩)
        · rfl
        · simp at hne
      · rintro rfl
        exact Or.inl rfl
    · have hne : a ≠ x := fun h ↦ hx (by rw [h])
      simp only [hx, decide_false, hne, false_or]
      simp [Ne.symm hx]

theorem mem_latestEntries {l : List α} {a : α} :
    a ∈ latestEntries key rank l ↔ latest key rank (key a) l = some a :=
  mem_firsts

theorem firsts_sublist (l : List α) : (firsts key l).Sublist l := by
  induction l with
  | nil => exact List.Sublist.slnil
  | cons a l ih => exact (List.filter_sublist.trans ih).cons_cons a

theorem nodup_keys_firsts (l : List α) : ((firsts key l).map key).Nodup := by
  induction l with
  | nil => simp [firsts]
  | cons a l ih =>
    rw [firsts, List.map_cons, List.nodup_cons]
    refine ⟨?_, (List.filter_sublist.map key).nodup ih⟩
    simp

theorem mem_of_mem_latestEntries {l : List α} {a : α} (h : a ∈ latestEntries key rank l) :
    a ∈ l :=
  (of_latest (mem_latestEntries.mp h)).1

/-- Whatever identifies the entries of the list identifies the latest ones. -/
theorem nodup_map_latestEntries {β : Type*} {f : α → β} {l : List α} (h : (l.map f).Nodup) :
    ((latestEntries key rank l).map f).Nodup := by
  have hsort : ((descending rank l).map f).Nodup :=
    ((List.perm_insertionSort _ l).map f).nodup_iff.mpr h
  exact ((firsts_sublist _).map f).nodup hsort

theorem nodup_keys_latestEntries (l : List α) : ((latestEntries key rank l).map key).Nodup :=
  nodup_keys_firsts _

/-! ## Change -/

/-- An update that touches neither key nor rank commutes with the lookup. -/
theorem latest_map {u : α → α} (hkey : ∀ a, key (u a) = key a) (hrank : ∀ a, rank (u a) = rank a)
    (k : κ) (l : List α) : latest key rank k (l.map u) = (latest key rank k l).map u := by
  have hsort : descending rank (l.map u) = (descending rank l).map u := by
    refine (List.map_insertionSort (fun a b ↦ rank b ≤ rank a) (fun a b ↦ rank b ≤ rank a) u l
      fun a _ b _ ↦ ?_).symm
    rw [hrank, hrank]
  rw [latest, hsort, List.find?_map, latest]
  congr 2
  funext a
  simp [hkey]

theorem latest_append_of_ne {k : κ} {l new : List α} (hl : Ranked key rank l)
    (hnew : ∀ b ∈ new, key b ≠ k) : latest key rank k (l ++ new) = latest key rank k l := by
  have hold : ∀ b ∈ l ++ new, key b = k → b ∈ l := fun b hb hbk ↦
    (List.mem_append.mp hb).resolve_right fun h ↦ hnew b h hbk
  have hall : ∀ a ∈ l ++ new, ∀ b ∈ l ++ new, key a = k → key b = k → rank a = rank b → a = b :=
    fun a ha b hb hak hbk ↦ hl a (hold a ha hak) b (hold b hb hbk) (hak.trans hbk.symm)
  ext a
  rw [latest_eq_some_of_key hall, latest_eq_some hl]
  constructor
  · rintro ⟨ha, hk, hmax⟩
    exact ⟨hold a ha hk, hk, fun b hb ↦ hmax b (List.mem_append_left _ hb)⟩
  · rintro ⟨ha, hk, hmax⟩
    exact ⟨List.mem_append_left _ ha, hk, fun b hb hbk ↦ hmax b (hold b hb hbk) hbk⟩

theorem latest_append_of_lt {l new : List α} {a : α} (hl : Ranked key rank (l ++ new))
    (ha : a ∈ new) (hold : ∀ b ∈ l, key b = key a → rank b ≤ rank a)
    (hnew : ∀ b ∈ new, key b = key a → rank b ≤ rank a) :
    latest key rank (key a) (l ++ new) = some a := by
  rw [latest_eq_some hl]
  refine ⟨List.mem_append_right _ ha, rfl, fun b hb hbk ↦ ?_⟩
  rcases List.mem_append.mp hb with hb | hb
  · exact hold b hb hbk
  · exact hnew b hb hbk

/-! ## Numbered histories

The entries of a key are numbered from one without gaps, so the latest is the one whose number is
their count. Adding one with the next number makes it the latest, and changes in place leave the
numbers as they are. -/

/-- The ranks of the entries of a key, in order. -/
def ranks (key : α → κ) (rank : α → ℕ) (k : κ) (l : List α) : List ℕ :=
  (l.filter fun a ↦ key a = k).map rank

/-- The number of entries of a key. -/
def count (key : α → κ) (k : κ) (l : List α) : ℕ := (l.filter fun a ↦ key a = k).length

/-- The entries of every key are numbered from one, without gap or repetition. -/
def Numbered (key : α → κ) (rank : α → ℕ) (l : List α) : Prop :=
  ∀ k, ranks key rank k l = List.range' 1 (count key k l)

/-- The entries that continue a numbered history: at most one for each key, with the next
number. -/
structure Continues (key : α → κ) (rank : α → ℕ) (l new : List α) : Prop where
  distinct : (new.map key).Nodup
  next : ∀ a ∈ new, rank a = count key (key a) l + 1

theorem ranks_append (k : κ) (l new : List α) :
    ranks key rank k (l ++ new) = ranks key rank k l ++ ranks key rank k new := by
  rw [ranks, List.filter_append, List.map_append, ranks, ranks]

theorem count_append (k : κ) (l new : List α) :
    count key k (l ++ new) = count key k l + count key k new := by
  rw [count, List.filter_append, List.length_append, count, count]

theorem count_eq_zero {k : κ} {l : List α} : count key k l = 0 ↔ ∀ a ∈ l, key a ≠ k := by
  rw [count, List.length_eq_zero_iff, List.filter_eq_nil_iff]
  simp

theorem count_singleton (k : κ) (a : α) : count key k [a] = if key a = k then 1 else 0 := by
  by_cases h : key a = k
  · simp [count, h]
  · simp [count, h]

theorem count_of_nodup {l : List α} (hl : (l.map key).Nodup) {a : α} (ha : a ∈ l) :
    count key (key a) l = 1 := by
  induction l with
  | nil => exact absurd ha List.not_mem_nil
  | cons b l ih =>
    rw [List.map_cons, List.nodup_cons] at hl
    rw [← List.singleton_append, count_append, count_singleton]
    rcases List.mem_cons.mp ha with rfl | ha
    · have hzero : count key (key a) l = 0 :=
        count_eq_zero.mpr fun b hb hkey ↦ hl.1 (hkey ▸ List.mem_map_of_mem hb)
      rw [if_pos rfl, hzero]
    · have hne : key b ≠ key a := fun h ↦ hl.1 (h ▸ List.mem_map_of_mem ha)
      rw [if_neg hne, ih hl.2 ha]

theorem count_map {u : α → α} (hkey : ∀ a, key (u a) = key a) (k : κ) (l : List α) :
    count key k (l.map u) = count key k l := by
  rw [count, List.filter_map, List.length_map, count]
  congr 2
  funext a
  simp [hkey]

theorem numbered_nil : Numbered key rank [] := fun _ ↦ rfl

theorem Numbered.map {u : α → α} (hkey : ∀ a, key (u a) = key a)
    (hrank : ∀ a, rank (u a) = rank a) {l : List α} (hl : Numbered key rank l) :
    Numbered key rank (l.map u) := by
  intro k
  rw [count_map hkey, ← hl k, ranks, List.filter_map, List.map_map, ranks]
  have hfilter : (fun a ↦ decide (key a = k)) ∘ u = fun a ↦ decide (key a = k) := by
    funext a
    simp [hkey]
  have hmap : rank ∘ u = rank := funext hrank
  rw [hfilter, hmap]

theorem Numbered.append_singleton {l : List α} {a : α} (hl : Numbered key rank l)
    (ha : rank a = count key (key a) l + 1) : Numbered key rank (l ++ [a]) := by
  intro k
  rw [ranks_append, count_append, count_singleton, hl k]
  by_cases h : key a = k
  · subst h
    simp [ranks, ha, List.range'_concat, Nat.add_comm]
  · simp [ranks, h]

/-- **Continuation.** A numbered history that is continued stays numbered. -/
theorem Numbered.append {l new : List α} (hl : Numbered key rank l)
    (hnew : Continues key rank l new) : Numbered key rank (l ++ new) := by
  induction new generalizing l with
  | nil => rwa [List.append_nil]
  | cons a new ih =>
    have hdistinct := hnew.distinct
    rw [List.map_cons, List.nodup_cons] at hdistinct
    have hfirst := hl.append_singleton (hnew.next a List.mem_cons_self)
    rw [List.append_cons]
    refine ih hfirst ⟨hdistinct.2, fun b hb ↦ ?_⟩
    have hne : key a ≠ key b := fun h ↦ hdistinct.1 (h ▸ List.mem_map_of_mem hb)
    rw [count_append, count_singleton, if_neg hne, Nat.add_zero]
    exact hnew.next b (List.mem_cons_of_mem _ hb)

theorem Numbered.rank_mem {l : List α} (hl : Numbered key rank l) {a : α} (ha : a ∈ l) :
    1 ≤ rank a ∧ rank a ≤ count key (key a) l := by
  have hmem : rank a ∈ ranks key rank (key a) l :=
    List.mem_map_of_mem (List.mem_filter.mpr ⟨ha, by simp⟩)
  rw [hl (key a), List.mem_range'_1] at hmem
  omega

theorem Numbered.exists_rank {l : List α} (hl : Numbered key rank l) {k : κ} {n : ℕ} (hn : 1 ≤ n)
    (hle : n ≤ count key k l) : ∃ a ∈ l, key a = k ∧ rank a = n := by
  have hmem : n ∈ ranks key rank k l := by
    rw [hl k, List.mem_range'_1]
    omega
  obtain ⟨a, ha, hrank⟩ := List.mem_map.mp hmem
  obtain ⟨ha, hk⟩ := List.mem_filter.mp ha
  exact ⟨a, ha, by simpa using hk, hrank⟩

/-- Numbers identify the entries of a key. -/
theorem Numbered.ranked {l : List α} (hl : Numbered key rank l) : Ranked key rank l := by
  intro a ha b hb hkey hrank
  have hnodup : (ranks key rank (key a) l).Nodup := by
    rw [hl (key a)]
    exact List.nodup_range'
  exact List.inj_on_of_nodup_map hnodup (List.mem_filter.mpr ⟨ha, by simp⟩)
    (List.mem_filter.mpr ⟨hb, by simp [hkey]⟩) hrank

/-- The latest entry of a key has the last number. -/
theorem Numbered.rank_latest {l : List α} (hl : Numbered key rank l) {k : κ} {a : α}
    (h : latest key rank k l = some a) : rank a = count key k l := by
  obtain ⟨ha, rfl, hmax⟩ := of_latest h
  obtain ⟨hone, hle⟩ := hl.rank_mem ha
  obtain ⟨b, hb, hkey, hrank⟩ := hl.exists_rank (k := key a) (n := count key (key a) l)
    (by omega) le_rfl
  have := hmax b hb hkey
  omega

/-- An entry is the latest of its key exactly when it has the last number. -/
theorem Numbered.latest_eq_some {l : List α} (hl : Numbered key rank l) {a : α} (ha : a ∈ l) :
    latest key rank (key a) l = some a ↔ rank a = count key (key a) l := by
  refine ⟨hl.rank_latest, fun h ↦ (Latest.latest_eq_some hl.ranked).mpr ⟨ha, rfl, ?_⟩⟩
  intro b hb hkey
  have := (hl.rank_mem hb).2
  rw [hkey] at this
  omega

theorem Continues.latest {l new : List α} (hl : Numbered key rank l)
    (hnew : Continues key rank l new) {a : α} (ha : a ∈ new) :
    latest key rank (key a) (l ++ new) = some a := by
  refine latest_append_of_lt (hl.append hnew).ranked ha ?_ ?_
  · intro b hb hkey
    have hle := (hl.rank_mem hb).2
    have hnext := hnew.next a ha
    rw [hkey] at hle
    omega
  · intro b hb hkey
    rw [hnew.next a ha, hnew.next b hb, hkey]

end Latest
