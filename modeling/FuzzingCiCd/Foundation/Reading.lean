import Mathlib.Data.List.Basic

/-!
# Following the cursors of a paged answer

A service answers a request with some items and, unless it has no more, a cursor to ask on with.
`Reads` is the course of a reader who asks until there is no cursor: a derivation of it is finite,
so that it says at once that the reading ends and what it returns.

How much a service can return is bounded by what lies behind its cursors. Where no answer exceeds
that bound, a reading reaches it exactly when every single answer leaves nothing out:
`reads_next_iff`.

## Main results

* `Reads.sublist`: what a reading returns is bounded by what lies behind its cursor.
* `reads_next_iff`: a reading is complete exactly when every answer leaves nothing out.
* `pageEnds_append`, `shortGaps_append`: what the pages of a list are told apart by, page by page.
-/

namespace Reading

variable {ι α ε : Type*}

/-- Asking from a cursor on, until there is none, returns these items. -/
inductive Reads (answer : Option ι → Except ε (List α × Option ι)) : Option ι → List α → Prop where
  | last {cursor : Option ι} {items : List α} (hanswer : answer cursor = .ok (items, none)) :
      Reads answer cursor items
  | next {cursor : Option ι} {items later : List α} {following : ι}
      (hanswer : answer cursor = .ok (items, some following))
      (hlater : Reads answer (some following) later) : Reads answer cursor (items ++ later)

variable {answer : Option ι → Except ε (List α × Option ι)} {cursor : Option ι}
  {items all later : List α} {following : ι}

theorem reads_last_iff (hanswer : answer cursor = .ok (items, none)) :
    Reads answer cursor all ↔ items = all := by
  constructor
  · rintro (⟨h⟩ | ⟨h, -⟩)
    · exact (Prod.mk.inj (Except.ok.inj (hanswer.symm.trans h))).1
    · cases (Prod.mk.inj (Except.ok.inj (hanswer.symm.trans h))).2
  · rintro rfl
    exact .last hanswer

/-- **The bound.** Let `Behind` say which items may still come, such that no answer returns others,
more of them or in another order. Then no reading does. -/
theorem Reads.sublist {Behind : Option ι → List α → Prop}
    (hlast : ∀ cursor items all, Behind cursor all → answer cursor = .ok (items, none) →
      items.Sublist all)
    (hnext : ∀ cursor items following all, Behind cursor all →
      answer cursor = .ok (items, some following) →
        ∃ later, Behind (some following) later ∧ (items ++ later).Sublist all)
    (h : Reads answer cursor items) (hbehind : Behind cursor all) : items.Sublist all := by
  induction h generalizing all with
  | last hanswer => exact hlast _ _ _ hbehind hanswer
  | next hanswer _ ih =>
    obtain ⟨later, hlater, hsublist⟩ := hnext _ _ _ _ hbehind hanswer
    exact ((ih hlater).append_left _).trans hsublist

/-- **Exactness.** A reading that continues returns everything exactly when the first answer leaves
nothing out and the rest of the reading returns everything that lies behind its cursor. -/
theorem reads_next_iff (hanswer : answer cursor = .ok (items, some following))
    (hsublist : (items ++ later).Sublist all)
    (hbound : ∀ out, Reads answer (some following) out → out.Sublist later) :
    Reads answer cursor all ↔ items ++ later = all ∧ Reads answer (some following) later := by
  constructor
  · rintro (⟨h⟩ | ⟨h, hout⟩)
    · cases (Prod.mk.inj (Except.ok.inj (hanswer.symm.trans h))).2
    · rename_i items' out following'
      obtain ⟨rfl, hfollowing⟩ := Prod.mk.inj (Except.ok.inj (hanswer.symm.trans h))
      obtain rfl := Option.some.inj hfollowing
      -- what is returned lies between what can be returned and what there is
      have hle := hbound out hout
      have hall : items ++ later = items ++ out :=
        hsublist.antisymm (hle.append_left items)
      obtain rfl := List.append_cancel_left hall
      exact ⟨rfl, hout⟩
  · rintro ⟨rfl, hlater⟩
    exact .next hanswer hlater

/-! ## Page ends -/

section PageEnds

/-- Elements on both sides of the end of a page are related, for pages of one size. -/
def PageEnds (R : α → α → Prop) (size : ℕ) (l : List α) : Prop :=
  ∀ k, 0 < k → ∀ last ∈ l[k * size - 1]?, ∀ next ∈ l[k * size]?, R last next

variable {R : α → α → Prop} {size : ℕ} {page tail l : List α} {last next : α}

theorem exists_pageEnd (hpos : 0 < size) (h : size < l.length) :
    ∃ page last next tail, (page ++ [last]).length = size ∧ l = page ++ [last] ++ next :: tail := by
  rcases List.eq_nil_or_concat (l.take size) with hnil | ⟨page, last, hpage⟩
  · have hlength := congrArg List.length hnil
    rw [List.length_take, List.length_nil] at hlength
    omega
  rcases hrest : l.drop size with _ | ⟨next, tail⟩
  · have hlength := congrArg List.length hrest
    rw [List.length_drop, List.length_nil] at hlength
    omega
  rw [List.concat_eq_append] at hpage
  refine ⟨page, last, next, tail, ?_, ?_⟩
  · rw [← hpage, List.length_take]
    omega
  · rw [← hpage, ← hrest, List.take_append_drop]

/-- A list that fits a page has no page end. -/
theorem pageEnds_of_le (h : l.length ≤ size) : PageEnds R size l := by
  intro k hk last _ next hnext
  have hle : size ≤ k * size := Nat.le_mul_of_pos_left size hk
  rw [List.getElem?_eq_none (Nat.le_trans h hle)] at hnext
  cases hnext

/-- **The page ends of a list** are the first one and those of what follows. -/
theorem pageEnds_append (hsize : (page ++ [last]).length = size) :
    PageEnds R size (page ++ [last] ++ next :: tail) ↔
      R last next ∧ PageEnds R size (next :: tail) := by
  have hpos : 0 < size := by
    rw [← hsize, List.length_append]
    exact Nat.succ_pos _
  have hlast : (page ++ [last] ++ next :: tail)[size - 1]? = some last := by
    rw [List.append_assoc, List.getElem?_append_right (by simp at hsize; omega)]
    have : size - 1 - page.length = 0 := by simp at hsize; omega
    rw [this]
    rfl
  have hshift : ∀ i, (page ++ [last] ++ next :: tail)[size + i]? = (next :: tail)[i]? := by
    intro i
    rw [List.getElem?_append_right (by omega), hsize, Nat.add_sub_cancel_left]
  constructor
  · intro h
    refine ⟨h 1 Nat.one_pos last ?_ next ?_, fun k hk last' hlast' next' hnext' ↦ ?_⟩
    · rw [Nat.one_mul]
      exact hlast
    · rw [Nat.one_mul, ← Nat.add_zero size, hshift]
      rfl
    · have hk' : size ≤ k * size := Nat.le_mul_of_pos_left size hk
      refine h (k + 1) (Nat.succ_pos k) last' ?_ next' ?_
      · have : (k + 1) * size - 1 = size + (k * size - 1) := by
          rw [Nat.add_mul, Nat.one_mul]
          omega
        rw [this, hshift]
        exact hlast'
      · rw [Nat.add_mul, Nat.one_mul, Nat.add_comm, hshift]
        exact hnext'
  · rintro ⟨hfirst, hrest⟩ k hk last' hlast' next' hnext'
    -- the first end is that of `page`, each later one is an end of the rest, a page earlier
    obtain ⟨k, rfl⟩ : ∃ j, k = j + 1 := ⟨k - 1, by omega⟩
    rw [Nat.add_mul, Nat.one_mul] at hlast' hnext'
    rcases Nat.eq_zero_or_pos k with rfl | hk
    · rw [Nat.zero_mul, Nat.zero_add, hlast] at hlast'
      rw [Nat.zero_mul, Nat.zero_add, ← Nat.add_zero size, hshift] at hnext'
      obtain rfl := Option.some.inj hlast'
      obtain rfl := Option.some.inj hnext'
      exact hfirst
    · have hk' : size ≤ k * size := Nat.le_mul_of_pos_left size hk
      refine hrest k hk last' ?_ next' ?_
      · rw [← hshift]
        have : size + (k * size - 1) = k * size + size - 1 := by omega
        rw [this]
        exact hlast'
      · rw [← hshift, Nat.add_comm]
        exact hnext'

end PageEnds

/-! ## Gaps

Where a page counts elements of which only some are returned, what matters is how many of the
others come in a row. -/

section Gaps

/-- Before an element with the property come fewer without it, in a row, than a page has. -/
def ShortGaps (p : α → Bool) (size : ℕ) (l : List α) : Prop :=
  ∀ before gap next after, l = before ++ gap ++ next :: after → p next = true →
    (∀ x ∈ gap, p x = false) → gap.length < size

variable {p : α → Bool} {size : ℕ} {page rest l : List α} {last : α}

/-- A page without the property is followed by no element with it, if the gaps are short. -/
theorem shortGaps_iff_of_page (h : ∀ x ∈ l.take size, p x = false) :
    ShortGaps p size l ↔ ∀ x ∈ l, p x = false := by
  constructor
  · intro hgaps
    rcases hfirst : l.find? p with _ | first
    · intro x hx
      exact Bool.eq_false_iff.mpr (List.find?_eq_none.mp hfirst x hx)
    obtain ⟨hp, gap, after, rfl, hgap⟩ := List.find?_eq_some_iff_append.mp hfirst
    have hlt := hgaps [] gap first after (by rw [List.nil_append]) hp fun x hx ↦ by
      simpa using hgap x hx
    -- the first element with the property would be on the page
    rw [h first] at hp
    · cases hp
    · rw [List.take_append, List.take_of_length_le (Nat.le_of_lt hlt)]
      refine List.mem_append_right _ ?_
      rw [List.mem_take_iff_getElem]
      exact ⟨0, by simp; omega, rfl⟩
  · rintro hnone before gap next after rfl hnext -
    rw [hnone next (by simp)] at hnext
    cases hnext

/-- **A page with an element that has the property** leaves only what comes after the last one. -/
theorem shortGaps_append (hlength : page.length < size) (hlast : p last = true) :
    ShortGaps p size (page ++ last :: rest) ↔ ShortGaps p size rest := by
  constructor
  · rintro h before gap next after rfl
    exact h (page ++ last :: before) gap next after (by simp)
  · intro h before gap next after hl hnext hgap
    have hnot : last ∉ gap := fun hmem ↦ by
      rw [hgap last hmem] at hlast
      cases hlast
    rcases List.append_eq_append_iff.mp hl with ⟨u, hu, hrest⟩ | ⟨u, rfl, -⟩
    · rcases List.cons_eq_append_iff.mp hrest with ⟨rfl, -⟩ | ⟨u, rfl, rfl⟩
      · rw [List.append_nil] at hu
        have hle := congrArg List.length hu
        rw [List.length_append] at hle
        omega
      -- the gap lies behind the element, since it does not contain it
      rcases List.append_eq_append_iff.mp hu.symm with ⟨v, rfl, hv⟩ | ⟨v, -, rfl⟩
      · rcases List.cons_eq_append_iff.mp hv with ⟨rfl, rfl⟩ | ⟨v, rfl, rfl⟩
        · exact absurd List.mem_cons_self hnot
        · exact h v gap next after rfl hnext hgap
      · exact absurd (List.mem_append_right _ List.mem_cons_self) hnot
    · rw [List.length_append, List.length_append] at hlength
      omega

theorem exists_of_getLast?_filter (h : (l.filter p).getLast? = some last) :
    p last = true ∧ ∃ before after, l = before ++ last :: after ∧ ∀ x ∈ after, p x = false := by
  rw [List.getLast?_filter, List.find?_eq_some_iff_append] at h
  obtain ⟨hlast, after, before, hl, hafter⟩ := h
  refine ⟨hlast, before.reverse, after.reverse, ?_, fun x hx ↦ ?_⟩
  · rw [← List.reverse_reverse l, hl]
    simp
  · simpa using hafter x (List.mem_reverse.mp hx)

end Gaps

/-- In a list along which a property, once it holds, holds on, the elements with it are a suffix. -/
theorem filter_suffix {p : α → Bool} {l : List α}
    (h : l.Pairwise fun a b ↦ p a = true → p b = true) : l.filter p <:+ l := by
  induction l with
  | nil => exact List.suffix_rfl
  | cons a l ih =>
    rw [List.pairwise_cons] at h
    rw [List.filter_cons]
    split
    · rename_i ha
      have hrest : l.filter p = l := List.filter_eq_self.mpr fun b hb ↦ h.1 b hb ha
      exact ⟨[], congrArg (a :: ·) hrest⟩
    · exact (ih h.2).trans (List.suffix_cons a l)

end Reading
