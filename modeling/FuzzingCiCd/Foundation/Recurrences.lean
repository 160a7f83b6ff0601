import Mathlib.Algebra.Order.Group.Defs
import Mathlib.Data.List.Chain

/-!
# Recurring times

The times at which something recurs, with a search for the next one, and the polls that look for
them. A poll looks back over a window of a fixed length and takes the first time in it, so it takes
a time exactly when the window has no earlier one (`polled_eq_some`).

So it must come late enough for the earlier times to have left its window, and early enough for the
time itself to be in it. Polls that follow each other within less than a window take every time
between the first and the last of them if the times are a window apart: `exists_polled_of_spaced`.
-/

/-- The times of a recurrence; `next` is the least of them after a time, if there is one. -/
structure Recurrence (α : Type*) [LinearOrder α] where
  Occurs : α → Prop
  next : α → Option α
  next_eq_some : ∀ time found, next time = some found ↔
    Occurs found ∧ time < found ∧ ∀ other, Occurs other → time < other → found ≤ other

namespace Recurrence

section Polls

variable {α : Type*} [AddCommGroup α] [LinearOrder α] [IsOrderedAddMonoid α] (r : Recurrence α)
  (window : α)

/-- What a poll takes: the first time in the window before it. -/
def polled (now : α) : Option α := (r.next (now - window)).filter fun found ↦ found ≤ now

variable {r window} {now time : α}

theorem polled_eq_some : r.polled window now = some time ↔
    r.Occurs time ∧ time ≤ now ∧ now < time + window ∧
      ∀ other, r.Occurs other → other < time → other + window ≤ now := by
  rw [polled, Option.filter_eq_some_iff, r.next_eq_some, decide_eq_true_iff]
  constructor
  · rintro ⟨⟨hoccurs, hafter, hleast⟩, hnow⟩
    refine ⟨hoccurs, hnow, sub_lt_iff_lt_add.mp hafter, fun other hother hlt ↦ ?_⟩
    by_contra hlate
    exact (hleast other hother (sub_lt_iff_lt_add.mpr (not_le.mp hlate))).not_gt hlt
  · rintro ⟨hoccurs, hnow, hafter, hleast⟩
    refine ⟨⟨hoccurs, sub_lt_iff_lt_add.mpr hafter, fun other hother hlt ↦ ?_⟩, hnow⟩
    by_contra hless
    exact (hleast other hother (not_le.mp hless)).not_gt (sub_lt_iff_lt_add.mp hlt)

/-- Polls that follow each other within a gap: one of them comes at a time between the first and the
last or within the gap after it. -/
theorem exists_poll {first gap : α} {polls : List α} (hgap : gap < window) (hpos : 0 < window)
    (hchain : List.IsChain (fun earlier later ↦ later ≤ earlier + gap) (first :: polls))
    (hfirst : first ≤ time) (hlast : time ≤ (first :: polls).getLast (List.cons_ne_nil _ _)) :
    ∃ poll ∈ first :: polls, time ≤ poll ∧ poll < time + window := by
  induction polls generalizing first with
  | nil =>
    obtain rfl := le_antisymm hfirst hlast
    exact ⟨first, List.mem_cons_self, le_refl _, lt_add_of_pos_right first hpos⟩
  | cons second polls ih =>
    rw [List.isChain_cons_cons] at hchain
    rcases le_total second time with hsecond | hsecond
    · obtain ⟨poll, hpoll, hle, hlt⟩ := ih hchain.2 hsecond hlast
      exact ⟨poll, List.mem_cons_of_mem _ hpoll, hle, hlt⟩
    · exact ⟨second, List.mem_cons_of_mem _ List.mem_cons_self, hsecond,
        hchain.1.trans_lt (add_lt_add_of_le_of_lt hfirst hgap)⟩

/-- Times that are a window apart are all taken. -/
theorem exists_polled_of_spaced {first gap : α} {polls : List α} (hgap : gap < window)
    (hpos : 0 < window)
    (hchain : List.IsChain (fun earlier later ↦ later ≤ earlier + gap) (first :: polls))
    (hspaced : ∀ other, r.Occurs other → other < time → other + window ≤ time)
    (hoccurs : r.Occurs time) (hfirst : first ≤ time)
    (hlast : time ≤ (first :: polls).getLast (List.cons_ne_nil _ _)) :
    ∃ poll ∈ first :: polls, r.polled window poll = some time := by
  obtain ⟨poll, hpoll, hle, hlt⟩ := exists_poll hgap hpos hchain hfirst hlast
  exact ⟨poll, hpoll, polled_eq_some.mpr ⟨hoccurs, hle, hlt, fun other hother hbefore ↦
    (hspaced other hother hbefore).trans hle⟩⟩

end Polls

end Recurrence
