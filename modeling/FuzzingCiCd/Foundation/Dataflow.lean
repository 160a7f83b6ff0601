import Mathlib.Data.Set.Basic

/-!
# Tasks that wait for results

A plan names tasks and, for each of them, the other tasks that it waits for and the results of
these that it accepts. A task may start when everything it waits for has a result that it accepts.
What its own result is the plan does not say.

A list of tasks is *grounded* if every one of them could start after the ones before it, and
*complete* if no other task could start. Many lists are both, since tasks that are ready together
may be started in any order and finish in any order. They all have the same members: the tasks in
`Starts`, which is defined from the results alone (`mem_iff_starts`). Two complete lists can differ
only where a task had different results (`confluent`).

## Main results

* `Grounded.induction`: what every task passes on to those that it makes ready holds of a whole
  grounded list.
* `mem_iff_starts`: the members of a grounded and complete list, from the results alone.
* `confluent`: two complete lists have the same members where the results agree.
-/

namespace Dataflow

universe u v

/-- Tasks, and what they wait for. -/
structure Plan (J : Type u) (S : Type v) where
  tasks : Set J
  /-- A task waits for another one and accepts some of its results. -/
  Needs : J → J → Set S → Prop

variable {J : Type u} {S : Type v} {plan : Plan J S} {result result' : J → S} {l l' : List J}

/-- The tasks that can be started if tasks have these results. -/
inductive Starts (plan : Plan J S) (result : J → S) : J → Prop where
  | intro {j : J} (htask : j ∈ plan.tasks)
      (hneeds : ∀ k accepted, plan.Needs j k accepted → Starts plan result k)
      (haccepted : ∀ k accepted, plan.Needs j k accepted → result k ∈ accepted) :
      Starts plan result j

/-- The task can start after these ones. -/
def Ready (plan : Plan J S) (result : J → S) (done : List J) (j : J) : Prop :=
  j ∈ plan.tasks ∧ ∀ k accepted, plan.Needs j k accepted → k ∈ done ∧ result k ∈ accepted

/-- Every task of the list could start after the ones before it. -/
def Grounded (plan : Plan J S) (result : J → S) (l : List J) : Prop :=
  ∀ pre j post, l = pre ++ j :: post → Ready plan result pre j

/-- No other task can start. -/
def Complete (plan : Plan J S) (result : J → S) (l : List J) : Prop :=
  ∀ j, Ready plan result l j → j ∈ l

theorem grounded_nil : Grounded plan result [] := fun pre j post h ↦ absurd h.symm (by simp)

theorem Ready.mono {done done' : List J} {j : J} (h : Ready plan result done j)
    (hsub : ∀ k ∈ done, k ∈ done') : Ready plan result done' j :=
  ⟨h.1, fun k accepted hk ↦ ⟨hsub k (h.2 k accepted hk).1, (h.2 k accepted hk).2⟩⟩

theorem Ready.congr {done : List J} {j : J} (h : Ready plan result done j)
    (heq : ∀ k accepted, plan.Needs j k accepted → result k ∈ accepted → result' k ∈ accepted) :
    Ready plan result' done j :=
  ⟨h.1, fun k accepted hk ↦ ⟨(h.2 k accepted hk).1, heq k accepted hk (h.2 k accepted hk).2⟩⟩

/-- Tasks that can all start after the list may be added to it. -/
theorem Grounded.append (h : Grounded plan result l)
    (hready : ∀ j ∈ l', Ready plan result l j) : Grounded plan result (l ++ l') := by
  intro pre j post hsplit
  rcases List.append_eq_append_iff.mp hsplit with ⟨mid, rfl, hrest⟩ | ⟨mid, rfl, hrest⟩
  · have hmem : j ∈ l' := hrest ▸ List.mem_append_right _ List.mem_cons_self
    exact (hready j hmem).mono fun k hk ↦ List.mem_append_left _ hk
  · rcases mid with _ | ⟨k, mid⟩
    · have hmem : j ∈ l' := by
        rw [List.nil_append] at hrest
        exact hrest ▸ List.mem_cons_self
      exact (hready j hmem).mono fun k hk ↦ by simpa using hk
    · obtain ⟨rfl, -⟩ := List.cons.inj hrest
      exact h pre j mid rfl

/-- The results only count where they have been accepted. -/
theorem Grounded.congr (h : Grounded plan result l)
    (heq : ∀ j ∈ l, ∀ k accepted, plan.Needs j k accepted → result k ∈ accepted →
      result' k ∈ accepted) : Grounded plan result' l := fun pre j post hsplit ↦
  (h pre j post hsplit).congr (heq j (hsplit ▸ List.mem_append_right _ List.mem_cons_self))

/-- **Induction along a grounded list.** -/
theorem Grounded.induction {motive : J → Prop} (h : Grounded plan result l)
    (hstep : ∀ pre j post, l = pre ++ j :: post → (∀ k ∈ pre, motive k) →
      Ready plan result pre j → motive j) : ∀ j ∈ l, motive j := by
  have hprefix : ∀ n, ∀ j ∈ l.take n, motive j := by
    intro n
    induction n with
    | zero => simp
    | succ n ih =>
      intro j hj
      by_cases hn : n < l.length
      · rw [List.take_add_one, List.getElem?_eq_getElem hn, Option.toList_some] at hj
        rcases List.mem_append.mp hj with hj | hj
        · exact ih j hj
        · obtain rfl := List.mem_singleton.mp hj
          have hsplit : l = l.take n ++ l[n] :: l.drop (n + 1) := by simp
          exact hstep _ _ _ hsplit ih (h _ _ _ hsplit)
      · rw [List.take_of_length_le (by omega)] at hj
        exact ih j (by rwa [List.take_of_length_le (by omega)])
  intro j hj
  exact hprefix l.length j (by rwa [List.take_length])

/-- **The members.** All grounded and complete lists have the same ones. -/
theorem mem_iff_starts (h : Grounded plan result l) (hcomplete : Complete plan result l) (j : J) :
    j ∈ l ↔ Starts plan result j := by
  constructor
  · refine h.induction (motive := Starts plan result) (fun pre j post _ ih hready ↦ ?_) j
    exact .intro hready.1 (fun k accepted hk ↦ ih k (hready.2 k accepted hk).1)
      fun k accepted hk ↦ (hready.2 k accepted hk).2
  · intro hstarts
    induction hstarts with
    | intro htask _ haccepted ih =>
      exact hcomplete _ ⟨htask, fun k accepted hk ↦ ⟨ih k accepted hk, haccepted k accepted hk⟩⟩

/-- **Confluence.** A task of a grounded list is in every complete list in which the tasks that both
have started had the same results. -/
theorem confluent (h : Grounded plan result l) (hcomplete : Complete plan result' l')
    (hagree : ∀ j ∈ l, j ∈ l' → result j = result' j) : ∀ j ∈ l, j ∈ l' := by
  refine h.induction (motive := (· ∈ l')) fun pre j post hsplit ih hready ↦ ?_
  refine hcomplete j ⟨hready.1, fun k accepted hk ↦ ?_⟩
  obtain ⟨hpre, haccepted⟩ := hready.2 k accepted hk
  have hmem : k ∈ l := hsplit ▸ List.mem_append_left _ hpre
  exact ⟨ih k hpre, hagree k hmem (ih k hpre) ▸ haccepted⟩

end Dataflow
