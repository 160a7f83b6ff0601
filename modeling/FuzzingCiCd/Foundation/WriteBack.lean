import Mathlib.Data.List.Induction
import Mathlib.Logic.Function.Basic

/-!
# Read, decide, write back

Transactions over one stored value that read it, decide on what they have read, and later write the
whole value back, with neither a lock nor a version check between. A transaction whose decision is
to write nothing commits without effect, and one that never commits has been rolled back.

Each transaction may respect some part of the value where that part is final, and yet a run of
several can lose it: a transaction that has read the value before the part became final writes back
what it has read. `absorbs_iff` says that nothing else goes wrong.

## Main results

* `part_access`: a transaction that is not overtaken leaves a final part alone.
* `absorbs_iff`: final parts are lost exactly where a transaction commits on a value that it has
  read before the part was final.
-/

namespace WriteBack

/-- What a transaction does with the value. -/
inductive Access (ι : Type*) where
  | read (i : ι)
  | commit (i : ι)
  deriving DecidableEq

/-- The committed value, and what the open transactions have read. -/
structure State (ι α : Type*) where
  committed : α
  snapshot : ι → Option α

/-- No transaction is open. -/
def State.initial {ι α : Type*} (a : α) : State ι α := ⟨a, fun _ ↦ none⟩

section Run

variable {ι α β : Type*} [DecidableEq ι] (write : ι → α → Option α)

/-- One access; `write i a` is what transaction `i` makes of the value `a` that it has read. -/
def access (s : State ι α) : Access ι → State ι α
  | .read i => { s with snapshot := Function.update s.snapshot i (some s.committed) }
  | .commit i =>
    ⟨((s.snapshot i).bind (write i)).getD s.committed, Function.update s.snapshot i none⟩

def run (s : State ι α) (accesses : List (Access ι)) : State ι α := accesses.foldl (access write) s

variable (part : α → β) (final : β → Prop) (exempt : ι → Prop)

/-- Once a final part is committed, it stays until an exempt transaction commits. -/
def Absorbs (s : State ι α) (accesses : List (Access ι)) : Prop :=
  ∀ earlier between, earlier ++ between <+: accesses →
    final (part (run write s earlier).committed) →
    (∀ i, Access.commit i ∈ between → ¬ exempt i) →
    part (run write s (earlier ++ between)).committed = part (run write s earlier).committed

/-- A final part has been committed since the transaction read the value, and the transaction
writes another one. -/
def Overtaken (s : State ι α) (i : ι) : Prop :=
  ∃ a ∈ s.snapshot i, ∃ b ∈ write i a,
    final (part s.committed) ∧ part a ≠ part s.committed ∧ part b ≠ part s.committed

/-- No transaction commits after it was overtaken. -/
def Timely (s : State ι α) (accesses : List (Access ι)) : Prop :=
  ∀ earlier i, earlier ++ [.commit i] <+: accesses → ¬ exempt i →
    ¬ Overtaken write part final (run write s earlier) i

variable {write part final exempt} {s : State ι α} {accesses : List (Access ι)}

theorem run_append (s : State ι α) (earlier later : List (Access ι)) :
    run write s (earlier ++ later) = run write (run write s earlier) later :=
  List.foldl_append ..

theorem run_concat (s : State ι α) (earlier : List (Access ι)) (a : Access ι) :
    run write s (earlier ++ [a]) = access write (run write s earlier) a :=
  run_append s earlier [a]

theorem committed_of_write {i : ι} {a b : α} (ha : s.snapshot i = some a)
    (hb : write i a = some b) :
    (access write s (.commit i)).committed = b := by
  rw [access, ha, Option.bind_some, hb, Option.getD_some]

/-- **One access.** A transaction that is not overtaken leaves a final part alone. -/
theorem part_access
    (hsolo : ∀ i, ¬ exempt i → ∀ a b, final (part a) → write i a = some b → part b = part a)
    (hfinal : final (part s.committed)) {acc : Access ι}
    (hcommit : ∀ i, acc = .commit i → ¬ exempt i ∧ ¬ Overtaken write part final s i) :
    part (access write s acc).committed = part s.committed := by
  rcases acc with i | i
  · rfl
  obtain ⟨hexempt, htimely⟩ := hcommit i rfl
  rcases ha : s.snapshot i with _ | a
  · rw [access, ha, Option.bind_none, Option.getD_none]
  rcases hb : write i a with _ | b
  · rw [access, ha, Option.bind_some, hb, Option.getD_none]
  rw [committed_of_write ha hb]
  by_contra hne
  refine htimely ⟨a, ha, b, hb, hfinal, fun heq ↦ ?_, hne⟩
  exact hne ((hsolo i hexempt a b (heq ▸ hfinal) hb).trans heq)

/-- **Absorption.** Where every transaction that runs alone leaves a final part alone, final parts
are lost exactly by transactions that commit after they were overtaken. -/
theorem absorbs_iff
    (hsolo : ∀ i, ¬ exempt i → ∀ a b, final (part a) → write i a = some b → part b = part a) :
    Absorbs write part final exempt s accesses ↔ Timely write part final exempt s accesses := by
  constructor
  · rintro habsorbs earlier i hpre hexempt ⟨a, ha, b, hb, hfinal, -, hne⟩
    have hsame := habsorbs earlier [.commit i] hpre hfinal fun j hj ↦ by
      obtain rfl := Access.commit.inj (List.mem_singleton.mp hj)
      exact hexempt
    rw [run_concat, committed_of_write ha hb] at hsame
    exact hne hsame
  · intro htimely earlier between hpre hfinal
    -- the accesses after the final part was committed, from the last one backwards
    induction between using List.reverseRecOn with
    | nil => exact fun _ ↦ congrArg (fun l ↦ part (run write s l).committed) (List.append_nil _)
    | append_singleton between acc ih =>
      intro hexempt
      rw [← List.append_assoc] at hpre ⊢
      have hsame := ih ((List.prefix_append _ _).trans hpre) fun i hi ↦
        hexempt i (List.mem_append_left _ hi)
      rw [run_concat, ← hsame]
      refine part_access hsolo (hsame.symm ▸ hfinal) fun i hacc ↦ ?_
      subst hacc
      have hi := hexempt i (List.mem_append_right _ List.mem_cons_self)
      exact ⟨hi, htimely _ i hpre hi⟩

end Run

end WriteBack
