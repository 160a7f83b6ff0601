import FuzzingCiCd.Foundation.Transition

/-!
# Redelivered operations

Operations may carry a key, and a consumer that remembers the keys it has handled makes nothing of
an operation whose key it knows. `replay_withoutCopies` is the induction behind it: if the memory
only grows, a success puts the key into it and a known key changes nothing, then the copies of
handled operations can be dropped from a run at any position.
-/

namespace Transition

variable {σ ι ε κ : Type*} [DecidableEq κ] (step : ι → σ → Except ε σ) (key : ι → Option κ)

/-- The run without the operations whose key one of the handled ones has. An operation that fails
is not handled. -/
def withoutCopies : σ → List κ → List ι → List ι
  | _, _, [] => []
  | s, handled, i :: is =>
    match key i with
    | none => i :: withoutCopies (apply step s i) handled is
    | some k =>
      if k ∈ handled then withoutCopies s handled is
      else i :: withoutCopies (apply step s i)
        (if (step i s).isOk then k :: handled else handled) is

variable {step key}

/-- **Redelivery.** Dropping the copies of handled operations does not change where a run ends. -/
theorem replay_withoutCopies (J : σ → Prop) (Seen : κ → σ → Prop)
    (hJ : ∀ s i t, J s → step i s = .ok t → J t)
    (hkeep : ∀ s i t, J s → step i s = .ok t → ∀ k, Seen k s → Seen k t)
    (hnew : ∀ s i t, J s → step i s = .ok t → ∀ k, key i = some k → Seen k t)
    (hcopy : ∀ s i k, key i = some k → Seen k s → apply step s i = s) {s : σ} {handled : List κ}
    (hs : J s) (hhandled : ∀ k ∈ handled, Seen k s) (is : List ι) :
    replay step s (withoutCopies step key s handled is) = replay step s is := by
  induction is generalizing s handled with
  | nil => rfl
  | cons i is ih =>
    have hnext : J (apply step s i) ∧ ∀ k ∈ handled, Seen k (apply step s i) := by
      rcases apply_cases step s i with ⟨t, ht, heq⟩ | heq
      · rw [heq]
        exact ⟨hJ s i t hs ht, fun k hk ↦ hkeep s i t hs ht k (hhandled k hk)⟩
      · rw [heq]
        exact ⟨hs, hhandled⟩
    rw [withoutCopies, replay_cons]
    cases hkey : key i with
    | none => exact ih hnext.1 hnext.2
    | some k =>
      dsimp only
      by_cases hk : k ∈ handled
      · -- the copy is dropped here and does nothing there
        rw [if_pos hk, hcopy s i k hkey (hhandled k hk)]
        exact ih hs hhandled
      · rw [if_neg hk, replay_cons]
        refine ih hnext.1 fun k' hk' ↦ ?_
        rcases hstep : step i s with e | t
        · rw [hstep] at hk'
          exact hnext.2 k' hk'
        · rw [hstep] at hk'
          rcases List.mem_cons.mp hk' with rfl | hold
          · rw [apply_of_ok hstep]
            exact hnew s i t hs hstep _ hkey
          · exact hnext.2 k' hold

end Transition
