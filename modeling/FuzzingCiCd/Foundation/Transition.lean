import Mathlib.Order.Basic

/-!
# Runs of a transactional step function

A service is a step function that answers every operation with a new state or an error. An error
rolls the transaction back, so running a list of operations is total: a failed one leaves the
state as it was. `replay` is such a run and `Along` says that every operation of it meets a
condition in the state it is applied to.

The one rule used about runs is `replay_invariant`. Its step hypothesis speaks of successful
operations only and may use the condition, which is how a property that holds for well-behaved
operations alone is carried over a whole run.

Such a function is written as a sequence of fallible computations; `bind_eq_ok` takes a successful
one apart.

## Main results

* `replay_invariant`: what every accepted operation preserves holds at the end of a run.
* `always_iff`: an invariant holds throughout a run exactly when every operation meets the condition
  that is exact for one of them.
* `replay_committed`, `replay_filter`: two step functions of which one refuses more than the other,
  and their runs.
-/

namespace Transition

/-- A sequence succeeds when its first computation and the rest do. -/
theorem bind_eq_ok.{u, v} {ε : Type u} {α β : Type v} {x : Except ε α}
    {f : α → Except ε β} {b : β} :
    (x >>= f) = .ok b ↔ ∃ a, x = .ok a ∧ f a = .ok b := by
  cases x with
  | error e => simp [bind, Except.bind]
  | ok a => simp [bind, Except.bind]

/-- A sequence whose first computation succeeds is the rest. -/
theorem ok_bind.{u, v} {ε : Type u} {α β : Type v} (a : α) (f : α → Except ε β) :
    (Except.ok a >>= f) = f a := by
  simp only [bind, Except.bind]

theorem ite_bind_eq_ok.{u, v} {ε : Type u} {α β : Type v} {p : Prop} [Decidable p] {a : α} {e : ε}
    {f : α → Except ε β} {b : β} :
    ((if p then .ok a else .error e) >>= f) = .ok b ↔ p ∧ f a = .ok b := by
  by_cases h : p
  · rw [if_pos h, ok_bind, and_iff_right h]
  · rw [if_neg h]
    exact iff_of_false nofun fun hand ↦ h hand.1

theorem forM_eq_ok {α ε : Type} {f : α → Except ε Unit} {l : List α} :
    l.forM f = .ok () ↔ ∀ a ∈ l, f a = .ok () := by
  induction l with
  | nil => exact iff_of_true rfl (by simp)
  | cons a l ih =>
    have hcons : (a :: l).forM f = (f a >>= fun _ ↦ l.forM f) := rfl
    rw [hcons, List.forall_mem_cons, ← ih, bind_eq_ok]
    constructor
    · rintro ⟨⟨⟩, hfirst, hrest⟩
      exact ⟨hfirst, hrest⟩
    · rintro ⟨hfirst, hrest⟩
      exact ⟨(), hfirst, hrest⟩

variable {σ ι ε : Type*} (step : ι → σ → Except ε σ)

/-- One operation, rolled back if it fails. -/
def apply (s : σ) (i : ι) : σ :=
  match step i s with
  | .ok t => t
  | .error _ => s

/-- A run: the operations one after the other. -/
def replay (s : σ) (is : List ι) : σ := is.foldl (apply step) s

/-- Every operation of the run from `s` meets the condition in the state it is applied to. -/
def Along (ok : σ → ι → Prop) : σ → List ι → Prop
  | _, [] => True
  | s, i :: is => ok s i ∧ Along ok (apply step s i) is

instance decidableAlong (ok : σ → ι → Prop) [∀ s i, Decidable (ok s i)] :
    ∀ (s : σ) (is : List ι), Decidable (Along step ok s is)
  | _, [] => .isTrue trivial
  | s, i :: is =>
    have := decidableAlong ok (apply step s i) is
    inferInstanceAs (Decidable (ok s i ∧ Along step ok (apply step s i) is))

variable {step}

theorem apply_of_ok {s t : σ} {i : ι} (h : step i s = .ok t) : apply step s i = t := by
  rw [apply, h]

theorem apply_of_error {s : σ} {i : ι} {e : ε} (h : step i s = .error e) :
    apply step s i = s := by
  rw [apply, h]

theorem apply_cases (step : ι → σ → Except ε σ) (s : σ) (i : ι) :
    (∃ t, step i s = .ok t ∧ apply step s i = t) ∨ apply step s i = s := by
  cases h : step i s with
  | ok t => exact Or.inl ⟨t, rfl, apply_of_ok h⟩
  | error e => exact Or.inr (apply_of_error h)

@[simp] theorem replay_nil (s : σ) : replay step s [] = s := rfl

@[simp] theorem replay_cons (s : σ) (i : ι) (is : List ι) :
    replay step s (i :: is) = replay step (apply step s i) is := rfl

theorem replay_append (s : σ) (is js : List ι) :
    replay step s (is ++ js) = replay step (replay step s is) js :=
  List.foldl_append ..

theorem replay_concat (s : σ) (is : List ι) (i : ι) :
    replay step s (is ++ [i]) = apply step (replay step s is) i :=
  replay_append s is [i]

/-- Every operation of a run is applied at the end of what came before it. -/
theorem along_iff {ok : σ → ι → Prop} {s : σ} {is : List ι} :
    Along step ok s is ↔ ∀ js i, js ++ [i] <+: is → ok (replay step s js) i := by
  induction is generalizing s with
  | nil =>
    refine iff_of_true trivial fun js i h ↦ ?_
    exact absurd (List.prefix_nil.mp h) (by simp)
  | cons i is ih =>
    rw [Along, ih]
    constructor
    · rintro ⟨hi, his⟩ js j h
      rcases js with _ | ⟨k, js⟩
      · rw [List.nil_append, List.cons_prefix_cons] at h
        obtain ⟨rfl, -⟩ := h
        exact hi
      · rw [List.cons_append, List.cons_prefix_cons] at h
        obtain ⟨rfl, h⟩ := h
        exact his js j h
    · intro h
      refine ⟨h [] i (by simp), fun js j hjs ↦ ?_⟩
      exact h (i :: js) j (List.cons_prefix_cons.mpr ⟨rfl, hjs⟩)

theorem Along.mono {ok ok' : σ → ι → Prop} (h : ∀ s i, ok s i → ok' s i) {s : σ} {is : List ι}
    (hrun : Along step ok s is) : Along step ok' s is := by
  induction is generalizing s with
  | nil => trivial
  | cons i is ih => exact ⟨h s i hrun.1, ih hrun.2⟩

/-- Two conditions that agree wherever an invariant holds agree along a run that starts there, if
the operations that meet them keep the invariant. -/
theorem along_congr {ok ok' timely : σ → ι → Prop} {J : σ → Prop}
    (hJ : ∀ s i, J s → ok' s i → timely s i → J (apply step s i))
    (hiff : ∀ s i, J s → timely s i → (ok s i ↔ ok' s i)) {s : σ} {is : List ι} (hs : J s)
    (htimely : Along step timely s is) : Along step ok s is ↔ Along step ok' s is := by
  induction is generalizing s with
  | nil => exact Iff.rfl
  | cons i is ih =>
    rw [Along, Along, hiff s i hs htimely.1]
    exact and_congr_right fun hok ↦ ih (hJ s i hs hok htimely.1) htimely.2

/-- **The invariant rule.** What every successful operation that meets the condition preserves
holds at the end of every run whose operations meet it. -/
theorem replay_invariant {ok : σ → ι → Prop} {I : σ → Prop}
    (hstep : ∀ s i t, I s → ok s i → step i s = .ok t → I t) {s : σ} {is : List ι}
    (hs : I s) (hrun : Along step ok s is) : I (replay step s is) := by
  induction is generalizing s with
  | nil => exact hs
  | cons i is ih =>
    refine ih ?_ hrun.2
    rcases apply_cases step s i with ⟨t, ht, heq⟩ | heq
    · rw [heq]
      exact hstep s i t hs hrun.1 ht
    · rw [heq]
      exact hs

theorem along_true (s : σ) (is : List ι) : Along step (fun _ _ ↦ True) s is := by
  induction is generalizing s with
  | nil => trivial
  | cons i is ih => exact ⟨trivial, ih _⟩

theorem replay_invariant' {I : σ → Prop} (hstep : ∀ s i t, I s → step i s = .ok t → I t) {s : σ}
    (is : List ι) (hs : I s) : I (replay step s is) :=
  replay_invariant (fun s i t h _ ht ↦ hstep s i t h ht) hs (along_true s is)

/-- **The exact rule.** Suppose that, under an invariant `J`, an operation keeps `I` exactly when it
meets the condition. Then `I` holds throughout a run exactly when all operations meet it. -/
theorem always_iff {ok : σ → ι → Prop} {I J : σ → Prop}
    (hJ : ∀ s i t, J s → step i s = .ok t → J t)
    (hstep : ∀ s i t, J s → I s → step i s = .ok t → (ok s i ↔ I t))
    (herror : ∀ s i e, step i s = .error e → ok s i) {s : σ} {is : List ι} (hJs : J s)
    (hIs : I s) : (∀ js, js <+: is → I (replay step s js)) ↔ Along step ok s is := by
  induction is generalizing s with
  | nil =>
    refine ⟨fun _ ↦ trivial, fun _ js hjs ↦ ?_⟩
    rw [List.prefix_nil.mp hjs]
    exact hIs
  | cons i is ih =>
    have hnext : J (apply step s i) ∧ (ok s i ↔ I (apply step s i)) := by
      cases h : step i s with
      | ok t =>
        rw [apply_of_ok h]
        exact ⟨hJ s i t hJs h, hstep s i t hJs hIs h⟩
      | error e =>
        rw [apply_of_error h]
        exact ⟨hJs, fun _ ↦ hIs, fun _ ↦ herror s i e h⟩
    obtain ⟨hJt, hiff⟩ := hnext
    constructor
    · intro h
      have hIt : I (apply step s i) := by simpa using h [i] (by simp)
      refine ⟨hiff.mpr hIt, (ih hJt hIt).mp fun js hjs ↦ ?_⟩
      exact h (i :: js) (List.cons_prefix_cons.mpr ⟨rfl, hjs⟩)
    · rintro ⟨hok, hrest⟩ js hjs
      have hIt := hiff.mp hok
      rcases js with _ | ⟨j, js⟩
      · exact hIs
      · rw [List.cons_prefix_cons] at hjs
        obtain ⟨rfl, hjs⟩ := hjs
        exact (ih hJt hIt).mpr hrest js hjs

/-! ## Restricted step functions

A second step function on the same states that does less than the first: it refuses operations that
the first accepts. Where it accepts one the two agree, so that a run of the second is a run of the
first over the accepted operations. -/

section Restricted

variable {ε' κ : Type*} {step' : κ → σ → Except ε' σ} {f : κ → ι}

/-- The operations of a run that succeed, in order. -/
def committed (step : ι → σ → Except ε σ) : σ → List ι → List ι
  | _, [] => []
  | s, i :: is =>
    match step i s with
    | .ok t => i :: committed step t is
    | .error _ => committed step s is

/-- **The restriction rule.** Where the second step function accepts, the first does the same. Then
a run of the second is the run of the first over what it accepts. -/
theorem replay_committed {J : σ → Prop} (hJ : ∀ s k t, J s → step' k s = .ok t → J t)
    (hsub : ∀ s k t, J s → step' k s = .ok t → step (f k) s = .ok t) {s : σ} (hs : J s)
    (ks : List κ) : replay step' s ks = replay step s ((committed step' s ks).map f) := by
  induction ks generalizing s with
  | nil => rfl
  | cons k ks ih =>
    rw [replay_cons, committed]
    cases h : step' k s with
    | ok t =>
      rw [apply_of_ok h, List.map_cons, replay_cons, apply_of_ok (hsub s k t hs h),
        ih (hJ s k t hs h)]
    | error e => rw [apply_of_error h, ih hs]

/-- **The filter rule.** If a test on the operations alone says which of them the second step
function refuses, and it does the same as the first with the others, then a run of the second is the
run of the first over the operations that pass. -/
theorem replay_filter {J : σ → Prop} {p : κ → Bool} {ks : List κ}
    (hstep : ∀ s, J s → ∀ k ∈ ks, J (apply step' s k) ∧
      apply step' s k = if p k then apply step s (f k) else s) {s : σ} (hs : J s) :
    replay step' s ks = replay step s ((ks.filter p).map f) := by
  induction ks generalizing s with
  | nil => rfl
  | cons k ks ih =>
    obtain ⟨hnext, happly⟩ := hstep s hs k List.mem_cons_self
    have hrest := ih (fun s hs k hk ↦ hstep s hs k (List.mem_cons_of_mem _ hk)) hnext
    rw [replay_cons, hrest, happly]
    by_cases hp : p k = true
    · rw [if_pos hp, List.filter_cons_of_pos hp, List.map_cons, replay_cons]
    · rw [if_neg hp, List.filter_cons_of_neg hp]

end Restricted

end Transition
