import Mathlib.Data.List.Basic
import Mathlib.Order.Basic

/-!
# Runs of commands

A machine runs a list of commands, one after the other. A command has an effect on the state,
unless the machine stops at it for good. `after` is the state that the effects lead to and `run` the
run itself, which has no state any more once the machine has stopped.

A run stops at the first command for which the machine stops, in the state that the commands before
it lead to (`run_eq_none_iff`). What the state knows of the past is read off the commands:

* a flag is up when a command has raised it, in the state that it then met (`flag_after`);
* a field that only some commands write holds what the last of them wrote (`field_after`);
* a number that a command makes larger by one at the most is no larger than the number of these
  commands (`measure_after_le`).
-/

namespace Commands

variable {ι σ : Type*}

/-- The state after the commands, if the machine does not stop. -/
def after (effect : ι → σ → σ) (p : List ι) (s : σ) : σ := p.foldl (fun s c ↦ effect c s) s

/-- A single command. -/
def step (effect : ι → σ → σ) (stops : ι → σ → Bool) (c : ι) (s : σ) : Option σ :=
  if stops c s then none else some (effect c s)

def run (effect : ι → σ → σ) (stops : ι → σ → Bool) : List ι → σ → Option σ
  | [], s => some s
  | c :: p, s => (step effect stops c s).bind (run effect stops p)

variable {effect : ι → σ → σ} {stops : ι → σ → Bool} {p : List ι} {s : σ}

@[simp] theorem after_nil : after effect [] s = s := rfl

@[simp] theorem after_cons (c : ι) : after effect (c :: p) s = after effect p (effect c s) := rfl

/-- The run is the effects of the commands, as long as the machine stops at none of them. -/
theorem run_eq_some_iff {t : σ} : run effect stops p s = some t ↔
    t = after effect p s ∧
      ∀ pre c post, p = pre ++ c :: post → stops c (after effect pre s) = false := by
  induction p generalizing s with
  | nil =>
    rw [run, Option.some_inj, after_nil, eq_comm]
    exact (and_iff_left fun pre c post h ↦ absurd h.symm (by simp)).symm
  | cons d p ih =>
    rw [run, step, after_cons]
    split
    · rename_i hstop
      refine ⟨fun h ↦ absurd h (by simp), fun h ↦ ?_⟩
      have hgo := h.2 [] d p rfl
      rw [after_nil, hstop] at hgo
      cases hgo
    · rename_i hgo
      rw [Option.bind_some, ih]
      refine and_congr_right fun _ ↦ ⟨fun h pre c post hp ↦ ?_, fun h pre c post hp ↦ ?_⟩
      · rcases pre with _ | ⟨e, pre⟩
        · obtain ⟨rfl, rfl⟩ := List.cons.inj hp
          simpa using hgo
        · obtain ⟨rfl, rfl⟩ := List.cons.inj hp
          exact h pre c post rfl
      · exact h (d :: pre) c post (by rw [hp, List.cons_append])

/-- **Where a run stops.** At the first command for which the machine stops, if there is one. -/
theorem run_eq_none_iff : run effect stops p s = none ↔
    ∃ pre c post, p = pre ++ c :: post ∧ stops c (after effect pre s) = true := by
  constructor
  · intro h
    by_contra hgo
    push Not at hgo
    have hsome : run effect stops p s = some (after effect p s) :=
      run_eq_some_iff.mpr ⟨rfl, fun pre c post hp ↦ by simpa using hgo pre c post hp⟩
    rw [hsome] at h
    cases h
  · rintro ⟨pre, c, post, hp, hstop⟩
    rw [Option.eq_none_iff_forall_ne_some]
    intro t ht
    rw [(run_eq_some_iff.mp ht).2 pre c post hp] at hstop
    cases hstop

/-! ## What the state knows of the past -/

/-- **Flags.** A flag that is never taken down is up because of a command of the past. -/
theorem flag_after (flag : σ → Prop) {raises : ι → σ → Prop}
    (h : ∀ c s, flag (effect c s) ↔ flag s ∨ raises c s) : flag (after effect p s) ↔
      flag s ∨ ∃ pre c post, p = pre ++ c :: post ∧ raises c (after effect pre s) := by
  induction p generalizing s with
  | nil => simp
  | cons d p ih =>
    rw [after_cons, ih, h, or_assoc]
    refine or_congr_right ⟨?_, ?_⟩
    · rintro (hraise | ⟨pre, c, post, rfl, hraise⟩)
      · exact ⟨[], d, p, rfl, hraise⟩
      · exact ⟨d :: pre, c, post, rfl, hraise⟩
    · rintro ⟨pre, c, post, hp, hraise⟩
      rcases pre with _ | ⟨e, pre⟩
      · obtain ⟨rfl, rfl⟩ := List.cons.inj hp
        exact Or.inl hraise
      · obtain ⟨rfl, rfl⟩ := List.cons.inj hp
        exact Or.inr ⟨pre, c, post, rfl, hraise⟩

/-- **Fields.** The last write counts. -/
theorem field_after {β : Type*} (field : σ → β) {write : ι → Option β}
    (h : ∀ c s, field (effect c s) = (write c).getD (field s)) :
    field (after effect p s) = (p.filterMap write).getLast?.getD (field s) := by
  induction p generalizing s with
  | nil => rfl
  | cons c p ih =>
    rw [after_cons, ih, h]
    rcases hw : write c with _ | b
    · rw [List.filterMap_cons_none hw, Option.getD_none]
    · rw [List.filterMap_cons_some hw, List.getLast?_cons, Option.getD_some, Option.getD_some]

theorem part_after {β : Type*} (part : σ → β) {change : β → ι → β}
    (h : ∀ c s, part (effect c s) = change (part s) c) :
    part (after effect p s) = p.foldl change (part s) := by
  induction p generalizing s with
  | nil => rfl
  | cons c p ih => rw [after_cons, ih, h, List.foldl_cons]

/-- **Progress.** It takes as many commands to get far. -/
theorem measure_after_le (m : σ → ℕ) (counts : ι → Bool)
    (h : ∀ c s, m (effect c s) ≤ m s + if counts c then 1 else 0) :
    m (after effect p s) ≤ m s + p.countP counts := by
  induction p generalizing s with
  | nil => exact Nat.le_add_right _ _
  | cons c p ih =>
    have hstep := h c s
    have hrest := ih (s := effect c s)
    rw [after_cons, List.countP_cons]
    omega

end Commands
