import Mathlib.Tactic.TypeStar

/-!
# Computations that change a state and may throw

A method with side effects, as a function from the state before to an outcome and the state after.
Unlike a transaction, a throw keeps what was done before it: `recover` is `try … catch`, which goes
on from the state of the throw, and `ensure` is `try … finally`, whose last part runs in either
case and whose own throw wins.

The lemmas evaluate each construct on a state, given the outcome of its first part. Three notions
compose along it: `Leaves` says that a computation does not touch a part of the state, `Emits` says
how it ends and what it adds to a log, and `Appends` says what kind of entries it can add.
`Observes` says that a computation is another one with something noted beside its state.

How a lemma is used: a statement of a method is unfolded to these constructs, and each of them is
rewritten by its lemma with the outcome of its first part, so that the cases of a proof are the ways
in which the parts can end.
-/

/-- A computation over a state `σ` that throws values of `ε`. -/
abbrev Exec (σ ε α : Type) : Type := σ → Except ε α × σ

namespace Exec

variable {σ ε α β : Type}

instance : Monad (Exec σ ε) where
  pure a s := (.ok a, s)
  bind x f s :=
    match x s with
    | (.ok a, s') => f a s'
    | (.error e, s') => (.error e, s')

def throw (e : ε) : Exec σ ε α := fun s ↦ (.error e, s)

/-- A computation that does not touch the state. -/
def ofExcept (x : Except ε α) : Exec σ ε α := fun s ↦ (x, s)

def modify (f : σ → σ) : Exec σ ε Unit := fun s ↦ (.ok (), f s)

def get : Exec σ ε σ := fun s ↦ (.ok s, s)

/-- `try x catch h`. -/
def recover (x : Exec σ ε α) (h : ε → Exec σ ε α) : Exec σ ε α := fun s ↦
  match x s with
  | (.ok a, s') => (.ok a, s')
  | (.error e, s') => h e s'

/-- The computation with its throws turned into others. -/
def mapError {ε' : Type} (f : ε → ε') (x : Exec σ ε α) : Exec σ ε' α := fun s ↦
  ((x s).1.mapError f, (x s).2)

/-- `try x finally f`. -/
def ensure (x : Exec σ ε α) (f : Exec σ ε Unit) : Exec σ ε α := fun s ↦
  match f (x s).2 with
  | (.ok _, s') => ((x s).1, s')
  | (.error e, s') => (.error e, s')

@[simp] theorem pure_apply (a : α) (s : σ) : (pure a : Exec σ ε α) s = (.ok a, s) := rfl

theorem bind_apply (x : Exec σ ε α) (f : α → Exec σ ε β) (s : σ) : (x >>= f) s =
    match x s with
    | (.ok a, s') => f a s'
    | (.error e, s') => (.error e, s') := rfl

theorem bind_of_ok {x : Exec σ ε α} {f : α → Exec σ ε β} {s s' : σ} {a : α}
    (h : x s = (.ok a, s')) : (x >>= f) s = f a s' := by
  rw [bind_apply, h]

theorem bind_of_error {x : Exec σ ε α} {f : α → Exec σ ε β} {s s' : σ} {e : ε}
    (h : x s = (.error e, s')) : (x >>= f) s = (.error e, s') := by
  rw [bind_apply, h]

theorem ofExcept_bind_ok {x : Except ε α} {f : α → Exec σ ε β} {a : α} (h : x = .ok a) (s : σ) :
    (ofExcept x >>= f) s = f a s :=
  bind_of_ok (by rw [ofExcept, h])

theorem ofExcept_bind_error {x : Except ε α} {f : α → Exec σ ε β} {e : ε} (h : x = .error e)
    (s : σ) : (ofExcept x >>= f) s = (.error e, s) :=
  bind_of_error (by rw [ofExcept, h])

/-- A sequence returns when its first computation and the rest do. -/
theorem bind_eq_ok {x : Exec σ ε α} {f : α → Exec σ ε β} {s s' : σ} {b : β} :
    (x >>= f) s = (.ok b, s') ↔ ∃ a t, x s = (.ok a, t) ∧ f a t = (.ok b, s') := by
  rcases hx : x s with ⟨e | a, t⟩
  · rw [bind_of_error hx]
    simp
  · rw [bind_of_ok hx]
    constructor
    · exact fun h ↦ ⟨a, t, rfl, h⟩
    · rintro ⟨a', t', heq, h⟩
      obtain ⟨ha, rfl⟩ := Prod.mk.inj heq
      obtain rfl := Except.ok.inj ha
      exact h

@[simp] theorem throw_apply (e : ε) (s : σ) : (throw e : Exec σ ε α) s = (.error e, s) := rfl

@[simp] theorem ofExcept_apply (x : Except ε α) (s : σ) : (ofExcept x) s = (x, s) := rfl

@[simp] theorem modify_apply (f : σ → σ) (s : σ) :
    (modify f : Exec σ ε Unit) s = (.ok (), f s) := rfl

@[simp] theorem get_apply (s : σ) : (get : Exec σ ε σ) s = (.ok s, s) := rfl

theorem recover_of_ok {x : Exec σ ε α} {h : ε → Exec σ ε α} {s s' : σ} {a : α}
    (hx : x s = (.ok a, s')) : recover x h s = (.ok a, s') := by
  rw [recover, hx]

theorem recover_of_error {x : Exec σ ε α} {h : ε → Exec σ ε α} {s s' : σ} {e : ε}
    (hx : x s = (.error e, s')) : recover x h s = h e s' := by
  rw [recover, hx]

@[simp]
theorem except_mapError_ok {ε' : Type} (f : ε → ε') (a : α) :
    (Except.ok a : Except ε α).mapError f = .ok a := rfl

@[simp]
theorem except_mapError_error {ε' : Type} (f : ε → ε') (e : ε) :
    (Except.error e : Except ε α).mapError f = .error (f e) := rfl

theorem mapError_eq_ok {ε' : Type} {f : ε → ε'} {x : Exec σ ε α} {s s' : σ} {a : α} :
    mapError f x s = (.ok a, s') ↔ x s = (.ok a, s') := by
  rw [mapError]
  rcases x s with ⟨e | b, t⟩
  · simp
  · simp

theorem ensure_state (x : Exec σ ε α) (f : Exec σ ε Unit) (s : σ) :
    (ensure x f s).2 = (f (x s).2).2 := by
  rw [ensure]
  rcases f (x s).2 with ⟨e | u, s'⟩
  · rfl
  · rfl

theorem ensure_eq_ok {x : Exec σ ε α} {f : Exec σ ε Unit} {s s'' : σ} {a : α} :
    ensure x f s = (.ok a, s'') ↔ ∃ s', x s = (.ok a, s') ∧ f s' = (.ok (), s'') := by
  rw [ensure]
  rcases hx : x s with ⟨r, s'⟩
  rcases hf : f s' with ⟨⟨e⟩ | ⟨⟨⟩⟩, t⟩
  · simp [hf]
  · simp only [Prod.mk.injEq]
    constructor
    · rintro ⟨rfl, rfl⟩
      exact ⟨s', ⟨rfl, rfl⟩, hf⟩
    · rintro ⟨t', ⟨rfl, rfl⟩, h⟩
      exact ⟨rfl, (Prod.mk.inj (hf.symm.trans h)).2⟩

/-! ## Parts that stay -/

/-- A computation that leaves a part of the state alone, whether it returns or throws. -/
def Leaves {β : Type*} (part : σ → β) (x : Exec σ ε α) : Prop := ∀ s, part (x s).2 = part s

section Leaves

variable {γ : Type*} {part : σ → γ}

theorem Leaves.of_eq {x : Exec σ ε α} (h : Leaves part x) {s s' : σ} {r : Except ε α}
    (hx : x s = (r, s')) : part s' = part s := by
  rw [← h s, hx]

theorem leaves_pure (a : α) : Leaves part (pure a : Exec σ ε α) := fun _ ↦ rfl

theorem leaves_throw (e : ε) : Leaves part (throw e : Exec σ ε α) := fun _ ↦ rfl

theorem leaves_ofExcept (x : Except ε α) : Leaves part (ofExcept x : Exec σ ε α) := fun _ ↦ rfl

theorem leaves_get : Leaves part (get : Exec σ ε σ) := fun _ ↦ rfl

theorem leaves_modify {f : σ → σ} (h : ∀ s, part (f s) = part s) :
    Leaves part (modify f : Exec σ ε Unit) := h

/-- What follows a computation and leaves the part alone does not matter for it. -/
theorem part_bind {f : α → Exec σ ε β} (hf : ∀ a, Leaves part (f a)) (x : Exec σ ε α) (s : σ) :
    part ((x >>= f) s).2 = part (x s).2 := by
  rcases hr : x s with ⟨e | a, s'⟩
  · rw [bind_of_error hr]
  · rw [bind_of_ok hr, hf a s']

theorem part_recover {h : ε → Exec σ ε α} (hh : ∀ e, Leaves part (h e)) (x : Exec σ ε α) (s : σ) :
    part (Exec.recover x h s).2 = part (x s).2 := by
  rcases hr : x s with ⟨e | a, s'⟩
  · rw [recover_of_error hr, hh e s']
  · rw [recover_of_ok hr]

theorem Leaves.bind {x : Exec σ ε α} {f : α → Exec σ ε β} (hx : Leaves part x)
    (hf : ∀ a, Leaves part (f a)) : Leaves part (x >>= f) :=
  fun s ↦ (part_bind hf x s).trans (hx s)

theorem part_ensure {f : Exec σ ε Unit} (hf : Leaves part f) (x : Exec σ ε α) (s : σ) :
    part (Exec.ensure x f s).2 = part (x s).2 := by
  rw [ensure_state, hf]

end Leaves

/-! ## Logs -/

/-- From the state `s` the computation ends with `r` and adds `events` to a log. -/
structure Emits {ω : Type*} (log : σ → List ω) (x : Exec σ ε α) (s : σ) (r : Except ε α)
    (events : List ω) : Prop where
  outcome : (x s).1 = r
  log : log (x s).2 = log s ++ events

section Emits

variable {ω : Type*} {log : σ → List ω}

theorem emits_iff {x : Exec σ ε α} {s : σ} {r : Except ε α} {events : List ω} :
    Emits log x s r events ↔ (x s).1 = r ∧ log (x s).2 = log s ++ events :=
  ⟨fun h ↦ ⟨h.outcome, h.log⟩, fun h ↦ ⟨h.1, h.2⟩⟩

theorem Leaves.emits {x : Exec σ ε α} (h : Leaves log x) (s : σ) : Emits log x s (x s).1 [] :=
  ⟨rfl, by rw [h s, List.append_nil]⟩

theorem emits_pure (a : α) (s : σ) : Emits log (pure a : Exec σ ε α) s (.ok a) [] :=
  (leaves_pure a).emits s

theorem emits_ofExcept (x : Except ε α) (s : σ) : Emits log (ofExcept x) s x [] :=
  (leaves_ofExcept x).emits s

theorem Emits.bind {x : Exec σ ε α} {f : α → Exec σ ε β} {s : σ} {a : α} {r : Except ε β}
    {events events' : List ω} (hx : Emits log x s (.ok a) events)
    (hf : Emits log (f a) (x s).2 r events') : Emits log (x >>= f) s r (events ++ events') := by
  have hrun : (x >>= f) s = f a (x s).2 := bind_of_ok (Prod.ext hx.outcome rfl)
  constructor
  · rw [hrun, hf.outcome]
  · rw [hrun, hf.log, hx.log, List.append_assoc]

theorem Emits.bind_error {x : Exec σ ε α} {f : α → Exec σ ε β} {s : σ} {e : ε} {events : List ω}
    (hx : Emits log x s (.error e) events) : Emits log (x >>= f) s (.error e) events := by
  have hrun : (x >>= f) s = (.error e, (x s).2) := bind_of_error (Prod.ext hx.outcome rfl)
  constructor
  · rw [hrun]
  · rw [hrun, hx.log]

end Emits

/-- Whatever its outcome, the computation only adds entries with a property to a log. -/
def Appends {ω : Type*} (log : σ → List ω) (S : ω → Prop) (x : Exec σ ε α) : Prop :=
  ∀ s, ∃ events, log (x s).2 = log s ++ events ∧ ∀ e ∈ events, S e

section Appends

variable {ω : Type*} {log : σ → List ω} {S : ω → Prop}

theorem Leaves.appends {x : Exec σ ε α} (h : Leaves log x) : Appends log S x :=
  fun s ↦ ⟨[], by rw [h s, List.append_nil], by simp⟩

theorem Appends.bind {x : Exec σ ε α} {f : α → Exec σ ε β} (hx : Appends log S x)
    (hf : ∀ a, Appends log S (f a)) : Appends log S (x >>= f) := by
  intro s
  obtain ⟨events, hlog, hevents⟩ := hx s
  rcases hr : x s with ⟨e | a, s'⟩
  · rw [hr] at hlog
    exact ⟨events, by rw [bind_of_error hr, hlog], hevents⟩
  · rw [hr] at hlog
    obtain ⟨more, hlog', hmore⟩ := hf a s'
    refine ⟨events ++ more, ?_, List.forall_mem_append.mpr ⟨hevents, hmore⟩⟩
    rw [bind_of_ok hr, hlog', hlog, List.append_assoc]

end Appends

/-! ## Observers -/

/-- A computation over the first component of a pair of states. -/
def onFst {τ : Type} (x : Exec σ ε α) : Exec (σ × τ) ε α :=
  fun s ↦ ((x s.1).1, ((x s.1).2, s.2))

theorem onFst_bind_ok {τ : Type} {x : Exec σ ε α} {f : α → Exec (σ × τ) ε β} {s s' : σ} {a : α}
    (h : x s = (.ok a, s')) (t : τ) : (onFst x >>= f) (s, t) = f a (s', t) :=
  bind_of_ok (by rw [onFst, h])

theorem onFst_bind_error {τ : Type} {x : Exec σ ε α} {f : α → Exec (σ × τ) ε β} {s s' : σ} {e : ε}
    (h : x s = (.error e, s')) (t : τ) : (onFst x >>= f) (s, t) = (.error e, (s', t)) :=
  bind_of_error (by rw [onFst, h])

/-- A computation with an observer: as far as the first component is concerned it is `x`. -/
def Observes {τ : Type} (y : Exec (σ × τ) ε α) (x : Exec σ ε α) : Prop :=
  ∀ s, ((y s).1, (y s).2.1) = x s.1

section Observes

variable {τ : Type}

theorem observes_onFst (x : Exec σ ε α) : Observes (onFst x : Exec (σ × τ) ε α) x := fun _ ↦ rfl

theorem observes_pure (a : α) : Observes (pure a : Exec (σ × τ) ε α) (pure a) := fun _ ↦ rfl

theorem Observes.eq {y : Exec (σ × τ) ε α} {x : Exec σ ε α} (h : Observes y x) {s s' : σ × τ}
    {r : Except ε α} (hy : y s = (r, s')) : x s.1 = (r, s'.1) := by
  rw [← h s, hy]

theorem Observes.bind {y : Exec (σ × τ) ε α} {x : Exec σ ε α} {g : α → Exec (σ × τ) ε β}
    {f : α → Exec σ ε β} (hx : Observes y x) (hf : ∀ a, Observes (g a) (f a)) :
    Observes (y >>= g) (x >>= f) := by
  intro s
  rcases hy : y s with ⟨e | a, s'⟩
  · rw [bind_of_error hy, bind_of_error (hx.eq hy)]
  · rw [bind_of_ok hy, bind_of_ok (hx.eq hy), hf a s']

theorem Observes.modify_bind {f : τ → τ} {y : Exec (σ × τ) ε α} {x : Exec σ ε α}
    (hx : Observes y x) : Observes (modify (fun s ↦ (s.1, f s.2)) >>= fun _ ↦ y) x := by
  intro s
  rw [bind_of_ok (modify_apply _ _), hx]

theorem Observes.recover {y : Exec (σ × τ) ε α} {x : Exec σ ε α} {g : ε → Exec (σ × τ) ε α}
    {f : ε → Exec σ ε α} (hx : Observes y x) (hf : ∀ e, Observes (g e) (f e)) :
    Observes (Exec.recover y g) (Exec.recover x f) := by
  intro s
  rcases hy : y s with ⟨e | a, s'⟩
  · rw [recover_of_error hy, recover_of_error (hx.eq hy), hf e s']
  · rw [recover_of_ok hy, recover_of_ok (hx.eq hy)]

theorem Observes.ensure {y : Exec (σ × τ) ε α} {x : Exec σ ε α} {g : Exec (σ × τ) ε Unit}
    {f : Exec σ ε Unit} (hx : Observes y x) (hf : Observes g f) :
    Observes (Exec.ensure y g) (Exec.ensure x f) := by
  intro s
  have hlast : f (x s.1).2 = ((g (y s).2).1, (g (y s).2).2.1) := by rw [hf, ← hx s]
  rw [Exec.ensure, Exec.ensure, hlast]
  rcases g (y s).2 with ⟨e | u, s'⟩
  · rfl
  · rw [← hx s]

end Observes

end Exec
