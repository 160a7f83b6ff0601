/-!
# Programs that ask their environment

A program is a value or a request together with what to do for each answer. It does not say who
answers: the environment is a function that tells, for a state of the world and an answer to a
request, the world after it, or that the answer is impossible there. Several programs can then be
run side by side, request by request.

`Safe I Q p w` says that along every run of `p` from `w` the world meets `I` whenever `p` waits for
an answer, and that `Q` holds of the result. Since it speaks of every answer, it is kept by each
step of the program (`Safe.resume`), which makes it the part of an invariant that is about a running
program, and since it is defined by recursion on the program, it is proved as a program is written,
one function at a time (`Safe.bind`).

`Related S p q` says that two programs make the same requests and end with results that are related,
so that what always holds of one holds of the other.
-/

/-- A program with requests `R`, the answers `A r` to a request and a result in `α`. -/
inductive Program.{u, v, w} (R : Type u) (A : R → Type v) (α : Type w) where
  | done (a : α)
  | ask (r : R) (next : A r → Program R A α)

namespace Program

universe u v w x

variable {R : Type u} {A : R → Type v} {α β : Type w} {W : Type x}

/-- A program and then another one. -/
def bind (p : Program R A α) (f : α → Program R A β) : Program R A β :=
  match p with
  | .done a => f a
  | .ask r next => .ask r fun answer ↦ (next answer).bind f

instance : Monad (Program R A) where
  pure := .done
  bind := bind

/-- A single request. -/
def request {R : Type u} {A : R → Type w} (r : R) : Program R A (A r) := .ask r .done

/-- The program after an answer to the request that it waits for. -/
def resume [DecidableEq R] (p : Program R A α) (r : R) (answer : A r) : Option (Program R A α) :=
  match p with
  | .done _ => none
  | .ask r' next => if h : r = r' then some (next (h ▸ answer)) else none

/-! ## Safety -/

section Safety

variable (respond : W → (r : R) → A r → Option W)

/-- Along every run `I` holds at each request, and `Q` of the result. -/
def Safe (I : W → Prop) (Q : α → W → Prop) : Program R A α → W → Prop
  | .done a, w => Q a w
  | .ask r next, w => I w ∧ ∀ answer w', respond w r answer = some w' → Safe I Q (next answer) w'

variable {respond} {I : W → Prop} {Q : α → W → Prop}

/-- At any time the world meets `I`, if the results do. -/
theorem Safe.holds {p : Program R A α} {w : W} (h : Safe respond I Q p w)
    (hQ : ∀ a w, Q a w → I w) : I w := by
  cases p with
  | done a => exact hQ a w h
  | ask r next => exact h.1

/-- **Steps.** An answer keeps a program safe. -/
theorem Safe.resume [DecidableEq R] {p p' : Program R A α} {r : R} {answer : A r} {w w' : W}
    (h : Safe respond I Q p w) (hresume : p.resume r answer = some p')
    (hrespond : respond w r answer = some w') : Safe respond I Q p' w' := by
  cases p with
  | done a => cases hresume
  | ask r' next =>
    rw [Program.resume] at hresume
    split at hresume
    · rename_i heq
      subst heq
      obtain rfl := Option.some.inj hresume
      exact h.2 answer w' hrespond
    · cases hresume

/-- **Sequences.** What the first program ends with is where the second one starts. -/
theorem Safe.bind {Q : β → W → Prop} {p : Program R A α} {f : α → Program R A β} {w : W}
    (h : Safe respond I (fun a w ↦ Safe respond I Q (f a) w) p w) :
    Safe respond I Q (p >>= f) w := by
  induction p generalizing w with
  | done a => exact h
  | ask r next ih => exact ⟨h.1, fun answer w' hanswer ↦ ih answer (h.2 answer w' hanswer)⟩

end Safety

/-! ## Two programs side by side -/

/-- Whatever the answers are, the result meets the condition. -/
def Always (Q : α → Prop) : Program R A α → Prop
  | .done a => Q a
  | .ask _ next => ∀ answer, (next answer).Always Q

/-- The programs make the same requests, and for the same answers their results are related. -/
inductive Related (S : α → β → Prop) : Program R A α → Program R A β → Prop
  | done {a b} (h : S a b) : Related S (.done a) (.done b)
  | ask {r next next'} (h : ∀ answer, Related S (next answer) (next' answer)) :
    Related S (.ask r next) (.ask r next')

section Related

variable {γ δ : Type w} {S : α → β → Prop}

theorem Related.refl (p : Program R A α) : Related Eq p p := by
  induction p with
  | done a => exact .done rfl
  | ask r next ih => exact .ask ih

theorem Related.bind {T : γ → δ → Prop} {p : Program R A α} {q : Program R A β}
    {f : α → Program R A γ} {g : β → Program R A δ} (h : Related S p q)
    (hf : ∀ a b, S a b → Related T (f a) (g b)) : Related T (p >>= f) (q >>= g) := by
  induction h with
  | done h => exact hf _ _ h
  | ask _ ih => exact .ask ih

theorem Related.bind_same {T : γ → δ → Prop} (p : Program R A α) {f : α → Program R A γ}
    {g : α → Program R A δ} (hf : ∀ a, Related T (f a) (g a)) : Related T (p >>= f) (p >>= g) :=
  (Related.refl p).bind fun a _ h ↦ h ▸ hf a

theorem Related.always {Q : α → Prop} {p : Program R A α} {q : Program R A β}
    (h : Related S p q) (hQ : ∀ a b, S a b → Q a) : p.Always Q := by
  induction h with
  | done h => exact hQ _ _ h
  | ask _ ih => exact ih

theorem Always.bind {P : α → Prop} {Q : β → Prop} {p : Program R A α} {f : α → Program R A β}
    (h : p.Always P) (hf : ∀ a, P a → (f a).Always Q) : (p >>= f).Always Q := by
  induction p with
  | done a => exact hf a h
  | ask r next ih => exact fun answer ↦ ih answer (h answer)

end Related

end Program
