import FuzzingCiCd.Foundation.Programs
import Mathlib.Data.List.Infix

/-!
# What programs do

A transcript of a program lists the requests that it has made until it ended, each with the answer
that it got. Since a program does not say who answers, what is proved of all its transcripts holds
in every environment.

Many programs carry out a plan: they take step after step until one of them fails, or until they
give up between two steps. `Carried` says so without a program. What an observer wants to know
follows from it: the steps taken are a front of the plan, all but the last one went well, the plan
is done exactly when all of it went well, and the error is that of the last step.

A protocol says which requests are steps and when a step has failed. `Conducts` is that a program
carries out a plan under it, and composes as the program does.

## Main results

* `transcript_bind_iff`, `transcript_bind_cases`: the transcripts of a sequence.
* `Conducts.bind`, `conducts_mapM`: plans of sequences and of loops.
* `Justified.bind`: an event that is preceded by what justifies it stays so.
-/

namespace Program

universe u v w

variable {R : Type u} {A : R → Type v} {α β ε : Type w}

instance lawfulMonad : LawfulMonad (Program R A) :=
  LawfulMonad.mk' (Program R A)
    (fun p ↦ by
      induction p with
      | done a => rfl
      | ask r next ih => exact congrArg (Program.ask r) (funext ih))
    (fun a f ↦ rfl)
    (fun p f g ↦ by
      induction p with
      | done a => rfl
      | ask r next ih => exact congrArg (Program.ask r) (funext ih))

/-- The program makes these requests, gets these answers and ends with the result. -/
inductive Transcript : Program R A α → List ((r : R) × A r) → α → Prop
  | done {a : α} : Transcript (.done a) [] a
  | ask {r : R} {next : A r → Program R A α} {answer : A r} {t : List ((r : R) × A r)} {a : α}
      (h : Transcript (next answer) t a) : Transcript (.ask r next) (⟨r, answer⟩ :: t) a

theorem transcript_done_iff {a b : α} {t : List ((r : R) × A r)} :
    Transcript (.done a) t b ↔ t = [] ∧ a = b := by
  constructor
  · intro h
    cases h
    exact ⟨rfl, rfl⟩
  · rintro ⟨rfl, rfl⟩
    exact .done

theorem transcript_ask_iff {r : R} {next : A r → Program R A α} {t : List ((r : R) × A r)}
    {b : α} : Transcript (.ask r next) t b ↔
      ∃ answer t', t = ⟨r, answer⟩ :: t' ∧ Transcript (next answer) t' b := by
  constructor
  · intro h
    cases h with
    | ask h => exact ⟨_, _, rfl, h⟩
  · rintro ⟨answer, t', rfl, h⟩
    exact .ask h

/-- **Sequences.** A transcript of two programs is one of the first and one of the second. -/
theorem transcript_bind_iff {p : Program R A α} {f : α → Program R A β}
    {t : List ((r : R) × A r)} {b : β} : Transcript (p >>= f) t b ↔
      ∃ t₁ t₂ a, t = t₁ ++ t₂ ∧ Transcript p t₁ a ∧ Transcript (f a) t₂ b := by
  induction p generalizing t with
  | done a =>
    constructor
    · exact fun h ↦ ⟨[], t, a, rfl, .done, h⟩
    · rintro ⟨t₁, t₂, a', rfl, hp, hf⟩
      obtain ⟨rfl, rfl⟩ := transcript_done_iff.mp hp
      exact hf
  | ask r next ih =>
    constructor
    · intro h
      obtain ⟨answer, t', rfl, hnext⟩ := transcript_ask_iff.mp h
      obtain ⟨t₁, t₂, a, rfl, hp, hf⟩ := (ih answer).mp hnext
      exact ⟨⟨r, answer⟩ :: t₁, t₂, a, rfl, .ask hp, hf⟩
    · rintro ⟨t₁, t₂, a, rfl, hp, hf⟩
      obtain ⟨answer, t', rfl, hnext⟩ := transcript_ask_iff.mp hp
      exact .ask ((ih answer).mpr ⟨t', t₂, a, rfl, hnext, hf⟩)

/-! ## Programs that may fail -/

section Failures

variable {ε : Type v} {α β : Type v} {A : R → Type v}

/-- A request of a program that may fail. -/
def attempt (r : R) : ExceptT ε (Program R A) (A r) := ExceptT.lift (request r)

/-- A computation without requests. -/
def settle (x : Except ε α) : ExceptT ε (Program R A) α := ExceptT.mk (.done x)

theorem transcript_settle_iff {x result : Except ε α} {t : List ((r : R) × A r)} :
    Transcript (settle x : ExceptT ε (Program R A) α).run t result ↔ t = [] ∧ x = result :=
  transcript_done_iff

theorem transcript_pure_iff {a : α} {t : List ((r : R) × A r)} {result : Except ε α} :
    Transcript (pure a : ExceptT ε (Program R A) α).run t result ↔ t = [] ∧ .ok a = result :=
  transcript_done_iff

theorem transcript_throw_iff {e : ε} {t : List ((r : R) × A r)} {result : Except ε α} :
    Transcript (throw e : ExceptT ε (Program R A) α).run t result ↔ t = [] ∧ .error e = result :=
  transcript_done_iff

theorem transcript_attempt_iff {r : R} {t : List ((r : R) × A r)} {result : Except ε (A r)} :
    Transcript (attempt r : ExceptT ε (Program R A) (A r)).run t result ↔
      ∃ answer, t = [⟨r, answer⟩] ∧ .ok answer = result := by
  constructor
  · intro h
    obtain ⟨answer, t', rfl, hnext⟩ := transcript_ask_iff.mp h
    obtain ⟨rfl, hresult⟩ := transcript_done_iff.mp hnext
    exact ⟨answer, rfl, hresult⟩
  · rintro ⟨answer, rfl, rfl⟩
    exact .ask .done

/-- **Sequences.** Either the first program fails, or it ends and the second one goes on. -/
theorem transcript_bind_cases {p : ExceptT ε (Program R A) α} {f : α → ExceptT ε (Program R A) β}
    {t : List ((r : R) × A r)} {result : Except ε β} :
    Transcript (p >>= f).run t result ↔
      (∃ e, result = .error e ∧ Transcript p.run t (.error e)) ∨
        ∃ t₁ t₂ a, t = t₁ ++ t₂ ∧ Transcript p.run t₁ (.ok a) ∧
          Transcript (f a).run t₂ result := by
  rw [ExceptT.run_bind, transcript_bind_iff]
  constructor
  · rintro ⟨t₁, t₂, x, rfl, hp, hf⟩
    rcases x with e | a
    · obtain ⟨rfl, rfl⟩ := transcript_done_iff.mp hf
      exact .inl ⟨e, rfl, by rwa [List.append_nil]⟩
    · exact .inr ⟨t₁, t₂, a, rfl, hp, hf⟩
  · rintro (⟨e, rfl, hp⟩ | ⟨t₁, t₂, a, rfl, hp, hf⟩)
    · exact ⟨t, [], .error e, (List.append_nil t).symm, hp, .done⟩
    · exact ⟨t₁, t₂, .ok a, rfl, hp, hf⟩

theorem transcript_attempt_settle_iff {r : R} {g : A r → Except ε α} {t : List ((r : R) × A r)}
    {result : Except ε α} :
    Transcript ((attempt r : ExceptT ε (Program R A) (A r)) >>= fun answer ↦ settle (g answer)).run
      t result ↔ ∃ answer, t = [⟨r, answer⟩] ∧ g answer = result := by
  rw [transcript_bind_cases]
  constructor
  · rintro (⟨e, rfl, h⟩ | ⟨t₁, t₂, answer, rfl, h, hrest⟩)
    · obtain ⟨answer, -, hresult⟩ := transcript_attempt_iff.mp h
      cases hresult
    · obtain ⟨_, rfl, hanswer⟩ := transcript_attempt_iff.mp h
      obtain rfl := Except.ok.inj hanswer
      obtain ⟨rfl, hresult⟩ := transcript_settle_iff.mp hrest
      exact ⟨_, rfl, hresult⟩
  · rintro ⟨answer, rfl, hresult⟩
    exact .inr ⟨_, [], answer, rfl, transcript_attempt_iff.mpr ⟨answer, rfl, rfl⟩,
      transcript_settle_iff.mpr ⟨rfl, hresult⟩⟩

/-! ### What comes before an event -/

/-- Every event is justified by the events before it. -/
def Justified (P : List ((r : R) × A r) → ((r : R) × A r) → Prop)
    (p : ExceptT ε (Program R A) α) : Prop :=
  ∀ pre event post result, Transcript p.run (pre ++ event :: post) result → P pre event

variable {P : List ((r : R) × A r) → ((r : R) × A r) → Prop}

theorem justified_settle (x : Except ε α) :
    Justified P (settle x : ExceptT ε (Program R A) α) := by
  intro pre event post result h
  exact absurd (transcript_settle_iff.mp h).1 (by simp)

/-- **Sequences.** What is justified stays so when other events come first. -/
theorem Justified.bind (hP : ∀ front pre event, P pre event → P (front ++ pre) event)
    {p : ExceptT ε (Program R A) α} {f : α → ExceptT ε (Program R A) β} (hp : Justified P p)
    (hf : ∀ a, Justified P (f a)) : Justified P (p >>= f) := by
  intro pre event post result h
  rcases transcript_bind_cases.mp h with ⟨e, -, hfirst⟩ | ⟨t₁, t₂, a, ht, hfirst, hrest⟩
  · exact hp _ _ _ _ hfirst
  rcases List.append_eq_append_iff.mp ht with ⟨back, rfl, hback⟩ | ⟨back, rfl, hback⟩
  · -- the event belongs to the first program, unless that has ended right before it
    rcases back with _ | ⟨event', back⟩
    · rw [List.nil_append] at hback
      rw [← hback] at hrest
      have := hf a [] event post result hrest
      simpa using hP pre [] event this
    · obtain ⟨rfl, rfl⟩ := List.cons.inj hback
      exact hp _ _ _ _ hfirst
  · rw [hback] at hrest
    exact hP _ _ _ (hf a _ _ _ _ hrest)

theorem justified_mapM (hP : ∀ front pre event, P pre event → P (front ++ pre) event)
    {ι : Type v} {f : ι → ExceptT ε (Program R A) α} (hf : ∀ i, Justified P (f i)) (l : List ι) :
    Justified P (l.mapM f) := by
  induction l with
  | nil => exact justified_settle (.ok [])
  | cons i l ih =>
    rw [List.mapM_cons]
    exact (hf i).bind hP fun a ↦ ih.bind hP fun as ↦ justified_settle (.ok (a :: as))

end Failures

end Program

/-! ## Plans -/

namespace Steps

universe u v w

variable {S : Type u} {O : Type v} {ε : Type w}

/-- Steps are taken in the order of the plan until one of them fails, or until an error that is no
step's ends it in between. -/
inductive Carried (failure : S → O → Option ε) (idle : ε → Prop) :
    List S → List (S × O) → Option ε → Prop
  | finished : Carried failure idle [] [] none
  | interrupted {s : S} {plan : List S} {e : ε} (h : idle e) :
    Carried failure idle (s :: plan) [] (some e)
  | failed {s : S} {o : O} {plan : List S} {e : ε} (h : failure s o = some e) :
    Carried failure idle (s :: plan) [(s, o)] (some e)
  | step {s : S} {o : O} {plan : List S} {seen : List (S × O)} {verdict : Option ε}
      (h : failure s o = none) (hrest : Carried failure idle plan seen verdict) :
    Carried failure idle (s :: plan) ((s, o) :: seen) verdict

namespace Carried

variable {failure : S → O → Option ε} {idle : ε → Prop} {plan plan' : List S}
  {seen seen' : List (S × O)} {verdict : Option ε} {e : ε}

/-- The steps taken are a front of the plan. -/
theorem isPrefix (h : Carried failure idle plan seen verdict) : seen.map Prod.fst <+: plan := by
  induction h with
  | finished => exact List.nil_prefix
  | interrupted => exact List.nil_prefix
  | failed => exact ⟨_, rfl⟩
  | step _ _ ih => exact List.cons_prefix_cons.mpr ⟨rfl, ih⟩

/-- Only the last step may have failed. -/
theorem of_mem_dropLast (h : Carried failure idle plan seen verdict) :
    ∀ x ∈ seen.dropLast, failure x.1 x.2 = none := by
  induction h with
  | finished => exact fun x hx ↦ absurd hx List.not_mem_nil
  | interrupted => exact fun x hx ↦ absurd hx List.not_mem_nil
  | failed => exact fun x hx ↦ absurd hx List.not_mem_nil
  | step hs _ ih =>
    rename_i seen _ _
    rcases seen with _ | ⟨x, seen⟩
    · exact fun x hx ↦ absurd hx List.not_mem_nil
    · rw [List.dropLast_cons_cons]
      exact List.forall_mem_cons.mpr ⟨hs, ih⟩

/-- The plan is done exactly when all of it went well. -/
theorem eq_none_iff (h : Carried failure idle plan seen verdict) :
    verdict = none ↔ seen.map Prod.fst = plan ∧ ∀ x ∈ seen, failure x.1 x.2 = none := by
  induction h with
  | finished => exact iff_of_true rfl ⟨rfl, fun x hx ↦ absurd hx List.not_mem_nil⟩
  | interrupted => exact iff_of_false (Option.some_ne_none _) (fun h ↦ absurd h.1 (by simp))
  | failed hs =>
    refine iff_of_false (Option.some_ne_none _) fun h ↦ ?_
    exact Option.some_ne_none _ (hs.symm.trans (h.2 _ List.mem_cons_self))
  | step hs _ ih => rw [ih, List.map_cons, List.cons.injEq, List.forall_mem_cons]; simp [hs]

theorem of_some (h : Carried failure idle plan seen (some e)) :
    (∃ x, seen.getLast? = some x ∧ failure x.1 x.2 = some e) ∨
      idle e ∧ ∀ x ∈ seen, failure x.1 x.2 = none := by
  generalize hend : some e = verdict at h
  induction h with
  | finished => cases hend
  | interrupted h =>
    obtain rfl := Option.some.inj hend
    exact .inr ⟨h, fun x hx ↦ absurd hx List.not_mem_nil⟩
  | failed h =>
    obtain rfl := Option.some.inj hend
    exact .inl ⟨_, rfl, h⟩
  | step h _ ih =>
    rcases ih hend with ⟨x, hx, hfail⟩ | ⟨hidle, hall⟩
    · exact .inl ⟨x, by rw [List.getLast?_cons, hx, Option.getD_some], hfail⟩
    · exact .inr ⟨hidle, List.forall_mem_cons.mpr ⟨h, hall⟩⟩

theorem append (h : Carried failure idle plan seen none)
    (h' : Carried failure idle plan' seen' verdict) :
    Carried failure idle (plan ++ plan') (seen ++ seen') verdict := by
  generalize hend : (none : Option ε) = end₁ at h
  induction h with
  | finished => exact h'
  | interrupted => cases hend
  | failed => cases hend
  | step hs _ ih => exact .step hs (ih hend)

/-- A plan that has ended early hides what would follow. -/
theorem append_right (h : Carried failure idle plan seen (some e)) (plan' : List S) :
    Carried failure idle (plan ++ plan') seen (some e) := by
  generalize hend : some e = verdict at h
  induction h with
  | finished => cases hend
  | interrupted h => exact .interrupted h
  | failed h => exact .failed h
  | step hs _ ih => exact .step hs (ih hend)

end Carried

end Steps

/-! ## Programs that carry out plans

A protocol says which requests are steps and how a step can fail. A program conducts a plan if
its transcripts take the steps of the plan in order and stop where one fails, with its error.
Sequences and loops of programs conduct sequences of plans, and what takes no step may stand in
between. -/

namespace Program

universe u v w z

open Steps

/-- Which requests are steps, and what becomes of the steps. -/
structure Protocol (R : Type u) (A : R → Type v) (S : Type w) (O : Type z) (ε : Type v) where
  /-- What is seen of a request and its answer. -/
  observe : ((r : R) × A r) → Option O
  /-- What is seen belongs to the step. -/
  Fits : S → O → Prop
  failure : S → O → Option ε
  /-- The errors between two steps. -/
  Idle : ε → Prop

namespace Protocol

variable {R : Type u} {A : R → Type v} {S : Type w} {O : Type z} {ε α β : Type v}
  (π : Protocol R A S O ε)

/-- The steps among the events. -/
def seen (t : List ((r : R) × A r)) : List O := t.filterMap π.observe

theorem seen_append (t₁ t₂ : List ((r : R) × A r)) : π.seen (t₁ ++ t₂) = π.seen t₁ ++ π.seen t₂ :=
  List.filterMap_append

/-- The events carry out the plan as far as they go. -/
def Follows (plan : List S) (t : List ((r : R) × A r)) (verdict : Option ε) : Prop :=
  ∃ taken : List (S × O), π.seen t = taken.map Prod.snd ∧ (∀ x ∈ taken, π.Fits x.1 x.2) ∧
    Carried π.failure π.Idle plan taken verdict

/-- The error of a result. -/
def error? : Except ε α → Option ε
  | .ok _ => none
  | .error e => some e

/-- Whatever the answers are, the program carries out the plan. -/
def Conducts (p : ExceptT ε (Program R A) α) (plan : List S) : Prop :=
  ∀ t result, Transcript p.run t result → π.Follows plan t (error? result)

/-- The program takes no step, and its errors are none of a step. -/
def Quiet (p : ExceptT ε (Program R A) α) : Prop :=
  ∀ t result, Transcript p.run t result → π.seen t = [] ∧ ∀ e, result = .error e → π.Idle e

variable {π} {plan plan' : List S} {t t' : List ((r : R) × A r)} {verdict : Option ε} {e : ε}
  {p : ExceptT ε (Program R A) α} {f : α → ExceptT ε (Program R A) β}

theorem Follows.append (h : π.Follows plan t none) (h' : π.Follows plan' t' verdict) :
    π.Follows (plan ++ plan') (t ++ t') verdict := by
  obtain ⟨taken, hseen, hfits, hcarried⟩ := h
  obtain ⟨taken', hseen', hfits', hcarried'⟩ := h'
  refine ⟨taken ++ taken', ?_, ?_, hcarried.append hcarried'⟩
  · rw [seen_append, hseen, hseen', List.map_append]
  · exact List.forall_mem_append.mpr ⟨hfits, hfits'⟩

theorem Follows.append_right (h : π.Follows plan t (some e)) (plan' : List S) :
    π.Follows (plan ++ plan') t (some e) := by
  obtain ⟨taken, hseen, hfits, hcarried⟩ := h
  exact ⟨taken, hseen, hfits, hcarried.append_right plan'⟩

theorem Follows.of_idle {s : S} (hseen : π.seen t = []) (he : π.Idle e) :
    π.Follows (s :: plan) t (some e) :=
  ⟨[], hseen, fun _ hx ↦ absurd hx List.not_mem_nil, .interrupted he⟩

theorem Follows.of_seen_nil (hseen : π.seen t = []) (h : π.Follows plan t' verdict) :
    π.Follows plan (t ++ t') verdict := by
  obtain ⟨taken, htaken, hfits, hcarried⟩ := h
  exact ⟨taken, by rw [seen_append, hseen, List.nil_append, htaken], hfits, hcarried⟩

theorem conducts_pure (a : α) : π.Conducts (pure a : ExceptT ε (Program R A) α) [] := by
  intro t result h
  obtain ⟨rfl, rfl⟩ := transcript_pure_iff.mp h
  exact ⟨[], rfl, fun _ hx ↦ absurd hx List.not_mem_nil, .finished⟩

theorem conducts_attempt {r : R} (h : ∀ answer, π.observe ⟨r, answer⟩ = none) :
    π.Conducts (attempt r) [] := by
  intro t result ht
  obtain ⟨answer, rfl, rfl⟩ := transcript_attempt_iff.mp ht
  refine ⟨[], ?_, fun _ hx ↦ absurd hx List.not_mem_nil, .finished⟩
  rw [seen, List.filterMap_cons_none (h answer)]
  rfl

theorem Conducts.quiet (h : π.Conducts p []) : π.Quiet p := by
  intro t result ht
  obtain ⟨taken, hseen, -, hcarried⟩ := h t result ht
  generalize hend : error? result = verdict at hcarried
  cases hcarried with
  | finished => exact ⟨hseen, fun e he ↦ by rw [he] at hend; cases hend⟩

/-- **Sequences.** Two programs carry out their plans one after the other. -/
theorem Conducts.bind (hp : π.Conducts p plan) (hf : ∀ a, π.Conducts (f a) plan') :
    π.Conducts (p >>= f) (plan ++ plan') := by
  intro t result h
  rcases transcript_bind_cases.mp h with ⟨e, rfl, hfirst⟩ | ⟨t₁, t₂, a, rfl, hfirst, hrest⟩
  · exact (hp _ _ hfirst).append_right plan'
  · exact (hp _ _ hfirst).append (hf a _ _ hrest)

theorem Conducts.map (hp : π.Conducts p plan) (g : α → β) : π.Conducts (g <$> p) plan := by
  rw [map_eq_pure_bind, ← List.append_nil plan]
  exact hp.bind fun a ↦ conducts_pure (g a)

/-- A program that takes no step may come first, if something is left to do when it fails. -/
theorem Quiet.bind {s : S} (hp : π.Quiet p) (hf : ∀ a, π.Conducts (f a) (s :: plan)) :
    π.Conducts (p >>= f) (s :: plan) := by
  intro t result h
  rcases transcript_bind_cases.mp h with ⟨e, rfl, hfirst⟩ | ⟨t₁, t₂, a, rfl, hfirst, hrest⟩
  · exact .of_idle (hp _ _ hfirst).1 ((hp _ _ hfirst).2 e rfl)
  · exact .of_seen_nil (hp _ _ hfirst).1 (hf a _ _ hrest)

/-- **Loops.** A loop over a list takes one step for every member. -/
theorem conducts_mapM {ι : Type v} {f : ι → ExceptT ε (Program R A) α} (step : ι → S)
    (hf : ∀ i, π.Conducts (f i) [step i]) (l : List ι) :
    π.Conducts (l.mapM f) (l.map step) := by
  induction l with
  | nil => exact conducts_pure []
  | cons i l ih =>
    rw [List.mapM_cons, List.map_cons]
    refine (hf i).bind fun a ↦ ?_
    rw [← List.append_nil (l.map step)]
    exact ih.bind fun as ↦ conducts_pure (a :: as)

end Protocol

end Program
