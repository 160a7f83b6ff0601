import Mathlib.Logic.Function.Basic
import Mathlib.Data.List.Basic

/-!
# File locks that belong to processes

The advisory locks of a POSIX system, seen from runtimes with several threads. The system knows
which *process* holds the lock of a file. A runtime keeps a table of the locks that it takes for
its own, the *valid* ones, and refuses a lock that overlaps with one of them without asking the
system.

A lock is requested through a channel, that is an open file. When a process closes any channel on
a file, the system may release the lock that the process holds on it, whichever channel it was
acquired through, and the table of the runtime does not learn of it: the lock is then *lost*. A lock
of a file can be granted to a second process exactly while the lock of the first one is lost.

## Main results

* `not_held_of_granted`: a lock is granted only while nobody holds one that is valid.
* `granted_of_lost`: a file whose lock is lost is free for another process.
-/

/-- The locks of the files `F` in the hands of the processes `P`. -/
structure ProcessLocks (F P : Type*) where
  /-- The process that the system lets hold the lock of a file. -/
  holder : F → Option P
  /-- The locks that their runtimes take for held. -/
  valid : List (P × F)
  /-- The channels that are open without a valid lock. -/
  channels : List (P × F)

namespace ProcessLocks

variable {F P : Type*} [DecidableEq F] [DecidableEq P]

def initial : ProcessLocks F P := ⟨fun _ ↦ none, [], []⟩

/-- How a request ends. -/
inductive Answer where
  | granted
  /-- Another process holds the lock. -/
  | refused
  /-- The runtime has a valid lock on the file. -/
  | overlapping
  deriving DecidableEq

/-! ## Requests and releases -/

section Operations

variable (s : ProcessLocks F P) (p : P) (f : F)

def tryLock : Answer :=
  if (p, f) ∈ s.valid then .overlapping
  else if ∃ q ∈ s.holder f, q ≠ p then .refused
  else .granted

/-- After a granted request. -/
def lock : ProcessLocks F P :=
  { s with holder := Function.update s.holder f (some p), valid := (p, f) :: s.valid }

/-- After a request that is not granted: its channel is still to be closed. -/
def leave : ProcessLocks F P := { s with channels := (p, f) :: s.channels }

/-- The system releases what the process holds on the file. -/
def unlocked : F → Option P :=
  if s.holder f = some p then Function.update s.holder f none else s.holder

/-- A lock is released; its channel is still to be closed. -/
def release : ProcessLocks F P where
  holder := s.unlocked p f
  valid := s.valid.filter (· ≠ (p, f))
  channels := (p, f) :: s.channels

/-- A channel is closed, and the system releases the lock of the process with it or does not. -/
def closeChannel (drops : Bool) : ProcessLocks F P :=
  if (p, f) ∈ s.channels then
    { s with
      holder := if drops then s.unlocked p f else s.holder
      channels := s.channels.erase (p, f) }
  else s

/-- The process ends. -/
def exit : ProcessLocks F P where
  holder f := if s.holder f = some p then none else s.holder f
  valid := s.valid.filter (·.1 ≠ p)
  channels := s.channels.filter (·.1 ≠ p)

end Operations

/-! ## What each operation does to the locks

The system knows one holder of a file and the runtime of a process a set of locks that it takes
for valid. The two come apart where a channel is closed: that drops the lock of the process on
its file in the system, whichever channel has acquired it, while the runtime still takes it for
valid. Every lock that the system knows is known to the runtime, not the other way round. -/

section Locks

variable {s : ProcessLocks F P} {p q : P} {f g : F}

theorem tryLock_eq_granted : s.tryLock p f = .granted ↔
    (p, f) ∉ s.valid ∧ ∀ q ∈ s.holder f, q = p := by
  rw [tryLock]
  by_cases hvalid : (p, f) ∈ s.valid
  · rw [if_pos hvalid]
    exact iff_of_false nofun fun h ↦ h.1 hvalid
  rw [if_neg hvalid]
  by_cases hheld : ∃ q ∈ s.holder f, q ≠ p
  · rw [if_pos hheld]
    obtain ⟨q, hq, hne⟩ := hheld
    exact iff_of_false nofun fun h ↦ hne (h.2 q hq)
  · rw [if_neg hheld]
    push Not at hheld
    exact iff_of_true rfl ⟨hvalid, hheld⟩

theorem unlocked_eq_some : s.unlocked p f g = some q ↔ s.holder g = some q ∧ (q, g) ≠ (p, f) := by
  rw [unlocked]
  by_cases hheld : s.holder f = some p
  · rw [if_pos hheld]
    by_cases hg : g = f
    · obtain rfl := hg
      rw [Function.update_self]
      refine iff_of_false nofun ?_
      rintro ⟨hq, hne⟩
      rw [hheld] at hq
      exact hne (by rw [Option.some.inj hq])
    · rw [Function.update_of_ne hg, and_iff_left]
      exact fun h ↦ hg (Prod.mk.inj h).2
  · rw [if_neg hheld]
    refine ⟨fun h ↦ ⟨h, ?_⟩, And.left⟩
    rintro heq
    obtain ⟨rfl, rfl⟩ := Prod.mk.inj heq
    exact hheld h

/-- Every lock that the system knows is known to its runtime. -/
def Backed (s : ProcessLocks F P) : Prop := ∀ p f, s.holder f = some p → (p, f) ∈ s.valid

omit [DecidableEq F] [DecidableEq P] in
theorem backed_initial : Backed (initial : ProcessLocks F P) := nofun

omit [DecidableEq P] in
theorem Backed.lock (h : s.Backed) : (s.lock p f).Backed := by
  intro q g hheld
  by_cases hg : g = f
  · obtain rfl := hg
    change Function.update s.holder g (some p) g = some q at hheld
    rw [Function.update_self] at hheld
    rw [Option.some.inj hheld]
    exact List.mem_cons_self
  · change Function.update s.holder f (some p) g = some q at hheld
    rw [Function.update_of_ne hg] at hheld
    exact List.mem_cons_of_mem _ (h q g hheld)

theorem Backed.release (h : s.Backed) : (s.release p f).Backed := by
  intro q g hheld
  obtain ⟨hheld, hne⟩ := unlocked_eq_some.mp hheld
  exact List.mem_filter.mpr ⟨h q g hheld, decide_eq_true hne⟩

theorem Backed.closeChannel (h : s.Backed) (drops : Bool) : (s.closeChannel p f drops).Backed := by
  intro q g hheld
  rw [ProcessLocks.closeChannel] at hheld ⊢
  by_cases hopen : (p, f) ∈ s.channels
  · rw [if_pos hopen] at hheld ⊢
    cases drops with
    | true => exact h q g (unlocked_eq_some.mp hheld).1
    | false => exact h q g hheld
  · rw [if_neg hopen] at hheld ⊢
    exact h q g hheld

omit [DecidableEq F] in
theorem exit_holder_eq_some : (s.exit p).holder f = some q ↔ s.holder f = some q ∧ q ≠ p := by
  rw [exit]
  dsimp only
  by_cases hheld : s.holder f = some p
  · rw [if_pos hheld]
    refine iff_of_false nofun ?_
    rintro ⟨hq, hne⟩
    exact hne (Option.some.inj (hq.symm.trans hheld))
  · rw [if_neg hheld]
    refine ⟨fun h ↦ ⟨h, ?_⟩, And.left⟩
    rintro rfl
    exact hheld h

omit [DecidableEq F] in
theorem Backed.exit (h : s.Backed) : (s.exit p).Backed := by
  intro q g hheld
  obtain ⟨hheld, hne⟩ := exit_holder_eq_some.mp hheld
  exact List.mem_filter.mpr ⟨h q g hheld, decide_eq_true hne⟩

theorem mem_valid_release :
    (q, g) ∈ (s.release p f).valid ↔ (q, g) ∈ s.valid ∧ (q, g) ≠ (p, f) := by
  rw [release, List.mem_filter, decide_eq_true_iff]

omit [DecidableEq F] in
theorem mem_valid_exit : (q, g) ∈ (s.exit p).valid ↔ (q, g) ∈ s.valid ∧ q ≠ p := by
  rw [exit, List.mem_filter, decide_eq_true_iff]

theorem valid_closeChannel (drops : Bool) : (s.closeChannel p f drops).valid = s.valid := by
  rw [closeChannel]
  split
  · rfl
  · rfl

/-- **Exclusion.** A lock is granted only while no lock of the file that the system knows of is
valid. -/
theorem not_held_of_granted (h : s.tryLock p f = .granted) (hq : (q, f) ∈ s.valid) :
    s.holder f ≠ some q := by
  obtain ⟨hvalid, hheld⟩ := tryLock_eq_granted.mp h
  intro hholder
  rw [hheld q hholder] at hq
  exact hvalid hq

/-- **Loss.** While its lock is lost a file is free for another process. -/
theorem granted_of_lost (hback : s.Backed) (hq : ∀ q, (q, f) ∈ s.valid → s.holder f ≠ some q)
    (hp : (p, f) ∉ s.valid) : s.tryLock p f = .granted := by
  refine tryLock_eq_granted.mpr ⟨hp, fun q hholder ↦ ?_⟩
  exact absurd hholder (hq q (hback q f hholder))

/-! ## Locks that are not lost -/

/-- Every lock that a runtime takes for held is held. -/
def Held (s : ProcessLocks F P) : Prop := ∀ p f, (p, f) ∈ s.valid → s.holder f = some p

omit [DecidableEq F] [DecidableEq P] in
theorem held_initial : Held (initial : ProcessLocks F P) := nofun

theorem Held.lock (h : s.Held) (hgranted : s.tryLock p f = .granted) : (s.lock p f).Held := by
  intro q g hmem
  change Function.update s.holder f (some p) g = some q
  rcases List.mem_cons.mp hmem with heq | hvalid
  · obtain ⟨rfl, rfl⟩ := Prod.mk.inj heq
    rw [Function.update_self]
  · have hg : g ≠ f := by
      rintro rfl
      exact not_held_of_granted hgranted hvalid (h q g hvalid)
    rw [Function.update_of_ne hg]
    exact h q g hvalid

theorem Held.release (h : s.Held) : (s.release p f).Held := by
  intro q g hmem
  obtain ⟨hvalid, hne⟩ := mem_valid_release.mp hmem
  exact unlocked_eq_some.mpr ⟨h q g hvalid, hne⟩

theorem Held.closeChannel (h : s.Held) : (s.closeChannel p f false).Held := by
  rw [ProcessLocks.closeChannel]
  split
  · exact h
  · exact h

omit [DecidableEq F] in
theorem Held.exit (h : s.Held) : (s.exit p).Held := by
  intro q g hmem
  obtain ⟨hvalid, hne⟩ := mem_valid_exit.mp hmem
  exact exit_holder_eq_some.mpr ⟨h q g hvalid, hne⟩

end Locks

end ProcessLocks
