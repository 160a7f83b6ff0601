import Mathlib.Data.List.Infix

/-!
# Streams of self-delimiting frames

A sender writes frames one after the other into a stream and a receiver sees the stream cut at an
arbitrary place. What makes this work is that the frames form a *prefix code*: no frame is a prefix
of another one. Then a prefix of the stream determines the values whose frames lie in it.

Frames are often self-delimiting for some values only, such as those whose length fits into a
header, so the values are restricted by a predicate.

## What is shown

- frames of a list of values lie in a stream of frames, the last of which may be cut, only if the
  values begin the list of the stream: `prefix_of_prefix_append`;
- a cut frame at the beginning of such a stream is a cut of its first frame: `prefix_head`.
-/

namespace PrefixCode

variable {α β : Type*} {frame : α → List β} {P : α → Prop}

/-- No frame is a prefix of another one. -/
def IsPrefixCode (P : α → Prop) (frame : α → List β) : Prop :=
  ∀ a b, P a → P b → frame a <+: frame b → a = b

/-- The frames of a list of values, one after the other. -/
def frames (frame : α → List β) (as : List α) : List β := as.flatMap frame

/-- A part of a frame that is not all of it. -/
def Cut (P : α → Prop) (frame : α → List β) (part : List β) : Prop :=
  ∃ a, P a ∧ part <+: frame a ∧ part ≠ frame a

@[simp] theorem frames_nil : frames frame [] = [] := rfl

@[simp] theorem frames_cons (a : α) (as : List α) :
    frames frame (a :: as) = frame a ++ frames frame as := List.flatMap_cons

theorem frames_append (as bs : List α) :
    frames frame (as ++ bs) = frames frame as ++ frames frame bs := List.flatMap_append

theorem frames_concat (as : List α) (a : α) :
    frames frame (as ++ [a]) = frames frame as ++ frame a := by
  rw [frames_append, frames_cons, frames_nil, List.append_nil]

/-- Two frames that begin the same stream are frames of one value. -/
theorem IsPrefixCode.eq_of_prefix (h : IsPrefixCode P frame) {a b : α} {s : List β} (ha : P a)
    (hb : P b) (has : frame a <+: s) (hbs : frame b <+: s) : a = b := by
  rcases List.prefix_or_prefix_of_prefix has hbs with hab | hba
  · exact h a b ha hb hab
  · exact (h b a hb ha hba).symm

theorem IsPrefixCode.not_prefix_cut (h : IsPrefixCode P frame) {a : α} {part : List β} (ha : P a)
    (hcut : Cut P frame part) : ¬ frame a <+: part := by
  obtain ⟨b, hb, hpart, hne⟩ := hcut
  intro hapart
  obtain rfl := h a b ha hb (hapart.trans hpart)
  exact hne (List.IsPrefix.eq_of_length hpart (Nat.le_antisymm hpart.length_le hapart.length_le))

/-- **Unique decoding.** Values whose frames lie in a stream begin the list of its values. -/
theorem IsPrefixCode.prefix_of_prefix_append (h : IsPrefixCode P frame) {as bs : List α}
    {part : List β} (has : ∀ a ∈ as, P a) (hbs : ∀ b ∈ bs, P b) (hcut : Cut P frame part)
    (hpre : frames frame as <+: frames frame bs ++ part) : as <+: bs := by
  induction as generalizing bs with
  | nil => exact List.nil_prefix
  | cons a as ih =>
    have ha : P a := has a List.mem_cons_self
    rw [frames_cons] at hpre
    have hfirst := (List.prefix_append (frame a) (frames frame as)).trans hpre
    cases bs with
    | nil =>
      rw [frames_nil, List.nil_append] at hfirst
      exact absurd hfirst (h.not_prefix_cut ha hcut)
    | cons b bs =>
      rw [frames_cons, List.append_assoc] at hpre hfirst
      obtain rfl := h.eq_of_prefix ha (hbs b List.mem_cons_self) hfirst (List.prefix_append _ _)
      rw [List.prefix_append_right_inj] at hpre
      rw [List.prefix_cons_inj]
      exact ih (fun a ha ↦ has a (List.mem_cons_of_mem _ ha))
        (fun b hb ↦ hbs b (List.mem_cons_of_mem _ hb)) hpre

/-- A part of a frame that begins a stream of frames is a part of the first of them. -/
theorem IsPrefixCode.prefix_head (h : IsPrefixCode P frame) {a b : α} {part s : List β} (ha : P a)
    (hb : P b) (hpart : part <+: frame a) (hpre : part <+: frame b ++ s) :
    part <+: frame b := by
  rcases List.prefix_or_prefix_of_prefix hpre (List.prefix_append (frame b) s) with hle | hle
  · exact hle
  · obtain rfl := h b a hb ha (hle.trans hpart)
    exact hpart

end PrefixCode
