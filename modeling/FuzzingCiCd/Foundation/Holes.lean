import FuzzingCiCd.Foundation.Replacement

/-!
# Replacement in a text with a hole

A text `head ++ w ++ tail` with a hole for `w`. A pattern that looks at the text in front of the
hole may match nothing, or match something in front of the hole, or match a stretch that covers the
hole and replace it with a text that does not depend on the filling (`Treated`). If it does so at
every place in front of the hole to which the loop comes, the replacement of its matches treats all
fillings alike: either the loop comes to the hole with the same output for all of them, or a match
covers the hole and the whole result is the same for all of them (`comes_or_hides`).

## The loop

`Comes` says that the loop over a text comes to a place, which is given by the rest of the text
there. A place that the loop does not come to is jumped over by a match (`Comes.cut`). `Finds` says
that the loop finds a match, and where.
-/

namespace Replacement

variable {α : Type*} {pattern : Pattern α}

/-! ## The loop and its places

A text with a hole is swept once for each filling, and the loop comes to the same places in all
of them as long as it is in front of the hole. `Comes` says that the loop gets to a place and
what it has put out by then; a stretch in which the pattern finds nothing is copied, and a match
is replaced. -/

/-- The text with the matches of a pattern replaced, given the character before it. -/
def sweep (pattern : Pattern α) (before : Option α) (cs : List α) : List α :=
  replaceAll pattern cs.length before cs

/-- The loop over a text comes to a place: what it has put out by then, the character before the
place and the rest of the text. -/
inductive Comes (pattern : Pattern α) : Option α → List α → List α → Option α → List α → Prop
  | here (before : Option α) (cs : List α) : Comes pattern before cs [] before cs
  | copy {before before' : Option α} {c : α} {cs out rest : List α}
      (h : pattern before (c :: cs) = none) (hrest : Comes pattern (some c) cs out before' rest) :
      Comes pattern before (c :: cs) (c :: out) before' rest
  | replace {before before' : Option α} {c : α} {cs out rest : List α} {m : Match α}
      (h : pattern before (c :: cs) = some m)
      (hrest : Comes pattern m.matched.getLast? m.rest out before' rest) :
      Comes pattern before (c :: cs) (m.replacement ++ out) before' rest

/-- The loop over a text finds a match behind a part of the text. -/
def Finds (pattern : Pattern α) (cs front : List α) (m : Match α) : Prop :=
  ∃ out before rest, cs = front ++ rest ∧ Comes pattern none cs out before rest ∧
    pattern before rest = some m

theorem sweep_nil (before : Option α) : sweep pattern before [] = [] := rfl

theorem sweep_copy {before : Option α} {c : α} {cs : List α}
    (h : pattern before (c :: cs) = none) :
    sweep pattern before (c :: cs) = c :: sweep pattern (some c) cs := by
  rw [sweep, List.length_cons, replaceAll, h]
  rfl

theorem Proper.length_lt (hproper : Proper pattern) {before : Option α} {cs : List α} {m : Match α}
    (h : pattern before cs = some m) : m.rest.length < cs.length := by
  obtain ⟨hsplit, hne⟩ := hproper before cs m h
  have hpos := List.length_pos_iff.mpr hne
  rw [hsplit, List.length_append]
  omega

theorem sweep_replace (hproper : Proper pattern) {before : Option α} {c : α} {cs : List α}
    {m : Match α} (h : pattern before (c :: cs) = some m) :
    sweep pattern before (c :: cs) =
      m.replacement ++ sweep pattern m.matched.getLast? m.rest := by
  have hlt := hproper.length_lt h
  rw [List.length_cons] at hlt
  rw [sweep, List.length_cons, replaceAll, h]
  dsimp only
  rw [sweep, replaceAll_of_le hproper (by omega : m.rest.length ≤ cs.length) (Nat.le_refl _)]

/-- The character before a text matters only if the pattern looks at it. -/
theorem sweep_before (hproper : Proper pattern) {before before' : Option α} {cs : List α}
    (h : pattern before cs = pattern before' cs) :
    sweep pattern before cs = sweep pattern before' cs := by
  rcases cs with _ | ⟨c, cs⟩
  · rfl
  rcases hfound : pattern before (c :: cs) with _ | m
  · rw [sweep_copy hfound, sweep_copy (h.symm.trans hfound)]
  · rw [sweep_replace hproper hfound, sweep_replace hproper (h.symm.trans hfound)]

theorem Comes.sweep_eq (hproper : Proper pattern) {before before' : Option α}
    {cs out rest : List α} (h : Comes pattern before cs out before' rest) :
    sweep pattern before cs = out ++ sweep pattern before' rest := by
  induction h with
  | here => rfl
  | copy hnone _ ih => rw [sweep_copy hnone, ih, List.cons_append]
  | replace hfound _ ih => rw [sweep_replace hproper hfound, ih, List.append_assoc]

theorem Comes.suffix (hproper : Proper pattern) {before before' : Option α} {cs out rest : List α}
    (h : Comes pattern before cs out before' rest) : rest <:+ cs := by
  induction h with
  | here => exact List.suffix_refl _
  | copy _ _ ih => exact ih.trans (List.suffix_cons _ _)
  | @replace before before' c cs out rest m hfound _ ih =>
    have hsplit : m.rest <:+ c :: cs := ⟨m.matched, (hproper _ _ _ hfound).1.symm⟩
    exact ih.trans hsplit

theorem Comes.trans {before before' before'' : Option α} {cs cs' cs'' out out' : List α}
    (h : Comes pattern before cs out before' cs')
    (h' : Comes pattern before' cs' out' before'' cs'') :
    Comes pattern before cs (out ++ out') before'' cs'' := by
  induction h with
  | here => exact h'
  | copy hnone _ ih => exact .copy hnone (ih h')
  | replace hfound _ ih =>
    rw [List.append_assoc]
    exact .replace hfound (ih h')

/-- The first step of a loop that does not end where it begins. -/
theorem Comes.first {before before' : Option α} {c : α} {cs out rest : List α}
    (h : Comes pattern before (c :: cs) out before' rest) (hlt : rest.length < (c :: cs).length) :
    (pattern before (c :: cs) = none ∧ ∃ out', Comes pattern (some c) cs out' before' rest) ∨
      ∃ m, pattern before (c :: cs) = some m ∧
        ∃ out', Comes pattern m.matched.getLast? m.rest out' before' rest := by
  cases h with
  | here => exact absurd hlt (Nat.lt_irrefl _)
  | copy hnone hrest => exact Or.inl ⟨hnone, _, hrest⟩
  | replace hfound hrest => exact Or.inr ⟨_, hfound, _, hrest⟩

theorem getLast?_append_or {front : List α} (hne : front ≠ []) (rest : List α)
    (before : Option α) :
    (front ++ rest).getLast?.or before = rest.getLast?.or front.getLast? := by
  rw [List.getLast?_append, List.getLast?_eq_some_getLast hne]
  rcases rest.getLast? with _ | last
  · rfl
  · rfl

/-- The character before a place is the last one of the text in front of it. -/
theorem Comes.before_eq (hproper : Proper pattern) {before before' : Option α}
    {cs out rest head : List α} (h : Comes pattern before cs out before' rest)
    (hcs : cs = head ++ rest) : before' = head.getLast?.or before := by
  induction h generalizing head with
  | here =>
    obtain rfl : head = [] := List.self_eq_append_left.mp hcs
    rfl
  | @copy before before' c cs out rest hnone hrest ih =>
    rcases head with _ | ⟨d, head⟩
    · have hle := (hrest.suffix hproper).length_le
      rw [← show c :: cs = rest from hcs, List.length_cons] at hle
      omega
    · obtain ⟨rfl, rfl⟩ := List.cons.inj hcs
      rw [ih rfl]
      exact (getLast?_append_or (List.cons_ne_nil c []) head before).symm
  | @replace before before' c cs out rest m hfound hrest ih =>
    obtain ⟨hsplit, hne⟩ := hproper _ _ _ hfound
    obtain ⟨front, hfront⟩ := hrest.suffix hproper
    have hhead : head = m.matched ++ front := by
      rw [hcs, ← hfront, ← List.append_assoc] at hsplit
      exact List.append_cancel_right hsplit
    rw [ih hfront.symm, hhead, getLast?_append_or hne]

/-- A stretch in which nothing is found is copied. -/
theorem comes_of_none (before : Option α) {head rest : List α}
    (h : ∀ b place, place <:+ head → place ≠ [] → pattern b (place ++ rest) = none) :
    Comes pattern before (head ++ rest) head (head.getLast?.or before) rest := by
  induction head generalizing before with
  | nil => exact .here _ _
  | cons c head ih =>
    have hrest := ih (some c) fun b place hplace ↦
      h b place (hplace.trans (List.suffix_cons _ _))
    rw [show (c :: head).getLast?.or before = head.getLast?.or (some c) from
      getLast?_append_or (List.cons_ne_nil c []) head before]
    exact .copy (h _ _ (List.suffix_refl _) (List.cons_ne_nil _ _)) hrest

/-- A loop that has put out nothing is where it began. -/
theorem Comes.eq_of_nil
    (hreplacement : ∀ b cs m, pattern b cs = some m → m.replacement ≠ [])
    {before before' : Option α} {cs out rest : List α}
    (h : Comes pattern before cs out before' rest) (hout : out = []) :
    rest = cs := by
  cases h with
  | here => rfl
  | copy => cases hout
  | replace hfound => exact absurd (List.append_eq_nil_iff.mp hout).1 (hreplacement _ _ _ hfound)

/-- The last character put out is the last one in front of the place or ends a replacement. -/
theorem Comes.getLast? (hproper : Proper pattern) {good : α → Prop}
    (hreplacement : ∀ b cs m, pattern b cs = some m → m.replacement ≠ [])
    (hgood : ∀ b cs m, pattern b cs = some m → ∀ c ∈ m.replacement.getLast?, good c)
    {before before' : Option α} {cs out rest head : List α}
    (h : Comes pattern before cs out before' rest) (hcs : cs = head ++ rest)
    (hhead : ∀ c ∈ head.getLast?, good c) : ∀ c ∈ out.getLast?, good c := by
  induction h generalizing head with
  | here => exact fun c hc ↦ by cases hc
  | @copy before before' d cs out rest hnone hrest ih =>
    rcases head with _ | ⟨e, head⟩
    · have hle := (hrest.suffix hproper).length_le
      rw [← show d :: cs = rest from hcs, List.length_cons] at hle
      omega
    obtain ⟨rfl, rfl⟩ := List.cons.inj hcs
    intro c hc
    rcases hout : out with _ | ⟨x, out'⟩
    · -- nothing follows, so the character is the last one in front of the place
      have hrest' : rest = head ++ rest := hrest.eq_of_nil hreplacement hout
      obtain rfl : head = [] := List.self_eq_append_left.mp hrest'
      rw [hout] at hc
      exact hhead c hc
    · rw [hout, List.getLast?_cons_cons, ← hout] at hc
      refine ih rfl (fun c' hc' ↦ hhead c' ?_) c hc
      rcases head with _ | ⟨y, head⟩
      · cases hc'
      · rwa [List.getLast?_cons_cons]
  | @replace before before' d cs out rest m hfound hrest ih =>
    obtain ⟨hsplit, hne⟩ := hproper _ _ _ hfound
    obtain ⟨front, hfront⟩ := hrest.suffix hproper
    have hhead' : head = m.matched ++ front := by
      rw [hcs, ← hfront, ← List.append_assoc] at hsplit
      exact List.append_cancel_right hsplit
    intro c hc
    rw [List.getLast?_append] at hc
    rcases hlast : out.getLast? with _ | last
    · rw [hlast, Option.none_or] at hc
      exact hgood _ _ _ hfound c hc
    · rw [hlast, Option.some_or] at hc
      refine ih hfront.symm (fun c' hc' ↦ hhead c' ?_) c (hlast.trans hc)
      rw [hhead', List.getLast?_append, Option.mem_def.mp hc']
      rfl

/-! ## Matches that begin before a stretch and end in it -/

/-- The loop over `front ++ stretch ++ rest` finds a match that begins in `front` and ends behind
the first character of `stretch`, but not behind `stretch`. -/
inductive Straddles (pattern : Pattern α) (before : Option α) (front stretch rest : List α) : Prop
  | intro (out : List α) (b : Option α) (front' place taken left : List α) (m : Match α)
      (hfront : front = front' ++ place) (hstretch : stretch = taken ++ left) (hplace : place ≠ [])
      (htaken : taken ≠ [])
      (hcomes : Comes pattern before (front ++ stretch ++ rest) out b (place ++ stretch ++ rest))
      (hfound : pattern b (place ++ stretch ++ rest) = some m)
      (hmatched : m.matched = place ++ taken)

/-- **Jumping.** A loop that comes behind a stretch comes to its beginning, or a match straddles
it. -/
theorem Comes.cut (hproper : Proper pattern) {before before' : Option α}
    {front stretch rest out : List α}
    (h : Comes pattern before (front ++ stretch ++ rest) out before' rest) :
    (∃ out₁ out₂ b, Comes pattern before (front ++ stretch ++ rest) out₁ b (stretch ++ rest) ∧
      Comes pattern b (stretch ++ rest) out₂ before' rest ∧ out = out₁ ++ out₂) ∨
    Straddles pattern before front stretch rest := by
  generalize hcs : front ++ stretch ++ rest = cs at h ⊢
  induction h generalizing front with
  | @here before rest =>
    rw [List.append_assoc] at hcs
    obtain ⟨rfl, hstretch⟩ := List.append_eq_nil_iff.mp
      (List.append_left_eq_self.mp ((List.append_assoc _ _ _).trans hcs))
    rw [hstretch]
    exact Or.inl ⟨[], [], before, .here _ _, .here _ _, rfl⟩
  | @copy before before' c cs out rest hnone hrest ih =>
    rcases front with _ | ⟨d, front⟩
    · rw [List.nil_append] at hcs
      rw [hcs]
      exact Or.inl ⟨[], c :: out, before, .here _ _, .copy hnone hrest, rfl⟩
    · obtain ⟨rfl, htext⟩ := List.cons.inj hcs
      rcases ih htext with ⟨out₁, out₂, b, h₁, h₂, rfl⟩ |
        ⟨out₁, b, front', place, taken, left, m, rfl, hstretch, hplace, htaken, hcomes, hfound, hm⟩
      · exact Or.inl ⟨d :: out₁, out₂, b, .copy hnone h₁, h₂, rfl⟩
      · refine Or.inr ⟨d :: out₁, b, d :: front', place, taken, left, m, rfl, hstretch, hplace,
          htaken, ?_, hfound, hm⟩
        rw [hcs]
        exact .copy hnone (htext ▸ hcomes)
  | @replace before before' c cs out rest m hfound hrest ih =>
    obtain ⟨hsplit, hne⟩ := hproper _ _ _ hfound
    rcases front with _ | ⟨d, front⟩
    · rw [List.nil_append] at hcs
      rw [hcs]
      exact Or.inl ⟨[], m.replacement ++ out, before, .here _ _, .replace hfound hrest, rfl⟩
    have htext : d :: front ++ (stretch ++ rest) = m.matched ++ m.rest := by
      rw [← hsplit, ← hcs, List.append_assoc]
    have hsuffix : stretch ++ rest <:+ c :: cs := ⟨d :: front, htext.trans hsplit.symm⟩
    have hends : (∃ front', front' ++ stretch ++ rest = m.rest) ∨
        ∃ taken left, taken ≠ [] ∧ stretch = taken ++ left ∧ m.rest = left ++ rest := by
      rcases List.suffix_or_suffix_of_suffix hsuffix ⟨m.matched, hsplit.symm⟩ with
        ⟨front', hfront'⟩ | ⟨taken, htaken⟩
      · exact Or.inl ⟨front', by rw [List.append_assoc, hfront']⟩
      obtain ⟨left, hleft⟩ := hrest.suffix hproper
      rw [← hleft, ← List.append_assoc] at htaken
      have hstretch := List.append_cancel_right htaken
      rcases taken with _ | ⟨t, taken⟩
      · exact Or.inl ⟨[], by rw [← hleft, ← hstretch]; rfl⟩
      · exact Or.inr ⟨t :: taken, left, List.cons_ne_nil _ _, hstretch.symm, hleft.symm⟩
    rcases hends with ⟨front', hfront'⟩ | ⟨taken, left, htaken, rfl, hleft⟩
    · rcases ih hfront' with ⟨out₁, out₂, b, h₁, h₂, rfl⟩ |
        ⟨out₁, b, front'', place, taken, left, m', rfl, hstretch, hplace, htaken, hcomes,
          hfound', hm⟩
      · rw [← List.append_assoc]
        exact Or.inl ⟨m.replacement ++ out₁, out₂, b, .replace hfound h₁, h₂, rfl⟩
      · refine Or.inr ⟨m.replacement ++ out₁, b, m.matched ++ front'', place, taken, left, m', ?_,
          hstretch, hplace, htaken, ?_, hfound', hm⟩
        · rw [← hfront', List.append_assoc (front'' ++ place), ← List.append_assoc m.matched]
            at htext
          rw [List.append_cancel_right htext, List.append_assoc]
        · rw [hcs]
          exact .replace hfound (hfront' ▸ hcomes)
    · -- the match straddles the stretch
      refine Or.inr ⟨[], before, [], d :: front, taken, left, m, rfl, rfl, List.cons_ne_nil _ _,
        htaken, ?_, ?_, ?_⟩
      · exact .here _ _
      · rw [hcs]
        exact hfound
      · rw [hleft, List.append_assoc taken, ← List.append_assoc] at htext
        exact (List.append_cancel_right htext).symm

/-! ## Fillings

A pattern that is treated at every place in front of a hole lets the loop come to the hole, with
one output for all fillings, or has a match that covers it, and then the result is one for all
fillings. The induction is on the text in front of the hole; a match in front of the hole makes
it shorter. -/

/-- What a pattern does at a place in front of a hole: it finds nothing, or something in front of
the hole, or a stretch that covers the hole, with any filling. -/
inductive Treated (pattern : Pattern α) (Fills : List α → Prop) (before : Option α)
    (place tail : List α) : Prop
  | passes (h : ∀ w, Fills w → pattern before (place ++ w ++ tail) = none)
  | inside (matched replacement rest : List α) (hsplit : place = matched ++ rest)
      (h : ∀ w, Fills w → pattern before (place ++ w ++ tail) =
        some ⟨matched, replacement, rest ++ w ++ tail⟩)
  | covers (replacement taken rest : List α) (hsplit : tail = taken ++ rest)
      (h : ∀ w, Fills w → pattern before (place ++ w ++ tail) =
        some ⟨place ++ w ++ taken, replacement, rest⟩)

/-- A match covers the hole: the result is the same with any filling, and the loop does not come to
the hole. -/
structure Hides (pattern : Pattern α) (Fills : List α → Prop) (before : Option α)
    (head tail : List α) : Prop where
  same : ∃ out, ∀ w, Fills w → sweep pattern before (head ++ w ++ tail) = out
  unseen : ∀ w, Fills w → ∀ out b, ¬ Comes pattern before (head ++ w ++ tail) out b (w ++ tail)
  covered : ∃ b place taken rest, place <:+ head ∧ place ≠ [] ∧ tail = taken ++ rest ∧
    ∀ w, Fills w → ∃ replacement,
      pattern b (place ++ w ++ tail) = some ⟨place ++ w ++ taken, replacement, rest⟩

/-- A character is copied, and behind it the hole is covered. -/
theorem Hides.copy {Fills : List α → Prop} {before : Option α} {c : α} {head tail : List α}
    (hnone : ∀ w, Fills w → pattern before (c :: head ++ w ++ tail) = none)
    (h : Hides pattern Fills (some c) head tail) : Hides pattern Fills before (c :: head) tail := by
  obtain ⟨⟨out, hsame⟩, hunseen, b, place, taken, rest, hplace, hrest⟩ := h
  refine ⟨⟨c :: out, fun w hw ↦ ?_⟩, fun w hw out b hcomes ↦ ?_,
    ⟨b, place, taken, rest, hplace.trans (List.suffix_cons c head), hrest⟩⟩
  · rw [← hsame w hw]
    exact sweep_copy (hnone w hw)
  · have hlonger : (w ++ tail).length < (c :: head ++ w ++ tail).length := by
      simp only [List.length_append, List.length_cons]
      omega
    rcases hcomes.first hlonger with ⟨-, out', hrest⟩ | ⟨m, hm, -⟩
    · exact hunseen w hw out' b hrest
    · cases (hnone w hw).symm.trans hm

/-- A match in front of the hole is replaced, and behind it the hole is covered. -/
theorem Hides.replace (hproper : Proper pattern) {Fills : List α → Prop} {before : Option α}
    {c : α} {head tail matched replacement rest : List α} (hsplit : c :: head = matched ++ rest)
    (hfound : ∀ w, Fills w → pattern before (c :: head ++ w ++ tail) =
      some ⟨matched, replacement, rest ++ w ++ tail⟩)
    (h : Hides pattern Fills matched.getLast? rest tail) :
    Hides pattern Fills before (c :: head) tail := by
  obtain ⟨⟨out, hsame⟩, hunseen, b, place, taken, rest', hplace, hrest⟩ := h
  refine ⟨⟨replacement ++ out, fun w hw ↦ ?_⟩, fun w hw out b hcomes ↦ ?_,
    ⟨b, place, taken, rest', hplace.trans ⟨matched, hsplit.symm⟩, hrest⟩⟩
  · rw [← hsame w hw]
    exact sweep_replace hproper (hfound w hw)
  · have hlonger : (w ++ tail).length < (c :: head ++ w ++ tail).length := by
      simp only [List.length_append, List.length_cons]
      omega
    rcases hcomes.first hlonger with ⟨hnone, -⟩ | ⟨m, hm, out', hrest⟩
    · cases (hfound w hw).symm.trans hnone
    · obtain rfl := Option.some.inj ((hfound w hw).symm.trans hm)
      exact hunseen w hw out' b hrest

/-- A match covers the hole. -/
theorem hides_of_covers (hproper : Proper pattern) {Fills : List α → Prop} {before : Option α}
    {c : α} {head tail replacement taken rest : List α} (hfills : ∀ w, Fills w → w ≠ [])
    (htail : ∀ b b', sweep pattern b tail = sweep pattern b' tail) (hsplit : tail = taken ++ rest)
    (hfound : ∀ w, Fills w → pattern before (c :: head ++ w ++ tail) =
      some ⟨c :: head ++ w ++ taken, replacement, rest⟩) :
    Hides pattern Fills before (c :: head) tail := by
  have hlast : ∀ w, sweep pattern (c :: head ++ w ++ taken).getLast? rest =
      sweep pattern (taken.getLast?.or none) rest := by
    intro w
    rcases List.eq_nil_or_concat taken with rfl | ⟨taken, last, rfl⟩
    · rw [List.nil_append] at hsplit
      rw [← hsplit]
      exact htail _ _
    · rw [List.getLast?_append]
      simp
  refine ⟨⟨replacement ++ sweep pattern (taken.getLast?.or none) rest, fun w hw ↦ ?_⟩,
    fun w hw out b hcomes ↦ ?_, before, c :: head, taken, rest, List.suffix_refl _,
    List.cons_ne_nil _ _, hsplit, fun w hw ↦ ⟨replacement, hfound w hw⟩⟩
  · rw [← hlast w]
    exact sweep_replace hproper (hfound w hw)
  · have hlonger : (w ++ tail).length < (c :: head ++ w ++ tail).length := by
      simp only [List.length_append, List.length_cons]
      omega
    rcases hcomes.first hlonger with ⟨hnone, -⟩ | ⟨m, hm, out', hrest⟩
    · cases (hfound w hw).symm.trans hnone
    · obtain rfl := Option.some.inj ((hfound w hw).symm.trans hm)
      -- the match ends behind the hole, and the loop does not go back
      have hle := (hrest.suffix hproper).length_le
      have hpos := List.length_pos_iff.mpr (hfills w hw)
      rw [hsplit] at hle
      simp only [List.length_append] at hle
      omega

/-- **The loop before a hole.** It comes to the hole with one output for all fillings, or a match
covers the hole. -/
theorem comes_or_hides (hproper : Proper pattern) {Fills : List α → Prop} {head tail : List α}
    (hfills : ∀ w, Fills w → w ≠ [])
    (htail : ∀ b b', sweep pattern b tail = sweep pattern b' tail)
    (before : Option α)
    (htreated : ∀ b place, place <:+ head → place ≠ [] →
      (∀ w, Fills w → ∃ out,
        Comes pattern before (head ++ w ++ tail) out b (place ++ w ++ tail)) →
      Treated pattern Fills b place tail) :
    (∃ out, ∀ w, Fills w → Comes pattern before (head ++ w ++ tail) out
      (head.getLast?.or before) (w ++ tail)) ∨ Hides pattern Fills before head tail := by
  by_cases hfilled : ∃ w, Fills w
  swap
  · exact Or.inl ⟨[], fun w hw ↦ absurd ⟨w, hw⟩ hfilled⟩
  obtain ⟨w₀, hw₀⟩ := hfilled
  induction hn : head.length using Nat.strongRecOn generalizing head before with
  | _ n ih =>
    rcases head with _ | ⟨c, head⟩
    · exact Or.inl ⟨[], fun w _ ↦ .here _ _⟩
    subst hn
    -- the loop goes on behind the first character or behind a match
    have hplaces : ∀ {rest b'}, rest <:+ c :: head →
        (∀ w, Fills w → ∃ out, Comes pattern before (c :: head ++ w ++ tail) out b'
          (rest ++ w ++ tail)) →
        ∀ b place, place <:+ rest → place ≠ [] →
          (∀ w, Fills w → ∃ out, Comes pattern b' (rest ++ w ++ tail) out b
            (place ++ w ++ tail)) →
          Treated pattern Fills b place tail := by
      intro rest b' hrest hfirst b place hplace hne hcomes
      refine htreated b place (hplace.trans hrest) hne fun w hw ↦ ?_
      obtain ⟨out, hout⟩ := hfirst w hw
      obtain ⟨out', hout'⟩ := hcomes w hw
      exact ⟨out ++ out', hout.trans hout'⟩
    rcases htreated before (c :: head) (List.suffix_refl _) (List.cons_ne_nil _ _)
      fun w _ ↦ ⟨[], .here _ _⟩ with
      hnone | ⟨matched, replacement, rest, hsplit, hfound⟩ |
      ⟨replacement, taken, rest, hsplit, hfound⟩
    · -- nothing is found: the character is copied
      have hcopied : ∀ w, Fills w → ∃ out, Comes pattern before (c :: head ++ w ++ tail) out
          (some c) (head ++ w ++ tail) := fun w hw ↦ ⟨[c], .copy (hnone w hw) (.here _ _)⟩
      rcases ih head.length (Nat.lt_succ_self _) (some c)
        (hplaces (List.suffix_cons c head) hcopied) rfl with ⟨out, hcomes⟩ | hhides
      · rw [show (c :: head).getLast?.or before = head.getLast?.or (some c) from
          getLast?_append_or (List.cons_ne_nil c []) head before]
        exact Or.inl ⟨c :: out, fun w hw ↦ .copy (hnone w hw) (hcomes w hw)⟩
      · exact Or.inr (hhides.copy hnone)
    · -- a match in front of the hole
      have hne : matched ≠ [] := (hproper _ _ _ (hfound w₀ hw₀)).2
      have hlt : rest.length < (c :: head).length := by
        have hpos := List.length_pos_iff.mpr hne
        rw [hsplit, List.length_append]
        omega
      have hreplaced : ∀ w, Fills w → ∃ out, Comes pattern before (c :: head ++ w ++ tail) out
          matched.getLast? (rest ++ w ++ tail) :=
        fun w hw ↦ ⟨replacement ++ [], .replace (hfound w hw) (.here _ _)⟩
      rcases ih rest.length hlt matched.getLast? (hplaces ⟨matched, hsplit.symm⟩ hreplaced) rfl with
        ⟨out, hcomes⟩ | hhides
      · rw [hsplit, getLast?_append_or hne, ← hsplit]
        exact Or.inl ⟨replacement ++ out, fun w hw ↦ .replace (hfound w hw) (hcomes w hw)⟩
      · exact Or.inr (hhides.replace hproper hsplit hfound)
    · exact Or.inr (hides_of_covers hproper hfills htail hsplit hfound)

end Replacement
