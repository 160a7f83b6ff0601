import Mathlib.Data.List.Basic

/-!
# Names of a path

A path is a list of names, two of which are not names of files: one stands for the directory itself
and one for its parent. Normalizing a path drops the first and lets the second cancel the name
before it.

## Depth

`depth` follows a path from the left and counts how far below its start it is, and fails where the
path climbs above the start. It decides everything one asks of a normalized path: the normalized
path starts with the parent exactly when `depth` fails (`head?_normalize`), and otherwise it is
*plain*, of that length, and the same whatever directory the path is resolved against
(`foldl_normalizeName`).
-/

namespace Paths

variable {α β : Type*} [DecidableEq α] [DecidableEq β] (dot parent : α)

/-- One name more, after the names that are left so far. -/
def normalizeName (absolute : Bool) (names : List α) (name : α) : List α :=
  if name = dot then names
  else if name = parent then
    match names.getLast? with
    | some last => if last = parent then names ++ [name] else names.dropLast
    | none => if absolute then names else [name]
  else names ++ [name]

def normalize (absolute : Bool) (names : List α) : List α :=
  names.foldl (normalizeName dot parent absolute) []

/-- How far below its start a path ends that begins `n` names below it. -/
def depth : ℕ → List α → Option ℕ
  | n, [] => some n
  | n, name :: names =>
    if name = dot then depth n names
    else if name = parent then
      if n = 0 then none else depth (n - 1) names
    else depth (n + 1) names

/-- Names of files and directories only. -/
def Plain (names : List α) : Prop := ∀ name ∈ names, name ≠ dot ∧ name ≠ parent

instance (names : List α) : Decidable (Plain dot parent names) :=
  inferInstanceAs (Decidable (∀ name ∈ names, name ≠ dot ∧ name ≠ parent))

variable {dot parent} {absolute : Bool} {names before base : List α} {name : α} {n d : ℕ}

/-! ## Plain paths -/

section Plain

omit [DecidableEq α]

theorem plain_nil : Plain dot parent ([] : List α) := fun _ h ↦ absurd h List.not_mem_nil

theorem Plain.append (hbefore : Plain dot parent before) (hnames : Plain dot parent names) :
    Plain dot parent (before ++ names) := fun name h ↦
  (List.mem_append.mp h).elim (hbefore name) (hnames name)

theorem Plain.dropLast (h : Plain dot parent names) : Plain dot parent names.dropLast :=
  fun name hname ↦ h name (List.dropLast_subset _ hname)

theorem plain_singleton (hdot : name ≠ dot) (hparent : name ≠ parent) :
    Plain dot parent [name] := by
  intro other hother
  rw [List.mem_singleton.mp hother]
  exact ⟨hdot, hparent⟩

end Plain

theorem normalizeName_plain (hdot : name ≠ dot) (hparent : name ≠ parent) (before : List α) :
    normalizeName dot parent absolute before name = before ++ [name] := by
  rw [normalizeName, if_neg hdot, if_neg hparent]

theorem normalizeName_dot (before : List α) :
    normalizeName dot parent absolute before dot = before := by
  rw [normalizeName, if_pos rfl]

/-- The parent cancels the last name, whatever stands before it. -/
theorem normalizeName_parent (hne : parent ≠ dot) (hplain : Plain dot parent before)
    (hpos : before ≠ []) (base : List α) :
    normalizeName dot parent absolute (base ++ before) parent = base ++ before.dropLast := by
  have hlast : (base ++ before).getLast? = some (before.getLast hpos) := by
    rw [List.getLast?_append_of_ne_nil _ hpos, List.getLast?_eq_some_getLast hpos]
  rw [normalizeName, if_neg hne, if_pos rfl, hlast]
  dsimp only
  rw [if_neg (hplain _ (List.getLast_mem hpos)).2, List.dropLast_append_of_ne_nil hpos]

theorem foldl_plain (h : Plain dot parent names) (before : List α) :
    names.foldl (normalizeName dot parent absolute) before = before ++ names := by
  induction names generalizing before with
  | nil => exact (List.append_nil _).symm
  | cons name names ih =>
    obtain ⟨hdot, hparent⟩ := h name List.mem_cons_self
    rw [List.foldl_cons, normalizeName_plain hdot hparent,
      ih fun other hother ↦ h other (List.mem_cons_of_mem _ hother), List.append_assoc]
    rfl

theorem normalize_plain (h : Plain dot parent names) :
    normalize dot parent absolute names = names := by
  rw [normalize, foldl_plain h, List.nil_append]

/-- An absolute path never keeps the parent: above the root there is nothing. -/
theorem normalize_absolute_plain (hne : parent ≠ dot) (names : List α) :
    Plain dot parent (normalize dot parent true names) := by
  have hfold : ∀ before, Plain dot parent before →
      Plain dot parent (names.foldl (normalizeName dot parent true) before) := by
    induction names with
    | nil => exact fun _ h ↦ h
    | cons name names ih =>
      refine fun before h ↦ ih _ ?_
      by_cases hdot : name = dot
      · rw [hdot, normalizeName_dot]
        exact h
      by_cases hparent : name = parent
      · subst hparent
        by_cases hpos : before = []
        · rw [normalizeName, if_neg hdot, if_pos rfl, hpos]
          exact plain_nil
        · have hcancel : normalizeName dot name true ([] ++ before) name = [] ++ before.dropLast :=
            normalizeName_parent hne h hpos []
          rw [List.nil_append, List.nil_append] at hcancel
          rw [hcancel]
          exact h.dropLast
      · rw [normalizeName_plain hdot hparent]
        exact h.append (plain_singleton hdot hparent)
  exact hfold [] plain_nil

/-! ## Depth

`depth` counts how far below its start a relative path is: a name goes down by one, a parent up
by one, and there is no depth where the path would climb above its start. It needs no directory
to start from, and a path that has one normalizes, behind any directory, to that many plain
names. -/

theorem depth_dot (n : ℕ) (names : List α) :
    depth dot parent n (dot :: names) = depth dot parent n names := by
  rw [depth, if_pos rfl]

theorem depth_plain (hdot : name ≠ dot) (hparent : name ≠ parent) (n : ℕ) (names : List α) :
    depth dot parent n (name :: names) = depth dot parent (n + 1) names := by
  rw [depth, if_neg hdot, if_neg hparent]

theorem depth_parent_zero (hne : parent ≠ dot) (names : List α) :
    depth dot parent 0 (parent :: names) = none := by
  rw [depth, if_neg hne, if_pos rfl, if_pos rfl]

theorem depth_parent_succ (hne : parent ≠ dot) (n : ℕ) (names : List α) :
    depth dot parent (n + 1) (parent :: names) = depth dot parent n names := by
  rw [depth, if_neg hne, if_pos rfl, if_neg (Nat.succ_ne_zero n), Nat.add_sub_cancel]

theorem depth_append (hne : parent ≠ dot) (names rest : List α) (n : ℕ) :
    depth dot parent n (names ++ rest) =
      (depth dot parent n names).bind fun d ↦ depth dot parent d rest := by
  induction names generalizing n with
  | nil => rfl
  | cons name names ih =>
    rw [List.cons_append]
    by_cases hdot : name = dot
    · rw [hdot, depth_dot, depth_dot, ih]
    by_cases hparent : name = parent
    · subst hparent
      rcases n with _ | n
      · rw [depth_parent_zero hne, depth_parent_zero hne]
        rfl
      · rw [depth_parent_succ hne, depth_parent_succ hne, ih]
    · rw [depth_plain hdot hparent, depth_plain hdot hparent, ih]

/-- A path that stays below its start stays below it from further down. -/
theorem depth_mono (hne : parent ≠ dot) (h : depth dot parent n names = some d) {m : ℕ}
    (hle : n ≤ m) : ∃ e, depth dot parent m names = some e ∧ d ≤ e := by
  induction names generalizing n m with
  | nil =>
    obtain rfl := Option.some.inj h
    exact ⟨m, rfl, hle⟩
  | cons name names ih =>
    by_cases hdot : name = dot
    · rw [hdot, depth_dot] at h ⊢
      exact ih h hle
    by_cases hparent : name = parent
    · subst hparent
      rcases n with _ | n
      · rw [depth_parent_zero hne] at h
        cases h
      · obtain ⟨m, rfl⟩ : ∃ k, m = k + 1 := ⟨m - 1, by omega⟩
        rw [depth_parent_succ hne] at h ⊢
        exact ih h (Nat.le_of_succ_le_succ hle)
    · rw [depth_plain hdot hparent] at h ⊢
      exact ih h (Nat.succ_le_succ hle)

/-- The depth depends on the names only through which of them are the two special ones. -/
theorem depth_map {dot' parent' : β} {f : α → β} (hdot : ∀ name, f name = dot' ↔ name = dot)
    (hparent : ∀ name, f name = parent' ↔ name = parent) (n : ℕ) (names : List α) :
    depth dot' parent' n (names.map f) = depth dot parent n names := by
  induction names generalizing n with
  | nil => rfl
  | cons name names ih =>
    rw [List.map_cons, depth, depth]
    simp only [hdot, hparent, ih]

/-- **A path that stays below its start** normalizes to plain names, the same after any directory.
-/
theorem foldl_normalizeName (hne : parent ≠ dot) (hbefore : Plain dot parent before)
    (h : depth dot parent before.length names = some d) :
    ∃ result, Plain dot parent result ∧ result.length = d ∧ ∀ base absolute,
      names.foldl (normalizeName dot parent absolute) (base ++ before) = base ++ result := by
  induction names generalizing before with
  | nil => exact ⟨before, hbefore, Option.some.inj h, fun _ _ ↦ rfl⟩
  | cons name names ih =>
    by_cases hdot : name = dot
    · subst hdot
      rw [depth_dot] at h
      obtain ⟨result, hplain, hlength, hfold⟩ := ih hbefore h
      refine ⟨result, hplain, hlength, fun base absolute ↦ ?_⟩
      rw [List.foldl_cons, normalizeName_dot, hfold]
    by_cases hparent : name = parent
    · subst hparent
      -- the start has not been reached, so there is a name to cancel
      have hpos : before ≠ [] := by
        rintro rfl
        rw [List.length_nil, depth_parent_zero hne] at h
        cases h
      have hlength : before.length = before.dropLast.length + 1 := by
        have := List.length_pos_iff.mpr hpos
        rw [List.length_dropLast]
        omega
      rw [hlength, depth_parent_succ hne] at h
      obtain ⟨result, hplain, hlength, hfold⟩ := ih hbefore.dropLast h
      refine ⟨result, hplain, hlength, fun base absolute ↦ ?_⟩
      rw [List.foldl_cons, normalizeName_parent hne hbefore hpos, hfold]
    · rw [depth_plain hdot hparent] at h
      have hlength : (before ++ [name]).length = before.length + 1 := by
        rw [List.length_append, List.length_singleton]
      rw [← hlength] at h
      obtain ⟨result, hplain, hlength, hfold⟩ :=
        ih (hbefore.append (plain_singleton hdot hparent)) h
      refine ⟨result, hplain, hlength, fun base absolute ↦ ?_⟩
      rw [List.foldl_cons, normalizeName_plain hdot hparent, List.append_assoc, hfold]

theorem foldl_parent_cons (hne : parent ≠ dot) (names before : List α) :
    (names.foldl (normalizeName dot parent false) (parent :: before)).head? = some parent := by
  induction names generalizing before with
  | nil => rfl
  | cons name names ih =>
    rw [List.foldl_cons]
    have hnext : ∃ after, normalizeName dot parent false (parent :: before) name =
        parent :: after := by
      by_cases hdot : name = dot
      · exact ⟨before, by rw [hdot, normalizeName_dot]⟩
      by_cases hparent : name = parent
      · rcases List.eq_nil_or_concat before with rfl | ⟨first, last, rfl⟩
        · refine ⟨[parent], ?_⟩
          rw [hparent, normalizeName, if_neg hne, if_pos rfl]
          exact if_pos rfl
        · rw [List.concat_eq_append, hparent, normalizeName, if_neg hne, if_pos rfl,
            ← List.cons_append, List.getLast?_concat]
          dsimp only
          by_cases hlast : last = parent
          · exact ⟨(first ++ [last]) ++ [parent], by rw [if_pos hlast]; rfl⟩
          · exact ⟨first, by rw [if_neg hlast, List.dropLast_concat]⟩
      · exact ⟨before ++ [name], by rw [normalizeName_plain hdot hparent]; rfl⟩
    obtain ⟨after, hafter⟩ := hnext
    rw [hafter]
    exact ih after

theorem foldl_of_depth_eq_none (hne : parent ≠ dot) (hbefore : Plain dot parent before)
    (h : depth dot parent before.length names = none) :
    (names.foldl (normalizeName dot parent false) before).head? = some parent := by
  induction names generalizing before with
  | nil => cases h
  | cons name names ih =>
    rw [List.foldl_cons]
    by_cases hdot : name = dot
    · subst hdot
      rw [depth_dot] at h
      rw [normalizeName_dot]
      exact ih hbefore h
    by_cases hparent : name = parent
    · subst hparent
      by_cases hpos : before = []
      · rw [hpos, normalizeName, if_neg hdot, if_pos rfl]
        exact foldl_parent_cons hne names []
      · have hlength : before.length = before.dropLast.length + 1 := by
          have := List.length_pos_iff.mpr hpos
          rw [List.length_dropLast]
          omega
        rw [hlength, depth_parent_succ hne] at h
        have hcancel : normalizeName dot name false ([] ++ before) name =
            [] ++ before.dropLast := normalizeName_parent hne hbefore hpos []
        rw [List.nil_append, List.nil_append] at hcancel
        rw [hcancel]
        exact ih hbefore.dropLast h
    · rw [depth_plain hdot hparent] at h
      have hlength : (before ++ [name]).length = before.length + 1 := by
        rw [List.length_append, List.length_singleton]
      rw [← hlength] at h
      rw [normalizeName_plain hdot hparent]
      exact ih (hbefore.append (plain_singleton hdot hparent)) h

theorem mem_of_mem_normalize (h : name ∈ normalize dot parent absolute names) : name ∈ names := by
  have hstep : ∀ (before : List α) (next : α),
      name ∈ normalizeName dot parent absolute before next → name ∈ before ∨ name = next := by
    intro before next hname
    rw [normalizeName] at hname
    split at hname
    · exact .inl hname
    split at hname
    · split at hname
      · split at hname
        · exact (List.mem_append.mp hname).imp_right List.mem_singleton.mp
        · exact .inl (List.dropLast_subset _ hname)
      · split at hname
        · exact .inl hname
        · exact .inr (List.mem_singleton.mp hname)
    · exact (List.mem_append.mp hname).imp_right List.mem_singleton.mp
  have hfold : ∀ before, name ∈ names.foldl (normalizeName dot parent absolute) before →
      name ∈ before ∨ name ∈ names := by
    clear h
    induction names with
    | nil => exact fun before hname ↦ .inl hname
    | cons next names ih =>
      intro before hname
      rcases ih _ hname with hname | hname
      · rcases hstep before next hname with hname | rfl
        · exact .inl hname
        · exact .inr List.mem_cons_self
      · exact .inr (List.mem_cons_of_mem _ hname)
  exact (hfold [] h).resolve_left List.not_mem_nil

theorem normalize_of_depth (hne : parent ≠ dot) (h : depth dot parent 0 names = some d) :
    Plain dot parent (normalize dot parent false names) ∧
      (normalize dot parent false names).length = d ∧
      ∀ base, Plain dot parent base → ∀ absolute,
        normalize dot parent absolute (base ++ names) =
          base ++ normalize dot parent false names := by
  obtain ⟨result, hplain, hlength, hfold⟩ := foldl_normalizeName hne plain_nil h
  have hresult : normalize dot parent false names = result := by
    rw [normalize, ← List.nil_append result, ← hfold, List.nil_append]
  rw [hresult]
  refine ⟨hplain, hlength, fun base hbase absolute ↦ ?_⟩
  rw [normalize, List.foldl_append, foldl_plain hbase, List.nil_append, ← hfold, List.append_nil]

/-- A relative path that climbs above its start still does when it is normalized. -/
theorem head?_normalize (hne : parent ≠ dot) :
    (normalize dot parent false names).head? = some parent ↔ depth dot parent 0 names = none := by
  constructor
  · intro h
    rcases hdepth : depth dot parent 0 names with _ | d
    · rfl
    · have hplain := (normalize_of_depth hne hdepth).1
      exact absurd rfl (hplain _ (List.mem_of_mem_head? h)).2
  · exact fun h ↦ foldl_of_depth_eq_none hne plain_nil h

/-- What is left of a path: its names, less two for each parent. -/
theorem depth_eq_some (hne : parent ≠ dot) (h : depth dot parent n names = some d) :
    d + names.count parent = n + names.countP fun name ↦ name ≠ dot ∧ name ≠ parent := by
  induction names generalizing n with
  | nil =>
    obtain rfl := Option.some.inj h
    rfl
  | cons name names ih =>
    by_cases hdot : name = dot
    · subst hdot
      rw [depth_dot] at h
      rw [List.count_cons_of_ne hne.symm, List.countP_cons_of_neg (by simp)]
      exact ih h
    by_cases hparent : name = parent
    · subst hparent
      rcases n with _ | n
      · rw [depth_parent_zero hne] at h
        cases h
      · rw [depth_parent_succ hne] at h
        have hrest := ih h
        rw [List.count_cons_self, List.countP_cons_of_neg (by simp)]
        omega
    · rw [depth_plain hdot hparent] at h
      have hrest := ih h
      rw [List.count_cons_of_ne hparent, List.countP_cons_of_pos (by simp [hdot, hparent])]
      omega

/-! ## Texts

A text is split at the separators, and empty parts are no names. -/

/-- The names of a path that is written as a text. -/
def segments (sep : α) (text : List α) : List (List α) := (text.splitOn sep).filter (· ≠ [])

section Segments

variable {sep : α} {text lead tail : List α} {dot parent : List α}

theorem segments_append_cons (before after : List α) :
    segments sep (before ++ sep :: after) = segments sep before ++ segments sep after := by
  rw [segments, List.splitOn_append_cons_self, List.filter_append]
  rfl

theorem segments_of_not_mem (h : sep ∉ text) :
    segments sep text = if text = [] then [] else [text] := by
  rw [segments, List.splitOn_eq_singleton h]
  by_cases hnil : text = [] <;> simp [hnil]

theorem splitOn_cons (c : α) (text : List α) :
    (c :: text).splitOn sep =
      if c = sep then [] :: text.splitOn sep else (text.splitOn sep).modifyHead (List.cons c) := by
  rw [List.splitOn_cons_eq_if_modifyHead]
  by_cases h : c = sep <;> simp [h]

theorem mem_of_mem_splitOn {segment : List α} {c : α} (hsegment : segment ∈ text.splitOn sep)
    (hc : c ∈ segment) : c ∈ text ∧ c ≠ sep := by
  induction text generalizing segment with
  | nil =>
    rw [List.splitOn_nil, List.mem_singleton] at hsegment
    exact absurd (hsegment ▸ hc) List.not_mem_nil
  | cons first text ih =>
    rw [splitOn_cons] at hsegment
    split at hsegment
    · rcases List.mem_cons.mp hsegment with rfl | hsegment
      · cases hc
      · exact ⟨List.mem_cons_of_mem _ (ih hsegment hc).1, (ih hsegment hc).2⟩
    · rename_i hfirst
      obtain ⟨head, rest, hsplit⟩ := List.exists_cons_of_ne_nil (List.splitOn_ne_nil sep text)
      rw [hsplit, List.modifyHead_cons] at hsegment
      rcases List.mem_cons.mp hsegment with rfl | hsegment
      · rcases List.mem_cons.mp hc with rfl | hc
        · exact ⟨List.mem_cons_self, hfirst⟩
        · have hin := ih (by rw [hsplit]; exact List.mem_cons_self) hc
          exact ⟨List.mem_cons_of_mem _ hin.1, hin.2⟩
      · have hin := ih (by rw [hsplit]; exact List.mem_cons_of_mem _ hsegment) hc
        exact ⟨List.mem_cons_of_mem _ hin.1, hin.2⟩

theorem exists_mem_splitOn {c : α} (hc : c ∈ text) (hne : c ≠ sep) :
    ∃ segment ∈ text.splitOn sep, c ∈ segment := by
  induction text with
  | nil => cases hc
  | cons first text ih =>
    rw [splitOn_cons]
    split
    · rename_i hfirst
      rcases List.mem_cons.mp hc with rfl | hc
      · exact absurd hfirst hne
      · obtain ⟨segment, hsegment, hin⟩ := ih hc
        exact ⟨segment, List.mem_cons_of_mem _ hsegment, hin⟩
    · obtain ⟨head, rest, hsplit⟩ := List.exists_cons_of_ne_nil (List.splitOn_ne_nil sep text)
      rw [hsplit, List.modifyHead_cons]
      rcases List.mem_cons.mp hc with rfl | hc
      · exact ⟨_, List.mem_cons_self, List.mem_cons_self⟩
      · obtain ⟨segment, hsegment, hin⟩ := ih hc
        rw [hsplit] at hsegment
        rcases List.mem_cons.mp hsegment with rfl | hsegment
        · exact ⟨_, List.mem_cons_self, List.mem_cons_of_mem _ hin⟩
        · exact ⟨segment, List.mem_cons_of_mem _ hsegment, hin⟩

omit [DecidableEq α] in
theorem mem_intercalate {c : α} {parts : List (List α)} (h : c ∈ [sep].intercalate parts) :
    c = sep ∨ ∃ part ∈ parts, c ∈ part := by
  induction parts with
  | nil => cases h
  | cons part parts ih =>
    by_cases hnil : parts = []
    · rw [hnil, List.intercalate_singleton] at h
      exact .inr ⟨part, List.mem_cons_self, h⟩
    · rw [List.intercalate_cons_of_ne_nil hnil, List.mem_append, List.mem_append,
        List.mem_singleton] at h
      rcases h with (h | h) | h
      · exact .inr ⟨part, List.mem_cons_self, h⟩
      · exact .inl h
      · refine (ih h).imp_right ?_
        rintro ⟨other, hother, hin⟩
        exact ⟨other, List.mem_cons_of_mem _ hother, hin⟩

/-- A segment that is empty, and neither the first nor the last, stands between two separators. -/
theorem infix_of_nil_mem_inner (text : List α) :
    ([] ∈ (text.splitOn sep).dropLast → text.head? = some sep ∨ [sep, sep] <:+: text) ∧
      ([] ∈ (text.splitOn sep).tail.dropLast → [sep, sep] <:+: text) := by
  induction text with
  | nil =>
    rw [List.splitOn_nil]
    exact ⟨fun h ↦ absurd h List.not_mem_nil, fun h ↦ absurd h List.not_mem_nil⟩
  | cons first text ih =>
    rw [splitOn_cons]
    split
    · rename_i hfirst
      subst hfirst
      refine ⟨fun _ ↦ .inl rfl, fun h ↦ ?_⟩
      rcases ih.1 h with hhead | hinfix
      · obtain ⟨rest, rfl⟩ := List.head?_eq_some_iff.mp hhead
        exact ⟨[], rest, rfl⟩
      · exact hinfix.trans (List.suffix_cons _ _).isInfix
    · obtain ⟨head, rest, hsplit⟩ := List.exists_cons_of_ne_nil (List.splitOn_ne_nil sep text)
      rw [hsplit] at ih ⊢
      have hinner : [] ∈ rest.dropLast → [sep, sep] <:+: first :: text := fun h ↦
        (ih.2 h).trans (List.suffix_cons _ _).isInfix
      refine ⟨fun h ↦ .inr ?_, hinner⟩
      rw [List.modifyHead_cons] at h
      rcases rest with _ | ⟨next, rest⟩
      · cases h
      · rw [List.dropLast_cons_cons, List.mem_cons] at h
        exact hinner (h.resolve_left fun h ↦ by cases h)

theorem nil_mem_splitOn_of_infix (h : [sep, sep] <:+: text) : [] ∈ text.splitOn sep := by
  obtain ⟨before, after, rfl⟩ := h
  rw [show before ++ [sep, sep] ++ after = before ++ sep :: ([] ++ sep :: after) by simp,
    List.splitOn_append_cons_self, List.splitOn_append_cons_self, List.splitOn_nil]
  exact List.mem_append_right _ List.mem_cons_self

theorem depth_marked {c : α} (hmem : c ∈ text) (hdot : c ∉ dot) (hparent : c ∉ parent) (n : ℕ) :
    depth dot parent n [text] = some (n + 1) :=
  depth_plain (fun h ↦ hdot (by rwa [← h])) (fun h ↦ hparent (by rwa [← h])) n []

theorem depth_segments_append (hne : parent ≠ dot) (hsep : sep ∉ tail)
    (hmark : ∀ c ∈ tail, c ∉ dot ∧ c ∉ parent) {n d : ℕ}
    (h : depth dot parent n (segments sep text) = some d) :
    ∃ e, depth dot parent n (segments sep (text ++ tail)) = some e := by
  rcases tail with _ | ⟨c, tail⟩
  · exact ⟨d, by rw [List.append_nil]; exact h⟩
  obtain ⟨hdot, hparent⟩ := hmark c List.mem_cons_self
  induction hlength : text.length using Nat.strongRecOn generalizing text n with
  | ind k ih =>
    by_cases hmem : sep ∈ text
    · obtain ⟨before, after, rfl, -⟩ := List.eq_append_cons_of_mem hmem
      rw [segments_append_cons, depth_append hne] at h
      obtain ⟨m, hbefore, hafter⟩ := Option.bind_eq_some_iff.mp h
      obtain ⟨e, he⟩ := ih after.length
        (by rw [← hlength, List.length_append, List.length_cons]; omega) hafter rfl
      refine ⟨e, ?_⟩
      rw [List.append_assoc, List.cons_append, segments_append_cons, depth_append hne, hbefore]
      exact he
    · refine ⟨n + 1, ?_⟩
      rw [segments_of_not_mem (fun hin ↦ (List.mem_append.mp hin).elim hmem hsep),
        if_neg (by simp)]
      exact depth_marked (List.mem_append_right _ List.mem_cons_self) hdot hparent n

theorem depth_segments_prepend (hne : parent ≠ dot) (hsep : sep ∉ lead)
    (hmark : ∀ c ∈ lead, c ∉ dot ∧ c ∉ parent) {n d : ℕ}
    (h : depth dot parent n (segments sep text) = some d) :
    ∃ e, depth dot parent n (segments sep (lead ++ text)) = some e := by
  rcases lead with _ | ⟨c, lead⟩
  · exact ⟨d, h⟩
  obtain ⟨hdot, hparent⟩ := hmark c List.mem_cons_self
  by_cases hmem : sep ∈ text
  · -- the first name becomes an ordinary one, and the rest starts at least as deep as before
    obtain ⟨before, after, rfl, hbefore⟩ := List.eq_append_cons_of_mem hmem
    rw [segments_append_cons, depth_append hne] at h
    obtain ⟨m, hfirst, hafter⟩ := Option.bind_eq_some_iff.mp h
    have hle : m ≤ n + 1 := by
      have hcount := depth_eq_some hne hfirst
      rw [segments_of_not_mem hbefore] at hcount
      by_cases hnil : before = []
      · rw [if_pos hnil] at hcount
        have hsame : m + 0 = n + 0 := hcount
        omega
      · rw [if_neg hnil] at hcount
        have hone := @List.countP_le_length _ (fun name ↦ decide (name ≠ dot ∧ name ≠ parent))
          [before]
        rw [List.length_singleton] at hone
        omega
    obtain ⟨e, he, -⟩ := depth_mono hne hafter hle
    refine ⟨e, ?_⟩
    rw [← List.append_assoc, segments_append_cons, depth_append hne,
      segments_of_not_mem (fun hin ↦ (List.mem_append.mp hin).elim hsep hbefore),
      if_neg (by simp), depth_marked (List.mem_append_left _ List.mem_cons_self) hdot hparent]
    exact he
  · refine ⟨n + 1, ?_⟩
    rw [segments_of_not_mem (fun hin ↦ (List.mem_append.mp hin).elim hsep hmem),
      if_neg (by simp)]
    exact depth_marked (List.mem_append_left _ List.mem_cons_self) hdot hparent n

end Segments

end Paths
