import FuzzingCiCd.Executor.SecretSearches

/-!
# Addresses of repositories without credentials

`GitRepositoryUrlRedactor.redact` masks the user information of the HTTP addresses in a text: the
address of the repository, and what git prints about it. The text falls apart at every address: what
is in front of it, the masked address, and what is behind it are redacted each on its own
(`redact_userinfo`). So the result does not depend on what the mask stands for, and no address in it
has a user information other than the mask (`masked_of_redact`).

No search in front of an address reaches into it. It would have to begin inside of the word before
the address, or to read over the slashes behind the scheme.
-/

namespace FuzzingCiCd.Executor.GitRepositoryUrlRedactor

open Replacement SecretRedactor

/-- A piece that may be missing. -/
def optional (piece : Piece) : Piece := fun cs ↦ (piece cs).orElse fun _ ↦ some ([], cs)

/-- `(?i)https?://`. The `s` never has to be given back: behind it comes `:`. -/
def scheme : Piece :=
  chain [literal foldAscii "http".toList, optional (one fun c ↦ foldAscii c = 's'),
    literal id "://".toList]

/-- `[^\s/@?#]` -/
def isUserinfo (c : Char) : Bool := !(isSpace c || c = '/' || c = '@' || c = '?' || c = '#')

/-- `MASKED_USERINFO` up to its `@`, which is that of the text. -/
def userinfoMask : List Char := "[REDACTED]".toList

def HTTP_URL_USERINFO : Pattern Char := fun before cs ↦
  if boundaryBefore before then
    secretAt scheme (run₁ isUserinfo) (one (· = '@')) userinfoMask cs
  else none

def redact (text : String) : String :=
  if JavaText.isBlank text then "" else .ofList (replaceMatches HTTP_URL_USERINFO text.toList)

/-! ## Addresses -/

/-- A scheme with its slashes, in capital or small letters. -/
def IsScheme (s : List Char) : Prop :=
  ∃ name, s = name ++ [':', '/', '/'] ∧
    (name.map foldAscii = ['h', 't', 't', 'p'] ∨ name.map foldAscii = ['h', 't', 't', 'p', 's'])

/-- A user information that the pattern takes. -/
def Userinfo (u : List Char) : Prop := u ≠ [] ∧ ∀ c ∈ u, isUserinfo c = true

theorem IsScheme.exists_cons {s : List Char} (hs : IsScheme s) :
    ∃ c s', s = c :: s' ∧ foldAscii c = 'h' := by
  obtain ⟨name, rfl, hname⟩ := hs
  rcases name with _ | ⟨c, name⟩
  · rcases hname with hname | hname <;> cases hname
  · refine ⟨c, _, rfl, ?_⟩
    rcases hname with hname | hname <;> exact (List.cons.inj hname).1

section Pieces

variable {fold : Char → Char} {piece : Piece} {pieces : List Piece} {text cs m r : List Char}

theorem literal_eq_some_iff :
    literal fold text cs = some (m, r) ↔ m.map fold = text ∧ cs = m ++ r := by
  refine ⟨fun h ↦ ⟨map_of_literal h, splits_literal fold text cs m r h⟩, ?_⟩
  rintro ⟨rfl, rfl⟩
  induction m with
  | nil => rfl
  | cons c m ih =>
    rw [List.map_cons, List.cons_append, literal, if_pos rfl, ih]
    rfl

theorem chain_cons_iff : chain (piece :: pieces) cs = some (m, r) ↔
    ∃ m₁ r₁ m₂, piece cs = some (m₁, r₁) ∧ chain pieces r₁ = some (m₂, r) ∧ m = m₁ ++ m₂ := by
  rw [chain, Option.bind_eq_some_iff]
  constructor
  · rintro ⟨⟨m₁, r₁⟩, hfirst, hrest⟩
    obtain ⟨⟨m₂, r₂⟩, hmore, heq⟩ := Option.map_eq_some_iff.mp hrest
    obtain ⟨rfl, rfl⟩ := Prod.mk.inj heq
    exact ⟨m₁, r₁, m₂, hfirst, hmore, rfl⟩
  · rintro ⟨m₁, r₁, m₂, hfirst, hmore, rfl⟩
    exact ⟨(m₁, r₁), hfirst, by rw [hmore]; rfl⟩

theorem scheme_eq_some_iff : scheme cs = some (m, r) ↔ IsScheme m ∧ cs = m ++ r := by
  have hhttp : "http".toList = ['h', 't', 't', 'p'] := by decide
  have hmark : "://".toList = [':', '/', '/'] := by decide
  rw [scheme, hhttp, hmark]
  constructor
  · intro h
    obtain ⟨name, r₁, m₁, hname, h₁, rfl⟩ := chain_cons_iff.mp h
    obtain ⟨more, r₂, m₂, hmore, h₂, rfl⟩ := chain_cons_iff.mp h₁
    obtain ⟨mark, r₃, m₃, hsign, h₃, rfl⟩ := chain_cons_iff.mp h₂
    obtain ⟨rfl, rfl⟩ := Prod.mk.inj (Option.some.inj h₃)
    obtain ⟨hfold, rfl⟩ := literal_eq_some_iff.mp hname
    obtain ⟨hslashes, rfl⟩ := literal_eq_some_iff.mp hsign
    rw [List.map_id] at hslashes
    subst hslashes
    rcases r₁ with _ | ⟨c, r₁⟩
    · obtain ⟨-, hnil⟩ := Prod.mk.inj (Option.some.inj hmore)
      exact absurd hnil (by simp)
    by_cases hc : foldAscii c = 's'
    · rw [optional, one, if_pos (decide_eq_true hc)] at hmore
      obtain ⟨rfl, rfl⟩ := Prod.mk.inj (Option.some.inj hmore)
      exact ⟨⟨name ++ [c], by simp, .inr (by simp [hfold, hc])⟩, by simp⟩
    · rw [optional, one, if_neg (by simpa using hc)] at hmore
      obtain ⟨rfl, hr⟩ := Prod.mk.inj (Option.some.inj hmore)
      exact ⟨⟨name, by simp, .inl hfold⟩, by rw [hr]; simp⟩
  · rintro ⟨⟨name, rfl, hname | hname⟩, rfl⟩
    · refine chain_cons_iff.mpr ⟨name, ':' :: '/' :: '/' :: r, [':', '/', '/'],
        literal_eq_some_iff.mpr ⟨hname, by simp⟩, ?_, rfl⟩
      refine chain_cons_iff.mpr ⟨[], ':' :: '/' :: '/' :: r, [':', '/', '/'], rfl, ?_, rfl⟩
      exact chain_cons_iff.mpr
        ⟨[':', '/', '/'], r, [], literal_eq_some_iff.mpr ⟨rfl, rfl⟩, rfl, rfl⟩
    · obtain ⟨name', more, rfl, hname', hmore⟩ :=
        List.map_eq_append_iff.mp
          (show name.map foldAscii = ['h', 't', 't', 'p'] ++ ['s'] from hname)
      obtain ⟨c, rfl⟩ : ∃ c, more = [c] :=
        List.length_eq_one_iff.mp (by simpa using congrArg List.length hmore)
      have hc : foldAscii c = 's' := by simpa using hmore
      refine chain_cons_iff.mpr ⟨name', c :: ':' :: '/' :: '/' :: r, [c, ':', '/', '/'],
        literal_eq_some_iff.mpr ⟨hname', by simp⟩, ?_, by simp⟩
      refine chain_cons_iff.mpr ⟨[c], ':' :: '/' :: '/' :: r, [':', '/', '/'], ?_, ?_, rfl⟩
      · rw [optional, one, if_pos (decide_eq_true hc)]
        rfl
      · exact chain_cons_iff.mpr
          ⟨[':', '/', '/'], r, [], literal_eq_some_iff.mpr ⟨rfl, rfl⟩, rfl, rfl⟩

theorem run₁_userinfo {u tail : List Char} (hu : Userinfo u) :
    run₁ isUserinfo (u ++ '@' :: tail) = some (u, '@' :: tail) := by
  have hsign : ∀ c ∈ ('@' :: tail).head?, isUserinfo c = false := by simp [isUserinfo]
  obtain ⟨htake, hdrop⟩ := takeWhile_of_all hu.2 hsign
  rw [run₁, htake, if_neg (by simpa using hu.1), run, htake, hdrop]

theorem userinfo_of_run₁ {u : List Char} (h : run₁ isUserinfo cs = some (u, r)) :
    Userinfo u ∧ cs = u ++ r := by
  have hsplit := splits_run₁ isUserinfo cs u r h
  rw [run₁] at h
  split_ifs at h with hempty
  refine ⟨⟨?_, forall_of_run h⟩, hsplit⟩
  rintro rfl
  rw [(Prod.mk.inj (Option.some.inj h)).1] at hempty
  exact hempty rfl

end Pieces

/-! ## Where the pattern matches

A match is a scheme, user information without `/` and `@`, and the `@`. An address that begins in
front of another one cannot reach over its scheme, whose slashes it would have to hold, so that
the matches of a text are those of its addresses. -/

section Places

variable {before : Option Char} {cs s u s' u' tail tail' place : List Char} {m : Match Char}

theorem found_iff : HTTP_URL_USERINFO before cs = some m ↔ boundaryBefore before = true ∧
    ∃ s u tail, IsScheme s ∧ Userinfo u ∧ cs = s ++ (u ++ '@' :: tail) ∧
      m = ⟨s ++ u ++ ['@'], s ++ userinfoMask ++ ['@'], tail⟩ := by
  rw [HTTP_URL_USERINFO]
  constructor
  · intro h
    split_ifs at h with hbefore
    rw [secretAt, Option.bind_eq_some_iff] at h
    obtain ⟨⟨s, r₁⟩, hs, h⟩ := h
    obtain ⟨⟨u, r₂⟩, hu, h⟩ := Option.bind_eq_some_iff.mp h
    obtain ⟨⟨sign, tail⟩, hsign, rfl⟩ := Option.map_eq_some_iff.mp h
    obtain ⟨hscheme, rfl⟩ := scheme_eq_some_iff.mp hs
    obtain ⟨huser, rfl⟩ := userinfo_of_run₁ hu
    rcases r₂ with _ | ⟨c, r₂⟩
    · cases hsign
    dsimp only at hsign
    rw [one] at hsign
    split_ifs at hsign with hc
    obtain rfl := of_decide_eq_true hc
    obtain ⟨rfl, rfl⟩ := Prod.mk.inj (Option.some.inj hsign)
    exact ⟨hbefore, s, u, r₂, hscheme, huser, rfl, rfl⟩
  · rintro ⟨hbefore, s, u, tail, hs, hu, rfl, rfl⟩
    rw [if_pos hbefore, secretAt, scheme_eq_some_iff.mpr ⟨hs, rfl⟩, Option.bind_some]
    dsimp only
    rw [run₁_userinfo hu, Option.bind_some]
    rfl

theorem proper_HTTP_URL_USERINFO : Proper HTTP_URL_USERINFO := by
  intro before cs m h
  obtain ⟨-, s, u, tail, -, -, rfl, rfl⟩ := found_iff.mp h
  exact ⟨by simp, by simp⟩

theorem isWord_of_fold {c : Char} (h : foldAscii c ∈ ['h', 't', 't', 'p', 's']) :
    isWord c = true := by
  by_cases hupper : (65 ≤ c.toNat && c.toNat ≤ 90) = true
  · rw [isWord, hupper, Bool.or_true, Bool.true_or, Bool.true_or]
  · rw [foldAscii, if_neg hupper] at h
    simp only [List.mem_cons, List.not_mem_nil, or_false] at h
    rcases h with rfl | rfl | rfl | rfl | rfl <;> decide

theorem mem_of_name {name : List Char} (h : name.map foldAscii = ['h', 't', 't', 'p'] ∨
      name.map foldAscii = ['h', 't', 't', 'p', 's']) :
    ∀ c ∈ name, foldAscii c ∈ ['h', 't', 't', 'p', 's'] := by
  intro c hc
  have hmem : foldAscii c ∈ name.map foldAscii := List.mem_map_of_mem hc
  rcases h with h | h
  · rw [h] at hmem
    exact List.mem_append_left ['s'] hmem
  · rwa [h] at hmem

/-- Of two marks that a text holds, the front before one does not hold the other. -/
theorem append_cons_ne {a b r r' : List Char} {x y : Char} (hxy : x ≠ y) (hb : x ∉ b)
    (ha : y ∉ a) : a ++ x :: r ≠ b ++ y :: r' := by
  intro h
  rcases List.append_eq_append_iff.mp h with ⟨d, rfl, hd⟩ | ⟨d, rfl, hd⟩
  · rcases d with _ | ⟨z, d⟩
    · exact hxy (List.cons.inj hd).1
    · refine hb (List.mem_append_right _ ?_)
      rw [(List.cons.inj hd).1]
      exact List.mem_cons_self
  · rcases d with _ | ⟨z, d⟩
    · exact hxy (List.cons.inj hd).1.symm
    · refine ha (List.mem_append_right _ ?_)
      rw [(List.cons.inj hd).1]
      exact List.mem_cons_self

/-- **No reach.** An address that begins in front of another one ends in front of it. -/
theorem before_address (hs : IsScheme s) (hne : place ≠ [])
    (hlast : ∀ c ∈ place.getLast?, isWord c = false) (hs' : IsScheme s') (hu' : Userinfo u')
    (h : place ++ (s ++ (u ++ '@' :: tail)) = s' ++ (u' ++ '@' :: tail')) :
    ∃ rest, place = s' ++ (u' ++ '@' :: rest) ∧ tail' = rest ++ (s ++ (u ++ '@' :: tail)) := by
  obtain ⟨name, rfl, hname⟩ := hs
  obtain ⟨name', rfl, hname'⟩ := hs'
  obtain ⟨c, name₁, rfl⟩ : ∃ c name₁, name = c :: name₁ := by
    rcases name with _ | ⟨c, name₁⟩
    · rcases hname with hname | hname <;> cases hname
    · exact ⟨c, name₁, rfl⟩
  have hc : foldAscii c = 'h' := by
    rcases hname with hname | hname <;> exact (List.cons.inj hname).1
  have hsign : ∀ {x : Char}, (x = ':' ∨ x = '/' ∨ x = '@') → c ≠ x := by
    rintro x (rfl | rfl | rfl) rfl <;> exact absurd hc (by decide)
  have hat : '@' ∉ c :: name₁ ++ [':'] := by
    intro hmem
    rcases List.mem_append.mp hmem with hmem | hmem
    · exact absurd (mem_of_name hname _ hmem) (by decide)
    · exact absurd hmem (by decide)
  have hslash : '/' ∉ u' := fun hmem ↦ absurd (hu'.2 _ hmem) (by decide)
  rcases List.append_eq_append_iff.mp h with ⟨a, ha, hrest⟩ | ⟨a, rfl, hrest⟩
  · -- the scheme does not reach into the address
    rcases a with _ | ⟨x, a⟩
    · have heq : u' ++ '@' :: tail' = c :: name₁ ++ [':'] ++ '/' :: '/' :: (u ++ '@' :: tail) := by
        simpa using hrest.symm
      exact absurd heq (append_cons_ne (by decide) hat hslash)
    simp only [List.cons_append, List.cons.injEq] at hrest
    obtain ⟨rfl, -⟩ := hrest
    rcases List.append_eq_append_iff.mp ha with ⟨e, rfl, he⟩ | ⟨e, rfl, he⟩
    · have hmem : c ∈ [':', '/', '/'] := by
        rw [he]
        exact List.mem_append_right _ List.mem_cons_self
      simp only [List.mem_cons, List.not_mem_nil, or_false] at hmem
      rcases hmem with hmem | hmem | hmem
      · exact absurd hmem (hsign (.inl rfl))
      · exact absurd hmem (hsign (.inr (.inl rfl)))
      · exact absurd hmem (hsign (.inr (.inl rfl)))
    · have hword := isWord_of_fold (mem_of_name hname' (place.getLast hne)
        (List.mem_append_left _ (List.getLast_mem hne)))
      rw [hlast _ (List.getLast?_eq_some_getLast hne)] at hword
      cases hword
  · -- the user information ends at the latest before the address
    rcases List.append_eq_append_iff.mp hrest with ⟨b, rfl, hb⟩ | ⟨b, rfl, hb⟩
    · rcases b with _ | ⟨x, b⟩
      · simp only [List.nil_append, List.cons_append, List.cons.injEq] at hb
        exact absurd hb.1.symm (hsign (.inr (.inr rfl)))
      · obtain ⟨rfl, rfl⟩ := List.cons.inj hb
        exact ⟨b, by simp, rfl⟩
    · have heq : b ++ '@' :: tail' = c :: name₁ ++ [':'] ++ '/' :: '/' :: (u ++ '@' :: tail) := by
        simpa using hb.symm
      exact absurd heq (append_cons_ne (by decide) hat
        fun hmem ↦ hslash (List.mem_append_right _ hmem))

end Places

/-! ## Texts with an address -/

section Ends

variable {before : Option Char}

theorem getLast?_cons_or (c : Char) (head : List Char) :
    (c :: head).getLast?.or before = head.getLast?.or (some c) := by
  rw [List.getLast?_cons]
  cases head.getLast? <;> rfl

theorem getLast?_append_or (front back : List Char) :
    (front ++ back).getLast?.or before = back.getLast?.or (front.getLast?.or before) := by
  rw [List.getLast?_append]
  cases back.getLast? <;> rfl

theorem boundaryBefore_iff :
    boundaryBefore before = true ↔ ∀ c ∈ before, isWord c = false := by
  cases before <;> simp [boundaryBefore]

end Ends

section Texts

variable {s u tail : List Char}

/-- **The loop.** It treats the text in front of an address, the address and the text behind it one
after the other. -/
theorem sweep_address (hs : IsScheme s) (hu : Userinfo u) (head : List Char)
    (before : Option Char) (hhead : ∀ c ∈ head.getLast?.or before, isWord c = false) :
    sweep HTTP_URL_USERINFO before (head ++ (s ++ (u ++ '@' :: tail))) =
      sweep HTTP_URL_USERINFO before head ++
        (s ++ userinfoMask ++ ['@'] ++ sweep HTTP_URL_USERINFO (some '@') tail) := by
  induction hn : head.length using Nat.strong_induction_on generalizing head before with
  | _ n ih =>
    rcases head with _ | ⟨c, head⟩
    · have hbefore : boundaryBefore before = true := boundaryBefore_iff.mpr hhead
      have hfound := found_iff.mpr ⟨hbefore, s, u, tail, hs, hu, rfl, rfl⟩
      obtain ⟨c, cs, hcs⟩ : ∃ c cs, s ++ (u ++ '@' :: tail) = c :: cs := by
        obtain ⟨c, s', rfl, -⟩ := hs.exists_cons
        exact ⟨c, _, rfl⟩
      rw [hcs] at hfound
      rw [List.nil_append, hcs, sweep_replace proper_HTTP_URL_USERINFO hfound, sweep_nil,
        List.nil_append, List.getLast?_concat]
    rw [List.length_cons] at hn
    rcases hfound : HTTP_URL_USERINFO before (c :: head) with _ | m
    · have hnone : HTTP_URL_USERINFO before (c :: (head ++ (s ++ (u ++ '@' :: tail)))) = none := by
        rcases hm : HTTP_URL_USERINFO before (c :: (head ++ (s ++ (u ++ '@' :: tail)))) with _ | m
        · rfl
        -- an address that is found in the whole text would be found in `head` alone
        obtain ⟨hbefore, s', u', tail', hs', hu', htext, -⟩ := found_iff.mp hm
        rw [← List.cons_append] at htext
        obtain ⟨rest, hplace, -⟩ := before_address hs (List.cons_ne_nil c head)
          (fun x hx ↦ hhead x (by rw [Option.mem_def.mp hx]; rfl)) hs' hu' htext
        rw [hplace, found_iff.mpr ⟨hbefore, s', u', rest, hs', hu', rfl, rfl⟩] at hfound
        cases hfound
      rw [List.cons_append, sweep_copy hnone, sweep_copy hfound, List.cons_append,
        ih head.length (by omega) head (some c) ?_ rfl]
      rwa [getLast?_cons_or] at hhead
    · obtain ⟨hbefore, s', u', tail', hs', hu', htext, rfl⟩ := found_iff.mp hfound
      have hfound' := found_iff.mpr ⟨hbefore, s', u', tail' ++ (s ++ (u ++ '@' :: tail)), hs', hu',
        rfl, rfl⟩
      have htext' : s' ++ (u' ++ '@' :: (tail' ++ (s ++ (u ++ '@' :: tail)))) =
          c :: (head ++ (s ++ (u ++ '@' :: tail))) := by
        simpa using (congrArg (· ++ (s ++ (u ++ '@' :: tail))) htext).symm
      rw [htext'] at hfound'
      have hlength := congrArg List.length htext
      simp only [List.length_cons, List.length_append] at hlength
      rw [htext, getLast?_append_or, getLast?_append_or, getLast?_cons_or] at hhead
      rw [List.cons_append, sweep_replace proper_HTTP_URL_USERINFO hfound',
        sweep_replace proper_HTTP_URL_USERINFO hfound, List.getLast?_concat,
        ih tail'.length (by omega) tail' (some '@') hhead rfl]
      simp only [List.append_assoc]

/-- **Addresses.** The user information of an address is masked, whatever stands around it, and the
text in front of the address and the text behind it are redacted as if it were not there. -/
theorem redact_userinfo {head : List Char} (hs : IsScheme s) (hu : Userinfo u)
    (hhead : ∀ c ∈ head.getLast?, isWord c = false) :
    redact (.ofList (head ++ (s ++ (u ++ '@' :: tail)))) =
      .ofList (sweep HTTP_URL_USERINFO none head ++
        (s ++ userinfoMask ++ ['@'] ++ sweep HTTP_URL_USERINFO (some '@') tail)) := by
  have hvisible : JavaText.isBlank (.ofList (head ++ (s ++ (u ++ '@' :: tail)))) = false := by
    rw [JavaText.isBlank, String.toList_ofList]
    exact List.all_eq_false.mpr ⟨'@', by simp, by decide⟩
  rw [redact, if_neg (by rw [hvisible]; decide), String.toList_ofList]
  refine congrArg String.ofList (sweep_address hs hu head none fun c hc ↦ hhead c ?_)
  rwa [Option.or_none] at hc

/-- A token in what git prints. -/
theorem redact_userinfo_token :
    redact (.ofList ("fatal: ".toList ++ ("https://".toList ++ ("bot:token".toList ++ '@' ::
      "host/app.git".toList)))) = "fatal: https://[REDACTED]@host/app.git" := by
  have hs : IsScheme "https://".toList := ⟨"https".toList, by decide, .inr (by decide)⟩
  have hu : Userinfo "bot:token".toList := ⟨by decide, List.all_eq_true.mp (by decide)⟩
  have hlast : "fatal: ".toList.getLast? = some ' ' := by decide
  rw [redact_userinfo hs hu (by rw [hlast]; rintro c ⟨⟩; decide)]
  decide +kernel

/-! ## What is left

After the first pass no address has user information other than the mask: an occurrence in the
result would begin in a copied part, where the loop would have found it, or in a replacement,
which has the mask. -/

/-- An address with a user information, where a word may begin. -/
structure Occurs (before : Option Char) (head s u tail cs : List Char) : Prop where
  scheme : IsScheme s
  userinfo : Userinfo u
  boundary : ∀ c ∈ head.getLast?.or before, isWord c = false
  text : cs = head ++ (s ++ (u ++ '@' :: tail))

variable {before : Option Char} {cs head : List Char}

theorem Occurs.length_lt (h : Occurs before head s u tail cs) :
    head.length < cs.length ∧ tail.length < cs.length := by
  rw [h.text]
  simp only [List.length_append, List.length_cons]
  omega

theorem sweep_of_not_occurs (h : ∀ head s u tail, ¬Occurs before head s u tail cs) :
    sweep HTTP_URL_USERINFO before cs = cs := by
  induction cs generalizing before with
  | nil => rfl
  | cons c cs ih =>
    have hnone : HTTP_URL_USERINFO before (c :: cs) = none := by
      rcases hfound : HTTP_URL_USERINFO before (c :: cs) with _ | m
      · rfl
      obtain ⟨hbefore, s, u, tail, hs, hu, htext, -⟩ := found_iff.mp hfound
      exact absurd ⟨hs, hu, boundaryBefore_iff.mp hbefore, htext⟩ (h [] s u tail)
    rw [sweep_copy hnone, ih]
    rintro head s u tail ⟨hs, hu, hhead, rfl⟩
    exact h (c :: head) s u tail ⟨hs, hu, by rwa [getLast?_cons_or], rfl⟩

theorem Occurs.exists_first (h : Occurs before head s u tail cs) :
    ∃ head s u tail, Occurs before head s u tail cs ∧
      ∀ head' s' u' tail', ¬Occurs before head' s' u' tail' head := by
  induction hn : head.length using Nat.strong_induction_on generalizing head s u tail with
  | _ n ih =>
    by_cases hin : ∃ head' s' u' tail', Occurs before head' s' u' tail' head
    · obtain ⟨head', s', u', tail', hin⟩ := hin
      have htext : cs = head' ++ (s' ++ (u' ++ '@' :: (tail' ++ (s ++ (u ++ '@' :: tail))))) := by
        rw [h.text, hin.text]
        simp
      exact ih head'.length (hn ▸ hin.length_lt.1) ⟨hin.scheme, hin.userinfo, hin.boundary, htext⟩
        rfl
    · exact ⟨head, s, u, tail, h, fun head' s' u' tail' hocc ↦ hin ⟨_, _, _, _, hocc⟩⟩

theorem ne_h_of_mem (hs : IsScheme s) {x c : Char} {rest : List Char}
    (h : s ++ userinfoMask ++ ['@'] = c :: rest) (hx : x ∈ rest) : foldAscii x ≠ 'h' := by
  obtain ⟨name, rfl, hname⟩ := hs
  rcases name with _ | ⟨d, name⟩
  · rcases hname with hname | hname <;> cases hname
  simp only [List.cons_append, List.cons.injEq] at h
  rw [← h.2] at hx
  simp only [List.mem_append] at hx
  have hends : ∀ y ∈ [':', '/', '/'] ++ userinfoMask ++ ['@'], foldAscii y ≠ 'h' := by
    have hall : ([':', '/', '/'] ++ userinfoMask ++ ['@']).all (foldAscii · ≠ 'h') = true := by
      decide
    exact fun y hy ↦ of_decide_eq_true (List.all_eq_true.mp hall y hy)
  rcases hx with ((hx | hx) | hx) | hx
  · have hmem : foldAscii x ∈ name.map foldAscii := List.mem_map_of_mem hx
    rcases hname with hname | hname
    · rw [(List.cons.inj hname).2] at hmem
      exact fun heq ↦ absurd (heq ▸ hmem) (by decide)
    · rw [(List.cons.inj hname).2] at hmem
      exact fun heq ↦ absurd (heq ▸ hmem) (by decide)
  · exact hends x (List.mem_append_left _ (List.mem_append_left _ hx))
  · exact hends x (List.mem_append_left _ (List.mem_append_right _ hx))
  · exact hends x (List.mem_append_right _ hx)

theorem userinfo_unique {s' u' tail' : List Char} (hs : IsScheme s) (hs' : IsScheme s')
    (hu : Userinfo u) (hu' : Userinfo u')
    (h : s ++ (u ++ '@' :: tail) = s' ++ (u' ++ '@' :: tail')) : u = u' := by
  have hscheme : scheme (s ++ (u ++ '@' :: tail)) = some (s, u ++ '@' :: tail) :=
    scheme_eq_some_iff.mpr ⟨hs, rfl⟩
  have hrun : run₁ isUserinfo (u ++ '@' :: tail) = some (u, '@' :: tail) := run₁_userinfo hu
  rw [h, scheme_eq_some_iff.mpr ⟨hs', rfl⟩] at hscheme
  rw [← (Prod.mk.inj (Option.some.inj hscheme)).2, run₁_userinfo hu'] at hrun
  exact (Prod.mk.inj (Option.some.inj hrun)).1.symm

theorem userinfo_mask : Userinfo userinfoMask := ⟨by decide, List.all_eq_true.mp (by decide)⟩

/-- **Masks.** Every address that is left has the mask for its user information. -/
theorem masked_of_occurs_sweep
    (h : Occurs before head s u tail (sweep HTTP_URL_USERINFO before cs)) :
    u = userinfoMask := by
  induction hn : cs.length using Nat.strong_induction_on generalizing before head s u tail cs with
  | _ n ih =>
    by_cases hocc : ∃ head s u tail, Occurs before head s u tail cs
    swap
    · rw [sweep_of_not_occurs fun head s u tail hin ↦ hocc ⟨head, s, u, tail, hin⟩] at h
      exact absurd ⟨head, s, u, tail, h⟩ hocc
    obtain ⟨_, _, _, _, hocc⟩ := hocc
    obtain ⟨front, s₁, u₁, tail₁, hfirst, hfree⟩ := hocc.exists_first
    have htext := h.text
    rw [hfirst.text, sweep_address hfirst.scheme hfirst.userinfo front before hfirst.boundary,
      sweep_of_not_occurs hfree] at htext
    have hbehind : ∀ b, (∀ c ∈ b.getLast?.or (some '@'), isWord c = false) →
        sweep HTTP_URL_USERINFO (some '@') tail₁ = b ++ (s ++ (u ++ '@' :: tail)) →
        u = userinfoMask := fun b hb hafter ↦
      ih tail₁.length (hn ▸ hfirst.length_lt.2) ⟨h.scheme, h.userinfo, hb, hafter⟩ rfl
    have hmasked : s ++ (u ++ '@' :: tail) = s₁ ++ (userinfoMask ++ '@' ::
        sweep HTTP_URL_USERINFO (some '@') tail₁) → u = userinfoMask :=
      userinfo_unique h.scheme hfirst.scheme h.userinfo userinfo_mask
    rcases List.append_eq_append_iff.mp htext with ⟨a, rfl, hrest⟩ | ⟨a, hfront, hrest⟩
    · rcases a with _ | ⟨c, a⟩
      · exact hmasked (by simpa using hrest.symm)
      rcases List.append_eq_append_iff.mp hrest with ⟨b, hb, hafter⟩ | ⟨b, hb, hafter⟩
      · -- it is behind the masked address
        have hboundary := h.boundary
        rw [hb, getLast?_append_or, getLast?_append_or, getLast?_append_or] at hboundary
        exact hbehind b hboundary hafter
      rcases b with _ | ⟨x, b⟩
      · refine hbehind [] (fun x hx ↦ ?_) hafter.symm
        obtain rfl := Option.some.inj hx
        decide
      -- no address begins inside of the masked one
      obtain ⟨d, s', rfl, hd⟩ := h.scheme.exists_cons
      obtain ⟨rfl, -⟩ := List.cons.inj hafter
      exact absurd hd (ne_h_of_mem hfirst.scheme hb (List.mem_append_right a List.mem_cons_self))
    · rcases a with _ | ⟨c, a⟩
      · exact hmasked (by simpa using hrest)
      -- it would be in front of the first address
      have hlast : ∀ x ∈ (c :: a).getLast?, isWord x = false := by
        intro x hx
        refine hfirst.boundary x ?_
        rw [hfront, getLast?_append_or, Option.mem_def.mp hx]
        rfl
      have hreach : c :: a ++ (s₁ ++ (userinfoMask ++ '@' ::
          sweep HTTP_URL_USERINFO (some '@') tail₁)) = s ++ (u ++ '@' :: tail) := by
        simpa using hrest.symm
      obtain ⟨rest, hplace, -⟩ := before_address hfirst.scheme (List.cons_ne_nil c a) hlast
        h.scheme h.userinfo hreach
      exact absurd ⟨h.scheme, h.userinfo, h.boundary, hplace ▸ hfront⟩ (hfree head s u rest)

/-- **Redacted texts.** Whatever a text is, no address in what becomes of it has a user information
other than the mask. -/
theorem masked_of_redact {text : String} (h : Occurs none head s u tail (redact text).toList) :
    u = userinfoMask := by
  rw [redact] at h
  split_ifs at h
  · exact absurd h.length_lt.1 (Nat.not_lt_zero _)
  · rw [String.toList_ofList] at h
    exact masked_of_occurs_sweep h

theorem masked_of_redact_twice : "[REDACTED]".toList = userinfoMask := by
  have hs : IsScheme "HTTP://".toList := ⟨"HTTP".toList, by decide, .inl (by decide)⟩
  have htext : (redact "https://a@b HTTP://c:d@e").toList =
      "https://[REDACTED]@b ".toList ++
        ("HTTP://".toList ++ ("[REDACTED]".toList ++ '@' :: ['e'])) := by decide +kernel
  have hlast : "https://[REDACTED]@b ".toList.getLast? = some ' ' := by decide
  exact masked_of_redact ⟨hs, userinfo_mask, by rw [hlast]; rintro c ⟨⟩; decide, htext⟩

end Texts

end FuzzingCiCd.Executor.GitRepositoryUrlRedactor
