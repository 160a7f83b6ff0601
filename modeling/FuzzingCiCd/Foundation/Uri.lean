import FuzzingCiCd.Foundation.Utf8

/-!
# Uniform resource identifiers

`java.net.URI` as it parses a text: the components of RFC 2396, with the characters beyond ASCII
that the class admits wherever an escaped octet may stand. The components are kept raw, and `decode`
is what the getters make of them.

An authority of which every character may stand in a registry-based name is accepted as one. An
authority with a literal IPv6 address holds brackets, which may not; which of these are well formed
is a parameter, `literal`.

`parse_authority` says what is read back from a text that was put together of a scheme, an authority
and a path.
-/

/-- The raw components of a hierarchical or an opaque identifier. -/
structure Uri where
  scheme : Option (List Char)
  authority : Option (List Char)
  path : Option (List Char)
  query : Option (List Char)
  fragment : Option (List Char)
  deriving DecidableEq

namespace Uri

/-! ## Characters -/

def isUnreserved (ch : Char) : Bool := ch.isAlphanum || "_-!.~*'()".toList.contains ch

def isRegName (ch : Char) : Bool := isUnreserved ch || "$,;:@&=+".toList.contains ch

def isPathChar (ch : Char) : Bool := isUnreserved ch || ":@&=+$,;/".toList.contains ch

def isUric (ch : Char) : Bool := isUnreserved ch || ";/?:@&=+$,[]".toList.contains ch

def isSchemeChar (ch : Char) : Bool := ch.isAlphanum || "+-.".toList.contains ch

/-- `Character.isSpaceChar`. -/
def isSpaceChar (ch : Char) : Bool :=
  let n := ch.toNat
  n = 0x20 || n = 0xA0 || n = 0x1680 || (0x2000 ≤ n && n ≤ 0x200A) || n = 0x2028 || n = 0x2029 ||
    n = 0x202F || n = 0x205F || n = 0x3000

/-- A visible character beyond ASCII. -/
def isOther (ch : Char) : Bool :=
  128 < ch.toNat && !isSpaceChar ch && !(0x7F ≤ ch.toNat && ch.toNat ≤ 0x9F)

def hexDigit (ch : Char) : Option ℕ :=
  if ch.isDigit then some (ch.toNat - 48)
  else if 'a' ≤ ch ∧ ch ≤ 'f' then some (ch.toNat - 87)
  else if 'A' ≤ ch ∧ ch ≤ 'F' then some (ch.toNat - 55)
  else none

/-- The octet that a pair of digits stands for. -/
def escaped (high low : Char) : Option UInt8 := do
  let high ← hexDigit high
  let low ← hexDigit low
  return .ofNat (16 * high + low)

/-- A component: characters it may hold, escaped octets and characters beyond ASCII. -/
def wellFormed (allowed : Char → Bool) : List Char → Bool
  | '%' :: high :: low :: cs => (escaped high low).isSome && wellFormed allowed cs
  | ch :: cs => ch ≠ '%' && (allowed ch || isOther ch) && wellFormed allowed cs
  | [] => true

/-! ## Components -/

def isScheme : List Char → Bool
  | [] => false
  | ch :: cs => ch.isAlpha && cs.all isSchemeChar

/-- An authority that is there, and the text after it. -/
def parseAuthority (literal : List Char → Bool) (text : List Char) :
    Option (Option (List Char) × List Char) :=
  match text with
  | '/' :: '/' :: text =>
    let authority := text.takeWhile fun ch ↦ !"/?#".toList.contains ch
    let rest := text.dropWhile fun ch ↦ !"/?#".toList.contains ch
    if authority = [] then if rest = [] then none else some (none, rest)
    else if wellFormed isRegName authority || literal authority then some (some authority, rest)
    else none
  | text => some (none, text)

def parseFragment (uri : Uri) (text : List Char) : Option Uri :=
  match text with
  | '#' :: fragment =>
    if wellFormed isUric fragment then some { uri with fragment := some fragment } else none
  | _ => some uri

def parseQuery (uri : Uri) (text : List Char) : Option Uri :=
  match text with
  | '?' :: text =>
    let query := text.takeWhile (· ≠ '#')
    if wellFormed isUric query then
      parseFragment { uri with query := some query } (text.dropWhile (· ≠ '#'))
    else none
  | text => parseFragment uri text

def parseHierarchical (literal : List Char → Bool) (scheme : Option (List Char))
    (text : List Char) : Option Uri := do
  let (authority, text) ← parseAuthority literal text
  let path := text.takeWhile fun ch ↦ !"?#".toList.contains ch
  if wellFormed isPathChar path then
    parseQuery ⟨scheme, authority, some path, none, none⟩
      (text.dropWhile fun ch ↦ !"?#".toList.contains ch)
  else none

def parseOpaque (scheme text : List Char) : Option Uri :=
  let part := text.takeWhile (· ≠ '#')
  if part ≠ [] ∧ wellFormed isUric part then
    parseFragment ⟨some scheme, none, none, none, none⟩ (text.dropWhile (· ≠ '#'))
  else none

/-- `URI.create`, which throws at a text that is no identifier. -/
def parse (literal : List Char → Bool) (text : List Char) : Option Uri :=
  match text.dropWhile fun ch ↦ !"/?#:".toList.contains ch with
  | ':' :: rest =>
    let scheme := text.takeWhile fun ch ↦ !"/?#:".toList.contains ch
    if !isScheme scheme then none
    else if rest.head? = some '/' then parseHierarchical literal (some scheme) rest
    else parseOpaque scheme rest
  | _ => parseHierarchical literal none text

/-! ## Getters -/

/-- A component with its escaped octets decoded, run by run; `octets` is the run so far. Between
brackets the percent sign of an authority is kept. -/
def decodeFrom (ignorePercentInBrackets betweenBrackets : Bool) (octets : List UInt8) :
    List Char → List Char
  | [] => Utf8.decode octets
  | '%' :: high :: low :: cs =>
    if betweenBrackets && ignorePercentInBrackets then
      '%' :: decodeFrom ignorePercentInBrackets betweenBrackets [] (high :: low :: cs)
    else
      decodeFrom ignorePercentInBrackets betweenBrackets
        (octets ++ [(escaped high low).getD 0]) cs
  | ch :: cs =>
    Utf8.decode octets ++
      ch :: decodeFrom ignorePercentInBrackets
        (if ch = '[' then true else if ch = ']' then false else betweenBrackets) [] cs

def getAuthority (uri : Uri) : Option (List Char) := uri.authority.map (decodeFrom true false [])

def getPath (uri : Uri) : Option (List Char) := uri.path.map (decodeFrom false false [])

def getQuery (uri : Uri) : Option (List Char) := uri.query.map (decodeFrom false false [])

def getFragment (uri : Uri) : Option (List Char) := uri.fragment.map (decodeFrom false false [])

/-! ## Reading back -/

section Parse

variable {allowed : Char → Bool} {text scheme authority path : List Char}

theorem wellFormed_of_allowed (h : ∀ ch ∈ text, ch ≠ '%' ∧ allowed ch = true) :
    wellFormed allowed text = true := by
  induction text with
  | nil => rfl
  | cons ch cs ih =>
    obtain ⟨hpercent, hallowed⟩ := h ch List.mem_cons_self
    rw [wellFormed]
    · rw [ih fun other hother ↦ h other (List.mem_cons_of_mem _ hother), hallowed]
      simp [hpercent]
    · rintro high low rest rfl -
      exact hpercent rfl

theorem decodeFrom_eq_self (h : '%' ∉ text) (ignore between : Bool) :
    decodeFrom ignore between [] text = text := by
  induction text generalizing between with
  | nil => rfl
  | cons ch cs ih =>
    rw [List.mem_cons, not_or] at h
    rw [decodeFrom]
    · rw [ih h.2]
      rfl
    · rintro high low rest rfl -
      exact h.1 rfl

theorem takeWhile_append {p : Char → Bool} (h : ∀ ch ∈ text, p ch = true) (rest : List Char)
    (hrest : ∀ ch, rest.head? = some ch → p ch = false) :
    (text ++ rest).takeWhile p = text ∧ (text ++ rest).dropWhile p = rest := by
  rw [List.takeWhile_append_of_pos h, List.dropWhile_append_of_pos h]
  rcases rest with _ | ⟨ch, rest⟩
  · exact ⟨List.append_nil _, rfl⟩
  · have hstop := hrest ch rfl
    rw [List.takeWhile_cons_of_neg (by rw [hstop]; decide),
      List.dropWhile_cons_of_neg (by rw [hstop]; decide)]
    exact ⟨List.append_nil _, rfl⟩

/-- **What is read back** of a scheme, an authority that is a registry-based name without colons or
escapes and a path that is empty or absolute. -/
theorem parse_authority (literal : List Char → Bool)
    (hscheme : isScheme scheme = true)
    (hstop : ∀ ch ∈ scheme, "/?#:".toList.contains ch = false)
    (hsome : authority ≠ [])
    (hauthority : ∀ ch ∈ authority,
      ch ≠ '%' ∧ isRegName ch = true ∧ "/?#".toList.contains ch = false)
    (hpath : ∀ ch ∈ path, ch ≠ '%' ∧ isPathChar ch = true ∧ "?#".toList.contains ch = false)
    (habsolute : ∀ ch, path.head? = some ch → ch = '/') :
    parse literal (scheme ++ "://".toList ++ (authority ++ path)) =
      some ⟨some scheme, some authority, some path, none, none⟩ := by
  have hlead := takeWhile_append (p := fun ch ↦ !"/?#:".toList.contains ch)
    (fun ch hch ↦ by rw [hstop ch hch]; rfl) ("://".toList ++ (authority ++ path))
    (fun ch hch ↦ by obtain rfl := Option.some.inj hch; decide)
  have hname := takeWhile_append (p := fun ch ↦ !"/?#".toList.contains ch)
    (fun ch hch ↦ by rw [(hauthority ch hch).2.2]; rfl) path
    (fun ch hch ↦ by rw [habsolute ch hch]; decide)
  have hrest := takeWhile_append (p := fun ch ↦ !"?#".toList.contains ch)
    (fun ch hch ↦ by rw [(hpath ch hch).2.2]; rfl) [] (fun ch hch ↦ by cases hch)
  rw [List.append_nil] at hrest
  have hregistry : parseAuthority literal ('/' :: '/' :: (authority ++ path)) =
      some (some authority, path) := by
    rw [parseAuthority, hname.1, hname.2, if_neg hsome,
      wellFormed_of_allowed fun ch hch ↦ ⟨(hauthority ch hch).1, (hauthority ch hch).2.1⟩]
    rfl
  have hhierarchical : parseHierarchical literal (some scheme) ('/' :: '/' :: (authority ++ path)) =
      some ⟨some scheme, some authority, some path, none, none⟩ := by
    rw [parseHierarchical, hregistry]
    dsimp only [Option.bind_eq_bind, Option.bind_some]
    rw [hrest.1, hrest.2,
      if_pos (wellFormed_of_allowed fun ch hch ↦ ⟨(hpath ch hch).1, (hpath ch hch).2.1⟩)]
    rfl
  rw [parse, List.append_assoc, hlead.1, hlead.2]
  change (if !isScheme scheme then none else
    if ('/' :: '/' :: (authority ++ path)).head? = some '/' then
      parseHierarchical literal (some scheme) ('/' :: '/' :: (authority ++ path))
    else parseOpaque scheme ('/' :: '/' :: (authority ++ path))) = _
  rw [hscheme, hhierarchical]
  rfl

end Parse

end Uri
