import Mathlib.Data.List.Basic

/-!
# Command lines of a POSIX shell

A shell takes a line apart into words and operators, the words into simple commands, and makes the
argument vector of a command from its words: tilde, parameter, command and arithmetic expansion,
field splitting, pathname expansion and the removal of quotes. What depends on the host (variables,
the output of commands, home directories, files) is a parameter.

Read are the lines that are sequences of simple commands with redirections. A line with other
constructs (compound commands, functions, assignments, here-documents) or with a syntax error has no
reading here. There are no positional parameters and `IFS` is the default.

## Main definitions

* `scan`: the words and operators of a line, found one character at a time by `step`.
* `commandsOf`: the words of its simple commands.
* `run`: their argument vectors.
-/

namespace Shell

/-! ## Words -/

/-- What a word is made of. -/
inductive Part where
  | char (c : Char) (quoted : Bool)
  /-- The start of a pair of quotes, which keep a word that is empty. -/
  | quotes
  /-- A parameter, command or arithmetic expansion. -/
  | expansion (text : List Char) (quoted : Bool)
  deriving DecidableEq

abbrev Word := List Part

def singleQuote : Char := '\x27'

def doubleQuote : Char := '\x22'

def backquote : Char := '\x60'

inductive Token where
  | word (parts : Word)
  | operator (text : List Char)
  deriving DecidableEq

def isBlank (c : Char) : Bool := c = ' ' || c = '\t'

/-- A character that operators are made of; the end of a line is one. -/
def isOperatorStart (c : Char) : Bool :=
  c = '\n' || c = '&' || c = ';' || c = '|' || c = '<' || c = '>' || c = '(' || c = ')'

def operators : List (List Char) :=
  ["\n", "&", "&&", ";", ";;", "|", "||", "<", "<<", "<<-", "<&", "<>", ">", ">>", ">&", ">|",
    "(", ")"].map String.toList

def isNameStart (c : Char) : Bool := c.isAlpha || c = '_'

def isNameChar (c : Char) : Bool := c.isAlphanum || c = '_'

/-- Parameters of one character. -/
def isSpecial (c : Char) : Bool :=
  c.isDigit || c = '@' || c = '*' || c = '#' || c = '?' || c = '-' || c = '$' || c = '!'

/-- After a `$` this is an expansion. -/
def startsExpansion (c : Char) : Bool :=
  isNameStart c || isSpecial c || c = '{' || c = '('

/-! ## Scanning

The scanner of POSIX shells as a state and a step for each character: what has been tokenized,
and where it stands in a word, in quotes, behind a `\` or a `$`, or in an expansion, whose
brackets are counted by `frames` and whose text is kept as it is. -/

/-- What is open inside of an expansion. The last two are open for one character. -/
inductive Frame where
  | single
  | double
  | backquote
  | braces
  | parens
  | escape
  | dollar
  deriving DecidableEq

/-- A character between the brackets of an expansion. -/
def frames : List Frame → Char → List Frame
  | [], _ => []
  | .escape :: rest, _ => rest
  | .dollar :: rest, c =>
    if c = '{' then .braces :: rest
    else if c = '(' then .parens :: rest
    else frames rest c
  | .single :: rest, c => if c = singleQuote then rest else .single :: rest
  | .backquote :: rest, c =>
    if c = backquote then rest
    else if c = '\\' then .escape :: .backquote :: rest
    else .backquote :: rest
  | .double :: rest, c =>
    if c = doubleQuote then rest
    else if c = '\\' then .escape :: .double :: rest
    else if c = '$' then .dollar :: .double :: rest
    else if c = backquote then .backquote :: .double :: rest
    else .double :: rest
  | .braces :: rest, c =>
    if c = '}' then rest
    else if c = '\\' then .escape :: .braces :: rest
    else if c = '$' then .dollar :: .braces :: rest
    else if c = backquote then .backquote :: .braces :: rest
    else if c = singleQuote then .single :: .braces :: rest
    else if c = doubleQuote then .double :: .braces :: rest
    else .braces :: rest
  | .parens :: rest, c =>
    if c = ')' then rest
    else if c = '(' then .parens :: .parens :: rest
    else if c = '\\' then .escape :: .parens :: rest
    else if c = '$' then .dollar :: .parens :: rest
    else if c = backquote then .backquote :: .parens :: rest
    else if c = singleQuote then .single :: .parens :: rest
    else if c = doubleQuote then .double :: .parens :: rest
    else .parens :: rest

/-- Where the scanner stands in a word; `quoted` is between double quotes. -/
inductive Scan where
  | plain (quoted : Bool)
  | single
  | escape (quoted : Bool)
  | dollar (quoted : Bool)
  | name (text : List Char) (quoted : Bool)
  | nested (text : List Char) (enclosing : List Frame) (quoted : Bool)
  deriving DecidableEq

inductive Mode where
  | blank
  | comment
  | operator (text : List Char)
  | word (parts : Word) (scan : Scan)
  deriving DecidableEq

/-- The state of the scanner behind a part of a line. -/
structure State where
  tokens : List Token
  mode : Mode
  deriving DecidableEq

def start : State := ⟨[], .blank⟩

/-- A number right before a redirection belongs to it. -/
def isIoNumber (parts : Word) : Bool :=
  parts.all fun
    | .char c false => c.isDigit
    | _ => false

/-- The tokens after the end of a word. A word without parts is none. -/
def endWord (tokens : List Token) (parts : Word) (redirection : Bool) : List Token :=
  if parts.isEmpty || redirection && isIoNumber parts then tokens else tokens ++ [.word parts]

/-- A character of a word, outside of single quotes. -/
def plainStep (tokens : List Token) (parts : Word) (quoted : Bool) (c : Char) : State :=
  if c = '\\' then ⟨tokens, .word parts (.escape quoted)⟩
  else if c = '$' then ⟨tokens, .word parts (.dollar quoted)⟩
  else if c = backquote then ⟨tokens, .word parts (.nested [backquote] [.backquote] quoted)⟩
  else if quoted then
    if c = doubleQuote then ⟨tokens, .word parts (.plain false)⟩
    else ⟨tokens, .word (parts ++ [.char c true]) (.plain true)⟩
  else if c = doubleQuote then ⟨tokens, .word (parts ++ [.quotes]) (.plain true)⟩
  else if c = singleQuote then ⟨tokens, .word (parts ++ [.quotes]) .single⟩
  else if isBlank c then ⟨endWord tokens parts false, .blank⟩
  else if isOperatorStart c then
    ⟨endWord tokens parts (c = '<' || c = '>'), .operator [c]⟩
  else ⟨tokens, .word (parts ++ [.char c false]) (.plain false)⟩

/-- A character between tokens. -/
def blankStep (tokens : List Token) (c : Char) : State :=
  if c = '#' then ⟨tokens, .comment⟩
  else if isBlank c then ⟨tokens, .blank⟩
  else plainStep tokens [] false c

def wordStep (tokens : List Token) (parts : Word) (scan : Scan) (c : Char) : State :=
  match scan with
  | .plain quoted => plainStep tokens parts quoted c
  | .single =>
    if c = singleQuote then ⟨tokens, .word parts (.plain false)⟩
    else ⟨tokens, .word (parts ++ [.char c true]) .single⟩
  | .escape false =>
    -- a line is continued without a trace
    if c = '\n' then
      if parts.isEmpty then ⟨tokens, .blank⟩ else ⟨tokens, .word parts (.plain false)⟩
    else ⟨tokens, .word (parts ++ [.char c true]) (.plain false)⟩
  | .escape true =>
    if c = '\n' then ⟨tokens, .word parts (.plain true)⟩
    else if c = '$' || c = backquote || c = doubleQuote || c = '\\' then
      ⟨tokens, .word (parts ++ [.char c true]) (.plain true)⟩
    else ⟨tokens, .word (parts ++ [.char '\\' true, .char c true]) (.plain true)⟩
  | .dollar quoted =>
    if isNameStart c then ⟨tokens, .word parts (.name ['$', c] quoted)⟩
    else if isSpecial c then ⟨tokens, .word (parts ++ [.expansion ['$', c] quoted]) (.plain quoted)⟩
    else if c = '{' then ⟨tokens, .word parts (.nested ['$', c] [.braces] quoted)⟩
    else if c = '(' then ⟨tokens, .word parts (.nested ['$', c] [.parens] quoted)⟩
    else plainStep tokens (parts ++ [.char '$' quoted]) quoted c
  | .name text quoted =>
    if isNameChar c then ⟨tokens, .word parts (.name (text ++ [c]) quoted)⟩
    else plainStep tokens (parts ++ [.expansion text quoted]) quoted c
  | .nested text enclosing quoted =>
    match frames enclosing c with
    | [] => ⟨tokens, .word (parts ++ [.expansion (text ++ [c]) quoted]) (.plain quoted)⟩
    | enclosing => ⟨tokens, .word parts (.nested (text ++ [c]) enclosing quoted)⟩

def step (s : State) (c : Char) : State :=
  match s.mode with
  | .blank => blankStep s.tokens c
  | .comment => if c = '\n' then ⟨s.tokens, .operator [c]⟩ else s
  | .operator text =>
    if text ++ [c] ∈ operators then ⟨s.tokens, .operator (text ++ [c])⟩
    else blankStep (s.tokens ++ [.operator text]) c
  | .word parts scan => wordStep s.tokens parts scan c

/-- The tokens at the end of a line, unless quotes or brackets are open. A last `\` or `$` has
nothing to act on. -/
def finish (s : State) : Option (List Token) :=
  match s.mode with
  | .blank | .comment => some s.tokens
  | .operator text => some (s.tokens ++ [.operator text])
  | .word parts (.plain false) => some (endWord s.tokens parts false)
  | .word parts (.escape false) => some (s.tokens ++ [.word (parts ++ [.char '\\' false])])
  | .word parts (.dollar false) => some (s.tokens ++ [.word (parts ++ [.char '$' false])])
  | .word parts (.name text false) => some (s.tokens ++ [.word (parts ++ [.expansion text false])])
  | .word _ _ => none

def scan (line : List Char) : Option (List Token) := finish (line.foldl step start)

/-! ## Commands -/

/-- Words that are no command of their own where a command starts. -/
def reserved : List (List Char) :=
  ["!", "\x7b", "\x7d", "case", "do", "done", "elif", "else", "esac", "fi", "for", "if", "in",
    "then",
    "until", "while"].map String.toList

/-- The unquoted characters that a word starts with. -/
def bareText : Word → List Char
  | .char c false :: rest => c :: bareText rest
  | _ => []

def isAssignment (parts : Word) : Bool :=
  match (bareText parts).span isNameChar with
  | (c :: _, '=' :: _) => isNameStart c
  | _ => false

/-- A word that starts something else than a simple command. -/
def startsConstruct (parts : Word) : Bool :=
  isAssignment parts || (bareText parts).length = parts.length && bareText parts ∈ reserved

/-- The commands of a line, up to a token. -/
structure Reader where
  commands : List (List Word)
  words : List Word
  redirected : Bool
  /-- The word that comes next is the one of a redirection. -/
  target : Bool
  /-- A command has to follow. -/
  needed : Bool

def Reader.isEmpty (r : Reader) : Bool := r.words.isEmpty && !r.redirected

def Reader.endCommand (r : Reader) (needed : Bool) : Option Reader :=
  if r.target || r.isEmpty then none else some ⟨r.commands ++ [r.words], [], false, false, needed⟩

def redirections : List (List Char) :=
  ["<", "<&", "<>", ">", ">>", ">&", ">|"].map String.toList

def readToken (r : Reader) : Token → Option Reader
  | .word parts =>
    if r.target then some { r with target := false }
    else if r.words.isEmpty && startsConstruct parts then none
    else some { r with words := r.words ++ [parts] }
  | .operator text =>
    if text ∈ redirections then
      if r.target then none else some { r with redirected := true, target := true }
    else if text = [';'] || text = ['&'] then r.endCommand false
    else if text = ['|'] || text = ['|', '|'] || text = ['&', '&'] then r.endCommand true
    else if text = ['\n'] then
      if r.isEmpty && !r.target then some r else r.endCommand false
    else none

def Reader.finish (r : Reader) : Option (List (List Word)) :=
  if r.isEmpty then if r.needed then none else some r.commands
  else (r.endCommand false).map Reader.commands

/-- The words of the simple commands. -/
def commandsOf (tokens : List Token) : Option (List (List Word)) :=
  (tokens.foldlM readToken ⟨[], [], false, false, false⟩).bind Reader.finish

/-! ## Expansions -/

/-- What the words of a line depend on. -/
structure Host where
  /-- What an expansion stands for. -/
  value : List Char → List Char
  /-- The home directory of a login name, or of the user for the empty name. -/
  home : List Char → Option (List Char)
  /-- The names of files that match a pattern, of which the active characters are marked. -/
  pathnames : List (Char × Bool) → List (List Char)

/-- The login name at the start of a word, and what comes after it. -/
def loginName : Word → List Char × Word
  | .char c false :: rest =>
    if c = '/' then ([], .char c false :: rest) else ((loginName rest).map (c :: ·) id)
  | rest => ([], rest)

def tilde (host : Host) : Word → Word
  | .char '~' false :: rest =>
    let (name, after) := loginName rest
    if after.isEmpty || after.head? = some (.char '/' false) then
      match host.home name with
      | some directory => directory.map (Part.char · true) ++ after
      | none => .char '~' false :: rest
    else .char '~' false :: rest
  | parts => parts

/-- A character of a word after its expansions; the unquoted ones of an expansion may separate
fields. -/
inductive Cell where
  | char (c : Char) (quoted : Bool)
  | quotes
  | expanded (c : Char)
  deriving DecidableEq

def Part.cells (host : Host) : Part → List Cell
  | .char c quoted => [.char c quoted]
  | .quotes => [.quotes]
  | .expansion text true => (host.value text).map (Cell.char · true)
  | .expansion text false => (host.value text).map Cell.expanded

def isSeparator : Cell → Bool
  | .expanded c => c = ' ' || c = '\t' || c = '\n'
  | _ => false

def fields (cells : List Cell) : List (List Cell) :=
  (cells.splitOnP isSeparator).filter fun field ↦ !field.isEmpty

/-- The character, and whether it may belong to a pattern. -/
def Cell.text : Cell → Option (Char × Bool)
  | .char c quoted => some (c, !quoted)
  | .quotes => none
  | .expanded c => some (c, true)

/-- After a `[` comes the rest of a bracket expression, of at least one character and without a
slash. -/
def closesBracket (pattern : List (Char × Bool)) : Bool :=
  let members := if (pattern.head?.any fun x ↦ x.1 = '!' || x.1 = '^') then pattern.tail else
    pattern
  (members.takeWhile fun x ↦ x.1 ≠ '/').tail.any fun x ↦ x.1 = ']' && x.2

def isPattern : List (Char × Bool) → Bool
  | [] => false
  | (c, active) :: rest =>
    active && (c = '*' || c = '?' || c = '[' && closesBracket rest) || isPattern rest

def expandField (host : Host) (field : List Cell) : List (List Char) :=
  let pattern := field.filterMap Cell.text
  let text := pattern.map Prod.fst
  if isPattern pattern then
    match host.pathnames pattern with
    | [] => [text]
    | names => names
  else [text]

/-- The fields that a word becomes. -/
def expand (host : Host) (parts : Word) : List (List Char) :=
  (fields ((tilde host parts).flatMap (Part.cells host))).flatMap (expandField host)

/-- The argument vectors of the commands of a line. -/
def run (host : Host) (line : List Char) : Option (List (List (List Char))) := do
  let tokens ← scan line
  let commands ← commandsOf tokens
  return (commands.map fun words ↦ words.flatMap (expand host)).filter fun argv ↦ !argv.isEmpty

end Shell
