import XinuRpi4.Compiler.ParserState
import XinuRpi4.Foundation.ByteWords
import XinuRpi4.Foundation.Munch

/-!
# The lexer of `cc/parse.c`

The text is the list of its bytes, without the NUL behind them. A pointer into the text is
the rest of the text; inside of a literal it may have been moved behind the NUL, and a read
there ends the run. Where the arena is exhausted the lexer records the error and goes on.

Blank space, comments and tokens, as they are spelled, and the token that each of them
is. A comment that is not closed goes on to the end of the text; a literal is a byte or an
escape in quotes, or up to 1023 of them in double quotes.
-/

namespace XinuRpi4.Compiler.Lexer

open Foundation

/-- The bytes of a string constant. -/
def chars (s : String) : List UInt8 := s.toList.map fun c => UInt8.ofNat c.toNat

abbrev quote : UInt8 := 39
abbrev dquote : UInt8 := 34
abbrev backslash : UInt8 := 92
abbrev slash : UInt8 := 47
abbrev star : UInt8 := 42
abbrev newline : UInt8 := 10

/-- `is_space` -/
def isSpace (c : UInt8) : Bool := c == 32 || c == 9 || c == 13 || c == newline

/-- `is_digit` -/
def isDigit (c : UInt8) : Bool := decide (48 ≤ c) && decide (c ≤ 57)

/-- `is_alpha` -/
def isAlpha (c : UInt8) : Bool :=
  (decide (97 ≤ c) && decide (c ≤ 122)) || (decide (65 ≤ c) && decide (c ≤ 90)) || c == 95

/-- `is_alnum` -/
def isAlnum (c : UInt8) : Bool := isAlpha c || isDigit c

/-- `*p`, where `p` is in the text or at its NUL. -/
def peek : List UInt8 → UInt8
  | [] => 0
  | c :: _ => c

/-- A pointer inside of a literal; none behind the NUL. -/
abbrev Ptr := Option (List UInt8)

/-- `*p`; there is no byte to read behind the NUL. -/
def deref (p : Ptr) : Option UInt8 := p.map peek

/-- `p + 1` -/
def next : Ptr → Ptr
  | some (_ :: rest) => some rest
  | _ => none

/-- The byte that an escape stands for. -/
def unescape (c : UInt8) : UInt8 :=
  if c = 110 then 10
  else if c = 116 then 9
  else if c = 114 then 13
  else if c = 48 then 0
  else c

/-- `read_escape` -/
def readEscape (p : Ptr) : Option (UInt8 × Ptr) := do
  let c ← deref p
  return (unescape c, next p)

/-- `kw_tab` -/
def kwTab : List (List UInt8) :=
  ["int", "char", "if", "else", "while", "for", "return", "sizeof", "struct", "typedef", "switch",
    "case", "default", "break", "continue"].map chars

/-- The comparison of `is_keyword` with one entry of the table. -/
def kwMatch : List UInt8 → List UInt8 → Bool
  | k :: ks, c :: s => if k = c then kwMatch ks s else false
  | [], [] => true
  | _, _ => false

/-- `is_keyword` -/
def isKeyword (s : List UInt8) : Bool := kwTab.any fun k => kwMatch k s

/-- `token_t`; `str` and `text` are copies of the bytes. -/
structure LexToken where
  kind : TokKind
  val : Word
  str : List UInt8
  text : List UInt8
deriving DecidableEq

def LexToken.num (v : Word) : LexToken := { kind := .num, val := v, str := [], text := [] }

def LexToken.string (s : List UInt8) : LexToken := { kind := .str, val := 0, str := s, text := [] }

def LexToken.spelled (kind : TokKind) (s : List UInt8) : LexToken :=
  { kind := kind, val := 0, str := [], text := s }

def LexToken.eof : LexToken := { kind := .eof, val := 0, str := [], text := [] }

/-- What one round of the loop of `cc_lex` comes to: blank space, a token with the blocks
that it asks the arena for, an error, or a read behind the NUL. -/
inductive Round
  | skip (rest : List UInt8)
  | token (t : LexToken) (blocks : List ℕ) (rest : List UInt8)
  | error (msg : String)
  | beyond

/-- `while (*p && *p != '\n') p++` -/
def lineEnd : List UInt8 → List UInt8
  | [] => []
  | c :: rest => if c = newline then c :: rest else lineEnd rest

/-- The end of a block comment, behind its first two bytes. -/
def blockEnd : List UInt8 → List UInt8
  | [] => []
  | c :: rest => if c = star ∧ peek rest = slash then rest.tail else blockEnd rest

/-- `while (is_digit(*p)) { v = v * 10 + (*p - '0'); p++; }` -/
def numLoop (v : Word) : List UInt8 → Word × List UInt8
  | [] => (v, [])
  | c :: rest =>
    if isDigit c then numLoop (v * 10 + BitVec.ofNat 64 (c - 48).toNat) rest else (v, c :: rest)

/-- A char literal, behind its first quote. -/
def charLit (p : List UInt8) : Option (Option (UInt8 × Ptr)) := do
  let c ← deref (some p)
  let (c, q) ← if c = backslash then readEscape (next (some p)) else some (c, next (some p))
  let e ← deref q
  return if e = quote then some (c, next q) else none

/-- Bytes of `buf` in front of its last one. -/
def strMax : ℕ := 1023

/-- The loop over a string literal, with room for `k` more bytes behind those in `buf`. -/
def strLoop (p : Ptr) (buf : List UInt8) : ℕ → Option (List UInt8 × Ptr)
  | 0 => do
    let _ ← deref p
    return (buf, p)
  | k + 1 => do
    let c ← deref p
    if c = 0 ∨ c = dquote then return (buf, p)
    else if c = backslash then
      let (r, q) ← readEscape (next p)
      strLoop q (buf ++ [r]) k
    else strLoop (next p) (buf ++ [c]) k

/-- A string literal, behind its first quote. -/
def strLit (p : List UInt8) : Option (Option (List UInt8 × Ptr)) := do
  let (buf, q) ← strLoop (some p) [] strMax
  let e ← deref q
  return if e = dquote then some (buf, next q) else none

/-- The operators of two bytes. -/
def two : List (List UInt8) := ["==", "!=", "<=", ">=", "&&", "||", "->"].map chars

/-- The punctuators of one byte. -/
def single : List UInt8 := chars "+-*/%=<>()[]\x7b\x7d&!,;.:"

/-- A punctuator. -/
def punct (c : UInt8) (rest : List UInt8) : Round :=
  match two.find? fun t => t == [c, peek rest] with
  | some t => .token (.spelled .punct t) [tokenSize, 3] rest.tail
  | none =>
    if single.contains c then .token (.spelled .punct [c]) [tokenSize, 2] rest
    else .error ("unexpected character '" ++ String.singleton (Char.ofNat c.toNat) ++ "'")

/-- One round of the loop of `cc_lex` at the byte `c`. -/
def round (c : UInt8) (rest : List UInt8) : Round :=
  if isSpace c then .skip rest
  else if c = slash ∧ peek rest = slash then .skip (lineEnd (c :: rest))
  else if c = slash ∧ peek rest = star then .skip (blockEnd rest.tail)
  else if isDigit c then
    let (v, rest) := numLoop 0 (c :: rest)
    .token (.num v) [tokenSize] rest
  else if c = quote then
    match charLit rest with
    | some (some (c, some rest)) => .token (.num (BitVec.ofNat 64 c.toNat)) [tokenSize] rest
    | some _ => .error "unterminated char literal"
    | none => .beyond
  else if c = dquote then
    match strLit rest with
    | some (some (s, some rest)) => .token (.string s) [tokenSize, s.length + 1] rest
    | some _ => .error "unterminated string literal"
    | none => .beyond
  else if isAlpha c then
    let s := (c :: rest).takeWhile isAlnum
    .token (.spelled (if isKeyword s then .kw else .ident) s) [tokenSize, s.length + 1]
      ((c :: rest).dropWhile isAlnum)
  else punct c rest

/-- What the lexer changes. -/
structure LexState where
  /-- `g_err` and `g_errbuf` -/
  err : Option String
  arena : Arena

/-- `cc_error` -/
def LexState.fail (s : LexState) (msg : String) : LexState :=
  { s with err := s.err.orElse fun _ => some msg }

/-- `cc_alloc` -/
def LexState.alloc (s : LexState) (n : ℕ) : LexState :=
  let t := if s.arena.Fits n then s else s.fail "compiler arena exhausted"
  { t with arena := (s.arena.alloc n).2 }

inductive LexOutcome
  /-- the tokens, or a null pointer -/
  | done (toks : Option (List LexToken)) (s : LexState)
  /-- a read behind the NUL -/
  | beyond
  | fuel

/-- The loop of `cc_lex`. -/
def lexLoop : ℕ → List UInt8 → List LexToken → LexState → LexOutcome
  | 0, _, _, _ => .fuel
  | _ + 1, [], toks, s => .done (some (toks ++ [.eof])) (s.alloc tokenSize)
  | n + 1, c :: rest, toks, s =>
    match round c rest with
    | .skip rest => lexLoop n rest toks s
    | .token t blocks rest => lexLoop n rest (toks ++ [t]) (blocks.foldl LexState.alloc s)
    | .error msg => .done none (s.fail msg)
    | .beyond => .beyond

/-- `cc_lex` -/
def ccLex (n : ℕ) (src : List UInt8) (s : LexState) : LexOutcome := lexLoop n src [] s

/-- What stands in a literal. -/
inductive LitChar
  | plain (c : UInt8)
  | escaped (c : UInt8)

namespace LitChar

def spelling : LitChar → List UInt8
  | plain c => [c]
  | escaped c => [backslash, c]

/-- The escapes that do not stand for the byte behind the backslash. -/
def escapes : List (UInt8 × UInt8) := [(110, 10), (116, 9), (114, 13), (48, 0)]

def value : LitChar → UInt8
  | plain c => c
  | escaped c => (escapes.lookup c).getD c

/-- A byte that is not escaped is no backslash, and not the byte `q`. -/
def Ok (q : Option UInt8) : LitChar → Prop
  | plain c => c ≠ backslash ∧ some c ≠ q
  | escaped _ => True

end LitChar

/-- The bytes between the quotes of a string literal. -/
def litSpelling (xs : List LitChar) : List UInt8 := (xs.map LitChar.spelling).flatten

inductive Lexeme
  | space (c : UInt8)
  | lineComment (body : List UInt8)
  | blockComment (body : List UInt8)
  | openComment (body : List UInt8)
  | number (ds : List UInt8)
  | charLit (x : LitChar)
  | strLit (xs : List LitChar)
  | word (s : List UInt8)
  | punct (s : List UInt8)

namespace Lexeme

def spelling : Lexeme → List UInt8
  | space c => [c]
  | lineComment body => slash :: slash :: body
  | blockComment body => slash :: star :: (body ++ [star, slash])
  | openComment body => slash :: star :: body
  | number ds => ds
  | charLit x => quote :: (x.spelling ++ [quote])
  | strLit xs => dquote :: (litSpelling xs ++ [dquote])
  | word s => s
  | punct s => s

def Valid : Lexeme → Prop
  | space c => isSpace c = true
  | lineComment body => newline ∉ body
  | blockComment body => ¬ [star, slash] <:+: body
  | openComment body => ¬ [star, slash] <:+: body
  | number ds => ds ≠ [] ∧ ∀ d ∈ ds, isDigit d = true
  | charLit x => x.Ok none
  | strLit xs => (∀ x ∈ xs, x.Ok (some dquote)) ∧ xs.length ≤ strMax
  | word s => s.head?.any isAlpha = true ∧ ∀ c ∈ s, isAlnum c = true
  | punct s => s ∈ two ∨ ∃ c ∈ single, s = [c]

/-- The token of a lexeme; blank space and comments have none. -/
def token : Lexeme → Option LexToken
  | space _ => none
  | lineComment _ => none
  | blockComment _ => none
  | openComment _ => none
  | number ds => some (.num (BitVec.ofNat 64 (horner 10 0 (ds.map fun d => (d - 48).toNat))))
  | charLit x => some (.num (BitVec.ofNat 64 x.value.toNat))
  | strLit xs => some (.string (xs.map LitChar.value))
  | word s => some (.spelled (if s ∈ kwTab then .kw else .ident) s)
  | punct s => some (.spelled .punct s)

theorem spelling_ne_nil (l : Lexeme) (h : l.Valid) : l.spelling ≠ [] := by
  cases l with
  | number ds => exact h.1
  | word s =>
    rintro rfl
    simp [Valid] at h
  | punct s =>
    obtain hs | ⟨c, -, rfl⟩ := h
    · rintro rfl
      exact absurd hs (by decide)
    · exact List.cons_ne_nil c []
  | _ => exact List.cons_ne_nil _ _

end Lexeme

/-- The lexemes with their spellings. -/
def lexicon : Lexicon UInt8 Lexeme where
  Valid := Lexeme.Valid
  spelling := Lexeme.spelling
  spelling_ne_nil := Lexeme.spelling_ne_nil

/-- A text in front of its NUL. -/
abbrev CText := { src : List UInt8 // 0 ∉ src }

/-- The tokens are those of the text: the spellings of the lexemes are the text, each is
the longest at its place, and their tokens are followed by `TK_EOF`. -/
structure Tokenises (src : List UInt8) (toks : List LexToken) (ls : List Lexeme) : Prop where
  whole : (ls.map Lexeme.spelling).flatten = src
  munch : lexicon.Munch src ls []
  tokens : toks = ls.filterMap Lexeme.token ++ [.eof]

/-- The run of the lexer ends, without a read behind the NUL, and it has recorded an error
or it returns the tokens of the text. -/
def LexesSoundly (src : CText) (s : LexState) : Prop :=
  ∀ n, src.1.length < n → ∃ r s', ccLex n src.1 s = .done r s' ∧
    (s'.err.isSome = true ∨ ∃ toks ls, r = some toks ∧ Tokenises src.1 toks ls)

/-- A literal that the text ends in where the lexer does not look for the NUL: in front of
the byte of a char literal, or behind a backslash. -/
def CutLiteral (tail : List UInt8) : Prop :=
  tail = [quote] ∨ tail = [quote, backslash] ∨
    ∃ xs : List LitChar, (∀ x ∈ xs, x.Ok (some dquote)) ∧ xs.length < strMax ∧
      tail = dquote :: (litSpelling xs ++ [backslash])

/-- The text is some lexemes and a literal that is cut off. -/
def CutOff (src : CText) : Prop := ∃ ls tail, lexicon.Munch src.1 ls tail ∧ CutLiteral tail

end XinuRpi4.Compiler.Lexer
