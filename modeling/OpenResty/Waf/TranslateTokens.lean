/-
`resty.waf.translate`: `tokenize`, which takes the tokens of a directive off its line.

A token is taken off by an expression made of its own text, `^"?\Q` token `\E"?`. As
long as the text holds neither `\E` nor a NUL, with which the quoting or the expression
ends, that is the text itself between optional quotes. For any other text the expression
may be of any kind: what it leaves of a line is the library's to say.
-/
import Mathlib.Data.List.Infix

namespace OpenResty.Waf.Translate

abbrev Bytes := List UInt8

def quote : UInt8 := 34
def backslash : UInt8 := 92
def newline : UInt8 := 10

/-- `\s` -/
def space (c : UInt8) : Bool := c == 32 || (9 ≤ c && c ≤ 13)

/-- `rex_pcre`, as far as the lines do not determine it -/
structure Rex where
  /-- To match the line with `pats.token_quoted` takes more steps than PCRE is allowed. -/
  gives_up : Bytes → Bool
  /-- What `gsub` with an expression and the empty text leaves of a line; none if it
  raises an error -/
  gsub : Bytes → Bytes → Option Bytes

/-- What ends the loop but a line that is used up: an error of its own, one of the
library, or that it has made all the turns it was given -/
inductive Stop
  | err (msg : String)
  | raised
  | turns
deriving DecidableEq, Repr

/-! ## The expressions -/

/-- `((?:[^"\\]+|\\.)*)"` at the front of a text: the capture -/
def scan : Bytes → Option Bytes
  | [] => none
  | [c] => if c = quote then some [] else none
  | c :: d :: s =>
    if c = quote then some []
    else if c = backslash then
      if d = newline then none else (scan s).map fun t => c :: d :: t
    else (scan (d :: s)).map (c :: ·)

/-- `pats.token_quoted`: `^"((?:[^"\\]+|\\.)*)"` -/
def token_quoted : Bytes → Option Bytes
  | c :: s => if c = quote then scan s else none
  | [] => none

/-- `pats.token_unquoted`: `([^\s]+)` -/
def token_unquoted (line : Bytes) : Option Bytes :=
  match line.dropWhile space with
  | [] => none
  | c :: s => some ((c :: s).takeWhile fun c => !space c)

/-- The text of the expression that takes a token off -/
def toremove (token : Bytes) : Bytes := [94, quote, 63, backslash, 81] ++ token ++ [backslash, 69, quote, 63]

/-- The expression made of the token is its text, between optional quotes. -/
def Plain (token : Bytes) : Prop := ¬ [backslash, 69] <:+: token ∧ 0 ∉ token

instance : DecidablePred Plain := fun _ => inferInstanceAs (Decidable (_ ∧ _))

/-- `"?` -/
def dropQuote : Bytes → Bytes
  | c :: s => if c = quote then s else c :: s
  | [] => []

/-- `\Q..\E"?`: what is behind -/
def behind (token s : Bytes) : Option Bytes :=
  if token <+: s then some (dropQuote (s.drop token.length)) else none

/-- `re_gsub(line, toremove, '')` for a plain token: the quote is tried first with, then without -/
def removePlain (token line : Bytes) : Bytes :=
  let quoted :=
    match line with
    | c :: s => if c = quote then behind token s else none
    | [] => none
  (quoted.or (behind token line)).getD line

def re_gsub (rex : Rex) (line token : Bytes) : Except Stop Bytes :=
  if Plain token then .ok (removePlain token line)
  else
    match rex.gsub (toremove token) line with
    | some line => .ok line
    | none => .error .raised

/-- `str_gsub(token, [[\"]], [["]])` -/
def unescape : Bytes → Bytes
  | [] => []
  | [c] => [c]
  | c :: d :: s => if c = backslash ∧ d = quote then quote :: unescape s else c :: unescape (d :: s)

/-! ## The loop -/

/-- One turn: the token, and what is left of the line -/
def turn (rex : Rex) (line : Bytes) : Except Stop (Bytes × Bytes) := do
  if rex.gives_up line then throw .raised
  let some token := (token_quoted line).or (token_unquoted line)
    | throw (.err "token did not match quoted or unquoted patterns")
  let line ← re_gsub rex line token
  return (unescape token, line.dropWhile space)

/-- The turns, each with what it leaves of the line -/
def run (rex : Rex) : Nat → Bytes → Except Stop (List (Bytes × Bytes))
  | 0, _ => .error .turns
  | turns + 1, line => do
    let (token, line) ← turn rex line
    if line.length = 0 then return [(token, line)]
    return (token, line) :: (← run rex turns line)

def tokenize (rex : Rex) (turns : Nat) (line : Bytes) : Except Stop (List Bytes) :=
  (run rex turns line).map (·.map Prod.fst)

/-! ## The tokens of a line -/

def Blank (s : Bytes) : Prop := ∀ c ∈ s, space c = true

/-- It is used up, or begins with something else than white space. -/
def Front : Bytes → Prop
  | [] => True
  | c :: _ => space c = false

/-- What may stand between quotes: no quote or backslash but in a pair that begins with
a backslash. -/
inductive Escaped : Bytes → Prop
  | nil : Escaped []
  | other {c : UInt8} {t : Bytes} : c ≠ quote → c ≠ backslash → Escaped t → Escaped (c :: t)
  | pair {d : UInt8} {t : Bytes} : d ≠ newline → Escaped t → Escaped (backslash :: d :: t)

/-- A token at the front of a line, behind white space: between quotes, or a word; and
the line behind the white space that separates it from the next. -/
inductive Piece : Bytes → Bool → Bytes → Bytes → Prop
  | quoted {lead text ws rest : Bytes} : Blank lead → Escaped text → Blank ws → Front rest →
      Piece (lead ++ quote :: (text ++ quote :: (ws ++ rest))) true text rest
  | bare {lead text ws rest : Bytes} : Blank lead → text ≠ [] → (∀ c ∈ text, space c = false) →
      (∀ t tail, text ++ (ws ++ rest) = quote :: (t ++ quote :: tail) → ¬ Escaped t) →
      Blank ws → (ws = [] → rest = []) → Front rest → Piece (lead ++ (text ++ (ws ++ rest))) false text rest

/-- The tokens of a line, each with what is behind it. -/
inductive Cuts : Bytes → List (Bytes × Bytes) → Prop
  | blank {line : Bytes} : Blank line → Cuts line []
  | piece {line text rest : Bytes} {quoted : Bool} {ps : List (Bytes × Bytes)} :
      Piece line quoted text rest → Cuts rest ps → Cuts line ((unescape text, rest) :: ps)

/-- The loop ends, and if without an error then every turn has taken the next token, its
quotes and the white space behind it off the line. -/
def Right (rex : Rex) (line : Bytes) : Prop :=
  ∃ turns, run rex turns line ≠ .error .turns ∧ ∀ ps, run rex turns line = .ok ps → Cuts line ps

/-- The library raises an error on the way. -/
def Raises (rex : Rex) (line : Bytes) : Prop := ∃ turns, run rex turns line = .error .raised

/-- The token is taken off as it should be: there is no white space in front of it, and
its expression, if that is not its text, leaves what is behind it. White space in front
is taken off by an expression that is not the text, if at all. -/
structure Fine (rex : Rex) (line : Bytes) (quoted : Bool) (text rest : Bytes) : Prop where
  front : ¬ Front line → quoted = false ∧ ¬ Plain text
  leaves : ¬ Plain text → (rex.gsub (toremove text) line).map (·.dropWhile space) = some rest

/-- Every token of the line is taken off as it should be. -/
inductive Careful (rex : Rex) : Bytes → Prop
  | blank {line : Bytes} : Blank line → Careful rex line
  | piece {line text rest : Bytes} {quoted : Bool} : Piece line quoted text rest → Fine rex line quoted text rest →
      (rest ≠ [] → Careful rex rest) → Careful rex line

end OpenResty.Waf.Translate
