/-
`ngx.re.split` of lua-resty-core (lib/ngx/re.lua): the helper that finds the next match, and the
loops with a limit and without one.

Positions count from 1. The helper keeps the position behind the match and one more, so the search
goes on one byte further than the next piece begins.
-/
import OpenResty.Lib.Matches

namespace OpenResty.Resty.ReSplit

open Lib.Matches Function

abbrev Bytes := List UInt8

/-- A Lua table of texts. -/
abbrev Table := Nat → Option Bytes

/-- The subject, and the regex as it is compiled: what is found in the subject, or an error. -/
structure Args where
  subj : Bytes
  compiled : Except String (Engine subj.length)

/-- `sub(subj, i, j)`, for an `i` from 1 on -/
def sub (subj : Bytes) (i j : Nat) : Bytes := slice subj (i - 1) j

/-- The first capture, if the regex has captures and any took part in the match. One that did not has
the offsets -1. -/
def firstCapture (subj : Bytes) (m : Match) : Option Bytes :=
  match m.captures with
  | [] => none
  | some (start, stop) :: _ => some (slice subj start stop)
  | none :: captures => if captures.any Option.isSome then some subj else none

structure Found where
  start : Nat
  stop : Nat
  capture : Option Bytes

/-- What is found from `ctx.pos` on, and the new `ctx.pos`. -/
def re_split_helper (subj : Bytes) (engine : Engine subj.length) (ctx_pos : Nat) :
    Except String (Option (Found × Nat)) :=
  let pos := ctx_pos - 1
  if subj.length < pos then .error "pcre_exec() failed: -24"
  else
    match engine.exec pos with
    | none => .ok none
    | some m =>
      let start := m.start + 1
      let stop := m.stop + 1
      .ok (some (⟨start, stop, firstCapture subj m⟩, stop + 1))

structure Progress where
  ctx_pos : Nat
  sub_idx : Nat
  res_idx : Nat
  res : Table
  last_empty_match : Option Nat
  /-- of the loop with a limit -/
  count : Nat

def Progress.push (l : Progress) (piece : Bytes) : Progress :=
  { l with res_idx := l.res_idx + 1, res := update l.res (l.res_idx + 1) (some piece) }

/-- One turn of either loop. -/
def splitTurn (subj : Bytes) (engine : Engine subj.length) (l : Progress) : Except String (Progress ⊕ Progress) :=
  match re_split_helper subj engine l.ctx_pos with
  | .error err => .error err
  | .ok none => .ok (.inr l)
  | .ok (some (found, ctx_pos)) =>
    let sub_idx := l.last_empty_match.getD l.sub_idx
    let last_empty_match := if found.start = found.stop then some found.start else l.last_empty_match
    let l := { l with ctx_pos, sub_idx, last_empty_match }
    if sub_idx < found.start ∨ last_empty_match = none then
      let l := { l with count := l.count + 1 }.push (sub subj sub_idx (found.start - 1))
      let l := found.capture.elim l l.push
      let l := { l with sub_idx := found.stop }
      .ok (if subj.length ≤ found.stop then .inr l else .inl l)
    else .ok (.inl l)

/-- The body of the loop with a limit. -/
def limitedTurn (subj : Bytes) (engine : Engine subj.length) (max : Nat) (l : Progress) :
    Except String (Progress ⊕ Progress) :=
  if l.count < max then splitTurn subj engine l else .ok (.inr l)

/-- The rest, and nil behind it. -/
def finish (subj : Bytes) (l : Progress) : Table :=
  update (update l.res (l.res_idx + 1) (some (sub subj l.sub_idx subj.length))) (l.res_idx + 2) none

/-- `split` without a context, into a table that may hold something; a loop that goes on for longer than
the subject does not end. -/
def split (a : Args) (max : Nat) (res : Table) : Option (Except String Table) :=
  let ctx_pos := 1
  if a.subj.length < ctx_pos then some (.ok (update res 1 none))
  else
    match a.compiled with
    | .error err => some (.error err)
    | .ok engine =>
      let body := if max > 0 then limitedTurn a.subj engine max else splitTurn a.subj engine
      (loop body (a.subj.length + 2)
        { ctx_pos, sub_idx := ctx_pos, res_idx := 0, res, last_empty_match := none, count := 1 }).map fun r =>
          r.map (finish a.subj)

/-! ## What is asked of it -/

/-- A regex without captures whose matches are not empty: the search finds the leftmost match from each
place on. -/
structure Delimiter (n : Nat) extends Engine n where
  free : ∀ p m, p ≤ n → exec p = some m → m.captures = []
  nonempty : ∀ p m, p ≤ n → exec p = some m → m.start < m.stop
  leftmost : ∀ p q m, exec p = some m → p ≤ q → q ≤ m.start → exec q = some m
  last : ∀ p q, exec p = none → p ≤ q → q ≤ n → exec q = none

variable {n : Nat} (e : Delimiter n)

/-- The matches that the subject is cut at: the successive ones, but the last `max - 1` at most. -/
def delimiters (max : Nat) : List Match :=
  if max > 0 then (found e.toEngine 0).take (max - 1) else found e.toEngine 0

/-- The text from a place on, between the matches. -/
def between (s : Bytes) : Nat → List Match → List Bytes
  | p, [] => [s.drop p]
  | p, m :: ms => slice s p m.start :: between s m.stop ms

/-- The pieces of a subject, of which an empty one has none. -/
def pieces (s : Bytes) (ms : List Match) : List Bytes := if s = [] then [] else between s 0 ms

/-- Pieces and matches, one after the other. -/
def interleave (s : Bytes) : List Bytes → List Match → Bytes
  | [], _ => []
  | piece :: rest, [] => piece ++ interleave s rest []
  | piece :: rest, m :: ms => piece ++ slice s m.start m.stop ++ interleave s rest ms

/-- The table holds these texts and nothing behind them. -/
def Holds (t : Table) (texts : List Bytes) : Prop := ∀ k ≤ texts.length, t (k + 1) = texts[k]?

/-- Where the `k`-th piece begins. -/
def startOf (ms : List Match) (k : Nat) : Nat := lastStop 0 (ms.take k)

/-- No piece holds the match that is found from its start, but a last one behind as many matches as are allowed. -/
def Clean (max : Nat) (ms : List Match) (ps : List Bytes) : Prop :=
  ∀ k piece, ps[k]? = some piece → (k < ms.length ∨ max = 0 ∨ ms.length + 1 < max) →
    ∀ m, e.exec (startOf ms k) = some m → startOf ms k + piece.length < m.stop

/-- The loop ends, with exactly the pieces between the matches; pieces and matches make up the subject; and no
piece holds a match. -/
def Right (subj : Bytes) (e : Delimiter subj.length) (max : Nat) (res : Table) : Prop :=
  ∃ t ps, split ⟨subj, .ok e.toEngine⟩ max res = some (.ok t) ∧ Holds t ps ∧
    ps = pieces subj (delimiters e max) ∧ interleave subj ps (delimiters e max) = subj ∧
    Clean e max (delimiters e max) ps

/-- No match begins where the one before it stops. -/
def Apart : List Match → Prop
  | [] => True
  | m :: ms => (∀ m' ∈ ms.head?, m'.start ≠ m.stop) ∧ Apart ms

end OpenResty.Resty.ReSplit
