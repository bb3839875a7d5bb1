/-
The cache of compiled regexes that `ngx.re.match`, `find`, `gmatch`, `sub` and
`gsub` share, as `ngx_http_lua_regex.c` keeps it.

The calls come one after the other. While the callback of a `sub` runs, more
calls may come before it returns. Memory is taken to suffice.
-/
import OpenResty.Lib.Resp
import OpenResty.NgxLua.RegexSub

namespace OpenResty.NgxLua.RegexCache

open Lib.Matches (slice)
open Lib.Resp (ascii decimal asText)
open RegexSub (Progress nextOffset)

abbrev Bytes := List UInt8

/-! ## PCRE -/

/-- What `pcre_study` was asked for, and whether the result has the JIT stack of the
configuration. -/
structure Study where
  jit : Bool
  jit_stack : Bool

/-- PCRE as the module calls it, with the match limit of the configuration. -/
structure Pcre where
  Regex : Type
  /-- `ngx_http_lua_regex_compile`: `pcre_compile`, or a text for its error. -/
  compile : Bytes → BitVec 64 → Except String Regex
  captures : Regex → Nat
  /-- The numbers of the named groups, and their names. -/
  name_table : Regex → List (Nat × Bytes)
  /-- The return value and the offsets, for a subject, an offset in it, the number of offsets
  that there is room for, and `PCRE_NO_UTF8_CHECK`. -/
  exec : Regex → Study → Bytes → Int → (size : Nat) → Bool → Int × { offsets : List Int // offsets.length = size }
  dfa_exec : Regex → Study → Bytes → Int → (size : Nat) → Bool → Int × { offsets : List Int // offsets.length = size }

/-! ## Options -/

structure Flags where
  compile_once : Bool := false
  jit : Bool := false
  dfa : Bool := false
  dupnames : Bool := false
  no_utf8_check : Bool := false

/-- One letter of the options. -/
def parse_opt (opts : Bytes) : BitVec 64 × Flags → UInt8 → Except String (BitVec 64 × Flags)
  | (options, flags), c =>
    if c = 105 then .ok (options ||| 0x1, flags)                                                        -- i
    else if c = 115 then .ok (options ||| 0x4, flags)                                                   -- s
    else if c = 109 then .ok (options ||| 0x2, flags)                                                   -- m
    else if c = 117 then .ok (options ||| 0x800, flags)                                                 -- u
    else if c = 85 then .ok (options ||| 0x800, { flags with no_utf8_check := true })                   -- U
    else if c = 120 then .ok (options ||| 0x8, flags)                                                   -- x
    else if c = 111 then .ok (options, { flags with compile_once := true })                             -- o
    else if c = 106 then .ok (options, { flags with jit := true })                                      -- j
    else if c = 100 then .ok (options, { flags with dfa := true })                                      -- d
    else if c = 97 then .ok (options ||| 0x10, flags)                                                   -- a
    else if c = 68 then .ok (options ||| 0x80000, { flags with dupnames := true })                      -- D
    else if c = 74 then .ok (options ||| 0x2000000, flags)                                              -- J
    else
      let flag := asText [c]
      let given := asText (opts.takeWhile (· ≠ 0))
      .error s!"unknown flag \"{flag}\" (flags \"{given}\")"

/-- `ngx_http_lua_ngx_re_parse_opts` -/
def parse_opts (opts : Bytes) : Except String (BitVec 64 × Flags) := do
  let (options, flags) ← (opts.takeWhile (· ≠ 0)).foldlM (parse_opt opts) (0, {})
  -- pcre does not support JIT for DFA mode yet
  return (options, if flags.jit && flags.dfa then { flags with jit := false } else flags)

/-! ## Templates -/

inductive Code
  | copy (value : Bytes)
  /-- The capture whose offsets are at `n` and `n + 1`. -/
  | capture (n : Nat)

/-- `ngx_http_lua_complex_value_t`; without `$` in the value there are no codes. -/
structure Template where
  value : Bytes
  codes : Option (List Code)

def isDigit (c : UInt8) : Bool := decide (48 ≤ c ∧ c ≤ 57)

/-- The number of a capture, in a machine word. -/
def captureNumber (digits : Bytes) : Nat := digits.foldl (fun n c => (n * 10 + (c.toNat - 48)) % 2 ^ 64) 0

/-- `ngx_http_lua_script_compile`, on what is left of the source; each turn takes a byte of it. -/
def script_compile : Nat → Bytes → Option (List Code)
  | 0, _ => some []
  | _ + 1, [] => some []
  | k + 1, c :: rest =>
    if c = 36 then
      match rest with
      | [] => none
      | c :: rest' =>
        if c = 36 then (.copy [36] :: ·) <$> script_compile k rest'
        else if c = 123 then
          -- the closing bracket follows the digits
          let digits := rest'.takeWhile isDigit
          match digits, rest'.dropWhile isDigit with
          | _ :: _, 125 :: rest' => (.capture (2 * captureNumber digits % 2 ^ 64) :: ·) <$> script_compile k rest'
          | _, _ => none
        else
          let digits := rest.takeWhile isDigit
          if digits = [] then none
          else (.capture (2 * captureNumber digits % 2 ^ 64) :: ·) <$> script_compile k (rest.dropWhile isDigit)
    else
      let name := (c :: rest).takeWhile (· ≠ 36)
      (.copy name :: ·) <$> script_compile k ((c :: rest).dropWhile (· ≠ 36))

/-- `ngx_http_lua_compile_complex_value` -/
def compile_complex_value (value : Bytes) : Option Template :=
  if 36 ∈ value then (fun codes => { value, codes := some codes }) <$> script_compile value.length value
  else some { value, codes := none }

/-- The offset at a place of the buffer. -/
def capAt (cap : List Int) (n : Nat) : Int := cap.getD n 0

/-- The bytes of the subject from the offset at `n` to the next one. -/
def captured (subj : Bytes) (cap : List Int) (n : Nat) : Bytes :=
  slice subj (capAt cap n).toNat (capAt cap (n + 1)).toNat

/-- What `ngx_http_lua_complex_value` puts in the place of a match. -/
def Template.fill (tpl : Template) (subj : Bytes) (count : Nat) (cap : List Int) : Bytes :=
  match tpl.codes with
  | none => tpl.value
  | some codes => codes.flatMap fun
    | .copy value => value
    | .capture n => if n < count * 2 then captured subj cap n else []

/-! ## Keys -/

inductive Replace
  | template (value : Bytes)
  | func

/-- Which of the functions a regex is compiled for. -/
inductive Purpose
  | «match»
  | sub (replace : Replace)

/-- The template, which is empty when a function replaces the matches. -/
def Replace.tpl : Replace → Bytes
  | .template value => value
  | .func => []

structure Wanted where
  purpose : Purpose
  pat : Bytes
  options : BitVec 64
  flags : Flags

/-- The bytes of an integer in memory. -/
def optionsBytes : Nat → Nat → Bytes
  | 0, _ => []
  | k + 1, n => UInt8.ofNat (n % 256) :: optionsBytes k (n / 256)

/-- The key of the cache. -/
def Wanted.key (w : Wanted) : Bytes :=
  match w.purpose with
  | .match => ascii ['m'] ++ w.pat ++ optionsBytes 8 w.options.toNat
  | .sub replace =>
    ascii ['s'] ++ decimal replace.tpl.length ++ ascii [':'] ++ w.pat ++ replace.tpl ++ optionsBytes 8 w.options.toNat

/-! ## Compiled regexes -/

variable (P : Pcre)

/-- `ngx_http_lua_regex_t`; `captures` is the place of the buffer. -/
structure Entry where
  regex : P.Regex
  regex_sd : Study
  ncaptures : Nat
  captures : Nat
  replace : Option Template

/-- What a call has when it gets to `exec`; `cap` stands for its buffer. -/
structure Handle (α : Type) where
  regex : P.Regex
  sd : Study
  captures : Nat
  ovecsize : Nat
  ctpl : Option Template
  flags : Flags
  cap : α

/-- What `ngx.re.gmatch` returns. -/
structure Iterator (α : Type) where
  subj : Bytes
  handle : Handle P α
  offset : Int

/-- A call of `sub` whose callback runs. -/
structure Frame (α : Type) where
  subj : Bytes
  handle : Handle P α
  global : Bool
  progress : Progress

structure State where
  cache : Bytes → Option (Entry P)
  regex_cache_entries : Nat
  /-- The buffers, in the order in which they were allocated. -/
  buffers : List (List Int)
  iterators : List (Iterator P Nat)
  /-- The innermost call comes first. -/
  frames : List (Frame P Nat)

def State.initial : State P where
  cache _ := none
  regex_cache_entries := 0
  buffers := []
  iterators := []
  frames := []

variable {P} {α : Type}

def Pcre.search (P : Pcre) (dfa : Bool) :
    P.Regex → Study → Bytes → Int → (size : Nat) → Bool → Int × { offsets : List Int // offsets.length = size } :=
  if dfa then P.dfa_exec else P.exec

def ovecsize (flags : Flags) (captures : Nat) : Nat := if flags.dfa then 2 else (captures + 1) * 3

def Wanted.sd (w : Wanted) : Study where
  jit := w.flags.jit
  jit_stack :=
    match w.purpose with
    | .match => w.flags.jit
    | .sub _ => false

/-- The template is compiled, if there is one. -/
def Purpose.ctpl : Purpose → Except String (Option Template)
  | .sub (.template value) =>
    match compile_complex_value value with
    | some ctpl => .ok (some ctpl)
    | none => .error "failed to compile the replacement template"
  | .match | .sub .func => .ok none

/-- What a call compiles for itself. -/
def Wanted.compiled (w : Wanted) : Except String (Handle P Unit) := do
  let regex ← P.compile w.pat w.options
  let captures := if w.flags.dfa then 0 else P.captures regex
  let ctpl ← w.purpose.ctpl
  return { regex, sd := w.sd, captures, ovecsize := ovecsize w.flags captures, ctpl, flags := w.flags, cap := () }

def Handle.at (h : Handle P Unit) (cap : α) : Handle P α := { h with cap }

/-- The regex that a call uses: the cached one, or one that it compiles and puts into the
cache unless that is full. -/
def State.prepare (s : State P) (max_entries : Nat) (w : Wanted) : State P × Except String (Handle P Nat) :=
  match if w.flags.compile_once then s.cache w.key else none with
  | some re =>
    (s, .ok { regex := re.regex, sd := re.regex_sd, captures := re.ncaptures, ovecsize := ovecsize w.flags re.ncaptures,
              ctpl := re.replace, flags := w.flags, cap := re.captures })
  | none =>
    let saves := w.flags.compile_once && decide (s.regex_cache_entries < max_entries)
    let warns := w.flags.compile_once && decide (s.regex_cache_entries = max_entries)
    let s := if warns then { s with regex_cache_entries := s.regex_cache_entries + 1 } else s
    match w.compiled with
    | .error msg => (s, .error msg)
    | .ok h =>
      let cap := s.buffers.length
      let s := { s with buffers := s.buffers ++ [List.replicate h.ovecsize 0] }
      let re : Entry P :=
        { regex := h.regex, regex_sd := h.sd, ncaptures := h.captures, captures := cap, replace := h.ctpl }
      let s :=
        if saves then
          { s with
            cache := Function.update s.cache w.key (some re)
            regex_cache_entries := s.regex_cache_entries + 1 }
        else s
      (s, .ok (h.at cap))

inductive Failure
  /-- Memory outside of a buffer or a string is used. -/
  | wild
  | endless

/-- The call of `pcre_exec` or `pcre_dfa_exec`. -/
def Handle.run (h : Handle P α) (subj : Bytes) (pos : Int) : Int × List Int :=
  let r := P.search h.flags.dfa h.regex h.sd subj pos h.ovecsize h.flags.no_utf8_check
  (r.1, r.2.1)

/-- The same, with the offsets in the buffer. -/
def State.exec (s : State P) (h : Handle P Nat) (subj : Bytes) (pos : Int) : Except Failure (State P × Int × List Int) :=
  let buffer := s.buffers.getD h.cap []
  if buffer.length < h.ovecsize then .error .wild
  else
    let r := h.run subj pos
    let buffer := r.2 ++ buffer.drop h.ovecsize
    .ok ({ s with buffers := s.buffers.set h.cap buffer }, r.1, buffer)

/-- The number of captures that are set, when there is a match. -/
def checkRc (flags : Flags) (rc : Int) : Except String (Option Nat) :=
  if rc = -1 then .ok none
  else if rc < 0 then .error s!"pcre_exec() failed: {rc}"
  else if rc = 0 then if flags.dfa then .ok (some 1) else .error "capture size too small"
  else .ok (some rc.toNat)

/-! ## What the calls return -/

inductive Named
  | one (capture : Option Bytes)
  | many (captures : List Bytes)

/-- The table of captures; one that is not set is `false`. -/
structure Captures where
  groups : List (Option Bytes)
  named : List (Bytes × Named)

/-- The field of a table is set. -/
def setField (t : List (Bytes × Named)) (name : Bytes) (v : Named) : List (Bytes × Named) :=
  if t.any (·.1 == name) then t.map fun e => if e.1 = name then (name, v) else e else t ++ [(name, v)]

/-- `ngx_http_lua_re_collect_named_captures` -/
def collect_named_captures (dupnames : Bool) (groups : List (Option Bytes)) (name_table : List (Nat × Bytes)) :
    List (Bytes × Named) :=
  name_table.foldl
    (fun t e =>
      match groups[e.1]? with
      | none => t
      | some capture =>
        if dupnames then
          match capture with
          | none => t
          | some capture =>
            match t.lookup e.2 with
            | some (.many captures) => setField t e.2 (.many (captures ++ [capture]))
            | _ => setField t e.2 (.many [capture])
        else setField t e.2 (.one capture))
    []

def Handle.collect (h : Handle P α) (subj : Bytes) (rc : Nat) (cap : List Int) : Captures :=
  let groups := (List.range (h.captures + 1)).map fun i =>
    if rc ≤ i ∨ capAt cap (2 * i) < 0 then none else some (captured subj cap (2 * i))
  { groups, named := collect_named_captures h.flags.dupnames groups (P.name_table h.regex) }

/-- What Lua gets: the value that is returned, or the captures that the callback is called with. -/
inductive Output
  | raised (msg : String)
  /-- Nothing, or the captures; and what the field `pos` of the context is set to. -/
  | «match» (r : Except String (Option Captures)) (pos : Option Int)
  /-- Nothing, or the offsets of the capture if it is set. -/
  | find (r : Except String (Option (Option (Int × Int)))) (pos : Option Int)
  | gmatch (r : Except String Unit)
  | next (r : Except String (Option Captures))
  | called (captures : Captures)
  | sub (r : Except String (Bytes × Nat))
  | idle

/-- The field `pos` of the context, from 1 on. -/
def startOf (ctx : Option (Option Int)) : Int :=
  match ctx with
  | some (some pos) => if pos ≤ 0 then 0 else pos - 1
  | _ => 0

/-- The context of a call, if there is one, gets the place behind the match. -/
def posAfter (ctx : Option (Option Int)) (cap : List Int) : Option Int := ctx.map fun _ => capAt cap 1 + 1

def matchResult (h : Handle P α) (subj : Bytes) (ctx : Option (Option Int)) (rc : Int) (cap : List Int) : Output :=
  match checkRc h.flags rc with
  | .error msg => .match (.error msg) none
  | .ok none => .match (.ok none) none
  | .ok (some rc) => .match (.ok (some (h.collect subj rc cap))) (posAfter ctx cap)

def findResult (h : Handle P α) (ctx : Option (Option Int)) (group_id : Nat) (rc : Int) (cap : List Int) : Output :=
  match checkRc h.flags rc with
  | .error msg => .find (.error msg) none
  | .ok none => .find (.ok none) none
  | .ok (some rc) =>
    let pos := posAfter ctx cap
    if group_id > h.captures then .find (.error "nth out of bound") pos
    else if group_id ≥ rc then .find (.ok (some none)) pos
    else
      let «from» := capAt cap (group_id * 2) + 1
      let last := capAt cap (group_id * 2 + 1)
      if «from» < 0 ∨ last < 0 then .find (.ok (some none)) pos else .find (.ok (some (some («from», last)))) pos

/-- What the iterator returns, and the offset that it goes on from. -/
def nextResult (h : Handle P α) (subj : Bytes) (rc : Int) (cap : List Int) : Output × Int :=
  match checkRc h.flags rc with
  | .error msg =>
    -- no text is set for the buffer that is too small
    if rc = 0 then (.next (.ok none), -1) else (.next (.error msg), -1)
  | .ok none => (.next (.ok none), -1)
  | .ok (some rc) =>
    let offset := nextOffset (capAt cap 0, capAt cap 1)
    (.next (.ok (some (h.collect subj rc cap))), if offset > subj.length then -1 else offset)

/-! ## The loop of `sub` -/

/-- Where a `sub` gets to: it returns, or it calls the callback. -/
inductive Outcome
  | finished (r : Except String (Bytes × Nat))
  | calls (progress : Progress) (captures : Captures)

/-- The bytes of the subject between two offsets. -/
def between (subj : Bytes) (i j : Int) : Except Failure Bytes :=
  if 0 ≤ i ∧ i ≤ j ∧ j ≤ subj.length then .ok (slice subj i.toNat j.toNat) else .error .wild

/-- When no match is left. -/
def finish (subj : Bytes) (l : Progress) : Except Failure Outcome :=
  if l.count = 0 then pure (.finished (.ok (subj, 0)))
  else if l.offset < subj.length then do
    let trailer ← between subj l.cp_offset subj.length
    return .finished (.ok (l.luabuf ++ trailer, l.count))
  else pure (.finished (.ok (l.luabuf, l.count)))

/-- The piece for a match is there: the loop goes on, or it is left. -/
def append (subj : Bytes) (global : Bool) (l : Progress) (cap : Int × Int) (piece : Bytes) :
    Except Failure (Progress ⊕ Progress) := do
  let kept ← between subj l.cp_offset cap.1
  let l := { l with offset := nextOffset cap, cp_offset := cap.2, luabuf := l.luabuf ++ kept ++ piece }
  return if (cap.2 = cap.1 ∧ subj.length < cap.2 + 1) ∨ global = false then .inr l else .inl l

/-- What follows a search. -/
def afterExec (h : Handle P α) (subj : Bytes) (global func : Bool) (l : Progress) (rc : Int) (cap : List Int) :
    Except Failure (Progress ⊕ Outcome) :=
  match checkRc h.flags rc with
  | .error msg => .ok (.inr (.finished (.error msg)))
  | .ok none => Sum.inr <$> finish subj l
  | .ok (some rc) =>
    let l := { l with count := l.count + 1 }
    if func then .ok (.inr (.calls l (h.collect subj rc cap)))
    else
      match h.ctpl with
      | none => .error .wild
      | some ctpl => do
        match ← append subj global l (capAt cap 0, capAt cap 1) (ctpl.fill subj rc cap) with
        | .inl l => return .inl l
        | .inr l => return .inr (← finish subj l)

def State.subLoop (h : Handle P Nat) (subj : Bytes) (global func : Bool) :
    Nat → State P → Progress → Except Failure (State P × Outcome)
  | 0, _, _ => .error .endless
  | fuel + 1, s, l => do
    let (s, rc, cap) ← s.exec h subj l.offset
    match ← afterExec h subj global func l rc cap with
    | .inl l => State.subLoop h subj global func fuel s l
    | .inr r => return (s, r)

/-- The loop returns, or the call waits for its callback. -/
def State.settle (h : Handle P Nat) (subj : Bytes) (global : Bool) : State P × Outcome → State P × Output
  | (s, .finished r) => (s, .sub r)
  | (s, .calls progress captures) =>
    ({ s with frames := { subj, handle := h, global, progress } :: s.frames }, .called captures)

def Replace.isFunc : Replace → Bool
  | .template _ => false
  | .func => true

/-! ## Calls -/

/-- The options are parsed, and the regex is taken from the cache or compiled. -/
def State.open (s : State P) (max_entries : Nat) (purpose : Purpose) (pat opts : Bytes) (failed : String → Output)
    (go : State P → Handle P Nat → Except Failure (State P × Output)) : Except Failure (State P × Output) :=
  match parse_opts opts with
  | .error msg => .ok (s, .raised msg)
  | .ok (options, flags) =>
    match s.prepare max_entries { purpose, pat, options, flags } with
    | (s, .error msg) => .ok (s, failed msg)
    | (s, .ok h) => go s h

def State.ngx_re_match (s : State P) (max_entries : Nat) (subj pat opts : Bytes) (ctx : Option (Option Int)) :
    Except Failure (State P × Output) :=
  s.open max_entries .match pat opts (fun msg => .match (.error msg) none) fun s h => do
    let (s, rc, cap) ← s.exec h subj (startOf ctx)
    return (s, matchResult h subj ctx rc cap)

def State.ngx_re_find (s : State P) (max_entries : Nat) (subj pat opts : Bytes) (ctx : Option (Option Int))
    (group_id : Nat) : Except Failure (State P × Output) :=
  s.open max_entries .match pat opts (fun msg => .find (.error msg) none) fun s h => do
    let (s, rc, cap) ← s.exec h subj (startOf ctx)
    return (s, findResult h ctx group_id rc cap)

def State.ngx_re_gmatch (s : State P) (max_entries : Nat) (subj pat opts : Bytes) : Except Failure (State P × Output) :=
  s.open max_entries .match pat opts (fun msg => .gmatch (.error msg)) fun s h =>
    .ok ({ s with iterators := s.iterators ++ [{ subj, handle := h, offset := 0 }] }, .gmatch (.ok ()))

/-- `ngx_http_lua_ngx_re_gmatch_iterator`, for the iterator that was the `i`-th to be returned. -/
def State.ngx_re_gmatch_iterator (s : State P) (i : Nat) : Except Failure (State P × Output) :=
  match s.iterators[i]? with
  | none => .ok (s, .idle)
  | some it =>
    if it.offset < 0 then .ok (s, .next (.ok none))
    else do
      let (s, rc, cap) ← s.exec it.handle it.subj it.offset
      let (r, offset) := nextResult it.handle it.subj rc cap
      return ({ s with iterators := s.iterators.set i { it with offset } }, r)

/-- `ngx_http_lua_ngx_re_sub_helper`, up to the first call of the callback. -/
def State.ngx_re_sub (s : State P) (max_entries : Nat) (global : Bool) (subj pat : Bytes) (replace : Replace)
    (opts : Bytes) : Except Failure (State P × Output) :=
  s.open max_entries (.sub replace) pat opts (fun msg => .sub (.error msg)) fun s h => do
    let r ← State.subLoop h subj global replace.isFunc (subj.length + 2) s { count := 0, offset := 0, cp_offset := 0, luabuf := [] }
    return State.settle h subj global r

/-- The callback of the innermost call returns. -/
def State.resume (s : State P) (piece : Bytes) : Except Failure (State P × Output) :=
  match s.frames with
  | [] => .ok (s, .idle)
  | f :: frames => do
    let s := { s with frames }
    -- the offsets are read from the buffer again
    let buffer := s.buffers.getD f.handle.cap []
    match ← append f.subj f.global f.progress (capAt buffer 0, capAt buffer 1) piece with
    | .inl l => return State.settle f.handle f.subj f.global (← State.subLoop f.handle f.subj f.global true (f.subj.length + 2) s l)
    | .inr l => return State.settle f.handle f.subj f.global (s, ← finish f.subj l)

/-! ## Runs -/

inductive Event
  /-- With the context table, if there is one, and its field `pos`. -/
  | «match» (subj pat opts : Bytes) (ctx : Option (Option Int))
  | find (subj pat opts : Bytes) (ctx : Option (Option Int)) (group_id : Nat)
  | gmatch (subj pat opts : Bytes)
  | next (i : Nat)
  | sub (global : Bool) (subj pat : Bytes) (replace : Replace) (opts : Bytes)
  /-- The callback of the innermost call returns a string. -/
  | returns (piece : Bytes)
  /-- It raises an error, or returns neither a string nor a number. -/
  | raises

def State.step (max_entries : Nat) (s : State P) : Event → Except Failure (State P × Output)
  | .match subj pat opts ctx => s.ngx_re_match max_entries subj pat opts ctx
  | .find subj pat opts ctx group_id => s.ngx_re_find max_entries subj pat opts ctx group_id
  | .gmatch subj pat opts => s.ngx_re_gmatch max_entries subj pat opts
  | .next i => s.ngx_re_gmatch_iterator i
  | .sub global subj pat replace opts => s.ngx_re_sub max_entries global subj pat replace opts
  | .returns piece => s.resume piece
  | .raises =>
    match s.frames with
    | [] => .ok (s, .idle)
    | _ :: frames => .ok ({ s with frames }, .raised "error in the callback")

def State.emptied (s : State P) : State P := { s with cache := fun _ => none, regex_cache_entries := 0 }

/-- The same, when the cache is emptied before each call. -/
def State.stepEmpty (max_entries : Nat) (s : State P) (e : Event) : Except Failure (State P × Output) :=
  s.emptied.step max_entries e

end OpenResty.NgxLua.RegexCache
