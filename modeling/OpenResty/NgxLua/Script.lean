/-
`ngx_http_lua_script.c`: replacement templates compiled to a program for the length
of a replacement and one for its bytes, and the loops that run them.

A program is an array of bytes. Pointers into it are offsets, and what has not been
written holds any bytes. Memory is always allocated.
-/
import OpenResty.Lib.Layout
import OpenResty.Lib.Resp

namespace OpenResty.NgxLua.Script

open Lib Lib.Layout List Nat
open Lib.Resp (ascii)

/-! ## Arrays of code -/

/-- The functions that an instruction starts with a pointer to -/
inductive Function
  | copy_len_code
  | copy_code
  | copy_capture_len_code
  | copy_capture_code
deriving DecidableEq

/-- The addresses of the functions -/
structure Addresses where
  addr : Function → Nat
  pos : ∀ f, addr f ≠ 0
  lt : ∀ f, addr f < 2 ^ 64
  inj : Function.Injective addr

/-- `ngx_array_t`, with elements of one byte -/
structure CodeArray where
  elts : Memory
  nelts : Nat

/-- `ngx_http_lua_script_add_code`: the address of the new code -/
def CodeArray.add_code (codes : CodeArray) (size : Nat) : Nat × CodeArray :=
  (codes.nelts, { codes with nelts := codes.nelts + size })

def CodeArray.write (codes : CodeArray) (off : Nat) (bs : Bytes) : CodeArray :=
  { codes with elts := codes.elts.store off bs }

def CodeArray.writeWord (codes : CodeArray) (off n : Nat) : CodeArray := codes.write off (toBytes 8 n)

/-- `(n + sizeof(uintptr_t) - 1) & ~(sizeof(uintptr_t) - 1)` -/
def align (n : Nat) : Nat := (n + 8 - 1) / 8 * 8

/-- `ngx_http_lua_script_compile_t`, without what is the same all the time -/
structure Compile where
  lengths : CodeArray
  values : CodeArray

inductive CompileError
  | invalid_variable (source : Bytes)
  | bracket (name : Bytes)
  | named (name : Bytes)

/-- What is logged -/
def CompileError.message : CompileError → Bytes
  | .invalid_variable source =>
    ascii "lua script: invalid capturing variable name found in \"".toList ++ source ++ ascii "\"".toList
  | .bracket name => ascii "the closing bracket in \"".toList ++ name ++ ascii "\" variable is missing".toList
  | .named name =>
    ascii "attempt to use named capturing variable \"".toList ++ name ++
      ascii "\" (named captures not supported yet)".toList

def isDigit (ch : UInt8) : Bool := decide (48 ≤ ch ∧ ch ≤ 57)

/-- A byte of the name of a variable -/
def isWord (ch : UInt8) : Bool := decide (65 ≤ ch ∧ ch ≤ 90 ∨ 97 ≤ ch ∧ ch ≤ 122 ∨ 48 ≤ ch ∧ ch ≤ 57 ∨ ch = 95)

section

variable (A : Addresses)

def add_copy_code (sc : Compile) (value : Bytes) : Compile :=
  let len := value.length
  let (code, lengths) := sc.lengths.add_code 16
  let lengths := (lengths.writeWord code (A.addr .copy_len_code)).writeWord (code + 8) len
  let size := align (16 + len)
  let (code, values) := sc.values.add_code size
  let values := (values.writeWord code (A.addr .copy_code)).writeWord (code + 8) len
  { lengths, values := values.write (code + 16) value }

def add_capture_code (sc : Compile) (n : Nat) : Compile :=
  let (code, lengths) := sc.lengths.add_code 16
  let lengths := (lengths.writeWord code (A.addr .copy_capture_len_code)).writeWord (code + 8) (2 * n % 2 ^ 64)
  let (code, values) := sc.values.add_code 16
  let values := (values.writeWord code (A.addr .copy_capture_code)).writeWord (code + 8) (2 * n % 2 ^ 64)
  { lengths, values }

/-- `ngx_http_lua_script_done` -/
def done (sc : Compile) : Compile :=
  let (code, lengths) := sc.lengths.add_code 8
  let lengths := lengths.writeWord code 0
  let (code, values) := sc.values.add_code 8
  { lengths, values := values.writeWord code 0 }

/-! ## The scanner -/

/-- What the loop over a name leaves -/
structure Scanned where
  rest : Bytes
  bracket : Bool
  n : Nat
  len : Nat

/-- The loop over the name of a variable; `n` is a machine word. -/
def nameLoop (num_var : Bool) : Bytes → Bool → Nat → Nat → Scanned
  | [], bracket, n, len => ⟨[], bracket, n, len⟩
  | ch :: rest, bracket, n, len =>
    if ch = 125 ∧ bracket then ⟨rest, false, n, len⟩
    else if num_var then
      if isDigit ch then nameLoop num_var rest bracket ((n * 10 + (ch.toNat - 48)) % 2 ^ 64) (len + 1)
      else ⟨ch :: rest, bracket, n, len⟩
    else if isWord ch then nameLoop num_var rest bracket n (len + 1)
    else ⟨ch :: rest, bracket, n, len⟩

/-- A variable, from its name on -/
def variableCode (source : Bytes) (sc : Compile) (num_var bracket : Bool) (name : Bytes) :
    Except CompileError (Compile × Bytes) :=
  let s := nameLoop num_var name bracket 0 0
  if s.bracket then .error (.bracket (name.take s.len))
  else if s.len = 0 then .error (.invalid_variable source)
  else if num_var then .ok (add_capture_code A sc s.n, s.rest)
  else .error (.named (name.take s.len))

/-- One turn of the loop of `ngx_http_lua_script_compile`: what is left of the source after it -/
def turn (source : Bytes) (sc : Compile) : Bytes → Except CompileError (Compile × Bytes)
  | [] => .ok (sc, [])
  | c :: rest =>
    if c = 36 then
      match rest with
      | [] => .error (.invalid_variable source)
      | c :: rest =>
        if c = 36 then .ok (add_copy_code A sc [c], rest)
        else if c = 123 then
          match rest with
          | [] => .error (.invalid_variable source)
          | d :: _ => variableCode A source sc (isDigit d) true rest
        else variableCode A source sc (isDigit c) false (c :: rest)
    else .ok (add_copy_code A sc ((c :: rest).takeWhile (· ≠ 36)), (c :: rest).dropWhile (· ≠ 36))

/-- The loop; each turn takes a byte of the source at least. -/
def turns (source : Bytes) : Nat → Compile → Bytes → Except CompileError Compile
  | 0, sc, _ => .ok sc
  | _ + 1, sc, [] => .ok sc
  | k + 1, sc, rest => do
    let (sc, rest) ← turn A source sc rest
    turns source k sc rest

def script_compile (sc : Compile) (source : Bytes) : Except CompileError Compile :=
  (turns A source source.length sc source).map done

/-- `ngx_http_lua_complex_value_t`; the two arrays, or `NULL` for them -/
structure ComplexValue where
  value : Bytes
  codes : Option Compile

/-- `ngx_http_lua_compile_complex_value`, with what is in the memory of the arrays -/
def compile_complex_value (lengths values : Memory) (v : Bytes) : Except CompileError ComplexValue :=
  let nv := v.count 36
  if nv = 0 then .ok { value := v, codes := none }
  else (script_compile A ⟨⟨lengths, 0⟩, ⟨values, 0⟩⟩ v).map fun sc => { value := v, codes := some sc }

/-! ## The engine -/

/-- `ngx_http_lua_script_engine_t`; `pos` is what has been written. -/
structure Engine where
  ip : Nat
  pos : Bytes
  captures : List Int
  ncaptures : Nat
  captures_data : Bytes

/-- `cap[n]`; `none` is a read outside of the offsets -/
def Engine.cap (e : Engine) (n : Nat) : Option Int := e.captures[n]?

/-- `cap[n + 1] - cap[n]`, as a `size_t` -/
def Engine.capLen (e : Engine) (n : Nat) : Option Nat := do
  return ((← e.cap (n + 1)) - (← e.cap n)) % 2 ^ 64 |>.toNat

/-- The bytes that `ngx_copy(pos, &p[cap[n]], cap[n + 1] - cap[n])` copies; `none` is a read outside of the subject. -/
def Engine.capData (e : Engine) (n : Nat) : Option Bytes := do
  let len ← e.capLen n
  let start ← e.cap n
  if len = 0 then return []
  if 0 ≤ start ∧ start.toNat + len ≤ e.captures_data.length then
    return (e.captures_data.drop start.toNat).take len
  none

/-- `ngx_http_lua_script_copy_len_code` and `ngx_http_lua_script_copy_capture_len_code`, for the
address at the pointer; `none` for any other. -/
def lenCode (lengths : Memory) (e : Engine) : Option (Nat × Engine) :=
  let code := lengths.word e.ip
  if code = A.addr .copy_len_code then some (lengths.word (e.ip + 8), { e with ip := e.ip + 16 })
  else if code = A.addr .copy_capture_len_code then
    let n := lengths.word (e.ip + 8)
    let e := { e with ip := e.ip + 16 }
    if n < e.ncaptures then (e.capLen n).map (·, e) else some (0, e)
  else none

/-- `ngx_http_lua_script_copy_code` and `ngx_http_lua_script_copy_capture_code` -/
def dataCode (values : Memory) (e : Engine) : Option Engine :=
  let code := values.word e.ip
  if code = A.addr .copy_code then
    let len := values.word (e.ip + 8)
    some { e with pos := e.pos ++ values.load (e.ip + 16) len, ip := e.ip + 16 + align len }
  else if code = A.addr .copy_capture_code then
    let n := values.word (e.ip + 8)
    let e := { e with ip := e.ip + 16 }
    if n < e.ncaptures then (e.capData n).map fun data => { e with pos := e.pos ++ data } else some e
  else none

/-- `ngx_http_lua_ffi_init_script_engine` -/
def init_script_engine (subj : Bytes) (captures : List Int) (count : Nat) : Engine where
  ip := 0
  pos := []
  captures
  ncaptures := count * 2
  captures_data := subj

/-- `ngx_http_lua_ffi_script_eval_len`: the length, and where the instruction pointer has been -/
def script_eval_len (steps : Nat) (e : Engine) (lengths : Memory) : Option (Nat × List Nat) := do
  let s ← walk lengths (fun s : Engine × Nat => s.1.ip)
    (fun s => (lenCode A lengths s.1).map fun r => (r.2, (s.2 + r.1) % 2 ^ 64)) steps ({ e with ip := 0 }, 0)
  return (s.1.2, s.2)

/-- `ngx_http_lua_ffi_script_eval_data`: the bytes, and where the instruction pointer has been -/
def script_eval_data (steps : Nat) (e : Engine) (values : Memory) : Option (Bytes × List Nat) := do
  let s ← walk values Engine.ip (dataCode A values) steps { e with ip := 0, pos := [] }
  return (s.1.pos, s.2)

/-- `ngx_http_lua_complex_value`: what is put into the buffer for a match, from `offset` in the subject on;
`none` when the bytes are not as many as there is room for -/
def complex_value (steps : Nat) (subj : Bytes) (offset count : Nat) (cap : List Int) (val : ComplexValue) :
    Option Bytes := do
  let start : Int ← cap[0]?
  let before := (subj.drop offset).take (start - (offset : Int)).toNat
  match val.codes with
  | none => return before ++ val.value
  | some codes =>
    let e := init_script_engine subj cap count
    let (len, _) ← script_eval_len A steps e codes.lengths.elts
    let (p, _) ← script_eval_data A steps e codes.values.elts
    if p.length = len then return before ++ p
    none

end

/-! The programs that a template is compiled to, and what the two loops make of them.

A program holds its instructions one behind the other, with a zero word behind the last.
The two programs of a template hold the same instructions, in two formats. -/

open Lib.Resp (LuaString)

/-- An instruction; the word of a capture is twice its number. -/
inductive Code
  | copy (value : Bytes)
  | capture (k : Nat)

/-- The operands are machine words. -/
def Code.Fits : Code → Prop
  | .copy value => value.length < 2 ^ 64
  | .capture k => k < 2 ^ 63

section

variable (A : Addresses)

def Code.lengthsBytes : Code → Bytes
  | .copy value => toBytes 8 (A.addr .copy_len_code) ++ toBytes 8 value.length
  | .capture k => toBytes 8 (A.addr .copy_capture_len_code) ++ toBytes 8 (2 * k)

def Code.valuesBytes : Code → Bytes
  | .copy value => toBytes 8 (A.addr .copy_code) ++ (toBytes 8 value.length ++ value)
  | .capture k => toBytes 8 (A.addr .copy_capture_code) ++ toBytes 8 (2 * k)

def Code.valuesSize : Code → Nat
  | .copy value => 16 + align value.length
  | .capture _ => 16

theorem le_align (n : Nat) : n ≤ align n := by
  rw [align]
  omega

/-- An instruction of two words is a multiple of the alignment. -/
theorem align_add (n : Nat) : align (16 + n) = 16 + align n := by
  rw [align, align]
  omega

/-- The program for the length -/
def lengthsFormat : Format Code where
  bytes := Code.lengthsBytes A
  size _ := 16
  fits c := by cases c <;> simp [Code.lengthsBytes]

/-- The program for the bytes -/
def valuesFormat : Format Code where
  bytes := Code.valuesBytes A
  size := Code.valuesSize
  fits c := by
    cases c with
    | copy value =>
      have hle := le_align value.length
      simp only [Code.valuesBytes, Code.valuesSize, length_append, length_toBytes]
      omega
    | capture k => simp [Code.valuesBytes, Code.valuesSize]

/-- An array holds instructions and nothing else. -/
structure CodeArray.Holds (F : Format Code) (codes : CodeArray) (cs : List Code) : Prop where
  laid : Laid F codes.elts 0 cs
  nelts : codes.nelts = F.finish 0 cs

/-- An array holds instructions and a zero word behind them. -/
structure CodeArray.Ends (F : Format Code) (codes : CodeArray) (cs : List Code) : Prop where
  laid : Laid F codes.elts 0 cs
  zero : codes.elts.word (F.finish 0 cs) = 0
  nelts : codes.nelts = F.finish 0 cs + 8

structure Compile.Holds (sc : Compile) (cs : List Code) : Prop where
  lengths : sc.lengths.Holds (lengthsFormat A) cs
  values : sc.values.Holds (valuesFormat A) cs

structure Compile.Ends (sc : Compile) (cs : List Code) : Prop where
  lengths : sc.lengths.Ends (lengthsFormat A) cs
  values : sc.values.Ends (valuesFormat A) cs

end

variable {A : Addresses} {F : Format Code} {codes : CodeArray} {sc : Compile} {c : Code} {cs : List Code}
  {mem : Memory} {off n : Nat} {bs : Bytes}

/-! ## Emitting -/

theorem CodeArray.Holds.snoc (h : codes.Holds F cs) (c : Code) :
    CodeArray.Holds F ⟨codes.elts.store codes.nelts (F.bytes c), codes.nelts + F.size c⟩ (cs ++ [c]) where
  laid := by
    rw [h.nelts]
    exact h.laid.snoc c
  nelts := by
    rw [F.finish_append, ← h.nelts]
    rfl

theorem word_toBytes (h : n < 2 ^ 64) (hload : mem.load off 8 = toBytes 8 n) : mem.word off = n := by
  rw [Memory.word, hload, fromBytes_toBytes]
  exact mod_eq_of_lt h

theorem CodeArray.Holds.ends (h : codes.Holds F cs) :
    CodeArray.Ends F ⟨codes.elts.store codes.nelts (toBytes 8 0), codes.nelts + 8⟩ cs where
  laid := h.laid.store h.nelts.ge _
  zero := by
    rw [← h.nelts]
    exact word_toBytes (by decide) (Memory.load_store _ _ _)
  nelts := by rw [h.nelts]

/-- Two words written one behind the other -/
theorem writeWord_two (codes : CodeArray) (off m n : Nat) :
    (codes.writeWord off m).writeWord (off + 8) n = codes.write off (toBytes 8 m ++ toBytes 8 n) := by
  have happend := Memory.store_append codes.elts off (toBytes 8 m) (toBytes 8 n)
  rw [length_toBytes] at happend
  simp only [CodeArray.writeWord, CodeArray.write, happend]

theorem Compile.Holds.copy (h : sc.Holds A cs) (value : Bytes) :
    (add_copy_code A sc value).Holds A (cs ++ [.copy value]) where
  lengths := by
    have hsnoc := h.lengths.snoc (.copy value)
    simp only [add_copy_code, CodeArray.add_code, writeWord_two]
    exact hsnoc
  values := by
    have hsnoc := h.values.snoc (.copy value)
    have happend := Memory.store_append sc.values.elts sc.values.nelts
      (toBytes 8 (A.addr .copy_code) ++ toBytes 8 value.length) value
    rw [length_append, length_toBytes, length_toBytes, append_assoc] at happend
    simp only [add_copy_code, CodeArray.add_code, writeWord_two, CodeArray.write]
    rw [happend, align_add]
    exact hsnoc

theorem Compile.Holds.capture (h : sc.Holds A cs) (n : Nat) :
    (add_capture_code A sc n).Holds A (cs ++ [.capture (n % 2 ^ 63)]) := by
  have hdouble : 2 * n % 2 ^ 64 = 2 * (n % 2 ^ 63) := mul_mod_mul_left 2 n (2 ^ 63)
  refine ⟨?_, ?_⟩
  · have hsnoc := h.lengths.snoc (.capture (n % 2 ^ 63))
    simp only [add_capture_code, CodeArray.add_code, writeWord_two, hdouble]
    exact hsnoc
  · have hsnoc := h.values.snoc (.capture (n % 2 ^ 63))
    simp only [add_capture_code, CodeArray.add_code, writeWord_two, hdouble]
    exact hsnoc

theorem Compile.Holds.done (h : sc.Holds A cs) : (done sc).Ends A cs := ⟨h.lengths.ends, h.values.ends⟩

/-! ## Matches -/

/-- A group that takes no part in the match, or one that is a part of the subject -/
def Offsets (subj : Bytes) (start stop : Int) : Prop :=
  start = -1 ∧ stop = -1 ∨ 0 ≤ start ∧ start ≤ stop ∧ stop ≤ subj.length

/-- What a regex engine returns for a match: the number of groups up to the last that takes part, the
whole match as the first, and their offsets. -/
structure Match (subj : LuaString) where
  rc : Nat
  captures : List Int
  pos : 0 < rc
  lt : rc < 2 ^ 31
  room : 2 * rc ≤ captures.length
  offsets : ∀ k < rc, Offsets subj.1 (captures.getD (2 * k) (-1)) (captures.getD (2 * k + 1) (-1))

variable {subj : LuaString} {m : Match subj} {e : Engine} {k : Nat}

/-- The text of a group, which is empty when the group takes no part -/
def Match.group (m : Match subj) (k : Nat) : Bytes :=
  let start := m.captures.getD (2 * k) (-1)
  let stop := m.captures.getD (2 * k + 1) (-1)
  if k < m.rc ∧ 0 ≤ start then (subj.1.drop start.toNat).take (stop - start).toNat else []

theorem Match.group_of_le (h : m.rc ≤ k) : m.group k = [] := by
  rw [Match.group]
  exact if_neg fun hk => absurd hk.1 (Nat.not_lt.mpr h)

theorem Match.length_group (m : Match subj) (k : Nat) : (m.group k).length < 2 ^ 31 := by
  rw [Match.group]
  split_ifs
  · rw [length_take, length_drop]
    exact Nat.lt_of_le_of_lt ((Nat.min_le_right _ _).trans (sub_le _ _)) subj.2
  · decide

/-- The engine is set up for the match. -/
structure Engine.For (m : Match subj) (e : Engine) : Prop where
  captures : e.captures = m.captures
  ncaptures : e.ncaptures = m.rc * 2
  data : e.captures_data = subj.1

theorem Engine.For.init (m : Match subj) : (init_script_engine subj.1 m.captures m.rc).For m := ⟨rfl, rfl, rfl⟩

theorem Engine.For.cap (h : e.For m) {i : Nat} (hi : i < 2 * m.rc) : e.cap i = some (m.captures.getD i (-1)) := by
  have hlt : i < m.captures.length := Nat.lt_of_lt_of_le hi m.room
  rw [Engine.cap, h.captures, getD_eq_getElem?_getD, getElem?_eq_getElem hlt, Option.getD_some]

/-- The length of a group and its bytes, as the two functions for a capture take them -/
theorem Engine.For.capture (h : e.For m) (hk : k < m.rc) :
    e.capLen (2 * k) = some (m.group k).length ∧ e.capData (2 * k) = some (m.group k) := by
  have hstart := h.cap (i := 2 * k) (by omega)
  have hstop := h.cap (i := 2 * k + 1) (by omega)
  have hsubj : subj.1.length < 2 ^ 31 := subj.2
  have hlen : e.capLen (2 * k) =
      some ((m.captures.getD (2 * k + 1) (-1) - m.captures.getD (2 * k) (-1)) % 2 ^ 64).toNat := by
    rw [Engine.capLen, hstart, hstop]
    rfl
  rw [Engine.capData, hlen, hstart, Match.group, h.data]
  dsimp only [bind, Option.bind]
  rcases m.offsets k hk with ⟨hunset, hunset'⟩ | ⟨hnat, hle, hend⟩
  · rw [hunset, hunset', if_neg (by omega)]
    exact ⟨rfl, rfl⟩
  · generalize m.captures.getD (2 * k) (-1) = start at hnat hle hend ⊢
    generalize m.captures.getD (2 * k + 1) (-1) = stop at hle hend ⊢
    have hmod : ((stop - start) % 2 ^ 64).toNat = (stop - start).toNat := by omega
    rw [hmod, if_pos ⟨hk, hnat⟩]
    refine ⟨?_, ?_⟩
    · rw [length_take, length_drop, Nat.min_eq_left (by omega)]
    · by_cases hempty : (stop - start).toNat = 0
      · rw [if_pos hempty, hempty]
        rfl
      · rw [if_neg hempty, if_pos ⟨hnat, by omega⟩]
        rfl

/-! ## Running -/

/-- What an instruction writes -/
def Code.out (m : Match subj) : Code → Bytes
  | .copy value => value
  | .capture k => m.group k

/-- The two words that an instruction starts with -/
theorem words_of_load {a b : Nat} {bs : Bytes} (ha : a < 2 ^ 64) (hb : b < 2 ^ 64)
    (h : mem.load off (toBytes 8 a ++ (toBytes 8 b ++ bs)).length = toBytes 8 a ++ (toBytes 8 b ++ bs)) :
    mem.word off = a ∧ mem.word (off + 8) = b ∧ mem.load (off + 16) bs.length = bs := by
  obtain ⟨hfirst, hrest⟩ := Memory.load_append h
  obtain ⟨hsecond, hbs⟩ := Memory.load_append hrest
  rw [length_toBytes] at hfirst hsecond hbs
  rw [length_toBytes] at hsecond hbs
  exact ⟨word_toBytes ha hfirst, word_toBytes hb hsecond, hbs⟩

theorem Engine.For.ip (h : e.For m) (ip : Nat) : Engine.For m { e with ip } := ⟨h.captures, h.ncaptures, h.data⟩

theorem Engine.For.lt_iff (h : e.For m) : 2 * k < e.ncaptures ↔ k < m.rc := by
  rw [h.ncaptures]
  omega

theorem lenCode_eq (hc : c.Fits) (h : e.For m) (hload : mem.load e.ip (c.lengthsBytes A).length = c.lengthsBytes A) :
    mem.word e.ip ≠ 0 ∧ lenCode A mem e = some ((c.out m).length, { e with ip := e.ip + 16 }) := by
  cases c with
  | copy value =>
    rw [Code.lengthsBytes, ← append_nil (toBytes 8 value.length)] at hload
    obtain ⟨hcode, hlen, -⟩ := words_of_load (A.lt _) hc hload
    rw [lenCode, hcode, hlen]
    exact ⟨A.pos _, if_pos rfl⟩
  | capture k =>
    have hlt : 2 * k < 2 ^ 64 := by
      have hk : k < 2 ^ 63 := hc
      omega
    have hne : A.addr .copy_capture_len_code ≠ A.addr .copy_len_code := fun heq => by cases A.inj heq
    rw [Code.lengthsBytes, ← append_nil (toBytes 8 (2 * k))] at hload
    obtain ⟨hcode, hn, -⟩ := words_of_load (A.lt _) hlt hload
    refine ⟨by rw [hcode]; exact A.pos _, ?_⟩
    rw [lenCode, hcode, hn]
    dsimp only
    rw [if_neg hne, if_pos rfl]
    by_cases hk : k < m.rc
    · rw [if_pos (h.lt_iff.mpr hk), ((h.ip (e.ip + 16)).capture hk).1]
      rfl
    · rw [if_neg (mt h.lt_iff.mp hk), Code.out, Match.group_of_le (Nat.not_lt.mp hk)]
      rfl

theorem dataCode_eq (hc : c.Fits) (h : e.For m) (hload : mem.load e.ip (c.valuesBytes A).length = c.valuesBytes A) :
    mem.word e.ip ≠ 0 ∧ dataCode A mem e = some { e with pos := e.pos ++ c.out m, ip := e.ip + c.valuesSize } := by
  cases c with
  | copy value =>
    obtain ⟨hcode, hlen, hvalue⟩ := words_of_load (A.lt _) hc hload
    refine ⟨by rw [hcode]; exact A.pos _, ?_⟩
    rw [dataCode, hcode, hlen]
    dsimp only
    rw [if_pos rfl, hvalue, Nat.add_assoc]
    rfl
  | capture k =>
    have hlt : 2 * k < 2 ^ 64 := by
      have hk : k < 2 ^ 63 := hc
      omega
    have hne : A.addr .copy_capture_code ≠ A.addr .copy_code := fun heq => by cases A.inj heq
    rw [Code.valuesBytes, ← append_nil (toBytes 8 (2 * k))] at hload
    obtain ⟨hcode, hn, -⟩ := words_of_load (A.lt _) hlt hload
    refine ⟨by rw [hcode]; exact A.pos _, ?_⟩
    rw [dataCode, hcode, hn]
    dsimp only
    rw [if_neg hne, if_pos rfl]
    by_cases hk : k < m.rc
    · rw [if_pos (h.lt_iff.mpr hk), ((h.ip (e.ip + 16)).capture hk).2]
      rfl
    · rw [if_neg (mt h.lt_iff.mp hk), Code.out, Match.group_of_le (Nat.not_lt.mp hk), append_nil]
      rfl

/-- What an instruction does in the program for the length: the pointer moves on, and its length is added
in a machine word. -/
def afterLen (m : Match subj) (s : Engine × Nat) (c : Code) : Engine × Nat :=
  ({ s.1 with ip := s.1.ip + 16 }, (s.2 + (c.out m).length) % 2 ^ 64)

/-- What it does in the program for the bytes -/
def afterData (m : Match subj) (e : Engine) (c : Code) : Engine :=
  { e with pos := e.pos ++ c.out m, ip := e.ip + c.valuesSize }

theorem foldl_afterLen (cs : List Code) (m : Match subj) (s : Engine × Nat) (hs : s.2 < 2 ^ 64) :
    (cs.foldl (afterLen m) s).2 = (s.2 + (cs.flatMap (Code.out m)).length) % 2 ^ 64 := by
  induction cs generalizing s with
  | nil => exact (mod_eq_of_lt hs).symm
  | cons c cs ih =>
    rw [foldl_cons, ih _ (mod_lt _
      (by decide)), flatMap_cons, length_append, afterLen, mod_add_mod,
      Nat.add_assoc]

theorem foldl_afterData (cs : List Code) (m : Match subj) (e : Engine) :
    (cs.foldl (afterData m) e).pos = e.pos ++ cs.flatMap (Code.out m) := by
  induction cs generalizing e with
  | nil => exact (append_nil e.pos).symm
  | cons c cs ih => rw [foldl_cons, ih, flatMap_cons, afterData, append_assoc]

theorem script_eval_len_eq {steps : Nat} (h : codes.Ends (lengthsFormat A) cs) (hfits : ∀ c ∈ cs, c.Fits)
    (he : e.For m)
    (hsteps : cs.length < steps) :
    script_eval_len A steps e codes.elts =
      some ((cs.flatMap (Code.out m)).length % 2 ^ 64, (lengthsFormat A).offsets 0 cs) := by
  have hwalk := walk_laid (F := lengthsFormat A) (fun s : Engine × Nat => s.1.ip)
    (fun s => (lenCode A codes.elts s.1).map fun r => (r.2, (s.2 + r.1) % 2 ^ 64)) (f := afterLen m)
      (I := fun s => s.1.For m)
    (fun c hc s hs hload => by
      obtain ⟨hword, hstep⟩ := lenCode_eq (hfits c hc) hs hload
      exact ⟨hword, by rw [hstep]; rfl, rfl, hs.ip _⟩)
    (s := ({ e with ip := 0 }, 0)) (he.ip 0) h.laid h.zero hsteps
  have hsum := foldl_afterLen cs m ({ e with ip := 0 }, 0) (show 0 < 2 ^ 64 by decide)
  rw [Nat.zero_add] at hsum
  rw [script_eval_len, hwalk, ← hsum]
  rfl

theorem script_eval_data_eq {steps : Nat} (h : codes.Ends (valuesFormat A) cs) (hfits : ∀ c ∈ cs, c.Fits)
    (he : e.For m)
    (hsteps : cs.length < steps) :
    script_eval_data A steps e codes.elts = some (cs.flatMap (Code.out m), (valuesFormat A).offsets 0 cs) := by
  have hwalk := walk_laid (F := valuesFormat A) Engine.ip (dataCode A codes.elts) (f := afterData m)
    (I := Engine.For m)
    (fun c hc e he hload => by
      obtain ⟨hword, hstep⟩ := dataCode_eq (hfits c hc) he hload
      exact ⟨hword, hstep, rfl, he.captures, he.ncaptures, he.data⟩)
    (s := { e with ip := 0, pos := [] }) ⟨he.captures, he.ncaptures, he.data⟩ h.laid h.zero hsteps
  have hdata := foldl_afterData cs m { e with ip := 0, pos := [] }
  rw [nil_append] at hdata
  rw [script_eval_data, hwalk, ← hdata]
  rfl

end OpenResty.NgxLua.Script
