/-
`js_decode` of the decoding library.

The array that holds the digits of an octal escape is called `input` as well, so that its digits
are taken from the array itself, from where nothing has been written.
-/
import OpenResty.Lib.InPlace
import OpenResty.Waf.HexDecode

namespace OpenResty.Waf

open Lib List Option Nat Function

/-! ## The code -/

/-- `VALID_HEX` -/
def validHex (c : UInt8) : Bool :=
  ('0'.toUInt8 ≤ c && c ≤ '9'.toUInt8) || ('a'.toUInt8 ≤ c && c ≤ 'f'.toUInt8) || ('A'.toUInt8 ≤ c && c ≤ 'F'.toUInt8)

/-- `ISODIGIT` -/
def isODigit (c : UInt8) : Bool := '0'.toUInt8 ≤ c && c ≤ '7'.toUInt8

def xsingle2c (what : UInt8) : UInt8 :=
  if 'A'.toUInt8 ≤ what then (what &&& 0xdf) - 'A'.toUInt8 + 10 else what - '0'.toUInt8

def x2c (what what' : UInt8) : UInt8 := xsingle2c what * 16 + xsingle2c what'

/-- One of the letters `f` and `F`. -/
def isF (c : UInt8) : Bool := c == 'f'.toUInt8 || c == 'F'.toUInt8

/-- `strtol(cs, NULL, 8)` as a byte, for a text too short to be out of range. -/
def strtol8 (cs : Bytes) : UInt8 :=
  let cs := cs.dropWhile isSpace
  let negative := cs.head? = some '-'.toUInt8
  let cs := if negative ∨ cs.head? = some '+'.toUInt8 then cs.tail else cs
  let n := (cs.takeWhile isODigit).foldl (fun n c => n * 8 + (c - '0'.toUInt8)) 0
  if negative then 0 - n else n

/-- The loop over the digits of an octal escape at `i`, in the array `input` that hides the
argument, with `fuel` places left. -/
def octalLoop (input_len i : Nat) : Nat → Nat → Memory → Nat × Memory
  | 0, j, input => (j, input)
  | fuel + 1, j, input =>
    if i + 1 + j < input_len then
      let input := update input j (input (i + 1 + j))
      if isODigit (input (i + 1 + (j + 1))) then octalLoop input_len i fuel (j + 1) input else (j + 1, input)
    else (j, input)

/-- An octal escape, given what the array holds: the number of digits and the byte. -/
def octal (input_len i : Nat) (input : Memory) : Nat × UInt8 :=
  let (j, input) := octalLoop input_len i 3 0 input
  let input := update input j 0
  -- a `char` from 128 on is negative
  let (j, input) :=
    if j = 3 ∧ '3'.toUInt8 < input 0 ∧ input 0 < 128 then (2, update input 2 0) else (j, input)
  (j, strtol8 ((Memory.load input 0 4).takeWhile (· ≠ 0)))

/-- `\a`, `\b`, `\f`, `\n`, `\r`, `\t`, `\v`; of every other escape the backslash is removed. -/
def singleEscape (c : UInt8) : UInt8 :=
  if c = 'a'.toUInt8 then 7
  else if c = 'b'.toUInt8 then 8
  else if c = 'f'.toUInt8 then 12
  else if c = 'n'.toUInt8 then 10
  else if c = 'r'.toUInt8 then 13
  else if c = 't'.toUInt8 then 9
  else if c = 'v'.toUInt8 then 11
  else c

/-- Not enough bytes: the rest is copied. -/
def copyRest : Nat → Pass → Option Pass
  | 0, s => some s
  | fuel + 1, s =>
    if s.i < s.buf.length then do copyRest fuel ((s.set (← s.read s.i)).move 1 1) else some s

/-- A turn of the loop. The array of an octal escape at `i` holds `frame i` before it is written. -/
def jsStep (frame : Nat → Memory) (s : Pass) : Option Pass := do
  if (← s.read s.i) = '\\'.toUInt8 then
    if ← s.ahead 5 [(1, (· == 'u'.toUInt8)), (2, validHex), (3, validHex), (4, validHex), (5, validHex)] then
      -- use only the lower byte
      let s := s.set (x2c (← s.read (s.i + 4)) (← s.read (s.i + 5)))
      let c ← s.read s.d
      let wide ← if 0 < c ∧ c < 0x5f then s.tests [(2, isF), (3, isF)] else some false
      return (if wide then s.set (c + 0x20) else s).move 1 6
    else if ← s.ahead 3 [(1, (· == 'x'.toUInt8)), (2, validHex), (3, validHex)] then
      return (s.set (x2c (← s.read (s.i + 2)) (← s.read (s.i + 3)))).move 1 4
    else if ← s.ahead 1 [(1, isODigit)] then
      let (j, c) := octal s.buf.length s.i (frame s.i)
      return if 0 < j then (s.set c).move 1 (1 + j) else s
    else if s.i + 1 < s.buf.length then
      return (s.set (singleEscape (← s.read (s.i + 1)))).move 1 2
    else copyRest s.buf.length s
  else return (s.set (← s.read s.i)).move 1 1

/-- The bytes that are returned. The NUL written behind them is left out. -/
def jsDecode (frame : Nat → Memory) (input : Bytes) : Option Bytes :=
  (Pass.loop (jsStep frame) input.length ⟨input, 0, 0⟩).map Pass.out

/-! ## The reference -/

/-- The byte of two digits. -/
def hexPair (a b : UInt8) : UInt8 := UInt8.ofNat ((hexValue a).getD 0 * 16 + (hexValue b).getD 0)

/-- Full width ASCII (ff01 - ff5e) needs 0x20 added. -/
def fullWidth (a b low : UInt8) : UInt8 :=
  if (0 < low ∧ low < 0x5f) ∧ isF a = true ∧ isF b = true then low + 0x20 else low

def uEscape : Bytes → Option UInt8
  | u :: a :: b :: c :: d :: _ =>
    if u = 'u'.toUInt8 ∧ (hexValue a).isSome ∧ (hexValue b).isSome ∧ (hexValue c).isSome ∧ (hexValue d).isSome then
      some (fullWidth a b (hexPair c d))
    else none
  | _ => none

def xEscape : Bytes → Option UInt8
  | x :: a :: b :: _ =>
    if x = 'x'.toUInt8 ∧ (hexValue a).isSome ∧ (hexValue b).isSome then some (hexPair a b) else none
  | _ => none

/-- The digits of an octal escape: up to three, with a value of at most 0377. -/
def octalDigits (cs : Bytes) : Bytes :=
  let ds := (cs.takeWhile isODigit).take 3
  if ds.length = 3 ∧ '3'.toUInt8 < ds.headD 0 then ds.take 2 else ds

def octalEscape (cs : Bytes) : Nat × UInt8 :=
  ((octalDigits cs).length, (octalDigits cs).foldl (fun n c => n * 8 + (c - '0'.toUInt8)) 0)

/-- What a piece of the text stands for, given what octal escapes stand for. -/
def jsPiece (octal : Nat → Bytes → Nat × UInt8) : Piece
  | _, [] => ([], 0)
  | i, c :: cs =>
    if c = '\\'.toUInt8 then
      match uEscape cs with
      | some b => ([b], 6)
      | none =>
        match xEscape cs with
        | some b => ([b], 4)
        | none =>
          match cs with
          | [] => ([c], 1)
          | e :: _ => if isODigit e then ([(octal i cs).2], 1 + (octal i cs).1) else ([singleEscape e], 2)
    else ([c], 1)

/-- From left to right each escape is replaced by its byte, and everything else is copied. -/
def jsReference (input : Bytes) : Bytes := rewrite (jsPiece fun _ => octalEscape) input.length 0 input

/-! `js_decode` agrees with its reference as long as there is no octal escape. -/

/-! ## Bytes -/

theorem validHex_eq (c : UInt8) : validHex c = (hexValue c).isSome :=
  forall_byte (p := fun c => validHex c = (hexValue c).isSome) (by decide +kernel) c

theorem xsingle2c_eq (c : UInt8) : (hexValue c).isSome → xsingle2c c = UInt8.ofNat ((hexValue c).getD 0) :=
  forall_byte (p := fun c => (hexValue c).isSome → xsingle2c c = UInt8.ofNat ((hexValue c).getD 0))
    (by decide +kernel) c

theorem x2c_eq {a b : UInt8} (ha : (hexValue a).isSome) (hb : (hexValue b).isSome) : x2c a b = hexPair a b := by
  rw [x2c, xsingle2c_eq a ha, xsingle2c_eq b hb, hexPair, UInt8.ofNat_add, UInt8.ofNat_mul]
  rfl

/-! ## Octal escapes -/

/-- The digits lie in the text, and there are no more than places left. -/
theorem octalLoop_bounds (input_len i fuel j : Nat) (input : Memory) :
    (octalLoop input_len i fuel j input).1 ≤ j + fuel ∧ j ≤ (octalLoop input_len i fuel j input).1 ∧
      (i + 1 + j ≤ input_len → i + 1 + (octalLoop input_len i fuel j input).1 ≤ input_len) ∧
      (0 < fuel → i + 1 + j < input_len → j < (octalLoop input_len i fuel j input).1) := by
  fun_induction octalLoop input_len i fuel j input with
  | case1 j input => exact ⟨by omega, by omega, fun h => h, fun h => absurd h (by omega)⟩
  | case2 j input fuel hlt input' hdigit ih => exact ⟨by omega, by omega, fun _ => by omega, fun _ _ => by omega⟩
  | case3 j input fuel hlt input' hdigit => exact ⟨by omega, by omega, fun _ => by omega, fun _ _ => by omega⟩
  | case4 j input fuel hlt => exact ⟨by omega, by omega, fun h => h, fun _ h => absurd h hlt⟩

/-- An octal escape takes one to three bytes of those that follow. -/
theorem octal_bounds {input_len i : Nat} (input : Memory) (h : i + 1 < input_len) :
    0 < (octal input_len i input).1 ∧ (octal input_len i input).1 ≤ 3 ∧
      i + 1 + (octal input_len i input).1 ≤ input_len := by
  obtain ⟨hle, -, hlen, hpos⟩ := octalLoop_bounds input_len i 3 0 input
  have hpos' := hpos (by omega) (by omega)
  have hlen' := hlen (by omega)
  unfold octal
  dsimp only
  split
  · next hthree =>
    refine ⟨Nat.two_pos, le_succ 2, ?_⟩
    change i + 1 + 2 ≤ input_len
    have hj := hthree.1
    omega
  · exact ⟨hpos', by omega, hlen'⟩

/-! ## What is read ahead -/

section

variable {s : Pass} {c : UInt8} {cs : Bytes}

theorem read_behind (hrest : s.rest = c :: cs) (k : Nat) : s.read (s.i + (k + 1)) = cs[k]? := by
  rw [Pass.read_rest, hrest, getElem?_cons_succ]

theorem read_first (hrest : s.rest = c :: cs) : s.read s.i = some c := by
  have hread := s.read_rest 0
  rwa [hrest] at hread

theorem length_behind (hrest : s.rest = c :: cs) : s.buf.length = s.i + 1 + cs.length := by
  have hlen := s.length_rest
  rw [hrest, length_cons] at hlen
  omega

theorem ahead_u (hrest : s.rest = c :: cs) :
    s.ahead 5 [(1, (· == 'u'.toUInt8)), (2, validHex), (3, validHex), (4, validHex), (5, validHex)] =
      some (uEscape cs).isSome := by
  have hlen := length_behind hrest
  have hread := read_behind hrest
  unfold Pass.ahead
  rcases cs with _ | ⟨u, _ | ⟨a, _ | ⟨b, _ | ⟨x, _ | ⟨y, r⟩⟩⟩⟩⟩
  case cons.cons.cons.cons.cons =>
    have h1 : s.read (s.i + 1) = some u := hread 0
    have h2 : s.read (s.i + 2) = some a := hread 1
    have h3 : s.read (s.i + 3) = some b := hread 2
    have h4 : s.read (s.i + 4) = some x := hread 3
    have h5 : s.read (s.i + 5) = some y := hread 4
    rw [if_pos (by simp only [length_cons] at hlen; omega)]
    simp only [Pass.tests, h1, h2, h3, h4, h5, uEscape, validHex_eq, bind, Option.bind]
    simp only [beq_iff_eq]
    split_ifs <;> simp_all
  all_goals
    rw [if_neg (by simp only [length_cons, length_nil] at hlen; omega)]
    rfl

theorem ahead_x (hrest : s.rest = c :: cs) :
    s.ahead 3 [(1, (· == 'x'.toUInt8)), (2, validHex), (3, validHex)] = some (xEscape cs).isSome := by
  have hlen := length_behind hrest
  have hread := read_behind hrest
  unfold Pass.ahead
  rcases cs with _ | ⟨x, _ | ⟨a, _ | ⟨b, r⟩⟩⟩
  case cons.cons.cons =>
    have h1 : s.read (s.i + 1) = some x := hread 0
    have h2 : s.read (s.i + 2) = some a := hread 1
    have h3 : s.read (s.i + 3) = some b := hread 2
    rw [if_pos (by simp only [length_cons] at hlen; omega)]
    simp only [Pass.tests, h1, h2, h3, xEscape, validHex_eq, bind, Option.bind, beq_iff_eq]
    split_ifs <;> simp_all
  all_goals
    rw [if_neg (by simp only [length_cons, length_nil] at hlen; omega)]
    rfl

theorem ahead_digit (hrest : s.rest = c :: cs) :
    s.ahead 1 [(1, isODigit)] = some ((cs.head?.map isODigit).getD false) := by
  have hlen := length_behind hrest
  have hread := read_behind hrest
  unfold Pass.ahead
  cases cs with
  | nil =>
    rw [if_neg (by simp only [length_nil] at hlen; omega)]
    rfl
  | cons e cs =>
    have h1 : s.read (s.i + 1) = some e := hread 0
    rw [if_pos (by simp only [length_cons] at hlen; omega)]
    simp only [Pass.tests, h1, bind, Option.bind]
    cases h : isODigit e <;> simp [h]

variable {b e : UInt8}

/-- An escape of six bytes. -/
theorem step_u (frame : Nat → Memory) (hbehind : s.d ≤ s.i) (hrest : s.rest = '\\'.toUInt8 :: cs)
    (hu : uEscape cs = some b) : ∃ s', jsStep frame s = some s' ∧ Writes s s' ([b], 6) := by
  have hlen := length_behind hrest
  have hread := read_behind hrest
  have hahead := ahead_u hrest
  have h0 := read_first hrest
  rcases cs with _ | ⟨u, _ | ⟨a₁, _ | ⟨a₂, _ | ⟨a₃, _ | ⟨a₄, r⟩⟩⟩⟩⟩
  case cons.cons.cons.cons.cons =>
    have h2 : s.read (s.i + 2) = some a₁ := hread 1
    have h3 : s.read (s.i + 3) = some a₂ := hread 2
    have h4 : s.read (s.i + 4) = some a₃ := hread 3
    have h5 : s.read (s.i + 5) = some a₄ := hread 4
    have hd : s.d < s.buf.length := by omega
    rw [hu] at hahead
    simp only [uEscape, ite_none_right_eq_some, some.injEq] at hu
    obtain ⟨⟨-, -, -, hx, hy⟩, rfl⟩ := hu
    have hwide : ∀ v, (s.set v).tests [(2, isF), (3, isF)] = some (isF a₁ && isF a₂) := by
      intro v
      rw [Pass.tests_set hbehind (by simp)]
      simp only [Pass.tests, h2, h3, bind, Option.bind]
      cases isF a₁ <;> cases isF a₂ <;> rfl
    refine ⟨(s.set (fullWidth a₁ a₂ (hexPair a₃ a₄))).move 1 6, ?_, Pass.writes_byte hbehind (by omega) (by omega)⟩
    simp only [jsStep, h0, hahead, h4, h5, x2c_eq hx hy, bind, Option.bind, isSome_some, if_true, Pass.set_d,
      Pass.read_set_self hd, hwide, pure]
    unfold fullWidth
    split
    · next hlow =>
      simp only [hlow, true_and]
      cases isF a₁ <;> cases isF a₂ <;> simp
    · next hlow => simp [hlow]
  all_goals cases hu

/-- An escape of four bytes. -/
theorem step_x (frame : Nat → Memory) (hbehind : s.d ≤ s.i) (hrest : s.rest = '\\'.toUInt8 :: cs)
    (hu : uEscape cs = none) (hx : xEscape cs = some b) : ∃ s', jsStep frame s = some s' ∧ Writes s s' ([b], 4) := by
  have hlen := length_behind hrest
  have hread := read_behind hrest
  have hahead := ahead_u hrest
  have hahead' := ahead_x hrest
  have h0 := read_first hrest
  rcases cs with _ | ⟨x, _ | ⟨a₁, _ | ⟨a₂, r⟩⟩⟩
  case cons.cons.cons =>
    have h2 : s.read (s.i + 2) = some a₁ := hread 1
    have h3 : s.read (s.i + 3) = some a₂ := hread 2
    rw [hu] at hahead
    rw [hx] at hahead'
    simp only [xEscape, ite_none_right_eq_some, some.injEq] at hx
    obtain ⟨⟨-, ha, hb⟩, rfl⟩ := hx
    refine ⟨(s.set (hexPair a₁ a₂)).move 1 4, ?_, Pass.writes_byte hbehind (by omega) (by omega)⟩
    simp only [jsStep, h0, hahead, hahead', h2, h3, x2c_eq ha hb, bind, Option.bind, isSome_some,
      isSome_none, Bool.false_eq_true, if_true, if_false, pure]
  all_goals cases hx

/-- An octal escape, whatever it stands for. -/
theorem step_octal (frame : Nat → Memory) (hbehind : s.d ≤ s.i) (hrest : s.rest = '\\'.toUInt8 :: e :: cs)
    (hu : uEscape (e :: cs) = none) (hx : xEscape (e :: cs) = none) (he : isODigit e = true) :
    ∃ s', jsStep frame s = some s' ∧ Writes s s' ([(octal (s.i + 1 + (e :: cs).length) s.i (frame s.i)).2],
      1 + (octal (s.i + 1 + (e :: cs).length) s.i (frame s.i)).1) := by
  have hlen := length_behind hrest
  have hahead := ahead_u hrest
  have hahead' := ahead_x hrest
  have hdigit := ahead_digit hrest
  have h0 := read_first hrest
  rw [hu] at hahead
  rw [hx] at hahead'
  simp only [head?_cons, map_some, getD_some, he] at hdigit
  have hpos : 0 < (octal s.buf.length s.i (frame s.i)).1 :=
    (octal_bounds (frame s.i) (by rw [length_cons] at hlen; omega)).1
  rw [← hlen]
  refine ⟨(s.set (octal s.buf.length s.i (frame s.i)).2).move 1 (1 + (octal s.buf.length s.i (frame s.i)).1), ?_,
    Pass.writes_byte hbehind (by omega) (by omega)⟩
  simp only [jsStep, h0, hahead, hahead', hdigit, bind, Option.bind, isSome_none, Bool.false_eq_true, if_true,
    if_false, pure, hpos]

/-- An escape of two bytes. -/
theorem step_single (frame : Nat → Memory) (hbehind : s.d ≤ s.i)
    (hrest : s.rest = '\\'.toUInt8 :: e :: cs)
    (hu : uEscape (e :: cs) = none) (hx : xEscape (e :: cs) = none) (he : isODigit e = false) :
    ∃ s', jsStep frame s = some s' ∧ Writes s s' ([singleEscape e], 2) := by
  have hlen := length_behind hrest
  have hahead := ahead_u hrest
  have hahead' := ahead_x hrest
  have hdigit := ahead_digit hrest
  have h0 := read_first hrest
  have h1 : s.read (s.i + 1) = some e := read_behind hrest 0
  rw [hu] at hahead
  rw [hx] at hahead'
  simp only [head?_cons, map_some, getD_some, he] at hdigit
  have hlt : s.i + 1 < s.buf.length := by
    rw [length_cons] at hlen
    omega
  refine ⟨(s.set (singleEscape e)).move 1 2, ?_, Pass.writes_byte hbehind (by omega) (by omega)⟩
  simp only [jsStep, h0, h1, hahead, hahead', hdigit, bind, Option.bind, isSome_none,
    Bool.false_eq_true, if_true,
    if_false, pure, hlt]

theorem copyRest_end (fuel : Nat) (h : ¬ s.i < s.buf.length) : copyRest fuel s = some s := by
  cases fuel with
  | zero => rfl
  | succ fuel => rw [copyRest, if_neg h]

/-- A backslash with nothing behind it. -/
theorem step_last (frame : Nat → Memory) (hbehind : s.d ≤ s.i) (hrest : s.rest = ['\\'.toUInt8]) :
    ∃ s', jsStep frame s = some s' ∧ Writes s s' (['\\'.toUInt8], 1) := by
  have hlen := length_behind hrest
  have hahead := ahead_u hrest
  have hahead' := ahead_x hrest
  have hdigit := ahead_digit hrest
  have h0 := read_first hrest
  rw [length_nil] at hlen
  have hnot : ¬ s.i + 1 < s.buf.length := by omega
  refine ⟨(s.set '\\'.toUInt8).move 1 1, ?_, Pass.writes_byte hbehind (by omega) (by omega)⟩
  have hcopy : copyRest s.buf.length s = some ((s.set '\\'.toUInt8).move 1 1) := by
    rw [hlen, Nat.add_zero, copyRest, if_pos (by omega), h0]
    exact copyRest_end _ (by simp only [Pass.move, Pass.length_set, Pass.set_i]; omega)
  simp only [jsStep, h0, hahead, hahead', hdigit, uEscape, xEscape, head?_nil, map_none, getD_none,
    bind, Option.bind, isSome_none, Bool.false_eq_true, if_true, if_false, hnot, hcopy]

/-- A byte that is copied. -/
theorem step_plain (frame : Nat → Memory) (hbehind : s.d ≤ s.i) (hrest : s.rest = c :: cs) (hc : c ≠ '\\'.toUInt8) :
    ∃ s', jsStep frame s = some s' ∧ Writes s s' ([c], 1) := by
  have hlen := length_behind hrest
  have h0 := read_first hrest
  refine ⟨(s.set c).move 1 1, ?_, Pass.writes_byte hbehind (by omega) (by omega)⟩
  simp only [jsStep, h0, bind, Option.bind, hc, if_false, pure]

/-- What the code makes of an octal escape, given what its array holds. -/
def octalFrom (frame : Nat → Memory) : Nat → Bytes → Nat × UInt8 := fun i cs => octal (i + 1 + cs.length) i (frame i)

theorem stepsBy_js (frame : Nat → Memory) : StepsBy (jsStep frame) (jsPiece (octalFrom frame)) := by
  intro s hbehind hi
  obtain ⟨c, cs, hrest⟩ := Pass.rest_cons hi
  rw [hrest]
  unfold jsPiece
  dsimp only
  by_cases hc : c = '\\'.toUInt8
  · rw [if_pos hc]
    rw [hc] at hrest
    cases hu : uEscape cs with
    | some b => exact step_u frame hbehind hrest hu
    | none =>
      cases hx : xEscape cs with
      | some b => exact step_x frame hbehind hrest hu hx
      | none =>
        cases cs with
        | nil =>
          rw [hc]
          exact step_last frame hbehind hrest
        | cons e cs =>
          dsimp only
          cases he : isODigit e with
          | true => exact step_octal frame hbehind hrest hu hx he
          | false => exact step_single frame hbehind hrest hu hx he
  · rw [if_neg hc]
    exact step_plain frame hbehind hrest hc

/-- Octal escapes take one byte at least, and what is there at most. -/
def OctalFits (octal : Nat → Bytes → Nat × UInt8) : Prop :=
  ∀ i e cs, isODigit e = true → 0 < (octal i (e :: cs)).1 ∧ (octal i (e :: cs)).1 ≤ (e :: cs).length

theorem shrinking_js {octal : Nat → Bytes → Nat × UInt8} (hfits : OctalFits octal) : Shrinking (jsPiece octal) := by
  intro i c cs
  unfold jsPiece
  dsimp only
  by_cases hc : c = '\\'.toUInt8
  · rw [if_pos hc]
    cases hu : uEscape cs with
    | some b =>
      have hlength : 5 ≤ cs.length := by
        rcases cs with _ | ⟨u, _ | ⟨a₁, _ | ⟨a₂, _ | ⟨a₃, _ | ⟨a₄, r⟩⟩⟩⟩⟩
        case cons.cons.cons.cons.cons => exact Nat.le_add_left _ _
        all_goals cases hu
      exact ⟨succ_pos 5, succ_le_succ hlength, Nat.le_add_left 1 5⟩
    | none =>
      cases hx : xEscape cs with
      | some b =>
        have hlength : 3 ≤ cs.length := by
          rcases cs with _ | ⟨x, _ | ⟨a₁, _ | ⟨a₂, r⟩⟩⟩
          case cons.cons.cons => exact Nat.le_add_left _ _
          all_goals cases hx
        exact ⟨succ_pos 3, succ_le_succ hlength, Nat.le_add_left 1 3⟩
      | none =>
        cases cs with
        | nil => exact ⟨Nat.one_pos, Nat.le_refl _, Nat.le_refl _⟩
        | cons e cs =>
          dsimp only
          cases he : isODigit e with
          | true =>
            obtain ⟨hpos, hle⟩ := hfits i e cs he
            simp only [if_true, length_cons, length_nil] at hle ⊢
            omega
          | false =>
            simp only [Bool.false_eq_true, if_false, length_cons, length_nil]
            omega
  · rw [if_neg hc]
    exact ⟨Nat.one_pos, succ_le_succ (Nat.zero_le _), Nat.le_refl _⟩

theorem fits_octalFrom (frame : Nat → Memory) : OctalFits (octalFrom frame) := by
  intro i e cs _
  have hlt : i + 1 < i + 1 + (e :: cs).length := by
    rw [length_cons]
    omega
  obtain ⟨hpos, -, hlen⟩ := octal_bounds (frame i) hlt
  unfold octalFrom
  exact ⟨hpos, by omega⟩

end

/-- In place the bytes are those that the pieces stand for. -/
theorem jsDecode_eq (frame : Nat → Memory) (input : Bytes) :
    jsDecode frame input = some (rewrite (jsPiece (octalFrom frame)) input.length 0 input) := by
  obtain ⟨s', hloop, hout, -⟩ := Pass.loop_eq (stepsBy_js frame) (shrinking_js (fits_octalFrom frame)) input.length
    (s := ⟨input, 0, 0⟩) (Nat.le_refl _) (Nat.zero_le _) (by simp [Pass.rest])
  unfold jsDecode
  rw [hloop, map_some, hout]
  simp [Pass.out, Pass.rest]

/-- The write position never passes the read position. -/
theorem jsDecode_behind (frame : Nat → Memory) (input : Bytes) {s : Pass}
    (h : Pass.Reaches (jsStep frame) ⟨input, 0, 0⟩ s) : s.d ≤ s.i ∧ s.i ≤ input.length := by
  obtain ⟨hbehind, hle, hlength⟩ := h.behind (stepsBy_js frame) (shrinking_js (fits_octalFrom frame)) (Nat.le_refl _)
    (Nat.zero_le _)
  exact ⟨hbehind, by rwa [hlength] at hle⟩

/-! ## The condition -/

/-- The next piece is an octal escape. -/
def OctalAhead : Bytes → Prop
  | b :: e :: _ => b = '\\'.toUInt8 ∧ isODigit e = true
  | _ => False

/-- No piece of the text, read from left to right, is an octal escape. -/
def noOctal : Nat → Bytes → Prop
  | 0, _ => True
  | _ + 1, [] => True
  | fuel + 1, c :: cs =>
    ¬ OctalAhead (c :: cs) ∧ noOctal fuel ((c :: cs).drop (jsPiece (fun _ => octalEscape) 0 (c :: cs)).2)

theorem uEscape_digit {e : UInt8} (cs : Bytes) (he : isODigit e = true) : uEscape (e :: cs) = none := by
  have hne : e ≠ 'u'.toUInt8 := by
    rintro rfl
    exact absurd he (by decide)
  rcases cs with _ | ⟨a₁, _ | ⟨a₂, _ | ⟨a₃, _ | ⟨a₄, r⟩⟩⟩⟩
  case cons.cons.cons.cons => exact if_neg fun h => hne h.1
  all_goals rfl

theorem xEscape_digit {e : UInt8} (cs : Bytes) (he : isODigit e = true) : xEscape (e :: cs) = none := by
  have hne : e ≠ 'x'.toUInt8 := by
    rintro rfl
    exact absurd he (by decide)
  rcases cs with _ | ⟨a₁, _ | ⟨a₂, r⟩⟩
  case cons.cons => exact if_neg fun h => hne h.1
  all_goals rfl

/-- Only octal escapes depend on what is made of them. -/
theorem jsPiece_congr (octal octal' : Nat → Bytes → Nat × UInt8) (i i' : Nat) {cs : Bytes} (h : ¬ OctalAhead cs) :
    jsPiece octal i cs = jsPiece octal' i' cs := by
  unfold jsPiece
  rcases cs with _ | ⟨c, _ | ⟨e, cs⟩⟩
  · rfl
  · rfl
  · dsimp only
    by_cases hc : c = '\\'.toUInt8
    · have he : ¬ isODigit e = true := fun he => h ⟨hc, he⟩
      simp only [he]
      rfl
    · rw [if_neg hc, if_neg hc]

theorem jsPiece_octal (octal : Nat → Bytes → Nat × UInt8) (i : Nat) {e : UInt8} (cs : Bytes)
    (he : isODigit e = true) :
    jsPiece octal i ('\\'.toUInt8 :: e :: cs) = ([(octal i (e :: cs)).2], 1 + (octal i (e :: cs)).1) := by
  simp only [jsPiece, uEscape_digit cs he, xEscape_digit cs he, he, if_true]

/-- Without octal escapes it does not matter what they would stand for. -/
theorem rewrite_noOctal (octal : Nat → Bytes → Nat × UInt8) (fuel i i' : Nat) {input : Bytes}
    (h : noOctal fuel input) :
    rewrite (jsPiece octal) fuel i input = rewrite (jsPiece fun _ => octalEscape) fuel i' input := by
  induction fuel generalizing i i' input with
  | zero => rfl
  | succ fuel ih =>
    cases input with
    | nil => rfl
    | cons c cs =>
      have hsame := jsPiece_congr octal (fun _ => octalEscape) i i' h.1
      have hsame' := jsPiece_congr (fun _ => octalEscape) (fun _ => octalEscape) 0 i' h.1
      have hrest := h.2
      rw [hsame'] at hrest
      rw [rewrite, rewrite, hsame, ih _ _ hrest]

/-- An array in which an octal escape finds one digit, `0` or `1`. -/
def oneDigit (digit : UInt8) : Nat → Memory := fun i k => if k = i + 1 then digit else 0

theorem strtol8_digit (c : UInt8) : isODigit c = true → c ≠ 0 ∧ strtol8 [c] = c - '0'.toUInt8 :=
  forall_byte (p := fun c => isODigit c = true → c ≠ 0 ∧ strtol8 [c] = c - '0'.toUInt8) (by decide +kernel) c

theorem octal_oneDigit {input_len i : Nat} {digit : UInt8} (hlt : i + 1 < input_len)
    (hdigit : isODigit digit = true) :
    octal input_len i (oneDigit digit i) = (1, digit - '0'.toUInt8) := by
  obtain ⟨hnul, hvalue⟩ := strtol8_digit digit hdigit
  have hend : isODigit 0 = false := rfl
  have hloop : octalLoop input_len i 3 0 (oneDigit digit i) = (1, update (oneDigit digit i) 0 digit) := by
    rw [octalLoop, if_pos hlt]
    simp [oneDigit, update_of_ne, hend]
  unfold octal
  rw [hloop]
  simp [Memory.load, hnul, hvalue]

/-- An octal escape that is reached stands for another byte than it should, if that is what its
array holds. -/
theorem rewrite_octal (fuel : Nat) {input : Bytes} (h : ¬ noOctal fuel input) :
    ∃ digit, ∀ i i', rewrite (jsPiece (octalFrom (oneDigit digit))) fuel i input ≠
      rewrite (jsPiece fun _ => octalEscape) fuel i' input := by
  induction fuel generalizing input with
  | zero => exact absurd trivial h
  | succ fuel ih =>
    cases input with
    | nil => exact absurd trivial h
    | cons c cs =>
      by_cases hahead : OctalAhead (c :: cs)
      · cases cs with
        | nil => exact hahead.elim
        | cons e cs =>
          obtain ⟨rfl, he⟩ := hahead
          obtain ⟨digit, hdigit, hne⟩ : ∃ digit, isODigit digit = true ∧
              digit - '0'.toUInt8 ≠ (octalEscape (e :: cs)).2 := by
            by_cases hzero : (octalEscape (e :: cs)).2 = 0
            · exact ⟨'1'.toUInt8, rfl, by rw [hzero]; decide⟩
            · exact ⟨'0'.toUInt8, rfl, fun heq => hzero heq.symm⟩
          refine ⟨digit, fun i i' heq => hne ?_⟩
          have hlt : i + 1 < i + 1 + (e :: cs).length := by
            rw [length_cons]
            omega
          have hbyte : (octalFrom (oneDigit digit) i (e :: cs)).2 = digit - '0'.toUInt8 := by
            unfold octalFrom
            rw [octal_oneDigit hlt hdigit]
          rw [rewrite, rewrite, jsPiece_octal _ _ cs he, jsPiece_octal _ _ cs he, hbyte] at heq
          exact (List.cons.inj heq).1
      · obtain ⟨digit, hne⟩ := ih fun hrest => h ⟨hahead, hrest⟩
        refine ⟨digit, fun i i' heq => ?_⟩
        have hsame := jsPiece_congr (octalFrom (oneDigit digit)) (fun _ => octalEscape) i 0 hahead
        have hsame' := jsPiece_congr (fun _ => octalEscape) (fun _ => octalEscape) i' 0 hahead
        rw [rewrite, rewrite, hsame, hsame'] at heq
        exact hne _ _ (append_cancel_left heq)

/-! ## The law -/

/-- Whatever lies where nothing has been written, what is returned is the text with its escapes
replaced, and the write position is never ahead. -/
structure JsRight (input : Bytes) : Prop where
  reference : ∀ frame, jsDecode frame input = some (jsReference input)
  input_only : ∀ frame frame', jsDecode frame input = jsDecode frame' input
  behind : ∀ frame s, Pass.Reaches (jsStep frame) ⟨input, 0, 0⟩ s → s.d ≤ s.i

/-- **A text is decoded as the reference says exactly if it has no octal escape.** -/
theorem js_right_iff (input : Bytes) : JsRight input ↔ noOctal input.length input := by
  constructor
  · intro h
    by_contra hnot
    obtain ⟨digit, hne⟩ := rewrite_octal input.length hnot
    have href := h.reference (oneDigit digit)
    rw [jsDecode_eq] at href
    exact hne 0 0 (some.inj href)
  · intro h
    have href : ∀ frame, jsDecode frame input = some (jsReference input) := by
      intro frame
      rw [jsDecode_eq, rewrite_noOctal _ _ 0 0 h]
      rfl
    exact ⟨href, fun frame frame' => (href frame).trans (href frame').symm,
      fun frame s hs => (jsDecode_behind frame input hs).1⟩

/-- The escape of the letter A, with an array of zeros. -/
theorem js_not_right : ¬ ∀ input, JsRight input := by
  intro h
  have href := (h ("\\101".toList.map Char.toUInt8)).reference fun _ _ => 0
  exact absurd href (by decide +kernel)

end OpenResty.Waf
