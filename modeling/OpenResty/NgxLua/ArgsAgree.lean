/-
The loops over a query string against the pairs it says, and when the two
implementations of `ngx.req.get_uri_args` agree.
-/
import Mathlib.Data.List.TakeDrop
import OpenResty.NgxLua.Args

namespace OpenResty.NgxLua

open Lib List

/-! ## Scanning one piece -/

namespace Scan

/-- What a character without `&` does to the scan. -/
def step (s : Scan) (ch : UInt8) : Scan :=
  if ch = '='.toUInt8 ∧ s.key = none then { key := some s.unescaped, text := [] } else
    { s with text := s.text ++ [ch] }

/-- The scan of the piece so far. -/
def of (pre : Bytes) : Scan := pre.foldl step start

@[simp] theorem of_nil : of [] = start := rfl

theorem of_concat (pre : Bytes) (ch : UInt8) : of (pre ++ [ch]) = (of pre).step ch := by
  rw [of, foldl_append]
  rfl

theorem foldl_value (key text pre : Bytes) :
    pre.foldl step { key := some key, text } = { key := some key, text := text ++ pre } := by
  induction pre generalizing text with
  | nil => simp
  | cons ch pre ih => simp [step, ih]

theorem plain_key {text : Bytes} (h : '='.toUInt8 ∉ text) : ∀ c ∈ text, (c != '='.toUInt8) = true := by
  intro c hc
  rw [bne_iff_ne]
  rintro rfl
  exact h hc

theorem takeWhile_key {text : Bytes} (h : '='.toUInt8 ∉ text) (rest : Bytes) :
    (text ++ '='.toUInt8 :: rest).takeWhile (· != '='.toUInt8) = text := by
  rw [takeWhile_append_of_pos (plain_key h)]
  simp

theorem pair_foldl {text : Bytes} (h : '='.toUInt8 ∉ text) (pre : Bytes) :
    (pre.foldl step { key := none, text }).pair = pairOf (text ++ pre) := by
  induction pre generalizing text with
  | nil =>
    have hkey := @takeWhile_append_of_pos _ _ text [] (plain_key h)
    rw [takeWhile_nil, append_nil] at hkey
    simp only [foldl_nil, append_nil, pairOf, hkey, drop_length]
    rfl
  | cons ch pre ih =>
    by_cases hch : ch = '='.toUInt8
    · subst hch
      rw [foldl_cons, step, if_pos ⟨rfl, rfl⟩, foldl_value, pairOf, takeWhile_key h]
      simp [pair, unescaped]
    · have htext : '='.toUInt8 ∉ text ++ [ch] := by simpa [h] using fun heq => hch heq.symm
      rw [foldl_cons, step, if_neg (fun hc => hch hc.1), ih htext, append_assoc]
      rfl

/-- A piece read to its end is the pair it stands for. -/
theorem pair_of (pre : Bytes) : (of pre).pair = pairOf pre := pair_foldl (not_mem_nil) pre

theorem not_pending {s : Scan} (h : s.pending = false) : s = start := by
  obtain ⟨key, text⟩ := s
  simp only [pending, Bool.or_eq_false_iff, Bool.not_eq_false', List.isEmpty_iff, Option.isSome_eq_false_iff,
    Option.isNone_iff_eq_none] at h
  rw [h.1, h.2]
  rfl

end Scan

/-! ## The loops -/

theorem amp_not_eq {P : Prop} : ¬ ('&'.toUInt8 = '='.toUInt8 ∧ P) := fun h => absurd h.1 (by decide)

theorem keyed_cons (p : Pair) (ps : List Pair) : keyed (p :: ps) = keepPair p ++ keyed ps := by
  rw [keyed, filter_cons, keepPair]
  cases p.1.isEmpty <;> rfl

/-- The pairs from the middle of a piece on. -/
def pairsFrom (pre rest : Bytes) : List Pair := ((rest.splitOn '&'.toUInt8).modifyHead (pre ++ ·)).map pairOf

theorem pairsFrom_nil (rest : Bytes) : pairsFrom [] rest = pairs rest := by
  rw [pairsFrom, pairs]
  cases rest.splitOn '&'.toUInt8 <;> rfl

theorem pairsFrom_end (pre : Bytes) : pairsFrom pre [] = [pairOf pre] := by
  simp [pairsFrom]

theorem pairsFrom_amp (pre rest : Bytes) : pairsFrom pre ('&'.toUInt8 :: rest) = pairOf pre :: pairs rest := by
  simp [pairsFrom, pairs, splitOn_cons_eq_if_modifyHead]

theorem pairsFrom_other (pre rest : Bytes) {ch : UInt8} (h : ch ≠ '&'.toUInt8) :
    pairsFrom pre (ch :: rest) = pairsFrom (pre ++ [ch]) rest := by
  have hch : (ch == '&'.toUInt8) = false := by simpa using h
  rw [pairsFrom, pairsFrom, splitOn_cons_eq_if_modifyHead, hch]
  cases rest.splitOn '&'.toUInt8 with
  | nil => rfl
  | cons piece pieces => simp

theorem pairsFrom_ne_nil (pre rest : Bytes) : pairsFrom pre rest ≠ [] := by
  rw [pairsFrom]
  cases h : rest.splitOn '&'.toUInt8 with
  | nil => exact absurd h (by simp)
  | cons piece pieces => simp

/-- What is left pending at the end is a pair, or nothing. -/
theorem keepPair_pending (s : Scan) : (if s.pending then keepPair s.pair else []) = keepPair s.pair := by
  cases h : s.pending with
  | true => rfl
  | false => rw [Scan.not_pending h]; rfl

/-- What a limit leaves of the pairs after `count` of them. -/
def limited (max : Int) (count : Nat) (ps : List Pair) : List Pair :=
  if 0 < max then ps.take (max.toNat - count) else ps

variable {count i : Nat}

theorem parseLoop_eq {max : Int} (pre rest : Bytes) (hcount : 0 < max → count < max.toNat) :
    parseLoop max count (.of pre) rest = keyed (limited max count (pairsFrom pre rest)) := by
  induction rest generalizing pre count with
  | nil =>
    rw [parseLoop, keepPair_pending, Scan.pair_of, pairsFrom_end, limited]
    split
    · next hmax =>
      have := hcount hmax
      rw [take_of_length_le (by simp; omega), keyed_cons]
      simp [keyed]
    · rw [keyed_cons]
      simp [keyed]
  | cons ch rest ih =>
    by_cases hamp : ch = '&'.toUInt8
    · subst hamp
      rw [parseLoop, if_neg amp_not_eq, if_pos rfl, Scan.pair_of, pairsFrom_amp, limited]
      split
      · next hmax =>
        have := hcount hmax
        split
        · next hlast =>
          rw [show max.toNat - count = 0 + 1 by omega, take_succ_cons, keyed_cons]
          simp [keyed]
        · next hlast =>
          rw [← Scan.of_nil, ih [] (fun _ => by omega), pairsFrom_nil, limited, if_pos hmax,
            show max.toNat - count = max.toNat - (count + 1) + 1 by omega, take_succ_cons, keyed_cons]
      · next hmax =>
        rw [← Scan.of_nil, ih [] hcount, pairsFrom_nil, limited, if_neg hmax, keyed_cons]
    · rw [pairsFrom_other _ _ hamp, ← ih _ hcount, Scan.of_concat, parseLoop, if_neg hamp, Scan.step]
      split
      · rfl
      · rfl

theorem parseArgs_eq (args : Bytes) (max : Int) : parseArgs args max = keyed (limited max 0 (pairs args)) := by
  rw [parseArgs, ← Scan.of_nil, parseLoop_eq _ _ (by omega), pairsFrom_nil]

theorem getUriArgs_eq (args : Bytes) (max : Int) : getUriArgs args max = keyed (limited max 0 (pairs args)) := by
  rw [getUriArgs, ← parseArgs_eq]
  cases args with
  | nil => rfl
  | cons ch args => rfl

/-! ## The two passes -/

theorem countLoop_pos (h : count ≠ 0) (args : Bytes) : countLoop count args + 1 = count + (pairs args).length := by
  induction args generalizing count with
  | nil => rfl
  | cons ch args ih =>
    rw [countLoop]
    by_cases hamp : ch = '&'.toUInt8
    · subst hamp
      rw [if_pos rfl, if_neg h, ih (by omega), ← pairsFrom_nil, ← pairsFrom_nil, pairsFrom_amp, pairsFrom_nil]
      simp
      omega
    · rw [if_neg hamp, ih h, ← pairsFrom_nil (ch :: args), pairsFrom_other _ _ hamp, pairs, pairsFrom]
      simp

/-- Without `&` nothing is counted, else the pairs are. -/
theorem countLoop_zero (args : Bytes) :
    countLoop 0 args = if (pairs args).length = 1 then 0 else (pairs args).length := by
  induction args with
  | nil => rfl
  | cons ch args ih =>
    rw [countLoop]
    by_cases hamp : ch = '&'.toUInt8
    · subst hamp
      have htwo := countLoop_pos (show 0 + 2 ≠ 0 by omega) args
      have hne := length_pos_of_ne_nil (pairsFrom_ne_nil [] args)
      rw [pairsFrom_nil] at hne
      rw [if_pos rfl, if_pos rfl, ← pairsFrom_nil ('&'.toUInt8 :: args), pairsFrom_amp, length_cons,
        if_neg (by omega)]
      omega
    · have hlen : (pairs (ch :: args)).length = (pairs args).length := by
        rw [← pairsFrom_nil, pairsFrom_other _ _ hamp, pairs, pairsFrom]
        simp
      rw [if_neg hamp, ih, hlen]

/-- The limit the counting pass works with. -/
def ffiMax (max : Int) : Int := if max < 0 then (NGX_HTTP_LUA_MAX_ARGS : Int) else max

theorem getUriArgsCount_eq {args : Bytes} (h : args ≠ []) (max : Int) :
    getUriArgsCount args max =
      if 0 < ffiMax max then min (ffiMax max).toNat (pairs args).length else (pairs args).length := by
  have hne := length_pos_of_ne_nil (pairsFrom_ne_nil [] args)
  rw [pairsFrom_nil] at hne
  rw [getUriArgsCount, countLoop_zero, ← ffiMax]
  by_cases hone : (pairs args).length = 1
  · simp only [hone, if_pos, ne_eq, not_true, if_false, List.isEmpty_iff, h]
    split
    · omega
    · rfl
  · simp only [hone, if_false]
    rw [if_pos (by omega)]
    grind

theorem saveElt_eq (s : Scan) (h : i < count) : saveElt count i s = .ok (keepPair s.pair) := by
  rw [saveElt, keepPair]
  split
  · rfl
  · rw [slot, if_pos h]
    rfl

theorem length_keepPair_le (p : Pair) : (keepPair p).length ≤ 1 := by
  rw [keepPair]
  split
  · exact Nat.zero_le _
  · exact Nat.le_refl _

/-- The fill pass writes the first pairs with a key, and only below the count. -/
theorem fillLoop_eq (pre rest : Bytes) (h : i < count) :
    fillLoop count i (.of pre) rest = .ok ((keyed (pairsFrom pre rest)).take (count - i)) := by
  induction rest generalizing pre i with
  | nil =>
    have hpending := keepPair_pending (.of pre)
    have hle := length_keepPair_le (pairOf pre)
    rw [fillLoop, saveElt_eq _ h, ← apply_ite Except.ok, hpending, Scan.pair_of, pairsFrom_end, keyed_cons]
    simp only [keyed, filter_nil, append_nil]
    rw [take_of_length_le (by omega)]
  | cons ch rest ih =>
    by_cases hamp : ch = '&'.toUInt8
    · subst hamp
      have hle := length_keepPair_le (pairOf pre)
      rw [fillLoop, if_neg amp_not_eq, if_pos rfl, saveElt_eq _ h, Scan.pair_of, pairsFrom_amp, keyed_cons]
      simp only [bind, Except.bind]
      split
      · next hfull =>
        rw [show count - i = (keepPair (pairOf pre)).length by omega, take_left]
        rfl
      · next hfull =>
        have hkeep : (keepPair (pairOf pre)).take (count - i) = keepPair (pairOf pre) :=
          take_of_length_le (by omega)
        rw [← Scan.of_nil, ih [] (by omega), pairsFrom_nil, take_append, hkeep, Nat.sub_sub]
        rfl
    · rw [pairsFrom_other _ _ hamp, ← ih _ h, Scan.of_concat, fillLoop, if_neg hamp, Scan.step]
      split
      · rw [slot, if_pos h]
        rfl
      · rfl

theorem keyed_length_le (ps : List Pair) : (keyed ps).length ≤ ps.length := length_filter_le ..

/-- The FFI takes the first pairs of those with a key. -/
theorem ffiGetUriArgs_eq (args : Bytes) (max : Int) :
    ffiGetUriArgs args max =
      .ok (if 0 < ffiMax max then (keyed (pairs args)).take (ffiMax max).toNat else keyed (pairs args)) := by
  by_cases h : args = []
  · subst h
    have hnone : keyed (pairs []) = [] := rfl
    have hcount : getUriArgsCount [] max = 0 := rfl
    rw [ffiGetUriArgs, hnone, List.take_nil, ite_self, hcount]
    rfl
  · have hpos := length_pos_of_ne_nil (pairsFrom_ne_nil [] args)
    rw [pairsFrom_nil] at hpos
    have hle := keyed_length_le (pairs args)
    have hcount := getUriArgsCount_eq h max
    have hn : getUriArgsCount args max ≠ 0 := by
      rw [hcount]
      split
      · omega
      · omega
    rw [ffiGetUriArgs]
    simp only [if_neg hn, ffiReqGetUriArgs]
    rw [← Scan.of_nil, fillLoop_eq [] args (Nat.pos_of_ne_zero hn), pairsFrom_nil, Nat.sub_zero, hcount]
    split
    · rw [← take_take, take_of_length_le hle]
    · rw [take_of_length_le hle]

/-- The fill pass writes at most what was counted. -/
theorem fill_le_count (args : Bytes) (max : Int) :
    ∃ out, ffiReqGetUriArgs args (getUriArgsCount args max) = .ok out ∧ out.length ≤ getUriArgsCount args max := by
  rw [ffiReqGetUriArgs]
  split
  · exact ⟨[], rfl, Nat.zero_le _⟩
  · next hn =>
    rw [← Scan.of_nil, fillLoop_eq [] args (Nat.pos_of_ne_zero hn)]
    exact ⟨_, rfl, by rw [length_take]; omega⟩

/-! ## Agreement -/

/-- Both give the same pairs, and the fill pass stays within the count. -/
def Agree (args : Bytes) (max : Int) : Prop :=
  (∃ out, ffiReqGetUriArgs args (getUriArgsCount args max) = .ok out ∧ out.length ≤ getUriArgsCount args max) ∧
    ffiGetUriArgs args max = .ok (getUriArgs args max)

theorem keyed_take_append_drop (ps : List Pair) (n : Nat) : keyed ps = keyed (ps.take n) ++ keyed (ps.drop n) := by
  rw [keyed, keyed, keyed, ← filter_append, take_append_drop]

theorem keyed_eq_nil {ps : List Pair} : keyed ps = [] ↔ ∀ p ∈ ps, p.1 = [] := by
  simp [keyed, filter_eq_nil_iff]

theorem keyed_length_eq {ps : List Pair} : (keyed ps).length = ps.length ↔ ∀ p ∈ ps, p.1 ≠ [] := by
  simp [keyed, length_filter_eq_length_iff]

/-- Dropping the pairs without a key before or after the limit is the same
when there are none of them before it, or only such after it. -/
theorem limit_comm_iff (ps : List Pair) (n : Nat) :
    (keyed ps).take n = keyed (ps.take n) ↔ (∀ p ∈ ps.take n, p.1 ≠ []) ∨ ∀ p ∈ ps.drop n, p.1 = [] := by
  have hle := keyed_length_le (ps.take n)
  have htake := length_take_le n ps
  rw [← keyed_length_eq, ← keyed_eq_nil, keyed_take_append_drop ps n, take_append,
    take_of_length_le (by omega)]
  constructor
  · intro h
    have hnil := append_right_eq_self.mp h
    rcases take_eq_nil_iff.mp hnil with hlen | hdrop
    · exact .inl (by omega)
    · exact .inr hdrop
  · rintro (hlen | hdrop)
    · rcases Nat.lt_or_ge ps.length n with hn | hn
      · rw [drop_of_length_le (by omega)]
        simp [keyed]
      · rw [hlen, length_take, Nat.min_eq_left hn, Nat.sub_self]
        simp
    · rw [hdrop]
      simp

/-- **The two agree unless a limit meets pairs without a key, or a negative
one many pairs.** -/
theorem agree_iff (args : Bytes) (max : Int) :
    Agree args max ↔
      (max < 0 → (keyed (pairs args)).length ≤ NGX_HTTP_LUA_MAX_ARGS) ∧
      (0 < max → (∀ p ∈ (pairs args).take max.toNat, p.1 ≠ []) ∨ ∀ p ∈ (pairs args).drop max.toNat, p.1 = []) := by
  rw [Agree, and_iff_right (fill_le_count args max), ffiGetUriArgs_eq, getUriArgs_eq, Except.ok.injEq,
    limited, ffiMax]
  rcases Int.lt_trichotomy max 0 with hneg | rfl | hpos
  · rw [if_pos hneg, if_pos (by decide), if_neg (by omega), take_eq_self_iff]
    exact ⟨fun h => ⟨fun _ => h, fun h' => absurd h' (by omega)⟩, fun h => h.1 hneg⟩
  · simp
  · rw [if_neg (Int.not_lt.mpr (Int.le_of_lt hpos)), if_pos hpos, if_pos hpos, Nat.sub_zero, limit_comm_iff]
    exact ⟨fun h => ⟨fun h' => absurd h' (by omega), fun _ => h⟩, fun h => h.2 hpos⟩

/-- `&a` with a limit of one pair -/
theorem empty_pair_limit : ¬ Agree ("&a".toList.map Char.toUInt8) 1 := by
  rintro ⟨-, h⟩
  revert h
  decide

end OpenResty.NgxLua
