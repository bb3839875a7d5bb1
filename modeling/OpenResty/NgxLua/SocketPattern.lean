/-
`ngx_http_lua_socket_compile_pattern` of `ngx_http_lua_socket_tcp.c`: the
edges on which a failed match recovers. Memory is always there.
-/
import OpenResty.Lib.Kmp
import OpenResty.Lib.Memory

namespace OpenResty.NgxLua

open Lib List Option Nat Function

/-- `ngx_http_lua_dfa_edge_t` -/
structure Edge where
  chr : UInt8
  new_state : Nat

/-- `cp->recovering`, the edges of every state from 2 on. -/
abbrev Recovering := Nat → List Edge

/-- The edges of one state with another, or with a farther state for its character. -/
def addEdge (chr : UInt8) (new_state : Nat) : List Edge → List Edge
  | [] => [{ chr, new_state }]
  | edge :: edges =>
    if edge.chr = chr then (if edge.new_state < new_state then { edge with new_state } else edge) :: edges
    else edge :: addEdge chr new_state edges

def findEdge (c : UInt8) : List Edge → Option Nat
  | [] => none
  | edge :: edges => if edge.chr = c then some edge.new_state else findEdge c edges

/-- How much of the pattern stands again at `i`, when something does and the
next character of the two differs. -/
def prefixLoop (data : Bytes) (i : Nat) : Nat → Nat → Option Nat
  | 0, _ => none
  | fuel + 1, prefix_len =>
    if prefix_len ≤ data.length - i - 1 then
      if data.take prefix_len = (data.drop i).take prefix_len then
        if data[prefix_len]? = data[i + prefix_len]? then prefixLoop data i fuel (prefix_len + 1) else some prefix_len
      else none
    else none

/-- What the shift by `i` adds. -/
def compileShift (data : Bytes) (recovering : Recovering) (i : Nat) : Recovering :=
  match prefixLoop data i data.length 1 with
  | none => recovering
  | some prefix_len =>
    let cur_state := i + prefix_len
    let new_state := prefix_len + 1
    Function.update recovering (cur_state - 2)
      (addEdge (data.getD prefix_len 0) new_state (recovering (cur_state - 2)))

def compilePattern (data : Bytes) : Recovering :=
  if data.length ≤ 2 then fun _ => []
  else (range' 1 (data.length - 1)).foldl (compileShift data) fun _ => []

/-- The state `read_until` goes on in when `c` does not continue `state`. -/
def recover (recovering : Recovering) (state : Nat) (c : UInt8) : Option Nat :=
  if 2 ≤ state then findEdge c (recovering (state - 2)) else none

/-- The state of `read_until` behind a character `c` that does not continue `state`: where an
edge leads, or state 0, in which the character is taken once more. -/
def stateAfter (data : Bytes) (recovering : Recovering) (state : Nat) (c : UInt8) : Nat :=
  match recover recovering state c with
  | some new_state => new_state
  | none => if data[0]? = some c then 1 else 0

/-! ## The edges and the borders of the pattern -/

theorem findEdge_addEdge (chr c : UInt8) (n : Nat) (edges : List Edge) :
    findEdge c (addEdge chr n edges) =
      if chr = c then some (max ((findEdge chr edges).getD 0) n) else findEdge c edges := by
  induction edges with
  | nil => simp [addEdge, findEdge]
  | cons edge edges ih =>
    rw [addEdge]
    split
    · next hchr =>
      subst hchr
      by_cases hc : edge.chr = c
      · rw [if_pos hc]
        split
        · simp only [findEdge, hc, if_true, getD_some, some.injEq]
          omega
        · simp only [findEdge, hc, if_true, getD_some, some.injEq]
          omega
      · rw [if_neg hc]
        split <;> simp only [findEdge, hc, if_false]
    · next hchr =>
      simp only [findEdge, ih, hchr, if_false]
      by_cases hc : chr = c
      · subst hc
        simp [hchr]
      · simp [hc]

variable {data : Bytes} {fuel i n p s t : Nat}

/-- The pattern stands again `i` later: a border. -/
theorem shift_iff (h : i + n ≤ data.length) :
    data.take n = (data.drop i).take n ↔ data.take n <:+ data.take (i + n) := by
  have hdrop : (data.drop i).take n = (data.take (i + n)).drop i := by
    rw [drop_take, Nat.add_sub_cancel_left]
  rw [hdrop]
  constructor
  · intro heq
    rw [heq]
    exact drop_suffix i _
  · rintro ⟨w, hw⟩
    have hlen := congrArg List.length hw
    simp only [length_append, length_take] at hlen
    rw [← hw, show i = w.length by omega, drop_left]

theorem prefixLoop_sound (hp : 0 < p) (h : prefixLoop data i fuel p = some n) :
    0 < n ∧ n ≤ data.length - i - 1 ∧ data.take n = (data.drop i).take n ∧ data[n]? ≠ data[i + n]? := by
  induction fuel generalizing p with
  | zero => cases h
  | succ fuel ih =>
    rw [prefixLoop] at h
    split at h
    · next hle =>
      split at h
      · next heq =>
        split at h
        · exact ih (succ_pos p) h
        · next hne =>
          cases h
          exact ⟨hp, hle, heq, hne⟩
      · cases h
    · cases h

theorem prefixLoop_complete (hpn : p ≤ n) (hfuel : n < p + fuel)
    (hn : n ≤ data.length - i - 1) (heq : data.take n = (data.drop i).take n) (hne : data[n]? ≠ data[i + n]?) :
    prefixLoop data i fuel p = some n := by
  have hshort : ∀ m, m ≤ n → data.take m = (data.drop i).take m := fun m hm => by
    have := congrArg (List.take m) heq
    rwa [take_take, take_take, Nat.min_eq_left hm] at this
  induction fuel generalizing p with
  | zero => omega
  | succ fuel ih =>
    rw [prefixLoop, if_pos (by omega), if_pos (hshort p hpn)]
    rcases Nat.lt_or_eq_of_le hpn with hlt | rfl
    · have hnext : data[p]? = data[i + p]? := by
        have := congrArg (·[p]?) (hshort (p + 1) hlt)
        simpa using this
      rw [if_pos hnext]
      exact ih hlt (by omega)
    · rw [if_neg hne]

/-- An edge on which a match recovers: `b` of the pattern stay matched. -/
structure Recovers (data : Bytes) (s b : Nat) (c : UInt8) : Prop where
  pos : 0 < b
  lt : b < s
  state : s < data.length
  border : data.take b <:+ data.take s
  next : data[b]? = some c
  differ : data[s]? ≠ some c

/-- The edges that the shifts below `k` make, the farthest for a character. -/
structure Compiled (data : Bytes) (k : Nat) (recovering : Recovering) : Prop where
  sound : ∀ s c n, 2 ≤ s → findEdge c (recovering (s - 2)) = some n → ∃ b, n = b + 1 ∧ Recovers data s b c
  complete : ∀ s b c, Recovers data s b c → s - b < k → ∃ n, findEdge c (recovering (s - 2)) = some n ∧ b + 1 ≤ n

theorem compiled_none (data : Bytes) : Compiled data 1 fun _ => [] where
  sound _ _ _ _ h := by cases h
  complete s b c h hk := by
    have := h.lt
    omega

theorem recovers_of_loop (hi : 0 < i) (h : prefixLoop data i data.length 1 = some n) :
    Recovers data (i + n) n (data.getD n 0) := by
  obtain ⟨hpos, hle, heq, hne⟩ := prefixLoop_sound Nat.one_pos h
  have hget : data[n]? = some (data.getD n 0) := by
    rw [getD_eq_getElem?_getD, getElem?_eq_getElem (by omega)]
    rfl
  exact ⟨hpos, by omega, by omega, (shift_iff (by omega)).mp heq, hget, fun h => hne (hget.trans h.symm)⟩

variable {c : UInt8}

theorem loop_of_recovers {b : Nat} (h : Recovers data s b c) : prefixLoop data (s - b) data.length 1 = some b := by
  have hpos := h.pos
  have hlt := h.lt
  have hstate := h.state
  have hs : s - b + b = s := by omega
  refine prefixLoop_complete h.pos (by omega) (by omega) ?_ ?_
  · rw [shift_iff (by omega), hs]
    exact h.border
  · rw [hs, h.next]
    exact h.differ.symm

theorem compiled_shift {recovering : Recovering} (hi : 0 < i)
    (h : Compiled data i recovering) : Compiled data (i + 1) (compileShift data recovering i) := by
  rw [compileShift]
  cases hloop : prefixLoop data i data.length 1 with
  | none =>
    refine ⟨h.sound, fun s b c hr hk => ?_⟩
    rcases Nat.lt_or_eq_of_le (le_of_lt_succ hk) with hlt | rfl
    · exact h.complete s b c hr hlt
    · rw [loop_of_recovers hr] at hloop
      cases hloop
  | some n =>
    have hnew := recovers_of_loop hi hloop
    have hpos := hnew.pos
    refine ⟨fun s c m hs hfind => ?_, fun s b c hr hk => ?_⟩
    · by_cases hsn : s - 2 = i + n - 2
      · obtain rfl : s = i + n := by omega
        simp only [update_self, findEdge_addEdge] at hfind
        split at hfind
        · next hc =>
          subst hc
          rcases hold : findEdge (data.getD n 0) (recovering (i + n - 2)) with _ | old
          · simp only [hold, getD_none, some.injEq] at hfind
            exact ⟨n, by omega, hnew⟩
          · obtain ⟨b, hb, hr⟩ := h.sound _ _ _ hs hold
            simp only [hold, getD_some, some.injEq] at hfind
            rcases Nat.lt_or_ge old (n + 1) with hlt | hge
            · exact ⟨n, by omega, hnew⟩
            · exact ⟨b, by omega, hr⟩
        · exact h.sound _ _ _ hs hfind
      · simp only [update_of_ne hsn] at hfind
        exact h.sound _ _ _ hs hfind
    · have hb := hr.pos
      have hbs := hr.lt
      rcases Nat.lt_or_eq_of_le (le_of_lt_succ hk) with hlt | heq
      · -- an earlier shift
        obtain ⟨m, hfind, hm⟩ := h.complete s b c hr hlt
        by_cases hsn : s - 2 = i + n - 2
        · simp only [hsn, update_self, findEdge_addEdge]
          rw [hsn] at hfind
          split
          · next hc =>
            subst hc
            exact ⟨_, rfl, by rw [hfind, getD_some]; omega⟩
          · exact ⟨m, hfind, hm⟩
        · simp only [update_of_ne hsn]
          exact ⟨m, hfind, hm⟩
      · -- this shift
        have hloop' := loop_of_recovers hr
        rw [heq, hloop] at hloop'
        obtain rfl : n = b := by simpa using hloop'
        obtain rfl : s = i + n := by omega
        simp only [update_self, findEdge_addEdge]
        have hc : data.getD n 0 = c := some.inj (hnew.next.symm.trans hr.next)
        rw [if_pos hc]
        exact ⟨_, rfl, by omega⟩

theorem compiled_shifts {recovering : Recovering} (hi : 0 < i) (n : Nat)
    (h : Compiled data i recovering) :
    Compiled data (i + n) ((range' i n).foldl (compileShift data) recovering) := by
  induction n generalizing i recovering with
  | zero => exact h
  | succ n ih =>
    rw [range'_succ, foldl_cons, show i + (n + 1) = i + 1 + n by omega]
    exact ih (succ_pos i) (compiled_shift hi h)

theorem compiled_compilePattern (data : Bytes) : Compiled data data.length (compilePattern data) := by
  rw [compilePattern]
  split
  · next hlen =>
    refine ⟨fun _ _ _ _ h => (by cases h), fun s b c h hk => ?_⟩
    have := h.pos
    have := h.lt
    have := h.state
    omega
  · next hlen =>
    have h := compiled_shifts Nat.one_pos (data.length - 1) (compiled_none data)
    rwa [show 1 + (data.length - 1) = data.length by omega] at h

/-- **An edge leads to the longest border that the character continues**, and
there is none when no border is continued. -/
theorem recover_spec (hs : s < data.length) (hc : data[s]? ≠ some c) :
    match recover (compilePattern data) s c with
    | some n => ∃ b, n = b + 1 ∧ Recovers data s b c ∧
        ∀ t, b < t → t < s → data.take t <:+ data.take s → data[t]? ≠ some c
    | none => ∀ t, 0 < t → t < s → data.take t <:+ data.take s → data[t]? ≠ some c := by
  have h := compiled_compilePattern data
  have hrecovers : ∀ t, 0 < t → t < s → data.take t <:+ data.take s → data[t]? = some c → Recovers data s t c :=
    fun t hpos hlt hborder hnext => ⟨hpos, hlt, hs, hborder, hnext, hc⟩
  rw [recover]
  split
  · next n hfind =>
    split at hfind
    · next htwo =>
      obtain ⟨b, hb, hr⟩ := h.sound s c n htwo hfind
      refine ⟨b, hb, hr, fun t hbt hts hborder hnext => ?_⟩
      obtain ⟨m, hfind', hm⟩ := h.complete s t c (hrecovers t (by omega) hts hborder hnext) (by omega)
      rw [hfind] at hfind'
      cases hfind'
      omega
    · cases hfind
  · next hfind =>
    intro t hpos hts hborder hnext
    obtain ⟨m, hfind', -⟩ := h.complete s t c (hrecovers t hpos hts hborder hnext) (by omega)
    rw [if_pos (by omega), hfind'] at hfind
    cases hfind

/-! ## The automaton -/

/-- `n` bytes of the pattern end the text, and no more do. -/
structure Longest (data text : Bytes) (n : Nat) : Prop where
  le : n ≤ data.length
  suffix : data.take n <:+ text
  most : ∀ m, m ≤ data.length → data.take m <:+ text → m ≤ n

/-- A prefix that ends a text with one more character: a shorter one ends the text, and the character continues it. -/
theorem suffix_next {text : Bytes} (ht : t < data.length) :
    data.take (t + 1) <:+ text ++ [c] ↔ data[t]? = some c ∧ data.take t <:+ text := by
  have hget : data[t]? = some data[t] := getElem?_eq_getElem ht
  rw [take_getElem? hget, hget, some.injEq, suffix_concat_iff]
  constructor
  · rintro (h | ⟨w, hw, hsuffix⟩)
    · exact absurd h (append_ne_nil_of_right_ne_nil _ (cons_ne_nil _ _))
    · obtain ⟨rfl, hc⟩ := append_inj' hw rfl
      exact ⟨singleton_inj.mp hc, hsuffix⟩
  · rintro ⟨rfl, hsuffix⟩
    exact .inr ⟨_, rfl, hsuffix⟩

/-- The prefixes that end `pattern[0..s)` and a character that does not continue it. -/
theorem continued (hs : s < data.length) (hc : data[s]? ≠ some c)
    (ht : t + 1 ≤ data.length) (h : data.take (t + 1) <:+ data.take s ++ [c]) :
    t < s ∧ data[t]? = some c ∧ data.take t <:+ data.take s := by
  obtain ⟨hnext, hborder⟩ := (suffix_next ht).mp h
  have hle := hborder.length_le
  rw [length_take, length_take] at hle
  rcases Nat.lt_or_eq_of_le (show t ≤ s by omega) with hlt | rfl
  · exact ⟨hlt, hnext, hborder⟩
  · exact absurd hnext hc

/-- **The edges and the way back to state 0 are the automaton of Knuth, Morris and Pratt.** -/
theorem stateAfter_longest {data : Bytes} {s : Nat} {c : UInt8} (hs : s < data.length) (hc : data[s]? ≠ some c) :
    Longest data (data.take s ++ [c]) (stateAfter data (compilePattern data) s c) := by
  have hspec := recover_spec hs hc
  rw [stateAfter]
  cases hrecover : recover (compilePattern data) s c with
  | some n =>
    rw [hrecover] at hspec
    obtain ⟨b, rfl, hrecovers, hfarthest⟩ := hspec
    have hlt := hrecovers.lt
    show Longest data _ (b + 1)
    have hborder : data.take (b + 1) <:+ data.take s ++ [c] :=
      (suffix_next (by omega)).mpr ⟨hrecovers.next, hrecovers.border⟩
    refine ⟨by omega, hborder, fun m hm hsuffix => ?_⟩
    cases m with
    | zero => exact Nat.zero_le _
    | succ t =>
      obtain ⟨hts, hnext, hsuffix⟩ := continued hs hc hm hsuffix
      by_contra hmore
      exact hfarthest t (by omega) hts hsuffix hnext
  | none =>
    rw [hrecover] at hspec
    have hnone : ∀ t, 0 < t → t + 1 ≤ data.length → ¬ data.take (t + 1) <:+ data.take s ++ [c] := by
      intro t hpos ht hsuffix
      obtain ⟨hts, hnext, hsuffix⟩ := continued hs hc ht hsuffix
      exact hspec t hpos hts hsuffix hnext
    by_cases hfirst : data[0]? = some c
    · have hone : data.take (0 + 1) <:+ data.take s ++ [c] := (suffix_next (by omega)).mpr ⟨hfirst, nil_suffix⟩
      simp only [if_pos hfirst]
      refine ⟨by omega, hone, fun m hm hsuffix => ?_⟩
      by_contra hmore
      obtain ⟨t, rfl⟩ : ∃ t, m = t + 1 := ⟨m - 1, by omega⟩
      exact hnone t (by omega) hm hsuffix
    · simp only [if_neg hfirst]
      refine ⟨Nat.zero_le _, nil_suffix, fun m hm hsuffix => ?_⟩
      by_contra hmore
      obtain ⟨t, rfl⟩ : ∃ t, m = t + 1 := ⟨m - 1, by omega⟩
      rcases Nat.eq_zero_or_pos t with rfl | hpos
      · exact hfirst (continued hs hc hm hsuffix).2.1
      · exact hnone t hpos hm hsuffix

/-- In `aab`, behind `aa`, another `a` leaves `aa` matched. -/
theorem stateAfter_longest_aab : stateAfter [97, 97, 98] (compilePattern [97, 97, 98]) 2 97 = 2 ∧
    Longest [97, 97, 98] ([97, 97, 98].take 2 ++ [97]) (stateAfter [97, 97, 98] (compilePattern [97, 97, 98]) 2 97) :=
  ⟨by decide, stateAfter_longest (by decide) (by decide)⟩

end OpenResty.NgxLua
