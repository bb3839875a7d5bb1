/-
What the iterator of `receiveuntil` returns: the stream up to the pattern,
whatever the buffers and the sizes.

What is given out of a buffer lies in it up to `in_last`. What is held back
of the pattern either lies right behind, or the buffer has given nothing yet
and shows less than is held back.
-/
import OpenResty.NgxLua.ReceiveUntil

namespace OpenResty.NgxLua

open Lib Option Nat
open List hiding getElem?_eq_some_iff

namespace Upstream

/-- What a call has collected. -/
def out (u : Upstream) : Bytes := u.bufs_in.flatten ++ u.buf_in

/-- `state` characters of the pattern are held back before `mark`. -/
structure Held (u : Upstream) (pat : Bytes) (mark state : Nat) : Prop where
  ordered : u.in_pos ≤ u.in_last
  inside : mark ≤ u.data.length
  behind : (u.in_last + state = mark ∧ (u.data.drop u.in_last).take state = pat.take state) ∨
    (u.in_pos = u.in_last ∧ u.in_last ≤ mark ∧ mark - u.in_last < state)

variable {mark : Nat}

theorem Held.last_le {u : Upstream} {pat : Bytes} {state : Nat} (h : u.Held pat mark state) : u.in_last ≤ mark := by
  rcases h.behind with ⟨hlast, -⟩ | ⟨-, hle, -⟩
  · omega
  · exact hle

theorem buf_in_empty {u : Upstream} (h : u.in_pos = u.in_last) : u.buf_in = [] := by
  rw [buf_in, h, Nat.sub_self, take_zero]

/-- The last buffer gives out `n` more. -/
theorem buf_in_more {u : Upstream} (h : u.in_pos ≤ u.in_last) (n : Nat) :
    ({ u with in_last := u.in_last + n } : Upstream).buf_in = u.buf_in ++ (u.data.drop u.in_last).take n := by
  simp only [buf_in]
  rw [show u.in_last + n - u.in_pos = (u.in_last - u.in_pos) + n by omega, take_add, drop_drop,
    show u.in_pos + (u.in_last - u.in_pos) = u.in_last by omega]

/-- The pending data added is the front of what was held back. -/
theorem out_addPendingData {u : Upstream} {pat : Bytes} {state n : Nat} (h : u.Held pat mark state)
    (hn : n ≤ state) : (u.addPendingData mark pat n state).out = u.out ++ pat.take n := by
  rw [addPendingData]
  rcases h.behind with ⟨hlast, hdata⟩ | ⟨hempty, hle, hshort⟩
  · have hfront : (u.data.drop u.in_last).take n = pat.take n := by
      have := congrArg (List.take n) hdata
      rwa [take_take, take_take, Nat.min_eq_left hn] at this
    rw [if_pos (by omega)]
    simp only [out, buf_in_more h.ordered, hfront, append_assoc]
  · rw [if_neg (by omega)]
    simp only [out, insertBuffer, buf_in_empty hempty, List.flatten_append, flatten_singleton, append_nil]
    rw [buf_in_empty rfl, append_nil]

/-- All that was held back is given out. -/
theorem held_addAll {u : Upstream} {pat : Bytes} {state : Nat} (h : u.Held pat mark state) :
    (u.addPendingData mark pat state state).Held pat mark 0 := by
  have hordered := h.ordered
  have hinside := h.inside
  rw [addPendingData]
  rcases h.behind with ⟨hlast, -⟩ | ⟨hempty, hle, hshort⟩
  · rw [if_pos (by omega)]
    exact ⟨by dsimp only; omega, hinside, .inl ⟨by dsimp only; omega, rfl⟩⟩
  · rw [if_neg (by omega)]
    exact ⟨Nat.le_refl _, hinside, .inl ⟨rfl, rfl⟩⟩

theorem data_next {u : Upstream} {c : UInt8} {bytes : Bytes} (hbytes : u.data.drop mark = c :: bytes) :
    u.data[mark]? = some c ∧ mark < u.data.length ∧ u.data.drop (mark + 1) = bytes := by
  have hget : u.data[mark]? = some c := by
    rw [← head?_drop, hbytes]
    rfl
  refine ⟨hget, (List.getElem?_eq_some_iff.mp hget).1, ?_⟩
  rw [← drop_drop, hbytes]
  rfl

/-- The next character is held back too. -/
theorem held_next {u : Upstream} {pat bytes : Bytes} {state : Nat} {c : UInt8} (h : u.Held pat mark state)
    (hbytes : u.data.drop mark = c :: bytes) (hc : pat[state]? = some c) : u.Held pat (mark + 1) (state + 1) := by
  obtain ⟨hget, hlt, -⟩ := data_next hbytes
  refine ⟨h.ordered, hlt, ?_⟩
  rcases h.behind with ⟨hlast, hdata⟩ | ⟨hempty, hle, hshort⟩
  · refine .inl ⟨by omega, ?_⟩
    have hnext : (u.data.drop u.in_last)[state]? = some c := by rw [getElem?_drop, hlast, hget]
    rw [take_getElem? hnext, take_getElem? hc, hdata]
  · exact .inr ⟨hempty, by omega, by omega⟩

/-- The next character is given out, with nothing held back. -/
theorem held_plain {u : Upstream} {pat bytes : Bytes} {c : UInt8} (h : u.Held pat mark 0)
    (hbytes : u.data.drop mark = c :: bytes) :
    ({ u with in_last := u.in_last + 1 } : Upstream).Held pat (mark + 1) 0 ∧
      ({ u with in_last := u.in_last + 1 } : Upstream).out = u.out ++ [c] := by
  obtain ⟨hget, hlt, -⟩ := data_next hbytes
  have hordered := h.ordered
  have hlast : u.in_last = mark := by
    rcases h.behind with ⟨hlast, -⟩ | ⟨-, -, hshort⟩
    · exact hlast
    · omega
  have hmore := buf_in_more hordered 1
  rw [hlast, hbytes] at hmore
  refine ⟨⟨by dsimp only; omega, hlt, .inl ⟨by dsimp only; omega, rfl⟩⟩, ?_⟩
  simp only [out, hlast, hmore, append_assoc]
  rfl

/-- Of what was held back and the next character, the last `b + 1` stay. -/
theorem held_recover {u : Upstream} {pat bytes : Bytes} {state b : Nat} {c : UInt8} (h : u.Held pat mark state)
    (hstate : state < pat.length) (hbytes : u.data.drop mark = c :: bytes) (hr : Recovers pat state b c) :
    (u.addPendingData mark pat (state - b) state).Held pat (mark + 1) (b + 1) := by
  obtain ⟨hget, hlt, -⟩ := data_next hbytes
  have hordered := h.ordered
  have hb := hr.pos
  have hbs := hr.lt
  rw [addPendingData]
  rcases h.behind with ⟨hlast, hdata⟩ | ⟨hempty, hle, hshort⟩
  · rw [if_pos (by omega)]
    refine ⟨by dsimp only; omega, hlt, .inl ⟨by dsimp only; omega, ?_⟩⟩
    dsimp only
    have hnext : (u.data.drop (u.in_last + (state - b)))[b]? = some c := by
      rw [getElem?_drop, show u.in_last + (state - b) + b = mark by omega, hget]
    rw [take_getElem? hnext, take_getElem? hr.next]
    have hback : (u.data.drop (u.in_last + (state - b))).take b = (pat.take state).drop (state - b) := by
      rw [← hdata, drop_take, drop_drop, show state - (state - b) = b by omega]
    obtain ⟨w, hw⟩ := hr.border
    have hlen := congrArg List.length hw
    simp only [length_append, length_take] at hlen
    rw [hback, ← hw, show state - b = w.length by omega, drop_left]
  · rw [if_neg (by omega)]
    exact ⟨Nat.le_refl _, hlt, .inr ⟨rfl, le_succ _, by dsimp only; omega⟩⟩

/-- What the filter leaves alone. -/
structure Kept (u u' : Upstream) : Prop where
  data : u'.data = u.data
  length : u'.length = u.length
  read_closed : u'.read_closed = u.read_closed

theorem Kept.trans {u u' u'' : Upstream} (h : u.Kept u') (h' : u'.Kept u'') : u.Kept u'' :=
  ⟨h'.data.trans h.data, h'.length.trans h.length, h'.read_closed.trans h.read_closed⟩

theorem kept_addPendingData (u : Upstream) (mark : Nat) (pat : Bytes) (n state : Nat) :
    u.Kept (u.addPendingData mark pat n state) := by
  rw [addPendingData]
  split <;> exact ⟨rfl, rfl, rfl⟩

theorem pos_addPendingData (u : Upstream) (mark : Nat) (pat : Bytes) (n state : Nat) :
    (u.addPendingData mark pat n state).pos = u.pos := by
  rw [addPendingData]
  split <;> rfl

/-- What a call has collected and holds back does not depend on where the
filter will go on, nor on how much is still asked for. -/
theorem Held.moved {u : Upstream} {pat : Bytes} {state : Nat} (h : u.Held pat mark state)
    (pos length rest : Nat) :
    ({ u with pos, length, rest } : Upstream).Held pat mark state :=
  ⟨h.ordered, h.inside, h.behind⟩

end Upstream

/-! ## The input filter -/

/-- The filter has come to `mark`; `g` was returned by the calls before, and
`wire` is still to be received. -/
structure Mid (pat stream g wire : Bytes) (u : Upstream) (mark state : Nat) : Prop where
  held : u.Held pat mark state
  scan : ∃ consumed, stream = consumed ++ (u.data.drop mark ++ wire) ∧
    Scan pat (g ++ u.out) (u.data.drop mark ++ wire) state consumed

theorem Mid.moved {pat stream g wire : Bytes} {u : Upstream} {mark state : Nat}
    (h : Mid pat stream g wire u mark state)
    (pos length rest : Nat) : Mid pat stream g wire { u with pos, length, rest } mark state :=
  ⟨h.held.moved pos length rest, h.scan⟩

/-- At the end of the first occurrence of the pattern. -/
def Found (pat stream : Bytes) (inclusive : Bool) (given rest : Bytes) : Prop :=
  ∃ pre, stream = pre ++ pat ++ rest ∧ ¬ pat <:+: pre ++ pat.dropLast ∧
    given = pre ++ (if inclusive then pat else [])

/-- What the filter can return. -/
inductive Outcome (cp : CompiledPattern) (stream g wire : Bytes) : Bool × Upstream × Option Nat → Prop
  /-- `NGX_AGAIN`: the buffer is read to its end -/
  | more {u : Upstream} {state : Nat} (mid : Mid cp.pattern stream g wire u u.pos state)
      (dry : u.pos = u.data.length) :
    Outcome cp stream g wire (false, u, some state)
  /-- `NGX_OK`: the size is reached -/
  | full {u : Upstream} {state : Nat} (mid : Mid cp.pattern stream g wire u u.pos state) (sized : u.length ≠ 0)
    (some_out : u.out ≠ []) : Outcome cp stream g wire (true, u, some state)
  /-- `NGX_OK`: the pattern is read -/
  | found {u : Upstream} (inside : u.pos ≤ u.data.length)
    (found : Found cp.pattern stream cp.inclusive (g ++ u.out) (u.data.drop u.pos ++ wire)) :
    Outcome cp stream g wire (true, u, if u.length ≠ 0 then none else some 0)

namespace Loop

/-- Where the loop is. -/
def mark (l : Loop) : Nat := l.u.pos + l.i

/-- What a turn at `c` keeps. -/
def Sound (cp : CompiledPattern) (stream g wire bytes : Bytes) (c : UInt8) (l : Loop) : Turn → Prop
  | .next l' => l.u.Kept l'.u ∧ Mid cp.pattern stream g wire l'.u l'.mark l'.state ∧ l'.u.data.drop l'.mark = bytes
  | .again l' => l.u.Kept l'.u ∧ Mid cp.pattern stream g wire l'.u l'.mark l'.state ∧
      l'.u.data.drop l'.mark = c :: bytes
  | .done u state => l.u.Kept u ∧ Outcome cp stream g wire (true, u, state)

variable {cp : CompiledPattern} {stream g wire bytes : Bytes} {c : UInt8} {l : Loop}

/-- What the filter gives out when the pattern is read. -/
theorem out_inclusive {u : Upstream} {n : Nat} (h : u.Held cp.pattern u.pos n) (hn : n = cp.pattern.length) :
    let u' := if cp.inclusive then u.addPendingData u.pos cp.pattern n n else u
    u.Kept u' ∧ u'.pos = u.pos ∧ u'.out = u.out ++ if cp.inclusive then cp.pattern else [] := by
  subst hn
  have hout := Upstream.out_addPendingData h (Nat.le_refl _)
  rw [take_length] at hout
  cases cp.inclusive with
  | false => exact ⟨⟨rfl, rfl, rfl⟩, rfl, (append_nil _).symm⟩
  | true =>
    exact ⟨u.kept_addPendingData _ _ _ _, u.pos_addPendingData _ _ _ _, hout⟩

theorem sound_matched (h : Mid cp.pattern stream g wire l.u l.mark l.state)
    (hbytes : l.u.data.drop l.mark = c :: bytes)
    (hc : cp.pattern[l.state]? = some c) : l.Sound cp stream g wire bytes c (l.matched cp) := by
  obtain ⟨hheld, consumed, hstream, hscan⟩ := h
  obtain ⟨-, hlt, hdrop⟩ := Upstream.data_next hbytes
  rw [hbytes, cons_append] at hstream hscan
  have hheld := Upstream.held_next hheld hbytes hc
  rw [matched]
  dsimp only
  split
  · next hlast =>
    obtain ⟨hsplit, hfirst⟩ := hscan.found hc hlast
    have hmoved := hheld.moved (l.mark + 1) l.u.length l.u.rest
    obtain ⟨hkept, hpos, hout⟩ := @out_inclusive cp (Loop.consumed ⟨l.u, l.i + 1, l.state + 1⟩) _ hmoved hlast
    refine ⟨⟨hkept.data, hkept.length, hkept.read_closed⟩, .found ?_ ⟨g ++ l.u.out, ?_, hfirst, ?_⟩⟩
    · rw [hpos, hkept.data]
      exact hlt
    · have hrest : (Loop.consumed ⟨l.u, l.i + 1, l.state + 1⟩).data.drop
          (Loop.consumed ⟨l.u, l.i + 1, l.state + 1⟩).pos = bytes := hdrop
      rw [hpos, hkept.data, hrest, hstream, ← hsplit]
      simp
    · rw [hout, ← append_assoc]
      rfl
  · next hmore =>
    have hstate := (List.getElem?_eq_some_iff.mp hc).1
    refine ⟨⟨rfl, rfl, rfl⟩, ⟨hheld, consumed ++ [c], ?_⟩, hdrop⟩
    rw [show (Loop.mark ⟨l.u, l.i + 1, l.state + 1⟩) = l.mark + 1 from rfl, hdrop]
    exact ⟨by rw [hstream]; simp, hscan.advance hc (by omega)⟩

theorem sound_plain (h : Mid cp.pattern stream g wire l.u l.mark l.state) (hbytes : l.u.data.drop l.mark = c :: bytes)
    (hc : cp.pattern[l.state]? ≠ some c) (hstate : l.state = 0) : l.Sound cp stream g wire bytes c l.plain := by
  obtain ⟨hheld, consumed, hstream, hscan⟩ := h
  obtain ⟨-, hlt, hdrop⟩ := Upstream.data_next hbytes
  rw [hbytes, cons_append] at hstream hscan
  rw [hstate] at hheld hscan hc
  obtain ⟨hheld, hout⟩ := Upstream.held_plain hheld hbytes
  have hscan := hscan.skip hc
  have hmid : Mid cp.pattern stream g wire { l.u with in_last := l.u.in_last + 1 } (l.mark + 1) l.state := by
    refine ⟨hstate ▸ hheld, consumed ++ [c], ?_, ?_⟩
    · rw [hstream]
      simp [hdrop]
    · rw [hstate, hout, ← append_assoc]
      simpa only [hdrop] using hscan
  rw [plain]
  dsimp only
  split
  · next hsized =>
    split
    · have hsome : ({ l.u with in_last := l.u.in_last + 1 } : Upstream).out ≠ [] := by
        rw [hout]
        exact append_ne_nil_of_right_ne_nil _ (cons_ne_nil c [])
      exact ⟨⟨rfl, rfl, rfl⟩, .full (hmid.moved _ _ _) hsized hsome⟩
    · exact ⟨⟨rfl, rfl, rfl⟩, hmid.moved _ _ _, hdrop⟩
  · exact ⟨⟨rfl, rfl, rfl⟩, hmid, hdrop⟩

theorem sound_failed (hcp : cp.recovering = compilePattern cp.pattern)
    (h : Mid cp.pattern stream g wire l.u l.mark l.state) (hbytes : l.u.data.drop l.mark = c :: bytes)
    (hc : cp.pattern[l.state]? ≠ some c) (hstate : l.state ≠ 0)
    (hrecover : recover cp.recovering l.state c = none) : l.Sound cp stream g wire bytes c (l.failed cp) := by
  obtain ⟨hheld, consumed, hstream, hscan⟩ := h
  have hnone := recover_spec hscan.state hc
  rw [← hcp, hrecover] at hnone
  have hout := Upstream.out_addPendingData hheld (Nat.le_refl _)
  have hkept := l.u.kept_addPendingData l.mark cp.pattern l.state l.state
  have hmid : Mid cp.pattern stream g wire (l.u.addPendingData l.mark cp.pattern l.state l.state) l.mark 0 := by
    refine ⟨Upstream.held_addAll hheld, consumed, ?_, ?_⟩
    · rw [hkept.data, hstream]
    · rw [hkept.data, hout, ← append_assoc]
      rw [hbytes, cons_append] at hscan ⊢
      exact hscan.give hc hnone
  have hpos := l.u.pos_addPendingData l.mark cp.pattern l.state l.state
  have hsome : (l.u.addPendingData l.mark cp.pattern l.state l.state).out ≠ [] := by
    have hlt := hscan.state
    rw [hout]
    refine append_ne_nil_of_right_ne_nil _ (ne_nil_of_length_pos ?_)
    rw [length_take]
    omega
  rw [failed, show l.u.pos + l.i = l.mark from rfl]
  generalize l.u.addPendingData l.mark cp.pattern l.state l.state = u at hkept hmid hpos hsome
  have hmark : u.pos + l.i = l.mark := by rw [hpos, mark]
  rw [← hmark] at hmid
  have hdrop : u.data.drop (u.pos + l.i) = c :: bytes := by rw [hmark, hkept.data, hbytes]
  split
  · next hsized =>
    split
    · exact ⟨⟨hkept.data, hkept.length, hkept.read_closed⟩, .full (hmid.moved _ _ _) hsized hsome⟩
    · exact ⟨⟨hkept.data, hkept.length, hkept.read_closed⟩, hmid.moved _ _ _, hdrop⟩
  · exact ⟨hkept, hmid, hdrop⟩

theorem sound_recovered (hcp : cp.recovering = compilePattern cp.pattern)
    (h : Mid cp.pattern stream g wire l.u l.mark l.state) (hbytes : l.u.data.drop l.mark = c :: bytes)
    (hc : cp.pattern[l.state]? ≠ some c) {state : Nat} (hrecover : recover cp.recovering l.state c = some state) :
    l.Sound cp stream g wire bytes c (l.recovered cp state) := by
  obtain ⟨hheld, consumed, hstream, hscan⟩ := h
  obtain ⟨-, hlt, hdrop⟩ := Upstream.data_next hbytes
  have hspec := recover_spec hscan.state hc
  rw [← hcp, hrecover] at hspec
  obtain ⟨b, rfl, hr, hmost⟩ := hspec
  have hbs := hr.lt
  have hout := Upstream.out_addPendingData hheld (sub_le l.state b)
  have hkept := l.u.kept_addPendingData l.mark cp.pattern (l.state - b) l.state
  have hpos := l.u.pos_addPendingData l.mark cp.pattern (l.state - b) l.state
  have hmid : Mid cp.pattern stream g wire (l.u.addPendingData l.mark cp.pattern (l.state - b) l.state)
      (l.mark + 1) (b + 1) := by
    rw [hbytes, cons_append] at hstream hscan
    refine ⟨Upstream.held_recover hheld hscan.state hbytes hr, consumed ++ [c], ?_, ?_⟩
    · rw [hkept.data, hdrop, hstream]
      simp
    · rw [hkept.data, hdrop, hout, ← append_assoc]
      exact hscan.fall hbs hr.border hr.next hc hmost
  have hsome : (l.u.addPendingData l.mark cp.pattern (l.state - b) l.state).out ≠ [] := by
    have hlt := hscan.state
    rw [hout]
    refine append_ne_nil_of_right_ne_nil _ (ne_nil_of_length_pos ?_)
    rw [length_take]
    omega
  rw [recovered, show l.u.pos + l.i = l.mark from rfl, show l.state + 1 - (b + 1) = l.state - b by omega]
  generalize l.u.addPendingData l.mark cp.pattern (l.state - b) l.state = u at hkept hmid hpos hsome
  have hmark : u.pos + (l.i + 1) = l.mark + 1 := by rw [hpos, mark, Nat.add_assoc]
  rw [← hmark] at hmid
  have hdrop : u.data.drop (u.pos + (l.i + 1)) = bytes := by rw [hmark, hkept.data, hdrop]
  split
  · next hsized =>
    split
    · exact ⟨⟨hkept.data, hkept.length, hkept.read_closed⟩, .full (hmid.moved _ _ _) hsized hsome⟩
    · exact ⟨⟨hkept.data, hkept.length, hkept.read_closed⟩, hmid.moved _ _ _, hdrop⟩
  · exact ⟨hkept, hmid, hdrop⟩

theorem sound_turn (hcp : cp.recovering = compilePattern cp.pattern)
    (h : Mid cp.pattern stream g wire l.u l.mark l.state) (hbytes : l.u.data.drop l.mark = c :: bytes) :
    l.Sound cp stream g wire bytes c (l.turn cp c) := by
  rw [turn]
  split
  · next hc => exact sound_matched h hbytes hc
  · next hc =>
    split
    · next hstate => exact sound_plain h hbytes hc hstate
    · next hstate =>
      split
      · next hrecover => exact sound_recovered hcp h hbytes hc hrecover
      · next hrecover => exact sound_failed hcp h hbytes hc hstate hrecover

end Loop

/-- What the loop over the rest of the buffer keeps. -/
theorem outcome_readLoop {cp : CompiledPattern} {stream g wire bytes : Bytes} {l : Loop}
    (hcp : cp.recovering = compilePattern cp.pattern) (h : Mid cp.pattern stream g wire l.u l.mark l.state)
    (hbytes : l.u.data.drop l.mark = bytes) :
    l.u.Kept (readLoop cp bytes l).2.1 ∧ Outcome cp stream g wire (readLoop cp bytes l) := by
  fun_induction readLoop cp bytes l with
  | case1 l =>
    have hdry : l.u.data.length ≤ l.mark := drop_eq_nil_iff.mp hbytes
    exact ⟨⟨rfl, rfl, rfl⟩, .more (h.moved _ _ _) (Nat.le_antisymm h.held.inside hdry)⟩
  | case2 l c bytes l' hturn ih =>
    have hsound := Loop.sound_turn hcp h hbytes
    rw [hturn] at hsound
    obtain ⟨hkept, hmid, hdrop⟩ := hsound
    obtain ⟨hkept', houtcome⟩ := ih hmid hdrop
    exact ⟨hkept.trans hkept', houtcome⟩
  | case3 l c bytes l' hturn ih =>
    have hsound := Loop.sound_turn hcp h hbytes
    rw [hturn] at hsound
    obtain ⟨hkept, hmid, hdrop⟩ := hsound
    obtain ⟨hkept', houtcome⟩ := ih hmid hdrop
    exact ⟨hkept.trans hkept', houtcome⟩
  | case4 l c bytes u state hturn =>
    have hsound := Loop.sound_turn hcp h hbytes
    rwa [hturn] at hsound

/-- The filter, when there is something to read. -/
theorem outcome_readUntil {cp : CompiledPattern} {stream g wire : Bytes} {u : Upstream} {state : Nat}
    (hcp : cp.recovering = compilePattern cp.pattern) (hstate : cp.state = some state)
    (h : Mid cp.pattern stream g wire u u.pos state) :
    ∃ ok u' state', (if u.pos < u.data.length then readUntil cp u else (false, u, cp)) =
        (ok, u', { cp with state := state' }) ∧ u.Kept u' ∧ Outcome cp stream g wire (ok, u', state') := by
  split
  · obtain ⟨hkept, houtcome⟩ := @outcome_readLoop cp stream g wire _ ⟨u, 0, cp.state.getD 0⟩ hcp
      (by rwa [hstate]) rfl
    exact ⟨_, _, _, rfl, hkept, houtcome⟩
  · next hdry =>
    refine ⟨false, u, cp.state, rfl, ⟨rfl, rfl, rfl⟩, ?_⟩
    rw [hstate]
    exact .more h (Nat.le_antisymm h.held.inside (Nat.le_of_not_lt hdry))

/-! ## Reading -/

/-- The bytes that are still to be received. -/
def received (wire : List Arrival) : Bytes :=
  wire.flatMap fun
    | .bytes bs => bs
    | _ => []

variable {conf : Conf} {extra : Nat → Nat} {pat stream g wire : Bytes} {u : Upstream} {state : Nat}

/-- A new buffer goes on where the last one is full. -/
theorem mid_withRoom (h : Mid pat stream g wire u u.pos state) (hdry : u.pos = u.data.length) (more : Nat) :
    Mid pat stream g wire (u.withRoom conf more) (u.withRoom conf more).pos state := by
  rw [Upstream.withRoom]
  split
  · obtain ⟨hheld, consumed, hstream, hscan⟩ := h
    rw [hdry, drop_length, nil_append] at hstream hscan
    refine ⟨⟨Nat.le_refl _, Nat.le_refl _, ?_⟩, consumed, hstream, ?_⟩
    · rcases Nat.eq_zero_or_pos state with rfl | hpos
      · exact .inl ⟨rfl, rfl⟩
      · exact .inr ⟨rfl, Nat.le_refl _, hpos⟩
    · have hout : (u.addInputBuffer conf more).out = u.out := by
        simp [Upstream.out, Upstream.addInputBuffer, Upstream.buf_in]
      rw [hout]
      exact hscan
  · exact h

/-- Bytes come into the buffer. -/
theorem mid_append {bs wire' : Bytes} (h : Mid pat stream g (bs ++ wire') u u.pos state) :
    Mid pat stream g wire' { u with data := u.data ++ bs } u.pos state := by
  obtain ⟨hheld, consumed, hstream, hscan⟩ := h
  have hinside := hheld.inside
  have hlast := hheld.last_le
  have hordered := hheld.ordered
  have hdrop : (u.data ++ bs).drop u.pos ++ wire' = u.data.drop u.pos ++ (bs ++ wire') := by
    rw [drop_append_of_le_length hinside, append_assoc]
  have hout : ({ u with data := u.data ++ bs } : Upstream).out = u.out := by
    simp only [Upstream.out, Upstream.buf_in]
    rw [drop_append_of_le_length (by omega), take_append_of_le_length]
    rw [length_drop]
    omega
  refine ⟨⟨hordered, ?_, ?_⟩, consumed, ?_, ?_⟩
  · rw [length_append]
    omega
  · rcases hheld.behind with ⟨hmark, hdata⟩ | hshort
    · refine .inl ⟨hmark, ?_⟩
      dsimp only
      rw [drop_append_of_le_length (by omega), take_append_of_le_length, hdata]
      rw [length_drop]
      omega
    · exact .inr hshort
  · rw [hstream, hdrop]
  · rw [hout, hdrop]
    exact hscan

theorem mid_recv {bs wire' : Bytes} (h : Mid pat stream g (bs ++ wire') u u.pos state) (hdry : u.pos = u.data.length)
    (more : Nat) : Mid pat stream g ((u.recv conf more bs).2 ++ wire') (u.recv conf more bs).1
    (u.recv conf more bs).1.pos
      state := by
  have hroom := @mid_withRoom conf _ _ _ _ _ _ h hdry more
  simp only [Upstream.recv]
  refine mid_append ?_
  rwa [← append_assoc, take_append_drop]

theorem Upstream.fields_recv (u : Upstream) (conf : Conf) (more : Nat) (bs : Bytes) :
    (u.recv conf more bs).1.length = u.length ∧ (u.recv conf more bs).1.read_closed = u.read_closed := by
  simp only [recv, withRoom]
  split <;> exact ⟨rfl, rfl⟩

/-- What reading keeps. -/
structure ReadFrom (cp : CompiledPattern) (stream g : Bytes) (u : Upstream) (wire : List Arrival)
    (stop : Stop) (u' : Upstream) (cp' : CompiledPattern) (wire' : List Arrival) : Prop where
  same : ∃ state, cp' = { cp with state }
  length : u'.length = u.length
  outcome : Outcome cp stream g (received wire') (decide (stop = .ok), u', cp'.state)
  again : stop = .again → wire' = []
  shorter : wire'.length ≤ wire.length
  timeout : stop = .timeout → wire'.length < wire.length
  unclosed : (∀ a ∈ wire, a ≠ .closed) →
    stop ≠ .closed ∧ u'.read_closed = u.read_closed ∧ ∀ a ∈ wire', a ≠ .closed

theorem Outcome.cp_state {cp : CompiledPattern} {r : Bool × Upstream × Option Nat} {state : Option Nat}
    (h : Outcome cp stream g wire r) : Outcome { cp with state } stream g wire r := by
  cases h with
  | more mid dry => exact .more mid dry
  | full mid sized some_out => exact .full mid sized some_out
  | found inside found => exact .found inside found

theorem ReadFrom.before {cp cp' : CompiledPattern} {u' u'' : Upstream} {wire wire' wire'' : List Arrival}
    {stop : Stop}
    {state : Option Nat} (h : ReadFrom { cp with state } stream g u' wire' stop u'' cp' wire'')
    (hlength : u'.length = u.length) (hclosed : u'.read_closed = u.read_closed) (hle : wire'.length ≤ wire.length)
    (hopen : (∀ a ∈ wire, a ≠ .closed) → ∀ a ∈ wire', a ≠ .closed) :
    ReadFrom cp stream g u wire stop u'' cp' wire'' where
  same := h.same
  length := h.length.trans hlength
  outcome := h.outcome.cp_state
  again := h.again
  shorter := h.shorter.trans hle
  timeout htimeout := (h.timeout htimeout).trans_le hle
  unclosed hall := by
    obtain ⟨hstop, hread, hleft⟩ := h.unclosed (hopen hall)
    exact ⟨hstop, hread.trans hclosed, hleft⟩

theorem readFrom_tcpRead {cp : CompiledPattern} (hcp : cp.recovering = compilePattern cp.pattern)
    (hstate : cp.state = some state) (wire : List Arrival)
    (h : Mid cp.pattern stream g (received wire) u u.pos state) :
    ReadFrom cp stream g u wire (tcpRead conf extra cp u wire).1 (tcpRead conf extra cp u wire).2.1
      (tcpRead conf extra cp u wire).2.2.1 (tcpRead conf extra cp u wire).2.2.2 := by
  induction hn : weight wire using Nat.strongRecOn generalizing cp u wire state with
  | ind n ih =>
  obtain ⟨ok, u', state', hfilter, hkept, houtcome⟩ := outcome_readUntil hcp hstate h
  rw [tcpRead, hfilter]
  cases ok with
  | true =>
    exact ⟨⟨_, rfl⟩, hkept.length, houtcome, (by intro h; cases h), Nat.le_refl _, (by intro h; cases h),
      fun hopen => ⟨(by intro h; cases h), hkept.read_closed, hopen⟩⟩
  | false =>
    obtain ⟨hmid, hdry⟩ : (∃ state'', state' = some state'' ∧
      Mid cp.pattern stream g (received wire) u' u'.pos state'') ∧
        u'.pos = u'.data.length := by
      cases houtcome with
      | more mid dry => exact ⟨⟨_, rfl, mid⟩, dry⟩
    obtain ⟨state'', rfl, hmid⟩ := hmid
    have hcp' : CompiledPattern.recovering { cp with state := some state'' } = compilePattern cp.pattern := hcp
    rcases wire with _ | ⟨bs | _ | _, wire⟩
    · exact ⟨⟨_, rfl⟩, hkept.length, houtcome, fun _ => rfl, Nat.le_refl _, (by intro h; cases h),
        fun hopen => ⟨(by intro h; cases h), hkept.read_closed, hopen⟩⟩
    · rcases bs with _ | ⟨b, bs⟩
      · refine ReadFrom.before (ih (weight wire) ?_ hcp' rfl wire hmid rfl) hkept.length hkept.read_closed
          (le_succ _) fun hopen a ha => ?_
        · rw [← hn]
          simp [weight]
        · exact hopen a (mem_cons_of_mem _ ha)
      · have hleft := Upstream.length_recv_le u' conf (extra (weight wire + bs.length)) b bs
        obtain ⟨hlength, hclosed⟩ := Upstream.fields_recv u' conf (extra (weight wire + bs.length)) (b :: bs)
        refine ReadFrom.before (ih _ ?_ hcp' rfl _ (mid_recv hmid hdry _) rfl) (hlength.trans hkept.length)
          (hclosed.trans hkept.read_closed) (Nat.le_refl _) fun hopen a ha => ?_
        · rw [← hn]
          simp only [weight, map_cons, sum_cons, length_cons] at hleft ⊢
          omega
        · rcases mem_cons.mp ha with rfl | ha
          · intro h
            cases h
          · exact hopen a (mem_cons_of_mem _ ha)
    · exact ⟨⟨_, rfl⟩, hkept.length, houtcome, (by intro h; cases h), le_succ _, fun _ => lt_succ_self _,
        fun hopen => ⟨(by intro h; cases h), hkept.read_closed, fun a ha => hopen a (mem_cons_of_mem _ ha)⟩⟩
    · refine ⟨⟨_, rfl⟩, hkept.length, ?_, (by intro h; cases h), le_succ _, (by intro h; cases h),
        fun hopen => absurd rfl (hopen _ mem_cons_self)⟩
      obtain ⟨hheld, hscan⟩ := hmid
      exact .more ⟨⟨hheld.ordered, hheld.inside, hheld.behind⟩, hscan⟩ hdry

/-! ## The iterator -/

/-- Between two calls: nothing is collected, and what is left of `data` is unread. -/
structure Upstream.Idle (u : Upstream) : Prop where
  bufs_in : u.bufs_in = []
  in_pos : u.in_pos = u.pos
  in_last : u.in_last = u.pos
  inside : u.pos ≤ u.data.length

theorem Upstream.Idle.out {u : Upstream} (h : u.Idle) : u.out = [] := by
  rw [Upstream.out, h.bufs_in, buf_in_empty (h.in_pos.trans h.in_last.symm)]
  rfl

theorem Upstream.Idle.held {u : Upstream} (h : u.Idle) (pat : Bytes) (state : Nat) : u.Held pat u.pos state where
  ordered := Nat.le_of_eq (h.in_pos.trans h.in_last.symm)
  inside := h.inside
  behind := by
    rcases Nat.eq_zero_or_pos state with rfl | hpos
    · exact .inl ⟨h.in_last, rfl⟩
    · refine .inr ⟨h.in_pos.trans h.in_last.symm, Nat.le_of_eq h.in_last, ?_⟩
      rw [h.in_last, Nat.sub_self]
      exact hpos

/-- A call returns what was collected, and leaves the rest. -/
theorem idle_pushInputData (h : u.pos ≤ u.data.length) :
    u.pushInputData.1 = u.out ∧ u.pushInputData.2.Idle ∧
      u.pushInputData.2.data.drop u.pushInputData.2.pos = u.data.drop u.pos ∧
      u.pushInputData.2.read_closed = u.read_closed := by
  refine ⟨rfl, ?_⟩
  rw [Upstream.pushInputData]
  dsimp only
  split
  · next hdry => exact ⟨⟨rfl, rfl, rfl, Nat.le_refl _⟩, by rw [hdry, drop_length]; rfl, rfl⟩
  · exact ⟨⟨rfl, rfl, rfl, h⟩, rfl, rfl⟩

/-- What is not read yet: the rest of the buffer, and what is still to come. -/
def Socket.left (s : Socket) : Bytes := s.u.data.drop s.u.pos ++ received s.wire

/-- The stream does not end on an error of the socket. -/
def Socket.Open (s : Socket) : Prop := s.u.read_closed = false ∧ ∀ a ∈ s.wire, a ≠ .closed

/-- The pattern is still searched for. -/
structure Searching (stream g : Bytes) (s : Socket) (state : Nat) : Prop where
  recovering : s.cp.recovering = compilePattern s.cp.pattern
  cp_state : s.cp.state = some state
  idle : s.u.Idle
  scan : ∃ consumed, stream = consumed ++ s.left ∧ Scan s.cp.pattern g s.left state consumed

variable {s s' : Socket}

/-- The pattern was read. -/
structure Reached (stream g : Bytes) (s : Socket) (state : Option Nat) : Prop where
  cp_state : s.cp.state = state
  idle : s.u.Idle
  found : Found s.cp.pattern stream s.cp.inclusive g s.left

theorem Searching.mid (h : Searching stream g s state) (length rest : Nat) :
    Mid s.cp.pattern stream g (received s.wire) { s.u with length, rest } s.u.pos state := by
  obtain ⟨consumed, hstream, hscan⟩ := h.scan
  have hmid : Mid s.cp.pattern stream g (received s.wire) s.u s.u.pos state := by
    refine ⟨h.idle.held _ _, consumed, hstream, ?_⟩
    rw [h.idle.out, append_nil]
    exact hscan
  exact hmid.moved s.u.pos length rest

theorem Mid.searching {cp : CompiledPattern} {wire : List Arrival} (hcp : cp.recovering = compilePattern cp.pattern)
    (h : Mid cp.pattern stream g (received wire) u u.pos state) :
    Searching stream (g ++ u.pushInputData.1) ⟨{ cp with state := some state }, u.pushInputData.2, wire⟩ state := by
  obtain ⟨hheld, consumed, hstream, hscan⟩ := h
  obtain ⟨hpart, hidle, hdrop, -⟩ := idle_pushInputData hheld.inside
  refine ⟨hcp, rfl, hidle, consumed, ?_, ?_⟩
  · rw [Socket.left, hdrop]
    exact hstream
  · rw [Socket.left, hdrop, hpart]
    exact hscan

/-- What every call keeps. -/
structure Follows (s s' : Socket) : Prop where
  same : ∃ state, s'.cp = { s.cp with state }
  shorter : s'.wire.length ≤ s.wire.length
  opened : s.Open → s'.Open

theorem of_more {cp : CompiledPattern} {state : Option Nat} (h : Outcome cp stream g wire (false, u, state)) :
    ∃ s, state = some s ∧ Mid cp.pattern stream g wire u u.pos s ∧ u.pos = u.data.length := by
  cases h with
  | more mid dry => exact ⟨_, rfl, mid, dry⟩

/-- What a call of the iterator returns while the pattern is searched for. -/
def Sound (stream g : Bytes) (s : Socket) (bytes : Int) : Got × Socket → Prop
  | (.chunk bs, s') =>
    if bytes ≤ 0 then Reached stream (g ++ bs) s' (some 0)
    else Reached stream (g ++ bs) s' none ∨ bs ≠ [] ∧ ∃ state, Searching stream (g ++ bs) s' state
  | (.timeout part, s') => s'.wire.length < s.wire.length ∧ ∃ state, Searching stream (g ++ part) s' state
  | (.closed _, _) => ¬ s.Open
  | (.finished, _) => False
  | (.again, _) => ¬ s.cp.pattern <:+: stream

theorem sound_iterator {s : Socket} (h : Searching stream g s state) (bytes : Int) :
    Sound stream g s bytes (iterator conf extra s bytes) ∧ Follows s (iterator conf extra s bytes).2 := by
  rw [iterator]
  split
  · next hclosed =>
    refine ⟨?_, ⟨_, rfl⟩, Nat.le_refl _, id⟩
    rintro ⟨hopen, -⟩
    rw [hopen] at hclosed
    cases hclosed
  have hstate := h.cp_state
  rw [if_neg (by rw [hstate]; exact some_ne_none _)]
  have hread := @readFrom_tcpRead conf extra stream g _ _ s.cp h.recovering hstate s.wire
    (h.mid bytes.toNat bytes.toNat)
  dsimp only
  generalize tcpRead conf extra s.cp _ s.wire = r at hread ⊢
  obtain ⟨stop, u, cp, wire⟩ := r
  obtain ⟨⟨state', rfl⟩, hlength, houtcome, hagain, hshorter, htimeout, hunclosed⟩ := hread
  dsimp only at hlength houtcome hagain hshorter htimeout hunclosed ⊢
  have hopened : ∀ u', u'.read_closed = u.read_closed → s.Open →
    Socket.Open ⟨{ s.cp with state := state' }, u', wire⟩ :=
    fun u' hu hopen => by
      obtain ⟨-, hread, hleft⟩ := hunclosed hopen.2
      exact ⟨hu.trans (hread.trans hopen.1), hleft⟩
  cases stop with
  | again =>
    refine ⟨?_, ⟨_, rfl⟩, hshorter, hopened u rfl⟩
    obtain ⟨state'', -, ⟨-, consumed, hstream, hscan⟩, hdry⟩ := of_more houtcome
    rw [hagain rfl, hdry, drop_length] at hstream
    change ¬ s.cp.pattern <:+: stream
    rw [hstream]
    simpa [received] using hscan.unseen
  | timeout =>
    obtain ⟨state'', rfl, hmid, -⟩ := of_more houtcome
    have hread := (idle_pushInputData hmid.held.inside).2.2.2
    exact ⟨⟨htimeout rfl, state'', hmid.searching h.recovering⟩, ⟨_, rfl⟩, hshorter, hopened _ hread⟩
  | closed =>
    refine ⟨fun hopen => (hunclosed hopen.2).1 rfl, ⟨_, rfl⟩, hshorter, fun hopen => absurd rfl (hunclosed hopen.2).1⟩
  | ok =>
    cases houtcome with
    | full hmid hsized hsome =>
      have hread := (idle_pushInputData hmid.held.inside).2.2.2
      refine ⟨?_, ⟨_, rfl⟩, hshorter, hopened _ hread⟩
      have hpos : ¬ bytes ≤ 0 := by omega
      change if bytes ≤ 0 then _ else _
      rw [if_neg hpos]
      exact .inr ⟨hsome, _, hmid.searching h.recovering⟩
    | found hinside hfound =>
      obtain ⟨hpart, hidle, hdrop, hread⟩ := idle_pushInputData hinside
      refine ⟨?_, ⟨_, rfl⟩, hshorter, hopened _ hread⟩
      have hreached : ∀ state, Reached stream (g ++ u.pushInputData.1) ⟨{ s.cp with state }, u.pushInputData.2, wire⟩
          state := fun state => ⟨rfl, hidle, by rw [Socket.left, hdrop, hpart]; exact hfound⟩
      change if bytes ≤ 0 then _ else _
      by_cases hle : bytes ≤ 0
      · rw [if_pos hle, if_neg (show ¬ u.length ≠ 0 by omega)]
        exact hreached _
      · rw [if_neg hle, if_pos (show u.length ≠ 0 by omega)]
        exact .inl (hreached _)

variable {calls : List Int}

end OpenResty.NgxLua
