/-
`ngx.re.sub` and `ngx.re.gsub`: the loops of `ngx_http_lua_regex.c` and of
`resty.core.regex` over the matches in a subject.

The offsets of a match lie in a buffer of the compiled regex. When the regex is
in the cache, the calls that a callback makes may write there too.
-/
import OpenResty.Lib.Matches

namespace OpenResty.NgxLua.RegexSub

open Lib.Matches List

abbrev Bytes := List UInt8

/-- What a callback returns for a match, and what its own calls leave in the buffer
of the offsets, if they use it. -/
structure Call where
  piece : Bytes
  leaves : Option (Int × Int)

inductive Replacement
  /-- A template without `$`. -/
  | template (value : { value : Bytes // 36 ∉ value })
  | callback (f : Nat → Match → Call)

/-- What replaces the `k`-th match. -/
def Replacement.call : Replacement → Nat → Match → Call
  | .template value, _, _ => { piece := value.1, leaves := none }
  | .callback f, k, m => f k m

/-- `cap[0]` and `cap[1]`, as the match leaves them. -/
def ownOffsets (m : Match) : Int × Int := (m.start, m.stop)

/-- `cap[0]` and `cap[1]` after the call for a match. -/
def Call.offsets (call : Call) (shared : Bool) (m : Match) : Int × Int :=
  match shared, call.leaves with
  | true, some offsets => offsets
  | _, _ => ownOffsets m

inductive Failure
  | error (msg : String)
  /-- Memory outside of a string or a buffer is read or written. -/
  | wild

/-- A call: its subject, what is searched in it, what replaces a match, whether the
compiled regex is in the cache, and whether all matches are replaced. -/
structure Args where
  subj : Bytes
  engine : Engine subj.length
  replacement : Replacement
  shared : Bool
  global : Bool

/-- The regex engine refuses an offset outside of the subject. -/
def Args.exec (a : Args) (offset : Int) : Except Failure (Option Match) :=
  if 0 ≤ offset ∧ offset ≤ a.subj.length then .ok (a.engine.exec offset.toNat)
  else .error (.error "pcre_exec() failed: -24")

/-- The bytes of the subject between two offsets. -/
def Args.slice? (a : Args) (i j : Int) : Except Failure Bytes :=
  if 0 ≤ i ∧ i ≤ j ∧ j ≤ a.subj.length then .ok (slice a.subj i.toNat j.toNat) else .error .wild

/-- Where the search goes on. -/
def nextOffset (cap : Int × Int) : Int := if cap.2 = cap.1 then cap.2 + 1 else cap.2

/-- Whether the loop is left after a match. -/
def Args.leaves (a : Args) (cap : Int × Int) : Bool :=
  (decide (cap.2 = cap.1) && decide ((a.subj.length : Int) < cap.2 + 1)) || !a.global

/-! ## `ngx_http_lua_regex.c` -/

structure Progress where
  count : Nat
  offset : Int
  cp_offset : Int
  luabuf : Bytes

/-- The body of the loop of `ngx_http_lua_ngx_re_sub_helper`. -/
def subBody (a : Args) (l : Progress) : Except Failure (Progress ⊕ Progress) := do
  match ← a.exec l.offset with
  | none => return .inr l
  | some m =>
    let count := l.count + 1
    let call := a.replacement.call count m
    -- the offsets are read after the callback has returned
    let cap := call.offsets a.shared m
    let kept ← a.slice? l.cp_offset cap.1
    let l := { count, offset := nextOffset cap, cp_offset := cap.2, luabuf := l.luabuf ++ kept ++ call.piece }
    return if a.leaves cap then .inr l else .inl l

/-- The text and the count. -/
def subResult (a : Args) (l : Progress) : Except Failure (Bytes × Nat) :=
  if l.count = 0 then pure (a.subj, 0)
  else if l.offset < a.subj.length then do
    -- adding trailer
    let trailer ← a.slice? l.cp_offset a.subj.length
    return (l.luabuf ++ trailer, l.count)
  else pure (l.luabuf, l.count)

/-- `ngx_http_lua_ngx_re_sub_helper`; a loop that goes on for longer than the subject
does not end. -/
def ngx_re_sub_helper (a : Args) : Option (Except Failure (Bytes × Nat)) :=
  (loop (subBody a) (a.subj.length + 2) { count := 0, offset := 0, cp_offset := 0, luabuf := [] }).map fun r =>
    r.bind (subResult a)

/-! ## `resty.core.regex` -/

/-- `dst_buf`, whose length is `dst_buf_size`, `dst_pos` and `dst_len`. -/
structure Dst where
  buf : Bytes
  pos : Int
  len : Int

/-- `ffi_copy(dst_pos, piece, #piece)`, and the position behind it. -/
def Dst.copy (dst : Dst) (piece : Bytes) : Except Failure Dst :=
  if 0 ≤ dst.pos ∧ dst.pos + piece.length ≤ dst.buf.length then
    .ok { dst with
      buf := dst.buf.take dst.pos.toNat ++ piece ++ dst.buf.drop (dst.pos.toNat + piece.length)
      pos := dst.pos + piece.length }
  else .error .wild

/-- `check_buf_size` -/
def check_buf_size (buf_grow_ratio : Nat) (dst : Dst) (new_len : Int) : Except Failure Dst :=
  if new_len > dst.buf.length then
    let buf_size : Int := dst.buf.length * buf_grow_ratio
    let buf_size := if buf_size < new_len then new_len else buf_size
    if 0 ≤ dst.len ∧ dst.len ≤ dst.buf.length then
      .ok { buf := dst.buf.take dst.len.toNat ++ List.replicate (buf_size - dst.len).toNat 0, pos := dst.len, len := new_len }
    else .error .wild
  else .ok { dst with len := new_len }

structure CoreProgress where
  count : Nat
  pos : Int
  cp_pos : Int
  dst : Dst

/-- The part of the subject before a match and what replaces the match, written one
after the other. -/
def Args.write (a : Args) (buf_grow_ratio : Nat) (dst : Dst) (cp_pos prefix_len : Int) (piece : Bytes) :
    Except Failure Dst := do
  let dst ← check_buf_size buf_grow_ratio dst (dst.len + prefix_len + piece.length)
  let dst ← if prefix_len > 0 then a.slice? cp_pos (cp_pos + prefix_len) >>= dst.copy else pure dst
  if piece.length > 0 then dst.copy piece else pure dst

/-- The body of the loop of `re_sub_func_helper`. -/
def reSubFuncBody (buf_grow_ratio : Nat) (a : Args) (l : CoreProgress) : Except Failure (CoreProgress ⊕ CoreProgress) := do
  match ← a.exec l.pos with
  | none => return .inr l
  | some m =>
    let count := l.count + 1
    -- only the start of the match is read before the callback is called
    let prefix_len := (m.start : Int) - l.cp_pos
    let call := a.replacement.call count m
    let dst ← a.write buf_grow_ratio l.dst l.cp_pos prefix_len call.piece
    let cap := call.offsets a.shared m
    let l := { count, pos := nextOffset cap, cp_pos := cap.2, dst }
    return if a.leaves cap then .inr l else .inl l

/-- The body of the loop of `re_sub_str_helper`, for a template that has no variables. -/
def reSubStrBody (buf_grow_ratio : Nat) (a : Args) (value : Bytes) (l : CoreProgress) :
    Except Failure (CoreProgress ⊕ CoreProgress) := do
  match ← a.exec l.pos with
  | none => return .inr l
  | some m =>
    let count := l.count + 1
    let prefix_len := (m.start : Int) - l.cp_pos
    let dst ← a.write buf_grow_ratio l.dst l.cp_pos prefix_len value
    let cap := ownOffsets m
    let l := { count, pos := nextOffset cap, cp_pos := cap.2, dst }
    return if a.leaves cap then .inr l else .inl l

/-- `ffi_string(dst_buf, dst_len)` -/
def Dst.string (dst : Dst) : Except Failure Bytes :=
  if 0 ≤ dst.len ∧ dst.len ≤ dst.buf.length then .ok (dst.buf.take dst.len.toNat) else .error .wild

/-- The text and the count. -/
def reSubResult (buf_grow_ratio : Nat) (a : Args) (l : CoreProgress) : Except Failure (Bytes × Nat) :=
  if l.count > 0 then do
    let dst ←
      if l.pos < a.subj.length then do
        let suffix_len := (a.subj.length : Int) - l.cp_pos
        let dst ← check_buf_size buf_grow_ratio l.dst (l.dst.len + suffix_len)
        a.slice? l.cp_pos (l.cp_pos + suffix_len) >>= dst.copy
      else pure l.dst
    return (← dst.string, l.count)
  else pure (a.subj, 0)

/-- `re_sub_func_helper` and `re_sub_str_helper`, with what the buffer holds at first. -/
def re_sub_helper (buf_grow_ratio : Nat) (dst_buf : Bytes) (a : Args) : Option (Except Failure (Bytes × Nat)) :=
  let body :=
    match a.replacement with
    | .callback _ => reSubFuncBody buf_grow_ratio a
    | .template value => reSubStrBody buf_grow_ratio a value.1
  (loop body (a.subj.length + 2) { count := 0, pos := 0, cp_pos := 0, dst := { buf := dst_buf, pos := 0, len := 0 } }).map
    fun r => r.bind (reSubResult buf_grow_ratio a)

/-! What `ngx.re.sub` and `ngx.re.gsub` return, when the callback leaves the offsets
of the match alone. -/

/-! ## What the calls are to return -/

/-- The matches that are replaced. -/
def Args.chosen (a : Args) (p : Nat) : List Match := if a.global then found a.engine p else (found a.engine p).take 1

def Args.piece (a : Args) (k : Nat) (m : Match) : Bytes := (a.replacement.call k m).piece

/-- The subject with the matches replaced, and their number. -/
def Args.expected (a : Args) : Bytes × Nat := (splice a.subj a.piece (a.chosen 0), (a.chosen 0).length)

structure Right (a : Args) : Prop where
  sub : ngx_re_sub_helper a = some (.ok a.expected)
  core : ∀ buf_grow_ratio dst_buf, re_sub_helper buf_grow_ratio dst_buf a = some (.ok a.expected)

/-- After the calls for the matches, the `k`-th and on, the offsets of each are what they were. -/
def Undisturbed (a : Args) : Nat → List Match → Prop
  | _, [] => True
  | k, m :: ms => (a.replacement.call k m).offsets a.shared m = ownOffsets m ∧ Undisturbed a (k + 1) ms

/-- The last match is empty and lies before the last byte of the subject. -/
def Lost (a : Args) : Prop :=
  ∃ m, (a.chosen 0).getLast? = some m ∧ m.start = m.stop ∧ m.stop + 1 = a.subj.length

variable {a : Args}

/-! ## The matches -/

variable {cp fuel k p total : Nat}

theorem chosen_none (h : a.engine.exec p = none) : a.chosen p = [] := by
  rw [Args.chosen, found_none a.engine h]
  cases a.global <;> rfl

/-- The loop is left behind a match if and only if it is the last one. -/
theorem chosen_some {m : Match} (hp : p ≤ a.subj.length) (h : a.engine.exec p = some m) :
    (a.leaves (ownOffsets m) = true → a.chosen p = [m]) ∧
      (a.leaves (ownOffsets m) = false → m.next ≤ a.subj.length ∧ a.chosen p = m :: a.chosen m.next) := by
  obtain ⟨hstart, hstop, hn⟩ := a.engine.sound p m hp h
  rw [Args.leaves, ownOffsets, Args.chosen, Args.chosen, found_some a.engine hp h]
  cases a.global with
  | false => simp
  | true =>
    simp only [Bool.not_true, Bool.or_false, if_true, Bool.and_eq_true, decide_eq_true_eq, Bool.and_eq_false_imp,
      decide_eq_false_iff_not]
    refine ⟨fun ⟨heq, hlt⟩ => ?_, fun hmore => ⟨?_, trivial⟩⟩
    · rw [found_of_lt]
      rw [Match.next, if_pos (by omega)]
      omega
    · rw [Match.next]
      split
      · have := hmore (by omega)
        omega
      · exact hn

/-- A match that is found is replaced, so its offsets are undisturbed. -/
theorem undisturbed_own {m : Match} (hp : p ≤ a.subj.length) (h : a.engine.exec p = some m)
    (hundisturbed : Undisturbed a k (a.chosen p)) : (a.replacement.call k m).offsets a.shared m = ownOffsets m := by
  obtain ⟨hlast, hmore⟩ := chosen_some hp h
  cases hleaves : a.leaves (ownOffsets m) with
  | true =>
    rw [hlast hleaves] at hundisturbed
    exact hundisturbed.1
  | false =>
    rw [(hmore hleaves).2] at hundisturbed
    exact hundisturbed.1

theorem exec_eq (hp : p ≤ a.subj.length) : a.exec p = .ok (a.engine.exec p) := by
  rw [Args.exec, if_pos ⟨Int.natCast_nonneg p, Int.ofNat_le.mpr hp⟩, Int.toNat_natCast]

theorem slice?_eq {i j : Nat} (hij : i ≤ j) (hj : j ≤ a.subj.length) :
    a.slice? i j = .ok (slice a.subj i j) := by
  rw [Args.slice?, if_pos ⟨Int.natCast_nonneg i, Int.ofNat_le.mpr hij, Int.ofNat_le.mpr hj⟩, Int.toNat_natCast,
    Int.toNat_natCast]

theorem nextOffset_eq (m : Match) : nextOffset (ownOffsets m) = (m.next : Int) := by
  rw [nextOffset, ownOffsets, Match.next]
  by_cases h : m.stop = m.start
  · rw [if_pos h, if_pos (by rw [h])]
    rfl
  · rw [if_neg h, if_neg fun heq => h (Int.ofNat_inj.mp heq)]

/-! ## The loop in C -/

theorem loop_sub (luabuf : Bytes) (hcp : cp ≤ p) (hp : p ≤ a.subj.length)
    (hfuel : a.subj.length + 1 - p ≤ fuel) (h : Undisturbed a (k + 1) (a.chosen p)) :
    loop (subBody a) fuel { count := k, offset := p, cp_offset := cp, luabuf } =
      some (.ok { count := k + (a.chosen p).length, offset := lastNext p (a.chosen p),
                  cp_offset := lastStop cp (a.chosen p),
                  luabuf := luabuf ++ replaced a.subj a.piece cp (k + 1) (a.chosen p) }) := by
  induction fuel generalizing p cp k luabuf with
  | zero => omega
  | succ fuel ih =>
    rw [loop, subBody, exec_eq hp]
    cases hexec : a.engine.exec p with
    | none =>
      rw [chosen_none hexec]
      simp [bind, Except.bind, pure, Except.pure, lastNext, lastStop, replaced]
    | some m =>
      obtain ⟨hstart, hstop, hn⟩ := a.engine.sound p m hp hexec
      obtain ⟨hlast, hmore⟩ := chosen_some hp hexec
      have hcap := undisturbed_own hp hexec h
      simp only [bind, Except.bind, pure, Except.pure, hcap, show (ownOffsets m).1 = (m.start : Int) from rfl,
        slice?_eq (Nat.le_trans hcp hstart) (Nat.le_trans hstop hn),
        nextOffset_eq]
      cases hleaves : a.leaves (ownOffsets m) with
      | true =>
        rw [hlast hleaves]
        simp [lastNext, lastStop, replaced, Args.piece, ownOffsets]
      | false =>
        obtain ⟨hnext, hchosen⟩ := hmore hleaves
        rw [hchosen] at h ⊢
        have hgt := next_gt a.engine hp hexec
        have hle : m.stop ≤ m.next := by
          rw [Match.next]
          split <;> omega
        simp only [Bool.false_eq_true, if_false]
        rw [show (ownOffsets m).2 = (m.stop : Int) from rfl, ih _ hle hnext (by omega) h.2]
        simp [lastNext, lastStop, replaced, Args.piece, Nat.add_assoc, Nat.add_comm 1]

/-! ## The buffer of `resty.core` -/

/-- The buffer holds `out`, and there is room for `total` bytes. -/
structure Dst.Holds (dst : Dst) (out : Bytes) (total : Nat) : Prop where
  pos : dst.pos = out.length
  len : dst.len = total
  room : total ≤ dst.buf.length
  held : dst.buf.take out.length = out

variable {dst : Dst} {out : Bytes}

theorem Dst.Holds.length_le (h : dst.Holds out total) : out.length ≤ dst.buf.length := by
  have hlen := congrArg List.length h.held
  rw [length_take] at hlen
  omega

theorem check_buf_size_spec (h : dst.Holds out out.length) (buf_grow_ratio new_len : Nat)
    (hlen : out.length ≤ new_len) :
    ∃ dst', check_buf_size buf_grow_ratio dst new_len = .ok dst' ∧ dst'.Holds out new_len := by
  rw [check_buf_size]
  by_cases hroom : (new_len : Int) > dst.buf.length
  · have hle := h.length_le
    rw [if_pos hroom]
    simp only [h.len, Int.toNat_natCast]
    rw [if_pos ⟨Int.natCast_nonneg _, Int.ofNat_le.mpr hle⟩]
    refine ⟨_, rfl, rfl, rfl, ?_, ?_⟩
    · rw [length_append, length_take, length_replicate, Nat.min_eq_left hle]
      split <;> omega
    · rw [h.held, take_left]
  · rw [if_neg hroom]
    exact ⟨_, rfl, h.pos, rfl, Int.ofNat_le.mp (Int.not_lt.mp hroom), h.held⟩

theorem copy_spec (h : dst.Holds out total) (piece : Bytes)
    (hlen : out.length + piece.length ≤ total) :
    ∃ dst', dst.copy piece = .ok dst' ∧ dst'.Holds (out ++ piece) total := by
  have hroom := h.room
  rw [Dst.copy, h.pos, if_pos ⟨Int.natCast_nonneg _, by omega⟩, Int.toNat_natCast, h.held]
  refine ⟨_, rfl, ?_, h.len, ?_, ?_⟩
  · rw [length_append]
    rfl
  · simp only [length_append, length_drop]
    omega
  · rw [take_left]

theorem write_spec {start : Nat} (h : dst.Holds out out.length) (buf_grow_ratio : Nat)
    (piece : Bytes) (hcp : cp ≤ start) (hstart : start ≤ a.subj.length) :
    ∃ dst', a.write buf_grow_ratio dst cp (start - cp) piece = .ok dst' ∧
      dst'.Holds (out ++ slice a.subj cp start ++ piece) (out ++ slice a.subj cp start ++ piece).length := by
  have hslice : (slice a.subj cp start).length = start - cp := by
    rw [slice, length_drop, length_take, Nat.min_eq_left hstart]
  have htotal : (out ++ slice a.subj cp start ++ piece).length = out.length + (start - cp) + piece.length := by
    rw [length_append, length_append, hslice]
  have hnew : (dst.len + (start - cp : Int) + piece.length) = ((out.length + (start - cp) + piece.length : Nat) : Int) := by
    rw [h.len]
    omega
  obtain ⟨dst₁, hcheck, h₁⟩ := check_buf_size_spec h buf_grow_ratio (out.length + (start - cp) + piece.length) (by omega)
  -- the piece comes last, whether anything was kept before it or not
  have hpiece : ∀ dst₂ : Dst, dst₂.Holds (out ++ slice a.subj cp start) (out.length + (start - cp) + piece.length) →
      ∃ dst', (if piece.length > 0 then dst₂.copy piece else pure dst₂ : Except Failure Dst) = .ok dst' ∧
        dst'.Holds (out ++ slice a.subj cp start ++ piece) (out.length + (start - cp) + piece.length) := by
    intro dst₂ h₂
    by_cases hpos : piece.length > 0
    · rw [if_pos hpos]
      exact copy_spec h₂ piece (Nat.le_of_eq (by rw [length_append, hslice]))
    · have hnil : piece = [] := eq_nil_of_length_eq_zero (by omega)
      rw [if_neg hpos, hnil, append_nil]
      rw [hnil] at h₂
      exact ⟨dst₂, rfl, h₂⟩
  rw [Args.write, hnew, hcheck, htotal]
  simp only [bind, Except.bind]
  by_cases hpos : (start - cp : Int) > 0
  · obtain ⟨dst₂, hkept, h₂⟩ := copy_spec h₁ (slice a.subj cp start) (by omega)
    rw [if_pos hpos, show (cp + (start - cp) : Int) = start by omega, slice?_eq hcp hstart]
    simp only [hkept]
    exact hpiece dst₂ h₂
  · have hnil : slice a.subj cp start = [] := eq_nil_of_length_eq_zero (by omega)
    rw [if_neg hpos]
    exact hpiece dst₁ (by rw [hnil, append_nil]; exact h₁)

/-! ## The loop of `resty.core` -/

/-- The two loops are one when a template replaces the matches. -/
theorem reSubStrBody_eq {value : { value : Bytes // 36 ∉ value }} (h : a.replacement = .template value) (buf_grow_ratio : Nat) :
    reSubStrBody buf_grow_ratio a value.1 = reSubFuncBody buf_grow_ratio a := by
  funext l
  have hoffsets : ∀ k m, (a.replacement.call k m).offsets a.shared m = ownOffsets m := by
    intro k m
    rw [h]
    cases a.shared <;> rfl
  have hpiece : ∀ k m, (a.replacement.call k m).piece = value.1 := by
    intro k m
    rw [h]
    rfl
  simp only [reSubStrBody, reSubFuncBody, hoffsets, hpiece]

theorem loop_core {buf_grow_ratio : Nat} (hcp : cp ≤ p) (hp : p ≤ a.subj.length)
    (hfuel : a.subj.length + 1 - p ≤ fuel) (h : Undisturbed a (k + 1) (a.chosen p)) (hdst : dst.Holds out out.length) :
    ∃ dst', loop (reSubFuncBody buf_grow_ratio a) fuel { count := k, pos := p, cp_pos := cp, dst } =
        some (.ok { count := k + (a.chosen p).length, pos := lastNext p (a.chosen p), cp_pos := lastStop cp (a.chosen p),
                    dst := dst' }) ∧
      dst'.Holds (out ++ replaced a.subj a.piece cp (k + 1) (a.chosen p))
        (out ++ replaced a.subj a.piece cp (k + 1) (a.chosen p)).length := by
  induction fuel generalizing p cp k dst out with
  | zero => omega
  | succ fuel ih =>
    rw [loop, reSubFuncBody, exec_eq hp]
    cases hexec : a.engine.exec p with
    | none =>
      rw [chosen_none hexec]
      refine ⟨dst, rfl, ?_⟩
      rw [replaced, append_nil]
      exact hdst
    | some m =>
      obtain ⟨hstart, hstop, hn⟩ := a.engine.sound p m hp hexec
      obtain ⟨hlast, hmore⟩ := chosen_some hp hexec
      have hcap := undisturbed_own hp hexec h
      obtain ⟨dst₁, hwrite, hdst₁⟩ := write_spec hdst buf_grow_ratio (a.replacement.call (k + 1) m).piece
        (Nat.le_trans hcp hstart) (Nat.le_trans hstop hn)
      simp only [bind, Except.bind, pure, Except.pure, hcap, hwrite, nextOffset_eq]
      cases hleaves : a.leaves (ownOffsets m) with
      | true =>
        rw [hlast hleaves]
        refine ⟨dst₁, by simp [lastNext, lastStop, ownOffsets], ?_⟩
        rw [replaced, replaced, append_nil, ← append_assoc]
        exact hdst₁
      | false =>
        obtain ⟨hnext, hchosen⟩ := hmore hleaves
        rw [hchosen] at h ⊢
        have hgt := next_gt a.engine hp hexec
        have hle : m.stop ≤ m.next := by
          rw [Match.next]
          split <;> omega
        obtain ⟨dst₂, hloop, hdst₂⟩ := ih hle hnext (by omega) h.2 hdst₁
        simp only [Bool.false_eq_true, if_false]
        rw [show (ownOffsets m).2 = (m.stop : Int) from rfl, hloop]
        refine ⟨dst₂, by simp [lastNext, lastStop, Nat.add_assoc, Nat.add_comm 1], ?_⟩
        rw [replaced, ← append_assoc, ← append_assoc]
        exact hdst₂

/-! ## What is returned -/

/-- What both implementations append when the loop is left. -/
def Args.tail (a : Args) : Bytes :=
  if lastNext 0 (a.chosen 0) < a.subj.length then a.subj.drop (lastStop 0 (a.chosen 0)) else []

def Args.returned (a : Args) : Bytes × Nat :=
  (replaced a.subj a.piece 0 1 (a.chosen 0) ++ a.tail, (a.chosen 0).length)

theorem chosen_stop_le {m : Match} (h : m ∈ a.chosen 0) : m.start ≤ m.stop ∧ m.stop ≤ a.subj.length := by
  rw [Args.chosen] at h
  split at h
  · exact mem_found a.engine h
  · exact mem_found a.engine (mem_of_mem_take h)

theorem lastStop_le : lastStop 0 (a.chosen 0) ≤ a.subj.length := by
  cases h : (a.chosen 0).getLast? with
  | none =>
    rw [getLast?_eq_none_iff.mp h]
    exact Nat.zero_le _
  | some m =>
    rw [lastStop_eq h]
    exact (chosen_stop_le (mem_of_getLast? h)).2

/-- Without a match all of the subject is the tail. -/
theorem returned_of_nil (h : a.chosen 0 = []) : a.returned = (a.subj, 0) := by
  rw [Args.returned, Args.tail, h]
  simp only [lastNext, lastStop, replaced, drop_zero, nil_append, length_nil]
  split
  · rfl
  · next hlen => rw [eq_nil_of_length_eq_zero (Nat.le_zero.mp (Nat.not_lt.mp hlen))]

theorem ngx_re_sub_helper_eq (h : Undisturbed a 1 (a.chosen 0)) : ngx_re_sub_helper a = some (.ok a.returned) := by
  have hloop := loop_sub [] (Nat.le_refl 0) (Nat.zero_le _) (show a.subj.length + 1 - 0 ≤ a.subj.length + 2 by omega)
    (k := 0) h
  rw [ngx_re_sub_helper]
  simp only [Int.natCast_zero] at hloop
  rw [hloop]
  simp only [Option.map, Except.bind, subResult, Nat.zero_add, nil_append]
  by_cases hnil : (a.chosen 0).length = 0
  · rw [if_pos hnil, returned_of_nil (eq_nil_of_length_eq_zero hnil)]
    rfl
  · rw [if_neg hnil, Args.returned, Args.tail]
    by_cases hlt : lastNext 0 (a.chosen 0) < a.subj.length
    · rw [if_pos (Int.ofNat_lt.mpr hlt), if_pos hlt, slice?_eq lastStop_le (Nat.le_refl _), slice_end]
      rfl
    · rw [if_neg (fun h => hlt (Int.ofNat_lt.mp h)), if_neg hlt, append_nil]
      rfl

theorem string_spec (h : dst.Holds out out.length) : dst.string = .ok out := by
  rw [Dst.string, h.len, if_pos ⟨Int.natCast_nonneg _, Int.ofNat_le.mpr h.room⟩, Int.toNat_natCast, h.held]

theorem re_sub_helper_func (buf_grow_ratio : Nat) (dst_buf : Bytes) :
    re_sub_helper buf_grow_ratio dst_buf a =
      (loop (reSubFuncBody buf_grow_ratio a) (a.subj.length + 2)
        { count := 0, pos := 0, cp_pos := 0, dst := { buf := dst_buf, pos := 0, len := 0 } }).map
        fun r => r.bind (reSubResult buf_grow_ratio a) := by
  rw [re_sub_helper]
  cases h : a.replacement with
  | callback f => rfl
  | template value => rw [← reSubStrBody_eq h buf_grow_ratio]

theorem reSubResult_spec (h : dst.Holds out out.length) (buf_grow_ratio : Nat) {count : Nat}
    (hcount : count ≠ 0) (hcp : cp ≤ a.subj.length) :
    reSubResult buf_grow_ratio a { count, pos := p, cp_pos := cp, dst } =
      .ok (out ++ (if p < a.subj.length then a.subj.drop cp else []), count) := by
  rw [reSubResult, if_pos (Nat.pos_of_ne_zero hcount)]
  by_cases hp : p < a.subj.length
  · have hlen : (a.subj.drop cp).length = a.subj.length - cp := length_drop
    have hnew : dst.len + ((a.subj.length : Int) - cp) = ((out.length + (a.subj.length - cp) : Nat) : Int) := by
      rw [h.len]
      omega
    have htotal : (out ++ a.subj.drop cp).length = out.length + (a.subj.length - cp) := by rw [length_append, hlen]
    obtain ⟨dst₁, hcheck, h₁⟩ := check_buf_size_spec h buf_grow_ratio (out.length + (a.subj.length - cp)) (by omega)
    obtain ⟨dst₂, hcopy, h₂⟩ := copy_spec h₁ (a.subj.drop cp) (by omega)
    rw [← htotal] at h₂
    have hend : (cp + ((a.subj.length : Int) - cp) : Int) = a.subj.length := by omega
    rw [if_pos (Int.ofNat_lt.mpr hp), if_pos hp]
    simp only [hnew, hcheck, hend, bind, Except.bind, slice?_eq hcp (Nat.le_refl _), slice_end, hcopy, string_spec h₂,
      pure, Except.pure]
  · rw [if_neg (fun hlt => hp (Int.ofNat_lt.mp hlt)), if_neg hp, append_nil]
    simp only [bind, Except.bind, string_spec h, pure, Except.pure]

theorem re_sub_helper_eq (h : Undisturbed a 1 (a.chosen 0)) (buf_grow_ratio : Nat) (dst_buf : Bytes) :
    re_sub_helper buf_grow_ratio dst_buf a = some (.ok a.returned) := by
  have hempty : ({ buf := dst_buf, pos := 0, len := 0 } : Dst).Holds [] ([] : Bytes).length :=
    ⟨rfl, rfl, Nat.zero_le _, rfl⟩
  obtain ⟨dst, hloop, hdst⟩ := loop_core (Nat.le_refl 0) (Nat.zero_le _)
    (show a.subj.length + 1 - 0 ≤ a.subj.length + 2 by omega) (k := 0) h hempty
  rw [Int.natCast_zero] at hloop
  rw [nil_append, Nat.zero_add] at hdst
  rw [re_sub_helper_func, hloop, Option.map, Except.bind, Nat.zero_add]
  by_cases hnil : (a.chosen 0).length = 0
  · rw [reSubResult, if_neg (Nat.not_lt.mpr (Nat.le_of_eq hnil)), returned_of_nil (eq_nil_of_length_eq_zero hnil)]
    rfl
  · rw [reSubResult_spec hdst buf_grow_ratio hnil lastStop_le, Args.returned, Args.tail]

/-! ## When nothing is lost -/

/-- The rest of the subject is returned unless a byte of it is lost. -/
theorem tail_eq_iff : a.tail = a.subj.drop (lastStop 0 (a.chosen 0)) ↔ ¬ Lost a := by
  cases hlast : (a.chosen 0).getLast? with
  | none =>
    have hnil := getLast?_eq_none_iff.mp hlast
    have hlost : ¬ Lost a := fun ⟨m, hm, _⟩ => by simp [hlast] at hm
    refine ⟨fun _ => hlost, fun _ => ?_⟩
    rw [Args.tail, hnil]
    simp only [lastNext, lastStop, drop_zero]
    split
    · rfl
    · next hlen => rw [eq_nil_of_length_eq_zero (Nat.le_zero.mp (Nat.not_lt.mp hlen))]
  | some m =>
    obtain ⟨hstart, hstop⟩ := chosen_stop_le (mem_of_getLast? hlast)
    have hlost : Lost a ↔ m.start = m.stop ∧ m.stop + 1 = a.subj.length :=
      ⟨fun ⟨m', hm', hempty⟩ => Option.some.inj (hlast.symm.trans hm') ▸ hempty, fun hempty => ⟨m, hlast, hempty⟩⟩
    rw [Args.tail, lastStop_eq hlast, lastNext_eq hlast, hlost, Match.next]
    by_cases hempty : m.stop = m.start
    · rw [if_pos hempty]
      split
      · exact ⟨fun _ h => by omega, fun _ => rfl⟩
      · next hend =>
        rw [eq_comm, drop_eq_nil_iff]
        omega
    · rw [if_neg hempty]
      split
      · exact ⟨fun _ h => hempty h.1.symm, fun _ => rfl⟩
      · next hend =>
        rw [eq_comm, drop_eq_nil_iff]
        omega

/-- **With undisturbed offsets, `ngx.re.sub` and `ngx.re.gsub` keep every byte that is not replaced if
and only if the last replaced match is not an empty one just before the last byte.** -/
theorem subs_right_iff (a : Args) (h : Undisturbed a 1 (a.chosen 0)) : Right a ↔ ¬ Lost a := by
  have hsame : a.returned = a.expected ↔ a.tail = a.subj.drop (lastStop 0 (a.chosen 0)) := by
    rw [Args.returned, Args.expected, splice, Prod.mk.injEq, append_right_inj]
    exact and_iff_left rfl
  rw [← tail_eq_iff, ← hsame]
  constructor
  · intro hright
    have heq := (ngx_re_sub_helper_eq h).symm.trans hright.sub
    injection heq with heq
    injection heq
  · intro heq
    exact ⟨heq ▸ ngx_re_sub_helper_eq h, fun ratio buf => heq ▸ re_sub_helper_eq h ratio buf⟩

/-- Replaces the first of the empty matches of `/(?=a)/` in a subject. -/
def lookahead : Args where
  subj := [97]
  engine :=
    { exec := fun p => if p = 0 then some { start := 0, stop := 0, captures := [] } else none
      sound := by
        intro p m hp h
        split at h
        · cases h
          exact ⟨by omega, Nat.le_refl _, Nat.zero_le _⟩
        · cases h }
  replacement := .template ⟨[], not_mem_nil⟩
  shared := false
  global := false

theorem subs_lose_byte : ¬ ∀ a, Right a := by
  intro hright
  have hsub := (hright lookahead).sub
  have hlost : ngx_re_sub_helper lookahead = some (.ok ([], 1)) := by rfl
  have hexpected : lookahead.expected = ([97], 1) := by rfl
  rw [hlost, hexpected] at hsub
  cases hsub

/-- Replaces a letter by another. -/
def letter : Args where
  subj := [97]
  engine :=
    { exec := fun p => if p = 0 then some { start := 0, stop := 1, captures := [] } else none
      sound := by
        intro p m hp h
        split at h
        · cases h
          exact ⟨by omega, Nat.zero_le _, Nat.le_refl _⟩
        · cases h }
  replacement := .template ⟨[98], by decide⟩
  shared := true
  global := true

theorem letter_right : Right letter :=
  (subs_right_iff letter ⟨rfl, trivial⟩).mpr fun ⟨m, hlast, hempty, _⟩ => by
    obtain rfl : ({ start := 0, stop := 1, captures := [] } : Match) = m := Option.some.inj hlast
    exact absurd hempty (by decide)

end OpenResty.NgxLua.RegexSub
