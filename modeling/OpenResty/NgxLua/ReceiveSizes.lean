/-
The sizes of the chunks that `receiveuntil` returns.

Where a failed match recovers, what is given out is what is held back no more, and what is
subtracted from the remaining size is what stays held back.
-/
import OpenResty.NgxLua.ReceiveUntilFacts

namespace OpenResty.NgxLua

open Lib List

/-! ## Turns -/

/-- What a turn at `c` subtracts from the remaining size. -/
def Loop.subtracted (cp : CompiledPattern) (l : Loop) (c : UInt8) : Nat :=
  if l.u.length = 0 ∨ cp.pattern[l.state]? = some c then 0
  else if l.state = 0 then 1
  else
    match recover cp.recovering l.state c with
    | some state => if l.u.rest ≤ state then 0 else state
    | none => if l.u.rest ≤ l.state then 0 else l.state

/-- The turns of the filter, from what is left to read and where the loop is. -/
inductive Turns (cp : CompiledPattern) : Bytes → Loop → Bytes → Loop → Prop
  | refl (bytes : Bytes) (l : Loop) : Turns cp bytes l bytes l
  | next {c : UInt8} {bytes bytes' : Bytes} {l l' l'' : Loop} (hturn : l.turn cp c = .next l')
      (h : Turns cp bytes l' bytes' l'') : Turns cp (c :: bytes) l bytes' l''
  | again {c : UInt8} {bytes bytes' : Bytes} {l l' l'' : Loop} (hturn : l.turn cp c = .again l')
      (h : Turns cp (c :: bytes) l' bytes' l'') : Turns cp (c :: bytes) l bytes' l''

/-- The filter, if there is something to read. -/
def inputFilter (cp : CompiledPattern) (u : Upstream) : Bool × Upstream × CompiledPattern :=
  if u.pos < u.data.length then readUntil cp u else (false, u, cp)

/-- The states in which a call comes to the filter. -/
inductive Reads (conf : Conf) (extra : Nat → Nat) :
    CompiledPattern → Upstream → List Arrival → CompiledPattern → Upstream → List Arrival → Prop
  | refl (cp : CompiledPattern) (u : Upstream) (wire : List Arrival) : Reads conf extra cp u wire cp u wire
  | nothing {cp cp' cp'' : CompiledPattern} {u u' u'' : Upstream} {wire wire'' : List Arrival}
      (hfilter : inputFilter cp u = (false, u', cp')) (h : Reads conf extra cp' u' wire cp'' u'' wire'') :
      Reads conf extra cp u (.bytes [] :: wire) cp'' u'' wire''
  | bytes {cp cp' cp'' : CompiledPattern} {u u' u'' : Upstream} {b : UInt8} {bs : Bytes} {wire wire'' : List Arrival}
      (hfilter : inputFilter cp u = (false, u', cp'))
      (h : Reads conf extra cp' (u'.recv conf (extra (weight wire + bs.length)) (b :: bs)).1
        (.bytes (u'.recv conf (extra (weight wire + bs.length)) (b :: bs)).2 :: wire) cp'' u'' wire'') :
      Reads conf extra cp u (.bytes (b :: bs) :: wire) cp'' u'' wire''

/-- Calls that return, one after the other. -/
inductive Calls (conf : Conf) (extra : Nat → Nat) : Socket → Socket → Prop
  | refl (s : Socket) : Calls conf extra s s
  | call {s s' s'' : Socket} {bytes : Int} {got : Got} (h : Calls conf extra s s')
      (hcall : iterator conf extra s' bytes = (got, s'')) (hback : got ≠ .again) : Calls conf extra s s''

/-! ## The law -/

/-- While the pattern is not found, a call for `n` bytes returns `n` and fewer than a pattern more. -/
def SizeRight (conf : Conf) (extra : Nat → Nat) (s : Socket) (n : Nat) : Prop :=
  ∀ bs s', iterator conf extra s n = (.chunk bs, s') → s'.cp.state ≠ none →
    n ≤ bs.length ∧ bs.length < n + s.cp.pattern.length

/-- No turn of a call for `n` bytes subtracts more from the remaining size than there is. -/
def NeverUnderflows (conf : Conf) (extra : Nat → Nat) (s : Socket) (n : Nat) : Prop :=
  s.u.read_closed = false → s.cp.state ≠ none → ∀ cp u wire bytes c l,
    Reads conf extra s.cp { s.u with length := n, rest := n } s.wire cp u wire →
    Turns cp (u.data.drop u.pos) { u, i := 0, state := cp.state.getD 0 } (c :: bytes) l →
    l.subtracted cp c ≤ l.u.rest

/-- Whatever the stream, the buffers and the calls before, every chunk has the size asked for. -/
def SizesRight (pat : Bytes) (inclusive : Bool) : Prop :=
  ∀ conf extra u wire s n, Upstream.Idle u → Calls conf extra { cp := .new pat inclusive, u, wire } s → 0 < n →
    SizeRight conf extra s n ∧ NeverUnderflows conf extra s n

/-- Of what is matched of the pattern when a match recovers, as much stays matched, with the
character that comes, as does not. -/
def Balanced (pat : Bytes) : Prop :=
  ∀ s b c, Recovers pat s b c → (∀ t, b < t → t < s → pat.take t <:+ pat.take s → pat[t]? ≠ some c) → s = 2 * b + 1

/-! ## One turn -/

section

variable {cp : CompiledPattern} {stream g wire bytes : Bytes} {c : UInt8} {l : Loop} {n : Nat}

/-- How much is asked for: there is a rest, and what is given out and the rest are `n` if the
pattern is balanced. -/
structure Counting (pat : Bytes) (n : Nat) (u : Upstream) : Prop where
  length : u.length = n
  rest : 0 < u.rest
  count : Balanced pat → u.out.length + u.rest = n

/-- What a turn keeps, or returns. -/
def Counted (pat : Bytes) (n : Nat) : Turn → Prop
  | .next l' => Counting pat n l'.u
  | .again l' => Counting pat n l'.u
  | .done u state => state ≠ none → Balanced pat → n ≤ u.out.length ∧ u.out.length < n + pat.length

theorem counted_matched (hn : 0 < n) (h : Counting cp.pattern n l.u) : Counted cp.pattern n (l.matched cp) := by
  unfold Loop.matched
  dsimp only
  split
  · intro hstate
    have hlength : ∀ u : Upstream, u.length = l.u.length →
        (if u.length ≠ 0 then none else some 0 : Option Nat) = none := by
      intro u hu
      rw [if_pos]
      rw [hu, h.length]
      omega
    refine absurd (hlength _ ?_) hstate
    split
    · exact (Upstream.kept_addPendingData _ _ _ _ _).length
    · rfl
  · exact ⟨h.length, h.rest, h.count⟩

theorem counted_plain (hn : 0 < n) (hpat : 0 < cp.pattern.length)
    (hmid : Mid cp.pattern stream g wire l.u l.mark l.state)
    (hbytes : l.u.data.drop l.mark = c :: bytes) (hstate : l.state = 0) (h : Counting cp.pattern n l.u) :
    Counted cp.pattern n l.plain := by
  have hheld := hmid.held
  rw [hstate] at hheld
  obtain ⟨-, hout⟩ := Upstream.held_plain hheld hbytes
  have hlen : ∀ pos rest, (Upstream.out { l.u with in_last := l.u.in_last + 1, pos, rest }).length =
      l.u.out.length + 1 := by
    intro pos rest
    change (Upstream.out { l.u with in_last := l.u.in_last + 1 }).length = _
    rw [hout, length_append]
    rfl
  have hlength := h.length
  have hrest := h.rest
  unfold Loop.plain
  dsimp only
  rw [if_pos (by omega)]
  split
  · next hzero =>
    intro _ hbalanced
    have hcount := h.count hbalanced
    rw [hlen]
    omega
  · next hmore =>
    refine ⟨hlength, Nat.pos_of_ne_zero hmore, fun hbalanced => ?_⟩
    have hcount := h.count hbalanced
    dsimp only
    rw [hlen]
    omega

theorem counted_failed (hn : 0 < n) (hmid : Mid cp.pattern stream g wire l.u l.mark l.state)
    (h : Counting cp.pattern n l.u) : Counted cp.pattern n (l.failed cp) := by
  obtain ⟨hheld, consumed, -, hscan⟩ := hmid
  have hstate := hscan.state
  have hout := Upstream.out_addPendingData hheld (Nat.le_refl _)
  have hkept := l.u.kept_addPendingData l.mark cp.pattern l.state l.state
  have hrest : (l.u.addPendingData l.mark cp.pattern l.state l.state).rest = l.u.rest := by
    rw [Upstream.addPendingData]
    split <;> rfl
  have hlen : ∀ pos rest, (Upstream.out
    { l.u.addPendingData l.mark cp.pattern l.state l.state with pos, rest }).length =
      l.u.out.length + l.state := by
    intro pos rest
    change (l.u.addPendingData l.mark cp.pattern l.state l.state).out.length = _
    rw [hout, length_append, length_take, Nat.min_eq_left (Nat.le_of_lt hstate)]
  rw [Loop.failed, show l.u.pos + l.i = l.mark from rfl]
  have hlength := hkept.length.trans h.length
  have hpos := h.rest
  rw [if_pos (by omega)]
  split
  · next hle =>
    intro _ hbalanced
    have hcount := h.count hbalanced
    rw [hlen]
    omega
  · next hmore =>
    refine ⟨hlength, ?_, fun hbalanced => ?_⟩
    · dsimp only
      omega
    · have hcount := h.count hbalanced
      dsimp only
      rw [hlen]
      omega

theorem counted_recovered (hcp : cp.recovering = compilePattern cp.pattern) (hn : 0 < n)
    (hmid : Mid cp.pattern stream g wire l.u l.mark l.state) (hc : cp.pattern[l.state]? ≠ some c) {state : Nat}
    (hrecover : recover cp.recovering l.state c = some state) (h : Counting cp.pattern n l.u) :
    Counted cp.pattern n (l.recovered cp state) := by
  obtain ⟨hheld, consumed, -, hscan⟩ := hmid
  have hstate := hscan.state
  have hspec := recover_spec hscan.state hc
  rw [← hcp, hrecover] at hspec
  obtain ⟨b, rfl, hr, hmost⟩ := hspec
  have hbs := hr.lt
  have hbalance : Balanced cp.pattern → l.state = 2 * b + 1 := fun hbalanced => hbalanced l.state b c hr hmost
  have hout := Upstream.out_addPendingData hheld (Nat.sub_le l.state b)
  have hkept := l.u.kept_addPendingData l.mark cp.pattern (l.state - b) l.state
  have hrest : (l.u.addPendingData l.mark cp.pattern (l.state - b) l.state).rest = l.u.rest := by
    rw [Upstream.addPendingData]
    split <;> rfl
  have hlen : ∀ pos rest,
      (Upstream.out { l.u.addPendingData l.mark cp.pattern (l.state - b) l.state with pos, rest }).length =
      l.u.out.length + (l.state - b) := by
    intro pos rest
    change (l.u.addPendingData l.mark cp.pattern (l.state - b) l.state).out.length = _
    rw [hout, length_append, length_take, Nat.min_eq_left (by omega)]
  rw [Loop.recovered, show l.u.pos + l.i = l.mark from rfl, show l.state + 1 - (b + 1) = l.state - b by omega]
  have hlength := hkept.length.trans h.length
  have hpos := h.rest
  rw [if_pos (by omega)]
  split
  · next hle =>
    intro _ hbalanced
    have hcount := h.count hbalanced
    have hb := hbalance hbalanced
    rw [hlen]
    omega
  · next hmore =>
    refine ⟨hlength, ?_, fun hbalanced => ?_⟩
    · dsimp only
      omega
    · have hcount := h.count hbalanced
      have hb := hbalance hbalanced
      dsimp only
      rw [hlen]
      omega

theorem counted_turn (hcp : cp.recovering = compilePattern cp.pattern) (hn : 0 < n)
    (hmid : Mid cp.pattern stream g wire l.u l.mark l.state) (hbytes : l.u.data.drop l.mark = c :: bytes)
    (h : Counting cp.pattern n l.u) : Counted cp.pattern n (l.turn cp c) := by
  obtain ⟨consumed, -, hscan⟩ := hmid.scan
  have hpat := Nat.zero_lt_of_lt hscan.state
  rw [Loop.turn]
  split
  · exact counted_matched hn h
  · next hc =>
    split
    · next hstate => exact counted_plain hn hpat hmid hbytes hstate h
    · split
      · next hrecover => exact counted_recovered hcp hn hmid hc hrecover h
      · exact counted_failed hn hmid h

/-- As long as there is a rest, a turn does not subtract more. -/
theorem subtracted_le (h : Counting cp.pattern n l.u) : l.subtracted cp c ≤ l.u.rest := by
  have hrest := h.rest
  unfold Loop.subtracted
  split
  · exact Nat.zero_le _
  · split
    · exact hrest
    · split
      · split <;> omega
      · split <;> omega

/-! ## The filter -/

/-- Where the turns come to. -/
theorem Turns.counted (hcp : cp.recovering = compilePattern cp.pattern) (hn : 0 < n) {bytes' : Bytes} {l' : Loop}
    (h : Turns cp bytes l bytes' l') (hmid : Mid cp.pattern stream g wire l.u l.mark l.state)
    (hbytes : l.u.data.drop l.mark = bytes) (hcount : Counting cp.pattern n l.u) :
    Mid cp.pattern stream g wire l'.u l'.mark l'.state ∧ l'.u.data.drop l'.mark = bytes' ∧
      Counting cp.pattern n l'.u := by
  induction h with
  | refl bytes l => exact ⟨hmid, hbytes, hcount⟩
  | next hturn _ ih =>
    have hsound := Loop.sound_turn hcp hmid hbytes
    have hcounted := counted_turn hcp hn hmid hbytes hcount
    rw [hturn] at hsound hcounted
    exact ih hsound.2.1 hsound.2.2 hcounted
  | again hturn _ ih =>
    have hsound := Loop.sound_turn hcp hmid hbytes
    have hcounted := counted_turn hcp hn hmid hbytes hcount
    rw [hturn] at hsound hcounted
    exact ih hsound.2.1 hsound.2.2 hcounted

/-- The loop ends with the bytes, or with a turn that returns. -/
theorem readLoop_turns (cp : CompiledPattern) (bytes : Bytes) (l : Loop) :
    (∃ l', Turns cp bytes l [] l' ∧ readLoop cp bytes l = (false, l'.consumed, some l'.state)) ∨
      ∃ c bytes' l' u state, Turns cp bytes l (c :: bytes') l' ∧ l'.turn cp c = .done u state ∧
        readLoop cp bytes l = (true, u, state) := by
  fun_induction readLoop cp bytes l with
  | case1 l => exact .inl ⟨l, .refl _ _, rfl⟩
  | case2 l c bytes l' hturn ih =>
    rcases ih with ⟨l'', h, heq⟩ | ⟨c', bytes', l'', u, state, h, hdone, heq⟩
    · exact .inl ⟨l'', .next hturn h, heq⟩
    · exact .inr ⟨c', bytes', l'', u, state, .next hturn h, hdone, heq⟩
  | case3 l c bytes l' hturn ih =>
    rcases ih with ⟨l'', h, heq⟩ | ⟨c', bytes', l'', u, state, h, hdone, heq⟩
    · exact .inl ⟨l'', .again hturn h, heq⟩
    · exact .inr ⟨c', bytes', l'', u, state, .again hturn h, hdone, heq⟩
  | case4 l c bytes u state hturn => exact .inr ⟨c, bytes, l, u, state, .refl _ _, hturn, rfl⟩

end

section

variable {conf : Conf} {extra : Nat → Nat} {pat : Bytes} {n : Nat}

/-- A call for `n` bytes comes to the filter. -/
structure AtFilter (pat : Bytes) (n : Nat) (cp : CompiledPattern) (u : Upstream) (wire : List Arrival) : Prop where
  pattern : cp.pattern = pat
  recovering : cp.recovering = compilePattern cp.pattern
  mid : ∃ stream g state, cp.state = some state ∧ Mid cp.pattern stream g (received wire) u u.pos state
  counting : Counting cp.pattern n u

variable {u u' : Upstream}

/-- What the filter returns for a call of `n` bytes. -/
theorem inputFilter_spec {cp cp' : CompiledPattern} {wire : List Arrival} {ok : Bool} (hn : 0 < n)
    (h : AtFilter pat n cp u wire) (hfilter : inputFilter cp u = (ok, u', cp')) :
    if ok then cp'.state ≠ none → Balanced pat → n ≤ u'.out.length ∧ u'.out.length < n + pat.length
    else AtFilter pat n cp' u' wire ∧ u'.pos = u'.data.length := by
  by_cases hlt : u.pos < u.data.length
  · obtain ⟨hpattern, hcp, ⟨stream, g, state, hstate, hmid⟩, hcount⟩ := h
    obtain ⟨ok', u₁, state', heq, -, houtcome⟩ := outcome_readUntil hcp hstate hmid
    rw [inputFilter] at hfilter
    rw [hfilter] at heq
    cases heq
    rw [if_pos hlt, readUntil, hstate] at hfilter
    rcases readLoop_turns cp (u.data.drop u.pos) ⟨u, 0, state⟩ with ⟨l, hturns, hloop⟩ | ⟨c, bytes, l, u₂, state₂,
      hturns, hdone, hloop⟩
    · have hloop' : readLoop cp (u.data.drop u.pos) ⟨u, 0, (some state).getD 0⟩ = _ := hloop
      rw [hloop'] at hfilter
      cases hfilter
      obtain ⟨-, -, hcounting⟩ := hturns.counted hcp hn hmid rfl hcount
      obtain ⟨state'', hstate'', hmid', hdry⟩ := of_more houtcome
      exact ⟨⟨hpattern, hcp, ⟨stream, g, state'', hstate'', hmid'⟩,
        ⟨hcounting.length, hcounting.rest, hcounting.count⟩⟩, hdry⟩
    · have hloop' : readLoop cp (u.data.drop u.pos) ⟨u, 0, (some state).getD 0⟩ = _ := hloop
      rw [hloop'] at hfilter
      cases hfilter
      obtain ⟨hmid', hbytes, hcounting⟩ := hturns.counted hcp hn hmid rfl hcount
      have hcounted := counted_turn hcp hn hmid' hbytes hcounting
      rw [hdone] at hcounted
      rw [← hpattern]
      exact hcounted
  · rw [inputFilter, if_neg hlt] at hfilter
    cases hfilter
    obtain ⟨stream, g, state, hstate, hmid⟩ := h.mid
    exact ⟨h, Nat.le_antisymm hmid.held.inside (Nat.le_of_not_lt hlt)⟩

/-- What is received changes nothing that was collected. -/
theorem out_append {mark state : Nat} (h : u.Held pat mark state) (bs : Bytes) :
    Upstream.out { u with data := u.data ++ bs } = u.out := by
  have hinside := h.inside
  have hlast := h.last_le
  have hordered := h.ordered
  simp only [Upstream.out, Upstream.buf_in]
  rw [drop_append_of_le_length (by omega), take_append_of_le_length]
  rw [length_drop]
  omega

theorem counting_recv {stream g wire : Bytes} {state : Nat}
    (hmid : Mid pat stream g wire u u.pos state)
    (hdry : u.pos = u.data.length) (h : Counting pat n u) (more : Nat) (bs : Bytes) :
    Counting pat n (u.recv conf more bs).1 := by
  have hheld := (@mid_withRoom conf _ _ _ _ _ _ hmid hdry more).held
  have hroom : (u.withRoom conf more).out = u.out ∧ (u.withRoom conf more).length = u.length ∧
      (u.withRoom conf more).rest = u.rest := by
    rw [Upstream.withRoom]
    split
    · exact ⟨by simp [Upstream.out, Upstream.addInputBuffer, Upstream.buf_in], rfl, rfl⟩
    · exact ⟨rfl, rfl, rfl⟩
  obtain ⟨hout, hlength, hrest⟩ := hroom
  have happend := out_append hheld (bs.take ((u.withRoom conf more).size - (u.withRoom conf more).data.length))
  rw [hout] at happend
  refine ⟨hlength.trans h.length, ?_, fun hbalanced => ?_⟩
  · change 0 < (u.withRoom conf more).rest
    rw [hrest]
    exact h.rest
  · change (Upstream.out { u.withRoom conf more with data := _ }).length + (u.withRoom conf more).rest = n
    rw [happend, hrest]
    exact h.count hbalanced

/-- Every time a call comes to the filter. -/
theorem Reads.atFilter {cp cp' : CompiledPattern} {wire wire' : List Arrival} (hn : 0 < n)
    (hreads : Reads conf extra cp u wire cp' u' wire') (h : AtFilter pat n cp u wire) :
    AtFilter pat n cp' u' wire' := by
  induction hreads with
  | refl cp u wire => exact h
  | nothing hfilter _ ih =>
    obtain ⟨hat, -⟩ := inputFilter_spec hn h hfilter
    exact ih ⟨hat.pattern, hat.recovering, hat.mid, hat.counting⟩
  | bytes hfilter _ ih =>
    obtain ⟨⟨hpattern, hcp, ⟨stream, g, state, hstate, hmid⟩, hcount⟩, hdry⟩ := inputFilter_spec hn h hfilter
    exact ih ⟨hpattern, hcp, ⟨stream, g, state, hstate, @mid_recv conf _ _ _ _ _ _ _ hmid hdry _⟩,
      counting_recv hmid hdry hcount _ _⟩

/-- Reading that ends well ends with the filter. -/
theorem tcpRead_ok {cp cp' : CompiledPattern} {wire wire' : List Arrival}
    (h : tcpRead conf extra cp u wire = (.ok, u', cp', wire')) :
    ∃ cp₁ u₁ wire₁, Reads conf extra cp u wire cp₁ u₁ wire₁ ∧ inputFilter cp₁ u₁ = (true, u', cp') := by
  induction hw : weight wire using Nat.strongRecOn generalizing cp u wire with
  | ind w ih =>
  rw [tcpRead] at h
  rcases hfilter : inputFilter cp u with ⟨ok, u₁, cp₁⟩
  have hunfold : (if u.pos < u.data.length then readUntil cp u else (false, u, cp)) = (ok, u₁, cp₁) := hfilter
  rw [hunfold] at h
  cases ok with
  | true =>
    cases h
    exact ⟨cp, u, _, .refl _ _ _, hfilter⟩
  | false =>
    rcases wire with _ | ⟨bs | _ | _, wire⟩
    · cases h
    · rcases bs with _ | ⟨b, bs⟩
      · obtain ⟨cp₂, u₂, wire₂, hreads, hlast⟩ := ih (weight wire) (by rw [← hw]; simp [weight]) h rfl
        exact ⟨cp₂, u₂, wire₂, .nothing hfilter hreads, hlast⟩
      · have hleft := Upstream.length_recv_le u₁ conf (extra (weight wire + bs.length)) b bs
        have hless : weight (.bytes (u₁.recv conf (extra (weight wire + bs.length)) (b :: bs)).2 :: wire) < w := by
          rw [← hw]
          simp only [weight, map_cons, sum_cons, length_cons] at hleft ⊢
          omega
        obtain ⟨cp₂, u₂, wire₂, hreads, hlast⟩ := ih _ hless h rfl
        exact ⟨cp₂, u₂, wire₂, .bytes hfilter hreads, hlast⟩
    · cases h
    · cases h

/-! ## The calls -/

/-- Between two calls: the pattern was read, or it is searched for. -/
structure Ready (pat : Bytes) (s : Socket) : Prop where
  pattern : s.cp.pattern = pat
  recovering : s.cp.recovering = compilePattern s.cp.pattern
  idle : s.u.Idle
  searching : s.cp.state = none ∨ ∃ stream g state, Searching stream g s state

variable {s s' : Socket}

/-- The search begins anew. -/
theorem Ready.anew (hpat : pat ≠ []) (hpattern : s.cp.pattern = pat)
    (hcp : s.cp.recovering = compilePattern s.cp.pattern) (hidle : s.u.Idle) (hstate : s.cp.state = some 0) :
    Ready pat s := by
  refine ⟨hpattern, hcp, hidle, .inr ⟨s.left, [], 0, hcp, hstate, hidle, [], (nil_append _).symm, ?_⟩⟩
  exact Scan.start (by rw [hpattern]; exact hpat) _

/-- A call that fails leaves the search where it came to. -/
theorem closed_iterator {stream g part : Bytes} {state : Nat} {bytes : Int}
    (h : Searching stream g s state) (hcall : iterator conf extra s bytes = (.closed part, s')) :
    s' = s ∨ ∃ state, Searching stream (g ++ part) s' state := by
  rw [iterator] at hcall
  split at hcall
  · cases hcall
    exact .inl rfl
  have hstate := h.cp_state
  rw [if_neg (by rw [hstate]; exact Option.some_ne_none _)] at hcall
  have hread := @readFrom_tcpRead conf extra stream g _ _ s.cp h.recovering hstate s.wire
    (h.mid bytes.toNat bytes.toNat)
  dsimp only at hcall
  generalize tcpRead conf extra s.cp _ s.wire = r at hread hcall
  obtain ⟨stop, u, cp, wire⟩ := r
  obtain ⟨⟨state', rfl⟩, -, houtcome, -⟩ := hread
  dsimp only at houtcome hcall
  cases stop with
  | closed =>
    obtain ⟨state'', rfl, hmid, -⟩ := of_more houtcome
    cases hcall
    exact .inr ⟨state'', hmid.searching h.recovering⟩
  | ok => cases hcall
  | timeout => cases hcall
  | again => cases hcall

theorem ready_iterator (hpat : pat ≠ []) {bytes : Int} {got : Got} (h : Ready pat s)
    (hcall : iterator conf extra s bytes = (got, s')) (hback : got ≠ .again) : Ready pat s' := by
  have hready := h
  obtain ⟨hpattern, hcp, hidle, hnone | ⟨stream, g, state, hsearching⟩⟩ := h
  · rw [iterator] at hcall
    split at hcall
    · cases hcall
      exact hready
    · cases hcall
      exact .anew hpat hpattern hcp hidle rfl
  · obtain ⟨hsound, ⟨state', hsame⟩, -⟩ := @sound_iterator conf extra stream g state s hsearching bytes
    rw [hcall] at hsound hsame
    dsimp only at hsame
    have hpattern' : s'.cp.pattern = pat := by rw [hsame]; exact hpattern
    have hcp' : s'.cp.recovering = compilePattern s'.cp.pattern := by rw [hsame]; exact hcp
    have hreached : ∀ g' state, Reached stream g' s' state → state = none ∨ state = some 0 → Ready pat s' := by
      rintro g' state hreached (rfl | rfl)
      · exact ⟨hpattern', hcp', hreached.idle, .inl hreached.cp_state⟩
      · exact .anew hpat hpattern' hcp' hreached.idle hreached.cp_state
    have hgoes : ∀ g' state, Searching stream g' s' state → Ready pat s' :=
      fun g' state hs => ⟨hpattern', hcp', hs.idle, .inr ⟨stream, g', state, hs⟩⟩
    cases got with
    | chunk bs =>
      change if bytes ≤ 0 then _ else _ at hsound
      split at hsound
      · exact hreached _ _ hsound (.inr rfl)
      · rcases hsound with hsound | ⟨-, state'', hsound⟩
        · exact hreached _ _ hsound (.inl rfl)
        · exact hgoes _ _ hsound
    | timeout part =>
      obtain ⟨-, state'', hsound⟩ := hsound
      exact hgoes _ _ hsound
    | closed part =>
      rcases closed_iterator hsearching hcall with rfl | ⟨state'', hsound⟩
      · exact hready
      · exact hgoes _ _ hsound
    | finished => exact hsound.elim
    | again => exact absurd rfl hback

theorem Calls.ready (hpat : pat ≠ []) (hcalls : Calls conf extra s s') (h : Ready pat s) : Ready pat s' := by
  induction hcalls with
  | refl => exact h
  | call _ hcall hback ih => exact ready_iterator hpat ih hcall hback

/-- A call for `n` bytes begins to read. -/
theorem Ready.atFilter (h : Ready pat s) (hstate : s.cp.state ≠ none) (hn : 0 < n) :
    AtFilter pat n s.cp { s.u with length := n, rest := n } s.wire := by
  obtain ⟨hpattern, hcp, hidle, hnone | ⟨stream, g, state, hsearching⟩⟩ := h
  · exact absurd hnone hstate
  · refine ⟨hpattern, hcp, ⟨stream, g, state, hsearching.cp_state, hsearching.mid n n⟩, rfl, hn, fun _ => ?_⟩
    have hout : Upstream.out { s.u with length := n, rest := n } = s.u.out := rfl
    rw [hout, hidle.out]
    exact Nat.zero_add n

theorem neverUnderflows (h : Ready pat s) (hn : 0 < n) : NeverUnderflows conf extra s n := by
  intro _ hstate cp u wire bytes c l hreads hturns
  obtain ⟨-, hcp, ⟨stream, g, state, hstate', hmid⟩, hcount⟩ := hreads.atFilter hn (h.atFilter hstate hn)
  rw [hstate'] at hturns
  exact subtracted_le (hturns.counted hcp hn hmid rfl hcount).2.2

theorem sizeRight_of_balanced (hbalanced : Balanced pat) (h : Ready pat s) (hn : 0 < n) :
    SizeRight conf extra s n := by
  intro bs s' hcall hfound
  rw [iterator] at hcall
  split at hcall
  · cases hcall
  split at hcall
  · cases hcall
  next hstate =>
  dsimp only at hcall
  rw [Int.toNat_natCast] at hcall
  rcases htcp : tcpRead conf extra s.cp { s.u with length := n, rest := n } s.wire with ⟨stop, u, cp, wire⟩
  rw [htcp] at hcall
  dsimp only at hcall
  cases stop with
  | ok =>
    obtain ⟨cp₁, u₁, wire₁, hreads, hfilter⟩ := tcpRead_ok htcp
    have hspec := inputFilter_spec hn (hreads.atFilter hn (h.atFilter hstate hn)) hfilter
    cases hcall
    rw [h.pattern]
    exact hspec hfound hbalanced
  | again => cases hcall
  | timeout => cases hcall
  | closed => cases hcall

end

end OpenResty.NgxLua
