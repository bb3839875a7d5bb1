/-
When the chunks of `receiveuntil` have the size asked for: only if the pattern is balanced.

A match that recovers again and again gives out `s - b` bytes and subtracts `b + 1` each time.
-/
import OpenResty.NgxLua.ReceiveSizes

namespace OpenResty.NgxLua

open Lib List Option Nat

/-! ## Patterns that are not balanced -/

section

variable {cp : CompiledPattern} {u : Upstream}

variable {c : UInt8}

theorem readLoop_next {l l' : Loop} (h : l.turn cp c = .next l') (bytes : Bytes) :
    readLoop cp (c :: bytes) l = readLoop cp bytes l' := by
  rw [readLoop]
  split
  · next l₁ hturn =>
    rw [h] at hturn
    cases hturn
    rfl
  · next l₁ hturn =>
    rw [h] at hturn
    cases hturn
  · next u state hturn =>
    rw [h] at hturn
    cases hturn

theorem readLoop_done {l : Loop} {state : Option Nat} (h : l.turn cp c = .done u state) (bytes : Bytes) :
    readLoop cp (c :: bytes) l = (true, u, state) := by
  rw [readLoop]
  split
  · next l₁ hturn =>
    rw [h] at hturn
    cases hturn
  · next l₁ hturn =>
    rw [h] at hturn
    cases hturn
  · next u₁ state₁ hturn =>
    rw [h] at hturn
    cases hturn
    rfl

/-- The loop reads what continues the match. -/
theorem readLoop_matched {s : Nat} (hs : s < cp.pattern.length) (rest : Bytes) (i k : Nat) {j : Nat}
    (hj : j + k = s) :
    readLoop cp ((cp.pattern.drop j).take k ++ rest) ⟨u, i, j⟩ = readLoop cp rest ⟨u, i + k, s⟩ := by
  induction k generalizing i j with
  | zero =>
    obtain rfl : j = s := hj
    rw [take_zero]
    rfl
  | succ k ih =>
    have hlt : j < cp.pattern.length := by omega
    have hturn : Loop.turn cp ⟨u, i, j⟩ cp.pattern[j] = .next ⟨u, i + 1, j + 1⟩ := by
      unfold Loop.turn
      rw [if_pos (getElem?_eq_getElem hlt)]
      unfold Loop.matched
      exact if_neg (by dsimp only; omega)
    rw [drop_eq_getElem_cons hlt, take_succ_cons, cons_append, readLoop_next hturn,
      ih (i + 1) (by omega), Nat.add_assoc, Nat.add_comm 1 k]

/-- The edge on which a match recovers. -/
theorem recover_longest {pat : Bytes} {s b : Nat} (hr : Recovers pat s b c)
    (hmost : ∀ t, b < t → t < s → pat.take t <:+ pat.take s → pat[t]? ≠ some c) :
    recover (compilePattern pat) s c = some (b + 1) := by
  have hspec := recover_spec hr.state hr.differ
  cases hrecover : recover (compilePattern pat) s c with
  | none =>
    rw [hrecover] at hspec
    exact absurd hr.next (hspec b hr.pos hr.lt hr.border)
  | some state =>
    rw [hrecover] at hspec
    obtain ⟨b', rfl, hr', hmost'⟩ := hspec
    rcases Nat.lt_trichotomy b b' with hlt | rfl | hlt
    · exact absurd hr'.next (hmost b' hlt hr'.lt hr'.border)
    · rfl
    · exact absurd hr.next (hmost' b hlt hr.lt hr.border)

/-- What follows a recovered match up to the next one, and the character on which it recovers. -/
def recoverAgain (pat : Bytes) (s b : Nat) (c : UInt8) : Nat → Bytes
  | 0 => []
  | k + 1 => (pat.drop (b + 1)).take (s - (b + 1)) ++ c :: recoverAgain pat s b c k

theorem length_recoverAgain {pat : Bytes} {s b : Nat} (hr : Recovers pat s b c) (k : Nat) :
    (recoverAgain pat s b c k).length = k * (s - b) := by
  have hlt := hr.lt
  have hstate := hr.state
  induction k with
  | zero => rw [Nat.zero_mul]; rfl
  | succ k ih =>
    have hlen : ((pat.drop (b + 1)).take (s - (b + 1))).length = s - (b + 1) := by
      rw [length_take, length_drop]
      omega
    rw [recoverAgain, length_append, length_cons, ih, hlen, succ_mul]
    omega

/-- The turn on which the match recovers. -/
theorem turn_recovers {s b : Nat} (hcp : cp.recovering = compilePattern cp.pattern)
    (hr : Recovers cp.pattern s b c)
    (hmost : ∀ t, b < t → t < s → cp.pattern.take t <:+ cp.pattern.take s → cp.pattern[t]? ≠ some c) {i : Nat}
    (hlength : u.length ≠ 0) (hlast : u.pos + i - u.in_last = s) :
    Loop.turn cp ⟨u, i, s⟩ c =
      if u.rest ≤ b + 1 then .done { u with in_last := u.in_last + (s - b), rest := 0, pos := u.pos + (i + 1) }
        (some (b + 1))
      else .next ⟨{ u with in_last := u.in_last + (s - b), rest := u.rest - (b + 1) }, i + 1, b + 1⟩ := by
  have hpos := hr.pos
  have hlt := hr.lt
  have hrecover : recover cp.recovering s c = some (b + 1) := by rw [hcp, recover_longest hr hmost]
  have hadd : u.addPendingData (u.pos + i) cp.pattern (s + 1 - (b + 1)) s =
    { u with in_last := u.in_last + (s - b) } := by
    unfold Upstream.addPendingData
    rw [if_pos hlast, show s + 1 - (b + 1) = s - b by omega]
  unfold Loop.turn
  dsimp only
  rw [if_neg hr.differ, if_neg (by omega), hrecover]
  dsimp only
  unfold Loop.recovered
  dsimp only
  rw [hadd]
  dsimp only
  rw [if_pos hlength]

/-- Every time the match recovers `s - b` are given out, and `b + 1` are subtracted. -/
theorem readLoop_recoverAgain {s b : Nat} {c : UInt8} (hcp : cp.recovering = compilePattern cp.pattern)
    (hr : Recovers cp.pattern s b c)
    (hmost : ∀ t, b < t → t < s → cp.pattern.take t <:+ cp.pattern.take s → cp.pattern[t]? ≠ some c) (k : Nat)
    {u : Upstream} {i : Nat} (hlength : u.length ≠ 0) (hlast : u.in_last + s = u.pos + i)
    (hrest : u.rest = (k + 1) * (b + 1)) :
    readLoop cp (c :: recoverAgain cp.pattern s b c k) ⟨u, i, s⟩ =
      (true, { u with in_last := u.in_last + (k + 1) * (s - b), rest := 0, pos := u.pos + (i + 1) + k * (s - b) },
        some (b + 1)) := by
  have hlt := hr.lt
  have hturn := turn_recovers hcp hr hmost hlength (show u.pos + i - u.in_last = s by omega)
  induction k generalizing u i with
  | zero =>
    rw [if_pos (by omega)] at hturn
    rw [readLoop_done hturn]
    simp
  | succ k ih =>
    have hmore : ¬ u.rest ≤ b + 1 := by
      rw [hrest, succ_mul]
      have hpos : 0 < (k + 1) * (b + 1) := Nat.mul_pos (succ_pos k) (succ_pos b)
      omega
    rw [if_neg hmore] at hturn
    rw [readLoop_next hturn, recoverAgain, readLoop_matched hr.state _ _ _ (by omega)]
    have hrest' : u.rest - (b + 1) = (k + 1) * (b + 1) := by
      rw [hrest, succ_mul]
      omega
    have hnext := ih (u := { u with in_last := u.in_last + (s - b), rest := u.rest - (b + 1) })
      (i := i + 1 + (s - (b + 1))) hlength (by dsimp only; omega) hrest'
      (turn_recovers hcp hr hmost hlength (by dsimp only; omega))
    rw [hnext]
    have hsum : (k + 1 + 1) * (s - b) = (k + 1) * (s - b) + (s - b) := succ_mul _ _
    have hsum' : (k + 1) * (s - b) = k * (s - b) + (s - b) := succ_mul _ _
    simp only [Prod.mk.injEq, Upstream.mk.injEq, true_and, and_true]
    constructor <;> omega

end

/-- A call whose reading ends well returns what was collected. -/
theorem iterator_ok {conf : Conf} {extra : Nat → Nat} {s : Socket} {n : Nat} {u : Upstream} {cp : CompiledPattern}
    {wire : List Arrival} (hopen : s.u.read_closed = false) (hstate : s.cp.state ≠ none)
    (htcp : tcpRead conf extra s.cp { s.u with length := n, rest := n } s.wire = (.ok, u, cp, wire)) :
    iterator conf extra s n = (.chunk u.pushInputData.1, ⟨cp, u.pushInputData.2, wire⟩) := by
  unfold iterator
  dsimp only
  rw [Int.toNat_natCast, htcp, hopen, if_neg Bool.false_ne_true, if_neg hstate]
  rfl

/-- A buffer in which a match recovers `k + 1` times. -/
def recoveringBuffer (pat : Bytes) (s b : Nat) (c : UInt8) (k : Nat) : Upstream where
  bufs_in := []
  data := pat.take s ++ c :: recoverAgain pat s b c k
  size := s + 1 + k * (s - b)
  pos := 0
  in_pos := 0
  in_last := 0
  length := 0
  rest := 0
  read_closed := false

/-- A call for `b + 1` bytes each time returns `s - b` each time. -/
theorem iterator_recoveringBuffer (conf : Conf) (extra : Nat → Nat) (inclusive : Bool) {pat : Bytes}
    {s b : Nat} {c : UInt8}
    (hr : Recovers pat s b c) (hmost : ∀ t, b < t → t < s → pat.take t <:+ pat.take s → pat[t]? ≠ some c) (k : Nat) :
    ∃ bs s', iterator conf extra ⟨.new pat inclusive, recoveringBuffer pat s b c k, []⟩ ((k + 1) * (b + 1) : Nat) =
      (.chunk bs, s') ∧ s'.cp.state = some (b + 1) ∧ bs.length = (k + 1) * (s - b) := by
  have hpos := hr.pos
  have hlt := hr.lt
  have hstate := hr.state
  let n := (k + 1) * (b + 1)
  have hn : n ≠ 0 := Nat.pos_iff_ne_zero.mp (Nat.mul_pos (succ_pos k) (succ_pos b))
  let u : Upstream := { recoveringBuffer pat s b c k with length := n, rest := n }
  have hdata : u.data = (pat.drop 0).take s ++ c :: recoverAgain pat s b c k := rfl
  have hlen : u.data.length = s + 1 + k * (s - b) := by
    rw [hdata, length_append, length_cons, length_recoverAgain hr, length_take, drop_zero]
    omega
  have hloop : readLoop (.new pat inclusive) (u.data.drop u.pos) ⟨u, 0, 0⟩ =
      (true, { u with in_last := u.in_last + (k + 1) * (s - b), rest := 0, pos := u.pos + (0 + s + 1) + k * (s - b) },
        some (b + 1)) := by
    have hdrop : u.data.drop u.pos = (pat.drop 0).take s ++ c :: recoverAgain pat s b c k := rfl
    rw [hdrop]
    have hmatched := @readLoop_matched (.new pat inclusive) u s hstate (c :: recoverAgain pat s b c k) 0 s 0
      (Nat.zero_add s)
    exact hmatched.trans (@readLoop_recoverAgain (.new pat inclusive) s b c rfl hr hmost k u (0 + s) hn
      (Nat.zero_add (0 + s)).symm rfl)
  have hfilter : inputFilter (.new pat inclusive) u = (true, { u with
      in_last := u.in_last + (k + 1) * (s - b), rest := 0, pos := u.pos + (0 + s + 1) + k * (s - b) },
      { CompiledPattern.new pat inclusive with state := some (b + 1) }) := by
    have hread : readUntil (.new pat inclusive) u = (true, { u with
        in_last := u.in_last + (k + 1) * (s - b), rest := 0, pos := u.pos + (0 + s + 1) + k * (s - b) },
        { CompiledPattern.new pat inclusive with state := some (b + 1) }) := by
      unfold readUntil
      have hloop' : readLoop (.new pat inclusive) (u.data.drop u.pos)
        ⟨u, 0, (CompiledPattern.new pat inclusive).state.getD 0⟩ = _ := hloop
      rw [hloop']
    unfold inputFilter
    rw [hread]
    refine if_pos ?_
    rw [hlen]
    change 0 < _
    omega
  have htcp : tcpRead conf extra (.new pat inclusive) u [] = (.ok, { u with
      in_last := u.in_last + (k + 1) * (s - b), rest := 0, pos := u.pos + (0 + s + 1) + k * (s - b) },
      { CompiledPattern.new pat inclusive with state := some (b + 1) }, []) := by
    rw [tcpRead]
    rw [inputFilter] at hfilter
    rw [hfilter]
    rfl
  have hcall := iterator_ok (s := ⟨.new pat inclusive, recoveringBuffer pat s b c k, []⟩) (n := n) rfl
    (some_ne_none 0) htcp
  have hout : (0 + (k + 1) * (s - b) - 0) = (k + 1) * (s - b) := by omega
  refine ⟨_, _, hcall, rfl, ?_⟩
  change (((u.data.drop 0).take (0 + (k + 1) * (s - b) - 0))).length = _
  rw [hout, length_take, drop_zero, hlen, Nat.min_eq_left]
  rw [succ_mul]
  omega

/-- The sizes are right only if the pattern is balanced: else a match that recovers often enough
gives out too much or too little. -/
theorem balanced_of_sizesRight {pat : Bytes} {inclusive : Bool} (h : SizesRight pat inclusive) : Balanced pat := by
  intro s b c hr hmost
  by_contra hne
  have hpos := hr.pos
  have hlt := hr.lt
  have hstate := hr.state
  obtain ⟨bs, s', hcall, hcp, hlen⟩ :=
    iterator_recoveringBuffer ⟨1, Nat.one_pos⟩ (fun _ => 0) inclusive hr hmost (pat.length - 1)
  have hidle : (recoveringBuffer pat s b c (pat.length - 1)).Idle := ⟨rfl, rfl, rfl, Nat.zero_le _⟩
  have hk : pat.length - 1 + 1 = pat.length := by omega
  rw [hk] at hcall hlen
  have hn : 0 < pat.length * (b + 1) := Nat.mul_pos (zero_lt_of_lt hstate) (succ_pos b)
  obtain ⟨hright, -⟩ := h ⟨1, Nat.one_pos⟩ (fun _ => 0) _ [] _ _ hidle (.refl _) hn
  obtain ⟨hge, hle⟩ := hright bs s' hcall (by rw [hcp]; exact some_ne_none _)
  have hpattern : (CompiledPattern.new pat inclusive).pattern.length = pat.length := rfl
  rw [hlen] at hge hle
  rw [hpattern] at hle
  have hge' : b + 1 ≤ s - b := Nat.le_of_mul_le_mul_left hge (zero_lt_of_lt hstate)
  have hmore : pat.length * (b + 2) ≤ pat.length * (s - b) := Nat.mul_le_mul_left _ (by omega)
  have hsum : pat.length * (b + 2) = pat.length * (b + 1) + pat.length := mul_succ _ _
  omega

/-- **The chunks have the size asked for exactly if the pattern is balanced**, and the remaining size
never underflows. -/
theorem sizes_right_iff {pat : Bytes} (hpat : pat ≠ []) (inclusive : Bool) :
    SizesRight pat inclusive ↔ Balanced pat := by
  refine ⟨balanced_of_sizesRight, fun hbalanced conf extra u wire s n hidle hcalls hn => ?_⟩
  have hready : Ready pat s := hcalls.ready hpat (.anew hpat rfl rfl hidle rfl)
  exact ⟨sizeRight_of_balanced hbalanced hready hn, neverUnderflows hready hn⟩

/-- The pattern `ab`, on which no match recovers. -/
theorem sizes_right_ab : SizesRight [97, 98] false := by
  refine (sizes_right_iff (by decide) false).mpr fun s b c hr _ => ?_
  have hpos := hr.pos
  have hlt := hr.lt
  have hstate : s < 2 := hr.state
  omega

/-- The pattern `aab`, and two bytes of `aaa`: one is returned. -/
theorem sizes_not_right : ¬ ∀ pat inclusive, pat ≠ [] → SizesRight pat inclusive := by
  intro h
  have hr : Recovers [97, 97, 98] 2 1 97 :=
    ⟨by decide, by decide, by decide, by decide, by decide, by decide⟩
  obtain ⟨bs, s', hcall, hcp, hlen⟩ := iterator_recoveringBuffer ⟨1, Nat.one_pos⟩ (fun _ => 0) false hr
    (fun t ht ht' => absurd ht (by omega)) 0
  have hright := (h [97, 97, 98] false
    (by decide) ⟨1, Nat.one_pos⟩ (fun _ => 0) (recoveringBuffer [97, 97, 98] 2 1 97 0) []
    _ 2 ⟨rfl, rfl, rfl, Nat.zero_le _⟩ (.refl _) Nat.two_pos).1 bs s' hcall (by rw [hcp]; exact some_ne_none _)
  rw [hlen] at hright
  exact absurd hright.1 (by decide)

end OpenResty.NgxLua
