/-
`ngx.re.split` cuts the subject at its matches just where no match begins at the end of the one
before it.
-/
import OpenResty.Resty.ReSplit

namespace OpenResty.Resty.ReSplit

open Lib.Matches List Option Function

variable {subj : Bytes} {e : Delimiter subj.length} {l : Progress} {m : Match} {ms : List Match} {p q k max : Nat}
  {res t : Table} {ps qs : List Bytes}

/-! ## One turn -/

/-- A match is taken: the piece before it, and the positions behind it. -/
def Progress.take (subj : Bytes) (l : Progress) (m : Match) : Progress where
  ctx_pos := m.stop + 2
  sub_idx := m.stop + 1
  res_idx := l.res_idx + 1
  res := update l.res (l.res_idx + 1) (some (slice subj (l.sub_idx - 1) m.start))
  last_empty_match := none
  count := l.count + 1

@[simp] theorem take_count (subj : Bytes) (l : Progress) (m : Match) : (l.take subj m).count = l.count + 1 := rfl

@[simp] theorem take_res_idx (subj : Bytes) (l : Progress) (m : Match) :
    (l.take subj m).res_idx = l.res_idx + 1 := rfl

theorem re_split_helper_eq (h : q ≤ subj.length) : re_split_helper subj e.toEngine (q + 1) =
    .ok ((e.exec q).map fun m => (⟨m.start + 1, m.stop + 1, none⟩, m.stop + 2)) := by
  have hexec : q + 1 - 1 = q := rfl
  rw [re_split_helper, hexec, if_neg (Nat.not_lt.mpr h)]
  cases hm : e.exec q with
  | none => rfl
  | some m =>
    have hfree := e.free q m h hm
    simp [firstCapture, hfree]

theorem splitTurn_none (hpos : l.ctx_pos = q + 1) (hq : q ≤ subj.length) (h : e.exec q = none) :
    splitTurn subj e.toEngine l = .ok (.inr l) := by
  rw [splitTurn, hpos, re_split_helper_eq hq, h]
  rfl

theorem splitTurn_some (hpos : l.ctx_pos = q + 1) (hq : q ≤ subj.length) (hempty : l.last_empty_match = none)
    (h : e.exec q = some m) : splitTurn subj e.toEngine l =
      .ok (if subj.length ≤ m.stop + 1 then .inr (l.take subj m) else .inl (l.take subj m)) := by
  have hlt := e.nonempty q m hq h
  rw [splitTurn, hpos, re_split_helper_eq hq, h]
  dsimp only [map_some]
  rw [hempty, if_neg (show ¬ m.start + 1 = m.stop + 1 by omega), if_pos (.inr rfl)]
  rfl

/-! ## The matches that the loops come to -/

/-- The search goes on one byte behind the match, if more than a byte is left. -/
def skipped (e : Delimiter subj.length) : Nat → Nat → List Match
  | 0, _ => []
  | k + 1, q =>
    match e.exec q with
    | none => []
    | some m => if subj.length ≤ m.stop + 1 then [m] else m :: skipped e k (m.stop + 1)

theorem loop_split (hpos : l.ctx_pos = q + 1) (hq : q ≤ subj.length) (hempty : l.last_empty_match = none)
    (hfuel : subj.length < q + k) :
    loop (splitTurn subj e.toEngine) k l = some (.ok ((skipped e k q).foldl (Progress.take subj) l)) := by
  induction k generalizing l q with
  | zero => omega
  | succ k ih =>
    rw [loop, skipped]
    cases hexec : e.exec q with
    | none =>
      rw [splitTurn_none hpos hq hexec]
      rfl
    | some m =>
      obtain ⟨hstart, -, hstop⟩ := e.sound q m hq hexec
      have hlt := e.nonempty q m hq hexec
      rw [splitTurn_some hpos hq hempty hexec]
      by_cases hend : subj.length ≤ m.stop + 1
      · rw [if_pos hend]
        dsimp only
        rw [if_pos hend]
        rfl
      · rw [if_neg hend]
        dsimp only
        rw [if_neg hend, foldl_cons]
        exact ih rfl (by omega) rfl (by omega)

theorem loop_limited (hpos : l.ctx_pos = q + 1) (hq : q ≤ subj.length) (hempty : l.last_empty_match = none)
    (hfuel : subj.length < q + k) :
    loop (limitedTurn subj e.toEngine max) (k + 1) l =
      some (.ok (((skipped e k q).take (max - l.count)).foldl (Progress.take subj) l)) := by
  induction k generalizing l q with
  | zero => omega
  | succ k ih =>
    rw [loop, skipped, limitedTurn]
    by_cases hcount : l.count < max
    · rw [if_pos hcount]
      obtain ⟨room, hroom⟩ : ∃ room, max - l.count = room + 1 := ⟨max - l.count - 1, by omega⟩
      cases hexec : e.exec q with
      | none =>
        rw [splitTurn_none hpos hq hexec]
        rw [List.take_nil]
        rfl
      | some m =>
        obtain ⟨hstart, -, hstop⟩ := e.sound q m hq hexec
        have hlt := e.nonempty q m hq hexec
        rw [splitTurn_some hpos hq hempty hexec, hroom]
        by_cases hend : subj.length ≤ m.stop + 1
        · rw [if_pos hend]
          dsimp only
          rw [if_pos hend, take_succ_cons, List.take_nil]
          rfl
        · rw [if_neg hend]
          dsimp only
          rw [if_neg hend, take_succ_cons, foldl_cons]
          have hrest : max - (l.take subj m).count = room := by
            rw [take_count]
            omega
          rw [← hrest]
          exact ih rfl (by omega) rfl (by omega)
    · rw [if_neg hcount, Nat.sub_eq_zero_of_le (Nat.le_of_not_lt hcount), take_zero]
      rfl

/-! ## What the table holds -/

/-- The table holds the texts behind the place `i`. -/
def HoldsFrom (t : Table) (i : Nat) (texts : List Bytes) : Prop := ∀ k ≤ texts.length, t (i + k + 1) = texts[k]?

theorem holdsFrom_finish (ms : List Match) (l : Progress) :
    HoldsFrom (finish subj (ms.foldl (Progress.take subj) l)) l.res_idx (between subj (l.sub_idx - 1) ms) ∧
      ∀ i ≤ l.res_idx, finish subj (ms.foldl (Progress.take subj) l) i = l.res i := by
  induction ms generalizing l with
  | nil =>
    constructor
    · intro k hk
      have hk : k ≤ 1 := hk
      rcases Nat.le_one_iff_eq_zero_or_eq_one.mp hk with rfl | rfl
      · simp [finish, between, sub, slice]
      · simp [finish, between]
    · intro i hi
      simp only [foldl_nil, finish]
      rw [update_of_ne (by omega), update_of_ne (by omega)]
  | cons m ms ih =>
    obtain ⟨hrest, hkeeps⟩ := ih (l.take subj m)
    have hholds : HoldsFrom (finish subj (ms.foldl (Progress.take subj) (l.take subj m))) (l.res_idx + 1)
      (between subj m.stop ms) := hrest
    rw [foldl_cons, between]
    constructor
    · intro k hk
      cases k with
      | zero =>
        have hkept := hkeeps (l.res_idx + 1) (Nat.le_refl _)
        rw [Nat.add_zero, hkept, Progress.take]
        simp
      | succ k =>
        have := hholds k (by simpa using hk)
        rw [getElem?_cons_succ, ← this]
        congr 1
        omega
    · intro i hi
      have hkept := hkeeps i (by rw [take_res_idx]; omega)
      rw [hkept, Progress.take]
      exact update_of_ne (by omega) _ _

theorem Holds.unique (h : Holds t ps) (h' : Holds t qs) : ps = qs := by
  have hle : ∀ {ps qs : List Bytes}, Holds t ps → Holds t qs → qs.length ≤ ps.length := by
    intro ps qs h h'
    by_contra hlt
    have hnone := h ps.length (Nat.le_refl _)
    rw [h' ps.length (by omega), getElem?_eq_none_iff.mpr (Nat.le_refl _), getElem?_eq_none_iff] at hnone
    omega
  have hlength : ps.length = qs.length := Nat.le_antisymm (hle h' h) (hle h h')
  refine ext_getElem? fun k => ?_
  by_cases hk : k ≤ ps.length
  · rw [← h k hk, h' k (hlength ▸ hk)]
  · rw [getElem?_eq_none_iff.mpr (by omega), getElem?_eq_none_iff.mpr (by omega)]

/-! ## The two sequences -/

theorem drop_ne_nil (h : p < subj.length) : subj.drop p ≠ [] := by
  intro hnil
  have := drop_eq_nil_iff.mp hnil
  omega

theorem slice_ne_nil {i j : Nat} (h : i < j) (hj : j ≤ subj.length) : slice subj i j ≠ [] := by
  intro hnil
  have := congrArg List.length hnil
  simp only [slice, length_drop, length_take, length_nil] at this
  omega

theorem slice_self (i : Nat) : slice subj i i = [] := by
  rw [slice, drop_eq_nil_iff, length_take]
  omega

/-- What the search comes to behind a piece that begins at `p`, and what there is. -/
def behind (e : Delimiter subj.length) (k p : Nat) : List Match :=
  if subj.length ≤ p + 1 then [] else skipped e k (p + 1)

/-- No match begins at `p`, nor where one before it stops. -/
def ApartFrom (p : Nat) (ms : List Match) : Prop := (∀ m ∈ ms.head?, m.start ≠ p) ∧ Apart ms

theorem skipped_succ (k q : Nat) : skipped e (k + 1) q =
    match e.exec q with
    | none => []
    | some m => m :: behind e k m.stop := by
  rw [skipped]
  cases e.exec q with
  | none => rfl
  | some m =>
    dsimp only
    rw [behind]
    split <;> rfl

/-- Behind a piece, both sequences cut the subject the same way just where no match begins at the end of another. -/
theorem between_behind (r k p : Nat) (hp : p ≤ subj.length) (hk : subj.length < p + 1 + k) :
    between subj p ((behind e k p).take r) = between subj p ((found e.toEngine p).take r) ↔
      ApartFrom p ((found e.toEngine p).take r) := by
  induction r generalizing k p with
  | zero => simp [ApartFrom, Apart]
  | succ r ih =>
    cases hexec : e.exec p with
    | none =>
      have hbehind : behind e k p = [] := by
        rw [behind]
        split
        · rfl
        · next hlt =>
          obtain ⟨k, rfl⟩ : ∃ k', k = k' + 1 := ⟨k - 1, by omega⟩
          rw [skipped_succ, e.last p (p + 1) hexec (by omega) (by omega)]
      rw [hbehind, found_none e.toEngine hexec]
      simp [ApartFrom, Apart]
    | some m =>
      obtain ⟨hstart, -, hstop⟩ := e.sound p m hp hexec
      have hlt := e.nonempty p m hp hexec
      have hnext : m.next = m.stop := if_neg (by omega)
      have hfound : found e.toEngine p = m :: found e.toEngine m.stop := by
        rw [found_some e.toEngine hp hexec, hnext]
      rw [hfound, take_succ_cons, between]
      by_cases hadjacent : m.start = p
      · -- the piece before the match is empty, and the one that the loop comes to is not
        rw [hadjacent, slice_self]
        have hleft : between subj p ((behind e k p).take (r + 1)) ≠ [] :: between subj m.stop
          ((found e.toEngine m.stop).take r) := by
          cases hbehind : behind e k p with
          | nil =>
            rw [List.take_nil, between]
            intro heq
            exact drop_ne_nil (by omega) (List.cons.inj heq).1
          | cons m' ms' =>
            rw [take_succ_cons, between]
            intro heq
            have hm' : e.exec (p + 1) = some m' ∧ p + 1 ≤ subj.length := by
              rw [behind] at hbehind
              split at hbehind
              · cases hbehind
              · obtain ⟨k, rfl⟩ : ∃ k', k = k' + 1 := ⟨k - 1, by omega⟩
                rw [skipped_succ] at hbehind
                cases hexec' : e.exec (p + 1) with
                | none =>
                  rw [hexec'] at hbehind
                  cases hbehind
                | some m'' =>
                  rw [hexec'] at hbehind
                  cases hbehind
                  exact ⟨rfl, by omega⟩
            obtain ⟨hstart', -, hstop'⟩ := e.sound (p + 1) m' hm'.2 hm'.1
            have hlt' := e.nonempty (p + 1) m' hm'.2 hm'.1
            exact slice_ne_nil (by omega) (by omega) (List.cons.inj heq).1
        refine ⟨fun heq => absurd heq hleft, fun happart => ?_⟩
        exact absurd hadjacent (happart.1 m rfl)
      · have hbehind : behind e k p = m :: behind e (k - 1) m.stop := by
          obtain ⟨k, rfl⟩ : ∃ k', k = k' + 1 := ⟨k - 1, by omega⟩
          rw [behind, if_neg (by omega), skipped_succ, e.leftmost p (p + 1) m hexec (by omega) (by omega)]
          rfl
        rw [hbehind, take_succ_cons, between, cons_inj_right, ih (k - 1) m.stop hstop (by omega)]
        simp only [ApartFrom, Apart, head?_cons, mem_some_iff, forall_eq']
        exact ⟨fun h => ⟨hadjacent, h⟩, fun h => h.2⟩

/-- From the first match on, which may begin anywhere. -/
theorem between_skipped (r k : Nat) (hk : subj.length < k) :
    between subj 0 ((skipped e k 0).take r) = between subj 0 ((found e.toEngine 0).take r) ↔
      Apart ((found e.toEngine 0).take r) := by
  obtain ⟨k, rfl⟩ : ∃ k', k = k' + 1 := ⟨k - 1, by omega⟩
  rw [skipped_succ]
  cases r with
  | zero => simp [Apart]
  | succ r =>
    cases hexec : e.exec 0 with
    | none =>
      rw [found_none e.toEngine hexec]
      simp [Apart]
    | some m =>
      obtain ⟨-, -, hstop⟩ := e.sound 0 m (Nat.zero_le _) hexec
      have hlt := e.nonempty 0 m (Nat.zero_le _) hexec
      have hnext : m.next = m.stop := if_neg (by omega)
      have hfound : found e.toEngine 0 = m :: found e.toEngine m.stop := by
        rw [found_some e.toEngine (Nat.zero_le _) hexec, hnext]
      rw [hfound]
      dsimp only
      rw [take_succ_cons, take_succ_cons, between, between, cons_inj_right,
        between_behind r k m.stop hstop (by omega)]
      rfl

/-! ## What the pieces make up -/

theorem slice_append_drop {i j : Nat} (h : i ≤ j) : slice subj i j ++ subj.drop j = subj.drop i := by
  by_cases hj : j ≤ subj.length
  · rw [slice, ← drop_append_of_le_length (by rw [length_take]; omega), take_append_drop]
  · rw [slice, take_of_length_le (by omega), drop_eq_nil_of_le (Nat.le_of_not_le hj), append_nil]

theorem interleave_found (r p : Nat) (hp : p ≤ subj.length) :
    interleave subj (between subj p ((found e.toEngine p).take r)) ((found e.toEngine p).take r) = subj.drop p := by
  induction r generalizing p with
  | zero => simp [between, interleave]
  | succ r ih =>
    cases hexec : e.exec p with
    | none =>
      rw [found_none e.toEngine hexec]
      simp [between, interleave]
    | some m =>
      obtain ⟨hstart, hle, hstop⟩ := e.sound p m hp hexec
      have hlt := e.nonempty p m hp hexec
      have hnext : m.next = m.stop := if_neg (by omega)
      rw [found_some e.toEngine hp hexec, hnext, take_succ_cons, between, interleave, ih m.stop hstop,
        append_assoc,
        slice_append_drop hle, slice_append_drop hstart]

theorem exec_of_found_nil (hp : p ≤ subj.length) (h : found e.toEngine p = []) : e.exec p = none := by
  cases hexec : e.exec p with
  | none => rfl
  | some m =>
    rw [found_some e.toEngine hp hexec] at h
    cases h

theorem clean_found (r p : Nat) (hp : p ≤ subj.length) {piece : Bytes}
    (hpiece : (between subj p ((found e.toEngine p).take r))[k]? = some piece)
    (hk : k < ((found e.toEngine p).take r).length ∨ (found e.toEngine p).take r = found e.toEngine p)
    (hm : e.exec (lastStop p (((found e.toEngine p).take r).take k)) = some m) :
    lastStop p (((found e.toEngine p).take r).take k) + piece.length < m.stop := by
  induction r generalizing p k with
  | zero =>
    rw [take_zero] at hpiece hk hm
    cases k with
    | zero =>
      rcases hk with hk | hk
      · cases hk
      · rw [take_zero, lastStop, exec_of_found_nil hp hk.symm] at hm
        cases hm
    | succ k => cases hpiece
  | succ r ih =>
    cases hexec : e.exec p with
    | none =>
      rw [found_none e.toEngine hexec, List.take_nil] at hpiece hm
      cases k with
      | zero =>
        rw [take_zero, lastStop, hexec] at hm
        cases hm
      | succ k => cases hpiece
    | some m' =>
      obtain ⟨hstart, hle, hstop⟩ := e.sound p m' hp hexec
      have hlt := e.nonempty p m' hp hexec
      have hnext : m'.next = m'.stop := if_neg (by omega)
      rw [found_some e.toEngine hp hexec, hnext, take_succ_cons] at hpiece hk hm ⊢
      cases k with
      | zero =>
        cases hpiece
        rw [take_zero, lastStop, hexec] at hm
        cases hm
        rw [take_zero, lastStop, slice, length_drop, length_take]
        omega
      | succ k =>
        rw [take_succ_cons, lastStop] at hm ⊢
        rw [between, getElem?_cons_succ] at hpiece
        refine ih m'.stop hstop hpiece ?_ hm
        rcases hk with hk | hk
        · exact .inl (by simpa using hk)
        · exact .inr (List.cons.inj hk).2

/-- The matches that count are the first ones. -/
theorem delimiters_eq (e : Delimiter subj.length) (max : Nat) :
    ∃ r, delimiters e max = (found e.toEngine 0).take r ∧
      (max = 0 ∨ (delimiters e max).length + 1 < max → (found e.toEngine 0).take r = found e.toEngine 0) := by
  rw [delimiters]
  by_cases hmax : max > 0
  · rw [if_pos hmax]
    refine ⟨max - 1, rfl, ?_⟩
    rintro (rfl | hlt)
    · cases hmax
    · rw [length_take] at hlt
      exact take_of_length_le (by omega)
  · rw [if_neg hmax]
    exact ⟨(found e.toEngine 0).length, take_length.symm, fun _ => take_length⟩

/-! ## The result -/

/-- The matches that the loop comes to, those that count. -/
def reached (e : Delimiter subj.length) (max : Nat) : List Match :=
  if max > 0 then (skipped e (subj.length + 1) 0).take (max - 1) else skipped e (subj.length + 2) 0

theorem split_holds (hne : subj ≠ []) (max : Nat) (res : Table) :
    ∃ t, split ⟨subj, .ok e.toEngine⟩ max res = some (.ok t) ∧ Holds t (between subj 0 (reached e max)) := by
  have hlength : ¬ subj.length < 1 := by
    have := length_pos_of_ne_nil hne
    omega
  rw [split, reached]
  dsimp only
  rw [if_neg hlength]
  have hholds : ∀ ms : List Match, Holds (finish subj (ms.foldl (Progress.take subj)
      { ctx_pos := 1, sub_idx := 1, res_idx := 0, res, last_empty_match := none, count := 1 }))
        (between subj 0 ms) := by
    intro ms k hk
    have hfrom : HoldsFrom (finish subj (ms.foldl (Progress.take subj)
        { ctx_pos := 1, sub_idx := 1, res_idx := 0, res, last_empty_match := none, count := 1 })) 0
      (between subj 0 ms) := (holdsFrom_finish ms _).1
    have := hfrom k hk
    rwa [Nat.zero_add] at this
  by_cases hmax : max > 0
  · rw [if_pos hmax, if_pos hmax, loop_limited (q := 0) rfl (Nat.zero_le _) rfl (by omega)]
    exact ⟨_, rfl, hholds _⟩
  · rw [if_neg hmax, if_neg hmax, loop_split (q := 0) rfl (Nat.zero_le _) rfl (by omega)]
    exact ⟨_, rfl, hholds _⟩

theorem between_reached (max : Nat) :
    between subj 0 (reached e max) = between subj 0 (delimiters e max) ↔ Apart (delimiters e max) := by
  rw [reached, delimiters]
  by_cases hmax : max > 0
  · rw [if_pos hmax, if_pos hmax]
    exact between_skipped (max - 1) (subj.length + 1) (by omega)
  · rw [if_neg hmax, if_neg hmax]
    have h := between_skipped (e := e) ((skipped e (subj.length + 2) 0).length + (found e.toEngine 0).length)
      (subj.length + 2) (by omega)
    rwa [take_of_length_le (by omega), take_of_length_le (by omega)] at h

theorem delimiters_nil (h : subj = []) (max : Nat) : delimiters e max = [] := by
  have hexec : e.exec 0 = none := by
    cases hexec : e.exec 0 with
    | none => rfl
    | some m =>
      obtain ⟨-, -, hstop⟩ := e.sound 0 m (Nat.zero_le _) hexec
      have hlt := e.nonempty 0 m (Nat.zero_le _) hexec
      rw [h] at hstop
      exact absurd hlt (by rw [length_nil] at hstop; omega)
  rw [delimiters, found_none e.toEngine hexec, List.take_nil, ite_self]

/-- **`split` returns the pieces of the subject just where no match that it cuts at begins at the end of the one
before it.** -/
theorem right_iff_apart (subj : Bytes) (e : Delimiter subj.length) (max : Nat) (res : Table) :
    Right subj e max res ↔ Apart (delimiters e max) := by
  by_cases hne : subj = []
  · have hnil := delimiters_nil (e := e) hne max
    rw [Right, hnil]
    refine ⟨fun _ => trivial, fun _ => ⟨update res 1 none, [], ?_, ?_, (if_pos hne).symm, hne.symm, ?_⟩⟩
    · rw [split]
      dsimp only
      rw [if_pos (by rw [hne]; decide)]
    · intro k hk
      obtain rfl : k = 0 := by simpa using hk
      simp
    · intro k piece hpiece
      cases hpiece
  · obtain ⟨t, hsplit, hholds⟩ := split_holds (e := e) hne max res
    have hpieces : pieces subj (delimiters e max) = between subj 0 (delimiters e max) := if_neg hne
    rw [← between_reached]
    constructor
    · rintro ⟨t', ps, hsplit', hholds', rfl, -, -⟩
      rw [hsplit] at hsplit'
      cases hsplit'
      rw [hpieces] at hholds'
      exact hholds.unique hholds'
    · intro heq
      rw [heq] at hholds
      obtain ⟨r, hr, hall⟩ := delimiters_eq e max
      refine ⟨t, _, hsplit, hholds, hpieces.symm, ?_, ?_⟩
      · rw [hr, interleave_found r 0 (Nat.zero_le _), drop_zero]
      · intro k piece hpiece hk m hm
        rw [hr] at hpiece
        rw [startOf] at hm ⊢
        have hk' := hk.imp_right hall
        rw [hr] at hm hk' ⊢
        exact clean_found r 0 (Nat.zero_le _) hpiece hk' hm

/-- `a,,b` -/
def twoCommas : Bytes := [97, 44, 44, 98]

/-- The regex `,` in it. -/
def comma : Delimiter twoCommas.length where
  exec p := if p ≤ 1 then some ⟨1, 2, []⟩ else if p ≤ 2 then some ⟨2, 3, []⟩ else none
  sound p m _ h := by
    rw [twoCommas]
    split at h
    · cases h
      exact ⟨by omega, by decide, by decide⟩
    · split at h
      · cases h
        exact ⟨by omega, by decide, by decide⟩
      · cases h
  free p m _ h := by
    split at h
    · cases h
      rfl
    · split at h
      · cases h
        rfl
      · cases h
  nonempty p m _ h := by
    split at h
    · cases h
      decide
    · split at h
      · cases h
        decide
      · cases h
  leftmost p q m h hle hq := by
    split at h
    · cases h
      exact if_pos hq
    · split at h
      · cases h
        rw [if_neg (by omega), if_pos hq]
      · cases h
  last p q h hle _ := by
    split at h
    · cases h
    · split at h
      · cases h
      · rw [if_neg (by omega), if_neg (by omega)]

/-- The second piece is not empty, but `,b`. -/
theorem not_right_twoCommas : ¬ Right twoCommas comma 0 (fun _ => none) := by
  rintro ⟨t, ps, hsplit, hholds, rfl, -, -⟩
  have hsecond : (split ⟨twoCommas, .ok comma.toEngine⟩ 0 fun _ => none).map (fun r => r.toOption.map fun t => t 2) =
      some (some (some [44, 98])) := by decide
  rw [hsplit] at hsecond
  have ht : t 2 = some [44, 98] := some.inj (some.inj hsecond)
  have hpiece := hholds 1 (by decide)
  rw [ht] at hpiece
  exact absurd hpiece (by decide)

end OpenResty.Resty.ReSplit
