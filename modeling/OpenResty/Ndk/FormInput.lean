/-
`ngx_http_form_input_arg` of form-input-nginx-module: the arguments of a body that have a name
are found by searching for the name, and not by cutting the body into pairs. Names are compared
by `ngx_strncasecmp`, which stops at a zero byte that both have.
-/
import OpenResty.Lib.CString
import OpenResty.Lib.Fields

namespace OpenResty.Ndk.FormInput

open Lib Lib.CString Lib.Fields Option
open List hiding after

/-! ## The search -/

/-- `ngx_tolower` -/
def tolower (c : UInt8) : UInt8 := if 65 ≤ c ∧ c ≤ 90 then c ||| 0x20 else c

/-- `ngx_strlcasestrn`, in the `last` bytes from `s1` on -/
def strlcasestrn (s1 : Bytes) (last : Nat) (s2 : Bytes) (n : Nat) : Option (Option Nat) := search tolower s1 last s2 n

/-- `ngx_strlchr` -/
def strlchr : Bytes → UInt8 → Option Nat
  | [], _ => none
  | c' :: p, c => if c' = c then some 0 else (strlchr p c).map (· + 1)

/-- The loop over the places of a body from `p` on, with the values that are found: all of them,
or only the first. A byte outside the body is not read. -/
def argLoop (buf arg_name : Bytes) (multi : Bool) : Nat → Nat → Option (List Bytes)
  | 0, _ => none
  | fuel + 1, p =>
    if buf.length ≤ p then some []
    else
      -- we need '=' after name, so drop one char from last
      match strlcasestrn (buf.drop p) (buf.length - 1 - p) arg_name (arg_name.length - 1) with
      | none => none
      | some none => some []
      | some (some i) =>
        let p := p + i
        match if p = 0 then some true else (buf[p - 1]?).map (· == 38), buf[p + arg_name.length]? with
        | some true, some c =>
          if c = 61 then
            let v := p + arg_name.length + 1
            let p := ((strlchr (buf.drop v) 38).map (v + ·)).getD buf.length
            let value := (buf.take p).drop v
            if multi then (argLoop buf arg_name multi fuel (p + 1)).map (value :: ·) else some [value]
          else argLoop buf arg_name multi fuel (p + 1)
        | some false, _ => argLoop buf arg_name multi fuel (p + 1)
        | _, _ => none

/-- `ngx_http_form_input_arg`, with the buffers in memory -/
def form_input_arg (bufs : List Bytes) (arg_name : Bytes) (multi : Bool) : Option (List Bytes) :=
  match bufs with
  | [] => some []
  | [buf] => if buf.length = 0 then some [] else argLoop buf arg_name multi (buf.length + 1) 0
  | bufs =>
    let buf := bufs.flatten
    if buf.length = 0 then some [] else argLoop buf arg_name multi (buf.length + 1) 0

def set_form_input (bufs : List Bytes) (arg_name : Bytes) : Option Bytes :=
  (form_input_arg bufs arg_name false).map fun values => values.headD []

def set_form_input_multi (bufs : List Bytes) (arg_name : Bytes) :
    Option (List Bytes) := form_input_arg bufs arg_name true

/-! ## What is asked -/

/-- The value of a pair that has the name. -/
def pairValue (arg_name piece : Bytes) : Option Bytes :=
  if 61 ∈ piece ∧ (piece.takeWhile (· ≠ 61)).map tolower = arg_name.map tolower then
    some ((piece.dropWhile (· ≠ 61)).drop 1)
  else none

/-- The values of a name in the plain parse of a body. -/
def parse (arg_name body : Bytes) : List Bytes := (body.splitOn 38).filterMap (pairValue arg_name)

def Right (bufs : List Bytes) (arg_name : Bytes) : Prop :=
  set_form_input bufs arg_name = some ((parse arg_name bufs.flatten).headD []) ∧
    set_form_input_multi bufs arg_name = some (parse arg_name bufs.flatten)

/-- Every piece of a body that agrees with the name, and has a `=` where the name would end,
begins with the name. -/
def Whole (arg_name body : Bytes) : Prop :=
  ∀ t, Starts 38 true body t → Agrees tolower arg_name t → t[arg_name.length]? = some 61 → Exact tolower arg_name t

/-! ## The tests -/

variable {arg_name buf s : Bytes}

/-- What the loop takes for an argument. -/
def taken (arg_name s : Bytes) : Bool := decide (Agrees tolower arg_name s ∧ s[arg_name.length]? = some 61)

def named (arg_name s : Bytes) : Bool := decide (Exact tolower arg_name s ∧ s[arg_name.length]? = some 61)

theorem tolower_sep : ∀ c : UInt8, (tolower c = 38 ↔ c = 38) ∧ (tolower c = 61 ↔ c = 61) := forall_byte
    (by decide +kernel)

theorem notMem_of_map {d : UInt8} (hd : ∀ c, tolower c = d ↔ c = d) (hnot : d ∉ arg_name)
    (h : s.map tolower = arg_name.map tolower) : d ∉ s := by
  intro hmem
  have hmap := mem_map_of_mem (f := tolower) hmem
  rw [h, (hd d).mpr rfl] at hmap
  obtain ⟨c, hc, heq⟩ := mem_map.mp hmap
  exact hnot ((hd c).mp heq ▸ hc)

theorem tests (hne : arg_name ≠ []) (hamp : 38 ∉ arg_name) :
    Tests 38 arg_name.length (taken arg_name) (named arg_name) where
  le s h := by
    obtain ⟨hexact, heq⟩ := of_decide_eq_true h
    exact decide_eq_true ⟨hexact.agrees hne, heq⟩
  item s h := ⟨61, (of_decide_eq_true h).2, by decide⟩
  whole s h := by
    obtain ⟨hexact, heq⟩ := of_decide_eq_true h
    rw [take_add_one, heq, mem_append, not_or]
    exact ⟨notMem_of_map (fun c => (tolower_sep c).1) hamp hexact, by decide⟩

/-! ## Pieces -/

/-- A name and a `=` do not go over a separator. -/
theorem named_local (hne : arg_name ≠ []) (hamp : 38 ∉ arg_name) : Local 38 arg_name.length (named arg_name) where
  lt s h := (tests hne hamp).lt_length ((tests hne hamp).le s h)
  piece p w hp := by
    by_cases hlen : arg_name.length < p.length
    · have htake : (p ++ 38 :: w).take arg_name.length = p.take arg_name.length := take_append_of_le_length hlen.le
      have hget : (p ++ 38 :: w)[arg_name.length]? = p[arg_name.length]? := getElem?_append_left hlen
      exact decide_eq_decide.mpr (by rw [Exact, Exact, htake, hget])
    · have hshort : named arg_name p = false := by
        by_contra hnamed
        exact hlen ((tests hne hamp).lt_length ((tests hne hamp).le p (Bool.not_eq_false _ ▸ hnamed)))
      have hlong : named arg_name (p ++ 38 :: w) = false := by
        by_contra hnamed
        refine (tests hne hamp).whole _ (Bool.not_eq_false _ ▸ hnamed) ?_
        rw [take_append, show arg_name.length + 1 - p.length = arg_name.length - p.length + 1 by omega]
        exact mem_append_right _ mem_cons_self
      rw [hshort, hlong]

theorem named_iff : named arg_name s = true ↔ ∃ u w, s = u ++ 61 :: w ∧ u.map tolower = arg_name.map tolower := by
  rw [named, decide_eq_true_iff]
  constructor
  · rintro ⟨hexact, heq⟩
    obtain ⟨hlt, hget⟩ := List.getElem?_eq_some_iff.mp heq
    refine ⟨s.take arg_name.length, s.drop (arg_name.length + 1), ?_, hexact⟩
    rw [← hget, ← drop_eq_getElem_cons hlt, take_append_drop]
  · rintro ⟨u, w, rfl, hu⟩
    have hlen : u.length = arg_name.length := by
      have := congrArg List.length hu
      rwa [length_map, length_map] at this
    rw [Exact, ← hlen, take_left, getElem?_append_right (Nat.le_refl _), Nat.sub_self]
    exact ⟨hu, rfl⟩

/-- A piece that has the name gives what is behind its first `=`. -/
theorem pairValue_named (heq : 61 ∉ arg_name) {u : Bytes} (hu : u.map tolower = arg_name.map tolower) (w : Bytes) :
    pairValue arg_name (u ++ 61 :: w) = some w := by
  have hnot : 61 ∉ u := notMem_of_map (fun c => (tolower_sep c).2) heq hu
  have hname : (u ++ 61 :: w).takeWhile (· ≠ 61) = u := by
    have := value_append hnot (61 :: w)
    rwa [value_sep, append_nil] at this
  have hrest : ((u ++ 61 :: w).dropWhile (· ≠ 61)).drop 1 = w := by
    have := after_append hnot (61 :: w)
    rwa [after_sep] at this
  rw [pairValue, hname, hrest]
  exact if_pos ⟨mem_append_right u mem_cons_self, hu⟩

theorem pairValue_other (h : named arg_name s ≠ true) : pairValue arg_name s = none := by
  refine if_neg ?_
  rintro ⟨hmem, hname⟩
  obtain ⟨u, w, rfl, hu⟩ := eq_append_cons_of_mem hmem
  refine h (named_iff.mpr ⟨u, w, rfl, ?_⟩)
  have := value_append hu (61 :: w)
  rw [value_sep, append_nil] at this
  rwa [show (u ++ 61 :: w).takeWhile (· ≠ 61) = u from this] at hname

theorem field_named (heq : 61 ∉ arg_name) : field arg_name.length (named arg_name) = pairValue arg_name := by
  funext p
  rw [field]
  by_cases hnamed : named arg_name p = true
  · obtain ⟨u, w, rfl, hu⟩ := named_iff.mp hnamed
    have hlen : u.length = arg_name.length := by
      have := congrArg List.length hu
      rwa [length_map, length_map] at this
    rw [if_pos hnamed, pairValue_named heq hu, ← hlen, ← drop_drop, drop_left]
    rfl
  · rw [if_neg hnamed, pairValue_other hnamed]

/-- The plain parse is a search by the exact test. -/
theorem parse_eq (hne : arg_name ≠ []) (hamp : 38 ∉ arg_name) (heq : 61 ∉ arg_name) (body : Bytes) :
    parse arg_name body = scan 38 arg_name.length (named arg_name) true body := by
  rw [scan_eq_pieces (named_local hne hamp), field_named heq]
  rfl

/-! ## Places -/

/-- A piece begins at a place. -/
def start (buf : Bytes) (p : Nat) : Bool := if p = 0 then true else buf[p - 1]? == some 38

/-- The values of what is taken for arguments from a place on. -/
def found (arg_name buf : Bytes) (p : Nat) :
    List Bytes := scan 38 arg_name.length (taken arg_name) (start buf p) (buf.drop p)

theorem found_end {p : Nat} (h : buf.length ≤ p) : found arg_name buf p = [] := by
  rw [found, drop_of_length_le h, scan_nil]

theorem found_skip {p : Nat} (hp : p < buf.length) (h : ¬ (start buf p = true ∧ taken arg_name (buf.drop p) = true)) :
    found arg_name buf p = found arg_name buf (p + 1) := by
  have hstart : start buf (p + 1) = (buf[p] == 38) := by
    rw [start, if_neg (Nat.succ_ne_zero p), Nat.add_sub_cancel, getElem?_eq_getElem hp]
    rfl
  rw [found, found, hstart]
  rw [drop_eq_getElem_cons hp] at h ⊢
  exact scan_skip h

theorem found_add {p i : Nat} (hp : p + i ≤ buf.length) (h : ∀ j < i, taken arg_name (buf.drop (p + j)) ≠ true) :
    found arg_name buf p = found arg_name buf (p + i) := by
  induction i with
  | zero => rfl
  | succ i ih =>
    rw [ih (by omega) fun j hj => h j (by omega)]
    exact found_skip (by omega) fun hboth => h i (Nat.lt_succ_self i) hboth.2

theorem strlchr_eq (s : Bytes) : (strlchr s 38).getD s.length = (value 38 s).length := by
  induction s with
  | nil => rfl
  | cons c s ih =>
    rw [strlchr]
    by_cases hc : c = 38
    · subst hc
      rw [if_pos rfl, value_sep]
      rfl
    · have hvalue : value 38 (c :: s) = c :: value 38 s := takeWhile_cons_of_pos (decide_eq_true hc)
      rw [if_neg hc, hvalue, length_cons, length_cons, ← ih]
      cases strlchr s 38 <;> rfl

/-- A value ends where the next separator is, or the body. -/
theorem value_eq (s : Bytes) : s.take (value 38 s).length = value 38 s ∧
    s.drop ((value 38 s).length + 1) = after 38 s ∧
    (after 38 s = [] ∨ s[(value 38 s).length]? = some 38) := by
  have hsplit : value 38 s ++ s.dropWhile (· ≠ 38) = s := takeWhile_append_dropWhile
  have hdrop : s.drop (value 38 s).length = s.dropWhile (· ≠ 38) := by
    have := congrArg (List.drop (value 38 s).length) hsplit
    rwa [drop_left, eq_comm] at this
  refine ⟨?_, ?_, ?_⟩
  · have := congrArg (List.take (value 38 s).length) hsplit
    rwa [take_left, eq_comm] at this
  · rw [← List.drop_drop, hdrop, after]
  · cases hrest : s.dropWhile (· ≠ 38) with
    | nil => exact .inl (by rw [after, hrest]; rfl)
    | cons c w =>
      have hc : c = 38 := by
        have := head?_dropWhile_not (fun c : UInt8 => decide (c ≠ 38)) s
        rw [hrest] at this
        simpa using this
      refine .inr ?_
      rw [← Nat.add_zero (value 38 s).length, ← getElem?_drop, hdrop, hrest, hc]
      rfl

/-- An argument at a place, and what is found behind it. -/
theorem found_field {q : Nat} (hstart : start buf q = true) (htaken : taken arg_name (buf.drop q) = true) :
    let v := q + arg_name.length + 1
    let p := v + (value 38 (buf.drop v)).length
    found arg_name buf q = (buf.take p).drop v :: found arg_name buf (p + 1) := by
  intro v p
  have hlen : q < buf.length := by
    by_contra hout
    rw [drop_of_length_le (Nat.not_lt.mp hout)] at htaken
    cases (of_decide_eq_true htaken).2
  have hrest : (buf.drop (q + 1)).drop arg_name.length = buf.drop v := by
    rw [drop_drop, show q + 1 + arg_name.length = v by omega]
  obtain ⟨htake, hdrop, hnext⟩ := value_eq (buf.drop v)
  have hvalue : (buf.take p).drop v = value 38 (buf.drop v) := by
    rw [drop_take, show p - v = (value 38 (buf.drop v)).length by omega, htake]
  rw [drop_drop] at hdrop
  have hfound : found arg_name buf (p + 1) = scan 38 arg_name.length (taken arg_name) true
    (after 38 (buf.drop v)) := by
    rw [found, show p + 1 = v + ((value 38 (buf.drop v)).length + 1) by omega, hdrop]
    rcases hnext with hnil | hsep
    · rw [hnil, scan_nil, scan_nil]
    · rw [getElem?_drop] at hsep
      have hne : v + ((value 38 (buf.drop v)).length + 1) ≠ 0 := by omega
      have hbefore : v + ((value 38 (buf.drop v)).length + 1) - 1 = v + (value 38 (buf.drop v)).length := by omega
      rw [start, if_neg hne, hbefore, hsep]
      rfl
  rw [hvalue, hfound, found, hstart]
  rw [drop_eq_getElem_cons hlen] at htaken ⊢
  rw [scan_field htaken, hrest]

/-! ## The loop -/

variable {multi : Bool} {fuel p i : Nat}

/-- What comes of the values that are found: all of them, or the first. -/
def given (multi : Bool) (values : List Bytes) : List Bytes := if multi then values else values.take 1

theorem argLoop_succ (buf arg_name : Bytes) (multi : Bool) (fuel p : Nat) :
    argLoop buf arg_name multi (fuel + 1) p =
      if buf.length ≤ p then some []
      else
        match strlcasestrn (buf.drop p) (buf.length - 1 - p) arg_name (arg_name.length - 1) with
        | none => none
        | some none => some []
        | some (some i) =>
          let p := p + i
          match if p = 0 then some true else (buf[p - 1]?).map (· == 38), buf[p + arg_name.length]? with
          | some true, some c =>
            if c = 61 then
              let v := p + arg_name.length + 1
              let p := ((strlchr (buf.drop v) 38).map (v + ·)).getD buf.length
              let value := (buf.take p).drop v
              if multi then (argLoop buf arg_name multi fuel (p + 1)).map (value :: ·) else some [value]
            else argLoop buf arg_name multi fuel (p + 1)
          | some false, _ => argLoop buf arg_name multi fuel (p + 1)
          | _, _ => none := rfl

/-- The byte before a place is in the body. -/
theorem before_eq (hp : p < buf.length) :
    (if p = 0 then some true else (buf[p - 1]?).map (· == 38)) = some (start buf p) := by
  rw [start]
  split
  · rfl
  · rw [getElem?_eq_getElem (show p - 1 < buf.length by omega)]
    rfl

/-- The end of a value that begins in the body, or at its end. -/
theorem valueEnd_eq {v : Nat} (hv : v ≤ buf.length) :
    ((strlchr (buf.drop v) 38).map (v + ·)).getD buf.length = v + (value 38 (buf.drop v)).length := by
  rw [← strlchr_eq]
  cases strlchr (buf.drop v) 38 with
  | some n => rfl
  | none =>
    rw [map_none, getD_none, getD_none, length_drop]
    omega

/-- A turn of the loop that comes to a place. -/
theorem argLoop_place (hp : p < buf.length) (hlen : p + i + arg_name.length < buf.length)
    (hsearch : strlcasestrn (buf.drop p) (buf.length - 1 - p) arg_name (arg_name.length - 1) = some (some i)) :
    argLoop buf arg_name multi (fuel + 1) p =
      if start buf (p + i) = true ∧ buf[p + i + arg_name.length] = 61 then
        let v := p + i + arg_name.length + 1
        let p := v + (value 38 (buf.drop v)).length
        let value := (buf.take p).drop v
        if multi then (argLoop buf arg_name multi fuel (p + 1)).map (value :: ·) else some [value]
      else argLoop buf arg_name multi fuel (p + i + 1) := by
  have hbefore := before_eq (show p + i < buf.length by omega)
  have hend := valueEnd_eq (show p + i + arg_name.length + 1 ≤ buf.length by omega)
  rw [argLoop_succ, if_neg (Nat.not_le.mpr hp), hsearch]
  simp only
  rw [hbefore, getElem?_eq_getElem hlen]
  cases start buf (p + i) with
  | false =>
    have hinside : ¬ (false = true ∧ buf[p + i + arg_name.length] = 61) := fun h => Bool.false_ne_true h.1
    rw [if_neg hinside]
  | true =>
    simp only [true_and, hend]

theorem taken_iff (hlen : i + arg_name.length < buf.length) (hagrees : Agrees tolower arg_name (buf.drop i)) :
    taken arg_name (buf.drop i) = true ↔ buf[i + arg_name.length] = 61 := by
  rw [taken, decide_eq_true_iff, getElem?_drop, getElem?_eq_getElem hlen, some_inj]
  exact and_iff_right hagrees

/-- The loop finds what is taken for an argument, from left to right. -/
theorem argLoop_spec (hne : arg_name ≠ []) (hfuel : buf.length - p < fuel) :
    argLoop buf arg_name multi fuel p = some (given multi (found arg_name buf p)) := by
  induction fuel generalizing p with
  | zero => exact absurd hfuel (Nat.not_lt_zero _)
  | succ fuel ih =>
    by_cases hp : buf.length ≤ p
    · rw [argLoop_succ, if_pos hp, found_end hp]
      cases multi <;> rfl
    · have hpos := length_pos_iff.mpr hne
      have hlast : buf.length - 1 - p ≤ (buf.drop p).length := by
        rw [length_drop]
        omega
      obtain ⟨r, hr, hfirst⟩ := search_spec tolower hne hlast
      cases r with
      | none =>
        -- A name with a byte behind it does not begin behind the places that are searched.
        have hnone : ∀ j < buf.length - p, taken arg_name (buf.drop (p + j)) ≠ true := by
          intro j hj htaken
          obtain ⟨hagrees, heq⟩ := of_decide_eq_true htaken
          have hbehind := (List.getElem?_eq_some_iff.mp heq).1
          rw [length_drop] at hbehind
          rw [← drop_drop] at hagrees
          exact hfirst j (by omega) hagrees
        have hempty : found arg_name buf p = [] := (found_add (by omega) hnone).trans (found_end (by omega))
        rw [argLoop_succ, if_neg hp, strlcasestrn, hr, hempty]
        cases multi <;> rfl
      | some i =>
        obtain ⟨hlt, hagrees, hbefore⟩ := hfirst
        rw [drop_drop] at hagrees
        have hlen : p + i + arg_name.length < buf.length := by omega
        have hskip : found arg_name buf p = found arg_name buf (p + i) := by
          refine found_add (by omega) fun j hj htaken => hbefore j hj ?_
          rw [drop_drop]
          exact (of_decide_eq_true htaken).1
        have htaken := taken_iff hlen hagrees
        rw [argLoop_place (Nat.not_le.mp hp) hlen hr, hskip]
        by_cases hfield : start buf (p + i) = true ∧ buf[p + i + arg_name.length] = 61
        · rw [if_pos hfield, found_field hfield.1 (htaken.mpr hfield.2)]
          simp only
          cases multi with
          | false => rfl
          | true =>
            rw [if_pos rfl, ih (by omega)]
            rfl
        · have hno : ¬ (start buf (p + i) = true ∧ taken arg_name (buf.drop (p + i)) = true) := by rwa [htaken]
          rw [if_neg hfield, found_skip (by omega) hno]
          exact ih (by omega)

/-! ## Bodies -/

theorem argLoop_body (hne : arg_name ≠ []) (multi : Bool) (buf : Bytes) :
    (if buf.length = 0 then some [] else argLoop buf arg_name multi (buf.length + 1) 0) =
      some (given multi (scan 38 arg_name.length (taken arg_name) true buf)) := by
  split
  · have hnil : buf = [] := length_eq_zero_iff.mp ‹_›
    rw [hnil, scan_nil]
    cases multi <;> rfl
  · exact argLoop_spec hne (Nat.lt_succ_self _)

/-- Where the body is cut into buffers does not matter. -/
theorem form_input_arg_eq (hne : arg_name ≠ []) (multi : Bool) (bufs : List Bytes) :
    form_input_arg bufs arg_name multi =
      some (given multi (scan 38 arg_name.length (taken arg_name) true bufs.flatten)) := by
  match bufs with
  | [] => exact argLoop_body hne multi []
  | [buf] =>
    rw [List.flatten_cons, List.flatten_nil, append_nil]
    exact argLoop_body hne multi buf
  | buf :: buf' :: bufs => exact argLoop_body hne multi (buf :: buf' :: bufs).flatten

theorem headD_take (values : List Bytes) : (values.take 1).headD [] = values.headD [] := by
  cases values <;> rfl

/-- The values are those of the plain parse exactly when no piece of the body agrees with the name
only as far as a zero byte. -/
theorem form_input_right_iff (hne : arg_name ≠ []) (hamp : 38 ∉ arg_name) (heq : 61 ∉ arg_name) (bufs : List Bytes) :
    Right bufs arg_name ↔ Whole arg_name bufs.flatten := by
  have htests := (tests hne hamp).scan_eq_iff bufs.flatten
  rw [← parse_eq hne hamp heq] at htests
  have hmulti : set_form_input_multi bufs arg_name =
      some (scan 38 arg_name.length (taken arg_name) true bufs.flatten) := form_input_arg_eq hne true bufs
  have hone : set_form_input bufs arg_name =
      some ((scan 38 arg_name.length (taken arg_name) true bufs.flatten).headD []) := by
    rw [set_form_input, form_input_arg_eq hne, map_some]
    exact congrArg some (headD_take _)
  constructor
  · rintro ⟨-, hright⟩ t ht hagrees hbehind
    have hsame := some.inj (hmulti.symm.trans hright)
    exact (of_decide_eq_true (htests.mp hsame t ht (decide_eq_true ⟨hagrees, hbehind⟩))).1
  · intro hwhole
    have hsame := htests.mpr fun t ht htaken =>
      have hboth := of_decide_eq_true htaken
      decide_eq_true ⟨hwhole t ht hboth.1 hboth.2, hboth.2⟩
    exact ⟨hone.trans (by rw [hsame]), hmulti.trans (by rw [hsame])⟩

/-- Two buffers, with a name in other case and one inside of a value. -/
theorem right_iff_two : Right [[65, 61], [49, 38, 98, 61, 97, 61]] [97] ∧ Whole [97] [65, 61, 49, 38, 98, 61, 97, 61] :=
  have hright : Right [[65, 61], [49, 38, 98, 61, 97, 61]] [97] := ⟨by decide +kernel, by decide +kernel⟩
  ⟨hright, (form_input_right_iff (by decide) (by decide) (by decide) _).mp hright⟩

/-- For the name `a\0b` the argument of the name `a\0c` is taken. -/
theorem not_right_arg_zero : set_form_input [[97, 0, 99, 61, 49]] [97, 0, 98] = some [49] ∧
    parse [97, 0, 98] [97, 0, 99, 61, 49] = [] ∧ ¬ Right [[97, 0, 99, 61, 49]] [97, 0, 98] := by
  have hparse : parse [97, 0, 98] [97, 0, 99, 61, 49] = [] := by decide +kernel
  have hset : set_form_input [[97, 0, 99, 61, 49]] [97, 0, 98] = some [49] := by decide +kernel
  refine ⟨hset, hparse, fun h => ?_⟩
  have hvalue := h.1
  rw [hset, show [[97, 0, 99, 61, 49]].flatten = ([97, 0, 99, 61, 49] : Bytes) from rfl, hparse] at hvalue
  cases hvalue

end OpenResty.Ndk.FormInput
