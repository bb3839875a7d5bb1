/-
What the iconv filter makes of a body, however it is cut. It is the conversion of the
whole body as long as no call breaks off inside a character with converted bytes in the
buffer that it is filling, and none begins with an empty buffer.
-/
import OpenResty.Filter.Iconv
import OpenResty.Lib.Recode
import OpenResty.Lib.Transition

namespace OpenResty.Filter.Iconv

open Lib.Recode Lib.Transition Nat
open List hiding tail_suffix

variable {cd : Converter} {size : Nat}

/-- The conversion, with `?` for an invalid byte. -/
def Converter.reader (cd : Converter) : Reader UInt8 UInt8 where
  read data :=
    match cd.front data with
    | .char k out => some (k, out)
    | .invalid => some (1, [63])
    | .incomplete => none
  sound data k out h := by
    split at h
    · next hfront =>
      cases h
      exact cd.char_sound data k out hfront
    · next hfront =>
      cases h
      exact ⟨Nat.one_pos, length_pos_iff.mpr (cd.invalid_ne data hfront)⟩
    · cases h
  stable data more k out h := by
    split at h
    · next hfront =>
      rw [cd.char_stable data more _ _ hfront]
      exact h
    · next hfront =>
      rw [cd.invalid_stable data more hfront]
      exact h
    · cases h

/-- The bytes that a body is converted to, without a character that is incomplete at its end. -/
abbrev Converter.text (cd : Converter) (data : Bytes) : Bytes := cd.reader.text data

/-- The incomplete character at the end. -/
abbrev Converter.tail (cd : Converter) (data : Bytes) : Bytes := cd.reader.tail data

/-- With `u` bytes in a buffer, what comes next goes into a new one. -/
def Converter.breaks (cd : Converter) (size : Nat) (data : Bytes) (u : Nat) : Bool :=
  cd.full data (size - u) || match cd.front data with
    | .invalid => size - u = 0
    | _ => false

/-- The full buffers, and the bytes in the one behind them. -/
abbrev Converter.pour (cd : Converter) (size : Nat) (data : Bytes) (l u : Nat) : Nat × Nat :=
  cd.reader.pour (cd.breaks size) data l u

variable {k l n room u : Nat}

theorem read_char {data : Bytes} {out : Bytes} (h : cd.front data = .char k out) :
    cd.reader.read data = some (k, out) := by
  simp only [Converter.reader, h]

theorem read_invalid {data : Bytes} (h : cd.front data = .invalid) : cd.reader.read data = some (1, [63]) := by
  simp only [Converter.reader, h]

theorem read_incomplete {data : Bytes} (h : cd.front data = .incomplete) : cd.reader.read data = none := by
  simp only [Converter.reader, h]

/-- A new buffer has room for any character. -/
theorem breaks_new (hsize : cd.longest ≤ size) (data : Bytes) : cd.breaks size data 0 = false := by
  have hfull : cd.full data size = false := by
    rw [← Bool.not_eq_true]
    intro h
    have := cd.lt_of_full data size h
    omega
  have hpos := cd.longest_pos
  rw [Converter.breaks, Nat.sub_zero, hfull, Bool.false_or]
  split
  · exact decide_eq_false (by omega)
  · rfl

/-! ## `iconv` -/

theorem iconvFrom_nil (n room : Nat) : iconvFrom cd n [] room = (.converted, [], []) := by
  cases n <;> rfl

theorem iconvFrom_succ {data : Bytes} (hne : data ≠ []) (n room : Nat) :
    iconvFrom cd (n + 1) data room =
      if cd.full data room then (.E2BIG, [], data)
      else
        match cd.front data with
        | .char k out =>
          let (rv, more, data) := iconvFrom cd n (data.drop k) (room - out.length)
          (rv, out ++ more, data)
        | .invalid => (.EILSEQ, [], data)
        | .incomplete => (.EINVAL, [], data) := by
  obtain ⟨c, data, rfl⟩ := exists_cons_of_ne_nil hne
  rfl

theorem iconvFrom_fuel {data : Bytes} {m : Nat} (hm : data.length ≤ m) (hn : data.length ≤ n) (room : Nat) :
    iconvFrom cd m data room = iconvFrom cd n data room := by
  induction data using cd.reader.induction generalizing m n room with
  | stop data h =>
    cases data with
    | nil => rw [iconvFrom_nil, iconvFrom_nil]
    | cons c data =>
      rw [length_cons] at hm hn
      obtain ⟨m, rfl⟩ : ∃ i, m = i + 1 := ⟨m - 1, by omega⟩
      obtain ⟨n, rfl⟩ : ∃ i, n = i + 1 := ⟨n - 1, by omega⟩
      rw [iconvFrom_succ (cons_ne_nil c data), iconvFrom_succ (cons_ne_nil c data)]
      cases hfront : cd.front (c :: data) with
      | char k out => cases (read_char hfront).symm.trans h
      | invalid => cases (read_invalid hfront).symm.trans h
      | incomplete => rfl
  | item data k out h ih =>
    have hlt := length_drop_lt h
    obtain ⟨m, rfl⟩ : ∃ i, m = i + 1 := ⟨m - 1, by omega⟩
    obtain ⟨n, rfl⟩ : ∃ i, n = i + 1 := ⟨n - 1, by omega⟩
    have hne : data ≠ [] := by
      rintro rfl
      rw [read_nil] at h
      cases h
    rw [iconvFrom_succ hne, iconvFrom_succ hne]
    cases hfront : cd.front data with
    | char k' out' =>
      rw [read_char hfront] at h
      cases h
      have hrest (room : Nat) : iconvFrom cd m (data.drop k) room = iconvFrom cd n (data.drop k) room :=
        ih (by omega) (by omega) room
      simp only [hrest]
    | invalid => rfl
    | incomplete => rfl

theorem iconv_full {data : Bytes} (hne : data ≠ []) (h : cd.full data room = true) :
    iconv cd data room = (.E2BIG, [], data) := by
  obtain ⟨c, data, rfl⟩ := exists_cons_of_ne_nil hne
  rw [iconv, length_cons, iconvFrom_succ hne, if_pos h]

theorem iconv_invalid {data : Bytes} (h : cd.full data room = false) (hfront : cd.front data = .invalid) :
    iconv cd data room = (.EILSEQ, [], data) := by
  have hne := cd.invalid_ne data hfront
  obtain ⟨c, data, rfl⟩ := exists_cons_of_ne_nil hne
  rw [iconv, length_cons, iconvFrom_succ hne, if_neg (by simp [h])]
  simp only [hfront]

theorem iconv_incomplete {data : Bytes} (hne : data ≠ []) (h : cd.full data room = false)
    (hfront : cd.front data = .incomplete) : iconv cd data room = (.EINVAL, [], data) := by
  obtain ⟨c, data, rfl⟩ := exists_cons_of_ne_nil hne
  rw [iconv, length_cons, iconvFrom_succ hne, if_neg (by simp [h])]
  simp only [hfront]

theorem iconv_char {data : Bytes} {out : Bytes} (h : cd.full data room = false)
    (hfront : cd.front data = .char k out) :
    iconv cd data room =
      ((iconv cd (data.drop k) (room - out.length)).1, out ++ (iconv cd (data.drop k) (room - out.length)).2.1,
        (iconv cd (data.drop k) (room - out.length)).2.2) := by
  have hlt := length_drop_lt (read_char hfront)
  have hne : data ≠ [] := by
    rintro rfl
    exact absurd hlt (Nat.not_lt_zero _)
  obtain ⟨n, hn⟩ : ∃ i, data.length = i + 1 := ⟨data.length - 1, by omega⟩
  have hrest : iconvFrom cd n (data.drop k) (room - out.length) = iconv cd (data.drop k) (room - out.length) :=
    iconvFrom_fuel (by omega) (Nat.le_refl _) _
  rw [iconv, hn, iconvFrom_succ hne, if_neg (by simp [h])]
  simp only [hfront, hrest]

/-! ## The inner loop -/

/-- A character that fits is in the buffer as if it had been there before. -/
theorem convBuf_char {b data out : Bytes} (h : cd.full data (size - b.length) = false)
    (hfront : cd.front data = .char k out) :
    convBuf cd size (n + 1) b data = convBuf cd size (n + 1) (b ++ out) (data.drop k) := by
  have hroom : size - b.length - out.length = size - (b ++ out).length := by
    rw [length_append, Nat.sub_sub]
  rw [convBuf, convBuf, iconv_char h hfront, hroom]
  obtain ⟨rv, more, rest⟩ := iconv cd (data.drop k) (size - (b ++ out).length)
  cases rv with
  | EILSEQ => cases rest <;> simp only [append_assoc]
  | converted => simp only [append_assoc]
  | E2BIG => simp only [append_assoc]
  | EINVAL => simp only [append_assoc]

/-- Data goes into a buffer, item by item, as long as there is room. -/
inductive Filled (cd : Converter) (size : Nat) : Bytes → Bytes → Bytes → Bytes → Prop
  | here (b data : Bytes) : Filled cd size b data b data
  | item {b data out b' data' : Bytes} {k : Nat} (hread : cd.reader.read data = some (k, out))
      (hfits : cd.breaks size data b.length = false) (hrest : Filled cd size (b ++ out) (data.drop k) b' data') :
      Filled cd size b data b' data'

/-- What is true when the inner loop is left. -/
def Exit.Good (cd : Converter) (size : Nat) (b data : Bytes) : Exit → Prop
  | .linked b' data' => Filled cd size b data b' data' ∧ (data' = [] ∨ cd.breaks size data' b'.length = true)
  | .conv_done cv rest =>
    ∃ b', Filled cd size b data b' rest ∧ cv = b'.length ∧ rest ≠ [] ∧ cd.reader.read rest = none ∧
      cd.breaks size rest b'.length = false

theorem Exit.Good.item {b data out : Bytes} (hread : cd.reader.read data = some (k, out))
    (hfits : cd.breaks size data b.length = false) {e : Exit} (h : e.Good cd size (b ++ out) (data.drop k)) :
    e.Good cd size b data := by
  cases e with
  | linked b' data' => exact ⟨.item hread hfits h.1, h.2⟩
  | conv_done cv rest =>
    obtain ⟨b', hfilled, hrest⟩ := h
    exact ⟨b', .item hread hfits hfilled, hrest⟩

theorem convBuf_nil (n : Nat) (b : Bytes) : convBuf cd size (n + 1) b [] = some (.linked b []) := by
  rw [convBuf, iconv, iconvFrom_nil]
  simp only [append_nil]

theorem convBuf_full {b data : Bytes} (hne : data ≠ []) (h : cd.full data (size - b.length) = true) :
    convBuf cd size (n + 1) b data = some (.linked b data) := by
  rw [convBuf, iconv_full hne h]
  simp only [append_nil]

theorem breaks_full {data : Bytes} (h : cd.full data (size - u) = true) : cd.breaks size data u = true := by
  rw [Converter.breaks, h, Bool.true_or]

theorem breaks_char {data : Bytes} {out : Bytes} (h : cd.full data (size - u) = false)
    (hfront : cd.front data = .char k out) : cd.breaks size data u = false := by
  rw [Converter.breaks, h, hfront, Bool.false_or]

theorem breaks_invalid {data : Bytes} (h : cd.full data (size - u) = false) (hfront : cd.front data = .invalid) :
    cd.breaks size data u = decide (size - u = 0) := by
  rw [Converter.breaks, h, hfront, Bool.false_or]

theorem breaks_incomplete {data : Bytes} (h : cd.full data (size - u) = false)
    (hfront : cd.front data = .incomplete) : cd.breaks size data u = false := by
  rw [Converter.breaks, h, hfront, Bool.false_or]

/-- The inner loop ends, with the items in the buffer for which there is room. -/
theorem convBuf_spec {b data : Bytes} (hn : data.length < n) :
    ∃ e, convBuf cd size n b data = some e ∧ e.Good cd size b data := by
  induction data using cd.reader.induction generalizing n b with
  | stop data hread =>
    obtain ⟨n, rfl⟩ : ∃ i, n = i + 1 := ⟨n - 1, by omega⟩
    by_cases hne : data = []
    · subst hne
      exact ⟨_, convBuf_nil n b, .here b [], .inl rfl⟩
    cases hfull : cd.full data (size - b.length) with
    | true => exact ⟨_, convBuf_full hne hfull, .here b data, .inr (breaks_full hfull)⟩
    | false =>
      cases hfront : cd.front data with
      | char k out => cases (read_char hfront).symm.trans hread
      | invalid => cases (read_invalid hfront).symm.trans hread
      | incomplete =>
        have hloop : convBuf cd size (n + 1) b data = some (.conv_done b.length data) := by
          rw [convBuf, iconv_incomplete hne hfull hfront]
          simp only [append_nil]
        exact ⟨_, hloop, b, .here b data, rfl, hne, hread, breaks_incomplete hfull hfront⟩
  | item data k out hread ih =>
    obtain ⟨n, rfl⟩ : ∃ i, n = i + 1 := ⟨n - 1, by omega⟩
    have hlt := length_drop_lt hread
    have hne : data ≠ [] := by
      rintro rfl
      exact absurd hlt (Nat.not_lt_zero _)
    cases hfull : cd.full data (size - b.length) with
    | true => exact ⟨_, convBuf_full hne hfull, .here b data, .inr (breaks_full hfull)⟩
    | false =>
      cases hfront : cd.front data with
      | incomplete => cases (read_incomplete hfront).symm.trans hread
      | char k' out' =>
        rw [read_char hfront] at hread
        cases hread
        obtain ⟨e, he, hgood⟩ := ih (n := n + 1) (b := b ++ out) (by omega)
        exact ⟨e, (convBuf_char hfull hfront).trans he, hgood.item (read_char hfront) (breaks_char hfull hfront)⟩
      | invalid =>
        obtain ⟨c, data, rfl⟩ := exists_cons_of_ne_nil hne
        have hbreaks := breaks_invalid hfull hfront
        by_cases hroom : size - b.length = 0
        · have hloop : convBuf cd size (n + 1) b (c :: data) = some (.linked b (c :: data)) := by
            rw [convBuf, iconv_invalid hfull hfront]
            simp only [append_nil, hroom, if_true]
          exact ⟨_, hloop, .here b _, .inr (hbreaks.trans (decide_eq_true hroom))⟩
        · -- the byte is replaced, and the loop goes on behind it
          rw [read_invalid hfront] at hread
          cases hread
          obtain ⟨e, he, hgood⟩ := ih (n := n) (b := b ++ [63]) (by omega)
          have hloop : convBuf cd size (n + 1) b (c :: data) = some e := by
            rw [convBuf, iconv_invalid hfull hfront]
            simp only [append_nil, hroom, if_false]
            exact he
          exact ⟨e, hloop, hgood.item (read_invalid hfront) (hbreaks.trans (decide_eq_false hroom))⟩

namespace Filled

variable {b data b' data' : Bytes}

/-- What is written for the data is what has gone into the buffer and what is written for the rest. -/
theorem text (h : Filled cd size b data b' data') : b ++ cd.text data = b' ++ cd.text data' := by
  induction h with
  | here => rfl
  | item hread _ _ ih => rw [Converter.text, text_item hread, ← ih, append_assoc]

theorem tail (h : Filled cd size b data b' data') : cd.tail data = cd.tail data' := by
  induction h with
  | here => rfl
  | item hread _ _ ih => rw [Converter.tail, tail_item hread, ← ih]

theorem pour (h : Filled cd size b data b' data') (l : Nat) :
    cd.pour size data l b.length = cd.pour size data' l b'.length := by
  induction h with
  | here => rfl
  | item hread hfits _ ih =>
    rw [Converter.pour, pour_item hread, hfits, ← ih, length_append]
    rfl

theorem length_le (h : Filled cd size b data b' data') : data'.length ≤ data.length := by
  induction h with
  | here => exact Nat.le_refl _
  | item hread _ _ ih => exact Nat.le_trans ih (Nat.le_of_lt (length_drop_lt hread))

/-- A new buffer takes at least one item. -/
theorem length_lt (h : Filled cd size [] data b' data') (hsize : cd.longest ≤ size)
    (hbreaks : cd.breaks size data' b'.length = true) : data'.length < data.length := by
  cases h with
  | here =>
    rw [length_nil, breaks_new hsize] at hbreaks
    cases hbreaks
  | item hread _ hrest => exact Nat.lt_of_le_of_lt hrest.length_le (length_drop_lt hread)

end Filled

/-! ## `ngx_http_do_iconv` -/

/-- What has been converted when a text is left over with `lu.1` buffers full and `lu.2` bytes in the next one:
all is in the chain if nothing is left over, or if that begins a new buffer. Otherwise the
buffer that was being filled is not linked. -/
structure Poured (cd : Converter) (size : Nat) (all : Bytes) (lu : Nat × Nat) (rest : Bytes) (r : Conved) : Prop where
  rest_eq : r.rest = rest
  cv_eq : r.cv = all.length
  kept : rest = [] ∨ cd.breaks size rest lu.2 = true → r.chain.flatten = all ∧ r.chain ≠ []
  lost : rest ≠ [] → cd.breaks size rest lu.2 = false →
    ∃ out : Bytes, out.length = lu.2 ∧ r.chain.flatten ++ out = all ∧ r.chain.length = lu.1

/-- What is left over for a new buffer is not lost. -/
theorem Poured.of_new {all rest : Bytes} {r : Conved} (hsize : cd.longest ≤ size)
    (hbreaks : cd.breaks size rest u = true) (hne : rest ≠ []) (h : Poured cd size all (l + 1, 0) rest r) :
    Poured cd size all (l, u) rest r := by
  obtain ⟨out, hout, hall, hlength⟩ := h.lost hne (breaks_new hsize rest)
  obtain rfl : out = [] := length_eq_zero_iff.mp hout
  rw [append_nil] at hall
  refine ⟨h.rest_eq, h.cv_eq, fun _ => ⟨hall, ?_⟩, fun _ hfits => ?_⟩
  · rintro hchain
    rw [hchain] at hlength
    exact absurd hlength (zero_ne_add_one l)
  · rw [hbreaks] at hfits
    cases hfits

/-- A text that begins a new buffer is poured into it. -/
theorem pour_new {data : Bytes} (hsize : cd.longest ≤ size) (hbreaks : cd.breaks size data u = true)
    (hread : (cd.reader.read data).isSome) : cd.pour size data l u = cd.pour size data (l + 1) 0 := by
  obtain ⟨⟨k, out⟩, hread⟩ := Option.isSome_iff_exists.mp hread
  rw [Converter.pour, Converter.pour, pour_item hread, pour_item hread, hbreaks, breaks_new hsize, Nat.zero_add]
  rfl

theorem convLoop_spec (hsize : cd.longest ≤ size) {cv : Nat} {chain : List Bytes} {data : Bytes} (hn : data.length < n)
    (hne : data ≠ []) (hcv : cv = chain.flatten.length) :
    ∃ r, convLoop cd size n chain cv data = some r ∧
      Poured cd size (chain.flatten ++ cd.text data) (cd.pour size data chain.length 0) (cd.tail data) r := by
  induction n generalizing chain cv data with
  | zero => exact absurd hn (Nat.not_lt_zero _)
  | succ n ih =>
    obtain ⟨e, he, hgood⟩ : ∃ e, convBuf cd size (data.length + 1) [] data = some e ∧ e.Good cd size [] data :=
      convBuf_spec (lt_succ_self data.length)
    cases e with
    | conv_done k rest =>
      obtain ⟨b, hfilled, hk, hrest, hread, hfits⟩ := hgood
      have hall : cd.text data = b := by
        rw [← nil_append (cd.text data), hfilled.text, Converter.text, text_stop hread, append_nil]
      have htail : cd.tail data = rest := by rw [hfilled.tail, Converter.tail, tail_stop hread]
      have hpour : cd.pour size data chain.length 0 = (chain.length, b.length) := by
        rw [← length_nil, hfilled.pour, Converter.pour, pour_stop hread]
      refine ⟨_, by rw [convLoop, if_neg hne, he], ?_⟩
      rw [hall, htail, hpour]
      refine ⟨rfl, ?_, ?_, fun _ _ => ⟨b, rfl, rfl, rfl⟩⟩
      · rw [length_append, hcv, hk]
      · rintro (h | h)
        · exact absurd h hrest
        · rw [hfits] at h
          cases h
    | linked b data' =>
      obtain ⟨hfilled, hstop⟩ := hgood
      have hall : chain.flatten ++ cd.text data = (chain ++ [b]).flatten ++ cd.text data' := by
        rw [← nil_append (cd.text data), hfilled.text]
        simp
      have hcv' : cv + b.length = (chain ++ [b]).flatten.length := by simp [hcv]
      have hpour : cd.pour size data chain.length 0 = cd.pour size data' chain.length b.length := hfilled.pour _
      have hloop : convLoop cd size (n + 1) chain cv data = convLoop cd size n (chain ++ [b]) (cv + b.length) data' := by
        rw [convLoop, if_neg hne, he]
      rw [hloop, hall, hpour, hfilled.tail]
      by_cases hdata' : data' = []
      · subst hdata'
        obtain ⟨n, rfl⟩ : ∃ i, n = i + 1 := ⟨n - 1, by have := length_pos_iff.mpr hne; omega⟩
        refine ⟨_, by rw [convLoop, if_pos rfl], rfl, ?_, fun _ => ⟨?_, by simp⟩, fun h => absurd rfl h⟩
        · simpa using hcv'
        · simp
      · -- the next buffer takes an item, or what is left over
        have hbreaks := hstop.resolve_left hdata'
        obtain ⟨r, hr, hpoured⟩ := ih (Nat.lt_of_lt_of_le (hfilled.length_lt hsize hbreaks) (le_of_lt_succ hn)) hdata' hcv'
        rw [length_append, length_singleton] at hpoured
        refine ⟨r, hr, ?_⟩
        cases hread : cd.reader.read data' with
        | some item => rwa [pour_new hsize hbreaks (by rw [hread]; rfl)]
        | none =>
          rw [Converter.pour, pour_stop hread, Converter.tail, tail_stop hread] at hpoured ⊢
          exact hpoured.of_new hsize hbreaks hdata'

/-- **The conversion loop ends, with what `Poured` says.** -/
theorem ngx_http_do_iconv_spec (hsize : cd.longest ≤ size) {data : Bytes} (hne : data ≠ []) :
    ∃ r, ngx_http_do_iconv cd size data = some r ∧
      Poured cd size (cd.text data) (cd.pour size data 0 0) (cd.tail data) r :=
  convLoop_spec hsize (lt_succ_self _) hne rfl

/-- Nothing is left over, or nothing is lost with the buffer that is not linked. -/
def Whole (cd : Converter) (size : Nat) (data : Bytes) : Prop :=
  cd.tail data = [] ∨ cd.breaks size (cd.tail data) (cd.pour size data 0 0).2 = true ∨ (cd.pour size data 0 0).2 = 0

theorem Poured.whole_iff {data : Bytes} {r : Conved} (h : Poured cd size (cd.text data) (cd.pour size data 0 0) (cd.tail data) r) :
    r.chain.flatten = cd.text data ↔ Whole cd size data := by
  by_cases hkept : cd.tail data = [] ∨ cd.breaks size (cd.tail data) (cd.pour size data 0 0).2 = true
  · exact ⟨fun _ => or_assoc.mp (.inl hkept), fun _ => (h.kept hkept).1⟩
  · obtain ⟨htail, hfits⟩ := not_or.mp hkept
    rw [Bool.not_eq_true] at hfits
    obtain ⟨out, hout, hall, -⟩ := h.lost htail hfits
    have hzero : Whole cd size data ↔ out.length = 0 := by simp [Whole, htail, hfits, hout]
    rw [hzero, length_eq_zero_iff, ← hall, self_eq_append_right]

/-! ## `set_iconv` -/

/-- `set_iconv` returns the converted bytes of its argument, as long as it says. -/
def SetRight (cd : Converter) (size : Nat) (v : Bytes) : Prop :=
  ngx_http_set_iconv_handler cd size v = some { len := (cd.text v).length, data := cd.text v }

theorem set_right_iff (hsize : cd.longest ≤ size) (v : Bytes) : SetRight cd size v ↔ Whole cd size v := by
  by_cases hv : v = []
  · subst hv
    exact ⟨fun _ => .inl rfl, fun _ => rfl⟩
  · obtain ⟨r, hr, hpoured⟩ := ngx_http_do_iconv_spec hsize hv
    rw [← hpoured.whole_iff, SetRight, ngx_http_set_iconv_handler, if_neg hv, hr, Option.map_some, hpoured.cv_eq]
    simp

/-! ## The body filter -/

/-- The buffers in front of the last one of a body do not say that they are the last. -/
def Flagged (chain : List Buf) : Prop :=
  ∃ bs b, chain = bs ++ [b] ∧ b.last_buf = true ∧ ∀ b ∈ bs, b.last_buf = false

/-- What is right about a body on its way: all that can be converted has gone out, what cannot is kept,
and only the final buffer says that it is the last. -/
structure Right (cd : Converter) (s : State) : Prop where
  going : s.failed = none
  bytes_eq : bytes s.out = cd.text s.received
  uc_eq : s.ended = false → s.uc = cd.tail s.received
  plain : s.ended = false → ∀ b ∈ s.out, b.last_buf = false
  flagged : s.ended = true → Flagged s.out

/-- The calls of the filter that are right: an empty first buffer needs the data behind it to be its own
conversion; and the data of a call breaks off at its end, or where a new buffer begins, or
before anything is in the buffer (and then there is a buffer for the flag of the last one). -/
def Careful (cd : Converter) (size : Nat) (s : State) (chain : List Buf) : Prop :=
  match chain with
  | [] => True
  | b :: _ =>
    if b.data = [] then
      cd.text (s.uc ++ bytes chain) = bytes chain ∧ (isLast chain = true ∨ cd.tail (s.uc ++ bytes chain) = s.uc)
    else
      Whole cd size (s.uc ++ bytes chain) ∧
        (isLast chain = true → cd.tail (s.uc ++ bytes chain) = [] ∨
          cd.breaks size (cd.tail (s.uc ++ bytes chain)) (cd.pour size (s.uc ++ bytes chain) 0 0).2 = true ∨
          0 < (cd.pour size (s.uc ++ bytes chain) 0 0).1)

theorem bytes_append (chain chain' : List Buf) : bytes (chain ++ chain') = bytes chain ++ bytes chain' :=
  flatMap_append

theorem bytes_temp (chain : List Bytes) : bytes (chain.map temp_buf) = chain.flatten := by
  rw [bytes, flatMap_map, flatten_eq_flatMap]
  rfl

variable {chain : List Buf}

/-- The merged buffer. -/
theorem copyChain_spec (h : Delivered chain) (buf : Buf) :
    ∃ buf', copyChain buf chain = .ok buf' ∧ buf'.data = buf.data ++ bytes chain ∧
      buf'.last_buf = (buf.last_buf || isLast chain) := by
  induction chain generalizing buf with
  | nil => exact ⟨buf, rfl, (append_nil _).symm, (Bool.or_false _).symm⟩
  | cons b chain ih =>
    obtain ⟨hmem, hlast⟩ := h
    have hb : (!b.memory && !b.special) = false := by
      rcases hmem b mem_cons_self with h | h
      · rw [h, Bool.not_true, Bool.false_and]
      · rw [h.1, Bool.not_true, Bool.and_false]
    cases hflag : b.last_buf with
    | true =>
      -- a buffer with the flag is the final one
      obtain rfl : chain = [] := by
        cases chain with
        | nil => rfl
        | cons b' chain =>
          have := hlast b mem_cons_self
          rw [hflag] at this
          cases this
      refine ⟨_, by rw [copyChain, hb, hflag]; rfl, ?_, ?_⟩
      · simp [bytes]
      · simp [isLast, hflag]
    | false =>
      have hrest : Delivered chain := by
        refine ⟨fun b hb => hmem b (mem_cons_of_mem _ hb), fun b' hb' => hlast b' ?_⟩
        cases chain with
        | nil => cases hb'
        | cons c chain => exact mem_cons_of_mem _ hb'
      obtain ⟨buf', hcopy, hdata, hlast'⟩ := ih hrest
        { buf with data := buf.data ++ b.data, sync := buf.sync || b.sync, flush := buf.flush || b.flush }
      refine ⟨buf', by rw [copyChain, hb, hflag]; exact hcopy, ?_, ?_⟩
      · simpa [bytes] using hdata
      · simpa [isLast, hflag] using hlast'

theorem setLast_spec (hne : chain ≠ []) (hplain : ∀ b ∈ chain, b.last_buf = false) :
    ∃ chain', setLast chain = .ok chain' ∧ bytes chain' = bytes chain ∧ Flagged chain' := by
  induction chain with
  | nil => exact absurd rfl hne
  | cons b chain ih =>
    cases chain with
    | nil => exact ⟨_, rfl, rfl, [], _, rfl, rfl, nofun⟩
    | cons c chain =>
      obtain ⟨chain', hset, hbytes, bs, l, rfl, hl, hbs⟩ :=
        ih (cons_ne_nil _ _) fun b hb => hplain b (mem_cons_of_mem _ hb)
      refine ⟨b :: (bs ++ [l]), by rw [setLast, hset]; rfl, ?_, b :: bs, l, rfl, hl, ?_⟩
      · simp only [bytes, flatMap_cons] at hbytes ⊢
        rw [hbytes]
      · intro b' hb'
        rcases mem_cons.mp hb' with rfl | hb'
        · exact hplain _ mem_cons_self
        · exact hbs b' hb'

theorem isLast_eq_false (h : isLast chain = false) : ∀ b ∈ chain, b.last_buf = false := by
  simpa [isLast] using h

/-- The flag of a chain is in its final buffer. -/
theorem Delivered.flagged (h : Delivered chain) (hlast : isLast chain = true) : Flagged chain := by
  obtain ⟨b, hb, hflag⟩ := any_eq_true.mp hlast
  have hne := ne_nil_of_mem hb
  rw [← dropLast_append_getLast hne] at hb
  rcases mem_append.mp hb with hb | hb
  · rw [h.2 b hb] at hflag
    cases hflag
  · obtain rfl := mem_singleton.mp hb
    exact ⟨chain.dropLast, _, (dropLast_append_getLast hne).symm, hflag, h.2⟩

theorem Flagged.behind {chain' : List Buf} (h : ∀ b ∈ chain, b.last_buf = false) (h' : Flagged chain') :
    Flagged (chain ++ chain') := by
  obtain ⟨bs, b, rfl, hb, hbs⟩ := h'
  refine ⟨chain ++ bs, b, (append_assoc _ _ _).symm, hb, fun b' hb' => ?_⟩
  exact (mem_append.mp hb').elim (h b') (hbs b')

/-- `ngx_http_iconv_filter_convert` hands on what the loop has linked, unless there is no buffer for the flag. -/
theorem convert_spec (hsize : cd.longest ≤ size) {buf : Buf} (hne : buf.data ≠ []) :
    ∃ r, Poured cd size (cd.text buf.data) (cd.pour size buf.data 0 0) (cd.tail buf.data) r ∧
      if buf.last_buf = true ∧ r.chain = [] then ngx_http_iconv_filter_convert cd size buf = .error .null
      else ∃ out, ngx_http_iconv_filter_convert cd size buf = .ok (cd.tail buf.data, out) ∧ bytes out = r.chain.flatten ∧
        (buf.last_buf = false → ∀ b ∈ out, b.last_buf = false) ∧ (buf.last_buf = true → Flagged out) := by
  obtain ⟨r, hr, hpoured⟩ := ngx_http_do_iconv_spec hsize hne
  have huc : buf.data.drop (buf.data.length - r.rest.length) = cd.tail buf.data := by
    rw [hpoured.rest_eq]
    exact (suffix_iff_eq_drop.mp (tail_suffix buf.data)).symm
  have hplain : ∀ b ∈ r.chain.map temp_buf, b.last_buf = false := by
    intro b hb
    obtain ⟨data, -, rfl⟩ := mem_map.mp hb
    rfl
  refine ⟨r, hpoured, ?_⟩
  split
  · next h =>
    rw [ngx_http_iconv_filter_convert, if_pos hne, hr]
    simp only [h.1, h.2, if_true, map_nil]
    rfl
  · next h =>
    cases hlast : buf.last_buf with
    | false =>
      refine ⟨r.chain.map temp_buf, ?_, bytes_temp _, fun _ => hplain, nofun⟩
      rw [ngx_http_iconv_filter_convert, if_pos hne, hr, hlast, ← huc]
      rfl
    | true =>
      have hchain : r.chain.map temp_buf ≠ [] := by
        intro hnil
        exact h ⟨hlast, map_eq_nil_iff.mp hnil⟩
      obtain ⟨out, hset, hbytes, hflagged⟩ := setLast_spec hchain hplain
      refine ⟨out, ?_, hbytes.trans (bytes_temp _), nofun, fun _ => hflagged⟩
      rw [ngx_http_iconv_filter_convert, if_pos hne, hr, ← huc]
      simp only [hlast, if_true, hset]
      rfl

/-- There is a buffer unless the data breaks off before one is full. -/
theorem Poured.linked_iff {all rest : Bytes} {lu : Nat × Nat} {r : Conved} (h : Poured cd size all lu rest r) :
    r.chain ≠ [] ↔ rest = [] ∨ cd.breaks size rest lu.2 = true ∨ 0 < lu.1 := by
  by_cases hkept : rest = [] ∨ cd.breaks size rest lu.2 = true
  · exact ⟨fun _ => or_assoc.mp (.inl hkept), fun _ => (h.kept hkept).2⟩
  · obtain ⟨hrest, hfits⟩ := not_or.mp hkept
    rw [Bool.not_eq_true] at hfits
    obtain ⟨-, -, -, hlength⟩ := h.lost hrest hfits
    rw [← length_pos_iff, hlength]
    simp [hrest, hfits]

theorem Right.init : Right cd State.init :=
  ⟨rfl, rfl, fun _ => rfl, nofun, nofun⟩

/-- The state after a call that does not fail. -/
def State.next (s : State) (data uc : Bytes) (out : List Buf) (last : Bool) : State :=
  { s with uc, received := s.received ++ data, out := s.out ++ out, ended := last }

section

variable {s : State} {data uc : Bytes} {out : List Buf} {last : Bool}

/-- A call whose output is the conversion of what was kept and what has come. -/
theorem Right.next (hs : Right cd s) (hended : s.ended = false) (hbytes : bytes out = cd.text (s.uc ++ data))
    (huc : last = false → uc = cd.tail (s.uc ++ data)) (hplain : last = false → ∀ b ∈ out, b.last_buf = false)
    (hflagged : last = true → Flagged out) : Right cd (s.next data uc out last) := by
  obtain ⟨htext, htail⟩ := recode_append (r := cd.reader) s.received data
  have huc' := hs.uc_eq hended
  constructor
  · exact hs.going
  · rw [State.next, bytes_append, hs.bytes_eq, hbytes, huc']
    exact htext.symm
  · intro h
    rw [State.next, huc h, huc']
    exact htail.symm
  · intro h b hb
    exact (mem_append.mp hb).elim (hs.plain hended b) (hplain h b)
  · intro h
    exact (hflagged h).behind (hs.plain hended)

theorem Right.of_next (hs : Right cd s) (hended : s.ended = false) (h : Right cd (s.next data uc out last)) :
    bytes out = cd.text (s.uc ++ data) ∧ (last = false → uc = cd.tail (s.uc ++ data)) := by
  obtain ⟨htext, htail⟩ := recode_append (r := cd.reader) s.received data
  have huc' := hs.uc_eq hended
  constructor
  · have hbytes : bytes (s.out ++ out) = cd.text (s.received ++ data) := h.bytes_eq
    rw [bytes_append, hs.bytes_eq] at hbytes
    rw [huc']
    exact append_cancel_left (hbytes.trans htext)
  · intro hlast
    rw [huc']
    exact (h.uc_eq hlast).trans htail

end

/-- A call can be made until the last buffer has come. -/
theorem step_eq_some {s s' : State} (h : step cd size s chain = some s') :
    s.ended = false ∧ Delivered chain ∧
      match ngx_http_iconv_body_filter cd size s.uc chain with
      | .error e => s'.failed = some e
      | .ok (uc, out) => s' = s.next (bytes chain) uc out (isLast chain) := by
  rw [step] at h
  split at h
  · next hcan =>
    refine ⟨hcan.2.1, hcan.2.2, ?_⟩
    dsimp only at h
    cases hfilter : ngx_http_iconv_body_filter cd size s.uc chain with
    | error e =>
      rw [hfilter] at h
      cases h
      rfl
    | ok p =>
      rw [hfilter] at h
      cases h
      rfl
  · cases h

/-- A call whose first buffer is empty hands on what it gets. -/
theorem pass_right_iff {s : State} (hs : Right cd s) (hended : s.ended = false)
    (hdelivered : Delivered chain) :
    Right cd (s.next (bytes chain) s.uc chain (isLast chain)) ↔
      cd.text (s.uc ++ bytes chain) = bytes chain ∧ (isLast chain = true ∨ cd.tail (s.uc ++ bytes chain) = s.uc) := by
  rw [or_iff_not_imp_left, Bool.not_eq_true]
  constructor
  · intro h
    obtain ⟨hbytes, huc⟩ := hs.of_next hended h
    exact ⟨hbytes.symm, fun hlast => (huc hlast).symm⟩
  · rintro ⟨hbytes, huc⟩
    exact hs.next hended hbytes.symm (fun hlast => (huc hlast).symm) isLast_eq_false hdelivered.flagged

/-- A right body stays right in the careful calls, and in no others. -/
theorem step_right_iff (hsize : cd.longest ≤ size) {s s' : State} (hs : Right cd s)
    (h : step cd size s chain = some s') : Right cd s' ↔ Careful cd size s chain := by
  obtain ⟨hended, hdelivered, hnext⟩ := step_eq_some h
  cases chain with
  | nil =>
    dsimp only [ngx_http_iconv_body_filter] at hnext
    subst hnext
    have htail : cd.tail s.uc = s.uc := by
      rw [hs.uc_eq hended, Converter.tail, tail_stop (read_tail _)]
    have htext : cd.text s.uc = [] := by
      rw [hs.uc_eq hended, Converter.text, text_stop (read_tail _)]
    have hright := (pass_right_iff hs hended hdelivered).mpr
      ⟨by simp [bytes, htext], .inr (by simp [bytes, htail])⟩
    exact ⟨fun _ => trivial, fun _ => hright⟩
  | cons b chain =>
    by_cases hb : b.data = []
    · have hpass : ngx_http_iconv_body_filter cd size s.uc (b :: chain) = .ok (s.uc, b :: chain) := by
        rw [ngx_http_iconv_body_filter, if_pos hb]
      rw [hpass] at hnext
      dsimp only at hnext
      rw [hnext, pass_right_iff hs hended hdelivered, Careful, if_pos hb]
    · obtain ⟨buf, hmerge, hdata, hlast⟩ := copyChain_spec hdelivered (temp_buf s.uc)
      have hfilter : ngx_http_iconv_body_filter cd size s.uc (b :: chain) = ngx_http_iconv_filter_convert cd size buf := by
        rw [ngx_http_iconv_body_filter, if_neg hb, ngx_http_iconv_merge_chain_link, hmerge]
        rfl
      have hne : buf.data ≠ [] := by
        rw [hdata]
        simp [bytes, hb]
      replace hdata : buf.data = s.uc ++ bytes (b :: chain) := hdata
      replace hlast : buf.last_buf = isLast (b :: chain) := hlast.trans (Bool.false_or _)
      obtain ⟨r, hpoured, hconvert⟩ := convert_spec hsize hne
      rw [hdata, hlast, ← hfilter] at hconvert
      rw [hdata] at hpoured
      rw [Careful, if_neg hb, ← hpoured.whole_iff, ← hpoured.linked_iff]
      by_cases hnull : isLast (b :: chain) = true ∧ r.chain = []
      · -- the flag of the last buffer is set in a buffer that is not there
        rw [if_pos hnull] at hconvert
        rw [hconvert] at hnext
        have hfailed : ¬ Right cd s' := by
          intro hright
          cases hnext.symm.trans hright.going
        exact iff_of_false hfailed fun hcareful => hcareful.2 hnull.1 hnull.2
      · rw [if_neg hnull] at hconvert
        obtain ⟨out, hout, hbytes, hplain, hflagged⟩ := hconvert
        rw [hout] at hnext
        dsimp only at hnext
        subst hnext
        constructor
        · intro hright
          exact ⟨hbytes.symm.trans (hs.of_next hended hright).1, fun hlast hchain => hnull ⟨hlast, hchain⟩⟩
        · rintro ⟨htext, -⟩
          exact hs.next hended (hbytes.trans htext) (fun _ => rfl) hplain hflagged

/-- **The filter is right about a body in all of its calls if and only if they are careful; `set_iconv` is right
about a value if and only if nothing is lost with it; and the conversion loop ends.** -/
theorem iconv_right_iff (cd : Converter) {size : Nat} (hsize : cd.longest ≤ size) :
    (∀ calls, Always (step cd size) (Right cd) .init calls ↔ Along (step cd size) (Careful cd size) .init calls) ∧
      (∀ v, SetRight cd size v ↔ Whole cd size v) ∧ ∀ data, (ngx_http_do_iconv cd size data).isSome := by
  refine ⟨fun calls => ?_, set_right_iff hsize, fun data => ?_⟩
  · exact always_iff_along (fun _ hs => hs) (fun s chain s' hs h => (step_right_iff hsize hs h).mpr)
      (fun s chain s' hs h => (step_right_iff hsize hs h).mp) Right.init
  · by_cases hdata : data = []
    · subst hdata
      rfl
    · obtain ⟨r, hr, -⟩ := ngx_http_do_iconv_spec hsize hdata
      rw [hr]
      rfl

/-- From UTF-8 to ISO 8859-1, without the characters that the latter does not have. -/
def latin : Converter where
  front
    | [] => .incomplete
    | [c] => if c < 128 then .char 1 [c] else if c = 194 ∨ c = 195 then .incomplete else .invalid
    | c :: d :: _ =>
      if c < 128 then .char 1 [c]
      else if (c = 194 ∨ c = 195) ∧ 128 ≤ d ∧ d < 192 then .char 2 [if c = 194 then d else d + 64]
      else .invalid
  full _ room := room = 0
  longest := 1
  longest_pos := Nat.one_pos
  char_sound data k out h := by
    split at h
    · cases h
    · split at h
      · cases h
        exact ⟨Nat.one_pos, Nat.le_refl 1⟩
      · split at h <;> cases h
    · split at h
      · cases h
        exact ⟨Nat.one_pos, Nat.le_add_left 1 _⟩
      · split at h
        · cases h
          exact ⟨Nat.two_pos, Nat.le_add_left 2 _⟩
        · cases h
  invalid_ne data h := by
    rintro rfl
    cases h
  char_stable data more k out h := by
    split at h
    · cases h
    · next c =>
      split at h
      · next hc =>
        cases h
        cases more <;> simp only [singleton_append, append_nil, hc, if_true]
      · split at h <;> cases h
    · exact h
  invalid_stable data more h := by
    split at h
    · cases h
    · next c =>
      split at h
      · cases h
      · next hc =>
        split at h
        · cases h
        · next hlead =>
          cases more with
          | nil => simp only [append_nil, hc, hlead, if_false]
          | cons d more => simp only [singleton_append, hc, hlead, false_and, if_false]
    · exact h
  full_of_lt data k out room h hlt := by
    have hout : out.length = 1 := by
      split at h
      · cases h
      · split at h
        · cases h
          rfl
        · split at h <;> cases h
      · split at h
        · cases h
          rfl
        · split at h
          · cases h
            rfl
          · cases h
    exact decide_eq_true (by omega)
  lt_of_full data room h := by
    have := of_decide_eq_true h
    omega

/-- A chain with one buffer. -/
def oneBuf (data : Bytes) (last : Bool) : List Buf := [{ temp_buf data with last_buf := last }]

/-- The first byte of a body is lost when the second begins a character that the next call completes. -/
theorem latin_loses : ¬ ∀ calls, Always (step latin 2) (Right latin) .init calls := by
  intro h
  have hrun : run (step latin 2) .init [oneBuf [97, 195] false, oneBuf [169] true] =
      some { uc := [], received := [97, 195, 169], out := oneBuf [233] true, ended := true, failed := none } := by
    decide
  have hbytes := ((h _).reached hrun).bytes_eq
  revert hbytes
  decide

theorem latin_right :
    (∀ calls, Always (step latin 2) (Right latin) .init calls ↔ Along (step latin 2) (Careful latin 2) .init calls) ∧
      (∀ v, SetRight latin 2 v ↔ Whole latin 2 v) ∧ ∀ data, (ngx_http_do_iconv latin 2 data).isSome :=
  iconv_right_iff latin (show 1 ≤ 2 by decide)

end OpenResty.Filter.Iconv
