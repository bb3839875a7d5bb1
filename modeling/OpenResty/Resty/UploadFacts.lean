/-
When `read` returns the parts of a form.

Each call is followed through the pattern that it reads up to; what the reader
does at a boundary decides whether the next part is read from its beginning.
-/
import OpenResty.Resty.Upload

namespace OpenResty.Resty.Upload

open Lib List Nat Prod

variable {c : Conf} {r r' r₁ r₂ : Reader} {es es' : List Event} {line rest t body : Bytes} {size : Nat}

/-! ## Calls -/

theorem yields_append : Yields c r (es ++ es') r' ↔ ∃ r₁, Yields c r es r₁ ∧ Yields c r₁ es' r' := by
  induction es generalizing r with
  | nil => exact ⟨fun h => ⟨r, rfl, h⟩, by rintro ⟨_, rfl, h⟩; exact h⟩
  | cons e es ih => simp only [cons_append, Yields, ih, exists_and_left, and_assoc]

theorem Yields.unique (h₁ : Yields c r es r₁) (h₂ : Yields c r es r₂) : r₁ = r₂ := by
  induction es generalizing r with
  | nil => exact h₁.symm.trans h₂
  | cons e es ih => exact ih h₁.2 h₂.2

/-- The calls after the first see only what it leaves. -/
theorem Yields.congr_read {e : Event} (hread : read c r₁ = read c r₂) : Yields c r₁ (e :: es) r' ↔ Yields c r₂ (e :: es) r' := by
  simp only [Yields, hread]

/-! ## Patterns -/

theorem receiveuntil_matched (sock : Socket) (pattern : Bytes) : receiveuntil sock pattern true size rest = (.finished, false, rest) := rfl

variable {bs pattern : Bytes}

/-- What is before the pattern is given out as a whole, or a chunk of it. -/
theorem receiveuntil_first (sock : Socket) (hpattern : pattern ≠ []) (hsize : 0 < size)
    (hfirst : First pattern body) :
    receiveuntil sock pattern false size (body ++ pattern ++ t) =
      if sock.chunk pattern size (body ++ pattern ++ t) ≤ body.length then
        (.chunk (body.take (sock.chunk pattern size (body ++ pattern ++ t))), false,
          (body ++ pattern ++ t).drop (sock.chunk pattern size (body ++ pattern ++ t)))
      else (.chunk body, true, t) := by
  have hne : size ≠ 0 := Nat.pos_iff_ne_zero.mp hsize
  simp only [receiveuntil, before_append hpattern hfirst, hne, ne_eq, not_false_eq_true, true_and, decide_true,
    Bool.false_eq_true, if_false]

theorem first_crlf (h : ¬crlf <:+: line) : First crlf line := first_of_notMem (by decide) h

theorem first_delimiter (h : ¬c.delimiter <:+: body) : First c.delimiter body :=
  first_of_notMem (t := 10 :: dashes ++ c.boundary) (by simpa [dashes] using c.boundary_line) h

theorem receiveuntil_line (sock : Socket) (hline : ¬crlf <:+: line) (hsize : line.length < size) :
    receiveuntil sock crlf false size (line ++ crlf ++ t) = (.chunk line, true, t) := by
  rw [receiveuntil_first sock (by decide) (zero_lt_of_lt hsize) (first_crlf hline), sock.chunk_crlf,
    if_neg (Nat.not_le.mpr hsize)]

theorem receiveuntil_searching (sock : Socket) (pattern : Bytes) : (receiveuntil sock pattern false size rest).1 ≠ .finished := by
  simp only [receiveuntil, Bool.false_eq_true, if_false]
  split
  · split <;> simp
  · split <;> simp

/-! ## Lines -/

/-- A reader before the headers of a part. -/
def headerAt (c : Conf) (rest : Bytes) : Reader :=
  { state := .reading_header, pattern := c.delimiter, boundaryMatched := false, lineMatched := false, rest }

/-- In its body. -/
def bodyAt (c : Conf) (rest : Bytes) : Reader := { headerAt c rest with state := .reading_body }

/-- At the end of its body, behind the boundary. -/
def endAt (c : Conf) (rest : Bytes) : Reader := { bodyAt c rest with boundaryMatched := true }

/-- What a call at a line finds, when the line is short enough. -/
theorem read_line_line (hmatched : r.lineMatched = false) (hrest : r.rest = line ++ crlf ++ t) (hline : ¬crlf <:+: line)
    (hsize : line.length < size) :
    read_line c r size = (.chunk line, { r with lineMatched := true, rest := t }) := by
  rw [read_line, hmatched, hrest, receiveuntil_line c.sock hline hsize]

theorem read_line_matched (hmatched : r.lineMatched = true) : read_line c r size = (.finished, { r with lineMatched := false }) := by
  rw [read_line, hmatched, receiveuntil_matched]

/-- At a line that is too long, or that the size cuts off, there is something left
to read of it. -/
theorem read_line_long (hmatched : r.lineMatched = false) (hrest : r.rest = line ++ crlf ++ t) (hline : ¬crlf <:+: line)
    (hsize : size ≤ line.length) : ∃ bs r', read_line c r size = (.chunk bs, r') ∧ r'.lineMatched = false := by
  rw [read_line, hmatched, hrest]
  by_cases hzero : size = 0
  · subst hzero
    simp only [receiveuntil, before_append (by decide) (first_crlf hline), ne_eq, not_true_eq_false, false_and, decide_false,
      Bool.false_eq_true, if_false]
    exact ⟨_, _, rfl, rfl⟩
  · rw [receiveuntil_first c.sock (by decide) (Nat.pos_of_ne_zero hzero) (first_crlf hline), c.sock.chunk_crlf, if_pos hsize]
    exact ⟨_, _, rfl, rfl⟩

theorem discard_line_line (hmatched : r.lineMatched = false) (hrest : r.rest = line ++ crlf ++ t) (hline : ¬crlf <:+: line) :
    if line.length < c.line_size then discard_line c r = (.ok (), { r with rest := t })
    else ∃ err r', discard_line c r = (.error err, r') := by
  split
  · next hsize =>
    rw [discard_line, read_line_line hmatched hrest hline hsize]
    simp only [read_line_matched, hmatched]
  · next hsize =>
    obtain ⟨bs, r', hread, hmatched'⟩ := read_line_long hmatched hrest hline (Nat.not_lt.mp hsize)
    rw [discard_line, hread]
    dsimp only
    cases hgot : read_line c r' 1 with
    | mk got r'' =>
      cases got with
      | chunk dummy => exact ⟨_, _, rfl⟩
      | closed => exact ⟨_, _, rfl⟩
      | finished =>
        have hnot : (receiveuntil c.sock crlf false 1 r'.rest).1 ≠ .finished := receiveuntil_searching c.sock crlf
        rw [read_line, hmatched'] at hgot
        exact absurd (congrArg fst hgot) hnot

theorem read_header_line (hne : line ≠ []) (hline : ¬crlf <:+: line) (hsize : line.length < c.line_size) :
    read c (headerAt c (line ++ crlf ++ t)) = (headerEvent line, headerAt c t) := by
  change read_header c _ = _
  rw [read_header, read_line_line rfl rfl hline hsize]
  simp only [read_line_matched, if_neg hne]
  rfl

/-- The line after the last header. -/
theorem read_header_blank (hsize : 0 < c.line_size) : read c (headerAt c (crlf ++ t)) = read c (bodyAt c t) := by
  change read_header c _ = read_body_part c _
  rw [read_header, read_line_line rfl rfl (show ¬crlf <:+: [] by decide) hsize]
  simp only [read_line_matched, if_true]
  rfl

theorem yields_headers {headers : List Bytes}
    (h : ∀ line ∈ headers, line ≠ [] ∧ ¬crlf <:+: line ∧ line.length < c.line_size) :
    Yields c (headerAt c (encodeHeaders headers ++ t)) (headers.map headerEvent) (headerAt c t) := by
  induction headers with
  | nil => rfl
  | cons line headers ih =>
    obtain ⟨hne, hline, hsize⟩ := h line mem_cons_self
    have hread := read_header_line (t := encodeHeaders headers ++ t) hne hline hsize
    have hencode : encodeHeaders (line :: headers) ++ t = line ++ crlf ++ (encodeHeaders headers ++ t) := by
      simp [encodeHeaders]
    rw [map_cons, hencode]
    refine ⟨by rw [hread], ?_⟩
    rw [hread]
    exact ih fun line hline => h line (mem_cons_of_mem _ hline)

/-! ## Bodies -/

variable {matched : Bool}

theorem read_body_part_chunk
    (h : receiveuntil c.sock r.pattern r.boundaryMatched c.size r.rest = (.chunk bs, matched, rest)) :
    read_body_part c r = (.body bs, { r with boundaryMatched := matched, rest }) := by
  rw [read_body_part, read2boundary, h]

/-- The body comes in chunks, the last of which is found with the boundary. -/
theorem yields_body (hsize : 0 < c.size) (hfree : ¬c.delimiter <:+: body) :
    ∃ chunks : List Bytes, chunks ≠ [] ∧ chunks.flatten = body ∧
      Yields c (bodyAt c (body ++ c.delimiter ++ t)) (chunks.map .body) (endAt c t) := by
  induction hlen : body.length using Nat.strong_induction_on generalizing body with
  | _ n ih =>
    have hdelimiter : c.delimiter ≠ [] := by simp [Conf.delimiter, crlf]
    have hgot := receiveuntil_first c.sock (t := t) hdelimiter hsize (first_delimiter hfree)
    by_cases hcut : c.sock.chunk c.delimiter c.size (body ++ c.delimiter ++ t) ≤ body.length
    · have hpos := c.sock.chunk_pos c.delimiter c.size (body ++ c.delimiter ++ t) hsize
      generalize c.sock.chunk c.delimiter c.size (body ++ c.delimiter ++ t) = m at hcut hpos hgot
      rw [if_pos hcut] at hgot
      have hread : read c (bodyAt c (body ++ c.delimiter ++ t)) =
          (.body (body.take m), bodyAt c (body.drop m ++ c.delimiter ++ t)) := by
        refine (read_body_part_chunk hgot).trans ?_
        rw [append_assoc, drop_append_of_le_length hcut, append_assoc]
        rfl
      obtain ⟨chunks, -, hflatten, hyields⟩ := ih (body.drop m).length (by rw [length_drop]; omega)
        (fun h => hfree (h.trans (drop_suffix m body).isInfix)) rfl
      refine ⟨body.take m :: chunks, by simp, by rw [List.flatten_cons, hflatten, take_append_drop], ?_⟩
      rw [map_cons]
      refine ⟨by rw [hread], ?_⟩
      rw [hread]
      exact hyields
    · rw [if_neg hcut] at hgot
      have hread : read c (bodyAt c (body ++ c.delimiter ++ t)) = (.body body, endAt c t) := read_body_part_chunk hgot
      exact ⟨[body], by simp, by simp, by rw [hread], by rw [hread]; rfl⟩

/-- A part, up to its end. -/
theorem yields_part (hsize : 0 < c.size) (hline : 0 < c.line_size) (part : Part c) :
    ∃ chunks : List Bytes, chunks.flatten = part.body ∧
      Yields c (headerAt c (part.encode t)) (part.headers.map headerEvent ++ chunks.map .body) (endAt c t) := by
  obtain ⟨chunks, hne, hflatten, hbody⟩ := yields_body (t := t) hsize part.body_free
  obtain ⟨chunk, chunks, rfl⟩ := exists_cons_of_ne_nil hne
  refine ⟨_, hflatten, yields_append.mpr ⟨headerAt c (crlf ++ (part.body ++ c.delimiter ++ t)), ?_, ?_⟩⟩
  · have hencode : part.encode t = encodeHeaders part.headers ++ (crlf ++ (part.body ++ c.delimiter ++ t)) := by
      simp [Part.encode]
    rw [hencode]
    exact yields_headers part.header_line
  · rw [map_cons] at hbody ⊢
    exact (Yields.congr_read (read_header_blank hline)).mpr hbody

/-! ## Boundaries -/

variable {a b : UInt8}

/-- What `read_body_part` does behind a boundary. -/
theorem read_end : read c (endAt c (a :: b :: rest)) =
    if [a, b] = dashes then
      if c.size = 0 then (.hangs, bodyAt c rest) else (.part_end, { bodyAt c rest with state := .eof, rest := [] })
    else if [a, b] = crlf then (.part_end, headerAt c rest)
    else
      match discard_line c (bodyAt c rest) with
      | (.error err, r) => (.failed err, r)
      | (.ok (), r) => (.part_end, { r with state := .reading_header }) := by
  have hread : read c (endAt c (a :: b :: rest)) = read_body_part c (endAt c (a :: b :: rest)) := rfl
  have hgot : read2boundary c (endAt c (a :: b :: rest)) = (.finished, bodyAt c (a :: b :: rest)) := rfl
  have hreceive : receive2 (bodyAt c (a :: b :: rest)) = (some [a, b], bodyAt c rest) := by simp [receive2, bodyAt, headerAt]
  rw [hread, read_body_part, hgot]
  simp only [hreceive, Option.some.injEq]
  rfl

theorem read_end_last (hsize : 0 < c.size) :
    read c (endAt c (dashes ++ t)) = (.part_end, { bodyAt c t with state := .eof, rest := [] }) := by
  have hne : c.size ≠ 0 := Nat.pos_iff_ne_zero.mp hsize
  exact read_end.trans ((if_pos rfl).trans (if_neg hne))

theorem read_end_crlf : read c (endAt c (crlf ++ t)) = (.part_end, headerAt c t) :=
  read_end.trans ((if_neg (by decide)).trans (if_pos rfl))

/-- The rest of a line is discarded when it is short enough. -/
theorem read_end_line (hdashes : [a, b] ≠ dashes) (hcrlf : [a, b] ≠ crlf) (hline : ¬crlf <:+: line) :
    if line.length < c.line_size then read c (endAt c (a :: b :: (line ++ crlf ++ t))) = (.part_end, headerAt c t)
    else ∃ err r', read c (endAt c (a :: b :: (line ++ crlf ++ t))) = (.failed err, r') := by
  have hdiscard := discard_line_line (c := c) (r := bodyAt c (line ++ crlf ++ t)) rfl rfl hline
  rw [read_end, if_neg hdashes, if_neg hcrlf]
  split at hdiscard
  · next hsize =>
    rw [if_pos hsize, hdiscard]
    rfl
  · next hsize =>
    rw [if_neg hsize]
    obtain ⟨err, r', hdiscard⟩ := hdiscard
    rw [hdiscard]
    exact ⟨err, r', rfl⟩

theorem Padding.free (padding : Padding) : ¬crlf <:+: padding.bytes := by
  intro h
  rcases padding.blank 13 (h.subset (by decide)) with h | h <;> cases h

variable {padding : Padding}

theorem Padding.ne (h : a ∈ padding.bytes) : [a, b] ≠ dashes ∧ [a, b] ≠ crlf := by
  rcases padding.blank a h with rfl | rfl <;> simp [dashes, crlf]

/-- The paddings that are not taken for something else. -/
def Padding.Good (c : Conf) (padding : Padding) : Prop := padding.bytes.length ≠ 1 ∧ padding.bytes.length < c.line_size + 2

theorem read_end_good (h : padding.Good c) :
    read c (endAt c (padding.bytes ++ crlf ++ t)) = (.part_end, headerAt c t) := by
  obtain ⟨hone, hlong⟩ := h
  match hbytes : padding.bytes with
  | [] => exact read_end_crlf
  | [a] => simp [hbytes] at hone
  | a :: b :: line =>
    obtain ⟨hdashes, hcrlf⟩ := padding.ne (a := a) (b := b) (by simp [hbytes])
    have hline : ¬crlf <:+: line := fun h => padding.free (hbytes ▸ h.trans (suffix_append [a, b] line).isInfix)
    have hread := read_end_line (c := c) (t := t) hdashes hcrlf hline
    rw [hbytes, length_cons, length_cons] at hlong
    rwa [if_pos (by omega)] at hread

theorem read_end_long (hlong : c.line_size + 2 ≤ padding.bytes.length) :
    ∃ err r', read c (endAt c (padding.bytes ++ crlf ++ t)) = (.failed err, r') := by
  match hbytes : padding.bytes with
  | [] => simp [hbytes] at hlong
  | [a] => simp [hbytes] at hlong
  | a :: b :: line =>
    obtain ⟨hdashes, hcrlf⟩ := padding.ne (a := a) (b := b) (by simp [hbytes])
    have hline : ¬crlf <:+: line := fun h => padding.free (hbytes ▸ h.trans (suffix_append [a, b] line).isInfix)
    have hread := read_end_line (c := c) (t := t) hdashes hcrlf hline
    rw [hbytes, length_cons, length_cons] at hlong
    rwa [if_neg (by omega)] at hread

/-- Behind a padding of one byte the end of the line is read with it, and the next
line is discarded for it. -/
theorem read_end_one (hblank : a = 32 ∨ a = 9) (hline : ¬crlf <:+: line) :
    if line.length + 1 < c.line_size then read c (endAt c ([a] ++ crlf ++ (line ++ crlf ++ t))) = (.part_end, headerAt c t)
    else ∃ err r', read c (endAt c ([a] ++ crlf ++ (line ++ crlf ++ t))) = (.failed err, r') := by
  have hne : [a, 13] ≠ dashes ∧ [a, 13] ≠ crlf := by rcases hblank with rfl | rfl <;> decide
  have hfree : ¬crlf <:+: 10 :: line := by
    intro h
    rcases infix_cons_iff.mp h with h | h
    · exact absurd (cons_prefix_cons.mp h).1 (by decide)
    · exact hline h
  exact read_end_line (c := c) (t := t) hne.1 hne.2 hfree

/-! ## What a call cannot return -/

theorem read_body_part_event (c : Conf) (r : Reader) :
    (∀ line field, (read_body_part c r).1 ≠ .header line field) ∧ (read_body_part c r).1 ≠ .eof := by
  unfold read_body_part
  split
  · simp
  · simp
  · dsimp only
    split
    · split <;> simp
    · split
      · simp
      · split <;> simp

theorem read_end_ne_body (bs : Bytes) : (read c (endAt c rest)).1 ≠ .body bs := by
  have hread : read c (endAt c rest) = read_body_part c (endAt c rest) := rfl
  have hgot : read2boundary c (endAt c rest) = (.finished, bodyAt c rest) := rfl
  rw [hread, read_body_part, hgot]
  dsimp only
  split
  · split <;> simp
  · split
    · simp
    · split <;> simp

/-- A chunk is empty only when the pattern comes at once. -/
theorem receiveuntil_chunk_nil (sock : Socket) (hsize : 0 < size)
    (h : receiveuntil sock pattern false size rest = (.chunk [], matched, t)) : pattern <+: rest := by
  have hpos := sock.chunk_pos pattern size rest hsize
  have htake : ∀ {data : Bytes} {n : Nat}, 0 < n → n ≤ data.length → data.take n ≠ [] := by
    intro data n hn hle hnil
    have hlength := congrArg List.length hnil
    simp only [length_take, length_nil] at hlength
    omega
  have hgot := congrArg fst h
  simp only [receiveuntil, Bool.false_eq_true, if_false] at hgot
  cases hbefore : before pattern rest with
  | none =>
    rw [hbefore] at hgot
    dsimp only at hgot
    split at hgot
    · next hcut => exact absurd (Got.chunk.inj hgot) (htake hpos hcut.2)
    · cases hgot
  | some found =>
    obtain ⟨data, tail⟩ := found
    rw [hbefore] at hgot
    dsimp only at hgot
    split at hgot
    · next hcut => exact absurd (Got.chunk.inj hgot) (htake hpos hcut.2)
    · cases Got.chunk.inj hgot
      exact ⟨tail, by simpa using (eq_of_before hbefore).symm⟩

/-- At a text that is not an empty line there is a header, or no line. -/
theorem read_header_event (hsize : 0 < c.line_size) (hstart : ¬crlf <+: rest) :
    (∀ bs, (read c (headerAt c rest)).1 ≠ .body bs) ∧ (read c (headerAt c rest)).1 ≠ .part_end := by
  have hline : ∀ r', read_line c (headerAt c rest) c.line_size ≠ (.chunk [], r') := by
    intro r' hread
    cases hgot : receiveuntil c.sock crlf false c.line_size rest with
    | mk got found =>
      have hchunk : got = .chunk [] := (congrArg fst hgot).symm.trans (congrArg fst hread)
      rw [hchunk] at hgot
      exact hstart (receiveuntil_chunk_nil c.sock hsize hgot)
  have hread : read c (headerAt c rest) = read_header c (headerAt c rest) := rfl
  rw [hread]
  unfold read_header
  split
  · simp
  · split <;> simp
  · next line r' hgot =>
    split
    · simp
    · simp
    · split
      · next hnil => exact absurd (hnil ▸ hgot) (hline r')
      · simp

/-- Behind the end of a line that was taken for an empty one, the boundary is not
found. -/
theorem read_dash_event (hsize : 0 < c.size) :
    (read c (bodyAt c (dashes ++ rest))).1 ≠ .body [] ∧ (read c (bodyAt c (dashes ++ rest))).1 ≠ .part_end := by
  have hread : read c (bodyAt c (dashes ++ rest)) = read_body_part c (bodyAt c (dashes ++ rest)) := rfl
  rw [hread]
  cases hgot : receiveuntil c.sock c.delimiter false c.size (dashes ++ rest) with
  | mk got found =>
    obtain ⟨matched, tail⟩ := found
    cases got with
    | finished => exact absurd (congrArg fst hgot) (receiveuntil_searching c.sock c.delimiter)
    | closed =>
      have hclosed : read2boundary c (bodyAt c (dashes ++ rest)) =
          (.closed, { bodyAt c tail with boundaryMatched := matched }) :=
        congrArg (fun x : Got × Bool × Bytes => (x.1, { bodyAt c x.2.2 with boundaryMatched := x.2.1 })) hgot
      rw [read_body_part, hclosed]
      simp
    | chunk bs =>
      rw [read_body_part_chunk (r := bodyAt c (dashes ++ rest)) hgot]
      refine ⟨?_, by simp⟩
      rintro ⟨⟩
      have hbegins := receiveuntil_chunk_nil c.sock hsize hgot
      exact absurd (cons_prefix_cons.mp hbegins).1 (by decide)

/-! ## Parts -/

variable {part : Part c} {parts : List (Part c)} {chunks chunks' : List Bytes}

/-- How a body is cut into chunks is up to the reader. -/
theorem chunks_unique (h : Yields c r (chunks.map .body) r₁) (hnot : ∀ bs, (read c r₁).1 ≠ .body bs)
    (h' : Yields c r (chunks'.map .body ++ [.part_end]) r') :
    chunks = chunks' ∧ (read c r₁).1 = .part_end ∧ (read c r₁).2 = r' := by
  induction chunks generalizing r chunks' with
  | nil =>
    cases h
    cases chunks' with
    | nil => exact ⟨rfl, h'⟩
    | cons b chunks' => exact absurd h'.1 (hnot b)
  | cons b chunks ih =>
    cases chunks' with
    | nil => cases h.1.symm.trans h'.1
    | cons b' chunks' =>
      cases h.1.symm.trans h'.1
      obtain ⟨rfl, hend⟩ := ih h.2 h'.2
      exact ⟨rfl, hend⟩

/-- A part is read when its end is reported where the reader comes to it. -/
theorem readsParts_cons_iff (hyields : Yields c r (part.headers.map headerEvent ++ chunks.map .body) r₁)
    (hflatten : chunks.flatten = part.body) (hnot : ∀ bs, (read c r₁).1 ≠ .body bs) :
    ReadsParts c (part :: parts) r ↔ (read c r₁).1 = .part_end ∧ ReadsParts c parts (read c r₁).2 := by
  constructor
  · rintro ⟨chunks', r', -, hread, hrest⟩
    obtain ⟨r₂, hheaders, hbody⟩ := yields_append.mp hyields
    rw [append_assoc] at hread
    obtain ⟨r₃, hheaders', hbody'⟩ := yields_append.mp hread
    cases hheaders.unique hheaders'
    obtain ⟨-, hend, rfl⟩ := chunks_unique hbody hnot hbody'
    exact ⟨hend, hrest⟩
  · rintro ⟨hend, hrest⟩
    exact ⟨chunks, _, hflatten, yields_append.mpr ⟨r₁, hyields, hend, rfl⟩, hrest⟩

theorem readsParts_congr (hread : read c r₁ = read c r₂) : ReadsParts c (part :: parts) r₁ ↔ ReadsParts c (part :: parts) r₂ := by
  refine exists_congr fun chunks => exists_congr fun r' => and_congr_right fun _ => and_congr_left fun _ => ?_
  cases hevents : part.headers.map headerEvent ++ chunks.map .body ++ [.part_end] with
  | nil => simp at hevents
  | cons e es => exact Yields.congr_read hread

/-- A header that has been discarded does not come again. -/
theorem header_lost {headers : List Bytes}
    (hheaders : ∀ line ∈ headers, line ≠ [] ∧ ¬crlf <:+: line ∧ line.length < c.line_size) (hsize : 0 < c.line_size) :
    ¬Yields c (headerAt c (encodeHeaders headers ++ (crlf ++ t))) ((line :: headers).map headerEvent ++ es) r' := by
  induction headers generalizing line with
  | nil =>
    intro h
    have hevent : (read c (headerAt c (crlf ++ t))).1 = headerEvent line := h.1
    rw [read_header_blank hsize] at hevent
    exact (read_body_part_event c _).1 _ _ hevent
  | cons next headers ih =>
    intro h
    obtain ⟨hne, hline, hlength⟩ := hheaders next mem_cons_self
    have hencode : encodeHeaders (next :: headers) ++ (crlf ++ t) = next ++ crlf ++ (encodeHeaders headers ++ (crlf ++ t)) := by
      simp [encodeHeaders]
    have hread := read_header_line (t := encodeHeaders headers ++ (crlf ++ t)) hne hline hlength
    rw [hencode] at h
    have hrest := h.2
    rw [hread, map_cons] at hrest
    exact ih (fun line hline => hheaders line (mem_cons_of_mem _ hline)) hrest

/-- Nor does a body come whole when it is read as headers. -/
theorem body_lost (hsize : 0 < c.size) (hline : 0 < c.line_size) (hheaders : part.headers = []) :
    ¬ReadsParts c (part :: parts) (headerAt c (part.body ++ c.delimiter ++ t)) := by
  rintro ⟨chunks, r', hflatten, hyields, -⟩
  rw [hheaders, map_nil, nil_append] at hyields
  by_cases hstart : crlf <+: part.body ++ c.delimiter ++ t
  · match hbody : part.body with
    | [] =>
      -- the end of the line before the boundary is taken for an empty line
      have hread : read c (headerAt c (part.body ++ c.delimiter ++ t)) = read c (bodyAt c (dashes ++ (c.boundary ++ t))) := by
        rw [← read_header_blank hline, hbody]
        simp [Conf.delimiter]
      obtain ⟨hnil, hend⟩ := read_dash_event (c := c) hsize
      rw [hbody] at hflatten
      cases chunks with
      | nil => exact hend (hread ▸ hyields.1)
      | cons b chunks =>
        obtain ⟨rfl, -⟩ := append_eq_nil_iff.mp (List.flatten_cons ▸ hflatten)
        exact hnil (hread ▸ hyields.1)
    | [x] =>
      rw [hbody] at hstart
      obtain ⟨-, htail⟩ := cons_prefix_cons.mp hstart
      exact absurd (cons_prefix_cons.mp htail).1 (by decide)
    | x :: y :: body =>
      -- an empty line at the beginning of the body is lost
      rw [hbody] at hstart
      obtain ⟨rfl, htail⟩ := cons_prefix_cons.mp hstart
      obtain ⟨rfl, -⟩ := cons_prefix_cons.mp htail
      have hfree : ¬c.delimiter <:+: body := fun h =>
        part.body_free (hbody ▸ h.trans (suffix_append [13, 10] body).isInfix)
      obtain ⟨chunks₀, hne, hflatten₀, hyields₀⟩ := yields_body (t := t) hsize hfree
      obtain ⟨b, chunks₀, rfl⟩ := exists_cons_of_ne_nil hne
      rw [map_cons, ← Yields.congr_read (read_header_blank hline), ← map_cons] at hyields₀
      have hencode : part.body ++ c.delimiter ++ t = crlf ++ (body ++ c.delimiter ++ t) := by
        rw [hbody]
        rfl
      rw [hencode] at hyields
      obtain ⟨rfl, -⟩ := chunks_unique hyields₀ read_end_ne_body hyields
      have hlength := congrArg List.length (hflatten₀.symm.trans (hflatten.trans hbody))
      simp only [length_cons] at hlength
      omega
  · obtain ⟨hbody, hend⟩ := read_header_event hline hstart
    cases chunks with
    | nil => exact hend hyields.1
    | cons b chunks => exact hbody b hyields.1

/-- Behind a padding of one byte the next part is not read whole. -/
theorem part_lost (hsize : 0 < c.size) (hline : 0 < c.line_size) (hone : padding.bytes.length = 1) :
    ¬((read c (endAt c (padding.bytes ++ crlf ++ part.encode t))).1 = .part_end ∧
      ReadsParts c (part :: parts) (read c (endAt c (padding.bytes ++ crlf ++ part.encode t))).2) := by
  rintro ⟨hend, hparts⟩
  obtain ⟨a, hbytes⟩ := length_eq_one_iff.mp hone
  have hblank := padding.blank a (by simp [hbytes])
  cases hheaders : part.headers with
  | nil =>
    have hencode : padding.bytes ++ crlf ++ part.encode t = [a] ++ crlf ++ ([] ++ crlf ++ (part.body ++ c.delimiter ++ t)) := by
      simp [hbytes, Part.encode, hheaders, encodeHeaders]
    have hread := read_end_one (c := c) (t := part.body ++ c.delimiter ++ t) hblank (show ¬crlf <:+: [] by decide)
    rw [hencode] at hend hparts
    split at hread
    · rw [hread] at hparts
      exact body_lost hsize hline hheaders hparts
    · obtain ⟨err, r', hread⟩ := hread
      rw [hread] at hend
      cases hend
  | cons line headers =>
    have hall := part.header_line
    rw [hheaders] at hall
    have hencode : padding.bytes ++ crlf ++ part.encode t =
        [a] ++ crlf ++ (line ++ crlf ++ (encodeHeaders headers ++ (crlf ++ (part.body ++ c.delimiter ++ t)))) := by
      simp [hbytes, Part.encode, hheaders, encodeHeaders]
    have hread := read_end_one (c := c)
      (t := encodeHeaders headers ++ (crlf ++ (part.body ++ c.delimiter ++ t))) hblank (hall line mem_cons_self).2.1
    rw [hencode] at hend hparts
    split at hread
    · rw [hread] at hparts
      obtain ⟨chunks, r', -, hyields, -⟩ := hparts
      rw [hheaders, append_assoc ((line :: headers).map headerEvent)] at hyields
      exact header_lost (fun line hline => hall line (mem_cons_of_mem _ hline)) hline hyields
    · obtain ⟨err, r', hread⟩ := hread
      rw [hread] at hend
      cases hend

/-! ## Forms -/

/-- The parts of a form, from the headers of the first one on. -/
theorem readsParts_iff {epilogue : Bytes} {parts : List (Part c × Padding)} (hparts : parts ≠ []) (hsize : 0 < c.size)
    (hline : 0 < c.line_size) :
    ReadsParts c (parts.map fst) (headerAt c (encodeParts epilogue parts)) ↔ ∀ part ∈ parts.dropLast, part.2.Good c := by
  induction parts with
  | nil => exact absurd rfl hparts
  | cons first parts ih =>
    obtain ⟨part, padding⟩ := first
    cases parts with
    | nil =>
      obtain ⟨chunks, hflatten, hyields⟩ := yields_part (t := dashes ++ padding.bytes ++ epilogue) hsize hline part
      rw [map_cons, encodeParts, readsParts_cons_iff hyields hflatten read_end_ne_body, append_assoc,
        read_end_last hsize]
      exact iff_of_true ⟨rfl, rfl⟩ (by simp)
    | cons next parts =>
      obtain ⟨chunks, hflatten, hyields⟩ :=
        yields_part (t := padding.bytes ++ crlf ++ encodeParts epilogue (next :: parts)) hsize hline part
      rw [map_cons, encodeParts, readsParts_cons_iff hyields hflatten read_end_ne_body,
        dropLast_cons_of_ne_nil (cons_ne_nil next parts), forall_mem_cons, ← ih (cons_ne_nil next parts)]
      by_cases hgood : padding.Good c
      · rw [read_end_good hgood]
        exact ⟨fun h => ⟨hgood, h.2⟩, fun h => ⟨rfl, h.2⟩⟩
      · refine iff_of_false ?_ fun h => hgood h.1
        by_cases hone : padding.bytes.length = 1
        · obtain ⟨t, ht⟩ : ∃ t, encodeParts epilogue (next :: parts) = next.1.encode t := by
            cases parts with
            | nil => exact ⟨_, rfl⟩
            | cons _ _ => exact ⟨_, rfl⟩
          rw [ht, map_cons]
          exact part_lost hsize hline hone
        · have hlong : c.line_size + 2 ≤ padding.bytes.length := by
            by_contra hshort
            exact hgood ⟨hone, by omega⟩
          obtain ⟨err, r', hread⟩ := read_end_long (t := encodeParts epilogue (next :: parts)) hlong
          rintro ⟨hend, -⟩
          rw [hread] at hend
          cases hend

/-- A reader before the preamble. -/
def beginAt (c : Conf) (rest : Bytes) : Reader := { new c [] with rest }

theorem discardPreamble_chunk {n : Nat}
    (h : receiveuntil c.sock (dashes ++ c.boundary) false c.size rest = (.chunk bs, matched, t)) :
    discardPreamble c (n + 1) (beginAt c rest) = discardPreamble c n { beginAt c t with boundaryMatched := matched } := by
  have hread : read2boundary c (beginAt c rest) = (.chunk bs, { beginAt c t with boundaryMatched := matched }) :=
    congrArg (fun x : Got × Bool × Bytes => (x.1, { beginAt c x.2.2 with boundaryMatched := x.2.1 })) h
  rw [discardPreamble, hread]

/-- With a size the preamble is discarded up to the boundary. -/
theorem discardPreamble_first {n : Nat} (hsize : 0 < c.size) (hfirst : First (dashes ++ c.boundary) body)
    (hn : body.length + 1 < n) :
    discardPreamble c n (beginAt c (body ++ (dashes ++ c.boundary) ++ t)) = beginAt c t := by
  induction n generalizing body with
  | zero => omega
  | succ n ih =>
    have hpattern : dashes ++ c.boundary ≠ [] := by simp [dashes]
    have hgot := receiveuntil_first c.sock (t := t) hpattern hsize hfirst
    split at hgot
    · next hcut =>
      have hpos := c.sock.chunk_pos (dashes ++ c.boundary) c.size (body ++ (dashes ++ c.boundary) ++ t) hsize
      generalize c.sock.chunk (dashes ++ c.boundary) c.size (body ++ (dashes ++ c.boundary) ++ t) = m at hcut hpos hgot
      have hdrop : (body ++ (dashes ++ c.boundary) ++ t).drop m = body.drop m ++ (dashes ++ c.boundary) ++ t := by
        simp only [append_assoc, drop_append_of_le_length hcut]
      have hlater : body.drop m ++ (dashes ++ c.boundary).dropLast <:+ body ++ (dashes ++ c.boundary).dropLast :=
        ⟨body.take m, by rw [← append_assoc, take_append_drop]⟩
      rw [discardPreamble_chunk hgot, hdrop]
      exact ih (fun h => hfirst (h.trans hlater.isInfix)) (by rw [length_drop]; omega)
    · rw [discardPreamble_chunk hgot]
      obtain ⟨k, rfl⟩ : ∃ k, n = k + 1 := ⟨n - 1, by omega⟩
      rfl

/-- Without one it is discarded with everything behind it. -/
theorem discardPreamble_zero {n : Nat} (hsize : c.size = 0) (hn : rest.length < n) :
    discardPreamble c n (beginAt c rest) = beginAt c [] := by
  induction n generalizing rest with
  | zero => omega
  | succ n ih =>
    cases hbefore : before (dashes ++ c.boundary) rest with
    | none =>
      have hgot : receiveuntil c.sock (dashes ++ c.boundary) false c.size rest = (.closed, false, []) := by
        simp [receiveuntil, hbefore, hsize]
      have hread : read2boundary c (beginAt c rest) = (.closed, beginAt c []) :=
        congrArg (fun x : Got × Bool × Bytes => (x.1, { beginAt c x.2.2 with boundaryMatched := x.2.1 })) hgot
      rw [discardPreamble, hread]
    | some found =>
      obtain ⟨data, tail⟩ := found
      have hgot : receiveuntil c.sock (dashes ++ c.boundary) false c.size rest = (.chunk data, false, tail) := by
        simp [receiveuntil, hbefore, hsize]
      have hlength := congrArg List.length (eq_of_before hbefore)
      simp only [dashes, length_append, length_cons] at hlength
      have htail : tail.length < n := by omega
      rw [discardPreamble_chunk hgot]
      exact ih htail

theorem read_begin_zero (hsize : c.size = 0) (rest : Bytes) : (read c (new c rest)).1 = .failed closed := by
  have hdiscard : discardPreamble c (rest.length + 1) (beginAt c rest) = beginAt c [] :=
    discardPreamble_zero hsize (lt_succ_self _)
  have hgot : receiveuntil c.sock crlf false c.line_size [] = (.closed, false, []) := by
    have hcut : ¬(c.line_size ≠ 0 ∧ c.line_size ≤ ([] : Bytes).length) := fun h => h.1 (le_zero.mp h.2)
    have hbefore : before crlf [] = none := rfl
    simp only [receiveuntil, Bool.false_eq_true, if_false, hbefore, c.sock.chunk_crlf, if_neg hcut]
  have hline : read_line c (beginAt c []) c.line_size = (.closed, beginAt c []) :=
    congrArg (fun x : Got × Bool × Bytes => (x.1, { beginAt c x.2.2 with lineMatched := x.2.1 })) hgot
  have hclosed : discard_line c (beginAt c []) = (.error closed, beginAt c []) := by
    rw [discard_line, hline]
  have hread : read c (new c rest) = read_preamble c (beginAt c rest) := rfl
  rw [hread, read_preamble]
  change (match discard_line c (discardPreamble c (rest.length + 1) (beginAt c rest)) with
    | (.error err, r) => (Event.failed err, r)
    | (.ok (), r) => _).1 = _
  rw [hdiscard, hclosed]

/-- The first call goes on to the first part when the line of the first boundary is
short enough. -/
theorem read_begin {preamble : Bytes} (hsize : 0 < c.size) (hfirst : First (dashes ++ c.boundary) preamble)
    (hline : ¬crlf <:+: line) :
    if line.length < c.line_size then
      read c (new c (preamble ++ (dashes ++ c.boundary) ++ (line ++ crlf ++ t))) = read c (headerAt c t)
    else ∃ err, (read c (new c (preamble ++ (dashes ++ c.boundary) ++ (line ++ crlf ++ t)))).1 = .failed err := by
  generalize hbody : preamble ++ (dashes ++ c.boundary) ++ (line ++ crlf ++ t) = body
  have hlength : preamble.length + 1 < body.length + 1 := by
    have := congrArg List.length hbody
    simp only [dashes, length_append, length_cons] at this
    omega
  have hdiscard := discardPreamble_first (t := line ++ crlf ++ t) hsize hfirst hlength
  rw [hbody] at hdiscard
  have hread : read c (new c body) =
      match discard_line c (discardPreamble c (body.length + 1) (beginAt c body)) with
      | (.error err, r) => (.failed err, r)
      | (.ok (), r) =>
        read_header c
          { r with pattern := crlf ++ dashes ++ c.boundary, boundaryMatched := false, state := .reading_header } := rfl
  have hfound := discard_line_line (c := c) (r := beginAt c (line ++ crlf ++ t)) rfl rfl hline
  rw [hread, hdiscard]
  split at hfound
  · next hshort =>
    rw [if_pos hshort, hfound]
    rfl
  · next hlong =>
    obtain ⟨err, r', hfound⟩ := hfound
    rw [if_neg hlong, hfound]
    exact ⟨err, rfl⟩

theorem read_header_ne_eof : (read_header c r).1 ≠ .eof := by
  unfold read_header
  split
  · simp
  · split <;> simp
  · split
    · simp
    · simp
    · split
      · exact (read_body_part_event c _).2
      · simp

/-- The first call never finds the end. -/
theorem read_begin_ne_eof : (read c (new c rest)).1 ≠ .eof := by
  have hread : read c (new c rest) = read_preamble c (new c rest) := rfl
  rw [hread]
  unfold read_preamble
  dsimp only
  split
  · simp
  · exact read_header_ne_eof

/-- Something that is not an error comes first of a part. -/
theorem ReadsParts.ne_failed {err : Option Bytes} (h : ReadsParts c (part :: parts) r) : (read c r).1 ≠ .failed err := by
  obtain ⟨chunks, r', -, hyields, -⟩ := h
  intro hfailed
  cases hheaders : part.headers with
  | nil =>
    rw [hheaders] at hyields
    cases chunks with
    | nil => cases hfailed.symm.trans hyields.1
    | cons b chunks => cases hfailed.symm.trans hyields.1
  | cons line headers =>
    rw [hheaders] at hyields
    cases hfailed.symm.trans hyields.1

/-- With parts and a size, the line of the first boundary is to be short enough for
the parts to be read. -/
theorem right_iff_parts {form : Form c} (hpreamble : First (dashes ++ c.boundary) form.preamble) (hparts : form.parts ≠ [])
    (hsize : 0 < c.size) :
    Right form ↔ form.padding.bytes.length < c.line_size ∧
      ReadsParts c (form.parts.map fst) (headerAt c (encodeParts form.epilogue form.parts)) := by
  have hbegin := read_begin (t := encodeParts form.epilogue form.parts) hsize hpreamble form.padding.free
  have hencode : form.encode = form.preamble ++ (dashes ++ c.boundary) ++
      (form.padding.bytes ++ crlf ++ encodeParts form.epilogue form.parts) := by
    rw [Form.encode, if_neg hparts]
  rw [← hencode] at hbegin
  obtain ⟨first, parts, heq⟩ := exists_cons_of_ne_nil hparts
  have hcons : form.parts.map fst = first.1 :: parts.map fst := by rw [heq, map_cons]
  rw [Right, hcons]
  split at hbegin
  · next hshort =>
    rw [readsParts_congr hbegin]
    exact (and_iff_right hshort).symm
  · next hlong =>
    obtain ⟨err, hfailed⟩ := hbegin
    exact iff_of_false (fun hreads => hreads.ne_failed hfailed) fun h => hlong h.1

/-- **The parts of a form whose preamble does not hold the boundary are returned in
order, with all their headers and bodies, when and only when there is a part,
chunks have a size, no padding is as long as a line may be, and no padding behind
a part but the last is a single byte.** -/
theorem upload_right_iff_careful {form : Form c} (hpreamble : First (dashes ++ c.boundary) form.preamble) : Right form ↔ Careful form := by
  constructor
  · intro hright
    have hparts : form.parts ≠ [] := by
      intro hnil
      rw [Right, hnil] at hright
      exact read_begin_ne_eof (congrArg fst hright)
    have hsize : 0 < c.size := by
      obtain ⟨first, parts, heq⟩ := exists_cons_of_ne_nil hparts
      by_contra hzero
      rw [Right, heq] at hright
      exact hright.ne_failed (read_begin_zero (by omega) _)
    obtain ⟨hfirst, hreads⟩ := (right_iff_parts hpreamble hparts hsize).mp hright
    exact ⟨hparts, hsize, hfirst, (readsParts_iff hparts hsize (zero_lt_of_lt hfirst)).mp hreads⟩
  · rintro ⟨hparts, hsize, hfirst, hlater⟩
    exact (right_iff_parts hpreamble hparts hsize).mpr
      ⟨hfirst, (readsParts_iff hparts hsize (zero_lt_of_lt hfirst)).mpr hlater⟩

/-- A socket that gives what is asked for. -/
def exact : Socket where
  chunk _ size _ := size
  chunk_pos _ _ _ h := h
  chunk_crlf _ _ := rfl

/-- The defaults, with the boundary `b`. -/
def defaults : Conf where
  sock := exact
  boundary := [98]
  boundary_line := by decide
  size := 4096
  line_size := 512

/-- A part with one header and two bytes. -/
def onePart : Part defaults where
  headers := [[65, 58, 66]]
  body := [67, 68]
  header_line := by decide
  body_free := by decide

def noPadding : Padding := ⟨[], by simp⟩

/-- The part twice, with nothing behind its boundaries. -/
theorem right_twoParts :
    Right { preamble := [], padding := noPadding, parts := [(onePart, noPadding), (onePart, noPadding)], epilogue := [] } :=
  (upload_right_iff_careful (c := defaults) (by decide)).mpr ⟨by simp, by decide, by decide, by decide⟩

/-- The part twice, with a space behind the boundary between. -/
def spaceBetween : Form defaults where
  preamble := []
  padding := noPadding
  parts := [(onePart, ⟨[32], by simp⟩), (onePart, noPadding)]
  epilogue := []

/-- The header of the second part is lost. -/
theorem not_right_spaceBetween : ¬Right spaceBetween := by
  intro h
  obtain ⟨-, hreads⟩ := (right_iff_parts (by decide) (by simp [spaceBetween]) (by decide)).mp h
  have hgood := (readsParts_iff (by simp [spaceBetween]) (by decide) (by decide)).mp hreads _ mem_cons_self
  exact hgood.1 rfl

end OpenResty.Resty.Upload
