/-
Every command of `resty.redis` gets its own reply, or an error, as long as no
timeout strikes in the CR LF behind the data of a bulk reply.
-/
import OpenResty.Lib.Transition
import OpenResty.Resty.RedisClient

namespace OpenResty.Resty.RedisClient

open Cosocket Lib.Resp Lib.Transition List Nat

/-! ## What a reply is returned as -/

def itemValue : Lib.Resp.Item → Value
  | .status s => .str s.1
  | .error s => .error s.1
  | .integer n => .num n
  | .bulk s => .str s.1
  | .null => .null

mutual

def replyValue : Reply → Value
  | .item i => itemValue i
  | .multi rs => .list (replyValues rs)
  | .nullMulti => .null

def replyValues : List Reply → List Value
  | [] => []
  | r :: rs => replyValue r :: replyValues rs

end

/-- Where the data of a bulk reply ends. -/
def dataEnd (s : LuaString) : Nat := (36 :: (decimal s.1.length ++ crlf ++ s.1)).length

/-- Where the elements of a multi-bulk reply start. -/
def elementsStart (rs : List Reply) : Nat := (42 :: (decimal rs.length ++ crlf)).length

mutual

/-- After `k` bytes of the reply the next one is of the CR LF behind the data of a bulk reply. -/
def inTrailer : Reply → Nat → Bool
  | .item (.bulk s), k => decide (dataEnd s ≤ k) && decide (k < dataEnd s + 2)
  | .item _, _ => false
  | .multi rs, k => decide (elementsStart rs ≤ k) && inTrailers rs (k - elementsStart rs)
  | .nullMulti, _ => false

def inTrailers : List Reply → Nat → Bool
  | [], _ => false
  | r :: rs, k => if k < r.encode.length then inTrailer r k else inTrailers rs (k - r.encode.length)

end

/-! ## Lines -/

/-- A line as it is sent, with what `receive()` gives of it. -/
theorem receiveLine_calm {w : Wire} {line rest : Bytes} (hline : 13 ∉ line ∧ 10 ∉ line)
    (hw : w.bytes = line ++ crlf ++ rest) (hcalm : w.Calm (line ++ crlf).length) :
    receiveLine w = some (.ok line, w.after (line ++ crlf).length) := by
  have hsplit : line ++ crlf = line ++ [13] ++ [10] := by rw [append_assoc]; rfl
  have hw' : w.bytes = line ++ [13] ++ 10 :: rest := by rw [hw, hsplit, append_assoc]; rfl
  have hnotin : (10 : UInt8) ∉ line ++ [13] := by
    rw [mem_append, mem_singleton]
    exact fun h => h.elim hline.2 (by decide)
  have hkeep : line.filter (· ≠ 13) = line :=
    filter_eq_self.mpr fun b hb => decide_eq_true fun h => hline.1 (h ▸ hb)
  rw [receiveLine_eq hw' hnotin, ← hsplit, receive_calm hw hcalm, hsplit]
  simp only [Option.map_some, Except.map, dropLast_concat, filter_append, hkeep]
  rw [filter_cons_of_neg (by decide), filter_nil, append_nil]

theorem receiveLine_cut {w : Wire} {line rest : Bytes} (hline : 10 ∉ line) (hw : w.bytes = line ++ crlf ++ rest) {k : Nat}
    {err : String} (hcut : w.cut = some (k, err)) (hk : k < (line ++ crlf).length) :
    receiveLine w = some (.error err, { bytes := w.bytes.drop k }) := by
  have hsplit : line ++ crlf = line ++ [13] ++ [10] := by rw [append_assoc]; rfl
  have hw' : w.bytes = line ++ [13] ++ 10 :: rest := by rw [hw, hsplit, append_assoc]; rfl
  have hnotin : (10 : UInt8) ∉ line ++ [13] := by
    rw [mem_append, mem_singleton]
    exact fun h => h.elim hline (by decide)
  rw [receiveLine_eq hw' hnotin, ← hsplit, receive_cut hw hcut hk]
  rfl

theorem tonumber_decimal (n : Nat) : tonumber (decimal n) = some (n : Rat) := tonumber_decimalInt n

theorem decimal_line (n : Nat) : 13 ∉ decimal n ∧ 10 ∉ decimal n :=
  ⟨fun h => by obtain ⟨d, hd, heq⟩ := mem_decimal h; exact (digit_ne hd).1 heq.symm,
    fun h => by obtain ⟨d, hd, heq⟩ := mem_decimal h; exact (digit_ne hd).2.1 heq.symm⟩

theorem cons_line {c : UInt8} {s : Bytes} (hc : c ≠ 13 ∧ c ≠ 10) (hs : 13 ∉ s ∧ 10 ∉ s) : 13 ∉ c :: s ∧ 10 ∉ c :: s :=
  ⟨not_mem_cons_of_ne_of_not_mem hc.1.symm hs.1, not_mem_cons_of_ne_of_not_mem hc.2.symm hs.2⟩

theorem decimalInt_line (n : Int) : 13 ∉ decimalInt n ∧ 10 ∉ decimalInt n := by
  cases n with
  | ofNat n => exact decimal_line n
  | negSucc n => exact cons_line (by decide) (decimal_line (n + 1))

/-! ## Reading a reply -/

/-- What a read is to make of bytes that come first on the wire: what they say, or,
when an error strikes, a failure that closes the socket but in some places. -/
structure Reads {α : Type} (read : Wire → Read α) (bs : Bytes) (a : α) (trailer : Nat → Bool) : Prop where
  calm : ∀ w rest, w.bytes = bs ++ rest → w.Calm bs.length → read w = some (.ok a, w.after bs.length)
  cut : ∀ w rest k err, w.bytes = bs ++ rest → w.cut = some (k, err) → k < bs.length →
    read w = some (.error (closing (!trailer k) err), { bytes := w.bytes.drop k })

variable {α : Type} {read : Wire → Read α} {a : α} {trailer : Nat → Bool}

theorem Reads.line {line : Bytes} (hline : 13 ∉ line ∧ 10 ∉ line) :
    Reads (fun w => failing (closing true) (receiveLine w)) (line ++ crlf) line fun _ => false where
  calm w rest hw hcalm := by rw [receiveLine_calm hline hw hcalm, failing_ok]
  cut w rest k err hw hcut hk := by
    rw [receiveLine_cut hline.2 hw hcut hk, failing_error]
    rfl

theorem Reads.bytes (close : Bool) (bs : Bytes) :
    Reads (fun w => failing (closing close) (receive bs.length w)) bs bs fun _ => !close where
  calm w rest hw hcalm := by rw [receive_calm hw hcalm, failing_ok]
  cut w rest k err hw hcut hk := by
    rw [receive_cut hw hcut hk, failing_error, Bool.not_not]

theorem Reads.done (a : α) : Reads (answer (.ok a)) [] a fun _ => false where
  calm w rest hw hcalm := by
    rw [length_nil, after_zero]
    rfl
  cut w rest k err hw hcut hk := absurd hk (Nat.not_lt_zero k)

/-- One read after the other. -/
theorem Reads.next {β : Type} {g : α → Wire → Read β} {b : β} {bs bs' : Bytes} {trailer' : Nat → Bool}
    (h : Reads read bs a trailer) (h' : Reads (g a) bs' b trailer') :
    Reads (fun w => andThen (read w) g) (bs ++ bs') b
      fun k => if k < bs.length then trailer k else trailer' (k - bs.length) where
  calm w tail hw hcalm := by
    rw [append_assoc] at hw
    rw [length_append] at hcalm ⊢
    rw [h.calm w _ hw (hcalm.le (Nat.le_add_right _ _)), andThen_ok,
      h'.calm _ tail (Wire.after_bytes hw) (calm_after hcalm), after_after]
  cut w tail k err hw hcut hk := by
    rw [append_assoc] at hw
    rw [length_append] at hk
    by_cases hfirst : k < bs.length
    · rw [h.cut w _ k err hw hcut hfirst, andThen_error, if_pos hfirst]
    · rw [h.calm w _ hw (calm_of_cut hcut (Nat.le_of_not_lt hfirst)), andThen_ok, if_neg hfirst]
      have hcut' : (w.after bs.length).cut = some (k - bs.length, err) := by rw [Wire.after, hcut]; rfl
      rw [h'.cut _ tail _ err (Wire.after_bytes hw) hcut' (by omega)]
      have hdrop : (w.after bs.length).bytes.drop (k - bs.length) = w.bytes.drop k := by
        rw [Wire.after, drop_drop]
        congr 1
        omega
      rw [hdrop]

theorem Reads.congr {read' : Wire → Read α} {bs bs' : Bytes} {trailer' : Nat → Bool} (h : Reads read bs a trailer)
    (hread : read' = read) (hbs : bs' = bs) (htrailer : ∀ k < bs.length, trailer' k = trailer k) :
    Reads read' bs' a trailer' := by
  subst hread hbs
  exact ⟨h.calm, fun w rest k err hw hcut hk => by rw [htrailer k hk]; exact h.cut w rest k err hw hcut hk⟩

/-- A reply that is one line. -/
theorem Reads.single {read : Wire → Read Value} {line : Bytes} {v : Value} (hline : 13 ∉ line ∧ 10 ∉ line)
    (hrest : readRest read line = answer (.ok v)) :
    Reads (fun w => andThen (failing (closing true) (receiveLine w)) (readRest read)) (line ++ crlf) v fun _ => false := by
  have hdone : Reads (readRest read line) [] v fun _ => false := by
    rw [hrest]
    exact .done v
  refine ((Reads.line hline).next hdone).congr rfl (append_nil _).symm fun k _ => ?_
  rw [ite_self]

theorem floor_natCast (n : Nat) : ((n : Rat)).floor.toNat = n := by
  rw [show ((n : Rat)) = ((n : Int) : Rat) from rfl, Rat.floor_intCast, Int.toNat_natCast]

theorem not_negative (n : Nat) : ¬((n : Rat) < 0) := not_lt.mpr (cast_nonneg n)

theorem readRest_bulk (read : Wire → Read Value) (n : Nat) (w : Wire) :
    readRest read (36 :: decimal n) w =
      andThen (failing (closing true) (receive n w)) fun data w =>
      andThen (failing (closing false) (receive 2 w)) fun _ w => answer (.ok (.str data)) w := by
  simp only [readRest, tonumber_decimal, if_neg (not_negative n), floor_natCast]

theorem readRest_multi (read : Wire → Read Value) (n : Nat) (w : Wire) :
    readRest read (42 :: decimal n) w =
      andThen (readMany read n w) fun vals w => answer (.ok (.list vals)) w := by
  simp only [readRest, tonumber_decimal, if_neg (not_negative n), floor_natCast]

theorem reads_item (fuel : Nat) (i : Lib.Resp.Item) :
    Reads (_read_reply (fuel + 1)) i.encode (itemValue i) (inTrailer (.item i)) := by
  cases i with
  | status s => exact (Reads.single (cons_line (by decide) s.2) rfl).congr rfl rfl fun _ _ => rfl
  | error s => exact (Reads.single (cons_line (by decide) s.2) rfl).congr rfl rfl fun _ _ => rfl
  | integer n =>
    refine (Reads.single (cons_line (by decide) (decimalInt_line n)) ?_).congr rfl rfl fun _ _ => rfl
    funext w
    simp only [readRest, tonumber, tonumber_decimalInt]
    rfl
  | null =>
    refine (Reads.single (cons_line (by decide) (decimalInt_line (-1))) ?_).congr rfl rfl fun _ _ => rfl
    funext w
    simp only [readRest, tonumber, tonumber_decimalInt, if_pos (show (((-1 : Int)) : Rat) < 0 by norm_num)]
    rfl
  | bulk s =>
    have hcrlf := (Reads.bytes false crlf).next (g := fun _ => answer (.ok (Value.str s.1))) (.done (Value.str s.1))
    have hdata := (Reads.bytes true s.1).next (g := fun data w =>
      andThen (failing (closing false) (receive 2 w)) fun _ w => answer (.ok (Value.str data)) w) hcrlf
    have hall := (Reads.line (cons_line (c := 36) (by decide) (decimal_line s.1.length))).next
      (g := readRest (_read_reply fuel)) (hdata.congr (funext fun w => readRest_bulk _ _ w) rfl fun _ _ => rfl)
    refine hall.congr rfl ?_ fun k _ => ?_
    · rw [Lib.Resp.Item.encode, append_nil, cons_append, cons_append, append_assoc]
    · have hend : dataEnd s = (36 :: decimal s.1.length ++ crlf).length + s.1.length := by
        rw [dataEnd, ← cons_append, ← cons_append, length_append]
      have hcrlf : crlf.length = 2 := rfl
      rw [inTrailer, hend, hcrlf]
      generalize (36 :: decimal s.1.length ++ crlf).length = n
      simp only [Bool.not_true, Bool.not_false]
      split
      · simp; omega
      · split
        · simp; omega
        · split
          · simp; omega
          · simp; omega

theorem inTrailers_cons (r : Reply) (rs : List Reply) (k : Nat) :
    inTrailers (r :: rs) k = if k < r.encode.length then inTrailer r k else inTrailers rs (k - r.encode.length) := by
  rw [inTrailers]

variable {replies rs : List Reply}

/-- Replies one after the other. -/
theorem reads_many {read : Wire → Read Value}
    (h : ∀ r ∈ rs, Reads read r.encode (replyValue r) (inTrailer r)) :
    Reads (readMany read rs.length) (encodeAll rs) (replyValues rs) (inTrailers rs) := by
  induction rs with
  | nil =>
    refine (Reads.done []).congr rfl ?_ fun k _ => ?_
    · rw [encodeAll]
    · rw [inTrailers]
  | cons r rs ih =>
    have hrest := (ih fun r hr => h r (mem_cons_of_mem _ hr)).next
      (g := fun vs => answer (.ok (replyValue r :: vs))) (.done _)
    refine ((h r mem_cons_self).next hrest).congr rfl ?_ fun k hk => ?_
    · rw [encodeAll, append_nil]
    · rw [append_nil, length_append] at hk
      rw [inTrailers_cons]
      split
      · rfl
      · rw [if_pos (by omega)]

theorem depth_le_depthAll {r : Reply} (h : r ∈ rs) : r.depth ≤ Reply.depth.depthAll rs := by
  induction rs with
  | nil => cases h
  | cons r' rs ih =>
    rw [Reply.depth.depthAll]
    rcases mem_cons.mp h with rfl | h
    · exact Nat.le_max_left _ _
    · exact Nat.le_trans (ih h) (Nat.le_max_right _ _)

mutual

theorem depth_lt_length : ∀ r : Reply, r.depth < r.encode.length
  | .item i => by
    rw [Reply.depth, Reply.encode]
    cases i <;> exact succ_pos _
  | .multi rs => by
    rw [Reply.depth, Reply.encode, length_cons, length_append]
    exact succ_lt_succ (Nat.lt_of_le_of_lt (depthAll_le_length rs) (Nat.lt_add_of_pos_left (by
      rw [length_append]
      exact Nat.lt_of_lt_of_le (by decide : 0 < crlf.length) (Nat.le_add_left _ _))))
  | .nullMulti => by
    rw [Reply.depth, Reply.encode]
    exact succ_pos _

theorem depthAll_le_length : ∀ rs : List Reply, Reply.depth.depthAll rs ≤ (encodeAll rs).length
  | [] => by
    rw [Reply.depth.depthAll]
    exact Nat.zero_le _
  | r :: rs => by
    rw [Reply.depth.depthAll, encodeAll, length_append]
    exact Nat.max_le.mpr ⟨Nat.le_trans (Nat.le_of_lt (depth_lt_length r)) (Nat.le_add_right _ _),
      Nat.le_trans (depthAll_le_length rs) (Nat.le_add_left _ _)⟩

end

/-- A reply is read when there is fuel for its nesting. -/
theorem reads_reply (fuel : Nat) : ∀ r : Reply, r.depth < fuel →
    Reads (_read_reply fuel) r.encode (replyValue r) (inTrailer r) := by
  induction fuel with
  | zero => exact fun r h => absurd h (Nat.not_lt_zero _)
  | succ fuel ih =>
    intro r hdepth
    cases r with
    | item i =>
      refine (reads_item fuel i).congr rfl ?_ fun k _ => rfl
      rw [Reply.encode]
    | nullMulti =>
      refine (Reads.single (cons_line (c := 42) (by decide) (decimalInt_line (-1))) ?_).congr rfl ?_ fun k _ => ?_
      · funext w
        simp only [readRest, tonumber, tonumber_decimalInt, if_pos (show (((-1 : Int)) : Rat) < 0 by norm_num)]
        rw [replyValue]
      · rw [Reply.encode]
        rfl
      · rw [inTrailer]
    | multi rs =>
      have helements : ∀ r ∈ rs, Reads (_read_reply fuel) r.encode (replyValue r) (inTrailer r) := by
        intro r hr
        rw [Reply.depth] at hdepth
        exact ih r (Nat.lt_of_le_of_lt (depth_le_depthAll hr) (lt_of_succ_lt_succ hdepth))
      have hmany := (reads_many helements).next (g := fun vals => answer (.ok (Value.list vals))) (.done _)
      have hall := (Reads.line (cons_line (c := 42) (by decide) (decimal_line rs.length))).next
        (hmany.congr (funext fun w => readRest_multi _ _ w) rfl fun _ _ => rfl)
      refine hall.congr rfl ?_ fun k hk => ?_
      · rw [Reply.encode, append_nil, cons_append, cons_append]
      · rw [append_nil, length_append] at hk
        rw [inTrailer, show elementsStart rs = (42 :: decimal rs.length ++ crlf).length from rfl]
        generalize (42 :: decimal rs.length ++ crlf).length = n at hk ⊢
        split
        · next h =>
          rw [decide_eq_false (by omega), Bool.false_and]
        · next h =>
          rw [decide_eq_true (by omega), Bool.true_and, if_pos (by omega)]

theorem reads_alone (r : Reply) : Reads readAlone r.encode (replyValue r) (inTrailer r) := by
  have hfuel {w : Wire} {rest : Bytes} (hw : w.bytes = r.encode ++ rest) : r.depth < w.bytes.length + 1 := by
    have := depth_lt_length r
    rw [hw, length_append]
    omega
  exact ⟨fun w rest hw hcalm => (reads_reply _ r (hfuel hw)).calm w rest hw hcalm,
    fun w rest k err hw hcut hk => (reads_reply _ r (hfuel hw)).cut w rest k err hw hcut hk⟩

theorem reads_elements {w : Wire} {rest : Bytes} (hw : w.bytes = encodeAll rs ++ rest) :
    Reads (readMany (_read_reply (w.bytes.length + 1)) rs.length) (encodeAll rs) (replyValues rs) (inTrailers rs) := by
  refine reads_many fun r hr => reads_reply _ r ?_
  have hall := depthAll_le_length rs
  have hr := depth_le_depthAll hr
  rw [hw, length_append]
  omega

/-- Any timeout in a pipeline closes the socket. -/
theorem reads_pipeline (rs : List Reply) :
    Reads (readPipeline rs.length) (encodeAll rs) (replyValues rs) fun _ => false where
  calm w rest hw hcalm := by rw [readPipeline, (reads_elements hw).calm w rest hw hcalm, failing_ok]
  cut w rest k err hw hcut hk := by
    rw [readPipeline, (reads_elements hw).cut w rest k err hw hcut hk, failing_error]
    by_cases htimeout : err = "timeout"
    · simp [closing, htimeout]
    · simp [closing, htimeout]

/-! ## The laws -/

def Answer.Right (a : Answer) : Prop :=
  match a.result with
  | .ok vs => vs = replyValues a.replies
  | .error _ => a.excused = true

/-- Every call has answered with the replies to its own commands, or has failed because
of the connection; and the next one would get its own replies if nothing struck. -/
structure Right (st : State) : Prop where
  answers : ∀ a ∈ st.answers, a.Right
  alone : st.isOpen = true → ∀ r : Reply, ∃ w,
    readAlone { bytes := st.left ++ r.encode } = some (.ok (replyValue r), w)
  pipeline : st.isOpen = true → ∀ rs : List Reply, ∃ w,
    readPipeline rs.length { bytes := st.left ++ encodeAll rs } = some (.ok (replyValues rs), w)

structure Inv (st : State) : Prop where
  answers : ∀ a ∈ st.answers, a.Right
  left : st.isOpen = true → st.left = []

theorem calm_none (bs : Bytes) (n : Nat) : ({ bytes := bs } : Wire).Calm n := nofun

theorem Inv.right {st : State} (h : Inv st) : Right st where
  answers := h.answers
  alone hopen r := by
    rw [h.left hopen, nil_append]
    exact ⟨_, (reads_alone r).calm _ [] (append_nil _).symm (calm_none _ _)⟩
  pipeline hopen rs := by
    rw [h.left hopen, nil_append]
    exact ⟨_, (reads_pipeline rs).calm _ [] (append_nil _).symm (calm_none _ _)⟩

/-- A command that is issued alone is not struck by a timeout in the CR LF behind the
data of a bulk reply. -/
def Careful {ν : Type} (st : State) : Event ν → Prop
  | .command cmd cut => st.isOpen = true → ∀ k, cut = some (k, "timeout") → inTrailer cmd.reply k = false
  | .connect _ | .close | .pipeline .. => True

/-- What a call comes to in a state where nothing is left to read. -/
inductive Called (st : State) (replies : List Reply) (trailer : Nat → Bool) (cut : Cut) : State → Prop
  | closed {st' : State} (hopen : st.isOpen = false) (hopen' : st'.isOpen = false)
    (h : ∃ a : Answer, a.Right ∧ st'.answers = a :: st.answers) : Called st replies trailer cut st'
  | ok {st' : State} (hstrikes : strikes cut (encodeAll replies).length = false) (hleft : st'.left = []) (h : ∃ a : Answer, a.Right ∧ st'.answers = a :: st.answers) :
    Called st replies trailer cut st'
  | cut {st' : State} (k : Nat) (err : String) (hopen : st.isOpen = true) (hcut : cut = some (k, err))
    (hk : k < (encodeAll replies).length) (hopen' : st'.isOpen = (trailer k && decide (err = "timeout")))
    (hleft : st'.left = (encodeAll replies).drop k) (h : ∃ a : Answer, a.Right ∧ st'.answers = a :: st.answers) :
    Called st replies trailer cut st'

theorem closed_closing (close : Bool) (err : String) : (closing close err).closed = (close || decide (err ≠ "timeout")) := rfl

theorem call_spec {st st' : State} {request : Bytes} {cut : Cut} {read : Wire → Read (List Value)}
    {trailer : Nat → Bool} (hreads : Reads read (encodeAll replies) (replyValues replies) trailer)
    (hleft : st.isOpen = true → st.left = []) (h : st.call request replies cut read = some st') :
    Called st replies trailer cut st' := by
  rw [State.call] at h
  cases hopen : st.isOpen with
  | false =>
    rw [hopen] at h
    cases h
    exact .closed hopen rfl ⟨{ replies, excused := true, result := .error (.err (some "closed") true) }, rfl, rfl⟩
  | true =>
    rw [hopen, hleft hopen, nil_append] at h
    simp only [Bool.not_true, Bool.false_eq_true, if_false] at h
    cases hstrikes : strikes cut (encodeAll replies).length with
    | false =>
      have hcalm : ({ bytes := encodeAll replies, cut } : Wire).Calm (encodeAll replies).length := by
        intro k err hcut
        rw [show cut = some (k, err) from hcut, strikes] at hstrikes
        exact Nat.le_of_not_lt (of_decide_eq_false hstrikes)
      rw [hreads.calm _ [] (append_nil _).symm hcalm] at h
      cases h
      refine .ok hstrikes (by rw [Wire.after]; exact drop_length)
        ⟨{ replies, excused := strikes cut (encodeAll replies).length, result := .ok (replyValues replies) }, rfl, rfl⟩
    | true =>
      cases cut with
      | none => cases hstrikes
      | some c =>
        obtain ⟨k, err⟩ := c
        have hk : k < (encodeAll replies).length := of_decide_eq_true hstrikes
        rw [hreads.cut _ [] k err (append_nil _).symm rfl hk] at h
        cases h
        refine .cut k err hopen rfl hk ?_ rfl
          ⟨{ replies, excused := strikes (some (k, err)) (encodeAll replies).length,
              result := .error (closing (!trailer k) err) }, hstrikes, rfl⟩
        simp only [closed_closing, Bool.not_or, Bool.not_not, decide_not]

theorem encodeAll_singleton (r : Reply) : encodeAll [r] = r.encode := by rw [encodeAll, encodeAll, append_nil]

theorem reads_command (r : Reply) :
    Reads (fun w => andThen (readAlone w) fun v w => answer (.ok [v]) w) (encodeAll [r]) (replyValues [r]) (inTrailer r) := by
  refine ((reads_alone r).next (.done _)).congr rfl ?_ fun k hk => ?_
  · rw [encodeAll_singleton, append_nil]
  · rw [append_nil] at hk
    rw [if_pos hk]

theorem Called.answers {st st' : State} {trailer : Nat → Bool} {cut : Cut}
    (h : Called st replies trailer cut st') (hst : ∀ a ∈ st.answers, a.Right) : ∀ a ∈ st'.answers, a.Right := by
  have hnew : ∃ a : Answer, a.Right ∧ st'.answers = a :: st.answers := by
    cases h <;> assumption
  obtain ⟨a, ha, heq⟩ := hnew
  rw [heq]
  intro b hb
  rcases mem_cons.mp hb with rfl | hb
  · exact ha
  · exact hst b hb

theorem Called.inv {st st' : State} {trailer : Nat → Bool} {cut : Cut}
    (h : Called st replies trailer cut st') (hst : Inv st)
    (hcareful : ∀ k, st.isOpen = true → cut = some (k, "timeout") → trailer k = false) : Inv st' where
  answers := h.answers hst.answers
  left hopen := by
    cases h with
    | closed _ hopen' => cases hopen'.symm.trans hopen
    | ok _ hleft => exact hleft
    | cut k err hst' hcut _ hopen' =>
      rw [hopen, eq_comm, Bool.and_eq_true, decide_eq_true_eq] at hopen'
      obtain ⟨htrailer, rfl⟩ := hopen'
      cases (hcareful k hst' hcut).symm.trans htrailer

variable {ν : Type} {tostring : ν → LuaString}

theorem inv_step (st : State) (e : Event ν) (st' : State) (h : Inv st) (hstep : step tostring st e = some st')
    (hcareful : Careful st e) : Inv st' := by
  cases e with
  | connect ok =>
    cases hstep
    exact ⟨h.answers, fun _ => rfl⟩
  | close =>
    cases hstep
    exact ⟨h.answers, nofun⟩
  | command cmd cut =>
    exact (call_spec (reads_command cmd.reply) h.left hstep).inv h fun k hopen hcut => hcareful hopen k hcut
  | pipeline cmds cut =>
    have hread := reads_pipeline (cmds.map Command.reply)
    rw [length_map] at hread
    exact (call_spec hread h.left hstep).inv h fun _ _ _ => rfl

/-! ## What a timeout in the CR LF behind the data leaves -/

/-- The rest of a reply starts with an empty line. -/
def Blank (bs : Bytes) : Prop := ∃ rest, bs = 13 :: 10 :: rest ∨ bs = 10 :: rest

theorem Blank.append {bs : Bytes} (h : Blank bs) (bs' : Bytes) : Blank (bs ++ bs') := by
  obtain ⟨rest, rfl | rfl⟩ := h
  · exact ⟨rest ++ bs', .inl rfl⟩
  · exact ⟨rest ++ bs', .inr rfl⟩

mutual

theorem blank_of_inTrailer : ∀ (r : Reply) (k : Nat), inTrailer r k = true → Blank (r.encode.drop k)
  | .item i, k, h => by
    cases i with
    | bulk s =>
      rw [inTrailer, Bool.and_eq_true, decide_eq_true_eq, decide_eq_true_eq] at h
      have hencode : (Reply.item (.bulk s)).encode = (36 :: (decimal s.1.length ++ crlf ++ s.1)) ++ crlf := by
        rw [Reply.encode]
        rfl
      have hlen : (36 :: (decimal s.1.length ++ crlf ++ s.1)).length = dataEnd s := rfl
      rw [hencode, drop_append, hlen, drop_eq_nil_of_le (by rw [hlen]; exact h.1), nil_append]
      have hk : k - dataEnd s = 0 ∨ k - dataEnd s = 1 := by omega
      rcases hk with hk | hk
      · rw [hk]
        exact ⟨[], .inl rfl⟩
      · rw [hk]
        exact ⟨[], .inr rfl⟩
    | status s => cases h
    | error s => cases h
    | integer n => cases h
    | null => cases h
  | .multi rs, k, h => by
    rw [inTrailer, Bool.and_eq_true, decide_eq_true_eq] at h
    have hlen : (42 :: (decimal rs.length ++ crlf)).length = elementsStart rs := rfl
    rw [Reply.encode, ← cons_append, drop_append, hlen, drop_eq_nil_of_le (by rw [hlen]; exact h.1),
      nil_append]
    exact blank_of_inTrailers rs (k - elementsStart rs) h.2
  | .nullMulti, k, h => by
    rw [inTrailer] at h
    cases h

theorem blank_of_inTrailers : ∀ (rs : List Reply) (k : Nat), inTrailers rs k = true → Blank ((encodeAll rs).drop k)
  | [], k, h => by
    rw [inTrailers] at h
    cases h
  | r :: rs, k, h => by
    rw [inTrailers] at h
    rw [encodeAll, drop_append]
    split at h
    · exact (blank_of_inTrailer r k h).append _
    · next hk =>
      rw [drop_eq_nil_of_le (Nat.le_of_not_lt hk), nil_append]
      exact blank_of_inTrailers rs (k - r.encode.length) h

end

/-- An empty line is no reply. -/
theorem readAlone_blank {bs : Bytes} (h : Blank bs) :
    ∃ w, readAlone { bytes := bs } = some (.error (.err (some "unkown prefix: \"nil\"") false), w) := by
  have hline : ∃ w, receiveLine { bytes := bs } = some (.ok [], w) := by
    obtain ⟨rest, rfl | rfl⟩ := h
    · exact ⟨_, receiveLine_calm ⟨nofun, nofun⟩ rfl (calm_none _ _)⟩
    · have hw : ({ bytes := 10 :: rest } : Wire).bytes = [10] ++ rest := rfl
      rw [receiveLine_eq (show ({ bytes := 10 :: rest } : Wire).bytes = [] ++ 10 :: rest from rfl) nofun]
      have hlen : (([] : Bytes) ++ [10]).length = ([10] : Bytes).length := rfl
      rw [hlen, receive_calm hw (calm_none _ _)]
      exact ⟨_, rfl⟩
  obtain ⟨w, hw⟩ := hline
  exact ⟨w, by rw [readAlone, _read_reply, hw]; rfl⟩

theorem careful_of_right (st : State) (e : Event ν) (st' : State) (h : Inv st) (hstep : step tostring st e = some st')
    (hright : Right st') : Careful st e := by
  cases e with
  | connect | close | pipeline => trivial
  | command cmd cut =>
    intro hopen k hcut
    by_contra htrailer
    rw [Bool.not_eq_false] at htrailer
    have hblank := blank_of_inTrailer cmd.reply k htrailer
    have hk : k < cmd.reply.encode.length := by
      by_contra hge
      rw [drop_eq_nil_of_le (Nat.le_of_not_lt hge)] at hblank
      obtain ⟨rest, heq | heq⟩ := hblank <;> cases heq
    have hcalled := call_spec (reads_command cmd.reply) h.left hstep
    cases hcalled with
    | closed hclosed => cases hclosed.symm.trans hopen
    | ok hstrikes =>
      rw [hcut, encodeAll_singleton, strikes] at hstrikes
      exact of_decide_eq_false hstrikes hk
    | cut k' err _ hcut' _ hopen' hleft =>
      cases hcut.symm.trans hcut'
      rw [htrailer, decide_eq_true rfl, Bool.and_true] at hopen'
      obtain ⟨w, hw⟩ := hright.alone hopen' (.item (.status ⟨[], by decide⟩))
      rw [hleft, encodeAll_singleton] at hw
      obtain ⟨w', hw'⟩ := readAlone_blank (hblank.append (Reply.item (.status ⟨[], by decide⟩)).encode)
      rw [hw'] at hw
      cases hw

/-! ## Requests -/

/-- A request is the list of its arguments. -/
theorem _gen_req_eq (args : List (Arg ν)) :
    _gen_req tostring args = (Reply.multi (args.map fun arg => .item (.bulk (arg.text tostring)))).encode := by
  have helements : encodeAll (args.map fun arg => .item (.bulk (arg.text tostring))) =
      args.flatMap fun arg => 36 :: decimal (arg.text tostring).1.length ++ crlf ++ (arg.text tostring).1 ++ crlf := by
    induction args with
    | nil => rw [map_nil, encodeAll, flatMap_nil]
    | cons arg args ih =>
      rw [map_cons, encodeAll, ih, flatMap_cons, Reply.encode]
      rfl
  rw [_gen_req, Reply.encode, helements, length_map]
  rfl

/-! ## Runs -/

/-- **Every command gets its own reply in every run, alone and in a pipeline, if and
only if** no command that is issued alone is struck by a timeout in the CR LF behind
the data of a bulk reply, at any depth of its reply. -/
theorem commands_right_iff_careful (tostring : ν → LuaString) (es : List (Event ν)) :
    Always (step tostring) Right init es ↔ Along (step tostring) Careful init es :=
  always_iff_along (I := Inv) (fun _ => Inv.right) inv_step careful_of_right ⟨nofun, nofun⟩

/-- A timeout between a bulk's data and its CR LF leaves the CR LF to the next command. -/
theorem commands_not_right_trailer :
    ¬∀ (tostring : Unit → LuaString) (es : List (Event Unit)), Always (step tostring) Right init es := by
  intro h
  let cmd : Command Unit := { args := [], reply := .item (.bulk ⟨[104, 105], by decide⟩) }
  have hruns := (h (fun _ => ⟨[], by decide⟩) [.connect true, .command cmd (some (6, "timeout"))]).2 _ rfl
  obtain ⟨st', hstep⟩ := Option.isSome_iff_exists.mp (show (step (fun _ : Unit => (⟨[], by decide⟩ : LuaString))
    { init with isOpen := true } (.command cmd (some (6, "timeout")))).isSome by decide +kernel)
  have hinv : Inv { init with isOpen := true } := ⟨fun _ ha => (not_mem_nil ha).elim, fun _ => rfl⟩
  have hcareful := careful_of_right _ _ st' hinv hstep (hruns.2 st' hstep)
  exact absurd (hcareful rfl 6 rfl) (by decide +kernel)

end OpenResty.Resty.RedisClient
