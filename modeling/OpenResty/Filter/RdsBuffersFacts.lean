/-
The buffers of `ngx_rds_json` always hold what has been written, within their ends. `last_buf`
is lost when the last text is copied aside and does not fill its last buffer.
-/
import OpenResty.Filter.RdsBuffers

namespace OpenResty.Filter.RdsBuffers

open List Function Nat

open Lib (Memory)

variable {size : Nat} {ctx ctx' : Ctx} {conf : RdsJson.Conf} {out out' : RdsJson.Out}

/-! ## The buffers and their numbers -/

/-- The buffer that is being filled. -/
def Ctx.current (ctx : Ctx) : List Nat := if ctx.avail_out > 0 then [ctx.out_buf] else []

/-- The numbers that are in use, each in one place. -/
def Ctx.used (ctx : Ctx) : List Nat := ctx.busy_bufs ++ (ctx.out ++ (ctx.current ++ ctx.free_bufs))

/-- What holds of the buffers between any two steps. -/
structure Inv (size : Nat) (ctx : Ctx) : Prop where
  nodup : ctx.used.Nodup
  created : ∀ b ∈ ctx.used, b < ctx.created
  size_eq : ∀ b < ctx.created, (ctx.bufs b).room.size = size
  last_eq : 0 < ctx.avail_out → (ctx.bufs ctx.out_buf).last + ctx.avail_out = size
  free : ∀ b ∈ ctx.free_bufs, (ctx.bufs b).last = 0
  holds : ∃ before, ctx.passed = before ++ ctx.busy_bufs.map ctx.bufs

/-- The output of the filter, with the buffers left out. -/
structure Shows (ctx : Ctx) (out : RdsJson.Out) : Prop where
  sent : out.sent = ctx.passed.flatMap OutBuf.data
  linked : out.linked = ctx.out.map fun b => (ctx.bufs b).data
  out_buf : 0 < ctx.avail_out → out.out_buf = (ctx.bufs ctx.out_buf).data
  avail_out : out.avail_out = ctx.avail_out
  seen_stream_end : out.seen_stream_end = ctx.seen_stream_end

/-- The flags of the buffers: that of `ctx->out_buf` may be set. -/
def Flags (ctx : Ctx) (flag : Bool) : Prop :=
  ∀ b < ctx.created, (ctx.bufs b).last_buf = (flag && b == ctx.out_buf)

theorem inv_init (size : Nat) : Inv size .init where
  nodup := by simp [Ctx.init, Ctx.used, Ctx.current]
  created b hb := by simp [Ctx.init, Ctx.used, Ctx.current] at hb
  size_eq b hb := absurd hb (Nat.not_lt_zero b)
  last_eq h := absurd h (Nat.lt_irrefl 0)
  free b hb := nomatch hb
  holds := ⟨[], rfl⟩

theorem shows_init : Shows .init RdsJson.Ctx.init.out := ⟨rfl, rfl, fun h => absurd h (Nat.lt_irrefl 0), rfl, rfl⟩

theorem Inv.apart (h : Inv size ctx) (havail : 0 < ctx.avail_out) {b : Nat}
    (hb : b ∈ ctx.busy_bufs ∨ b ∈ ctx.out ∨ b ∈ ctx.free_bufs) : b ≠ ctx.out_buf := by
  have hnodup := h.nodup
  rw [Ctx.used, Ctx.current, if_pos havail] at hnodup
  simp only [nodup_append, mem_append, mem_singleton, nodup_cons] at hnodup
  rintro rfl
  rcases hb with hb | hb | hb
  · exact hnodup.2.2 _ hb _ (.inr (.inl rfl)) rfl
  · exact hnodup.2.1.2.2 _ hb _ (.inl rfl) rfl
  · exact hnodup.2.1.2.1.2.2 _ rfl _ hb rfl

/-- Bytes stored behind those that are there. -/
theorem load_behind (mem : Memory) (n : Nat) (bs : Bytes) :
    (mem.store n bs).load 0 (n + bs.length) = mem.load 0 n ++ bs := by
  rw [Memory.load_add, Memory.load_store_beside mem (.inl (by omega)), Nat.zero_add, Memory.load_store]

/-! ## A buffer is taken -/

theorem get_buf_avail (hsize : 0 < size) (ctx : Ctx) : 0 < (get_buf size ctx).avail_out := by
  unfold get_buf
  split
  · assumption
  · split <;> exact hsize

/-- What `get_buf` leaves as it is. -/
theorem get_buf_same (size : Nat) (ctx : Ctx) :
    (get_buf size ctx).passed = ctx.passed ∧ (get_buf size ctx).postponed = ctx.postponed ∧
      (get_buf size ctx).seen_stream_end = ctx.seen_stream_end ∧
      (get_buf size ctx).avail_out % size = ctx.avail_out % size := by
  unfold get_buf
  split
  · exact ⟨rfl, rfl, rfl, rfl⟩
  · next h =>
    have havail : size % size = ctx.avail_out % size := by rw [mod_self, Nat.eq_zero_of_not_pos h, zero_mod]
    split <;> exact ⟨rfl, rfl, rfl, havail⟩

theorem Inv.get_buf (h : Inv size ctx) (hsize : 0 < size) : Inv size (get_buf size ctx) := by
  unfold RdsBuffers.get_buf
  split
  · exact h
  · next hroom =>
    have hused : ctx.used = ctx.busy_bufs ++ (ctx.out ++ ctx.free_bufs) := by
      rw [Ctx.used, Ctx.current, if_neg hroom, nil_append]
    split
    · next buf free_bufs hfree =>
      have hsame : Ctx.used { ctx with out_buf := buf, free_bufs, avail_out := size } = ctx.used := by
        rw [hused, hfree, Ctx.used, Ctx.current, if_pos hsize]
        rfl
      exact
        { nodup := hsame ▸ h.nodup
          created := hsame ▸ h.created
          size_eq := h.size_eq
          last_eq := fun _ => by
            show (ctx.bufs buf).last + size = size
            rw [h.free buf (by rw [hfree]; exact mem_cons_self), Nat.zero_add]
          free := fun b hb => h.free b (by rw [hfree]; exact mem_cons_of_mem _ hb)
          holds := h.holds }
    · next hfree =>
      rw [hfree, append_nil] at hused
      have hnew (b : Nat) (hb : b ∈ ctx.busy_bufs ++ ctx.out) : b < ctx.created := h.created b (hused ▸ hb)
      have hnow : Ctx.used { ctx with
            bufs := Function.update ctx.bufs ctx.created { room := .new size, last := 0, last_buf := false }
            created := ctx.created + 1
            out_buf := ctx.created
            avail_out := size } = ctx.busy_bufs ++ ctx.out ++ [ctx.created] := by
        rw [Ctx.used, Ctx.current, if_pos hsize]
        simp only [hfree, append_nil, append_assoc]
      obtain ⟨before, hholds⟩ := h.holds
      refine
        { nodup := ?_
          created := ?_
          size_eq := fun b hb => ?_
          last_eq := fun _ => ?_
          free := fun b hb => ?_
          holds := ⟨before, hholds.trans (congrArg _ (map_congr_left fun b hb => ?_))⟩ }
      · rw [hnow, nodup_append]
        refine ⟨hused ▸ h.nodup, nodup_cons.mpr ⟨not_mem_nil, nodup_nil⟩, fun b hb c hc => ?_⟩
        rw [mem_singleton.mp hc]
        exact Nat.ne_of_lt (hnew b hb)
      · rw [hnow]
        intro b hb
        rcases mem_append.mp hb with hb | hb
        · exact lt_succ_of_lt (hnew b hb)
        · rw [mem_singleton.mp hb]
          exact lt_succ_self _
      · rcases Nat.lt_succ_iff_lt_or_eq.mp hb with hlt | rfl
        · dsimp only
          rw [update_of_ne (Nat.ne_of_lt hlt)]
          exact h.size_eq b hlt
        · dsimp only
          rw [update_self]
          rfl
      · dsimp only
        rw [update_self]
        exact Nat.zero_add size
      · rw [hfree] at hb
        cases hb
      · dsimp only
        rw [update_of_ne (Nat.ne_of_lt (hnew b (mem_append_left _ hb)))]

theorem Flags.get_buf (h : Flags ctx false) : Flags (get_buf size ctx) false := by
  unfold RdsBuffers.get_buf
  split
  · exact h
  · split
    · exact h
    · intro b hb
      rcases Nat.lt_succ_iff_lt_or_eq.mp hb with hlt | rfl
      · dsimp only
        rw [update_of_ne (Nat.ne_of_lt hlt)]
        exact h b hlt
      · dsimp only
        rw [update_self]
        rfl

theorem Shows.get_buf (hshows : Shows ctx out) (h : Inv size ctx) (hconf : conf.buf_size = size) :
    Shows (get_buf size ctx) (RdsJson.get_buf conf out) := by
  unfold RdsBuffers.get_buf RdsJson.get_buf
  rw [hshows.avail_out]
  split
  · exact hshows
  · split
    · next buf free_bufs hfree =>
      refine ⟨hshows.sent, hshows.linked, fun _ => ?_, hconf, hshows.seen_stream_end⟩
      rw [OutBuf.data, h.free buf (by rw [hfree]; exact mem_cons_self)]
      rfl
    · refine ⟨hshows.sent, hshows.linked.trans (map_congr_left fun b hb => ?_), fun _ => ?_, hconf,
        hshows.seen_stream_end⟩
      · have hlt := h.created b (mem_append_right _ (mem_append_left _ hb))
        dsimp only
        rw [update_of_ne (Nat.ne_of_lt hlt)]
      · dsimp only
        rw [update_self]
        rfl

/-! ## Bytes are put into the buffer -/

/-- Bytes are put into `ctx->out_buf`. -/
def Ctx.copied (ctx : Ctx) (bs : Bytes) (last_buf : Bool) : Ctx :=
  let buf := ctx.bufs ctx.out_buf
  { ctx.setBuf { room := { buf.room with mem := buf.room.mem.store buf.last bs }, last := buf.last + bs.length, last_buf } with
    avail_out := ctx.avail_out - bs.length }

/-- Bytes are put into `ctx->out_buf`, which is linked when it is full. -/
def Ctx.filled (ctx : Ctx) (bs : Bytes) (last_buf : Bool) (postponed : Option (Nat × Nat)) : Ctx :=
  { ctx.copied bs last_buf with
    out := if ctx.avail_out - bs.length = 0 then ctx.out ++ [ctx.out_buf] else ctx.out
    postponed }

/-- The same for the output with the buffers left out. -/
def outFilled (out : RdsJson.Out) (bs : Bytes) : RdsJson.Out :=
  { out with
    out_buf := out.out_buf ++ bs
    avail_out := out.avail_out - bs.length
    linked := if out.avail_out - bs.length = 0 then out.linked ++ [out.out_buf ++ bs] else out.linked }

variable {bs written : Bytes} {flag : Bool} {postponed : Option (Nat × Nat)}

theorem filled_room (hroom : ctx.avail_out - bs.length > 0) :
    ctx.filled bs flag postponed = { ctx.copied bs flag with postponed } := by
  simp only [Ctx.filled, if_neg (Nat.ne_of_gt hroom)]
  rfl

theorem filled_full (hfull : ctx.avail_out - bs.length = 0) :
    ctx.filled bs flag postponed = Ctx.link { ctx.copied bs flag with postponed } := by
  simp only [Ctx.filled, if_pos hfull]
  rfl

/-- The flag can be set behind. -/
theorem filled_mark (hfull : ctx.avail_out - bs.length = 0) :
    ctx.filled bs flag none = Ctx.setBuf (Ctx.link { ctx.copied bs false with postponed := none })
      { (ctx.copied bs false).bufs ctx.out_buf with last_buf := flag } := by
  simp only [Ctx.filled, if_pos hfull, Ctx.copied, Ctx.setBuf, Ctx.link, update_self, update_idem]

theorem Inv.write (h : Inv size ctx) (havail : 0 < ctx.avail_out) (hlen : bs.length ≤ ctx.avail_out) :
    (ctx.bufs ctx.out_buf).room.write (ctx.bufs ctx.out_buf).last bs =
      .ok { (ctx.bufs ctx.out_buf).room with mem := (ctx.bufs ctx.out_buf).room.mem.store (ctx.bufs ctx.out_buf).last bs } := by
  have hused : ctx.out_buf ∈ ctx.used := by simp [Ctx.used, Ctx.current, havail]
  have hroom := h.size_eq _ (h.created _ hused)
  have hlast := h.last_eq havail
  exact if_pos (by omega)

theorem Inv.filled (h : Inv size ctx) (havail : 0 < ctx.avail_out) (hlen : bs.length ≤ ctx.avail_out) :
    Inv size (ctx.filled bs flag postponed) := by
  have hused : (ctx.filled bs flag postponed).used = ctx.used := by
    by_cases hfull : ctx.avail_out - bs.length = 0
    · simp [Ctx.used, Ctx.current, Ctx.filled, Ctx.copied, Ctx.setBuf, hfull, havail]
    · simp [Ctx.used, Ctx.current, Ctx.filled, Ctx.copied, Ctx.setBuf, hfull, havail, Nat.pos_of_ne_zero hfull]
  obtain ⟨before, hholds⟩ := h.holds
  refine
    { nodup := hused ▸ h.nodup
      created := hused ▸ h.created
      size_eq := fun b hb => ?_
      last_eq := fun hleft => ?_
      free := fun b hb => ?_
      holds := ⟨before, hholds.trans (congrArg _ (map_congr_left fun b hb => ?_))⟩ }
  · by_cases hbuf : b = ctx.out_buf
    · subst hbuf
      simp only [Ctx.filled, Ctx.copied, Ctx.setBuf, update_self]
      exact h.size_eq _ hb
    · simp only [Ctx.filled, Ctx.copied, Ctx.setBuf, update_of_ne hbuf]
      exact h.size_eq b hb
  · have hlast := h.last_eq havail
    simp only [Ctx.filled, Ctx.copied, Ctx.setBuf, update_self]
    omega
  · simp only [Ctx.filled, Ctx.copied, Ctx.setBuf, update_of_ne (h.apart havail (.inr (.inr hb)))]
    exact h.free b hb
  · simp only [Ctx.filled, Ctx.copied, Ctx.setBuf, update_of_ne (h.apart havail (.inl hb))]

theorem Shows.filled (hshows : Shows ctx out) (h : Inv size ctx) (havail : 0 < ctx.avail_out) :
    Shows (ctx.filled bs flag postponed) (outFilled out bs) := by
  have hdata : ((ctx.filled bs flag postponed).bufs ctx.out_buf).data = out.out_buf ++ bs := by
    rw [hshows.out_buf havail]
    simp only [Ctx.filled, Ctx.copied, Ctx.setBuf, update_self]
    exact load_behind _ _ _
  have hlinked : ctx.out.map (fun b => ((ctx.filled bs flag postponed).bufs b).data) = out.linked := by
    rw [hshows.linked]
    refine map_congr_left fun b hb => ?_
    simp only [Ctx.filled, Ctx.copied, Ctx.setBuf, update_of_ne (h.apart havail (.inr (.inl hb)))]
  refine ⟨hshows.sent, ?_, fun _ => hdata.symm, congrArg (· - bs.length) hshows.avail_out, hshows.seen_stream_end⟩
  show (if out.avail_out - bs.length = 0 then out.linked ++ [out.out_buf ++ bs] else out.linked) =
    (if ctx.avail_out - bs.length = 0 then ctx.out ++ [ctx.out_buf] else ctx.out).map _
  rw [hshows.avail_out]
  split
  · rw [map_append, hlinked, map_singleton, hdata]
  · exact hlinked.symm

theorem Flags.filled (h : Flags ctx false) : Flags (ctx.filled bs flag postponed) flag := by
  intro b hb
  by_cases hbuf : b = ctx.out_buf
  · subst hbuf
    simp [Ctx.filled, Ctx.copied, Ctx.setBuf]
  · have hold := h b hb
    rw [Bool.false_and] at hold
    simp only [Ctx.filled, Ctx.copied, Ctx.setBuf, update_of_ne hbuf, hold, beq_false_of_ne hbuf,
      Bool.and_false]

/-! ## A text is submitted -/

/-- A text has gone to the buffers; `flag` says whether `last_buf` is set. -/
structure Submitted (size : Nat) (ctx : Ctx) (text : Bytes) (flag : Bool) (ctx' : Ctx) (out' : RdsJson.Out) :
    Prop where
  inv : Inv size ctx'
  shows : Shows ctx' out'
  flags : Flags ctx' flag
  passed_eq : ctx'.passed = ctx.passed
  last_eq : ∃ before, ctx'.out ++ ctx'.current = before ++ [ctx'.out_buf]
  avail_eq : (ctx'.avail_out + text.length) % size = ctx.avail_out % size
  avail_lt : text ≠ [] → ctx'.avail_out < size

theorem submitted_filled (flag : Bool) (postponed : Option (Nat × Nat)) (h : Inv size ctx)
    (hshows : Shows ctx out) (hflags : Flags ctx false) (havail : 0 < ctx.avail_out)
    (hlen : bs.length ≤ ctx.avail_out) :
    Submitted size ctx bs flag (ctx.filled bs flag postponed) (outFilled out bs) where
  inv := h.filled havail hlen
  shows := hshows.filled h havail
  flags := hflags.filled
  passed_eq := rfl
  last_eq := by
    by_cases hfull : ctx.avail_out - bs.length = 0
    · exact ⟨ctx.out, by simp [Ctx.filled, Ctx.copied, Ctx.current, Ctx.setBuf, hfull]⟩
    · exact ⟨ctx.out, by simp [Ctx.filled, Ctx.copied, Ctx.current, Ctx.setBuf, hfull, Nat.pos_of_ne_zero hfull]⟩
  avail_eq := by
    show (ctx.avail_out - bs.length + bs.length) % size = _
    rw [Nat.sub_add_cancel hlen]
  avail_lt hne := by
    have hpos := length_pos_iff.mpr hne
    have hlast := h.last_eq havail
    show ctx.avail_out - bs.length < size
    omega

/-- What has been written goes on with what is written from there. -/
theorem Submitted.trans {ctx₁ : Ctx} {text text' : Bytes} {flag' : Bool} {out₁ : RdsJson.Out}
    (h : Submitted size ctx text false ctx₁ out₁) (h' : Submitted size (get_buf size ctx₁) text' flag' ctx' out')
    (hne : text' ≠ []) : Submitted size ctx (text ++ text') flag' ctx' out' :=
  { h' with
    avail_lt := fun _ => h'.avail_lt hne
    passed_eq := h'.passed_eq.trans ((get_buf_same size ctx₁).1.trans h.passed_eq)
    avail_eq := by
      have havail := h'.avail_eq.trans (get_buf_same size ctx₁).2.2.2
      rw [length_append, ← Nat.add_assoc, Nat.add_right_comm, add_mod, havail, ← add_mod, h.avail_eq] }

/-- One turn of the loop. -/
theorem copyPostponed_turn {n pos last k : Nat} {cached : Room} {c : Ctx} (hk : min (last - pos) ctx.avail_out = k)
    (hcopy : copy ctx (cached.mem.load pos k) = .ok c) :
    copyPostponed size flag cached (n + 1) ctx pos last =
      if c.avail_out > 0 then .ok { c with postponed := if pos + k = last then none else some (pos + k, last) }
      else if pos + k = last then
        .ok (Ctx.setBuf (Ctx.link { c with postponed := none }) { c.bufs c.out_buf with last_buf := flag })
      else
        copyPostponed size flag cached n
          (get_buf size (Ctx.link { c with postponed := some (pos + k, last) })) (pos + k) last := by
  subst hk
  rw [copyPostponed, hcopy]
  by_cases hroom : c.avail_out > 0
  · rw [if_pos hroom]
    exact if_pos hroom
  · rw [if_neg hroom]
    refine (if_neg hroom).trans ?_
    by_cases hall : pos + min (last - pos) ctx.avail_out = last
    · simp only [if_pos hall]
      rfl
    · simp only [if_neg hall]
      rfl

theorem outPostponed_turn {n k : Nat} {text : Bytes} (hk : min text.length out.avail_out = k) :
    RdsJson.copyPostponed conf (n + 1) out text =
      if out.avail_out - k > 0 ∨ text.drop k = [] then some (outFilled out (text.take k))
      else RdsJson.copyPostponed conf n (RdsJson.get_buf conf (outFilled out (text.take k))) (text.drop k) := by
  have hlength : (text.take k).length = k := length_take_of_le (by omega)
  rw [RdsJson.copyPostponed, outFilled, hlength]
  simp only [hk]
  by_cases hroom : out.avail_out - k > 0
  · rw [if_pos hroom, if_pos (.inl hroom), if_neg (Nat.ne_of_gt hroom)]
  · rw [if_neg hroom, if_pos (show out.avail_out - k = 0 by omega)]
    by_cases hall : text.drop k = []
    · rw [if_pos hall, if_pos (.inr hall)]
    · rw [if_neg hall, if_neg (not_or.mpr ⟨hroom, hall⟩)]

theorem copyPostponed_spec (flag : Bool) (hsize : 0 < size) (hconf : conf.buf_size = size) {n pos last : Nat}
    {cached : Room} {text : Bytes}
    (h : Inv size ctx) (hshows : Shows ctx out) (hflags : Flags ctx false) (havail : 0 < ctx.avail_out)
    (hload : cached.mem.load pos text.length = text) (hlast : pos + text.length = last) (hn : text.length < n) :
    ∃ ctx' out', copyPostponed size flag cached n ctx pos last = .ok ctx' ∧
      RdsJson.copyPostponed conf n out text = some out' ∧
      Submitted size ctx text (flag && ctx'.avail_out == 0) ctx' out' ∧ ctx'.postponed = none := by
  induction n generalizing ctx out pos text with
  | zero => exact absurd hn (Nat.not_lt_zero _)
  | succ n ih =>
    obtain ⟨k, hk⟩ : ∃ k, k = min text.length ctx.avail_out := ⟨_, rfl⟩
    have hkavail : k ≤ ctx.avail_out := hk ▸ Nat.min_le_right _ _
    have hktext : k ≤ text.length := hk ▸ Nat.min_le_left _ _
    have hlength : (text.take k).length = k := length_take_of_le hktext
    -- the bytes of this turn, and those behind them
    have hsplit := Memory.load_add cached.mem pos k (text.length - k)
    rw [Nat.add_sub_cancel' hktext, hload] at hsplit
    have htake : text.take k = cached.mem.load pos k :=
      (congrArg (List.take k) hsplit).trans (take_left' (Memory.length_load ..))
    have hdrop : text.drop k = cached.mem.load (pos + k) (text.length - k) :=
      (congrArg (List.drop k) hsplit).trans (drop_left' (Memory.length_load ..))
    have hfits : (text.take k).length ≤ ctx.avail_out := hlength.symm ▸ hkavail
    have hflag : (ctx.bufs ctx.out_buf).last_buf = false := by
      have hused : ctx.out_buf ∈ ctx.used := by simp [Ctx.used, Ctx.current, havail]
      exact hflags _ (h.created _ hused)
    have hcopy : copy ctx (cached.mem.load pos k) = .ok (ctx.copied (text.take k) false) := by
      rw [← htake, copy]
      simp only [h.write havail hfits, bind, Except.bind, pure, Except.pure, Ctx.copied, hflag]
    rw [copyPostponed_turn (by omega) hcopy, outPostponed_turn (k := k) (by rw [hshows.avail_out, hk]), hshows.avail_out]
    by_cases hall : pos + k = last
    · -- the last turn
      obtain rfl : k = text.length := by omega
      rw [take_length] at hcopy ⊢
      by_cases hroom : ctx.avail_out - text.length > 0
      · have hdone := submitted_filled false none h hshows hflags havail hkavail
        rw [filled_room hroom] at hdone
        refine ⟨_, _, (if_pos hroom).trans (by rw [if_pos hall]), if_pos (.inl hroom), ?_⟩
        have hflag' : (flag && (ctx.copied text false).avail_out == 0) = false := by
          rw [Ctx.copied, beq_false_of_ne (Nat.ne_of_gt hroom), Bool.and_false]
        exact ⟨hflag'.symm ▸ hdone, rfl⟩
      · have hfull : ctx.avail_out - text.length = 0 := by omega
        have hdone := submitted_filled flag none h hshows hflags havail hkavail
        rw [filled_mark hfull] at hdone
        refine ⟨_, _, (if_neg hroom).trans (if_pos hall), if_pos (.inr (drop_length ..)), ?_⟩
        have hflag' : (flag && (ctx.copied text false).avail_out == 0) = flag := by
          rw [Ctx.copied, hfull, beq_self_eq_true, Bool.and_true]
        exact ⟨hflag'.symm ▸ hdone, rfl⟩
    · -- the buffer is full, and the loop goes on with another
      obtain rfl : k = ctx.avail_out := by omega
      have hroom : ¬ctx.avail_out - ctx.avail_out > 0 := by omega
      have hmore : text.drop ctx.avail_out ≠ [] := fun hnil => hall (by rw [drop_eq_nil_iff] at hnil; omega)
      have hfull : ctx.avail_out - (text.take ctx.avail_out).length = 0 := by omega
      have hfirst := submitted_filled false (some (pos + ctx.avail_out, last)) h hshows hflags havail hfits
      have hshorter : (text.drop ctx.avail_out).length = text.length - ctx.avail_out := length_drop
      obtain ⟨ctx', out', hcopied, hout, hsubmitted, hnone⟩ :=
        ih (hfirst.inv.get_buf hsize) (hfirst.shows.get_buf hfirst.inv hconf)
        hfirst.flags.get_buf (get_buf_avail hsize _) (by rw [hshorter, hdrop]) (by omega) (by omega)
      refine ⟨ctx', out', ?_, (if_neg (not_or.mpr ⟨hroom, hmore⟩)).trans hout, ?_, hnone⟩
      · have hnot : ¬(ctx.copied (text.take ctx.avail_out) false).avail_out > 0 := by
          show ¬ctx.avail_out - (text.take ctx.avail_out).length > 0
          omega
        rw [if_neg hnot, if_neg hall, ← filled_full hfull]
        exact hcopied
      · have hboth := hfirst.trans hsubmitted hmore
        rwa [take_append_drop] at hboth

theorem le_get_postponed (cached : Option Room) (len : Nat) : len ≤ (get_postponed cached len).size := by
  unfold get_postponed
  split
  · exact Nat.le_refl len
  · split
    · exact Nat.le_refl len
    · omega

/-- What is kept aside of the buffers can change. -/
theorem Inv.aside (h : Inv size ctx) (cached : Option Room) (postponed : Option (Nat × Nat))
    (seen_stream_end : Bool) :
    Inv size { ctx with cached, postponed, seen_stream_end } :=
  ⟨h.nodup, h.created, h.size_eq, h.last_eq, h.free, h.holds⟩

theorem Shows.aside (h : Shows ctx out) (cached : Option Room) (postponed : Option (Nat × Nat))
    (seen_stream_end : Bool) :
    Shows { ctx with cached, postponed, seen_stream_end } { out with seen_stream_end } :=
  ⟨h.sent, h.linked, h.out_buf, h.avail_out, rfl⟩

theorem getBuf_seen (out : RdsJson.Out) (seen_stream_end : Bool) :
    RdsJson.get_buf conf { out with seen_stream_end } = { RdsJson.get_buf conf out with seen_stream_end } := by
  unfold RdsJson.get_buf
  dsimp only
  split <;> rfl

/-- A text that is copied aside. -/
theorem output_aside (text : Bytes) (flag : Bool) (hlong : (get_buf size ctx).avail_out < text.length) :
    ∃ cached : Room, cached.mem.load 0 text.length = text ∧
      output size ctx text flag =
        copyPostponed size flag cached (text.length + 1)
          { get_buf size ctx with
            cached := some cached, postponed := some (0, text.length)
            seen_stream_end := (get_buf size ctx).seen_stream_end || flag } 0 text.length := by
  obtain ⟨room, hroom⟩ : ∃ room, room = get_postponed (get_buf size ctx).cached text.length := ⟨_, rfl⟩
  have hwrite : room.write 0 text = .ok { room with mem := room.mem.store 0 text } :=
    if_pos (by rw [Nat.zero_add, hroom]; exact le_get_postponed _ _)
  refine ⟨{ room with mem := room.mem.store 0 text }, Memory.load_store room.mem 0 text, ?_⟩
  rw [output, request_mem]
  simp only [if_pos hlong, ← hroom, fill, hwrite, bind, Except.bind, pure, Except.pure, submit_mem]

/-- A text that is written to the buffer. -/
theorem output_direct (h : Inv size (get_buf size ctx)) (havail : 0 < (get_buf size ctx).avail_out)
    (hidle : (get_buf size ctx).postponed = none) (text : Bytes) (flag : Bool)
    (hshort : text.length ≤ (get_buf size ctx).avail_out) :
    output size ctx text flag =
      .ok (Ctx.filled { get_buf size ctx with seen_stream_end := (get_buf size ctx).seen_stream_end || flag }
        text flag none) := by
  rw [output, request_mem]
  generalize get_buf size ctx = g at *
  simp only [if_neg (Nat.not_lt.mpr hshort), fill, h.write havail hshort, bind, Except.bind, pure,
    Except.pure, submit_mem, hidle,
    Ctx.setBuf]
  by_cases hfull : g.avail_out - text.length = 0
  · simp only [if_pos hfull, Ctx.filled, Ctx.copied, Ctx.setBuf, Ctx.link, update_self, update_idem]
  · simp only [if_neg hfull, Ctx.filled, Ctx.copied, Ctx.setBuf, update_self, update_idem]

variable {c : RdsJson.Ctx}

theorem literal_aside {text : Bytes} {flag : Bool}
    (hlong : (RdsJson.get_buf conf out).avail_out < text.length)
    (hcopied : RdsJson.copyPostponed conf (text.length + 1)
      { RdsJson.get_buf conf out with seen_stream_end := out.seen_stream_end || flag } text = some out') :
    RdsJson.output_literal conf { c with out } text flag = .ok { c with out := out' } := by
  rw [RdsJson.output_literal, RdsJson.write]
  simp only [getBuf_seen, if_pos hlong, hcopied]

theorem literal_direct {text : Bytes} {flag : Bool}
    (hshort : text.length ≤ (RdsJson.get_buf conf out).avail_out) :
    RdsJson.output_literal conf { c with out } text flag =
      .ok { c with out := outFilled { RdsJson.get_buf conf out with seen_stream_end := out.seen_stream_end || flag } text } := by
  rw [RdsJson.output_literal, RdsJson.write]
  simp only [getBuf_seen, if_neg (Nat.not_lt.mpr hshort), outFilled]
  split <;> rfl

/-- **A text that is requested room for and submitted goes to the buffers as the filter has it, and `last_buf` is
set if the text has room in its first buffer or fills its last one.** -/
theorem output_spec (hsize : 0 < size) (hconf : conf.buf_size = size) (h : Inv size ctx) (hshows : Shows ctx out)
    (hflags : Flags ctx false) (hidle : ctx.postponed = none) (text : Bytes) (flag : Bool) (c : RdsJson.Ctx) :
    ∃ ctx' out', output size ctx text flag = .ok ctx' ∧
      RdsJson.output_literal conf { c with out } text flag = .ok { c with out := out' } ∧
      Submitted size ctx text (flag &&
        (decide (text.length ≤ (get_buf size ctx).avail_out) || ctx'.avail_out == 0)) ctx' out' ∧
      ctx'.postponed = none := by
  obtain ⟨hpassed, hpostponed, hseen, hmod⟩ := get_buf_same size ctx
  have hinv := h.get_buf hsize
  have hgot := hshows.get_buf h hconf
  have havail := get_buf_avail hsize ctx
  have hdone {ctx' : Ctx} {out' : RdsJson.Out} {mark : Bool} {cached : Option Room} {postponed : Option (Nat × Nat)}
      (hsubmitted : Submitted size { get_buf size ctx with
        cached, postponed, seen_stream_end := (get_buf size ctx).seen_stream_end || flag } text mark ctx' out') :
      Submitted size ctx text mark ctx' out' :=
    { hsubmitted with
      passed_eq := hsubmitted.passed_eq.trans hpassed
      avail_eq := hsubmitted.avail_eq.trans hmod }
  by_cases hlong : (get_buf size ctx).avail_out < text.length
  · obtain ⟨cached, hload, houtput⟩ := output_aside text flag hlong
    obtain ⟨ctx', out', hcopied, hout, hsubmitted, hnone⟩ := copyPostponed_spec flag hsize hconf
      (hinv.aside (some cached) (some (0, text.length)) _)
        (hgot.aside _ _ ((get_buf size ctx).seen_stream_end || flag))
      hflags.get_buf havail hload (Nat.zero_add _) (lt_succ_self _)
    refine ⟨ctx', out', houtput.trans hcopied, literal_aside (by rw [hgot.avail_out]; exact hlong) ?_, ?_, hnone⟩
    · rwa [hshows.seen_stream_end, ← hseen]
    · rw [decide_eq_false (Nat.not_le.mpr hlong), Bool.false_or]
      exact hdone hsubmitted
  · have hshort := Nat.le_of_not_lt hlong
    have hsubmitted := submitted_filled flag none
      (hinv.aside (get_buf size ctx).cached (get_buf size ctx).postponed _)
      (hgot.aside _ _ ((get_buf size ctx).seen_stream_end || flag)) hflags.get_buf havail hshort
    refine ⟨_, _, output_direct hinv havail (hpostponed.trans hidle) text flag hshort,
      literal_direct (by rw [hgot.avail_out]; exact hshort),
      ?_, rfl⟩
    rw [decide_eq_true hshort, Bool.true_or, Bool.and_true, hshows.seen_stream_end, ← hseen]
    exact hdone hsubmitted

/-! ## The buffers go out -/

/-- What goes out with `ctx->out`. -/
def Ctx.pending (ctx : Ctx) : List Nat := if ctx.seen_stream_end then ctx.out ++ ctx.current else ctx.out

theorem close_out (ctx : Ctx) : ctx.close.out = ctx.pending := by
  rw [Ctx.close, Ctx.pending, Ctx.current]
  split
  · split <;> simp
  · rfl

/-- What is the same at the end of the stream. -/
theorem close_same (ctx : Ctx) :
    ctx.close.used = ctx.used ∧ ctx.close.bufs = ctx.bufs ∧ ctx.close.created = ctx.created ∧
      ctx.close.passed = ctx.passed ∧
      ctx.close.free_bufs = ctx.free_bufs ∧ ctx.close.busy_bufs = ctx.busy_bufs ∧ ctx.close.out_buf = ctx.out_buf ∧
      ctx.close.postponed = ctx.postponed := by
  unfold Ctx.close Ctx.used Ctx.current
  split
  · by_cases havail : ctx.avail_out > 0 <;> simp [havail]
  · simp

theorem Inv.close (h : Inv size ctx) : Inv size ctx.close := by
  obtain ⟨hused, hbufs, hcreated, hpassed, hfree, hbusy, hbuf, -⟩ := close_same ctx
  refine
    { nodup := hused ▸ h.nodup
      created := by rw [hused, hcreated]; exact h.created
      size_eq := by rw [hbufs, hcreated]; exact h.size_eq
      last_eq := ?_
      free := by rw [hbufs, hfree]; exact h.free
      holds := by rw [hbufs, hpassed, hbusy]; exact h.holds }
  unfold Ctx.close
  split
  · exact fun hroom => absurd hroom (Nat.lt_irrefl 0)
  · exact h.last_eq

theorem handOn_perm (ctx : Ctx) (freed : Nat) : (ctx.handOn freed).used.Perm ctx.used := by
  have hsplit := take_append_drop freed (ctx.busy_bufs ++ ctx.out)
  rw [perm_iff_count]
  intro b
  have hcount := congrArg (List.count b) hsplit
  have hcurrent : (ctx.handOn freed).current = ctx.current := rfl
  simp only [Ctx.used, hcurrent]
  simp only [Ctx.handOn, List.count_append, count_reverse, nil_append] at hcount ⊢
  omega

/-- A buffer that is being filled is not one of those that are made free. -/
theorem Inv.not_used (h : Inv size ctx) (freed : Nat) (havail : 0 < ctx.avail_out) :
    ctx.out_buf ∉ (ctx.busy_bufs ++ ctx.out).take freed := by
  intro hmem
  rcases mem_append.mp (mem_of_mem_take hmem) with hb | hb
  · exact h.apart havail (.inl hb) rfl
  · exact h.apart havail (.inr (.inl hb)) rfl

theorem Inv.handOn (h : Inv size ctx) (freed : Nat) : Inv size (ctx.handOn freed) := by
  have hperm := handOn_perm ctx freed
  have hsplit := take_append_drop freed (ctx.busy_bufs ++ ctx.out)
  have hnodup := h.nodup
  rw [Ctx.used, ← append_assoc, ← hsplit] at hnodup
  obtain ⟨before, hholds⟩ := h.holds
  refine
    { nodup := hperm.nodup_iff.mpr h.nodup
      created := fun b hb => h.created b (hperm.mem_iff.mp hb)
      size_eq := fun b hb => ?_
      last_eq := fun havail => ?_
      free := fun b hb => ?_
      holds := ⟨before ++ ((ctx.busy_bufs ++ ctx.out).take freed).map ctx.bufs, ?_⟩ }
  · dsimp only [Ctx.handOn]
    split <;> exact h.size_eq b hb
  · dsimp only [Ctx.handOn]
    rw [if_neg (h.not_used freed havail)]
    exact h.last_eq havail
  · dsimp only [Ctx.handOn]
    split
    · rfl
    · next hnot =>
      rcases mem_append.mp hb with hb | hb
      · exact absurd (mem_reverse.mp hb) hnot
      · exact h.free b hb
  · have hkept : ((ctx.busy_bufs ++ ctx.out).drop freed).map (ctx.handOn freed).bufs =
        ((ctx.busy_bufs ++ ctx.out).drop freed).map ctx.bufs := by
      refine map_congr_left fun b hb => if_neg fun hused => ?_
      exact (nodup_append.mp (nodup_append.mp hnodup).1).2.2 b hused b hb rfl
    show ctx.passed ++ ctx.out.map ctx.bufs = _ ++ ((ctx.busy_bufs ++ ctx.out).drop freed).map (ctx.handOn freed).bufs
    rw [hkept, append_assoc, ← map_append, hsplit, hholds, map_append, append_assoc]

theorem Inv.output_bufs (h : Inv size ctx) (freed : Nat) : Inv size (output_bufs ctx freed) := by
  rw [RdsBuffers.output_bufs]
  split
  · exact h.close
  · exact h.close.handOn freed

theorem output_bufs_passed (ctx : Ctx) (freed : Nat) :
    (output_bufs ctx freed).passed = ctx.passed ++ ctx.pending.map ctx.bufs := by
  obtain ⟨-, hbufs, -, hpassed, -⟩ := close_same ctx
  rw [output_bufs, ← close_out]
  split
  · next hnil => rw [hnil, map_nil, append_nil, hpassed]
  · rw [← hpassed, ← hbufs]
    rfl

theorem Flags.output_bufs (h : Flags ctx flag) (freed : Nat) : Flags (output_bufs ctx freed) flag := by
  obtain ⟨-, hbufs, hcreated, -, -, -, hbuf, -⟩ := close_same ctx
  have hclose : Flags ctx.close flag := by
    rw [Flags, hcreated, hbufs, hbuf]
    exact h
  rw [RdsBuffers.output_bufs]
  split
  · exact hclose
  · intro b hb
    dsimp only [Ctx.handOn]
    split <;> exact hclose b hb

theorem Shows.output_bufs (hshows : Shows ctx out) (h : Inv size ctx) (freed : Nat) :
    Shows (output_bufs ctx freed) (RdsJson.output_bufs out) := by
  obtain ⟨o, ho, hclose⟩ : ∃ o : RdsJson.Out,
    RdsJson.output_bufs out = { o with sent := o.sent ++ o.linked.flatten, linked := [] } ∧
      Shows ctx.close o := by
    refine ⟨_, rfl, ?_⟩
    unfold Ctx.close
    rw [hshows.seen_stream_end]
    by_cases hseen : ctx.seen_stream_end = true
    · rw [if_pos hseen, if_pos hseen, hshows.avail_out]
      refine ⟨hshows.sent, ?_, fun hroom => absurd hroom (Nat.lt_irrefl 0), rfl, rfl⟩
      dsimp only
      split
      · next havail => rw [map_append, hshows.linked, hshows.out_buf havail, map_singleton]
      · exact hshows.linked
    · rw [if_neg hseen, if_neg hseen]
      exact hshows
  have hinv := h.close
  rw [RdsBuffers.output_bufs, ho]
  generalize ctx.close = c at hclose hinv
  have hsent : o.sent ++ o.linked.flatten = (c.passed ++ c.out.map c.bufs).flatMap OutBuf.data := by
    rw [hclose.sent, hclose.linked, ← flatMap_def, flatMap_append, flatMap_map]
  split
  · next hnil =>
    rw [hnil, map_nil, append_nil] at hsent
    exact ⟨hsent, by rw [hnil]; rfl, hclose.out_buf, hclose.avail_out, hclose.seen_stream_end⟩
  · refine ⟨hsent, rfl, fun havail => ?_, hclose.avail_out, hclose.seen_stream_end⟩
    refine (hclose.out_buf havail).trans ?_
    dsimp only [Ctx.handOn]
    rw [if_neg (hinv.not_used freed havail)]

/-! ## Responses -/

/-- What holds between the events, when `written` has been submitted. -/
structure Ready (size : Nat) (ctx : Ctx) (out : RdsJson.Out) (written : Bytes) : Prop where
  inv : Inv size ctx
  shows : Shows ctx out
  flags : Flags ctx false
  plain : ∀ buf ∈ ctx.passed, buf.last_buf = false
  postponed_eq : ctx.postponed = none
  seen_eq : ctx.seen_stream_end = false
  bytes_eq : out.bytes = written
  avail_eq : (ctx.avail_out + written.length) % size = 0

theorem ready_init (size : Nat) : Ready size .init RdsJson.Ctx.init.out [] where
  inv := inv_init size
  shows := shows_init
  flags b hb := absurd hb (Nat.not_lt_zero b)
  plain _ hbuf := nomatch hbuf
  postponed_eq := rfl
  seen_eq := rfl
  bytes_eq := rfl
  avail_eq := zero_mod size

theorem literal_wrote (hsize : 0 < conf.buf_size) {text : Bytes}
    (h : RdsJson.output_literal conf { c with out } text flag = .ok { c with out := out' }) :
    out'.bytes = out.bytes ++ text ∧ out'.seen_stream_end = (out.seen_stream_end || flag) := by
  obtain ⟨o, hwrite, hwrote⟩ := RdsJson.write_spec hsize
    { c with out := { out with seen_stream_end := out.seen_stream_end || flag } } text
  have heq : o = out' := congrArg RdsJson.Ctx.out (Except.ok.inj (hwrite.symm.trans h))
  exact heq ▸ ⟨hwrote.bytes_eq, hwrote.end_eq⟩

theorem Ready.pending_plain (h : Ready size ctx out written) : ∀ b ∈ ctx.pending, (ctx.bufs b).last_buf = false := by
  intro b hb
  rw [Ctx.pending, h.seen_eq] at hb
  exact h.flags b (h.inv.created b (mem_append_right _ (mem_append_left _ hb)))

theorem Ready.text (hsize : 0 < size) (hconf : conf.buf_size = size) (h : Ready size ctx out written) (t : Bytes) :
    ∃ ctx' out', output size ctx t false = .ok ctx' ∧ Ready size ctx' out' (written ++ t) := by
  obtain ⟨ctx', out', houtput, hliteral, hsubmitted, hnone⟩ :=
    output_spec hsize hconf h.inv h.shows h.flags h.postponed_eq t false .init
  obtain ⟨hbytes, hseen⟩ := literal_wrote (hconf ▸ hsize) hliteral
  refine ⟨ctx', out', houtput, ?_⟩
  exact
    { inv := hsubmitted.inv
      shows := hsubmitted.shows
      flags := hsubmitted.flags
      plain := hsubmitted.passed_eq ▸ h.plain
      postponed_eq := hnone
      seen_eq := by rw [← hsubmitted.shows.seen_stream_end, hseen, h.shows.seen_stream_end, h.seen_eq]; rfl
      bytes_eq := by rw [hbytes, h.bytes_eq]
      avail_eq := by
        rw [length_append, Nat.add_comm written.length, ← Nat.add_assoc, add_mod,
          hsubmitted.avail_eq, ← add_mod, h.avail_eq] }

theorem Ready.output_bufs (h : Ready size ctx out written) (freed : Nat) :
    Ready size (output_bufs ctx freed) (RdsJson.output_bufs out) written := by
  have hclose : ctx.close = ctx := by rw [Ctx.close, h.seen_eq]; rfl
  have hsame : (RdsBuffers.output_bufs ctx freed).avail_out = ctx.avail_out ∧
      (RdsBuffers.output_bufs ctx freed).seen_stream_end = ctx.seen_stream_end ∧
      (RdsBuffers.output_bufs ctx freed).postponed = ctx.postponed := by
    rw [RdsBuffers.output_bufs, hclose]
    split <;> exact ⟨rfl, rfl, rfl⟩
  exact
    { inv := h.inv.output_bufs freed
      shows := h.shows.output_bufs h.inv freed
      flags := h.flags.output_bufs freed
      plain := fun buf hbuf => by
        rw [output_bufs_passed] at hbuf
        rcases mem_append.mp hbuf with hbuf | hbuf
        · exact h.plain buf hbuf
        · obtain ⟨b, hb, rfl⟩ := mem_map.mp hbuf
          exact h.pending_plain b hb
      postponed_eq := hsame.2.2.trans h.postponed_eq
      seen_eq := hsame.2.1.trans h.seen_eq
      bytes_eq := (RdsJson.output_bufs_bytes out).1.trans h.bytes_eq
      avail_eq := hsame.1 ▸ h.avail_eq }

theorem Ready.events (hsize : 0 < size) (hconf : conf.buf_size = size) (h : Ready size ctx out written)
    (events : List Event) :
    ∃ ctx' out', events.foldlM (step size) ctx = .ok ctx' ∧
      Ready size ctx' out' (written ++ events.flatMap Event.bytes) := by
  induction events generalizing ctx out written with
  | nil => exact ⟨ctx, out, rfl, by rwa [flatMap_nil, append_nil]⟩
  | cons e events ih =>
    have hstep : ∃ ctx' out', step size ctx e = .ok ctx' ∧ Ready size ctx' out' (written ++ e.bytes) := by
      cases e with
      | text t => exact h.text hsize hconf t
      | output_bufs freed => exact ⟨_, _, rfl, by rw [Event.bytes, append_nil]; exact h.output_bufs freed⟩
    obtain ⟨ctx', out', hstep, hready⟩ := hstep
    obtain ⟨ctx'', out'', hrest, hready⟩ := ih hready
    refine ⟨ctx'', out'', ?_, ?_⟩
    · rw [foldlM_cons, hstep]
      exact hrest
    · rwa [flatMap_cons, ← append_assoc]

/-- The last text keeps `last_buf` if it has room in the buffer that it begins in, or fills its
last one. -/
def LastFits (size written last : Nat) : Prop := last ≤ size - written % size ∨ (written + last) % size = 0

instance (n m : Nat) : Decidable (LastFits size n m) := inferInstanceAs (Decidable (_ ∨ _))

/-- The room that a text begins in. -/
theorem Ready.room (hsize : 0 < size) (h : Ready size ctx out written) :
    (get_buf size ctx).avail_out = size - written.length % size := by
  have havail := get_buf_avail hsize ctx
  have hlast := (h.inv.get_buf hsize).last_eq havail
  have hmod : ((get_buf size ctx).avail_out + written.length % size) % size = 0 := by
    rw [add_mod_mod, add_mod, (get_buf_same size ctx).2.2.2, ← add_mod, h.avail_eq]
  have hlt := mod_lt written.length hsize
  have heq := eq_of_dvd_of_lt_two_mul (by omega) (dvd_of_mod_eq_zero hmod) (by omega)
  omega

theorem endsOnce_append {before : List OutBuf} {final : OutBuf} (hbefore : ∀ buf ∈ before, buf.last_buf = false) :
    EndsOnce (before ++ [final]) ↔ final.last_buf = true := by
  constructor
  · rintro ⟨before', final', heq, hfinal, -⟩
    rwa [(List.cons.inj (append_inj' heq rfl).2).1]
  · exact fun hfinal => ⟨before, final, rfl, hfinal, hbefore⟩

/-- **The next filter gets what has been submitted, whatever the lengths, and only `last_buf` can be missing.** -/
theorem respond_spec (hsize : 0 < size) (events : List Event) (text : Bytes) (freed : Nat) :
    ∃ ctx, respond size events text freed = .ok ctx ∧
      ctx.passed.flatMap OutBuf.data = events.flatMap Event.bytes ++ text ∧
      (∃ before, ctx.passed = before ++ ctx.busy_bufs.map ctx.bufs) ∧
      (EndsOnce ctx.passed ↔ LastFits size (events.flatMap Event.bytes).length text.length) := by
  obtain ⟨conf, hconf⟩ : ∃ conf : RdsJson.Conf, conf.buf_size = size := ⟨⟨.normal, [], [], [], [], [], size⟩, rfl⟩
  obtain ⟨ctx₁, out₁, hevents, hready⟩ := (ready_init size).events hsize hconf events
  rw [nil_append] at hready
  obtain ⟨ctx₂, out₂, houtput, hliteral, hsubmitted, -⟩ :=
    output_spec hsize hconf hready.inv hready.shows hready.flags hready.postponed_eq text true .init
  obtain ⟨hbytes, hseen⟩ := literal_wrote (hconf ▸ hsize) hliteral
  rw [Bool.or_true] at hseen
  have hinv := hsubmitted.inv.output_bufs freed
  have hshows := hsubmitted.shows.output_bufs hsubmitted.inv freed
  refine ⟨output_bufs ctx₂ freed, ?_, ?_, hinv.holds, ?_⟩
  · rw [respond, hevents]
    simp only [bind, Except.bind, houtput, pure, Except.pure]
  · rw [← hshows.sent, (RdsJson.output_bufs_bytes out₂).2 hseen, hbytes, hready.bytes_eq]
  · obtain ⟨before, hlast⟩ := hsubmitted.last_eq
    have hpending : ctx₂.pending = before ++ [ctx₂.out_buf] := by
      rw [Ctx.pending, ← hsubmitted.shows.seen_stream_end, hseen, if_pos rfl, hlast]
    have hused : before ++ [ctx₂.out_buf] ++ ctx₂.free_bufs = ctx₂.out ++ (ctx₂.current ++ ctx₂.free_bufs) := by
      rw [← hlast, append_assoc]
    have hmem (b : Nat) (hb : b ∈ before ++ [ctx₂.out_buf]) : b < ctx₂.created :=
      hsubmitted.inv.created b (mem_append_right _ (hused ▸ mem_append_left _ hb))
    have hnodup := (nodup_append.mp hsubmitted.inv.nodup).2.1
    rw [← hused] at hnodup
    have hapart := (nodup_append.mp (nodup_append.mp hnodup).1).2.2
    rw [output_bufs_passed, hpending, map_append, map_singleton, ← append_assoc, endsOnce_append ?_]
    · rw [hsubmitted.flags _ (hmem _ (mem_append_right _ mem_cons_self)), beq_self_eq_true,
        Bool.and_true, Bool.true_and,
        Bool.or_eq_true, decide_eq_true_iff, beq_iff_eq, hready.room hsize, LastFits]
      by_cases hshort : text.length ≤ size - (events.flatMap Event.bytes).length % size
      · exact iff_of_true (.inl hshort) (.inl hshort)
      rw [or_iff_right hshort, or_iff_right hshort]
      have hlt := hsubmitted.avail_lt (ne_nil_of_length_pos (by omega))
      have hmod : (ctx₂.avail_out + ((events.flatMap Event.bytes).length + text.length)) % size = 0 := by
        rw [Nat.add_comm _ text.length, ← Nat.add_assoc, add_mod, hsubmitted.avail_eq, ← add_mod,
          hready.avail_eq]
      constructor
      · intro hfull
        rwa [hfull, Nat.zero_add] at hmod
      · intro hfull
        rwa [add_mod, hfull, Nat.add_zero, mod_mod, mod_eq_of_lt hlt] at hmod
    · intro buf hbuf
      rcases mem_append.mp hbuf with hbuf | hbuf
      · exact hready.plain buf (hsubmitted.passed_eq ▸ hbuf)
      · obtain ⟨b, hb, rfl⟩ := mem_map.mp hbuf
        rw [hsubmitted.flags b (hmem b (mem_append_left _ hb)),
          beq_false_of_ne (hapart b hb _ mem_cons_self), Bool.and_false]

/-- **All that is submitted goes out in buffers of which the last one has `last_buf`, if and only if the last text has room
in the buffer that it begins in, or fills its last one.** -/
theorem rds_json_buffers_right_iff (hsize : 1 ≤ size) (events : List Event) (text : Bytes) (freed : Nat) :
    (∃ ctx, Right size events text freed ctx) ↔ LastFits size (events.flatMap Event.bytes).length text.length := by
  obtain ⟨ctx, hrespond, hcarries, hholds, hends⟩ := respond_spec hsize events text freed
  constructor
  · rintro ⟨ctx', h⟩
    cases hrespond.symm.trans h.respond_eq
    exact hends.mp h.ends
  · exact fun hfits => ⟨ctx, hrespond, hcarries, hholds, hends.mpr hfits⟩

theorem three_bytes_right : 1 ≤ 2 ∧ ∃ ctx, Right 2 [.text [91], .output_bufs 1, .text [49]] [93] 1 ctx :=
  ⟨by decide, (rds_json_buffers_right_iff (by decide) _ _ _).mpr (by decide)⟩

/-- The only text of the response to an insert, in a buffer of 16 bytes. -/
theorem last_buf_lost : ¬∃ ctx, Right 16 [] (RdsJson.lit "\x7b\"errcode\":0,\"affected_rows\":3\x7d") 0 ctx := by
  rintro ⟨ctx, h⟩
  have hflags : ((respond 16 [] (RdsJson.lit "\x7b\"errcode\":0,\"affected_rows\":3\x7d") 0).map
      fun ctx => ctx.passed.map OutBuf.last_buf) = .ok [false, false] := rfl
  rw [h.respond_eq] at hflags
  have hunset : ctx.passed.map OutBuf.last_buf = [false, false] := Except.ok.inj hflags
  obtain ⟨before, final, hpassed, hfinal, -⟩ := h.ends
  have hmem : final.last_buf ∈ ctx.passed.map OutBuf.last_buf := mem_map_of_mem (by rw [hpassed]; simp)
  rw [hunset, hfinal] at hmem
  exact absurd hmem (by decide)

end OpenResty.Filter.RdsBuffers
