/-
Whole responses: the calls of the RDS-JSON body filter on the stream of a result set, in
any buffers that do not cut a header, a column, a flag or a size. The filter writes the JSON
of the result set, or refuses it, unless a buffer is so long that its length wraps.
-/
import OpenResty.Filter.RdsJsonFacts

namespace OpenResty.Filter.RdsJson

open List Nat

variable {conf : Conf} {res : ResultSet} {later : List Bytes} {ctx : Ctx} {rest : Rest}

variable {chain : List Buf}

theorem process_step_spec (hsize : 0 < conf.buf_size) {b : Buf} (hmem : InMemory (b :: chain))
    (hat : rest.At res ctx) (hne : rest ≠ .done) (hcut : Cut (rest.atoms res) (datas (b :: chain) ++ later)) :
    Outcome conf res later ctx (b :: chain) rest (process_step conf ctx (b :: chain)) := by
  cases rest with
  | header =>
    have hstate : ctx.state = .expect_header := hat
    rw [process_step, hstate]
    exact process_header_spec hsize hmem hcut
  | cols cs =>
    rw [process_step, hat.1]
    exact process_col_spec hsize hmem hat hcut
  | rows n rs =>
    rw [process_step, hat.1]
    exact process_row_spec hsize hmem hat hcut
  | fields n j fs rs =>
    rw [process_step, hat.1]
    exact process_field_spec hsize hmem hat hcut
  | more n j col data fs rs =>
    rw [process_step, hat.1]
    exact process_more_field_data_spec hsize hmem hat hcut
  | done => exact absurd rfl hne

/-- Without a buffer every function returns. -/
theorem process_step_nil (conf : Conf) (ctx : Ctx) : process_step conf ctx [] = .ok (ctx, none) := by
  rw [process_step]
  cases ctx.state <;> rfl

theorem Goes.refl (hat : rest.At res ctx) (hne : rest ≠ .done) (hcut : Cut (rest.atoms res) ([] ++ later)) :
    Goes conf res later ctx [] rest ctx [] rest :=
  ⟨hat, rfl, fun h => absurd h hne, Iff.rfl, hcut, Iff.rfl⟩

theorem Goes.trans {bufs bufs' bufs'' : List Bytes} {ctx' ctx'' : Ctx} {rest' rest'' : Rest}
    (h : Goes conf res later ctx bufs rest ctx' bufs' rest') (h' : Goes conf res later ctx' bufs' rest' ctx'' bufs'' rest'') :
    Goes conf res later ctx bufs rest ctx'' bufs'' rest'' :=
  ⟨h'.isAt, h'.text.trans h.text, h'.ended, h.valid.trans h'.valid, h'.cut, h.wraps.trans h'.wraps⟩

/-- The functions take a chain to its end, or refuse it. -/
theorem process_spec (hsize : 0 < conf.buf_size) (hmem : InMemory chain) {n : Nat} (hn : steps chain ≤ n)
    (hat : rest.At res ctx) (hne : rest ≠ .done) (hcut : Cut (rest.atoms res) (datas chain ++ later)) :
    (∃ ctx' rest', process conf n ctx chain = .ok ctx' ∧ Goes conf res later ctx (datas chain) rest ctx' [] rest') ∨
      process conf n ctx chain = .error .error ∧ (¬ rest.Valid res ∨ Wraps (rest.atoms res) (datas chain ++ later)) := by
  induction n generalizing chain ctx rest with
  | zero => exact absurd hn (not_succ_le_zero _)
  | succ n ih =>
    cases chain with
    | nil =>
      refine .inl ⟨ctx, rest, ?_, .refl hat hne hcut⟩
      rw [process, process_step_nil]
      rfl
    | cons b chain =>
      rw [process]
      have houtcome := process_step_spec hsize hmem hat hne hcut
      generalize process_step conf ctx (b :: chain) = r at houtcome ⊢
      cases houtcome with
      | stop hgoes => exact .inl ⟨_, _, rfl, hgoes⟩
      | refused h => exact .inr ⟨rfl, h⟩
      | @on ctx' chain' rest' hgoes hmem' hless =>
        by_cases hdone : rest' = .done
        · -- nothing is left of the chain behind the stream
          subst hdone
          have hnil : datas chain' = [] := (append_eq_nil_iff.mp hgoes.cut).1
          obtain rfl : chain' = [] := map_eq_nil_iff.mp hnil
          refine .inl ⟨ctx', .done, ?_, hgoes⟩
          have hone : steps [] = 1 := rfl
          obtain ⟨n, rfl⟩ : ∃ i, n = i + 1 := ⟨n - 1, by omega⟩
          show process conf (n + 1) ctx' [] = .ok ctx'
          rw [process, process_step_nil]
          rfl
        · rcases ih hmem' (le_of_lt_succ (Nat.lt_of_lt_of_le hless hn)) hgoes.isAt hdone hgoes.cut with
            ⟨ctx'', rest'', hrun, hgoes'⟩ | ⟨hrun, hbad⟩
          · exact .inl ⟨ctx'', rest'', hrun, hgoes.trans hgoes'⟩
          · refine .inr ⟨hrun, ?_⟩
            rwa [hgoes.valid, hgoes.wraps]

/-! ## Calls -/

theorem fieldAtoms_cons (value : Option Value) : ∃ a as, fieldAtoms value = a :: as ∧ a.bytes ≠ [] := by
  match value with
  | none => exact ⟨_, _, rfl, by decide⟩
  | some ⟨[], _⟩ => exact ⟨_, _, rfl, by decide⟩
  | some ⟨c :: data, _⟩ => exact ⟨_, _, rfl, by simp⟩

/-- As long as something is expected, the stream is not at its end. -/
theorem eq_done_of_cut (hat : rest.At res ctx) (hcut : Cut (rest.atoms res) []) : rest = .done := by
  have hfirst {a : Atom} {as : List Atom} (ha : a.bytes ≠ []) : ¬ Cut (a :: as) [] := by
    rintro ⟨hbegins, -⟩
    exact ha (prefix_nil.mp hbegins)
  cases rest with
  | header => exact absurd hcut (hfirst (headerBytes_ne res.header))
  | cols cs =>
    obtain ⟨col, cs, rfl⟩ := exists_cons_of_ne_nil hat.2.1
    exact absurd hcut (hfirst (columnBytes_ne col))
  | rows n rs =>
    cases rs with
    | nil => exact absurd hcut (hfirst (cons_ne_nil _ _))
    | cons row rs => exact absurd hcut (hfirst (cons_ne_nil _ _))
  | fields n j fs rs =>
    obtain ⟨⟨col, value⟩, fs, rfl⟩ := exists_cons_of_ne_nil hat.2.2.2.1
    obtain ⟨a, as, hvalue, ha⟩ := fieldAtoms_cons value
    rw [Rest.atoms, map_cons, fieldsAtoms, flatMap_cons, hvalue] at hcut
    exact absurd hcut (hfirst ha)
  | more n j col data fs rs =>
    obtain ⟨c, data, rfl⟩ := exists_cons_of_ne_nil hat.2.2.2.2.1
    exact absurd hcut (hfirst (cons_ne_nil _ _))
  | done => rfl

theorem At.of_out {out : Out} (h : rest.At res ctx) : rest.At res { ctx with out } := by
  cases rest <;> exact h

/-- The buffers of the calls. -/
def callDatas (calls : List (List Buf)) : List Bytes := calls.flatMap datas

variable {calls : List (List Buf)}

/-- How the calls for the rest of a stream end: all of the JSON is sent, or the stream is refused. -/
theorem filterCalls_spec (hsize : 0 < conf.buf_size) (hmem : ∀ chain ∈ calls, InMemory chain)
    (hat : rest.At res ctx) (hsent : rest = .done → ctx.out.sent = ctx.out.bytes) (hcut : Cut (rest.atoms res) (callDatas calls)) :
    (∃ ctx', filterCalls conf ctx calls = .ok ctx' ∧ ctx'.state = .done ∧
        ctx'.out.sent = ctx.out.bytes ++ rest.text conf res ∧ rest.Valid res ∧ ¬ Wraps (rest.atoms res) (callDatas calls)) ∨
      filterCalls conf ctx calls = .error .error ∧ (¬ rest.Valid res ∨ Wraps (rest.atoms res) (callDatas calls)) := by
  induction calls generalizing ctx rest with
  | nil =>
    obtain rfl := eq_done_of_cut hat hcut
    refine .inl ⟨ctx, rfl, hat, ?_, trivial, id⟩
    rw [Rest.text, append_nil]
    exact hsent rfl
  | cons chain calls ih =>
    have hrest (chain' : List Buf) (h : chain' ∈ calls) : InMemory chain' := hmem chain' (mem_cons_of_mem _ h)
    rw [callDatas, flatMap_cons] at hcut ⊢
    rw [filterCalls, body_filter]
    by_cases hpass : chain = [] ∨ ctx.state = .done
    · -- the call changes nothing
      have hchain : datas chain = [] := by
        rcases hpass with rfl | hdone
        · rfl
        · cases rest with
          | done => exact (append_eq_nil_iff.mp hcut).1
          | header => cases hdone.symm.trans hat
          | cols _ => cases hdone.symm.trans hat.1
          | rows _ _ => cases hdone.symm.trans hat.1
          | fields _ _ _ _ => cases hdone.symm.trans hat.1
          | more _ _ _ _ _ _ => cases hdone.symm.trans hat.1
      rw [if_pos hpass, hchain, nil_append]
      rw [hchain, nil_append] at hcut
      exact ih hrest hat hsent hcut
    · obtain ⟨hne, hstate⟩ := not_or.mp hpass
      have hdone : rest ≠ .done := by
        rintro rfl
        exact hstate hat
      rw [if_neg hpass]
      rcases process_spec hsize (hmem chain mem_cons_self) (Nat.le_refl _) hat hdone hcut with
        ⟨ctx', rest', hrun, hgoes⟩ | ⟨hrun, hbad⟩
      · rw [hrun]
        obtain ⟨hbytes, hflush⟩ := output_bufs_bytes ctx'.out
        have hsent' : rest' = .done → (output_bufs ctx'.out).sent = (output_bufs ctx'.out).bytes := by
          intro h
          rw [hbytes, hflush (hgoes.ended h)]
        have hgo := ih hrest (show rest'.At res { ctx' with out := output_bufs ctx'.out } from At.of_out hgoes.isAt) hsent' hgoes.cut
        rw [hbytes, hgoes.text, ← hgoes.valid] at hgo
        rw [show Wraps (rest.atoms res) (datas chain ++ calls.flatMap datas) ↔ Wraps (rest'.atoms res) (callDatas calls) from
          hgoes.wraps]
        exact hgo
      · rw [hrun]
        exact .inr ⟨rfl, hbad⟩

/-! ## Output buffers without room -/

/-- The columns that are expected have names. -/
def Rest.Named (res : ResultSet) : Rest → Prop
  | .header => ∀ col ∈ res.cols, col.name ≠ []
  | .cols cs => ∀ col ∈ cs, col.name ≠ []
  | _ => True

/-- Before the rows nothing has been written. -/
def Rest.Early (ctx : Ctx) : Rest → Prop
  | .header | .cols _ => ctx.out.avail_out = 0
  | _ => False

/-- How a function may end when the output buffers have no room. -/
inductive Roomless (res : ResultSet) (later : List Bytes) (chain : List Buf) (rest : Rest) :
    Except Failure (Ctx × Option (List Buf)) → Prop
  | on {ctx' : Ctx} {chain' : List Buf} (rest' : Rest) (hat : rest'.At res ctx') (hearly : rest'.Early ctx')
      (hnamed : rest.Named res ↔ rest'.Named res) (hcut : Cut (rest'.atoms res) (datas chain' ++ later))
      (hmem : InMemory chain') (hless : steps chain' < steps chain) : Roomless res later chain rest (.ok (ctx', some chain'))
  | refused (h : ¬ rest.Named res) : Roomless res later chain rest (.error .error)
  | endless (h : rest.Named res) : Roomless res later chain rest (.error .endless)

theorem jsonProps_ne (conf : Conf) : jsonProps conf ≠ [] := by
  simp [jsonProps, lit]

theorem outputBegin_endless (hsize : conf.buf_size = 0) (ctx : Ctx) (havail : ctx.out.avail_out = 0) :
    outputBegin conf ctx = .error .endless := by
  have hbracket : output_literal conf ctx (lit "[") false = .error .endless := by
    rw [output_literal, Bool.or_false]
    exact write_endless hsize havail (by decide)
  rw [outputBegin]
  by_cases hroot : conf.root ≠ []
  · rw [if_pos hroot, output_props_eq, write_endless hsize havail (jsonProps_ne conf)]
    rfl
  · rw [if_neg hroot]
    simp only [pure, Except.pure, bind, Except.bind, hbracket]

theorem process_step_roomless (hsize : conf.buf_size = 0) {b : Buf} (hmem : InMemory (b :: chain))
    (hat : rest.At res ctx) (hearly : rest.Early ctx) (hcut : Cut (rest.atoms res) (datas (b :: chain) ++ later)) :
    Roomless res later (b :: chain) rest (process_step conf ctx (b :: chain)) := by
  cases rest with
  | rows _ _ => exact absurd hearly id
  | fields _ _ _ _ => exact absurd hearly id
  | more _ _ _ _ _ _ => exact absurd hearly id
  | done => exact absurd hearly id
  | header =>
    have hstate : ctx.state = .expect_header := hat
    obtain ⟨t, hdata, hrest⟩ := front (headerBytes_ne res.header) hcut
    rw [process_step, hstate]
    dsimp only
    rw [process_header_eq hmem hdata]
    by_cases hcols : res.cols = []
    · have hcount : res.header.col_count = 0 := by rw [res.col_count_eq, hcols]; rfl
      rw [if_pos hcols, hcols] at hrest
      obtain ⟨rfl, rfl, rfl⟩ := cut_nil hrest
      have hjson : jsonHeader conf res.header ≠ [] := by simp [jsonHeader, lit]
      have hendless : output_header conf { ctx with state := .done } res.header = .error .endless := by
        rw [output_header_eq]
        refine write_endless hsize ?_ hjson
        exact hearly
      rw [if_pos hcount, if_neg (not_not_intro rfl), hendless]
      refine .endless ?_
      rw [Rest.Named, hcols]
      exact forall_mem_nil _
    · have hcount : res.header.col_count ≠ 0 := by
        rw [res.col_count_eq]
        exact fun h => hcols (length_eq_zero_iff.mp h)
      rw [if_neg hcols] at hrest
      rw [if_neg hcount]
      refine .on (.cols res.cols) ⟨rfl, hcols, rfl, rfl, res.col_count_eq⟩ hearly Iff.rfl ?_
        (hmem.onward t) (steps_onward (length_lt_of_ne (headerBytes_ne _) hdata))
      rwa [datas_onward]
  | cols cs =>
    obtain ⟨hstate, hne, hcols, hcur, hcount⟩ := hat
    obtain ⟨col, cs, rfl⟩ := exists_cons_of_ne_nil hne
    obtain ⟨t, hdata, hrest⟩ := front (columnBytes_ne col) hcut
    have hcol := res.cols_lt col (by rw [← hcols]; simp)
    rw [process_step, hstate]
    dsimp only
    rw [process_col_eq hmem hcol hdata]
    by_cases hname : col.name = []
    · rw [if_pos hname]
      exact .refused fun hnamed => hnamed col mem_cons_self hname
    rw [if_neg hname]
    have hlength : res.cols.length = ctx.cur_col + 1 + cs.length := by
      rw [← hcols, hcur, length_append, length_cons]
      omega
    by_cases hlast : cs = []
    · subst hlast
      rw [if_pos (by rw [hcount, hlength]; exact Nat.le_refl _), outputBegin_endless hsize
        { ctx with cols := ctx.cols ++ [col], cur_col := ctx.cur_col + 1, state := .expect_row, row := 0 } hearly]
      refine .endless ?_
      rw [Rest.Named, forall_mem_singleton]
      exact hname
    · have hlt : ¬ ctx.cur_col + 1 ≥ ctx.col_count := by
        have := length_pos_iff.mpr hlast
        omega
      rw [if_neg hlt]
      refine .on (.cols cs) ⟨hstate, hlast, by simpa using hcols, by simp [hcur], hcount⟩ hearly ?_ ?_
        (hmem.onward t) (steps_onward (length_lt_of_ne (columnBytes_ne col) hdata))
      · simp [Rest.Named, hname]
      · rwa [datas_onward]

theorem process_roomless (hsize : conf.buf_size = 0) (hmem : InMemory chain) {n : Nat} (hn : steps chain ≤ n)
    (hat : rest.At res ctx) (hearly : rest.Early ctx) (hcut : Cut (rest.atoms res) (datas chain ++ later)) :
    (∃ (ctx' : Ctx) (rest' : Rest), process conf n ctx chain = .ok ctx' ∧ rest'.At res ctx' ∧ rest'.Early ctx' ∧
        (rest.Named res ↔ rest'.Named res) ∧ Cut (rest'.atoms res) later) ∨
      process conf n ctx chain = .error .error ∧ ¬ rest.Named res ∨ process conf n ctx chain = .error .endless ∧ rest.Named res := by
  induction n generalizing chain ctx rest with
  | zero => exact absurd hn (not_succ_le_zero _)
  | succ n ih =>
    cases chain with
    | nil =>
      refine .inl ⟨ctx, rest, ?_, hat, hearly, Iff.rfl, hcut⟩
      rw [process, process_step_nil]
      rfl
    | cons b chain =>
      rw [process]
      have houtcome := process_step_roomless hsize hmem hat hearly hcut
      generalize process_step conf ctx (b :: chain) = r at houtcome ⊢
      cases houtcome with
      | refused h => exact .inr (.inl ⟨rfl, h⟩)
      | endless h => exact .inr (.inr ⟨rfl, h⟩)
      | on rest' hat' hearly' hnamed hcut' hmem' hless =>
        rw [hnamed]
        exact ih hmem' (le_of_lt_succ (Nat.lt_of_lt_of_le hless hn)) hat' hearly' hcut'

theorem Early.state_ne (hat : rest.At res ctx) (hearly : rest.Early ctx) : ctx.state ≠ .done := by
  intro hdone
  cases rest with
  | header => cases hdone.symm.trans hat
  | cols _ => cases hdone.symm.trans hat.1
  | rows _ _ => exact hearly
  | fields _ _ _ _ => exact hearly
  | more _ _ _ _ _ _ => exact hearly
  | done => exact hearly

theorem Early.flushed (hearly : rest.Early ctx) : rest.Early { ctx with out := output_bufs ctx.out } := by
  have havail (h : ctx.out.avail_out = 0) : (output_bufs ctx.out).avail_out = 0 := by
    rw [output_bufs]
    dsimp only
    split
    · rfl
    · exact h
  cases rest with
  | header => exact havail hearly
  | cols _ => exact havail hearly
  | rows _ _ => exact hearly
  | fields _ _ _ _ => exact hearly
  | more _ _ _ _ _ _ => exact hearly
  | done => exact hearly

/-- Without room a stream is refused for a column without a name, and otherwise has no end. -/
theorem filterCalls_roomless (hsize : conf.buf_size = 0) (hmem : ∀ chain ∈ calls, InMemory chain)
    (hat : rest.At res ctx) (hearly : rest.Early ctx) (hcut : Cut (rest.atoms res) (callDatas calls)) :
    filterCalls conf ctx calls = .error .error ∧ ¬ rest.Named res ∨
      filterCalls conf ctx calls = .error .endless ∧ rest.Named res := by
  induction calls generalizing ctx rest with
  | nil =>
    obtain rfl := eq_done_of_cut hat hcut
    exact absurd hearly id
  | cons chain calls ih =>
    have hrest (chain' : List Buf) (h : chain' ∈ calls) : InMemory chain' := hmem chain' (mem_cons_of_mem _ h)
    rw [callDatas, flatMap_cons] at hcut
    rw [filterCalls, body_filter]
    by_cases hchain : chain = []
    · subst hchain
      rw [if_pos (.inl rfl)]
      exact ih hrest hat hearly hcut
    · rw [if_neg (not_or.mpr ⟨hchain, Early.state_ne hat hearly⟩)]
      rcases process_roomless hsize (hmem chain mem_cons_self) (Nat.le_refl _) hat hearly hcut with
        ⟨ctx', rest', hrun, hat', hearly', hnamed, hcut'⟩ | ⟨hrun, hnot⟩ | ⟨hrun, hnamed⟩
      · rw [hrun, hnamed]
        exact ih hrest (show rest'.At res { ctx' with out := output_bufs ctx'.out } from At.of_out hat')
          (Early.flushed hearly') hcut'
      · rw [hrun]
        exact .inl ⟨rfl, hnot⟩
      · rw [hrun]
        exact .inr ⟨rfl, hnamed⟩

/-! ## The whole -/

/-- The filter sends the JSON of a result set, or refuses a result set that has none. -/
def Right (conf : Conf) (res : ResultSet) (calls : List (List Buf)) : Prop :=
  (res.Valid → ∃ ctx, filterCalls conf .init calls = .ok ctx ∧ ctx.state = .done ∧ ctx.out.sent = res.json conf) ∧
    (¬ res.Valid → filterCalls conf .init calls = .error .error)

/-- The stream of a result set comes in buffers in memory, which cut no header, column, flag or size, and
no size from the first byte of its field. -/
def Delivered (res : ResultSet) (calls : List (List Buf)) : Prop :=
  (∀ chain ∈ calls, InMemory chain) ∧ Cut res.atoms (callDatas calls)

/-- A column has no name; or the output buffers have room, and no buffer with a stream that has a JSON text
is so long that its length wraps behind the size of a field. -/
def Fine (conf : Conf) (res : ResultSet) (calls : List (List Buf)) : Prop :=
  (∃ col ∈ res.cols, col.name = []) ∨ 0 < conf.buf_size ∧ (res.Valid → ¬ Wraps res.atoms (callDatas calls))

theorem right_iff_fine (h : Delivered res calls) : Right conf res calls ↔ Fine conf res calls := by
  obtain ⟨hmem, hcut⟩ := h
  have hunnamed (h : ∃ col ∈ res.cols, col.name = []) : ¬ res.Valid := by
    obtain ⟨col, hcol, hname⟩ := h
    exact fun hvalid => hvalid.1 col hcol hname
  rcases Nat.eq_zero_or_pos conf.buf_size with hsize | hsize
  · have hnamed : ¬ (∃ col ∈ res.cols, col.name = []) ↔ Rest.header.Named res := by
      simp [Rest.Named]
    rcases filterCalls_roomless hsize hmem (show Rest.header.At res .init from rfl) rfl hcut with
      ⟨hrun, hnot⟩ | ⟨hrun, hall⟩
    · have hname := not_not.mp (hnamed.not.mpr hnot)
      exact iff_of_true ⟨fun hvalid => absurd hvalid (hunnamed hname), fun _ => hrun⟩ (.inl hname)
    · refine iff_of_false ?_ ?_
      · rintro ⟨hok, herror⟩
        by_cases hvalid : res.Valid
        · obtain ⟨ctx, hctx, -⟩ := hok hvalid
          cases hrun.symm.trans hctx
        · cases hrun.symm.trans (herror hvalid)
      · rintro (hname | ⟨hpos, -⟩)
        · exact hnamed.mpr hall hname
        · omega
  · have hfine : Fine conf res calls ↔ (res.Valid → ¬ Wraps res.atoms (callDatas calls)) := by
      constructor
      · rintro (hname | ⟨-, hwraps⟩)
        · exact fun hvalid => absurd hvalid (hunnamed hname)
        · exact hwraps
      · exact fun hwraps => .inr ⟨hsize, hwraps⟩
    rw [hfine]
    rcases filterCalls_spec hsize hmem (show Rest.header.At res .init from rfl) nofun hcut with
      ⟨ctx, hrun, hstate, hsent, hvalid, hwraps⟩ | ⟨hrun, hbad⟩
    · exact iff_of_true ⟨fun _ => ⟨ctx, hrun, hstate, hsent⟩, fun hnot => absurd hvalid hnot⟩ fun _ => hwraps
    · constructor
      · rintro ⟨hok, -⟩ hvalid
        obtain ⟨ctx, hctx, -⟩ := hok hvalid
        cases hrun.symm.trans hctx
      · intro hwraps
        have hnot : ¬ res.Valid := fun hvalid => hbad.elim (· hvalid) (hwraps hvalid)
        exact ⟨fun hvalid => absurd hvalid hnot, fun _ => hrun⟩

/-- **The calls send the JSON of a result set, and refuse one that has none, in every way of cutting its stream
that is `Fine`, and in no other.** -/
theorem rds_json_right_iff (conf : Conf) (res : ResultSet) (calls : List (List Buf)) (h : Delivered res calls) :
    Right conf res calls ↔ Fine conf res calls :=
  right_iff_fine h

instance decidableCut : ∀ as bufs, Decidable (Cut as bufs)
  | [], bufs => decEq bufs []
  | a :: as, bufs =>
    have := decidableCut as (behind a.bytes.length bufs)
    inferInstanceAs (Decidable (a.bytes <+: bufs.headD [] ∧ Cut as (behind a.bytes.length bufs)))

def plain : Conf :=
  { format := .normal, root := [], success := [], user_props := [], errcode_key := lit "\"errcode\"",
    errstr_key := lit "\"errstr\"", buf_size := 4096 }

/-- A column `a` of strings. -/
def textColumn : Column := { std_type := 0x8000, drv_type := 0, name := lit "a" }

/-- Rows of one string. -/
def textRows (texts : List Value) : ResultSet where
  header := { std_errcode := 0, drv_errcode := 0, errstr := [], affected_rows := 0, insert_id := 0, col_count := 1 }
  cols := [textColumn]
  rows := texts.map fun text => { flag := ⟨1, by decide⟩, fields := [some text] }
  codes_lt := by decide
  counts_lt := by decide
  col_count_eq := rfl
  cols_lt := by decide
  length_fields row hrow := by
    obtain ⟨text, -, rfl⟩ := mem_map.mp hrow
    rfl
  rows_nil := nofun

/-- The text of a field is cut in the middle. -/
theorem hello_right :
    Right plain (textRows [⟨lit "hello", by decide⟩])
        [[temp_buf (headerBytes (textRows []).header ++ columnBytes textColumn)], [temp_buf [1], temp_buf [5, 0, 0, 0, 104, 101]],
          [temp_buf [108, 108, 111, 0]]] ↔
      Fine plain (textRows [⟨lit "hello", by decide⟩])
        [[temp_buf (headerBytes (textRows []).header ++ columnBytes textColumn)], [temp_buf [1], temp_buf [5, 0, 0, 0, 104, 101]],
          [temp_buf [108, 108, 111, 0]]] :=
  rds_json_right_iff _ _ _ ⟨by simp [InMemory, temp_buf], by decide⟩

/-! ## A stream in one buffer -/

/-- The bytes of atoms, one after the other. -/
def flat (as : List Atom) : Bytes := as.flatMap Atom.bytes

theorem cut_single {as : List Atom} (has : ∀ a ∈ as, a.bytes ≠ []) : Cut as (put (flat as) []) := by
  induction as with
  | nil => rfl
  | cons a as ih =>
    have hflat : flat (a :: as) = a.bytes ++ flat as := rfl
    have hput : put (flat (a :: as)) [] = [a.bytes ++ flat as] := by
      rw [hflat, put, if_neg]
      exact fun h => has a mem_cons_self (append_eq_nil_iff.mp h).1
    rw [hput]
    refine ⟨prefix_append _ _, ?_⟩
    rw [behind_append]
    exact ih fun a' ha' => has a' (mem_cons_of_mem _ ha')

/-- The length of one buffer wraps at a field that it goes on behind for a multiple of `2 ^ 32` bytes. -/
theorem wraps_single {as : List Atom} {a : Atom} {as' : List Atom} (has : ∀ a ∈ as, a.bytes ≠ []) (ha : a.bytes ≠ [])
    (hopens : a.opens = true) (hlength : ((flat (a :: as')).length - 4) % 2 ^ 32 = 0) :
    Wraps (as ++ a :: as') (put (flat (as ++ a :: as')) []) := by
  have hput {a : Atom} (as : List Atom) (ha : a.bytes ≠ []) : put (flat (a :: as)) [] = [a.bytes ++ flat as] := by
    rw [put, if_neg]
    · rfl
    · exact fun h => ha (append_eq_nil_iff.mp h).1
  induction as with
  | nil =>
    rw [nil_append, hput as' ha, wraps_cons]
    exact .inl ⟨hopens, hlength⟩
  | cons a' as ih =>
    rw [cons_append, hput _ (has a' mem_cons_self), wraps_cons]
    exact .inr (ih fun a ha => has a (mem_cons_of_mem _ ha))

/-- No column, flag, size or byte is nothing. -/
theorem atoms_ne (res : ResultSet) : ∀ a ∈ res.atoms, a.bytes ≠ [] := by
  have hfield (value : Option Value) : ∀ a ∈ fieldAtoms value, a.bytes ≠ [] := by
    match value with
    | none => simp [fieldAtoms]; decide
    | some ⟨[], _⟩ => simp [fieldAtoms]; decide
    | some ⟨c :: data, _⟩ => simp [fieldAtoms, dataAtoms]
  have hrows (rs : List Row) : ∀ a ∈ rowsAtoms rs, a.bytes ≠ [] := by
    induction rs with
    | nil => simp [rowsAtoms]
    | cons row rs ih =>
      intro a ha
      rcases mem_cons.mp ha with rfl | ha
      · exact cons_ne_nil _ _
      rcases mem_append.mp ha with ha | ha
      · obtain ⟨value, -, ha⟩ := mem_flatMap.mp ha
        exact hfield value a ha
      · exact ih a ha
  intro a ha
  rcases mem_cons.mp ha with rfl | ha
  · exact headerBytes_ne res.header
  rcases mem_append.mp ha with ha | ha
  · obtain ⟨col, -, rfl⟩ := mem_map.mp ha
    exact columnBytes_ne col
  · split at ha
    · cases ha
    · exact hrows res.rows a ha

theorem single_delivered (res : ResultSet) : Delivered res [[temp_buf (flat res.atoms)]] := by
  have hcut := cut_single (atoms_ne res)
  rw [put, if_neg] at hcut
  · exact ⟨by simp [InMemory, temp_buf], hcut⟩
  · exact fun h => headerBytes_ne res.header (append_eq_nil_iff.mp h).1

theorem length_flat_data (data : Bytes) : (flat (dataAtoms data)).length = data.length := by
  induction data with
  | nil => rfl
  | cons c data ih =>
    have hcons : flat (dataAtoms (c :: data)) = c :: flat (dataAtoms data) := rfl
    rw [hcons, length_cons, length_cons, ih]

theorem length_flat_field (value : Value) : (flat (fieldAtoms (some value))).length = 4 + value.1.length := by
  match value with
  | ⟨[], _⟩ => rfl
  | ⟨c :: data, hlong⟩ =>
    have hcons : flat (fieldAtoms (some ⟨c :: data, hlong⟩)) =
        (Lib.toBytes 4 (data.length + 1) ++ [c]) ++ flat (dataAtoms data) := rfl
    rw [hcons, length_append, length_append, Lib.length_toBytes, length_flat_data, length_singleton,
      length_cons]
    omega

/-- Two rows, the second of which ends `2 ^ 32` bytes behind the size in the first. -/
def longTexts (long : Value) : List Value := [⟨lit "x", by decide⟩, long]

theorem long_wraps {long : Value} (hlong : long.1.length = 2 ^ 32 - 7) :
    Wraps (textRows (longTexts long)).atoms (put (flat (textRows (longTexts long)).atoms) []) := by
  have hatoms : (textRows (longTexts long)).atoms =
      [⟨headerBytes (textRows []).header, false⟩, ⟨columnBytes textColumn, false⟩, ⟨[1], false⟩] ++
        ⟨Lib.toBytes 4 1 ++ lit "x", true⟩ :: ⟨[1], false⟩ :: (fieldAtoms (some long) ++ [⟨[0], false⟩]) := by
    simp [ResultSet.atoms, textRows, longTexts, colsAtoms, rowsAtoms, fieldsAtoms, fieldAtoms, dataAtoms, lit]
  rw [hatoms]
  refine wraps_single (fun a ha => ?_) (by decide) rfl ?_
  · exact atoms_ne (textRows (longTexts long)) a (hatoms ▸ mem_append_left _ ha)
  · have hflat : flat (⟨Lib.toBytes 4 1 ++ lit "x", true⟩ :: ⟨[1], false⟩ :: (fieldAtoms (some long) ++ [⟨[0], false⟩])) =
        (Lib.toBytes 4 1 ++ lit "x") ++ ([1] ++ (flat (fieldAtoms (some long)) ++ [0])) := by
      simp [flat]
    rw [hflat]
    simp only [length_append, length_flat_field, hlong, Lib.length_toBytes]
    rfl

/-- A value of `2 ^ 32 - 7` bytes. -/
def longValue : Value := ⟨List.replicate (2 ^ 32 - 7) 120, by rw [length_replicate]; decide⟩

/-- A result set with a JSON text is refused when it comes in one buffer. -/
theorem long_refused :
    Delivered (textRows (longTexts longValue)) [[temp_buf (flat (textRows (longTexts longValue)).atoms)]] ∧
      ¬ Right plain (textRows (longTexts longValue)) [[temp_buf (flat (textRows (longTexts longValue)).atoms)]] := by
  have hdelivered := single_delivered (textRows (longTexts longValue))
  have hlength : longValue.1.length = 2 ^ 32 - 7 := length_replicate
  generalize longValue = long at hlength hdelivered ⊢
  refine ⟨hdelivered, fun hright => ?_⟩
  have hvalid : (textRows (longTexts long)).Valid := by
    have hname : ∀ col ∈ [textColumn], col.name ≠ [] := by decide
    have htype : textColumn.roughType = .str := by decide
    refine ⟨hname, fun row hrow field hfield => ?_⟩
    obtain ⟨⟨text, htext⟩, -, rfl⟩ := mem_map.mp hrow
    obtain rfl := mem_singleton.mp hfield
    cases text with
    | nil => trivial
    | cons c data => simp only [Fits, htype]
  have hwraps := long_wraps hlength
  have hne : flat (textRows (longTexts long)).atoms ≠ [] := fun h => headerBytes_ne _ (append_eq_nil_iff.mp h).1
  rw [put, if_neg hne] at hwraps
  rcases (right_iff_fine hdelivered).mp hright with ⟨col, hcol, hname⟩ | ⟨-, hfits⟩
  · obtain rfl := mem_singleton.mp hcol
    cases hname
  · exact hfits hvalid hwraps

end OpenResty.Filter.RdsJson
