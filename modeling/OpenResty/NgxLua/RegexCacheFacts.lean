/-
The calls with the cache return what each returns alone, when calls that share a
compiled regex agree about it.
-/
import Mathlib.Data.List.Forall2
import OpenResty.Lib.Lockstep
import OpenResty.NgxLua.RegexCache

namespace OpenResty.NgxLua.RegexCache

open List hiding getElem?_eq_some_iff
open Function Option

open Lib.Lockstep (Both outputs Guarded Same guarded_of_forall outputs_eq)
open Lib.Resp (ascii decimal asText)
open RegexSub (Progress nextOffset)

variable {P : Pcre} {α β : Type}

/-! ## The calls alone: each has its own regex and its own offsets -/

structure Alone (P : Pcre) where
  iterators : List (Iterator P Unit)
  /-- With the offsets of the match that the callback is called for. -/
  frames : List (Frame P (Int × Int))

namespace Alone

def subLoop (h : Handle P Unit) (subj : Bytes) (global func : Bool) :
    Nat → Progress → Except Failure (Outcome × Int × Int)
  | 0, _ => .error .endless
  | fuel + 1, l => do
    let (rc, cap) := h.run subj l.offset
    match ← afterExec h subj global func l rc cap with
    | .inl l => subLoop h subj global func fuel l
    | .inr r => return (r, capAt cap 0, capAt cap 1)

def settle (h : Handle P Unit) (subj : Bytes) (global : Bool) (a : Alone P) : Outcome × Int × Int → Alone P × Output
  | (.finished r, _) => (a, .sub r)
  | (.calls progress captures, cap) =>
    ({ a with frames := { subj, handle := h.at cap, global, progress } :: a.frames }, .called captures)

def «open» (a : Alone P) (purpose : Purpose) (pat opts : Bytes) (failed : String → Output)
    (go : Alone P → Handle P Unit → Except Failure (Alone P × Output)) : Except Failure (Alone P × Output) :=
  match parse_opts opts with
  | .error msg => .ok (a, .raised msg)
  | .ok (options, flags) =>
    match Wanted.compiled { purpose, pat, options, flags } with
    | .error msg => .ok (a, failed msg)
    | .ok h => go a h

def next (a : Alone P) (i : Nat) : Except Failure (Alone P × Output) :=
  match a.iterators[i]? with
  | none => .ok (a, .idle)
  | some it =>
    if it.offset < 0 then .ok (a, .next (.ok none))
    else
      let (rc, cap) := it.handle.run it.subj it.offset
      let (r, offset) := nextResult it.handle it.subj rc cap
      .ok ({ a with iterators := a.iterators.set i { it with offset } }, r)

def resume (a : Alone P) (piece : Bytes) : Except Failure (Alone P × Output) :=
  match a.frames with
  | [] => .ok (a, .idle)
  | f :: frames => do
    let a := { a with frames }
    let h := { f.handle with cap := () }
    match ← append f.subj f.global f.progress f.handle.cap piece with
    | .inl l => return settle h f.subj f.global a (← subLoop h f.subj f.global true (f.subj.length + 2) l)
    | .inr l => return settle h f.subj f.global a (← finish f.subj l, f.handle.cap)

def step (a : Alone P) : Event → Except Failure (Alone P × Output)
  | .match subj pat opts ctx =>
    a.open .match pat opts (fun msg => .match (.error msg) none) fun a h =>
      let (rc, cap) := h.run subj (startOf ctx)
      .ok (a, matchResult h subj ctx rc cap)
  | .find subj pat opts ctx group_id =>
    a.open .match pat opts (fun msg => .find (.error msg) none) fun a h =>
      let (rc, cap) := h.run subj (startOf ctx)
      .ok (a, findResult h ctx group_id rc cap)
  | .gmatch subj pat opts =>
    a.open .match pat opts (fun msg => .gmatch (.error msg)) fun a h =>
      .ok ({ a with iterators := a.iterators ++ [{ subj, handle := h, offset := 0 }] }, .gmatch (.ok ()))
  | .next i => a.next i
  | .sub global subj pat replace opts =>
    a.open (.sub replace) pat opts (fun msg => .sub (.error msg)) fun a h => do
      let r ← subLoop h subj global replace.isFunc (subj.length + 2) { count := 0, offset := 0, cp_offset := 0, luabuf := [] }
      return settle h subj global a r
  | .returns piece => a.resume piece
  | .raises =>
    match a.frames with
    | [] => .ok (a, .idle)
    | _ :: frames => .ok ({ a with frames }, .raised "error in the callback")

end Alone

/-! ## Which calls may share a regex -/

def Event.wanted? : Event → Option Wanted
  | .match _ pat opts _ | .find _ pat opts _ _ | .gmatch _ pat opts =>
    match parse_opts opts with
    | .ok (options, flags) => some { purpose := .match, pat, options, flags }
    | .error _ => none
  | .sub _ _ pat replace opts =>
    match parse_opts opts with
    | .ok (options, flags) => some { purpose := .sub replace, pat, options, flags }
    | .error _ => none
  | .next _ | .returns _ | .raises => none

/-- A call may use a cached regex. -/
structure Shares (s : State P) (w : Wanted) (re : Entry P) : Prop where
  /-- Only for DFA mode there is room for two offsets. -/
  dfa : (s.buffers.getD re.captures []).length = 2 ↔ w.flags.dfa = true
  /-- PCRE finds the same with what `pcre_study` made for another call. -/
  study : P.search w.flags.dfa re.regex re.regex_sd = P.search w.flags.dfa re.regex w.sd
  /-- The empty template is not taken for a function. -/
  template : ∀ value, w.purpose = .sub (.template value) → re.replace ≠ none
  /-- No callback runs between whose match and whose end the offsets must be kept. -/
  free : ∀ f ∈ s.frames, f.handle.cap ≠ re.captures

def Careful (s : State P) (e : Event) : Prop :=
  ∀ w re, e.wanted? = some w → w.flags.compile_once = true → s.cache w.key = some re → Shares s w re

/-! ## Keys -/

theorem length_optionsBytes (k n : Nat) : (optionsBytes k n).length = k := by
  induction k generalizing n with
  | zero => rfl
  | succ k ih => rw [optionsBytes, length_cons, ih]

variable {m n p size : Nat}

theorem optionsBytes_inj {k : Nat} (hm : m < 256 ^ k) (hn : n < 256 ^ k) (h : optionsBytes k m = optionsBytes k n) :
    m = n := by
  induction k generalizing m n with
  | zero => omega
  | succ k ih =>
    rw [optionsBytes, optionsBytes, List.cons.injEq] at h
    obtain ⟨hbyte, hrest⟩ := h
    rw [Nat.pow_succ] at hm hn
    have hdiv := ih (Nat.div_lt_of_lt_mul (by omega)) (Nat.div_lt_of_lt_mul (by omega)) hrest
    have hmod : m % 256 = n % 256 := by
      have hnat := congrArg UInt8.toNat hbyte
      simpa using hnat
    omega

theorem options_inj {o o' : BitVec 64} (h : optionsBytes 8 o.toNat = optionsBytes 8 o'.toNat) : o = o' :=
  BitVec.eq_of_toNat_eq (optionsBytes_inj o.isLt o'.isLt h)

theorem decimal_inj (h : decimal m = decimal n) : m = n := by
  have hnumber := congrArg (fun text => Lua.tonumber (asText text)) h
  have hread : ∀ n : Nat, Lua.tonumber (asText (decimal n)) = some (n : Rat) := fun n =>
    Lib.Resp.tonumber_decimalInt (n : Int)
  simp only [hread, some.injEq] at hnumber
  exact_mod_cast hnumber

theorem colon_notMem_decimal (n : Nat) : (58 : UInt8) ∉ decimal n := by
  intro hmem
  obtain ⟨d, hd, hcolon⟩ := Lib.Resp.mem_decimal hmem
  have hnat := congrArg UInt8.toNat hcolon
  rw [Lib.Resp.digit, UInt8.toNat_ofNat'] at hnat
  have : (58 : UInt8).toNat = 58 := rfl
  omega

/-- What stands before the first colon. -/
theorem append_colon_inj {c : UInt8} {as bs xs ys : Bytes} (ha : c ∉ as) (hb : c ∉ bs) (h : as ++ c :: xs = bs ++ c :: ys) :
    as = bs ∧ xs = ys := by
  induction as generalizing bs with
  | nil =>
    cases bs with
    | nil => exact ⟨rfl, (List.cons.inj h).2⟩
    | cons b bs => exact absurd (List.cons.inj h).1 fun heq => hb (heq ▸ mem_cons_self)
  | cons a as ih =>
    cases bs with
    | nil => exact absurd (List.cons.inj h).1 fun heq => ha (heq ▸ mem_cons_self)
    | cons b bs =>
      obtain ⟨rfl, hrest⟩ := List.cons.inj h
      obtain ⟨rfl, hxs⟩ := ih (fun hmem => ha (mem_cons_of_mem a hmem)) (fun hmem => hb (mem_cons_of_mem a hmem)) hrest
      exact ⟨rfl, hxs⟩

/-- The replacement whose text is in a key. -/
def Purpose.tpl? : Purpose → Option Bytes
  | .match => none
  | .sub replace => some replace.tpl

/-- A key says which regex, with which options, for which functions and with which text of a template. -/
theorem key_inj {w w' : Wanted} (h : w.key = w'.key) :
    w.pat = w'.pat ∧ w.options = w'.options ∧ w.purpose.tpl? = w'.purpose.tpl? := by
  obtain ⟨purpose, pat, options, flags⟩ := w
  obtain ⟨purpose', pat', options', flags'⟩ := w'
  cases purpose with
  | «match» =>
    cases purpose' with
    | «match» =>
      obtain ⟨hpat, hoptions⟩ := append_inj' h (by rw [length_optionsBytes, length_optionsBytes])
      exact ⟨append_cancel_left hpat, options_inj hoptions, rfl⟩
    | sub replace => exact absurd (List.cons.inj h).1 (by decide)
  | sub replace =>
    cases purpose' with
    | «match» => exact absurd (List.cons.inj h).1 (by decide)
    | sub replace' =>
      obtain ⟨hfront, hoptions⟩ := append_inj' h (by rw [length_optionsBytes, length_optionsBytes])
      simp only [append_assoc, append_cancel_left_eq] at hfront
      obtain ⟨hlen, hrest⟩ := append_colon_inj (colon_notMem_decimal _) (colon_notMem_decimal _) hfront
      obtain ⟨hpat, htpl⟩ := append_inj' (show pat ++ replace.tpl = pat' ++ replace'.tpl from hrest) (decimal_inj hlen)
      exact ⟨hpat, options_inj hoptions, congrArg some htpl⟩

/-! ## What a call compiles -/

theorem compiled_ok {w : Wanted} {g : Handle P Unit} :
    w.compiled = .ok g ↔
      P.compile w.pat w.options = .ok g.regex ∧ w.purpose.ctpl = .ok g.ctpl ∧ g.sd = w.sd ∧
        g.captures = (if w.flags.dfa then 0 else P.captures g.regex) ∧ g.ovecsize = ovecsize w.flags g.captures ∧
        g.flags = w.flags := by
  rw [Wanted.compiled]
  cases hregex : P.compile w.pat w.options with
  | error msg => simp [bind, Except.bind]
  | ok regex =>
    cases hctpl : w.purpose.ctpl with
    | error msg => simp [bind, Except.bind]
    | ok ctpl =>
      obtain ⟨regex', sd, captures, size, ctpl', flags, ⟨⟩⟩ := g
      simp only [bind, Except.bind, pure, Except.pure, Except.ok.injEq, Handle.mk.injEq]
      constructor
      · rintro ⟨rfl, rfl, rfl, rfl, rfl, rfl, -⟩
        exact ⟨rfl, rfl, rfl, rfl, rfl, rfl⟩
      · rintro ⟨rfl, rfl, rfl, rfl, rfl, rfl⟩
        exact ⟨rfl, rfl, rfl, rfl, rfl, rfl, trivial⟩

/-- There is room for two offsets only in DFA mode. -/
theorem ovecsize_eq_two (flags : Flags) (captures : Nat) : ovecsize flags captures = 2 ↔ flags.dfa = true := by
  rw [ovecsize]
  cases flags.dfa with
  | true => simp
  | false =>
    rw [if_neg Bool.false_ne_true]
    refine ⟨fun h => by omega, fun h => absurd h Bool.false_ne_true⟩

def Purpose.isFunc : Purpose → Bool
  | .match => false
  | .sub replace => replace.isFunc

/-- The template in an entry is the call's own, unless the call has none. -/
theorem ctpl_of_tpl {p q : Purpose} {c : Option Template} (htpl : p.tpl? = q.tpl?) (hc : p.ctpl = .ok c)
    (hsome : ∀ value, q = .sub (.template value) → c ≠ none) : ∃ d, q.ctpl = .ok d ∧ (q.isFunc = true ∨ c = d) := by
  cases q with
  | «match» =>
    cases p with
    | «match» =>
      cases hc
      exact ⟨none, rfl, .inr rfl⟩
    | sub replace => cases htpl
  | sub replace =>
    cases replace with
    | func => exact ⟨none, rfl, .inl rfl⟩
    | template value =>
      cases p with
      | «match» => cases htpl
      | sub replace' =>
        cases replace' with
        | func =>
          cases hc
          exact absurd rfl (hsome value rfl)
        | template value' =>
          obtain rfl : value' = value := some.inj htpl
          exact ⟨c, hc, .inr rfl⟩

/-! ## The states with the cache and alone -/

/-- Both handles find and return the same. -/
structure Like (h : Handle P α) (g : Handle P β) : Prop where
  regex : h.regex = g.regex
  captures : h.captures = g.captures
  flags : h.flags = g.flags
  run : ∀ subj pos, h.run subj pos = g.run subj pos

/-- There is a buffer of that size, and it belongs to the calls of `sub` or to the others. -/
structure Placed (buffers : List (List Int)) (ofSub : Nat → Bool) (sub : Bool) (p size : Nat) : Prop where
  buffer : ∃ buffer, buffers[p]? = some buffer ∧ buffer.length = size
  ofSub : ofSub p = sub

structure EntryOk (buffers : List (List Int)) (ofSub : Nat → Bool) (key : Bytes) (re : Entry P) (w : Wanted)
    (g : Handle P Unit) : Prop where
  key : w.key = key
  compiled : w.compiled = .ok g
  regex : re.regex = g.regex
  ncaptures : re.ncaptures = g.captures
  replace : re.replace = g.ctpl
  placed : Placed buffers ofSub w.purpose.tpl?.isSome re.captures g.ovecsize

structure IteratorOk (buffers : List (List Int)) (ofSub : Nat → Bool) (it : Iterator P Nat) (jt : Iterator P Unit) : Prop where
  subj : it.subj = jt.subj
  offset : it.offset = jt.offset
  like : Like it.handle jt.handle
  placed : Placed buffers ofSub false it.handle.cap it.handle.ovecsize

/-- The first two offsets in a buffer. -/
def offsetsAt (buffers : List (List Int)) (p : Nat) : Int × Int := (capAt (buffers.getD p []) 0, capAt (buffers.getD p []) 1)

structure FrameOk (buffers : List (List Int)) (ofSub : Nat → Bool) (f : Frame P Nat) (g : Frame P (Int × Int)) : Prop where
  subj : f.subj = g.subj
  global : f.global = g.global
  progress : f.progress = g.progress
  like : Like f.handle g.handle
  placed : Placed buffers ofSub true f.handle.cap f.handle.ovecsize
  offsets : offsetsAt buffers f.handle.cap = g.handle.cap

/-- The calls that wait for their callbacks have buffers of their own. -/
structure Related (ofSub : Nat → Bool) (s : State P) (a : Alone P) : Prop where
  entries : ∀ key re, s.cache key = some re → ∃ w g, EntryOk s.buffers ofSub key re w g
  iterators : Forall₂ (IteratorOk s.buffers ofSub) s.iterators a.iterators
  frames : Forall₂ (FrameOk s.buffers ofSub) s.frames a.frames
  nodup : (s.frames.map fun f => f.handle.cap).Nodup

def Free (s : State P) (p : Nat) : Prop := ∀ f ∈ s.frames, f.handle.cap ≠ p

/-- A call has its regex. -/
structure Ready (ofSub : Nat → Bool) (s : State P) (a : Alone P) (sub func : Bool) (h : Handle P Nat) (g : Handle P Unit) :
    Prop where
  related : Related ofSub s a
  like : Like h g
  placed : Placed s.buffers ofSub sub h.cap h.ovecsize
  free : Free s h.cap
  ctpl : func = true ∨ h.ctpl = g.ctpl

variable {s : State P} {a : Alone P} {ofSub ofSub' : Nat → Bool} {buffers buffers' : List (List Int)} {h : Handle P Nat}
  {g : Handle P Unit} {w : Wanted} {sub func : Bool}

/-- Buffers keep their sizes and to whom they belong. -/
def Grows (buffers : List (List Int)) (ofSub : Nat → Bool) (buffers' : List (List Int)) (ofSub' : Nat → Bool) : Prop :=
  ∀ p buffer, buffers[p]? = some buffer → ofSub' p = ofSub p ∧ ∃ buffer', buffers'[p]? = some buffer' ∧ buffer'.length = buffer.length

theorem Placed.grow (h : Placed buffers ofSub sub p size) (hgrow : Grows buffers ofSub buffers' ofSub') :
    Placed buffers' ofSub' sub p size := by
  obtain ⟨⟨buffer, hbuffer, hsize⟩, hsub⟩ := h
  obtain ⟨hsame, buffer', hbuffer', hlen⟩ := hgrow p buffer hbuffer
  exact ⟨⟨buffer', hbuffer', hlen.trans hsize⟩, hsame.trans hsub⟩

theorem Placed.lt (h : Placed buffers ofSub sub p size) : p < buffers.length := by
  obtain ⟨⟨buffer, hbuffer, _⟩, _⟩ := h
  exact (List.getElem?_eq_some_iff.mp hbuffer).1

theorem Placed.getD (h : Placed buffers ofSub sub p size) : (buffers.getD p []).length = size := by
  obtain ⟨⟨buffer, hbuffer, hsize⟩, _⟩ := h
  rw [getD_eq_getElem?_getD, hbuffer]
  exact hsize

/-- What is related stays so when the offsets of the waiting calls are kept. -/
theorem Related.grow (h : Related ofSub s a) (hgrow : Grows s.buffers ofSub buffers' ofSub')
    (hkeep : ∀ f ∈ s.frames, buffers'[f.handle.cap]? = s.buffers[f.handle.cap]?) :
    Related ofSub' { s with buffers := buffers' } a where
  entries key re hre := by
    obtain ⟨w, g, hok⟩ := h.entries key re hre
    exact ⟨w, g, { hok with placed := hok.placed.grow hgrow }⟩
  iterators := h.iterators.imp fun it jt hok => { hok with placed := hok.placed.grow hgrow }
  frames := by
    have hframes := (forall₂_and_left s.frames a.frames).mpr ⟨fun _ hf => hf, h.frames⟩
    refine hframes.imp fun f g ⟨hf, hok⟩ => { hok with placed := hok.placed.grow hgrow, offsets := ?_ }
    rw [← hok.offsets, offsetsAt, offsetsAt, getD_eq_getElem?_getD, getD_eq_getElem?_getD, hkeep f hf]
  nodup := h.nodup

/-! ## Searching -/

theorem length_run (h : Handle P α) (subj : Bytes) (pos : Int) : (h.run subj pos).2.length = h.ovecsize :=
  (P.search h.flags.dfa h.regex h.sd subj pos h.ovecsize h.flags.no_utf8_check).2.2

/-- A search finds what the call finds alone, and only its own buffer changes. -/
theorem exec_spec (hready : Ready ofSub s a sub func h g) (subj : Bytes) (pos : Int) :
    ∃ s', s.exec h subj pos = .ok (s', g.run subj pos) ∧ Ready ofSub s' a sub func h g ∧
      offsetsAt s'.buffers h.cap = (capAt (g.run subj pos).2 0, capAt (g.run subj pos).2 1) := by
  have hsize := hready.placed.getD
  have hlt := hready.placed.lt
  have hrest : (s.buffers.getD h.cap []).drop h.ovecsize = [] := by rw [← hsize, drop_length]
  have hlen := length_run h subj pos
  have hbuffers : (s.buffers.set h.cap (h.run subj pos).2)[h.cap]? = some (h.run subj pos).2 := getElem?_set_self hlt
  have hgrow : Grows s.buffers ofSub (s.buffers.set h.cap (h.run subj pos).2) ofSub := by
    intro p buffer hbuffer
    refine ⟨rfl, ?_⟩
    by_cases hp : h.cap = p
    · subst hp
      rw [getD_eq_getElem?_getD, hbuffer] at hsize
      exact ⟨_, hbuffers, hlen.trans hsize.symm⟩
    · exact ⟨buffer, by rw [getElem?_set_ne hp, hbuffer], rfl⟩
  refine ⟨{ s with buffers := s.buffers.set h.cap (h.run subj pos).2 }, ?_, ⟨?_, hready.like, hready.placed.grow hgrow, hready.free,
    hready.ctpl⟩, ?_⟩
  · rw [State.exec, if_neg (Nat.not_lt.mpr (Nat.le_of_eq hsize.symm)), hrest, ← hready.like.run]
    simp only [append_nil]
  · exact hready.related.grow hgrow fun f hf => getElem?_set_ne (hready.free f hf).symm
  · rw [offsetsAt, getD_eq_getElem?_getD, hbuffers, hready.like.run]
    rfl

/-! ## Getting a regex -/

/-- A cached regex that a call may use is the one it compiles itself. -/
theorem hit_spec (hrel : Related ofSub s a) {re : Entry P} (hre : s.cache w.key = some re) (hshares : Shares s w re) :
    ∃ g, w.compiled = .ok g ∧ (s.buffers.getD re.captures []).length = g.ovecsize ∧
      Ready ofSub s a w.purpose.tpl?.isSome w.purpose.isFunc
        { regex := re.regex, sd := re.regex_sd, captures := re.ncaptures, ovecsize := ovecsize w.flags re.ncaptures,
          ctpl := re.replace, flags := w.flags, cap := re.captures } g := by
  obtain ⟨w₀, g₀, hok⟩ := hrel.entries w.key re hre
  obtain ⟨hpat, hoptions, htpl⟩ := key_inj hok.key
  obtain ⟨hregex₀, hctpl₀, -, hcaptures₀, hsize₀, -⟩ := compiled_ok.mp hok.compiled
  rw [hpat, hoptions] at hregex₀
  rw [← hok.replace] at hctpl₀
  obtain ⟨ctpl, hctpl, hsame⟩ := ctpl_of_tpl htpl hctpl₀ hshares.template
  have hdfa : w₀.flags.dfa = w.flags.dfa := by
    have hiff := hshares.dfa
    rw [hok.placed.getD, hsize₀, ovecsize_eq_two] at hiff
    exact Bool.eq_iff_iff.mpr hiff
  have hsize : ovecsize w.flags re.ncaptures = g₀.ovecsize := by rw [hsize₀, ovecsize, ovecsize, hdfa, hok.ncaptures]
  refine ⟨{ regex := re.regex, sd := w.sd, captures := re.ncaptures, ovecsize := ovecsize w.flags re.ncaptures, ctpl,
            flags := w.flags, cap := () }, compiled_ok.mpr ⟨hok.regex ▸ hregex₀, hctpl, rfl, ?_, rfl, rfl⟩, ?_,
    hrel, ⟨rfl, rfl, rfl, ?_⟩, ?_, hshares.free, hsame⟩
  · rw [← hdfa, hok.ncaptures, hok.regex]
    exact hcaptures₀
  · exact hok.placed.getD.trans hsize.symm
  · intro subj pos
    rw [Handle.run, Handle.run, hshares.study]
  · rw [hsize, ← htpl]
    exact hok.placed

theorem Related.frame_placed (hrel : Related ofSub s a) :
    ∀ f ∈ s.frames, Placed s.buffers ofSub true f.handle.cap f.handle.ovecsize :=
  ((forall₂_and_left (p := fun f => Placed s.buffers ofSub true f.handle.cap f.handle.ovecsize)
    (R := fun _ _ => True) s.frames a.frames).mp (hrel.frames.imp fun _ _ hok => ⟨hok.placed, trivial⟩)).1

/-- A new buffer is nobody's. -/
theorem Related.alloc (hrel : Related ofSub s a) (sub : Bool) (size : Nat) :
    Related (update ofSub s.buffers.length sub) { s with buffers := s.buffers ++ [replicate size 0] } a ∧
      Placed (s.buffers ++ [replicate size 0]) (update ofSub s.buffers.length sub) sub s.buffers.length size ∧
      Free s s.buffers.length := by
  have hold : ∀ p < s.buffers.length, (s.buffers ++ [replicate size 0])[p]? = s.buffers[p]? := fun _ hp =>
    getElem?_append_left hp
  refine ⟨hrel.grow (fun p buffer hbuffer => ?_) fun f hf => hold _ (hrel.frame_placed f hf).lt,
    ⟨⟨_, getElem?_concat_length, length_replicate⟩, update_self _ _ _⟩,
    fun f hf => Nat.ne_of_lt (hrel.frame_placed f hf).lt⟩
  have hp := (List.getElem?_eq_some_iff.mp hbuffer).1
  exact ⟨update_of_ne (Nat.ne_of_lt hp) _ _, buffer, (hold p hp).trans hbuffer, rfl⟩

/-- A call gets the regex that it would compile itself, or the error. -/
theorem prepare_spec (hrel : Related ofSub s a) (max_entries : Nat)
    (hshares : ∀ re, w.flags.compile_once = true → s.cache w.key = some re → Shares s w re) :
    (∃ msg s', w.compiled (P := P) = .error msg ∧ s.prepare max_entries w = (s', .error msg) ∧ Related ofSub s' a) ∨
      ∃ g h s' ofSub', w.compiled = .ok g ∧ s.prepare max_entries w = (s', .ok h) ∧
        Ready ofSub' s' a w.purpose.tpl?.isSome w.purpose.isFunc h g := by
  rw [State.prepare]
  cases hhit : (if w.flags.compile_once then s.cache w.key else none) with
  | some re =>
    obtain ⟨honce, hre⟩ : w.flags.compile_once = true ∧ s.cache w.key = some re := by
      split at hhit
      · next honce => exact ⟨honce, hhit⟩
      · cases hhit
    obtain ⟨g, hg, -, hready⟩ := hit_spec hrel hre (hshares re honce hre)
    exact .inr ⟨g, _, s, ofSub, hg, rfl, hready⟩
  | none =>
    simp only
    generalize hs₁ : (if (w.flags.compile_once && decide (s.regex_cache_entries = max_entries)) = true then
      { s with regex_cache_entries := s.regex_cache_entries + 1 } else s) = s₁
    have hrel₁ : Related ofSub s₁ a := by
      rw [← hs₁]
      split
      · exact ⟨hrel.entries, hrel.iterators, hrel.frames, hrel.nodup⟩
      · exact hrel
    cases hg : w.compiled (P := P) with
    | error msg => exact .inl ⟨msg, s₁, rfl, rfl, hrel₁⟩
    | ok g =>
      obtain ⟨hrel₂, hplaced, hfree⟩ := hrel₁.alloc w.purpose.tpl?.isSome g.ovecsize
      have hready : Ready (update ofSub s₁.buffers.length w.purpose.tpl?.isSome)
          { s₁ with buffers := s₁.buffers ++ [replicate g.ovecsize 0] } a w.purpose.tpl?.isSome w.purpose.isFunc
          (g.at s₁.buffers.length) g :=
        ⟨hrel₂, ⟨rfl, rfl, rfl, fun _ _ => rfl⟩, hplaced, hfree, .inr rfl⟩
      refine .inr ⟨g, g.at s₁.buffers.length, _, update ofSub s₁.buffers.length w.purpose.tpl?.isSome, rfl, rfl, ?_⟩
      split
      · -- the entry is what the call has compiled
        refine { hready with related := { hrel₂ with entries := fun key re hre => ?_ } }
        dsimp only at hre
        by_cases hkey : key = w.key
        · rw [hkey, update_self] at hre
          cases hre
          exact ⟨w, g, hkey.symm, hg, rfl, rfl, rfl, hplaced⟩
        · rw [update_of_ne hkey] at hre
          exact hrel₂.entries key re hre
      · exact hready

/-! ## What is made of a search -/

theorem collect_eq {h : Handle P α} {g : Handle P β} (hlike : Like h g) (subj : Bytes) (rc : Nat) (cap : List Int) :
    h.collect subj rc cap = g.collect subj rc cap := by
  simp only [Handle.collect, hlike.regex, hlike.captures, hlike.flags]

theorem matchResult_eq {h : Handle P α} {g : Handle P β} (hlike : Like h g) (subj : Bytes) (ctx : Option (Option Int))
    (rc : Int) (cap : List Int) : matchResult h subj ctx rc cap = matchResult g subj ctx rc cap := by
  simp only [matchResult, hlike.flags, collect_eq hlike]

theorem findResult_eq {h : Handle P α} {g : Handle P β} (hlike : Like h g) (ctx : Option (Option Int)) (group_id : Nat)
    (rc : Int) (cap : List Int) : findResult h ctx group_id rc cap = findResult g ctx group_id rc cap := by
  simp only [findResult, hlike.flags, hlike.captures]

theorem nextResult_eq {h : Handle P α} {g : Handle P β} (hlike : Like h g) (subj : Bytes) (rc : Int) (cap : List Int) :
    nextResult h subj rc cap = nextResult g subj rc cap := by
  simp only [nextResult, hlike.flags, collect_eq hlike]

theorem afterExec_eq {h : Handle P α} {g : Handle P β} (hlike : Like h g) (hctpl : func = true ∨ h.ctpl = g.ctpl)
    (subj : Bytes) (global : Bool) (l : Progress) (rc : Int) (cap : List Int) :
    afterExec h subj global func l rc cap = afterExec g subj global func l rc cap := by
  simp only [afterExec, hlike.flags, collect_eq hlike]
  rcases hctpl with rfl | hctpl
  · rfl
  · rw [hctpl]

/-! ## The loop of `sub` -/

/-- The loop gets to the same, and its offsets are in the buffer. -/
def Arrived (ofSub : Nat → Bool) (a : Alone P) (func : Bool) (h : Handle P Nat) (g : Handle P Unit)
    (p : State P × Outcome) (q : Outcome × Int × Int) : Prop :=
  p.2 = q.1 ∧ Ready ofSub p.1 a true func h g ∧ offsetsAt p.1.buffers h.cap = q.2

theorem subLoop_spec (subj : Bytes) (global : Bool) (fuel : Nat) (l : Progress) (hready : Ready ofSub s a true func h g) :
    Both (Arrived ofSub a func h g) (State.subLoop h subj global func fuel s l) (Alone.subLoop g subj global func fuel l) := by
  induction fuel generalizing s l with
  | zero => exact .error Failure.endless
  | succ fuel ih =>
    obtain ⟨s', hexec, hready', hoffsets⟩ := exec_spec hready subj l.offset
    simp only [State.subLoop, Alone.subLoop, hexec, afterExec_eq hready.like hready.ctpl]
    refine (Both.refl (afterExec g subj global func l _ _)).bind fun r _ hr => ?_
    subst hr
    cases r with
    | inl l => exact ih l hready'
    | inr r => exact .ok ⟨rfl, hready', hoffsets⟩

/-- A call returns, or it waits for its callback with the offsets in its buffer. -/
theorem settle_spec (subj : Bytes) (global : Bool) {p : State P × Outcome} {q : Outcome × Int × Int}
    (harrived : Arrived ofSub a func h g p q) :
    Same (Related ofSub) (State.settle h subj global p) (Alone.settle g subj global a q) := by
  obtain ⟨s', r⟩ := p
  obtain ⟨r', cap⟩ := q
  obtain ⟨rfl, hready, hoffsets⟩ := harrived
  cases r with
  | finished r => exact ⟨hready.related, rfl⟩
  | calls progress captures =>
    have hframe : FrameOk s'.buffers ofSub { subj, handle := h, global, progress } { subj, handle := g.at cap, global, progress } :=
      ⟨rfl, rfl, rfl, ⟨hready.like.regex, hready.like.captures, hready.like.flags, hready.like.run⟩, hready.placed, hoffsets⟩
    refine ⟨{ hready.related with frames := .cons hframe hready.related.frames, nodup := ?_ }, rfl⟩
    refine nodup_cons.mpr ⟨fun hmem => ?_, hready.related.nodup⟩
    obtain ⟨f, hf, hcap⟩ := mem_map.mp hmem
    exact hready.free f hf hcap

/-! ## The calls -/

theorem open_spec (hrel : Related ofSub s a) (max_entries : Nat) (purpose : Purpose) (pat opts : Bytes)
    (failed : String → Output) {go : State P → Handle P Nat → Except Failure (State P × Output)}
    {go' : Alone P → Handle P Unit → Except Failure (Alone P × Output)}
    (hshares : ∀ options flags re, parse_opts opts = .ok (options, flags) → flags.compile_once = true →
      s.cache (Wanted.key { purpose, pat, options, flags }) = some re → Shares s { purpose, pat, options, flags } re)
    (hgo : ∀ ofSub' s' h g, Ready ofSub' s' a purpose.tpl?.isSome purpose.isFunc h g →
      Both (Same fun s a => ∃ ofSub, Related ofSub s a) (go s' h) (go' a g)) :
    Both (Same fun s a => ∃ ofSub, Related ofSub s a) (s.open max_entries purpose pat opts failed go)
      (a.open purpose pat opts failed go') := by
  rw [State.open, Alone.open]
  cases hopts : parse_opts opts with
  | error msg => exact .ok ⟨⟨ofSub, hrel⟩, rfl⟩
  | ok r =>
    obtain ⟨options, flags⟩ := r
    rcases prepare_spec hrel max_entries (w := { purpose, pat, options, flags })
        (fun re honce hre => hshares options flags re hopts honce hre) with
      ⟨msg, s', hcompiled, hprepare, hrel'⟩ | ⟨g, h, s', ofSub', hcompiled, hprepare, hready⟩
    · simp only [hcompiled, hprepare]
      exact .ok ⟨⟨ofSub, hrel'⟩, rfl⟩
    · simp only [hcompiled, hprepare]
      exact hgo ofSub' s' h g hready

theorem forall₂_set {R : α → β → Prop} {as : List α} {bs : List β} {x : α} {y : β} (h : Forall₂ R as bs) (hxy : R x y)
    (i : Nat) : Forall₂ R (as.set i x) (bs.set i y) := by
  induction h generalizing i with
  | nil => exact .nil
  | cons hab hrest ih =>
    cases i with
    | zero => exact .cons hxy hrest
    | succ i => exact .cons hab (ih i)

theorem next_spec (hrel : Related ofSub s a) (i : Nat) :
    Both (Same fun s a => ∃ ofSub, Related ofSub s a) (s.ngx_re_gmatch_iterator i) (a.next i) := by
  have hlen := hrel.iterators.length_eq
  rw [State.ngx_re_gmatch_iterator, Alone.next]
  by_cases hi : i < s.iterators.length
  · have hi' : i < a.iterators.length := hlen ▸ hi
    have hok : IteratorOk s.buffers ofSub s.iterators[i] a.iterators[i] := hrel.iterators.get hi hi'
    rw [getElem?_eq_getElem hi, getElem?_eq_getElem hi']
    generalize s.iterators[i] = it at hok ⊢
    generalize a.iterators[i] = jt at hok ⊢
    simp only [← hok.offset, ← hok.subj]
    split
    · exact .ok ⟨⟨ofSub, hrel⟩, rfl⟩
    · have hfree : Free s it.handle.cap := fun f hf heq =>
        absurd ((hrel.frame_placed f hf).ofSub.symm.trans (heq ▸ hok.placed.ofSub)) (by decide)
      obtain ⟨s', hexec, hready', -⟩ := exec_spec (⟨hrel, hok.like, hok.placed, hfree, .inl rfl⟩ : Ready ofSub s a false true _ _)
        it.subj it.offset
      rw [hexec]
      refine .ok ⟨⟨ofSub, { hready'.related with iterators := forall₂_set hready'.related.iterators ?_ i }⟩, ?_⟩
      · exact ⟨rfl, by rw [nextResult_eq hok.like], hok.like, hready'.placed⟩
      · exact congrArg Prod.fst (nextResult_eq hok.like _ _ _)
  · rw [getElem?_eq_none (Nat.not_lt.mp hi), getElem?_eq_none (hlen ▸ Nat.not_lt.mp hi)]
    exact .ok ⟨⟨ofSub, hrel⟩, rfl⟩

theorem resume_spec (hrel : Related ofSub s a) (piece : Bytes) :
    Both (Same fun s a => ∃ ofSub, Related ofSub s a) (s.resume piece) (a.resume piece) := by
  rw [State.resume, Alone.resume]
  have hframes := hrel.frames
  cases hs : s.frames with
  | nil =>
    rw [hs, forall₂_nil_left_iff] at hframes
    rw [hframes]
    exact .ok ⟨⟨ofSub, hrel⟩, rfl⟩
  | cons f frames =>
    rw [hs] at hframes
    obtain ⟨f', frames', hok, hrest, ha⟩ := forall₂_cons_left_iff.mp hframes
    have hnodup := hrel.nodup
    rw [hs, map_cons, nodup_cons] at hnodup
    -- the other calls that wait have other buffers
    have hready : Ready ofSub { s with frames } { a with frames := frames' } true true f.handle { f'.handle with cap := () } :=
      { related := { hrel with frames := hrest, nodup := hnodup.2 }
        like := ⟨hok.like.regex, hok.like.captures, hok.like.flags, hok.like.run⟩
        placed := hok.placed
        free := fun g hg heq => hnodup.1 (mem_map.mpr ⟨g, hg, heq⟩)
        ctpl := .inl rfl }
    rw [ha]
    simp only [← hok.subj, ← hok.global, ← hok.progress, ← hok.offsets]
    refine (Both.refl (append f.subj f.global f.progress (offsetsAt s.buffers f.handle.cap) piece)).bind fun r _ hr => ?_
    subst hr
    cases r with
    | inl l =>
      refine (subLoop_spec f.subj f.global _ l hready).bind fun p q hpq => ?_
      have hsame := settle_spec f.subj f.global hpq
      exact .ok ⟨⟨ofSub, hsame.1⟩, hsame.2⟩
    | inr l =>
      refine (Both.refl (finish f.subj l)).bind fun r _ hr => ?_
      subst hr
      have hsame := settle_spec f.subj f.global (p := (_, r)) (q := (r, offsetsAt s.buffers f.handle.cap)) ⟨rfl, hready, rfl⟩
      exact .ok ⟨⟨ofSub, hsame.1⟩, hsame.2⟩

/-- A careful step with the cache does what the call does alone. -/
theorem step_spec (max_entries : Nat) (s : State P) (a : Alone P) (e : Event) (hrel : ∃ ofSub, Related ofSub s a)
    (hcareful : Careful s e) : Both (Same fun s a => ∃ ofSub, Related ofSub s a) (s.step max_entries e) (a.step e) := by
  obtain ⟨ofSub, hrel⟩ := hrel
  have hwanted : ∀ purpose pat opts, (∀ options flags, parse_opts opts = .ok (options, flags) →
      e.wanted? = some { purpose, pat, options, flags }) → ∀ options flags re, parse_opts opts = .ok (options, flags) →
      flags.compile_once = true → s.cache (Wanted.key { purpose, pat, options, flags }) = some re →
      Shares s { purpose, pat, options, flags } re :=
    fun purpose pat opts he options flags re hopts honce hre => hcareful _ re (he options flags hopts) honce hre
  cases e with
  | «match» subj pat opts ctx =>
    rw [State.step, Alone.step, State.ngx_re_match]
    refine open_spec hrel max_entries .match pat opts _ (hwanted _ _ _ fun _ _ h => by simp only [Event.wanted?, h])
      fun ofSub' s' h g hready => ?_
    obtain ⟨s'', hexec, hready', -⟩ := exec_spec hready subj (startOf ctx)
    rw [hexec]
    exact .ok ⟨⟨ofSub', hready'.related⟩, matchResult_eq hready.like _ _ _ _⟩
  | find subj pat opts ctx group_id =>
    rw [State.step, Alone.step, State.ngx_re_find]
    refine open_spec hrel max_entries .match pat opts _ (hwanted _ _ _ fun _ _ h => by simp only [Event.wanted?, h])
      fun ofSub' s' h g hready => ?_
    obtain ⟨s'', hexec, hready', -⟩ := exec_spec hready subj (startOf ctx)
    rw [hexec]
    exact .ok ⟨⟨ofSub', hready'.related⟩, findResult_eq hready.like _ _ _ _⟩
  | gmatch subj pat opts =>
    rw [State.step, Alone.step, State.ngx_re_gmatch]
    refine open_spec hrel max_entries .match pat opts _ (hwanted _ _ _ fun _ _ h => by simp only [Event.wanted?, h])
      fun ofSub' s' h g hready => ?_
    have hiterator : IteratorOk s'.buffers ofSub' { subj, handle := h, offset := 0 } { subj, handle := g, offset := 0 } :=
      ⟨rfl, rfl, hready.like, hready.placed⟩
    exact .ok ⟨⟨ofSub', { hready.related with
      iterators := rel_append hready.related.iterators (.cons hiterator .nil) }⟩, rfl⟩
  | next i => exact next_spec hrel i
  | sub global subj pat replace opts =>
    rw [State.step, Alone.step, State.ngx_re_sub]
    refine open_spec hrel max_entries (.sub replace) pat opts _ (hwanted _ _ _ fun _ _ h => by simp only [Event.wanted?, h])
      fun ofSub' s' h g hready => ?_
    refine (subLoop_spec subj global _ _ hready).bind fun p q hpq => ?_
    have hsame := settle_spec subj global hpq
    exact .ok ⟨⟨ofSub', hsame.1⟩, hsame.2⟩
  | returns piece => exact resume_spec hrel piece
  | raises =>
    have hframes := hrel.frames
    rw [State.step, Alone.step]
    cases hs : s.frames with
    | nil =>
      rw [hs, forall₂_nil_left_iff] at hframes
      rw [hframes]
      exact .ok ⟨⟨ofSub, hrel⟩, rfl⟩
    | cons f frames =>
      have hnodup := hrel.nodup
      rw [hs] at hframes hnodup
      obtain ⟨f', frames', -, hrest, ha⟩ := forall₂_cons_left_iff.mp hframes
      rw [ha]
      exact .ok ⟨⟨ofSub, { hrel with frames := hrest, nodup := (nodup_cons.mp hnodup).2 }⟩, rfl⟩

/-! ## Runs -/

/-- A cached regex is the one that the call compiles itself, with as many captures, a buffer
of the size that it takes, and its template. -/
def Own (s : State P) (w : Wanted) (re : Entry P) : Prop :=
  ∃ g : Handle P Unit, w.compiled = .ok g ∧ re.regex = g.regex ∧ re.ncaptures = g.captures ∧
    (s.buffers.getD re.captures []).length = g.ovecsize ∧ (w.purpose.isFunc = true ∨ re.replace = g.ctpl)

/-- The call uses a cached regex only if it is its own. -/
def Right (s : State P) (e : Event) : Prop :=
  ∀ w re, e.wanted? = some w → w.flags.compile_once = true → s.cache w.key = some re → Own s w re

theorem right_of_careful (hrel : ∃ ofSub, Related ofSub s a) {e : Event} (hcareful : Careful s e) : Right s e := by
  intro w re hw honce hre
  obtain ⟨ofSub, hrel⟩ := hrel
  obtain ⟨g, hg, hsize, hready⟩ := hit_spec hrel hre (hcareful w re hw honce hre)
  exact ⟨g, hg, hready.like.regex, hready.like.captures, hsize, hready.ctpl⟩

def Alone.initial (P : Pcre) : Alone P := { iterators := [], frames := [] }

theorem related_initial (P : Pcre) : ∃ ofSub, Related ofSub (State.initial P) (Alone.initial P) :=
  ⟨fun _ => false, fun _ _ hre => absurd hre (some_ne_none _).symm, .nil, .nil, .nil⟩

/-- With the cache emptied before each call, every run does what the calls do alone. -/
theorem stepEmpty_spec (max_entries : Nat) (s : State P) (a : Alone P) (e : Event) (hrel : ∃ ofSub, Related ofSub s a) :
    Both (Same fun s a => ∃ ofSub, Related ofSub s a) (s.stepEmpty max_entries e) (a.step e) := by
  obtain ⟨ofSub, hrel⟩ := hrel
  have hempty : ∀ key re, s.emptied.cache key ≠ some re := fun _ _ h => (some_ne_none _) h.symm
  refine step_spec max_entries s.emptied a e ⟨ofSub, ?_, hrel.iterators, hrel.frames, hrel.nodup⟩ ?_
  · exact fun key re hre => absurd hre (hempty key re)
  · exact fun w re _ _ hre => absurd hre (hempty w.key re)

/-- The values that Lua gets in a run from an empty cache. -/
def results (P : Pcre) (max_entries : Nat) (es : List Event) : List (Except Failure Output) :=
  outputs (State.step max_entries) (State.initial P) es

def resultsEmpty (P : Pcre) (max_entries : Nat) (es : List Event) : List (Except Failure Output) :=
  outputs (State.stepEmpty max_entries) (State.initial P) es

/-- **In every run of careful calls, each call returns what it returns with an empty cache, and
shares a compiled regex only if it is its own.** -/
theorem cached_eq_empty (P : Pcre) (max_entries : Nat) (es : List Event)
    (h : Guarded (State.step max_entries) Careful (State.initial P) es) :
    results P max_entries es = resultsEmpty P max_entries es ∧
      Guarded (State.step max_entries) Right (State.initial P) es := by
  have hcached := outputs_eq (step_spec max_entries) (related_initial P) h
  have hall : Guarded (State.stepEmpty max_entries) (fun _ _ => True) (State.initial P) es :=
    guarded_of_forall fun _ _ => trivial
  have hempty : resultsEmpty P max_entries es = outputs Alone.step (Alone.initial P) es :=
    outputs_eq (fun s a e hrel _ => stepEmpty_spec max_entries s a e hrel) (related_initial P) hall
  exact ⟨hcached.trans hempty.symm, h.good (step_spec max_entries) (fun _ _ _ hrel => right_of_careful hrel) (related_initial P)⟩

/-- One regex with one group, which matches the subject `a`. -/
def oneGroup : Pcre where
  Regex := Unit
  compile _ _ := .ok ()
  captures _ := 1
  name_table _ := []
  exec _ _ _ _ size _ :=
    if h : size = 6 then (2, ⟨[0, 1, 0, 1, 0, 0], h.symm⟩) else (0, ⟨replicate size 0, length_replicate⟩)
  dfa_exec _ _ _ _ size _ :=
    if h : size = 2 then (1, ⟨[0, 1], h.symm⟩) else (0, ⟨replicate size 0, length_replicate⟩)

/-- `ngx.re.match("a", "(a)", opts)` -/
def matchGroup (opts : List Char) : Event := .match [97] [40, 97, 41] (ascii opts) none

/-- The number of captures in the table that a call returns. -/
def Output.groups : Except Failure Output → Nat
  | .ok (.match (.ok (some captures)) _) => captures.groups.length
  | _ => 0

/-- With DFA mode the call returns one capture, and two when the regex was cached without it. -/
theorem dfa_shares_captures :
    ¬ ∀ (P : Pcre) (max_entries : Nat) (es : List Event), results P max_entries es = resultsEmpty P max_entries es := by
  intro hsame
  have hgroups := congrArg (map Output.groups) (hsame oneGroup 1024 [matchGroup ['o'], matchGroup ['d', 'o']])
  have hcached : (results oneGroup 1024 [matchGroup ['o'], matchGroup ['d', 'o']]).map Output.groups = [2, 2] := by rfl
  have hempty : (resultsEmpty oneGroup 1024 [matchGroup ['o'], matchGroup ['d', 'o']]).map Output.groups = [2, 1] := by rfl
  rw [hcached, hempty] at hgroups
  exact absurd hgroups (by decide)

/-- The empty template is looked up under the key of a function, and there is none. -/
example : (results oneGroup 1024
    [.sub false [97] [40, 97, 41] .func (ascii ['o']), .returns [98],
      .sub false [97] [40, 97, 41] (.template []) (ascii ['o'])]).getLast? = some (.error .wild) := rfl

def onceWanted : Wanted := { purpose := .match, pat := [40, 97, 41], options := 0, flags := { compile_once := true } }

def onceEntry : Entry oneGroup :=
  { regex := (), regex_sd := { jit := false, jit_stack := false }, ncaptures := 1, captures := 0, replace := none }

/-- The state after a call with the option `o`. -/
def onceState : State oneGroup where
  cache := update (fun _ => none) onceWanted.key (some onceEntry)
  regex_cache_entries := 1
  buffers := [[0, 1, 0, 1, 0, 0]]
  iterators := []
  frames := []

/-- Two calls with the same options share the regex. -/
theorem once_twice : results oneGroup 1024 [matchGroup ['o'], matchGroup ['o']] =
      resultsEmpty oneGroup 1024 [matchGroup ['o'], matchGroup ['o']] ∧
    Guarded (State.step 1024) Right (State.initial oneGroup) [matchGroup ['o'], matchGroup ['o']] := by
  have hempty : ∀ key re, (State.initial oneGroup).cache key ≠ some re := fun _ _ h => (some_ne_none _) h.symm
  refine cached_eq_empty oneGroup 1024 _
    ⟨fun w re _ _ hre => absurd hre (hempty w.key re), fun s o hstep => ⟨?_, fun _ _ _ => trivial⟩⟩
  have hfirst : State.step 1024 (State.initial oneGroup) (matchGroup ['o']) =
      .ok (onceState, .match (.ok (some { groups := [some [97], some [97]], named := [] })) none) := rfl
  rw [hfirst] at hstep
  obtain rfl : onceState = s := congrArg Prod.fst (Except.ok.inj hstep)
  intro w re hw _ hre
  obtain rfl : onceWanted = w := some.inj hw
  have hentry : onceState.cache onceWanted.key = some onceEntry := by simp [onceState]
  obtain rfl : onceEntry = re := some.inj (hentry.symm.trans hre)
  exact ⟨by decide, rfl, nofun, fun _ h => (not_mem_nil h).elim⟩

end OpenResty.NgxLua.RegexCache
