/-
Replacement templates as texts, dollar signs and groups, and what the programs
that they are compiled to write for a match.

The number of a group wraps around in a machine word, and so does its double: from
2^63 on a number names the group of its remainder.
-/
import OpenResty.NgxLua.Script

namespace OpenResty.NgxLua.Script

open Lib Lib.Layout List Nat
open Lib.Resp (LuaString)

/-! ## Templates -/

/-- A part of a template; a group has its number in brackets or not. -/
inductive Piece
  | text (t : Bytes)
  | dollar
  | group (bracket : Bool) (digits : Bytes)

def Piece.source : Piece → Bytes
  | .text t => t
  | .dollar => [36, 36]
  | .group false digits => 36 :: digits
  | .group true digits => 36 :: 123 :: (digits ++ [125])

def Piece.Valid : Piece → Prop
  | .text t => t ≠ [] ∧ 36 ∉ t
  | .dollar => True
  | .group _ digits => digits ≠ [] ∧ ∀ c ∈ digits, isDigit c = true

/-- Where a part ends: a text before a dollar sign, and a number without brackets before another byte than a digit. -/
def Piece.Stops : Piece → Bytes → Prop
  | .text _, rest => ∀ c ∈ rest.head?, c = 36
  | .group false _, rest => ∀ c ∈ rest.head?, isDigit c = false
  | _, _ => True

/-- The parts of a template -/
inductive Reading : List Piece → Bytes → Prop
  | nil : Reading [] []
  | cons {p : Piece} {ps : List Piece} {rest : Bytes} (hvalid : p.Valid) (hstops : p.Stops rest)
      (h : Reading ps rest) :
    Reading (p :: ps) (p.source ++ rest)

/-- The number that decimal digits stand for -/
def number (digits : Bytes) : Nat := digits.foldl (fun n ch => n * 10 + (ch.toNat - 48)) 0

/-- What replaces a part -/
def Piece.expand {subj : LuaString} (m : Match subj) : Piece → Bytes
  | .text t => t
  | .dollar => [36]
  | .group _ digits => m.group (number digits)

/-! ## The scanner takes a part at a time -/

/-- The instruction for a part -/
def Piece.code : Piece → Code
  | .text t => .copy t
  | .dollar => .copy [36]
  | .group _ digits => .capture (number digits % 2 ^ 63)

def Piece.emit (A : Addresses) (sc : Compile) : Piece → Compile
  | .text t => add_copy_code A sc t
  | .dollar => add_copy_code A sc [36]
  | .group _ digits => add_capture_code A sc (number digits % 2 ^ 64)

variable {A : Addresses} {sc sc' : Compile} {source digits rest s : Bytes} {c : UInt8} {p p' : Piece}
  {ps : List Piece}
  {bracket : Bool} {n len : Nat}

theorem Compile.Holds.emit {cs : List Code} (h : sc.Holds A cs) (p : Piece) :
    (p.emit A sc).Holds A (cs ++ [p.code]) := by
  cases p with
  | text t => exact h.copy t
  | dollar => exact h.copy [36]
  | group bracket digits =>
    have hmod : number digits % 2 ^ 64 % 2 ^ 63 = number digits % 2 ^ 63 :=
      mod_mod_of_dvd _ (by decide)
    have hcapture := h.capture (number digits % 2 ^ 64)
    rw [hmod] at hcapture
    exact hcapture

theorem isDigit_ne (h : isDigit c = true) : c ≠ 125 ∧ c ≠ 123 ∧ c ≠ 36 := by
  refine ⟨?_, ?_, ?_⟩ <;> rintro rfl <;> cases h

/-- Digits are read into a machine word. -/
theorem nameLoop_digits (h : ∀ c ∈ digits, isDigit c = true) :
    nameLoop true (digits ++ rest) bracket (n % 2 ^ 64) len =
      nameLoop true rest bracket (digits.foldl (fun n ch => n * 10 + (ch.toNat - 48)) n % 2 ^ 64)
        (len + digits.length) := by
  induction digits generalizing n len with
  | nil => rfl
  | cons c digits ih =>
    obtain ⟨hc, h⟩ := forall_mem_cons.mp h
    have hword : (n % 2 ^ 64 * 10 + (c.toNat - 48)) % 2 ^ 64 = (n * 10 + (c.toNat - 48)) % 2 ^ 64 := by
      rw [add_mod, mod_mul_mod, ← add_mod]
    rw [cons_append, nameLoop, if_neg fun h125 => (isDigit_ne hc).1 h125.1, if_pos rfl, if_pos hc, hword, ih h,
      foldl_cons, length_cons, Nat.add_right_comm, Nat.add_assoc]

/-- Where a run of bytes ends is determined. -/
theorem takeWhile_stop {P : UInt8 → Bool} {a : Bytes} (ha : ∀ c ∈ a, P c = true)
    (hrest : ∀ c ∈ rest.head?, P c = false) :
    (a ++ rest).takeWhile P = a ∧ (a ++ rest).dropWhile P = rest := by
  have hnil : rest.takeWhile P = [] ∧ rest.dropWhile P = rest := by
    cases rest with
    | nil => exact ⟨rfl, rfl⟩
    | cons c rest =>
      have hc : ¬ P c = true := Bool.eq_false_iff.mp (hrest c rfl)
      rw [takeWhile_cons_of_neg hc, dropWhile_cons_of_neg hc]
      exact ⟨rfl, rfl⟩
  rw [takeWhile_append_of_pos ha, dropWhile_append_of_pos ha, hnil.1, hnil.2, append_nil]
  exact ⟨rfl, rfl⟩

/-- The bytes up to the first that is not as `P` says -/
theorem exists_stop (P : UInt8 → Bool) (s : Bytes) :
    ∃ a rest, s = a ++ rest ∧ (∀ c ∈ a, P c = true) ∧ ∀ c ∈ rest.head?, P c = false := by
  induction s with
  | nil => exact ⟨[], [], rfl, nofun, nofun⟩
  | cons c s ih =>
    cases hc : P c with
    | true =>
      obtain ⟨a, rest, rfl, ha, hrest⟩ := ih
      exact ⟨c :: a, rest, rfl, forall_mem_cons.mpr ⟨hc, ha⟩, hrest⟩
    | false =>
      refine ⟨[], c :: s, rfl, nofun, fun d hd => ?_⟩
      rw [← Option.some.inj hd]
      exact hc

/-- A name that starts with another byte than a digit is no number. -/
theorem variableCode_named {r : Compile × Bytes} : variableCode A source sc false bracket s ≠ .ok r := by
  intro h
  simp only [variableCode, Bool.false_eq_true, if_false] at h
  split_ifs at h

/-- The loop stops at a byte that is no digit. -/
theorem nameLoop_stop (hrest : ∀ c ∈ rest.head?, isDigit c = false) (hopen : bracket = true → rest.head? ≠ some 125) :
    nameLoop true rest bracket n len = ⟨rest, bracket, n, len⟩ := by
  cases rest with
  | nil => rfl
  | cons c rest =>
    have hc : ¬ isDigit c = true := Bool.eq_false_iff.mp (hrest c rfl)
    have hend : ¬ (c = 125 ∧ bracket = true) := fun h => hopen h.2 (by rw [h.1]; rfl)
    rw [nameLoop, if_neg hend, if_pos rfl, if_neg hc]

section

variable (hdigits : (Piece.group bracket digits).Valid)

include hdigits

theorem nameLoop_number (rest : Bytes) :
    nameLoop true (digits ++ rest) bracket 0 0 = nameLoop true rest bracket
      (number digits % 2 ^ 64) digits.length := by
  have hloop : nameLoop true (digits ++ rest) bracket (0 % 2 ^ 64) 0 = _ := nameLoop_digits hdigits.2
  rwa [zero_mod, Nat.zero_add] at hloop

theorem length_digits : digits.length ≠ 0 := mt length_eq_zero_iff.mp hdigits.1

end

theorem variableCode_open (h : (Piece.group false digits).Valid) (hrest : ∀ c ∈ rest.head?, isDigit c = false) :
    variableCode A source sc true false (digits ++ rest) = .ok ((Piece.group false digits).emit A sc, rest) := by
  have hloop := nameLoop_number h rest
  rw [nameLoop_stop hrest (by nofun)] at hloop
  rw [variableCode, hloop]
  exact if_neg (length_digits h)

theorem variableCode_bracket (h : (Piece.group true digits).Valid) :
    variableCode A source sc true true (digits ++ 125 :: rest) = .ok ((Piece.group true digits).emit A sc, rest) := by
  rw [variableCode, nameLoop_number h _, nameLoop]
  exact if_neg (length_digits h)

theorem variableCode_unclosed (h : (Piece.group true digits).Valid) (hrest : ∀ c ∈ rest.head?, isDigit c = false)
    (hopen : rest.head? ≠ some 125) {r : Compile × Bytes} :
    variableCode A source sc true true (digits ++ rest) ≠ .ok r := by
  intro hok
  rw [variableCode, nameLoop_number h _, nameLoop_stop hrest fun _ => hopen] at hok
  cases hok

/-- A run of digits that starts with one -/
theorem exists_digits (h : isDigit c = true) (s : Bytes) :
    ∃ digits rest, c :: s = digits ++ rest ∧ (∀ bracket, (Piece.group bracket digits).Valid) ∧
      ∀ d ∈ rest.head?, isDigit d = false := by
  obtain ⟨digits, rest, heq, hdigits, hrest⟩ := exists_stop isDigit (c :: s)
  refine ⟨digits, rest, heq, fun _ => ⟨?_, hdigits⟩, hrest⟩
  rintro rfl
  have hc := hrest c (by rw [← show c :: s = rest from heq]; rfl)
  rw [h] at hc
  cases hc

theorem exists_text (hc : c ≠ 36) (s : Bytes) :
    ∃ (t rest : Bytes), (Piece.text t).Valid ∧ (Piece.text t).Stops rest ∧ c :: s = t ++ rest := by
  obtain ⟨t, r, heq, ht, hr⟩ := exists_stop (· ≠ 36) (c :: s)
  refine ⟨t, r, ⟨?_, fun hmem => ?_⟩, fun d hd => ?_, heq⟩
  · rintro rfl
    have hhead := hr c (by rw [← show c :: s = r from heq]; rfl)
    exact hc (by simpa using hhead)
  · simpa using ht 36 hmem
  · simpa using hr d hd

/-- A text goes up to the next dollar sign. -/
theorem takeWhile_text {t : Bytes} (hvalid : (Piece.text t).Valid) (hstops : (Piece.text t).Stops rest) :
    ∃ c u, t = c :: u ∧ c ≠ 36 ∧ (t ++ rest).takeWhile (· ≠ 36) = t ∧ (t ++ rest).dropWhile (· ≠ 36) = rest := by
  obtain ⟨hne, ht⟩ := hvalid
  have hall : ∀ c ∈ t, decide (c ≠ 36) = true := fun c hc => decide_eq_true fun h36 => ht (h36 ▸ hc)
  have hstop : ∀ c ∈ rest.head?, decide (c ≠ 36) = false := fun c hc => by
    rw [hstops c hc]
    rfl
  obtain ⟨c, u, rfl⟩ := exists_cons_of_ne_nil hne
  exact ⟨c, u, rfl, of_decide_eq_true (hall c mem_cons_self), takeWhile_stop hall hstop⟩

/-- What a turn takes -/
theorem turn_sound (h : turn A source sc (c :: s) = .ok (sc', rest)) :
    ∃ p : Piece, p.Valid ∧ p.Stops rest ∧ c :: s = p.source ++ rest ∧ sc' = p.emit A sc := by
  rw [turn.eq_def] at h
  dsimp only at h
  by_cases hc : c = 36
  · subst hc
    rw [if_pos rfl] at h
    cases s with
    | nil => cases h
    | cons d s =>
      dsimp only at h
      by_cases hdollar : d = 36
      · rw [if_pos hdollar] at h
        subst hdollar
        cases h
        exact ⟨.dollar, trivial, trivial, rfl, rfl⟩
      rw [if_neg hdollar] at h
      by_cases hbracket : d = 123
      · subst hbracket
        rw [if_pos rfl] at h
        cases s with
        | nil => cases h
        | cons d s =>
          dsimp only at h
          cases hdigit : isDigit d with
          | false =>
            rw [hdigit] at h
            exact absurd h variableCode_named
          | true =>
            obtain ⟨digits, r, heq, hvalid, hstop⟩ := exists_digits hdigit s
            rw [hdigit, heq] at h
            by_cases hopen : r.head? = some 125
            · obtain ⟨r, rfl⟩ := head?_eq_some_iff.mp hopen
              rw [variableCode_bracket (hvalid true)] at h
              cases h
              refine ⟨.group true digits, hvalid true, trivial, ?_, rfl⟩
              rw [heq, Piece.source, cons_append, cons_append, append_assoc, singleton_append]
            · exact absurd h (variableCode_unclosed (hvalid true) hstop hopen)
      · rw [if_neg hbracket] at h
        cases hdigit : isDigit d with
        | false =>
          rw [hdigit] at h
          exact absurd h variableCode_named
        | true =>
          obtain ⟨digits, r, heq, hvalid, hstop⟩ := exists_digits hdigit s
          rw [hdigit, heq, variableCode_open (hvalid false) hstop] at h
          cases h
          exact ⟨.group false digits, hvalid false, hstop, by rw [heq]; rfl, rfl⟩
  · rw [if_neg hc] at h
    obtain ⟨t, r, hvalid, hstops, heq⟩ := exists_text hc s
    obtain ⟨-, -, -, -, htake, hdrop⟩ := takeWhile_text hvalid hstops
    rw [heq, htake, hdrop] at h
    cases h
    exact ⟨.text t, hvalid, hstops, heq, rfl⟩

/-- A part of the template is taken in a turn. -/
theorem turn_complete (hvalid : p.Valid) (hstops : p.Stops rest) :
    turn A source sc (p.source ++ rest) = .ok (p.emit A sc, rest) := by
  cases p with
  | text t =>
    obtain ⟨c, u, ht, hc, htake, hdrop⟩ := takeWhile_text hvalid hstops
    rw [Piece.source, ht, cons_append, turn.eq_def]
    dsimp only
    rw [if_neg hc, ← cons_append, ← ht, htake, hdrop]
    rfl
  | dollar => rfl
  | group bracket digits =>
    obtain ⟨d, ds, rfl⟩ := exists_cons_of_ne_nil hvalid.1
    have hd : isDigit d = true := hvalid.2 d mem_cons_self
    obtain ⟨h125, h123, h36⟩ := isDigit_ne hd
    cases bracket with
    | false =>
      have hopen : variableCode A source sc true false (d :: ds ++ rest) = _ := variableCode_open hvalid hstops
      rw [Piece.source, cons_append, turn.eq_def]
      dsimp only [cons_append]
      rw [if_pos rfl, if_neg h36, if_neg h123, hd]
      exact hopen
    | true =>
      have hclosed : variableCode A source sc true true (d :: ds ++ 125 :: rest) = _ := variableCode_bracket hvalid
      rw [Piece.source, cons_append, cons_append, append_assoc, turn.eq_def]
      dsimp only [cons_append]
      rw [if_pos rfl, if_neg (by decide), if_pos rfl, hd]
      exact hclosed

theorem Piece.source_ne_nil (h : p.Valid) : p.source ≠ [] := by
  cases p with
  | text t => exact h.1
  | dollar => exact cons_ne_nil 36 [36]
  | group bracket digits => cases bracket <;> exact cons_ne_nil 36 _

theorem turns_cons (k : Nat) (sc : Compile) (c : UInt8) (s : Bytes) :
    turns A source (k + 1) sc (c :: s) = turn A source sc (c :: s) >>= fun r => turns A source k r.1 r.2 := rfl

/-- The loop takes the parts of the template one after the other. -/
theorem turns_sound {k : Nat} (hk : s.length ≤ k) (h : turns A source k sc s = .ok sc') :
    ∃ ps, Reading ps s ∧ sc' = ps.foldl (Piece.emit A) sc := by
  induction k generalizing sc s with
  | zero =>
    rw [length_eq_zero_iff.mp (le_zero.mp hk)]
    cases h
    exact ⟨[], .nil, rfl⟩
  | succ k ih =>
    cases s with
    | nil =>
      cases h
      exact ⟨[], .nil, rfl⟩
    | cons c s =>
      rw [turns_cons] at h
      cases hturn : turn A source sc (c :: s) with
      | error e =>
        rw [hturn] at h
        cases h
      | ok r =>
        rw [hturn] at h
        obtain ⟨sc₁, rest⟩ := r
        obtain ⟨p, hvalid, hstops, heq, rfl⟩ := turn_sound hturn
        have hpos := length_pos_iff.mpr (Piece.source_ne_nil hvalid)
        have hlen := congrArg List.length heq
        rw [length_append] at hlen
        have hk' : rest.length ≤ k := by omega
        obtain ⟨ps, hps, rfl⟩ := ih hk' h
        refine ⟨p :: ps, ?_, rfl⟩
        rw [heq]
        exact .cons hvalid hstops hps

theorem Reading.length_le (h : Reading ps s) : ps.length ≤ s.length := by
  induction h with
  | nil => exact Nat.le_refl 0
  | cons hvalid hstops h ih =>
    have hpos := length_pos_iff.mpr (Piece.source_ne_nil hvalid)
    rw [length_cons, length_append]
    omega

theorem turns_complete {k : Nat} (h : Reading ps s) (hk : ps.length ≤ k) :
    turns A source k sc s = .ok (ps.foldl (Piece.emit A) sc) := by
  induction h generalizing k sc with
  | nil => cases k <;> rfl
  | @cons p ps rest hvalid hstops h ih =>
    obtain ⟨k, rfl⟩ := exists_eq_add_one_of_ne_zero (Nat.ne_zero_of_lt hk)
    have hturn : turn A source sc (p.source ++ rest) = _ := turn_complete hvalid hstops
    obtain ⟨c, t, ht⟩ := exists_cons_of_ne_nil (Piece.source_ne_nil hvalid)
    rw [ht, cons_append] at hturn ⊢
    rw [turns_cons, hturn]
    exact ih (le_of_succ_le_succ hk)

/-- Any four addresses -/
def someAddresses : Addresses where
  addr
    | .copy_len_code => 1
    | .copy_code => 2
    | .copy_capture_len_code => 3
    | .copy_capture_code => 4
  pos f := by cases f <;> decide
  lt f := by cases f <;> decide
  inj f g := by cases f <;> cases g <;> decide

theorem Piece.eq_of_source (hvalid : p.Valid) (hvalid' : p'.Valid) (h : p.source = p'.source) : p = p' := by
  have notText : ∀ {t : Bytes} {q : Piece}, 36 ∉ t → q.source.head? = some 36 → t ≠ q.source := by
    rintro t q ht hq rfl
    exact ht (mem_of_head? hq)
  have group36 : ∀ bracket ds, (Piece.group bracket ds).source.head? = some 36 :=
    fun bracket ds => by cases bracket <;> rfl
  have notDigit : ∀ {ds : Bytes} {d : UInt8} {t : Bytes}, (∀ c ∈ ds, isDigit c = true) → isDigit d = false →
    ds ≠ d :: t := by
    rintro ds d t hds hd rfl
    rw [hds d mem_cons_self] at hd
    cases hd
  cases p with
  | text t =>
    cases p' with
    | text t' => rw [show t = t' from h]
    | dollar => exact absurd h (notText hvalid.2 rfl)
    | group bracket ds => exact absurd h (notText hvalid.2 (group36 bracket ds))
  | dollar =>
    cases p' with
    | text t' => exact absurd h.symm (notText hvalid'.2 rfl)
    | dollar => rfl
    | group bracket ds =>
      cases bracket with
      | false => exact absurd (List.cons.inj h).2.symm (notDigit hvalid'.2 rfl)
      | true => exact absurd (List.cons.inj (List.cons.inj h).2).1 (by decide)
  | group bracket ds =>
    cases p' with
    | text t' => exact absurd h.symm (notText hvalid'.2 (group36 bracket ds))
    | dollar =>
      cases bracket with
      | false => exact absurd (List.cons.inj h).2 (notDigit hvalid.2 rfl)
      | true => exact absurd (List.cons.inj (List.cons.inj h).2).1 (by decide)
    | group bracket' ds' =>
      cases bracket with
      | false =>
        cases bracket' with
        | false => rw [(List.cons.inj h).2]
        | true => exact absurd (List.cons.inj h).2 (notDigit hvalid.2 rfl)
      | true =>
        cases bracket' with
        | false => exact absurd (List.cons.inj h).2.symm (notDigit hvalid'.2 rfl)
        | true => rw [append_cancel_right (List.cons.inj (List.cons.inj h).2).2]

/-- A template has parts in one way. -/
theorem Reading.unique {ps' : List Piece} (h : Reading ps s) (h' : Reading ps' s) : ps = ps' := by
  induction h generalizing ps' with
  | nil =>
    have hlen := h'.length_le
    exact (length_eq_zero_iff.mp (le_zero.mp hlen)).symm
  | @cons p ps rest hvalid hstops h ih =>
    generalize hs : p.source ++ rest = s' at h'
    cases h' with
    | nil => exact absurd (append_eq_nil_iff.mp hs).1 (Piece.source_ne_nil hvalid)
    | @cons p' ps' rest' hvalid' hstops' h' =>
      -- both are what the scanner takes next
      have hturn : turn someAddresses [] ⟨⟨fun _ => 0, 0⟩, ⟨fun _ => 0, 0⟩⟩ (p.source ++ rest) = _ :=
        turn_complete hvalid hstops
      rw [hs, turn_complete hvalid' hstops'] at hturn
      obtain rfl : rest' = rest := (Prod.mk.inj (Except.ok.inj hturn)).2
      rw [Piece.eq_of_source hvalid hvalid' (append_cancel_right hs), ih h']

/-! ## Programs -/

variable {subj : LuaString} {m : Match subj} {lengths values : Memory} {v : ComplexValue}

theorem Compile.Holds.foldl {cs : List Code} (h : sc.Holds A cs) (ps : List Piece) :
    (ps.foldl (Piece.emit A) sc).Holds A (cs ++ ps.map Piece.code) := by
  induction ps generalizing sc cs with
  | nil =>
    rw [map_nil, append_nil]
    exact h
  | cons p ps ih =>
    have hrest := ih (h.emit p)
    rwa [append_assoc] at hrest

/-- What the array of a program holds at first -/
theorem Compile.Holds.start (lengths values : Memory) : Compile.Holds A ⟨⟨lengths, 0⟩, ⟨values, 0⟩⟩ [] :=
  ⟨⟨trivial, rfl⟩, ⟨trivial, rfl⟩⟩

theorem Reading.fits (h : Reading ps s) (hs : s.length < 2 ^ 31) : ∀ c ∈ ps.map Piece.code, c.Fits := by
  induction h with
  | nil => nofun
  | @cons p ps rest hvalid hstops h ih =>
    rw [length_append] at hs
    refine forall_mem_cons.mpr ⟨?_, ih (by omega)⟩
    cases p with
    | text t =>
      have ht : t.length < 2 ^ 31 := Nat.lt_of_le_of_lt (Nat.le_add_right _ _) hs
      exact ht.trans (by decide)
    | dollar => exact (by decide : 1 < 2 ^ 64)
    | group bracket digits => exact mod_lt _ (by decide)

theorem Reading.length_out (h : Reading ps s) (hs : s.length < 2 ^ 31) (m : Match subj) :
    ∀ p ∈ ps, (p.code.out m).length < 2 ^ 31 := by
  induction h with
  | nil => nofun
  | @cons p ps rest hvalid hstops h ih =>
    rw [length_append] at hs
    refine forall_mem_cons.mpr ⟨?_, ih (by omega)⟩
    cases p with
    | text t => exact Nat.lt_of_le_of_lt (Nat.le_add_right _ _) hs
    | dollar => exact (by decide : 1 < 2 ^ 31)
    | group bracket digits => exact m.length_group _

/-- What the programs of a template write for a match -/
def written (m : Match subj) (ps : List Piece) : Bytes := ps.flatMap fun p => p.code.out m

variable {f g : Piece → Bytes}

theorem length_flatMap_le {b : Nat} (h : ∀ p ∈ ps, (f p).length ≤ b) : (ps.flatMap f).length ≤ ps.length * b := by
  induction ps with
  | nil => exact Nat.zero_le _
  | cons p ps ih =>
    obtain ⟨hp, hps⟩ := forall_mem_cons.mp h
    have hrest := ih hps
    rw [flatMap_cons, length_append, length_cons, succ_mul]
    omega

theorem Reading.length_written (h : Reading ps s) (hs : s.length < 2 ^ 31) (m : Match subj) :
    (written m ps).length < 2 ^ 64 := by
  have hout := h.length_out hs m
  have hlen := h.length_le
  calc (written m ps).length ≤ ps.length * 2 ^ 31 := length_flatMap_le fun p hp => (hout p hp).le
    _ ≤ 2 ^ 31 * 2 ^ 31 := Nat.mul_le_mul_right _ (by omega)
    _ < 2 ^ 64 := by decide

/-- The two programs hold the instructions of the parts, each with a zero word behind it. For enough steps
they give these bytes and their number, and the instruction pointer goes from one instruction to the
next, up to the zero word. -/
structure Runs (A : Addresses) (m : Match subj) (ps : List Piece) (codes : Compile) (out : Bytes) : Prop where
  ends : codes.Ends A (ps.map Piece.code)
  eval_len : ∀ steps, ps.length < steps →
    script_eval_len A steps (init_script_engine subj.1 m.captures m.rc) codes.lengths.elts =
      some (out.length, (lengthsFormat A).offsets 0 (ps.map Piece.code))
  eval_data : ∀ steps, ps.length < steps →
    script_eval_data A steps (init_script_engine subj.1 m.captures m.rc) codes.values.elts =
      some (out, (valuesFormat A).offsets 0 (ps.map Piece.code))

/-- The programs of a template always run to their ends; what they write is as long as they say. -/
theorem Reading.runs (h : Reading ps s) (hs : s.length < 2 ^ 31) (m : Match subj) {codes : Compile}
    (hcodes : codes.Ends A (ps.map Piece.code)) : Runs A m ps codes (written m ps) := by
  have hout : (ps.map Piece.code).flatMap (Code.out m) = written m ps := flatMap_map ..
  refine ⟨hcodes, fun steps hsteps => ?_, fun steps hsteps => ?_⟩
  · rw [script_eval_len_eq hcodes.lengths (h.fits hs) (.init m) (by rwa [length_map]), hout,
      mod_eq_of_lt (h.length_written hs m)]
  · rw [script_eval_data_eq hcodes.values (h.fits hs) (.init m) (by rwa [length_map]), hout]

/-! ## Any template and any match -/

/-- What a template that is compiled makes of a match: the programs run, and what they write is the template
with its dollar signs and groups replaced. Without a `$` there are no programs. -/
def Right (A : Addresses) (lengths values : Memory) (tpl : LuaString) (m : Match subj) : Prop :=
  ∀ v, compile_complex_value A lengths values tpl.1 = .ok v →
    ∃ ps, Reading ps tpl.1 ∧
      match v.codes with
      | none => v.value = ps.flatMap (Piece.expand m)
      | some codes => Runs A m ps codes (ps.flatMap (Piece.expand m))

/-- A number of 2^63 or more is not that of a group with a text when it has wrapped around. -/
def Careful (tpl : Bytes) (m : Match subj) : Prop :=
  ∀ ps, Reading ps tpl → ∀ bracket digits, .group bracket digits ∈ ps → 2 ^ 63 ≤ number digits →
    m.group (number digits % 2 ^ 63) = []

/-- What is written for a part is what replaces it, or more than nothing. -/
theorem Piece.out_or (m : Match subj) (p : Piece) : p.expand m = p.code.out m ∨ p.expand m = [] := by
  cases p with
  | text t => exact .inl rfl
  | dollar => exact .inl rfl
  | group bracket digits =>
    rcases Nat.lt_or_ge (number digits) (2 ^ 63) with hlt | hge
    · exact .inl (congrArg m.group (mod_eq_of_lt hlt).symm)
    · refine .inr (Match.group_of_le ?_)
      have hrc := m.lt
      omega

theorem length_flatMap_mono (h : ∀ p, g p = f p ∨ g p = []) (ps : List Piece) :
    (ps.flatMap g).length ≤ (ps.flatMap f).length := by
  induction ps with
  | nil => exact Nat.le_refl 0
  | cons p ps ih =>
    have hp : (g p).length ≤ (f p).length := by
      rcases h p with hp | hp <;> rw [hp]
      exact Nat.zero_le _
    rw [flatMap_cons, flatMap_cons, length_append, length_append]
    omega

/-- When every part is left as it is or left out, nothing is lost only if nothing is left out. -/
theorem eq_of_flatMap_eq (h : ∀ p, g p = f p ∨ g p = []) (heq : ps.flatMap g = ps.flatMap f) :
    ∀ p ∈ ps, g p = f p := by
  induction ps with
  | nil => nofun
  | cons p ps ih =>
    rw [flatMap_cons, flatMap_cons] at heq
    have hlen := congrArg List.length heq
    rw [length_append, length_append] at hlen
    have hle := length_flatMap_mono h ps
    have hp : g p = f p := by
      rcases h p with hp | hp
      · exact hp
      · rw [hp, length_nil] at hlen
        rw [hp, length_eq_zero_iff.mp (show (f p).length = 0 by omega)]
    rw [hp] at heq
    exact forall_mem_cons.mpr ⟨hp, ih (append_cancel_left heq)⟩

/-- What is written is right exactly when no group that has wrapped around has a text. -/
theorem written_iff (m : Match subj) (ps : List Piece) :
    ps.flatMap (Piece.expand m) = written m ps ↔
      ∀ bracket digits, .group bracket digits ∈ ps → 2 ^ 63 ≤ number digits →
        m.group (number digits % 2 ^ 63) = [] := by
  constructor
  · intro heq bracket digits hmem hge
    have hpiece := eq_of_flatMap_eq (Piece.out_or m) heq _ hmem
    have hrc := m.lt
    have hnone : m.group (number digits) = [] := Match.group_of_le (by omega)
    exact hpiece.symm.trans hnone
  · intro h
    refine flatMap_congr fun p hp => ?_
    cases p with
    | text t => rfl
    | dollar => rfl
    | group bracket digits =>
      rcases Nat.lt_or_ge (number digits) (2 ^ 63) with hlt | hge
      · exact congrArg m.group (mod_eq_of_lt hlt).symm
      · have hrc := m.lt
        exact (Match.group_of_le (by omega)).trans (h bracket digits hp hge).symm

/-- A template without a dollar sign is one text, or none. -/
theorem exists_reading_text {tpl : Bytes} (h : 36 ∉ tpl) (m : Match subj) :
    ∃ ps, Reading ps tpl ∧ tpl = ps.flatMap (Piece.expand m) := by
  cases tpl with
  | nil => exact ⟨[], .nil, rfl⟩
  | cons c tpl =>
    have hreading : Reading [.text (c :: tpl)] (c :: tpl ++ []) := .cons ⟨cons_ne_nil c tpl, h⟩ nofun .nil
    rw [append_nil] at hreading
    exact ⟨_, hreading, (append_nil _).symm⟩

theorem Reading.dollar_mem (h : Reading ps s) (hmem : .group bracket digits ∈ ps) : 36 ∈ s := by
  induction h with
  | nil => cases hmem
  | cons hvalid hstops h ih =>
    rcases mem_cons.mp hmem with rfl | hmem
    · cases bracket <;> exact mem_append_left _ mem_cons_self
    · exact mem_append_right _ (ih hmem)

theorem compile_complex_value_of_mem {tpl : Bytes} (h : 36 ∈ tpl) :
    compile_complex_value A lengths values tpl =
      (script_compile A ⟨⟨lengths, 0⟩, ⟨values, 0⟩⟩ tpl).map fun sc => { value := tpl, codes := some sc } :=
  if_neg (Nat.ne_of_gt (count_pos_iff.mpr h))

theorem script_compile_complete (A : Addresses) (lengths values : Memory) {tpl : Bytes} (h : Reading ps tpl) :
    ∃ codes : Compile, script_compile A ⟨⟨lengths, 0⟩, ⟨values, 0⟩⟩ tpl = .ok codes ∧
      codes.Ends A (ps.map Piece.code) := by
  refine ⟨_, ?_, ((Compile.Holds.start lengths values).foldl ps).done⟩
  rw [script_compile, turns_complete h h.length_le]
  rfl

theorem script_compile_sound {tpl : Bytes} (h : script_compile A ⟨⟨lengths, 0⟩, ⟨values, 0⟩⟩ tpl = .ok sc) :
    ∃ ps, Reading ps tpl ∧ sc.Ends A (ps.map Piece.code) := by
  rw [script_compile] at h
  cases hturns : turns A tpl tpl.length ⟨⟨lengths, 0⟩, ⟨values, 0⟩⟩ tpl with
  | error e =>
    rw [hturns] at h
    cases h
  | ok sc =>
    rw [hturns] at h
    cases h
    obtain ⟨ps, hps, rfl⟩ := turns_sound (Nat.le_refl _) hturns
    exact ⟨ps, hps, ((Compile.Holds.start lengths values).foldl ps).done⟩

variable {tpl : LuaString}

theorem Right.of_careful (h : Careful tpl.1 m) : Right A lengths values tpl m := by
  intro v hv
  by_cases h36 : 36 ∈ tpl.1
  · rw [compile_complex_value_of_mem h36] at hv
    cases hsc : script_compile A ⟨⟨lengths, 0⟩, ⟨values, 0⟩⟩ tpl.1 with
    | error e =>
      rw [hsc] at hv
      cases hv
    | ok sc =>
      rw [hsc] at hv
      cases hv
      obtain ⟨ps, hps, hends⟩ := script_compile_sound hsc
      refine ⟨ps, hps, ?_⟩
      dsimp only
      rw [(written_iff m ps).mpr (h ps hps)]
      exact hps.runs tpl.2 m hends
  · have hcount : tpl.1.count 36 = 0 := count_eq_zero.mpr h36
    rw [compile_complex_value] at hv
    simp only [hcount, if_true] at hv
    cases hv
    exact exists_reading_text h36 m

theorem Right.careful (h : Right A lengths values tpl m) : Careful tpl.1 m := by
  intro ps hps bracket digits hmem hge
  obtain ⟨codes, hcodes, hends⟩ := script_compile_complete A lengths values hps
  have hok : compile_complex_value A lengths values tpl.1 = .ok ⟨tpl.1, some codes⟩ := by
    rw [compile_complex_value_of_mem (hps.dollar_mem hmem), hcodes]
    rfl
  obtain ⟨ps', hps', hruns⟩ := h _ hok
  obtain rfl := hps.unique hps'
  have hdata := hruns.eval_data (ps.length + 1) (lt_succ_self _)
  rw [(hps.runs tpl.2 m hends).eval_data (ps.length + 1) (lt_succ_self _)] at hdata
  have hout := (Prod.mk.inj (Option.some.inj hdata)).1
  exact (written_iff m ps).mp hout.symm bracket digits hmem hge

/-- **The programs of a template run from instruction to instruction and write the template with its
groups replaced, as long as no number has wrapped around to that of a group with a text.** -/
theorem template_right_iff (A : Addresses) (lengths values : Memory) (tpl : LuaString) (m : Match subj) :
    Right A lengths values tpl m ↔ Careful tpl.1 m := ⟨Right.careful, Right.of_careful⟩

/-- `$9223372036854775808`, which is no group of any match -/
def wrapped : LuaString := ⟨Lib.Resp.ascii "$9223372036854775808".toList, by decide⟩

/-- A match of the whole subject `a` -/
def wholeMatch : Match ⟨[97], by decide⟩ where
  rc := 1
  captures := [0, 1]
  pos := by decide
  lt := by decide
  room := by decide
  offsets k hk := by
    obtain rfl : k = 0 := by omega
    exact .inr (by decide)

theorem not_right_wrapped : ¬ Right someAddresses (fun _ => 0) (fun _ => 0) wrapped wholeMatch := by
  intro h
  have hreading : Reading [.group false (wrapped.1.drop 1)] wrapped.1 := by
    have hdigits : (wrapped.1.drop 1).all isDigit = true := rfl
    have hvalid : (Piece.group false (wrapped.1.drop 1)).Valid := ⟨by decide, all_eq_true.mp hdigits⟩
    have hstops : (Piece.group false (wrapped.1.drop 1)).Stops [] := nofun
    exact .cons hvalid hstops .nil
  have hempty := h.careful _ hreading false _ mem_cons_self (by decide)
  exact absurd hempty (by decide)

end OpenResty.NgxLua.Script
