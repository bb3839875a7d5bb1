/-
Where the two passes of the encoder of query arguments agree, over every table
with string keys and strings, numbers, booleans or lists of those.

The counting pass takes a key's escapes before it looks at the value, so a key
that needs escaping is counted also where `false` or an empty list leaves
nothing to write. And an empty key with `true` is written as nothing, so that
two `&` meet or one stands at an end.
-/
import Mathlib.Data.List.Chain
import OpenResty.NgxLua.EncodeArgs

namespace OpenResty.NgxLua

open Lib List

/-! ## The tables -/

/-- A string, a number or a boolean. -/
inductive Scalar
  | num (q : Rat)
  | str (s : Bytes)
  | bool (b : Bool)
deriving DecidableEq

def Scalar.leaf : Scalar → Leaf
  | .num q => .num q
  | .str s => .str s
  | .bool b => .bool b

inductive Given
  | scalar (s : Scalar)
  | list (items : List Scalar)

def Given.val : Given → ArgVal
  | .scalar s => .leaf s.leaf
  | .list items => .table (items.map Scalar.leaf)

def Given.scalars : Given → List Scalar
  | .scalar s => [s]
  | .list items => items

abbrev GivenTable := List (Bytes × Given)

def GivenTable.table (t : GivenTable) : ArgTable := t.map fun (k, v) => (.str k, v.val)

/-- What a value is as an argument; `false` is none. -/
def Scalar.arg : Scalar → Option Arg
  | .num q => some (.str ((Lua.numToString q).toList.map Char.toUInt8))
  | .str s => some (.str s)
  | .bool true => some .yes
  | .bool false => none

def Given.args (v : Given) : List Arg := v.scalars.filterMap Scalar.arg

def pairsFor (e : Bytes × Given) : List Pair := e.2.args.map fun a => (e.1, a.text)

def GivenTable.pairs (t : GivenTable) : List Pair := t.flatMap pairsFor

/-- The escapes of the keys with nothing to write. -/
def unwritten (e : Bytes × Given) : Nat := if e.2.args = [] then countEscape e.1 else 0

def GivenTable.unwritten (t : GivenTable) : Nat := (t.map NgxLua.unwritten).sum

/-! ## Counting -/

theorem countItem_false (key : Bytes) (ke : Nat) (p : Sizes × Nat) :
    countItem key ke p (Scalar.bool false).leaf = .ok p := rfl

theorem countItem_arg {s : Scalar} {a : Arg} (h : s.arg = some a) (key : Bytes) (ke : Nat) (p : Sizes × Nat) :
    countItem key ke p s.leaf = countItem key ke p a.leaf := by
  rcases s with q | s | _ | _ <;> cases h <;> rfl

theorem Scalar.arg_none {s : Scalar} (h : s.arg = none) : s = .bool false := by
  rcases s with q | s | _ | _ <;> first | rfl | cases h

theorem countScalars_later (c : Sizes) (key : Bytes) {i : Nat} (hi : 0 < i) (items : List Scalar) :
    (items.map Scalar.leaf).foldlM (countItem key (2 * countEscape key)) (c, i) =
      .ok (c.plus ((items.filterMap Scalar.arg).map fun a => (key, a.text)),
        i + (items.filterMap Scalar.arg).length) := by
  induction items generalizing c i with
  | nil => rfl
  | cons s items ih =>
    rw [map_cons, foldlM_cons]
    cases ha : s.arg with
    | none =>
      rw [Scalar.arg_none ha, countItem_false, ← Scalar.arg_none ha, filterMap_cons_none ha]
      exact ih c hi
    | some a =>
      rw [countItem_arg ha, countItem_later c key hi, filterMap_cons_some ha]
      simp only [bind, Except.bind]
      rw [ih _ (by omega), ← Sizes.plus_append, map_cons, length_cons]
      simp only [singleton_append, Except.ok.injEq, Prod.mk.injEq, true_and]
      omega

/-- The key was counted before; without an item to write it stays so. -/
theorem countScalars_first (c : Sizes) (key : Bytes) (items : List Scalar) :
    (items.map Scalar.leaf).foldlM (countItem key (2 * countEscape key))
        ({ c with total_escape := c.total_escape + 2 * countEscape key }, 0) =
      .ok (if items.filterMap Scalar.arg = [] then
          { c with total_escape := c.total_escape + 2 * countEscape key }
        else c.plus ((items.filterMap Scalar.arg).map fun a => (key, a.text)),
        (items.filterMap Scalar.arg).length) := by
  induction items with
  | nil => rfl
  | cons s items ih =>
    rw [map_cons, foldlM_cons]
    cases ha : s.arg with
    | none =>
      rw [Scalar.arg_none ha, countItem_false, ← Scalar.arg_none ha, filterMap_cons_none ha]
      exact ih
    | some a =>
      rw [countItem_arg ha, countItem_first, filterMap_cons_some ha, if_neg (cons_ne_nil _ _)]
      simp only [bind, Except.bind]
      rw [countScalars_later _ _ Nat.one_pos, ← Sizes.plus_append, map_cons, length_cons, Nat.add_comm 1]
      rfl

/-- The sizes with `k` escapes too many. -/
def Sizes.over (c : Sizes) (k : Nat) : Sizes := { c with total_escape := c.total_escape + 2 * k }

theorem Sizes.over_zero (c : Sizes) : c.over 0 = c := rfl

theorem Sizes.plus_over (c : Sizes) (k : Nat) (ps : List Pair) : (c.over k).plus ps = (c.plus ps).over k := by
  simp only [plus, Sizes.over, mk.injEq, true_and]
  omega

theorem Sizes.over_over (c : Sizes) (k l : Nat) : (c.over k).over l = c.over (k + l) := by
  simp only [Sizes.over, mk.injEq, true_and]
  omega

theorem countEntry_given (c : Sizes) (e : Bytes × Given) :
    countEntry c (.str e.1, e.2.val) = .ok ((c.plus (pairsFor e)).over (unwritten e)) := by
  obtain ⟨key, v⟩ := e
  cases v with
  | scalar s =>
    cases ha : s.arg with
    | none =>
      rw [Scalar.arg_none ha]
      rfl
    | some a =>
      have hargs : (Given.scalar s).args = [a] := by
        rw [Given.args, Given.scalars, filterMap_cons_some ha, filterMap_nil]
      have hcount := congrArg (Except.map Prod.fst) (countItem_first c key 0 a)
      rw [pairsFor, unwritten, hargs, if_neg (cons_ne_nil _ _), Sizes.over_zero]
      refine Eq.trans ?_ hcount
      rcases s with q | s | _ | _ <;> cases ha <;> rfl
  | list items =>
    rw [Given.val, countEntry, countScalars_first, Except.map, pairsFor, unwritten, Given.args, Given.scalars]
    split
    · next h => rw [h]; rfl
    · rfl

theorem countTable_given (c : Sizes) (t : GivenTable) :
    t.table.foldlM countEntry c = .ok ((c.plus t.pairs).over t.unwritten) := by
  induction t generalizing c with
  | nil => rfl
  | cons e t ih =>
    have hrest := ih ((c.plus (pairsFor e)).over (unwritten e))
    rw [Sizes.plus_over, ← Sizes.plus_append, Sizes.over_over] at hrest
    rw [GivenTable.table, map_cons, foldlM_cons, countEntry_given]
    exact hrest

/-! ## Writing -/

theorem writtenItem_scalar (copy : Bytes → Bytes) (key : Bytes) (s : Scalar) :
    writtenItem copy key s.leaf = s.arg.map fun a => pieceOf copy (key, a.text) := by
  rcases s with q | s | _ | _ <;> rfl

theorem writtenScalars_eq (copy : Bytes → Bytes) (key : Bytes) (items : List Scalar) :
    (items.map Scalar.leaf).filterMap (writtenItem copy key) =
      (items.filterMap Scalar.arg).map fun a => pieceOf copy (key, a.text) := by
  rw [filterMap_map, map_filterMap]
  exact congrArg (filterMap · items) (funext fun s => writtenItem_scalar copy key s)

theorem writtenEntry_given (copy : Bytes → Bytes) (e : Bytes × Given) :
    writtenEntry copy (.str e.1, e.2.val) = (pairsFor e).map (pieceOf copy) := by
  obtain ⟨key, v⟩ := e
  rw [pairsFor, map_map]
  cases v with
  | scalar s => rcases s with q | s | _ | _ <;> rfl
  | list items => exact writtenScalars_eq copy key items

theorem writtenTable_given (copy : Bytes → Bytes) (t : GivenTable) :
    t.table.flatMap (writtenEntry copy) = t.pairs.map (pieceOf copy) := by
  rw [GivenTable.table, GivenTable.pairs, flatMap_map, map_flatMap]
  exact congrArg (flatMap · t) (funext fun e => writtenEntry_given copy e)

/-- What the encoder makes of a table: the joined pieces, or the buffer error. -/
theorem encodeArgs_given (t : GivenTable) :
    encodeArgs t.table =
      if t.unwritten = 0 then .ok (joined t.pairs)
      else .error (.buffer (joined t.pairs).length ((joined t.pairs).length + 2 * t.unwritten)) := by
  refine processArgs_of_passes t.unwritten ?_ fun copy => writtenTable_given copy t
  rw [countTable_given]
  simp only [Sizes.plus, Sizes.over, Nat.zero_add]

/-! ## The `&` -/

/-- No leading, trailing or doubled `&`. -/
def Separated (text : Bytes) : Prop :=
  text.head? ≠ some '&'.toUInt8 ∧ text.getLast? ≠ some '&'.toUInt8 ∧
    text.IsChain fun a b => a ≠ '&'.toUInt8 ∨ b ≠ '&'.toUInt8

variable {piece : Bytes}

theorem head_ne_of_notMem (h : '&'.toUInt8 ∉ piece) : piece.head? ≠ some '&'.toUInt8 :=
  fun hhead => h (mem_of_head? hhead)

theorem last_ne_of_notMem (h : '&'.toUInt8 ∉ piece) : piece.getLast? ≠ some '&'.toUInt8 :=
  fun hlast => h (mem_of_getLast? hlast)

theorem chain_of_notMem (h : '&'.toUInt8 ∉ piece) : piece.IsChain fun a b => a ≠ '&'.toUInt8 ∨ b ≠ '&'.toUInt8 := by
  induction piece with
  | nil => exact List.IsChain.nil
  | cons b piece ih =>
    rw [mem_cons, not_or] at h
    exact isChain_cons.mpr ⟨fun _ _ => Or.inl (Ne.symm h.1), ih h.2⟩

theorem separated_of_notMem (h : '&'.toUInt8 ∉ piece) : Separated piece :=
  ⟨head_ne_of_notMem h, last_ne_of_notMem h, chain_of_notMem h⟩

/-- A piece, `&` and more text: both sides must have something. -/
theorem separated_cons {text : Bytes} (h : '&'.toUInt8 ∉ piece) :
    Separated (piece ++ '&'.toUInt8 :: text) ↔ piece ≠ [] ∧ text ≠ [] ∧ Separated text := by
  have hhead : (piece ++ '&'.toUInt8 :: text).head? ≠ some '&'.toUInt8 ↔ piece ≠ [] := by
    cases piece with
    | nil => simp
    | cons b piece =>
      have hb : some b ≠ some '&'.toUInt8 := head_ne_of_notMem h
      exact ⟨fun _ => cons_ne_nil _ _, fun _ => hb⟩
  have hlast : (piece ++ '&'.toUInt8 :: text).getLast? ≠ some '&'.toUInt8 ↔
      text ≠ [] ∧ text.getLast? ≠ some '&'.toUInt8 := by
    cases text with
    | nil => simp
    | cons b text => simp [getLast?_append, getLast?_cons_cons]
  have hchain : (piece ++ '&'.toUInt8 :: text).IsChain (fun a b => a ≠ '&'.toUInt8 ∨ b ≠ '&'.toUInt8) ↔
      text.head? ≠ some '&'.toUInt8 ∧ text.IsChain fun a b => a ≠ '&'.toUInt8 ∨ b ≠ '&'.toUInt8 := by
    rw [isChain_append, isChain_cons]
    constructor
    · rintro ⟨-, ⟨hnext, htext⟩, -⟩
      refine ⟨fun hamp => ?_, htext⟩
      rcases hnext _ hamp with h' | h' <;> exact h' rfl
    · rintro ⟨hamp, htext⟩
      refine ⟨chain_of_notMem h, ⟨fun b hb => Or.inr fun hb' => hamp (hb' ▸ hb), htext⟩, ?_⟩
      exact fun a ha b _ => Or.inl fun ha' => last_ne_of_notMem h (ha' ▸ ha)
  rw [Separated, Separated, hhead, hlast, hchain]
  tauto

theorem separated_join {pieces : List Bytes} (h : ∀ piece ∈ pieces, '&'.toUInt8 ∉ piece) :
    Separated (['&'.toUInt8].intercalate pieces) ↔ pieces.length ≤ 1 ∨ [] ∉ pieces := by
  induction pieces with
  | nil => exact iff_of_true (separated_of_notMem not_mem_nil) (Or.inl (Nat.zero_le 1))
  | cons piece pieces ih =>
    cases pieces with
    | nil =>
      refine iff_of_true ?_ (Or.inl (Nat.le_refl 1))
      rw [intercalate_singleton]
      exact separated_of_notMem (h _ mem_cons_self)
    | cons second pieces =>
      have hrest := ih fun q hq => h q (mem_cons_of_mem _ hq)
      -- the rest is empty only where it is the one empty piece
      have hempty : ['&'.toUInt8].intercalate (second :: pieces) = [] ↔ pieces = [] ∧ second = [] := by
        cases pieces with
        | nil => simp
        | cons third pieces => simp [intercalate_cons_cons]
      rw [intercalate_cons_cons, append_assoc, singleton_append,
        separated_cons (h _ mem_cons_self), Ne, Ne, hempty, hrest]
      simp only [length_cons, mem_cons, not_or]
      cases pieces with
      | nil => simp [eq_comm]
      | cons third pieces => simp [eq_comm]

/-! ## Both together -/

theorem Scalar.arg_eq_none_iff (s : Scalar) : s.arg = none ↔ s = .bool false :=
  ⟨Scalar.arg_none, fun h => h ▸ rfl⟩

theorem Scalar.arg_eq_yes_iff (s : Scalar) : s.arg = some .yes ↔ s = .bool true := by
  rcases s with q | s | _ | _ <;> simp [Scalar.arg]

theorem Given.args_eq_nil_iff (v : Given) : v.args = [] ↔ ¬ ∃ s ∈ v.scalars, s ≠ .bool false := by
  simp only [args, filterMap_eq_nil_iff, Scalar.arg_eq_none_iff, not_exists, not_and, ne_eq, not_not]

theorem unwritten_eq_zero_iff (t : GivenTable) :
    t.unwritten = 0 ↔ ∀ e ∈ t, countEscape e.1 ≠ 0 → ∃ s ∈ e.2.scalars, s ≠ .bool false := by
  rw [GivenTable.unwritten, List.sum_eq_zero_iff_forall_eq_nat, forall_mem_map]
  refine forall₂_congr fun e _ => ?_
  rw [unwritten]
  split
  · next h => exact ⟨fun hz hne => absurd hz hne, fun h' => by_contra fun hne => e.2.args_eq_nil_iff.mp h (h' hne)⟩
  · next h => exact iff_of_true rfl fun _ => not_not.mp (mt e.2.args_eq_nil_iff.mpr h)

theorem length_args (v : Given) : v.args.length = (v.scalars.filter (· ≠ .bool false)).length := by
  rw [Given.args, length_filterMap_eq_countP, ← countP_eq_length_filter]
  refine countP_congr fun s _ => ?_
  rw [decide_eq_true_eq, Option.isSome_iff_ne_none, Ne, Scalar.arg_eq_none_iff]

theorem length_pairs (t : GivenTable) :
    t.pairs.length = (t.flatMap fun e => e.2.scalars.filter (· ≠ .bool false)).length := by
  rw [GivenTable.pairs, length_flatMap, length_flatMap]
  refine congrArg sum (map_congr_left fun e _ => ?_)
  rw [pairsFor, length_map, length_args]

/-- Only `true` under an empty key is written as nothing. -/
theorem pieceOf_eq_nil_iff (p : Pair) : pieceOf (escapeUri uri_component) p = [] ↔ p = ([], none) := by
  obtain ⟨key, _ | value⟩ := p
  · rw [pieceOf, Prod.mk.injEq, and_iff_left rfl]
    refine ⟨fun h => ?_, fun h => by rw [h]; rfl⟩
    have hlen := length_escape uri_component key
    rw [h, length_nil] at hlen
    exact length_eq_zero_iff.mp (by omega)
  · simp [pieceOf]

theorem nil_mem_pieces_iff (t : GivenTable) :
    [] ∈ t.pairs.map (pieceOf (escapeUri uri_component)) ↔ ∃ e ∈ t, e.1 = [] ∧ .bool true ∈ e.2.scalars := by
  constructor
  · intro h
    obtain ⟨p, hp, hnil⟩ := mem_map.mp h
    obtain ⟨e, he, hpe⟩ := mem_flatMap.mp hp
    obtain ⟨a, ha, rfl⟩ := mem_map.mp hpe
    obtain ⟨s, hs, hsa⟩ := mem_filterMap.mp ha
    have hpair := (pieceOf_eq_nil_iff _).mp hnil
    rw [Prod.mk.injEq] at hpair
    cases a with
    | str text => exact absurd hpair.2 (Option.some_ne_none text)
    | yes => exact ⟨e, he, hpair.1, s.arg_eq_yes_iff.mp hsa ▸ hs⟩
  · rintro ⟨e, he, hkey, hs⟩
    have hyes : Arg.yes ∈ e.2.args := mem_filterMap.mpr ⟨_, hs, rfl⟩
    refine mem_map.mpr ⟨(e.1, none), ?_, (pieceOf_eq_nil_iff _).mpr (by rw [hkey])⟩
    exact mem_flatMap.mpr ⟨e, he, mem_map.mpr ⟨.yes, hyes, rfl⟩⟩

/-- **When the two passes agree and every `&` stands between two pairs.** -/
theorem encode_args_iff (t : GivenTable) :
    (∃ text, encodeArgs t.table = .ok text ∧ Separated text) ↔
      (∀ e ∈ t, countEscape e.1 ≠ 0 → ∃ s ∈ e.2.scalars, s ≠ .bool false) ∧
        ((t.flatMap fun e => e.2.scalars.filter (· ≠ .bool false)).length ≤ 1 ∨
          ∀ e ∈ t, e.1 = [] → .bool true ∉ e.2.scalars) := by
  have hpieces : ∀ piece ∈ t.pairs.map (pieceOf (escapeUri uri_component)), '&'.toUInt8 ∉ piece :=
    forall_mem_map.mpr fun p _ => not_mem_pieceOf_amp p
  have hsep := separated_join hpieces
  rw [length_map, length_pairs, nil_mem_pieces_iff] at hsep
  simp only [not_exists, not_and] at hsep
  rw [encodeArgs_given, ← unwritten_eq_zero_iff, ← hsep, ← joined]
  split
  · next h =>
    constructor
    · rintro ⟨text, htext, hclean⟩
      cases htext
      exact ⟨h, hclean⟩
    · exact fun hclean => ⟨_, rfl, hclean.2⟩
  · next h =>
    constructor
    · rintro ⟨text, htext, -⟩
      cases htext
    · exact fun hclean => absurd hclean.1 h

/-- A space in a key whose value is `false`: two bytes are counted, none is written. -/
theorem encode_args_disagree :
    encodeArgs (GivenTable.table [("a b".toList.map Char.toUInt8, .scalar (.bool false))]) = .error (.buffer 0 2) ∧
      ¬ ∃ text, encodeArgs (GivenTable.table [("a b".toList.map Char.toUInt8, .scalar (.bool false))]) = .ok text ∧
        Separated text := by
  have herror : encodeArgs (GivenTable.table [("a b".toList.map Char.toUInt8, .scalar (.bool false))]) =
      .error (.buffer 0 2) := rfl
  refine ⟨herror, ?_⟩
  rintro ⟨text, htext, -⟩
  rw [herror] at htext
  cases htext

end OpenResty.NgxLua
