/-
`ngx.encode_args` and `ngx.decode_args`: `ngx_http_lua_process_args_option`
and `ngx_http_lua_set_multi_value_table` of `ngx_http_lua_util.c`.

A table is its pairs in the order `lua_next` gives them, which is the same in
both passes; a list is traversed from its first element on.
-/
import OpenResty.Lib.Assoc
import OpenResty.Lua.Value
import OpenResty.NgxLua.ArgsAgree

namespace OpenResty.NgxLua

open Lib Prod
open List hiding lookup_cons map_id map_map

/-- A value that is no table; of the other types only the name matters. -/
inductive Leaf
  | num (q : Rat)
  | str (s : Bytes)
  | bool (b : Bool)
  | other (type : String)
deriving DecidableEq

/-- A value of a table of arguments. -/
inductive ArgVal
  | leaf (l : Leaf)
  | table (items : List Leaf)

abbrev ArgTable := List (Leaf × ArgVal)

inductive ArgError
  | nonStringKey
  | badValue (type : String)
  | buffer (wrote len : Nat)

/-- `lua_tolstring` -/
def Leaf.tolstring : Leaf → Option Bytes
  | .num q => some ((Lua.numToString q).toList.map Char.toUInt8)
  | .str s => some s
  | .bool _ => none
  | .other _ => none

/-- `luaL_typename` -/
def Leaf.typename : Leaf → String
  | .num _ => "number"
  | .str _ => "string"
  | .bool _ => "boolean"
  | .other type => type

/-! ## The counting pass -/

structure Sizes where
  n : Nat
  len : Nat
  total_escape : Nat

/-- `ngx_http_lua_escape_uri(NULL, ...)` -/
def countEscape (s : Bytes) : Nat := escapeCount uri_component s

def Sizes.addValue (c : Sizes) (key value : Bytes) : Sizes :=
  { n := c.n + 1, len := c.len + (key.length + value.length + 1), total_escape :=
    c.total_escape + 2 * countEscape value }

def Sizes.addKey (c : Sizes) (key : Bytes) : Sizes := { c with n := c.n + 1, len := c.len + key.length }

/-- The key is escaped once more for every item but the first. -/
def Sizes.again (c : Sizes) (i key_escape : Nat) : Sizes :=
  if 0 < i then { c with total_escape := c.total_escape + key_escape } else c

def countItem (key : Bytes) (key_escape : Nat) : Sizes × Nat → Leaf → Except ArgError (Sizes × Nat)
  | (c, i), .bool true => .ok ((c.addKey key).again i key_escape, i + 1)
  | (c, i), .bool false => .ok (c, i)
  | (c, i), item =>
    match item.tolstring with
    | some value => .ok ((c.addValue key value).again i key_escape, i + 1)
    | none => .error (.badValue item.typename)

def countEntry (c : Sizes) : Leaf × ArgVal → Except ArgError Sizes
  | (.str key, val) =>
    let key_escape := 2 * countEscape key
    let c := { c with total_escape := c.total_escape + key_escape }
    match val with
    | .leaf (.bool b) => .ok (if b then c.addKey key else c)
    | .leaf l =>
      match l.tolstring with
      | some value => .ok (c.addValue key value)
      | none => .error (.badValue l.typename)
    | .table items => (items.foldlM (countItem key key_escape) (c, 0)).map fst
  | (_, _) => .error .nonStringKey

/-! ## The writing pass -/

/-- What is written of a value, before any `&`. -/
def writtenItem (copy : Bytes → Bytes) (key : Bytes) : Leaf → Option Bytes
  | .bool true => some (copy key)
  | .bool false => none
  | item => item.tolstring.map fun value => copy key ++ '='.toUInt8 :: copy value

def writtenEntry (copy : Bytes → Bytes) : Leaf × ArgVal → List Bytes
  | (.str key, .leaf l) => (writtenItem copy key l).toList
  | (.str key, .table items) => items.filterMap (writtenItem copy key)
  | (_, _) => []

/-- All but the last of the `n` pairs are followed by `&`. -/
def writePiece (n : Nat) : Bytes × Nat → Bytes → Bytes × Nat
  | (p, i), piece => (p ++ piece ++ (if i + 1 ≠ n then ['&'.toUInt8] else []), i + 1)

/-- `ngx_http_lua_process_args_option` -/
def processArgsOption (t : ArgTable) : Except ArgError Bytes := do
  let c ← t.foldlM countEntry { n := 0, len := 0, total_escape := 0 }
  let len := c.len + c.total_escape + (if 1 < c.n then c.n - 1 else 0)
  -- shortcut: no escape required
  let copy := if c.total_escape ≠ 0 then escapeUri uri_component else id
  let (p, _) := (t.flatMap (writtenEntry copy)).foldl (writePiece c.n) ([], 0)
  if p.length ≠ len then throw (.buffer p.length len)
  return p

def encodeArgs (t : ArgTable) : Except ArgError Bytes := processArgsOption t

/-! ## Reading back -/

/-- A string or `true`. -/
inductive Arg
  | str (s : Bytes)
  | yes

def Arg.leaf : Arg → Leaf
  | .str s => .str s
  | .yes => .bool true

/-- One value, or a list of at least two. -/
inductive Args
  | one (a : Arg)
  | list (a b : Arg) (more : List Arg)

def Args.values : Args → List Arg
  | .one a => [a]
  | .list a b more => a :: b :: more

def Args.val : Args → ArgVal
  | .one a => .leaf a.leaf
  | .list a b more => .table ((a :: b :: more).map Arg.leaf)

/-- A table from non-empty string keys to arguments. -/
structure QueryTable where
  entries : List (Bytes × Args)
  keys_ne : ∀ e ∈ entries, e.1 ≠ []
  keys_nodup : (entries.map fst).Nodup

/-- The Lua table it is. -/
def QueryTable.table (t : QueryTable) : ArgTable := t.entries.map fun (k, v) => (.str k, v.val)

/-! Encoding a table of query arguments and decoding the text gives the table
back: the two passes of the encoder agree on the length, the text splits into
the pairs that were written, and these build the table again. -/

/-! ## The pairs of a table -/

def Arg.text : Arg → Option Bytes
  | .str s => some s
  | .yes => none

def pairsOf (e : Bytes × Args) : List Pair := e.2.values.map fun a => (e.1, a.text)

def QueryTable.pairs (t : QueryTable) : List Pair := t.entries.flatMap pairsOf

/-- What is written of a pair. -/
def pieceOf (copy : Bytes → Bytes) : Pair → Bytes
  | (key, some value) => copy key ++ '='.toUInt8 :: copy value
  | (key, none) => copy key

def rawLength (p : Pair) : Nat := p.1.length + match p.2 with
  | some value => value.length + 1
  | none => 0

def escapes (p : Pair) : Nat := countEscape p.1 + match p.2 with
  | some value => countEscape value
  | none => 0

theorem length_pieceOf (p : Pair) : (pieceOf (escapeUri uri_component) p).length = rawLength p + 2 * escapes p := by
  obtain ⟨key, _ | value⟩ := p
  · exact length_escape ..
  · simp only [pieceOf, rawLength, escapes, countEscape, length_append, length_cons, length_escape]
    omega

/-! ## Counting -/

def Sizes.plus (c : Sizes) (ps : List Pair) : Sizes where
  n := c.n + ps.length
  len := c.len + (ps.map rawLength).sum
  total_escape := c.total_escape + 2 * (ps.map escapes).sum

theorem Sizes.plus_append (c : Sizes) (ps qs : List Pair) : c.plus (ps ++ qs) = (c.plus ps).plus qs := by
  simp only [plus, length_append, map_append, sum_append, mk.injEq]
  omega

/-- An item counts as its pair, when its key was counted already. -/
theorem countItem_first (c : Sizes) (key : Bytes) (ke : Nat) (a : Arg) :
    countItem key ke ({ c with total_escape := c.total_escape + 2 * countEscape key }, 0) a.leaf =
      .ok (c.plus [(key, a.text)], 1) := by
  cases a with
  | str s =>
    simp only [countItem, Arg.leaf, Leaf.tolstring, Sizes.addValue, Sizes.again, Nat.lt_irrefl, if_false, Sizes.plus,
      Arg.text, rawLength, escapes, map_cons, map_nil, sum_cons, sum_nil, length_singleton,
      Except.ok.injEq, mk.injEq, Sizes.mk.injEq, true_and, and_true]
    omega
  | yes =>
    simp only [countItem, Arg.leaf, Sizes.addKey, Sizes.again, Nat.lt_irrefl, if_false, Sizes.plus, Arg.text,
      rawLength, escapes, map_cons, map_nil, sum_cons, sum_nil, length_singleton]
    rfl

theorem countItem_later (c : Sizes) (key : Bytes) {i : Nat} (hi : 0 < i) (a : Arg) :
    countItem key (2 * countEscape key) (c, i) a.leaf = .ok (c.plus [(key, a.text)], i + 1) := by
  cases a with
  | str s =>
    simp only [countItem, Arg.leaf, Leaf.tolstring, Sizes.addValue, Sizes.again, hi, if_true, Sizes.plus,
      Arg.text, rawLength, escapes, map_cons, map_nil, sum_cons, sum_nil, length_singleton,
      Except.ok.injEq, mk.injEq, Sizes.mk.injEq, true_and, and_true]
    omega
  | yes =>
    simp only [countItem, Arg.leaf, Sizes.addKey, Sizes.again, hi, if_true, Sizes.plus, Arg.text,
      rawLength, escapes, map_cons, map_nil, sum_cons, sum_nil, length_singleton]
    rfl

/-- The pieces are joined by `&`. -/
theorem writePieces_eq {n i : Nat} {pieces : List Bytes} (h : i + pieces.length = n) (p : Bytes) :
    (pieces.foldl (writePiece n) (p, i)).1 = p ++ ['&'.toUInt8].intercalate pieces := by
  induction pieces generalizing p i with
  | nil => simp
  | cons piece pieces ih =>
    rw [foldl_cons, writePiece, ih (by rw [length_cons] at h; omega)]
    cases pieces with
    | nil =>
      rw [if_neg (by simpa using h)]
      simp
    | cons piece' pieces =>
      rw [if_pos (by simp at h; omega), intercalate_cons_cons]
      simp

theorem length_joined (ps : List Pair) :
    (['&'.toUInt8].intercalate (ps.map (pieceOf (escapeUri uri_component)))).length =
      (ps.map rawLength).sum + 2 * (ps.map escapes).sum + (ps.length - 1) := by
  induction ps with
  | nil => rfl
  | cons p ps ih =>
    cases ps with
    | nil => simp [length_pieceOf]
    | cons q ps =>
      simp only [map_cons, intercalate_cons_cons, length_append, length_cons, length_nil,
        length_pieceOf, sum_cons] at ih ⊢
      omega

/-- The shortcut is taken where escaping would change nothing. -/
theorem pieceOf_shortcut {ps : List Pair} (h : (ps.map escapes).sum = 0) :
    ps.map (pieceOf id) = ps.map (pieceOf (escapeUri uri_component)) := by
  refine map_congr_left fun p hp => ?_
  have hzero : escapes p = 0 := List.sum_eq_zero_iff_forall_eq_nat.mp h _ (mem_map_of_mem hp)
  obtain ⟨key, _ | value⟩ := p
  · have hkey : countEscape key = 0 := by simpa [escapes] using hzero
    simp only [pieceOf, id, escape_of_count hkey]
  · have hboth : countEscape key = 0 ∧ countEscape value = 0 := by simpa [escapes] using hzero
    simp only [pieceOf, id, escape_of_count hboth.1, escape_of_count hboth.2]

/-- The escaped pairs, joined by `&`. -/
def joined (ps : List Pair) : Bytes := ['&'.toUInt8].intercalate (ps.map (pieceOf (escapeUri uri_component)))

variable {t : ArgTable}

/-- The encoder from its two passes: the pieces are joined, unless the counting pass took more than they have. -/
theorem processArgs_of_passes {ps : List Pair} (surplus : Nat)
    (hcount : t.foldlM countEntry ⟨0, 0, 0⟩ =
      .ok ⟨ps.length, (ps.map rawLength).sum, 2 * (ps.map escapes).sum + 2 * surplus⟩)
    (hwritten : ∀ copy, t.flatMap (writtenEntry copy) = ps.map (pieceOf copy)) :
    processArgsOption t =
      if surplus = 0 then .ok (joined ps)
      else .error (.buffer (joined ps).length ((joined ps).length + 2 * surplus)) := by
  have hlen : (joined ps).length = (ps.map rawLength).sum + 2 * (ps.map escapes).sum + (ps.length - 1) :=
    length_joined ps
  have hcopy : ps.map (pieceOf (if 2 * (ps.map escapes).sum + 2 * surplus ≠ 0 then escapeUri uri_component else id)) =
      ps.map (pieceOf (escapeUri uri_component)) := by
    split
    · rfl
    · exact pieceOf_shortcut (by omega)
  have htext : ((ps.map (pieceOf (escapeUri uri_component))).foldl (writePiece ps.length) ([], 0)).1 = joined ps :=
    (writePieces_eq (by simp) []).trans (nil_append _)
  have hbuffer : (ps.map rawLength).sum + (2 * (ps.map escapes).sum + 2 * surplus) +
      (if 1 < ps.length then ps.length - 1 else 0) = (joined ps).length + 2 * surplus := by
    split <;> omega
  rw [processArgsOption, hcount]
  simp only [bind, Except.bind]
  rw [hwritten, hcopy, htext, hbuffer]
  by_cases hs : surplus = 0
  · rw [if_pos hs, if_neg (by omega)]
    rfl
  · rw [if_neg hs, if_pos (by omega)]
    rfl

theorem not_mem_pieceOf_amp (p : Pair) : '&'.toUInt8 ∉ pieceOf (escapeUri uri_component) p := by
  obtain ⟨key, _ | value⟩ := p
  · exact fun h => (escape_plain h).1 rfl
  · intro h
    rcases mem_append.mp h with h | h
    · exact (escape_plain h).1 rfl
    · rcases mem_cons.mp h with h | h
      · exact absurd h (by decide)
      · exact (escape_plain h).1 rfl

variable {key : Bytes}

end OpenResty.NgxLua
