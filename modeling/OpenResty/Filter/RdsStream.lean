/-
Result sets as a database module of nginx sends them, the ways in which one may be cut
into buffers, and the JSON that stands for it.
-/
import OpenResty.Filter.RdsJson

namespace OpenResty.Filter.RdsJson

open List

open Lib (toBytes)

/-- The bytes of a field; the longest size stands for `NULL`. -/
abbrev Value := { data : Bytes // data.length < 2 ^ 32 - 1 }

structure Row where
  flag : { flag : UInt8 // flag ≠ 0 }
  fields : List (Option Value)

/-- A result set whose numbers and sizes are of the width that the format has for them. -/
structure ResultSet where
  header : Header
  cols : List Column
  rows : List Row
  codes_lt : header.std_errcode < 2 ^ 16 ∧ header.drv_errcode < 2 ^ 16 ∧ header.errstr.length < 2 ^ 16
  counts_lt : header.affected_rows < 2 ^ 64 ∧ header.insert_id < 2 ^ 64 ∧ header.col_count < 2 ^ 16
  col_count_eq : header.col_count = cols.length
  cols_lt : ∀ col ∈ cols, col.std_type < 2 ^ 16 ∧ col.drv_type < 2 ^ 16 ∧ col.name.length < 2 ^ 16
  length_fields : ∀ row ∈ rows, row.fields.length = cols.length
  rows_nil : cols = [] → rows = []

/-! ## The stream -/

/-- Bytes that lie in one buffer; `opens` says that the field that they begin may go on. -/
structure Atom where
  bytes : Bytes
  opens : Bool

def headerBytes (header : Header) : Bytes :=
  toBytes 1 0 ++ (toBytes 4 3 ++ (toBytes 1 0 ++ (toBytes 2 header.std_errcode ++ (toBytes 2 header.drv_errcode ++
    (toBytes 2 header.errstr.length ++ (header.errstr ++ (toBytes 8 header.affected_rows ++
    (toBytes 8 header.insert_id ++ toBytes 2 header.col_count))))))))

def columnBytes (col : Column) : Bytes :=
  toBytes 2 col.std_type ++ (toBytes 2 col.drv_type ++ (toBytes 2 col.name.length ++ col.name))

/-- The bytes of a field behind the first. -/
def dataAtoms (data : Bytes) : List Atom := data.map fun c => ⟨[c], false⟩

/-- The size of a field comes with a byte of it. -/
def fieldAtoms : Option Value → List Atom
  | none => [⟨toBytes 4 (2 ^ 32 - 1), false⟩]
  | some ⟨[], _⟩ => [⟨toBytes 4 0, false⟩]
  | some ⟨c :: data, _⟩ => ⟨toBytes 4 (data.length + 1) ++ [c], true⟩ :: dataAtoms data

def fieldsAtoms (fields : List (Option Value)) : List Atom := fields.flatMap fieldAtoms

def rowsAtoms : List Row → List Atom
  | [] => [⟨[0], false⟩]
  | row :: rows => ⟨[row.flag.1], false⟩ :: (fieldsAtoms row.fields ++ rowsAtoms rows)

def colsAtoms (cols : List Column) : List Atom := cols.map fun col => ⟨columnBytes col, false⟩

/-- The stream of a result set. -/
def ResultSet.atoms (res : ResultSet) : List Atom :=
  ⟨headerBytes res.header, false⟩ :: (colsAtoms res.cols ++ if res.cols = [] then [] else rowsAtoms res.rows)

/-! ## Its buffers -/

/-- What is left of a buffer is in front of the others. -/
def put (data : Bytes) (bufs : List Bytes) : List Bytes := if data = [] then bufs else data :: bufs

/-- The buffers behind the first `n` bytes. -/
def behind (n : Nat) : List Bytes → List Bytes
  | [] => []
  | b :: bufs => put (b.drop n) bufs

/-- The buffers are the stream, cut between the atoms. -/
def Cut : List Atom → List Bytes → Prop
  | [], bufs => bufs = []
  | a :: as, bufs => a.bytes <+: bufs.headD [] ∧ Cut as (behind a.bytes.length bufs)

/-- Somewhere a buffer goes on for a multiple of `2 ^ 32` bytes behind the size of a field that is
not empty. -/
def Wraps : List Atom → List Bytes → Prop
  | [], _ => False
  | a :: as, bufs => a.opens = true ∧ ((bufs.headD []).length - 4) % 2 ^ 32 = 0 ∨ Wraps as (behind a.bytes.length bufs)

/-! ## Its JSON -/

def quoted (s : Bytes) : Bytes := lit "\"" ++ escape_json_str s ++ lit "\""

/-- A value that is of the type of its column. -/
def Fits (col : Column) : Option Value → Prop
  | none => True
  | some ⟨[], _⟩ => True
  | some ⟨c :: data, _⟩ =>
    match col.roughType with
    | .int => intBegins (c :: data) = true
    | .bool => data = [] ∧ (isFalse c || isTrue c) = true
    | .float | .str => True

def jsonValue (col : Column) : Option Value → Bytes
  | none => lit "null"
  | some ⟨[], _⟩ => lit "\"\""
  | some ⟨c :: data, _⟩ =>
    match col.roughType with
    | .int | .float => c :: data
    | .bool => if isFalse c then lit "false" else lit "true"
    | .str => quoted (c :: data)

/-- A result set that has a JSON text: its columns have names, and its values are of their types. -/
def ResultSet.Valid (res : ResultSet) : Prop :=
  (∀ col ∈ res.cols, col.name ≠ []) ∧ ∀ row ∈ res.rows, ∀ field ∈ res.cols.zip row.fields, Fits field.1 field.2

def jsonField (conf : Conf) (field : Column × Option Value) : Bytes :=
  match conf.format with
  | .normal => quoted field.1.name ++ lit ":" ++ jsonValue field.1 field.2
  | .compact => jsonValue field.1 field.2

def jsonRow (conf : Conf) (cols : List Column) (row : Row) : Bytes :=
  let fields := (lit ",").intercalate ((cols.zip row.fields).map (jsonField conf))
  match conf.format with
  | .normal => lit "\x7b" ++ fields ++ lit "\x7d"
  | .compact => lit "[" ++ fields ++ lit "]"

/-- The rows; in the compact format the names of the columns come first. -/
def jsonRows (conf : Conf) (cols : List Column) (rows : List Row) : Bytes :=
  let items := match conf.format with
    | .normal => rows.map (jsonRow conf cols)
    | .compact => (lit "[" ++ (lit ",").intercalate (cols.map fun col => quoted col.name) ++ lit "]") ::
      rows.map (jsonRow conf cols)
  lit "[" ++ (lit ",").intercalate items ++ lit "]"

/-- A member, with a comma behind it. -/
def jsonProp (prop : Bytes × Bytes) : Bytes := prop.1 ++ lit ":" ++ quoted prop.2 ++ lit ","

/-- What is in front of the rows under a root property. -/
def jsonProps (conf : Conf) : Bytes :=
  lit "\x7b" ++ (if conf.success ≠ [] then conf.success ++ lit ":true," else []) ++
    conf.user_props.flatMap jsonProp ++ conf.root ++ lit ":"

/-- The header stands for a result set without columns. -/
def jsonHeader (conf : Conf) (header : Header) : Bytes :=
  lit "\x7b" ++
    (if conf.success ≠ [] then conf.success ++ (if header.std_errcode = 0 then lit ":true," else lit ":false,") else []) ++
    conf.user_props.flatMap jsonProp ++ conf.errcode_key ++ lit ":" ++ decimal header.std_errcode ++
    (if header.errstr ≠ [] then lit "," ++ conf.errstr_key ++ lit ":" ++ quoted header.errstr else []) ++
    (if header.insert_id ≠ 0 then lit ",\"insert_id\":" ++ decimal header.insert_id else []) ++
    (if header.affected_rows ≠ 0 then lit ",\"affected_rows\":" ++ decimal header.affected_rows else []) ++ lit "\x7d"

def ResultSet.json (conf : Conf) (res : ResultSet) : Bytes :=
  if res.cols = [] then jsonHeader conf res.header
  else if conf.root ≠ [] then jsonProps conf ++ jsonRows conf res.cols res.rows ++ lit "\x7d"
  else jsonRows conf res.cols res.rows

/-! ## Reading the front of the buffers -/

theorem put_append (data : Bytes) (bufs later : List Bytes) : put data bufs ++ later = put data (bufs ++ later) := by
  rw [put, put]
  split <;> rfl

theorem behind_append (a t : Bytes) (bufs : List Bytes) : behind a.length ((a ++ t) :: bufs) = put t bufs := by
  rw [behind, drop_left]

variable {as : List Atom} {bufs : List Bytes}

/-- The first atom is at the front of the first buffer. -/
theorem cut_cons {a : Atom} (ha : a.bytes ≠ []) (h : Cut (a :: as) bufs) :
    ∃ t bufs', bufs = (a.bytes ++ t) :: bufs' ∧ Cut as (put t bufs') := by
  obtain ⟨⟨t, ht⟩, hrest⟩ := h
  cases bufs with
  | nil =>
    rw [headD_nil, append_eq_nil_iff] at ht
    exact absurd ht.1 ha
  | cons b bufs =>
    rw [headD_cons] at ht
    subst ht
    rw [behind_append] at hrest
    exact ⟨t, bufs, rfl, hrest⟩

theorem wraps_cons (a : Atom) (as : List Atom) (t : Bytes) (bufs : List Bytes) :
    Wraps (a :: as) ((a.bytes ++ t) :: bufs) ↔
      a.opens = true ∧ ((a.bytes ++ t).length - 4) % 2 ^ 32 = 0 ∨ Wraps as (put t bufs) := by
  rw [Wraps, behind_append, headD_cons]

theorem wraps_closed {a : Atom} {t : Bytes} (ha : a.opens = false) :
    Wraps (a :: as) ((a.bytes ++ t) :: bufs) ↔ Wraps as (put t bufs) := by
  rw [wraps_cons, ha]
  simp

/-- Bytes of a field at the front of a buffer. -/
theorem cut_data {data t : Bytes} (k : Nat) (hdata : k ≤ data.length) (ht : k ≤ t.length)
    (h : Cut (dataAtoms data ++ as) (put t bufs)) :
    t.take k = data.take k ∧ Cut (dataAtoms (data.drop k) ++ as) (put (t.drop k) bufs) ∧
      (Wraps (dataAtoms data ++ as) (put t bufs) ↔ Wraps (dataAtoms (data.drop k) ++ as) (put (t.drop k) bufs)) := by
  induction k generalizing data t with
  | zero => exact ⟨rfl, h, Iff.rfl⟩
  | succ k ih =>
    cases data with
    | nil => exact absurd hdata (Nat.not_succ_le_zero k)
    | cons c data =>
      cases t with
      | nil => exact absurd ht (Nat.not_succ_le_zero k)
      | cons c' t =>
        obtain ⟨t', bufs', hbufs, hrest⟩ := cut_cons (cons_ne_nil c []) h
        obtain ⟨hct, rfl⟩ := List.cons.inj hbufs
        obtain ⟨rfl, rfl⟩ : c' = c ∧ t = t' := List.cons.inj hct
        obtain ⟨htake, hcut, hwraps⟩ := ih (Nat.le_of_succ_le_succ hdata) (Nat.le_of_succ_le_succ ht) hrest
        refine ⟨by rw [take_succ_cons, take_succ_cons, htake], hcut, ?_⟩
        have hfirst : Wraps (dataAtoms (c' :: data) ++ as) (put (c' :: t) bufs) ↔ Wraps (dataAtoms data ++ as) (put t bufs) :=
          wraps_closed (show (Atom.mk [c'] false).opens = false from rfl)
        exact hfirst.trans hwraps

end OpenResty.Filter.RdsJson
