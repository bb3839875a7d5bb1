/-
What a rule's variable takes from a collection: `_parse_collection` with the
parse and sieve methods of `util`, and `_do_transform`.

`ngx.re.find` with the request's PCRE flags and the transform functions are
parameters; a transform returns a scalar or raises.
-/
import OpenResty.Waf.Rule

namespace OpenResty.Waf

open Lua List

/-- The regular expressions and transforms a selection uses. -/
structure Engine where
  re_find : String → String → Bool
  transform : Transform → Scalar → Except String Scalar

variable (eng : Engine)

/-- `util.table_keys` of a table's pairs. -/
def tableKeys (ps : List (Scalar × Val)) : List Val := ps.map fun (key, _) => .leaf (.str key.tostring)

/-- `util.table_values`: the values of inner tables are broken out, one level deep. -/
def tableValues (ps : List (Scalar × Val)) : List Val :=
  ps.flatMap fun (_, value) =>
    match value with
    | .table arr hash => (Val.table arr hash).pairs.map fun (_, values) => .leaf (.str values.tostring)
    | .leaf s => [.leaf (.str s.tostring)]

/-- The elements under the keys that match. -/
def parseRegex (value : String) (ps : List (Scalar × Val)) : List Val :=
  (ps.filter fun (key, _) => eng.re_find key.tostring value).flatMap fun (_, v) =>
    match v with
    | .table arr hash => (Val.table arr hash).pairs.map (·.2)
    | .leaf s => [.leaf s]

/-- `util.parse_collection[key](self, collection, value)` -/
def parseBy (key : ParseMethod) (value : Scalar) (ps : List (Scalar × Val)) : Option Val :=
  match key with
  | .specific => ps.lookup value
  | .regex => some (.array (parseRegex eng value.tostring ps))
  | .keys => some (.array (tableKeys ps))
  | .values => some (.array (tableValues ps))
  | .all => some (.array (tableKeys ps ++ tableValues ps))

/-- `util.sieve_collection[key](self, collection, value)` on the copy of a collection. -/
def sieveBy (key : SieveMethod) (value : String) (ps : List (Scalar × Val)) : List (Scalar × Val) :=
  match key with
  | .ignore => ps.filter fun (k, _) => k != .str value
  | .regex => ps.filter fun (k, _) => !eng.re_find k.tostring value

def sieveAll (ignore : List (SieveMethod × String)) (ps : List (Scalar × Val)) : List (Scalar × Val) :=
  ignore.foldl (fun ps (ikey, ivalue) => sieveBy eng ikey ivalue ps) ps

/-- `_parse_collection`: an ignore list counts only along with a parse method,
and what is no table cannot be parsed. -/
def parseCollection (collection : Option Val) (var : Var) : Option Val :=
  match var.parse with
  | none => collection
  | some (key, value) =>
    match collection with
    | some (.table arr hash) =>
      match var.ignore with
      | some ignore => parseBy eng key value (sieveAll eng ignore (Val.table arr hash).pairs)
      | none => parseBy eng key value (Val.table arr hash).pairs
    | _ => none

/-- One transform, of a scalar or of every element of a table. `false` stays as it is. -/
def transformVal (t : Transform) : Val → Except String Val
  | .leaf (.bool false) => .ok (.leaf (.bool false))
  | .leaf s => (eng.transform t s).map .leaf
  | .table arr hash => do return .table (← overList arr) (← overHash hash)
where
  overList : List Val → Except String (List Val)
    | [] => .ok []
    | v :: vs => do return (← transformVal t v) :: (← overList vs)
  overHash : List (Scalar × Val) → Except String (List (Scalar × Val))
    | [] => .ok []
    | (k, v) :: kvs => do return (k, ← transformVal t v) :: (← overHash kvs)

def transformAll (ts : List Transform) (v : Val) : Except String Val :=
  ts.foldlM (fun v t => transformVal eng t v) v

/-- `_do_transform`, when the rule has transforms. -/
def doTransform (collection : Option Val) (transform : Option TransformOpt) : Except String (Option Val) :=
  match collection with
  | none => .ok none
  | some v => (transformAll eng ((transform.map TransformOpt.list).getD []) v).map some

/-- The value of a variable, taken from the collections without the cache. -/
def freshValue (collections : String → Option Val) (var : Var) (transform : Option TransformOpt) :
    Except String (Option Val) :=
  doTransform eng (parseCollection eng (var.type.bind collections) var) transform

/-! ## Lemmas -/

theorem sieveAll_eq_filter (ignore : List (SieveMethod × String)) (ps : List (Scalar × Val)) :
    sieveAll eng ignore ps = ps.filter fun (k, _) => ignore.all fun (m, v) =>
      match m with
      | .ignore => k != .str v
      | .regex => !eng.re_find k.tostring v := by
  induction ignore generalizing ps with
  | nil => exact (filter_eq_self.mpr (by simp)).symm
  | cons i ignore ih =>
    obtain ⟨m, v⟩ := i
    have hstep : sieveAll eng ((m, v) :: ignore) ps = sieveAll eng ignore (sieveBy eng m v ps) := rfl
    rw [hstep, ih]
    cases m <;> simp only [sieveBy, filter_filter, all_cons, Bool.and_comm]

mutual

theorem transformVal_id {eng : Engine} (h : ∀ t s, eng.transform t s = .ok s) (t : Transform) :
    ∀ v, transformVal eng t v = .ok v
  | .leaf (.bool false) => rfl
  | .leaf (.bool true) => by simp [transformVal, h, Except.map]
  | .leaf (.num q) => by simp [transformVal, h, Except.map]
  | .leaf (.str s) => by simp [transformVal, h, Except.map]
  | .table arr hash => by
    simp only [transformVal, transformList_id h t arr, transformHash_id h t hash]
    rfl

theorem transformList_id {eng : Engine} (h : ∀ t s, eng.transform t s = .ok s) (t : Transform) :
    ∀ vs, transformVal.overList eng t vs = .ok vs
  | [] => rfl
  | v :: vs => by
    simp only [transformVal.overList, transformVal_id h t v, transformList_id h t vs]
    rfl

theorem transformHash_id {eng : Engine} (h : ∀ t s, eng.transform t s = .ok s) (t : Transform) :
    ∀ kvs, transformVal.overHash eng t kvs = .ok kvs
  | [] => rfl
  | (k, v) :: kvs => by
    simp only [transformVal.overHash, transformVal_id h t v, transformHash_id h t kvs]
    rfl

end

theorem doTransform_id {eng : Engine} (h : ∀ t s, eng.transform t s = .ok s) (c : Option Val)
    (transform : Option TransformOpt) : doTransform eng c transform = .ok c := by
  cases c with
  | none => rfl
  | some v =>
    have hall : ∀ ts, transformAll eng ts v = .ok v := fun ts => by
      induction ts with
      | nil => rfl
      | cons t ts ih =>
        simp only [transformAll, foldlM_cons, transformVal_id h t v]
        exact ih
    simp only [doTransform, hall]
    rfl

end OpenResty.Waf
