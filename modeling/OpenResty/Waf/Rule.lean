/-
The rule table of the firewall: what a decoded ruleset file, or a translated
ModSecurity directive, holds for one rule, with the fields `rule_calc` adds.
Names are the source's.
-/
import OpenResty.Lua.Value

namespace OpenResty.Waf

open Lua

/-- The keys of `util.parse_collection`. -/
inductive ParseMethod
  | specific | regex | keys | values | all
deriving Repr

def ParseMethod.name : ParseMethod → String
  | .specific => "specific" | .regex => "regex" | .keys => "keys" | .values => "values" | .all => "all"

/-- The keys of `util.sieve_collection`. -/
inductive SieveMethod
  | ignore | regex
deriving DecidableEq, Repr

def SieveMethod.name : SieveMethod → String
  | .ignore => "ignore" | .regex => "regex"

/-- The keys of `transform_t.lookup`. -/
inductive Transform
  | base64_decode | base64_encode | css_decode | cmd_line | compress_whitespace | hex_decode | hex_encode
  | html_decode | js_decode | length | lowercase | md5 | normalise_path | normalise_path_win | remove_comments
  | remove_comments_char | remove_nulls | remove_whitespace | replace_comments | replace_nulls | sha1
  | sql_hex_decode | trim | trim_left | trim_right | uri_decode
deriving DecidableEq, Repr

def Transform.name : Transform → String
  | .base64_decode => "base64_decode"
  | .base64_encode => "base64_encode"
  | .css_decode => "css_decode"
  | .cmd_line => "cmd_line"
  | .compress_whitespace => "compress_whitespace"
  | .hex_decode => "hex_decode"
  | .hex_encode => "hex_encode"
  | .html_decode => "html_decode"
  | .js_decode => "js_decode"
  | .length => "length"
  | .lowercase => "lowercase"
  | .md5 => "md5"
  | .normalise_path => "normalise_path"
  | .normalise_path_win => "normalise_path_win"
  | .remove_comments => "remove_comments"
  | .remove_comments_char => "remove_comments_char"
  | .remove_nulls => "remove_nulls"
  | .remove_whitespace => "remove_whitespace"
  | .replace_comments => "replace_comments"
  | .replace_nulls => "replace_nulls"
  | .sha1 => "sha1"
  | .sql_hex_decode => "sql_hex_decode"
  | .trim => "trim"
  | .trim_left => "trim_left"
  | .trim_right => "trim_right"
  | .uri_decode => "uri_decode"

/-- `opts.transform`: one name, or a table of names. -/
inductive TransformOpt
  | one (t : Transform)
  | many (ts : List Transform)
deriving Repr

/-- The transforms in the order `_do_transform` applies them. -/
def TransformOpt.list : TransformOpt → List Transform
  | .one t => [t]
  | .many ts => ts

/-- The keys of `operators.lookup`. -/
inductive Operator
  | REGEX | REFIND | EQUALS | GREATER | LESS | GREATER_EQ | LESS_EQ | EXISTS | CONTAINS | STR_EXISTS
  | STR_CONTAINS | PM | CIDR_MATCH | RBL_LOOKUP | DETECT_SQLI | DETECT_XSS | STR_MATCH | VERIFY_CC
deriving DecidableEq, Repr

/-- The keys of `actions.disruptive_lookup`. -/
inductive Disrupt
  | ACCEPT | CHAIN | DENY | DROP | IGNORE | SCORE
deriving DecidableEq, Repr

/-- The values of `_mode`. -/
inductive Mode
  | ACTIVE | INACTIVE | SIMULATE
deriving DecidableEq, Repr

/-- An entry of a rule's `nondisrupt` table: the action and its data. -/
inductive NonDisrupt
  | deletevar (col : String) (key : Scalar)
  | expirevar (col : String) (key time : Scalar)
  | initcol (col : String) (value : Scalar)
  | setvar (col : String) (key value : Scalar) (inc : Bool)
  | sleep (time : Rat)
  | status (status : Option Rat)
  | rule_remove_id (id : Scalar)
  | rule_remove_by_meta
  | mode_update (mode : Mode)
deriving Repr

/-- One entry of a rule's `vars` table. -/
structure Var where
  type : Option String := none
  parse : Option (ParseMethod × Scalar) := none
  ignore : Option (List (SieveMethod × String)) := none
  unconditional : Bool := false
  length : Bool := false
  storage : Bool := false
  collection_key : String := ""
deriving Repr

/-- A rule's `vars` table: what `ipairs` goes through, and the one other key
that is ever written to it. -/
structure Vars where
  list : List Var := []
  unconditional : Bool := false
deriving Repr

structure Opts where
  transform : Option TransformOpt := none
  parsepattern : Bool := false
  nolog : Bool := false
  /-- Written by the translator only. -/
  log : Option Bool := none
deriving Repr

structure Actions where
  disrupt : Option Disrupt := none
  nondisrupt : List NonDisrupt := []
deriving Repr

structure Rule where
  id : Option Scalar := none
  vars : Option Vars := none
  opts : Opts := {}
  operator : Option Operator := none
  pattern : Option Val := none
  op_negated : Bool := false
  actions : Actions := {}
  msg : Option String := none
  logdata : Option String := none
  tag : List String := []
  exceptions : List String := []
  skip : Option Scalar := none
  skip_after : Option Scalar := none
  offset_match : Option Nat := none
  offset_nomatch : Option Nat := none
deriving Repr

/-- A rule that continues a chain. -/
def Rule.isChain (r : Rule) : Bool := r.actions.disrupt = some .CHAIN

/-- Lua's coercion of an arithmetic operand. -/
def arith : Scalar → Option Rat
  | .bool _ => none
  | .num q => some q
  | .str s => tonumber s

/-- The number of rules a `skip` field passes. A negative or fractional one is
not modelled. -/
def skipCount (s : Scalar) : Option Nat :=
  (arith s).bind fun q => if q.den = 1 ∧ 0 ≤ q.num then some q.num.toNat else none

@[simp] theorem skipCount_num (n : Nat) : skipCount (.num n) = some n := by
  have : (0 : Int) ≤ n := Int.natCast_nonneg n
  simp [skipCount, arith, this, -Rat.num_nonneg]

end OpenResty.Waf
