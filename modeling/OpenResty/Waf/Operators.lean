/-
`resty.waf.operators`: the operators of the rules, on scalars and on table
collections.

What the operators take from elsewhere (PCRE, the Aho-Corasick library, IP
ranges, DNS, libinjection) is the parameter `OpEnv`. The dictionaries made for
`PM` are kept per rule id in `Dicts`, for the life of the worker. The cache of
parsed CIDRs is left out: it is keyed by the text that is parsed.
-/
import OpenResty.Waf.Rule
import OpenResty.Lib.Search

namespace OpenResty.Waf

open Lua Lib

/-- What an operator returns: whether it matched, and a value. -/
abbrev Found := Bool × Option Val

/-- How a DNS query ended. -/
inductive DnsAnswer
  | failed
  | errcode (code : Nat)
  /-- The address or name of the first record, if there is one. -/
  | records (first : Option (Option String))

structure OpEnv where
  /-- The captures of `ngx.re.match(subject, regex, _pcre_flags)`. -/
  re_match : String → String → Option Val
  /-- The start of the match of `ngx.re.find(subject, regex, _pcre_flags)`. -/
  re_find : String → String → Option Nat
  /-- Whether a word of the dictionary occurs in the text. -/
  ac_match : List String → String → Bool
  /-- `iputils.ip_in_cidrs` of the parsed CIDRs. -/
  ip_in_cidrs : Val → List Val → Bool
  /-- `dns:new` with the given servers, and `resolver:query` of the resolver it makes. -/
  dns_new : List Val → Option (String → DnsAnswer)
  libinject_sqli : Scalar → Except String (Bool × Option String)
  libinject_xss : Scalar → Except String Bool

/-- The part of the request context the operators read. -/
structure OpCtx where
  id : Option Scalar
  nameservers : Option Val

abbrev Dicts := List (Scalar × List String)

/-! ## Helpers -/

/-- A string argument of a library function: numbers are converted. -/
def checkString : Option Val → Except String String
  | some (.leaf (.str s)) => .ok s
  | some (.leaf (.num q)) => .ok (numToString q)
  | _ => .error "bad argument (string expected)"

/-- `util.table_has_value`: raw equality with any value of the table. -/
def tableHasValue (needle : Option Val) : Option Val → Except String Bool
  | some (.table arr hash) =>
    .ok ((Val.table arr hash).pairs.any fun (_, v) =>
      match v, needle with
      | .leaf a, some (.leaf b) => a == b
      | _, _ => false)
  | _ => .error "Cannot search for a needle when haystack is not a table"

/-- `string.find(subject, pattern, 1, true)`, counted from 0. -/
def findPlain (subject pattern : List Char) : Option Nat :=
  if pattern.isPrefixOf subject then some 0
  else
    match subject with
    | [] => none
    | _ :: rest => (findPlain rest pattern).map (· + 1)

/-- The recursion most operators share: over the elements of a table in
`ipairs` order, up to the first match. -/
def overIpairs (scalar : Scalar → Except String Found) : Val → Except String Found
  | .leaf s => scalar s
  | .table arr _ => overList arr
where
  overList : List Val → Except String Found
    | [] => .ok (false, none)
    | v :: vs => unlessFound (overIpairs scalar v) (overList vs)

/-- The same over `pairs`. -/
def overPairs (scalar : Scalar → Except String Found) : Val → Except String Found
  | .leaf s => scalar s
  | .table arr hash => unlessFound (overList arr) (overHash hash)
where
  overList : List Val → Except String Found
    | [] => .ok (false, none)
    | v :: vs => unlessFound (overPairs scalar v) (overList vs)
  overHash : List (Scalar × Val) → Except String Found
    | [] => .ok (false, none)
    | (_, v) :: kvs => unlessFound (overPairs scalar v) (overHash kvs)

/-- A match returns the scalar itself. -/
def selfValue (a : Scalar) (matched : Bool) : Found := (matched, if matched then some a else none)

/-! ## Comparisons -/

/-- A comparison of two numbers or two strings. -/
def compare? (num : Rat → Rat → Bool) (str : String → String → Bool) (a : Scalar) (b : Option Val) :
    Except String Found :=
  match a, b with
  | .num x, some (.leaf (.num y)) => .ok (selfValue a (num x y))
  | .str x, some (.leaf (.str y)) => .ok (selfValue a (str x y))
  | _, _ => .error "attempt to compare"

def equalsScalar (b : Option Val) (a : Scalar) : Except String Found :=
  .ok (selfValue a (match b with | some (.leaf b) => a == b | _ => false))

def equals (a : Val) (b : Option Val) : Except String Found := overIpairs (equalsScalar b) a

def greaterScalar (b : Option Val) (a : Scalar) : Except String Found := compare? (· > ·) (· > ·) a b

def greater (a : Val) (b : Option Val) : Except String Found := overIpairs (greaterScalar b) a

def lessScalar (b : Option Val) (a : Scalar) : Except String Found := compare? (· < ·) (· < ·) a b

def less (a : Val) (b : Option Val) : Except String Found := overIpairs (lessScalar b) a

def greaterEqualsScalar (b : Option Val) (a : Scalar) : Except String Found := compare? (· ≥ ·) (· ≥ ·) a b

def greaterEquals (a : Val) (b : Option Val) : Except String Found := overIpairs (greaterEqualsScalar b) a

def lessEqualsScalar (b : Option Val) (a : Scalar) : Except String Found := compare? (· ≤ ·) (· ≤ ·) a b

def lessEquals (a : Val) (b : Option Val) : Except String Found := overIpairs (lessEqualsScalar b) a

/-! ## Membership -/

def existsScalar (haystack : Option Val) (needle : Scalar) : Except String Found :=
  (tableHasValue (some needle) haystack).map (selfValue needle)

def exists_ (needle : Val) (haystack : Option Val) : Except String Found :=
  overIpairs (existsScalar haystack) needle

/-- `contains` recurses over the needle, not over the haystack. -/
def contains (haystack : Val) (needle : Option Val) : Except String Found :=
  match needle with
  | some (.table arr hash) =>
    overIpairs (fun v => (tableHasValue (some v) (some haystack)).map (selfValue v)) (.table arr hash)
  | some (.leaf v) => (tableHasValue (some v) (some haystack)).map (selfValue v)
  | none => (tableHasValue none (some haystack)).map fun found => (found, none)

/-! ## Text -/

def strFindScalar (pattern : Option Val) (subject : Scalar) : Except String Found := do
  let s ← checkString (some subject)
  let p ← checkString pattern
  match findPlain s.toList p.toList with
  | some i => return (true, some (.leaf (.str (String.ofList ((s.toList.drop i).take p.length)))))
  | none => return (false, none)

/-- A nil subject is no table, and no string. -/
def strFind (subject : Option Val) (pattern : Option Val) : Except String Found :=
  match subject with
  | some subject => overIpairs (strFindScalar pattern) subject
  | none => (checkString none).map fun _ => (false, none)

section

variable (env : OpEnv)

def regexScalar (pattern : Option Val) (subject : Scalar) : Except String Found := do
  let s ← checkString (some subject)
  let p ← checkString pattern
  match env.re_match s p with
  | some captures => return (true, some captures)
  | none => return (false, none)

def regex (subject : Val) (pattern : Option Val) : Except String Found :=
  overIpairs (regexScalar env pattern) subject

def refindScalar (pattern : Option Val) (subject : Scalar) : Except String Found := do
  let s ← checkString (some subject)
  let p ← checkString pattern
  match env.re_find s p with
  | some i => return (true, some (.leaf (.num i)))
  | none => return (false, none)

def refind (subject : Val) (pattern : Option Val) : Except String Found :=
  overIpairs (refindScalar env pattern) subject

/-! ## Phrase match -/

/-- `ac.create_ac`: the words of the pattern, which must be strings. -/
def createAc : Option Val → Except String (List String)
  | some (.table arr _) => arr.mapM fun
    | .leaf (.str s) => .ok s
    | _ => .error "cannot convert to const char *"
  | some (.leaf (.str s)) => if s = "" then .ok [] else .error "attempt to get length of a nil value"
  | _ => .error "attempt to get length of a non-table"

def acScalar (dict : List String) (needle : Scalar) : Except String Found :=
  match needle with
  | .str s => .ok (selfValue needle (env.ac_match dict s))
  | _ => .error "attempt to get length of a non-string"

/-- The dictionary is made once for a rule id. The recursive calls find it made. -/
def acLookup (dicts : Dicts) (ctx : OpCtx) (needle : Val) (haystack : Option Val) : Except String Found × Dicts :=
  match ctx.id.bind (dicts.lookup ·) with
  | some dict => (overIpairs (acScalar env dict) needle, dicts)
  | none =>
    match createAc haystack, ctx.id with
    | .error e, _ => (.error e, dicts)
    | .ok _, none => (.error "table index is nil", dicts)
    | .ok dict, some id => (overIpairs (acScalar env dict) needle, (id, dict) :: dicts)

/-! ## Addresses -/

/-- The pattern as a list of CIDRs. -/
def cidrsOf : Option Val → List Val
  | some (.table arr _) => arr
  | some v => [v]
  | none => []

def cidrMatch (ip : Val) (cidr_pattern : Option Val) : Except String Found :=
  .ok (env.ip_in_cidrs ip (cidrsOf cidr_pattern), some ip)

/-- One to three digits. -/
def octet (cs : List Char) : Option (List Char × List Char) :=
  let ds := (cs.takeWhile Char.isDigit).take 3
  if ds = [] then none else some (ds, cs.drop ds.length)

/-- `(%d%d?%d?)%.(%d%d?%d?)%.(%d%d?%d?)%.(%d%d?%d?)` at the start of the text. -/
def quad (cs : List Char) : Option (List (List Char)) := do
  let dot := fun (cs : List Char) => match cs with | '.' :: cs => some cs | _ => none
  let (o1, cs) ← octet cs
  let (o2, cs) ← octet (← dot cs)
  let (o3, cs) ← octet (← dot cs)
  let (o4, _) ← octet (← dot cs)
  return [o1, o2, o3, o4]

/-- The first match of the pattern of `quad`. -/
def findQuad : List Char → Option (List (List Char))
  | [] => none
  | c :: cs => (quad (c :: cs)).orElse fun _ => findQuad cs

/-- `util.build_rbl_query` of a string. -/
def buildRblQuery (ip : String) (rbl_srv : Option Val) : Except String (Option String) :=
  match findQuad ip.toList with
  | none => .ok none
  | some octets => do
    let parts := octets.reverse.map String.ofList
    match rbl_srv with
    | none => return some (String.intercalate "." parts)
    | some _ => return some (String.intercalate "." (parts ++ [← checkString rbl_srv]))

/-- How the answer to a query counts. -/
def rblAnswer : DnsAnswer → Found
  | .failed => (false, none)
  | .errcode _ => (false, none)
  | .records none => (false, none)
  | .records (some first) => (true, first.map fun s => .leaf (.str s))

def rblLookup (ctx : OpCtx) (ip : Val) (rbl_srv : Option Val) : Except String Found :=
  match ctx.nameservers with
  | some (.table servers _) =>
    match env.dns_new servers, ip with
    | none, _ => .ok (false, none)
    | some query, .leaf (.str ip) => do
      match ← buildRblQuery ip rbl_srv with
      | none => return (false, none)
      | some q => return rblAnswer (query q)
    | some _, _ => .ok (false, none)
  | _ => .ok (false, none)

/-! ## Injection detection -/

def detectSqliScalar (input : Scalar) : Except String Found :=
  (env.libinject_sqli input).map fun (found, fingerprint) => (found, fingerprint.map fun s => .leaf (.str s))

def detectSqli (input : Val) : Except String Found := overIpairs (detectSqliScalar env) input

def detectXssScalar (input : Scalar) : Except String Found :=
  (env.libinject_xss input).map (selfValue input)

def detectXss (input : Val) : Except String Found := overIpairs (detectXssScalar env) input

end

/-! ## Horspool search -/

/-- The skip table: `m`, or the distance of the last occurrence of the character
among the first `m - 1` of the pattern from its end. -/
def skipTable (pattern : List Char) (c : Char) : Nat :=
  let m := pattern.length
  (List.range (m - 1)).foldl (fun d k => if pattern[k]? = some c then m - (k + 1) else d) m

/-- The inner loop: compare backwards from position `i` of the input and `j` of
the pattern (counted from 1); the `j` it stops at. -/
def compareBack (input pattern : List Char) : Nat → Nat → Nat
  | _, 0 => 0
  | i, j + 1 => if 0 < i ∧ input[i - 1]? = pattern[j]? then compareBack input pattern (i - 1) j else j + 1

/-- The outer loop from position `k`. The skip is at least 1 for a pattern that
is not empty, so the length of the input is fuel enough. -/
def horspool (input pattern : List Char) : Nat → Nat → Bool
  | 0, _ => false
  | fuel + 1, k =>
    if k ≤ input.length then
      if compareBack input pattern k pattern.length = 0 then true
      else
        match input[k - 1]? with
        | some c => horspool input pattern fuel (k + skipTable pattern c)
        | none => false
    else false

/-- `#input` and `#pattern` raise on what has no length; a table pattern is a
table of no characters when it is empty, and raises when it is compared. -/
def strMatchScalar (pattern : Option Val) (input : Scalar) : Except String Found :=
  match input, pattern with
  | .str s, some (.leaf (.str p)) =>
    .ok (selfValue input
      (p.length ≤ s.length && horspool s.toList p.toList (s.length + 1) p.length))
  | .str s, some (.table arr _) =>
    if s.length < arr.length then .ok (false, none)
    else if arr = [] then .ok (selfValue input true)
    else .error "attempt to call method 'sub'"
  | _, _ => .error "attempt to get length"

def strMatch (input : Val) (pattern : Option Val) : Except String Found :=
  overIpairs (strMatchScalar pattern) input

/-! ## Card numbers -/

/-- The Luhn sum of the digits, as the loop adds them up. -/
def luhnSum (digits : List Nat) : Nat :=
  let odd := digits.length % 2
  (digits.mapIdx fun count digit =>
    let digit := if (count % 2) ^^^ odd = 0 then digit * 2 else digit
    if digit > 9 then digit - 9 else digit).sum

def verifyCcScalar (env : OpEnv) (pattern : Option Val) (input : Scalar) : Except String Found := do
  let (m, _) ← refindScalar env pattern input
  if !m then return (false, none)
  let digits := input.tostring.toList.filter Char.isDigit
  if luhnSum (digits.map fun c => c.toNat - '0'.toNat) % 10 = 0 then
    return (true, some (.leaf (.str (String.ofList digits))))
  else return (false, none)

/-- Unlike the others this one goes through `pairs`. -/
def verifyCc (env : OpEnv) (input : Val) (pattern : Option Val) : Except String Found :=
  overPairs (verifyCcScalar env pattern) input

/-! ## The lookup table -/

/-- `operators.lookup[operator](waf, collection, pattern, ctx)` -/
def lookup (env : OpEnv) (dicts : Dicts) (ctx : OpCtx) (operator : Operator) (collection : Val)
    (pattern : Option Val) : Except String Found × Dicts :=
  match operator with
  | .REGEX => (regex env collection pattern, dicts)
  | .REFIND => (refind env collection pattern, dicts)
  | .EQUALS => (equals collection pattern, dicts)
  | .GREATER => (greater collection pattern, dicts)
  | .LESS => (less collection pattern, dicts)
  | .GREATER_EQ => (greaterEquals collection pattern, dicts)
  | .LESS_EQ => (lessEquals collection pattern, dicts)
  | .EXISTS => (exists_ collection pattern, dicts)
  | .CONTAINS => (contains collection pattern, dicts)
  | .STR_EXISTS => (strFind pattern (some collection), dicts)
  | .STR_CONTAINS => (strFind (some collection) pattern, dicts)
  | .PM => acLookup env dicts ctx collection pattern
  | .CIDR_MATCH => (cidrMatch env collection pattern, dicts)
  | .RBL_LOOKUP => (rblLookup env ctx collection pattern, dicts)
  | .DETECT_SQLI => (detectSqli env collection, dicts)
  | .DETECT_XSS => (detectXss env collection, dicts)
  | .STR_MATCH => (strMatch collection pattern, dicts)
  | .VERIFY_CC => (verifyCc env collection pattern, dicts)

end OpenResty.Waf
