/-
kong/tools/utils.lua, the part on hosts: hostname_type, normalize_ipv4, normalize_ipv6,
check_hostname, normalize_ip and format_host, on bytes.

A text is an address by exclusion: more than one colon makes it IPv6. The IPv6 text is patched,
a zero at an end with a colon and zeros for the first pair of colons, and then it must be eight
groups. So a single colon at an end counts as a pair there, and a pair may stand for no group.
-/
import OpenResty.Lib.Resp
import OpenResty.Resty.DnsIpv6

namespace OpenResty.Kong.NormalizeIp

open Lib.Backtrack (Bytes times sub)
open Lib.Resp (decimal)
open Resty.DnsAddr (COLON_CHAR ZERO_CHAR DOT_CHAR Group digitValue text tail orZero Spells)

def LEFT_BRACKET : UInt8 := 91

def RIGHT_BRACKET : UInt8 := 93

def MINUS_CHAR : UInt8 := 45

def UNDERSCORE_CHAR : UInt8 := 95

/-- A text as a literal. -/
def lit (s : String) : Bytes := s.toList.map fun c => UInt8.ofNat c.toNat

/-- `%d` -/
def isDigit (c : UInt8) : Bool := 48 ≤ c.toNat && c.toNat ≤ 57

/-- `%a` -/
def isAlpha (c : UInt8) : Bool := (65 ≤ c.toNat && c.toNat ≤ 90) || (97 ≤ c.toNat && c.toNat ≤ 122)

/-- `%x` -/
def isHex (c : UInt8) : Bool := (digitValue c).isSome

def lower (c : UInt8) : UInt8 := if 65 ≤ c.toNat ∧ c.toNat ≤ 90 then c + 32 else c

/-- `tonumber` of a text of digits, which is not a number when it is empty. -/
def tonumber (ds : Bytes) : Option Nat :=
  if ds = [] then none else some (ds.foldl (fun v d => 10 * v + (d.toNat - 48)) 0)

/-- A match of `count` captures, each of one to `most` bytes of a class, with a separator between
them that is not of the class. -/
def captures (cls : UInt8 → Bool) (most : Nat) (separator : UInt8) (count : Nat) (t : Bytes) : Option (List Bytes) :=
  let fields := t.splitOn separator
  if fields.length = count ∧ ∀ field ∈ fields, 0 < field.length ∧ field.length ≤ most ∧ field.all cls = true then
    some fields
  else none

/-- What a function returns: a value, or nil and an error, if it does not raise. -/
inductive Outcome (α : Type)
  | returns (value : α)
  | fails (err : Bytes)
  | raises (message : String)
deriving DecidableEq

inductive HostType
  | ipv4
  | ipv6
  | name
deriving DecidableEq

def hostname_type (name : Bytes) : HostType :=
  let remainder := name.filter (· ≠ COLON_CHAR)
  if 1 < name.count COLON_CHAR then .ipv6
  else if remainder ≠ [] ∧ remainder.all (fun c => isDigit c || c = DOT_CHAR) = true then .ipv4
  else .name

def normalize_ipv4 (address : Bytes) : Outcome (Bytes × Option Nat) :=
  let matched :=
    if COLON_CHAR ∈ address then
      let before := address.takeWhile (· ≠ COLON_CHAR)
      let port := (address.dropWhile (· ≠ COLON_CHAR)).drop 1
      if port ≠ [] ∧ port.all isDigit = true then
        (captures isDigit 3 DOT_CHAR 4 before).map fun quad => (quad.filterMap tonumber, tonumber port)
      else none
    else (captures isDigit 3 DOT_CHAR 4 address).map fun quad => (quad.filterMap tonumber, none)
  match matched with
  | some (quad, port) =>
    if ∃ n ∈ quad, 255 < n then .fails (lit "invalid ipv4 address: " ++ address)
    else if 65535 < port.getD 0 then .fails (lit "invalid port number")
    else .returns ([DOT_CHAR].intercalate (quad.map decimal), port)
  | none => .fails (lit "invalid ipv4 address: " ++ address)

/-- `%b[]` behind its first bracket: the text up to the bracket that closes it, and the rest. -/
def closing : Nat → Bytes → Option (Bytes × Bytes)
  | _, [] => none
  | depth, c :: t =>
    if c = RIGHT_BRACKET then
      match depth with
      | 0 => some ([], t)
      | depth + 1 => (closing depth t).map fun (check, rest) => (c :: check, rest)
    else
      (closing (if c = LEFT_BRACKET then depth + 1 else depth) t).map fun (check, rest) => (c :: check, rest)

/-- `^(%b[])(.-)$`, the first capture without its brackets -/
def brackets : Bytes → Option (Bytes × Bytes)
  | [] => none
  | c :: t => if c = LEFT_BRACKET then closing 0 t else none

/-- The text with eight groups, if it is one. -/
def expand (check : Bytes) : Bytes :=
  let check := if check.head? = some COLON_CHAR then ZERO_CHAR :: check else check
  let check := if check.getLast? = some COLON_CHAR then check ++ [ZERO_CHAR] else check
  if [COLON_CHAR, COLON_CHAR] <:+: check then
    let count := check.count COLON_CHAR
    sub (.lit [COLON_CHAR, COLON_CHAR]) check (COLON_CHAR :: times (8 - count) [ZERO_CHAR, COLON_CHAR])
  else check

/-- A group in four digits. -/
def padded (group : Bytes) : Bytes := (List.replicate (4 - group.length) ZERO_CHAR ++ group).map lower

def normalizeGroups (address check : Bytes) (port : Option Nat) : Outcome (Bytes × Option Nat) :=
  match captures isHex 4 COLON_CHAR 8 (expand check) with
  | some groups => .returns ([COLON_CHAR].intercalate (groups.map padded), port)
  | none => .fails (lit "invalid ipv6 address: " ++ address)

def normalize_ipv6 (address : Bytes) : Outcome (Bytes × Option Nat) :=
  match brackets address with
  | none => normalizeGroups address address none
  | some (check, []) => normalizeGroups address check none
  | some (check, c :: port) =>
    if c = COLON_CHAR ∧ port.all isDigit = true then
      match tonumber port with
      | none => .raises "attempt to compare number with nil"
      | some port => if 65535 < port then .fails
          (lit "invalid port number") else normalizeGroups address check (some port)
    else .fails (lit "invalid ipv6 address")

/-- `:(%d+)$` -/
def portSuffix (address : Bytes) : Option Bytes :=
  let port := (address.reverse.takeWhile (· ≠ COLON_CHAR)).reverse
  if COLON_CHAR ∈ address ∧ port ≠ [] ∧ port.all isDigit = true then some port else none

section

-- `split` is penlight's, at a separator
variable (split : Bytes → Bytes → List Bytes)

def check_hostname (address : Bytes) : Outcome (Bytes × Option Nat) :=
  let port := portSuffix address
  let name := port.elim address fun port => address.take (address.length - (port.length + 1))
  if 65535 < (port.bind tonumber).getD 0 then .fails (lit "invalid port number")
  else if name = [] ∨
      name.all (fun c => isDigit c || isAlpha c || c = MINUS_CHAR || c = DOT_CHAR || c = UNDERSCORE_CHAR) = false then
    .fails (lit "invalid hostname: " ++ address)
  else if ∃ segment ∈ split name [DOT_CHAR], segment = [] ∨ segment.getLast? = some MINUS_CHAR ∨
      segment.head? = some DOT_CHAR ∨ segment.getLast? = some DOT_CHAR then
    .fails (lit "invalid hostname: " ++ address)
  else .returns (name, port.bind tonumber)

structure Ip where
  type : HostType
  host : Bytes
  port : Option Nat
deriving DecidableEq

def verify_types : HostType → Bytes → Outcome (Bytes × Option Nat)
  | .ipv4 => normalize_ipv4
  | .ipv6 => normalize_ipv6
  | .name => check_hostname split

def normalize_ip (address : Bytes) : Outcome Ip :=
  let type := hostname_type address
  match verify_types split type address with
  | .returns (host, port) => .returns { type, host, port }
  | .fails err => .fails err
  | .raises message => .raises message

end

/-- The first argument of `format_host`. -/
inductive Formattable
  /-- with the error behind it -/
  | nil (err : Bytes)
  /-- a table, which may have no type and no port -/
  | table (type : Option HostType) (host : Bytes) (port : Option Nat)
  | text (host : Bytes)
  | other (type : String)

def format_host (p1 : Formattable) (p2 : Option Nat) : Outcome Bytes :=
  let format (type : HostType) (host : Bytes) (port : Option Nat) : Bytes :=
    let suffix := port.elim [] fun port => COLON_CHAR :: decimal port
    if type = .ipv6 ∧ LEFT_BRACKET ∉ host then LEFT_BRACKET :: host ++ [RIGHT_BRACKET] ++ suffix else host ++ suffix
  match p1 with
  | .nil err => .fails err
  | .table type host port => .returns (format (type.getD (hostname_type host)) host (port.or p2))
  | .text host => .returns (format (hostname_type host) host p2)
  | .other type => .fails (lit ("cannot format type '" ++ type ++ "'"))

def Ip.formattable (ip : Ip) : Formattable := .table (some ip.type) ip.host ip.port

/-! ## Addresses -/

/-- What a text of an address denotes: four bytes, or eight groups. -/
inductive Address
  | ipv4 (bytes : List Nat)
  | ipv6 (groups : List Nat)

/-- A number up to 255 in one to three digits. -/
def Byte (field : Bytes) (n : Nat) : Prop :=
  0 < field.length ∧ field.length ≤ 3 ∧ field.all isDigit = true ∧ tonumber field = some n ∧ n ≤ 255

/-- A port behind its colon, if there is one. -/
inductive PortText : Bytes → Option Nat → Prop
  | none : PortText [] none
  | some {ds : Bytes} {port : Nat} (hdigits : ds.all isDigit = true) (hport : tonumber ds = some port)
      (h : port ≤ 65535) : PortText (COLON_CHAR :: ds) (some port)

/-- An IPv6 text alone, or in brackets with a port. -/
inductive Wrapped : Bytes → Bytes → Prop
  | plain (t : Bytes) : Wrapped t t
  | bracketed (t : Bytes) {suffix : Bytes} {port : Option Nat} (h : PortText suffix port) :
      Wrapped (LEFT_BRACKET :: t ++ RIGHT_BRACKET :: suffix) t

inductive Denotes : Bytes → Address → Prop
  | ipv4 {fields : List Bytes} {ns : List Nat} {suffix : Bytes} {port : Option Nat} (hlength : fields.length = 4)
      (hfields : List.Forall₂ Byte fields ns) (h : PortText suffix port) :
      Denotes ([DOT_CHAR].intercalate fields ++ suffix) (.ipv4 ns)
  | ipv6 {address t : Bytes} {ns : List Nat} (hwrapped : Wrapped address t) (h : Spells t ns) :
      Denotes address (.ipv6 ns)

/-! ## What is asked of it -/

/-- For two texts: nothing is raised; IPv6 is accepted where the text is valid; the hosts of addresses agree
where the addresses do; and a formatted result is read back. -/
structure Right (split : Bytes → Bytes → List Bytes) (a b : Bytes) : Prop where
  total : ∀ t ∈ [a, b], ∀ message, normalize_ip split t ≠ .raises message
  valid : ∀ t ∈ [a, b],
    (∃ ip, normalize_ip split t = .returns ip ∧ ip.type = .ipv6) ↔ ∃ groups, Denotes t (.ipv6 groups)
  same : ∀ ip ip', normalize_ip split a = .returns ip → normalize_ip split b = .returns ip' → ip.type ≠ .name →
    ip'.type ≠ .name → (ip.host = ip'.host ↔ ∃ address, Denotes a address ∧ Denotes b address)
  idempotent : ∀ t ∈ [a, b], ∀ ip, normalize_ip split t = .returns ip →
    ∃ u, format_host ip.formattable none = .returns u ∧ normalize_ip split u = .returns ip

/-- A colon, or none. -/
def edge (b : Bool) : Bytes := if b then [COLON_CHAR] else []

/-- The texts that are read as addresses and are none. -/
inductive Slip : Bytes → Prop
  /-- A single colon at an end, for a group. -/
  | stray (first last : Bool) (gs : List Group) (h : first ∨ last)
      (hlength : first.toNat + gs.length + last.toNat = 8) : Slip (edge first ++ text gs ++ edge last)
  /-- A single colon at an end, beside a pair. -/
  | beside (first last : Bool) (pre rest : List Group) (h : first ∨ last) (hpre : first → pre ≠ [])
      (hrest : last → rest ≠ [])
      (hlength : first.toNat + (orZero pre).length + (orZero rest).length + last.toNat ≤ 8) :
      Slip (edge first ++ text pre ++ [COLON_CHAR, COLON_CHAR] ++ text rest ++ edge last)
  /-- A pair that stands for no group. -/
  | nothing (pre rest : List Group) (hpre : pre ≠ []) (hrest : rest ≠ []) (hlength : pre.length + rest.length = 8) :
      Slip (text pre ++ [COLON_CHAR, COLON_CHAR] ++ text rest)

/-- The text has no port behind brackets and their colon, and is no slip. -/
structure Careful (a : Bytes) : Prop where
  port : hostname_type a = .ipv6 → ∀ check, brackets a ≠ some (check, [COLON_CHAR])
  groups : ∀ t, Wrapped a t → ¬ Slip t

end OpenResty.Kong.NormalizeIp
