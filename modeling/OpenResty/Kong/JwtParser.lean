/-
kong/plugins/jwt/jwt_parser.lua: `new`, from the token to a parser, and
`verify_signature`.

`cjson.decode` and luacrypto are parameters; `ngx.decode_base64` is nginx's own. A JSON
value is what Lua makes of it: null is a userdata, an array and an object are tables.
An error is what is raised; what is returned beside nil is a value.
-/
import OpenResty.Kong.AsnSequence

namespace OpenResty.Kong.JwtParser

open Lib AsnSequence List

/-! ## JSON values -/

/-- What `cjson.decode` returns. -/
inductive Json
  | null
  | bool (b : Bool)
  | num (q : Rat)
  | str (s : Bytes)
  | arr (items : List Json)
  | obj (members : List (Bytes × Json))

namespace Json

def isTable : Json → Bool
  | arr _ | obj _ => true
  | _ => false

def truthy : Option Json → Bool
  | none | some (bool false) => false
  | _ => true

/-- A test of a member that is neither of the string library nor of an array: the last of its name. -/
def index (name : Bytes) : Json → Except String (Option Json)
  | obj members => .ok (members.reverse.lookup name)
  | arr _ | str _ => .ok none
  | num _ => .error "attempt to index a number value"
  | bool _ => .error "attempt to index a boolean value"
  | null => .error "attempt to index a userdata value"

end Json

def text (s : String) : Bytes := s.toList.map Char.toUInt8

/-- `string.upper` -/
def upper (s : Bytes) : Bytes := s.map fun c => if 97 ≤ c ∧ c ≤ 122 then c - 32 else c

/-! ## Base 64 -/

/-- `ngx_decode_base64`'s table -/
def basis64 (c : UInt8) : Option UInt8 :=
  if 'A'.toUInt8 ≤ c ∧ c ≤ 'Z'.toUInt8 then some (c - 'A'.toUInt8)
  else if 'a'.toUInt8 ≤ c ∧ c ≤ 'z'.toUInt8 then some (c - 'a'.toUInt8 + 26)
  else if '0'.toUInt8 ≤ c ∧ c ≤ '9'.toUInt8 then some (c - '0'.toUInt8 + 52)
  else if c = '+'.toUInt8 then some 62
  else if c = '/'.toUInt8 then some 63
  else none

/-- The bytes of the values up to the end, four of them at a time. -/
def joinSextets : List UInt8 → Bytes
  | a :: b :: c :: d :: s => (a <<< 2 ||| b >>> 4) :: (b <<< 4 ||| c >>> 2) :: (c <<< 6 ||| d) :: joinSextets s
  | [a, b, c] => [a <<< 2 ||| b >>> 4, b <<< 4 ||| c >>> 2]
  | [a, b] => [a <<< 2 ||| b >>> 4]
  | _ => []

/-- `ngx.decode_base64` -/
def decode_base64 (src : Bytes) : Option Bytes :=
  match (src.takeWhile (· ≠ '='.toUInt8)).mapM basis64 with
  | some s => if s.length % 4 = 1 then none else some (joinSextets s)
  | none => none

def b64_decode (input : Option Bytes) : Except String (Option Bytes) :=
  match input with
  | none => .error "attempt to get length of local 'input' (a nil value)"
  | some input =>
    let remainder := input.length % 4
    let input := if remainder > 0 then input ++ replicate (4 - remainder) '='.toUInt8 else input
    .ok (decode_base64 (input.map fun c => if c = '-'.toUInt8 then '+'.toUInt8 else if c = '_'.toUInt8 then '/'.toUInt8 else c))

/-! ## The parser -/

/-- `tokenize`, with `part` before the rest of the string. -/
def tokenizeFrom (div : UInt8) (len : Int) (part : Bytes) : Bytes → List Bytes
  | [] => [part]
  | c :: str =>
    if c = div then if len - 1 ≤ 1 then [part, str] else part :: tokenizeFrom div (len - 1) [] str
    else tokenizeFrom div len (part ++ [c]) str

def tokenize (str : Bytes) (div : UInt8) (len : Int) : List Bytes := tokenizeFrom div len [] str

/-- The keys of `alg_verify`. -/
inductive Alg
  | HS256
  | RS256
  | RS512
  | ES256

def alg? (name : Bytes) : Option Alg :=
  if name = text "HS256" then some .HS256
  else if name = text "RS256" then some .RS256
  else if name = text "RS512" then some .RS512
  else if name = text "ES256" then some .ES256
  else none

structure Parser where
  token : Bytes
  header_64 : Bytes
  claims_64 : Bytes
  signature_64 : Bytes
  header : Json
  claims : Json
  signature : Bytes
  /-- `header.alg`, which is a key of `alg_verify`. -/
  alg : Alg

/-- `json.decode(b64_decode(part_64))`, which raises for nil and for what is no JSON. -/
def decodePart (cjson : Bytes → Except String Json) (part_64 : Option Bytes) : Except String Json := do
  match ← b64_decode part_64 with
  | none => .error "bad argument #1 to 'decode' (string expected, got nil)"
  | some part => cjson part

/-- The function that `pcall` runs. -/
def decodeParts (cjson : Bytes → Except String Json) (token : Bytes) : Except String (Json × Json × Option Bytes) := do
  let parts := tokenize token '.'.toUInt8 3
  let header ← decodePart cjson parts[0]?
  let claims ← decodePart cjson parts[1]?
  let signature ← b64_decode parts[2]?
  return (header, claims, signature)

/-- `header.typ and header.typ:upper() ~= "JWT"` -/
def badTyp (header : Json) : Except String Bool := do
  match ← header.index (text "typ") with
  | none | some (.bool false) => return false
  | some (.str typ) => return upper typ ≠ text "JWT"
  | some typ =>
    let method ← typ.index (text "upper")
    match method with
    | none => .error "attempt to call method 'upper' (a nil value)"
    | some _ => .error "attempt to call method 'upper'"

/-- The algorithm of `header.alg`, if it is one. -/
def headerAlg (header : Json) : Except String (Option Alg) := do
  match ← header.index (text "alg") with
  | some (.str alg) => return alg? alg
  | _ => return none

/-- `decode_token`: a parser or an error beside nil. -/
def decode_token (cjson : Bytes → Except String Json) (token : Bytes) : Except String (Except String Parser) :=
  match decodeParts cjson token with
  | .error _ => .ok (.error "invalid JSON")
  | .ok (header, claims, signature) => do
    if ← badTyp header then return .error "invalid typ"
    match ← headerAlg header with
    | none => return .error "invalid alg"
    | some alg =>
      if ¬ Json.truthy (some claims) then return .error "invalid claims"
      match signature with
      | none => return .error "invalid signature"
      | some signature =>
        let parts := tokenize token '.'.toUInt8 3
        return .ok { token, header_64 := parts[0]?.getD [], claims_64 := parts[1]?.getD [],
                     signature_64 := parts[2]?.getD [], header, claims, signature, alg }

/-- `new`, whose token is a string. -/
def new (cjson : Bytes → Except String Json) (token : Bytes) : Except String (Except String Parser) :=
  decode_token cjson token

/-! ## Signatures -/

/-- luacrypto; some text is a key. -/
structure Crypto where
  Pkey : Type
  from_pem : Bytes → Option Pkey
  digest : Bytes → Bytes → Bytes
  verify : String → Bytes → Bytes → Pkey → Bool
  pem : Bytes
  pem_isSome : (from_pem pem).isSome = true

/-- `assert(crypto.pkey.from_pem(key), ...)` -/
def publicKey (crypto : Crypto) (key : Bytes) : Except String crypto.Pkey :=
  match crypto.from_pem key with
  | some pkey => .ok pkey
  | none => .error "Consumer Public Key is Invalid"

def alg_verify (crypto : Crypto) (alg : Alg) (data signature key : Bytes) : Except String Bool :=
  match alg with
  | .HS256 => .ok (signature = crypto.digest data key)
  | .RS256 => do
    let pkey ← publicKey crypto key
    return crypto.verify "sha256" data signature pkey
  | .RS512 => do
    let pkey ← publicKey crypto key
    return crypto.verify "sha512" data signature pkey
  | .ES256 => do
    let pkey ← publicKey crypto key
    let asn ← signatureAsn signature
    return crypto.verify "sha256" data asn pkey

def Parser.verify_signature (crypto : Crypto) (self : Parser) (key : Bytes) : Except String Bool :=
  alg_verify crypto self.alg (self.header_64 ++ text "." ++ self.claims_64) self.signature key

/-! ## What `new` returns -/

variable {cjson : Bytes → Except String Json} {crypto : Crypto} {token : Bytes} {header claims : Json}

/-- A parser as it is to be: two tables, an algorithm, and for `ES256` an answer to every signature of 64 bytes. -/
structure Sound (crypto : Crypto) (p : Parser) : Prop where
  header : p.header.isTable = true
  claims : p.claims.isTable = true
  alg : headerAlg p.header = .ok (some p.alg)
  verified : p.alg = .ES256 → p.signature.length = 64 → ∀ key, (crypto.from_pem key).isSome = true →
    ∃ b, p.verify_signature crypto key = .ok b

/-- Nothing is raised, and a parser that is returned is sound. -/
def Right (cjson : Bytes → Except String Json) (crypto : Crypto) (token : Bytes) : Prop :=
  ∃ r, new cjson token = .ok r ∧ ∀ p, r = .ok p → Sound crypto p

/-- A header that has members, or could have them, and no `typ` but a string or `false`. -/
def Typed (header : Json) : Prop :=
  ∃ typ, header.index (text "typ") = .ok typ ∧ (typ = none ∨ typ = some (.bool false) ∨ ∃ s, typ = some (.str s))

/-- A token with a header of that kind; if all its parts are taken, its claims are a table, and
of a signature of 64 bytes for `ES256` no half is zero. -/
def Careful (cjson : Bytes → Except String Json) (token : Bytes) : Prop :=
  ∀ header claims signature, decodeParts cjson token = .ok (header, claims, signature) →
    Typed header ∧ ∀ alg sig, badTyp header = .ok false → headerAlg header = .ok (some alg) →
      Json.truthy (some claims) = true → signature = some sig →
      claims.isTable = true ∧ (alg = .ES256 → sig.length = 64 →
        sig.take 32 ≠ replicate 32 0 ∧ sig.drop 32 ≠ replicate 32 0)

theorem badTyp_ok : (∃ b, badTyp header = .ok b) ↔ Typed header := by
  rw [Typed]
  unfold badTyp
  cases h : header.index (text "typ") with
  | error e =>
    constructor
    · rintro ⟨b, hb⟩
      cases hb
    · rintro ⟨typ, htyp, -⟩
      cases htyp
  | ok typ =>
    constructor
    · rintro ⟨b, hb⟩
      refine ⟨typ, rfl, ?_⟩
      rcases typ with _ | typ
      · exact .inl rfl
      cases typ with
      | bool b =>
        cases b with
        | false => exact .inr (.inl rfl)
        | true => cases hb
      | str s => exact .inr (.inr ⟨s, rfl⟩)
      | null => cases hb
      | num q => cases hb
      | arr items => cases hb
      | obj members =>
        simp only [bind, Except.bind, Json.index] at hb
        split at hb <;> cases hb
    · rintro ⟨_, htyp, hkind⟩
      cases htyp
      rcases hkind with rfl | rfl | ⟨s, rfl⟩
      · exact ⟨_, rfl⟩
      · exact ⟨_, rfl⟩
      · exact ⟨_, rfl⟩

/-- Where one member can be asked for, every one can. -/
theorem index_ok {name : Bytes} {v : Option Json} (h : header.index name = .ok v) (name' : Bytes) :
    ∃ v', header.index name' = .ok v' := by
  cases header with
  | obj members => exact ⟨_, rfl⟩
  | arr items => exact ⟨_, rfl⟩
  | str s => exact ⟨_, rfl⟩
  | num q => cases h
  | bool b => cases h
  | null => cases h

theorem headerAlg_ok (h : Typed header) : ∃ alg, headerAlg header = .ok alg := by
  obtain ⟨typ, htyp, -⟩ := h
  obtain ⟨v, hv⟩ := index_ok htyp (text "alg")
  unfold headerAlg
  rw [hv]
  simp only [bind, Except.bind]
  split <;> exact ⟨_, rfl⟩

/-- An algorithm is found in a table only. -/
theorem isTable_of_headerAlg {alg : Alg} (h : headerAlg header = .ok (some alg)) : header.isTable = true := by
  cases header with
  | obj members => rfl
  | arr items => rfl
  | str s => cases h
  | num q => cases h
  | bool b => cases h
  | null => cases h

theorem publicKey_ok {key : Bytes} (h : (crypto.from_pem key).isSome = true) :
    ∃ pkey, publicKey crypto key = .ok pkey := by
  obtain ⟨pkey, hpkey⟩ := Option.isSome_iff_exists.mp h
  exact ⟨pkey, by rw [publicKey, hpkey]⟩

/-- The answer to a signature of 64 bytes. -/
theorem verify_ES256_iff {data sig key : Bytes} (hkey : (crypto.from_pem key).isSome = true) (hlen : sig.length = 64) :
    (∃ b, alg_verify crypto .ES256 data sig key = .ok b) ↔
      sig.take 32 ≠ replicate 32 0 ∧ sig.drop 32 ≠ replicate 32 0 := by
  obtain ⟨pkey, hpkey⟩ := publicKey_ok hkey
  have hhalves : sig = sig.take 32 ++ sig.drop 32 := (take_append_drop 32 sig).symm
  let r : Half := ⟨sig.take 32, by rw [length_take, hlen]; rfl⟩
  let s : Half := ⟨sig.drop 32, by rw [length_drop, hlen]⟩
  rw [alg_verify, hpkey]
  simp only [bind, Except.bind]
  constructor
  · rintro ⟨b, hb⟩
    by_contra hzero
    have hraise : signatureAsn sig = .error "attempt to compare nil with number" := by
      rw [hhalves]
      exact signatureAsn_zeros (r := r) (s := s) (by tauto)
    rw [hraise] at hb
    cases hb
  · rintro ⟨hr, hs⟩
    obtain ⟨der, hder, -⟩ := roundTrip (r := r) (s := s) hr hs
    rw [show signatureAsn sig = .ok der by rw [hhalves]; exact hder]
    exact ⟨_, rfl⟩

/-- What is returned for decoded parts, once `typ` and `alg` have been read. -/
def answer (token : Bytes) (header claims : Json) (signature : Option Bytes) (invalidTyp : Bool) (alg : Option Alg) :
    Except String Parser :=
  if invalidTyp then .error "invalid typ"
  else
    match alg with
    | none => .error "invalid alg"
    | some alg =>
      if Json.truthy (some claims) then
        match signature with
        | none => .error "invalid signature"
        | some signature =>
          let parts := tokenize token '.'.toUInt8 3
          .ok { token, header_64 := parts[0]?.getD [], claims_64 := parts[1]?.getD [],
                signature_64 := parts[2]?.getD [], header, claims, signature, alg }
      else .error "invalid claims"

theorem decode_token_ok {signature : Option Bytes} (hparts : decodeParts cjson token = .ok (header, claims, signature))
    {b : Bool} {alg : Option Alg} (htyp : badTyp header = .ok b) (halg : headerAlg header = .ok alg) :
    decode_token cjson token = .ok (answer token header claims signature b alg) := by
  rw [decode_token, hparts]
  simp only [bind, Except.bind, htyp, halg]
  cases b with
  | true => rfl
  | false =>
    cases alg with
    | none => rfl
    | some alg =>
      cases hclaims : Json.truthy (some claims) with
      | false =>
        simp only [answer, hclaims]
        rfl
      | true =>
        simp only [answer, hclaims]
        cases signature <;> rfl

/-- **A token raises nothing and makes no unsound parser if and only if it is careful.** -/
theorem new_right_iff (cjson : Bytes → Except String Json) (crypto : Crypto) (token : Bytes) :
    Right cjson crypto token ↔ Careful cjson token := by
  rw [Right, Careful, new]
  cases hparts : decodeParts cjson token with
  | error e =>
    constructor
    · intro _ _ _ _ h
      cases h
    · intro _
      refine ⟨.error "invalid JSON", ?_, fun p hp => (by cases hp)⟩
      rw [decode_token, hparts]
  | ok parts =>
    obtain ⟨header, claims, signature⟩ := parts
    constructor
    · rintro ⟨r, hnew, hsound⟩ _ _ _ heq
      cases heq
      have htyped : Typed header := by
        rw [← badTyp_ok]
        cases h : badTyp header with
        | ok b => exact ⟨b, rfl⟩
        | error e =>
          rw [decode_token, hparts] at hnew
          simp only [bind, Except.bind, h] at hnew
          cases hnew
      refine ⟨htyped, fun alg sig htyp halg hclaims hsig => ?_⟩
      rw [decode_token_ok hparts htyp halg] at hnew
      cases hsig
      simp only [answer, hclaims, if_true, Bool.false_eq_true, if_false, Except.ok.injEq] at hnew
      have hp := hsound _ hnew.symm
      refine ⟨hp.claims, fun hES hlen => ?_⟩
      cases hES
      exact (verify_ES256_iff crypto.pem_isSome hlen).mp (hp.verified rfl hlen crypto.pem crypto.pem_isSome)
    · intro hcareful
      obtain ⟨htyped, htaken⟩ := hcareful header claims signature rfl
      obtain ⟨b, htyp⟩ := badTyp_ok.mpr htyped
      obtain ⟨alg, halg⟩ := headerAlg_ok htyped
      refine ⟨_, decode_token_ok hparts htyp halg, fun p hp => ?_⟩
      cases b with
      | true => cases hp
      | false =>
        cases alg with
        | none => cases hp
        | some alg =>
          cases hclaims : Json.truthy (some claims) with
          | false =>
            simp only [answer, hclaims, Bool.false_eq_true, if_false] at hp
            cases hp
          | true =>
            simp only [answer, hclaims, Bool.false_eq_true, if_false, if_true] at hp
            cases signature with
            | none => cases hp
            | some sig =>
              obtain ⟨htable, hhalves⟩ := htaken alg sig htyp halg hclaims rfl
              cases hp
              refine ⟨isTable_of_headerAlg halg, htable, halg, fun hES hlen key hkey => ?_⟩
              cases hES
              exact (verify_ES256_iff hkey hlen).mpr (hhalves rfl hlen)

/-- What `cjson.decode` makes of two texts. -/
def someJson (part : Bytes) : Except String Json :=
  if part = text "null" then .ok .null
  else if part = text "\x7b\x7d" then .ok (.obj [])
  else .error "Expected value but found invalid token at character 1"

/-- luacrypto with one key, for which no signature is right. -/
def someCrypto : Crypto where
  Pkey := Unit
  from_pem key := if key = text "key" then some () else none
  digest _ _ := []
  verify _ _ _ _ := false
  pem := text "key"
  pem_isSome := rfl

/-- The header is null, and its `typ` is asked for. -/
theorem not_right_null : ¬ Right someJson someCrypto (text "bnVsbA.e30.") := by
  rintro ⟨r, hnew, -⟩
  revert hnew
  have hparts : decodeParts someJson (text "bnVsbA.e30.") = .ok (.null, .obj [], some []) := rfl
  rw [new, decode_token, hparts]
  exact fun hnew => by cases hnew

end OpenResty.Kong.JwtParser
