/-
`util.parse_dynamic_value`: the expansion of `%{...}` macros.
-/
import OpenResty.Lua.Value

namespace OpenResty.Waf

open Lua

/-- The text up to the brace that closes `depth + 1` open ones, and what follows it. -/
def closeBrace : Nat → List Char → Option (List Char × List Char)
  | _, [] => none
  | depth, c :: cs =>
    if c = '}' then
      match depth with
      | 0 => some ([], cs)
      | depth + 1 => (closeBrace depth cs).map fun (body, rest) => (c :: body, rest)
    else if c = '{' then (closeBrace (depth + 1) cs).map fun (body, rest) => (c :: body, rest)
    else (closeBrace depth cs).map fun (body, rest) => (c :: body, rest)

/-- `string_gsub(key, "%%%b{}", lookup)`, given what `lookup` makes of the text
between the braces; nil leaves the macro as it is. The text's length is fuel enough. -/
def expandMacros (macro_ : List Char → Except String (Option (List Char))) :
    Nat → List Char → Except String (List Char)
  | 0, cs => .ok cs
  | _, [] => .ok []
  | fuel + 1, c :: cs =>
    match c, cs with
    | '%', '{' :: rest =>
      match closeBrace 0 rest with
      | some (body, after) => do
        let text := (← macro_ body).getD ('%' :: '{' :: body ++ ['}'])
        return text ++ (← expandMacros macro_ fuel after)
      | none => do return c :: (← expandMacros macro_ fuel cs)
    | _, _ => do return c :: (← expandMacros macro_ fuel cs)

/-- The position of the first `.` from the third character on: the start index is cheated on. -/
def macroDot (body : List Char) : Option Nat := ((body.drop 2).findIdx? (· == '.')).map (· + 2)

/-- `lookup` of `parse_dynamic_value`: what stands for the macro `body`. -/
def macroValue (collections : String → Option Val) (body : List Char) : Except String (Option (List Char)) :=
  let val := String.ofList (((macroDot body).map body.take).getD body)
  let specific := (macroDot body).map fun dot => String.ofList (body.drop (dot + 1))
  match collections val with
  | some (.table arr hash) =>
    match specific with
    | some specific =>
      let lval := Val.table arr hash
      let found := lval.index (.str specific)
      let found := if truthy found then found else lval.index (.str (lower specific))
      .ok (some ((found.map Val.tostring).getD "nil").toList)
    | none => .ok (some val.toList)
  | none | some (.leaf (.bool false)) => .ok none
  | some (.leaf (.bool true)) => .error "invalid replacement value (a boolean)"
  | some (.leaf s) => .ok (some s.tostring.toList)

def parseDynamicValue (collections : String → Option Val) (key : Scalar) : Except String Scalar :=
  match key with
  | .bool _ => .error "bad argument #1 to 'gsub' (string expected, got boolean)"
  | key => do
    let text := key.tostring.toList
    return numOrStr (String.ofList (← expandMacros (macroValue collections) text.length text))

end OpenResty.Waf
