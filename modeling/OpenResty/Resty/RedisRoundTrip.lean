/-
Round trips through `redis-parser.c`: requests are parsed to what they were
built from, and encoded replies to what they say.
-/
import OpenResty.Resty.RedisParserFacts

namespace OpenResty.Resty.RedisParser

open Lib.Resp List Nat

variable {ν : Type} {rest : Bytes} {st : Stack}

/-! ## Replies -/

/-- The replies that the parser knows: the elements of a multi-bulk reply have none
themselves, and are counted by an `int`. -/
inductive FlatReply
  | item (i : Lib.Resp.Item)
  | multi (items : { items : List Lib.Resp.Item // items.length < 2 ^ 31 })
  | nullMulti

namespace FlatReply

def toReply : FlatReply → Reply
  | item i => .item i
  | multi items => .multi (items.1.map .item)
  | nullMulti => .nullMulti

def encode (r : FlatReply) : Bytes := r.toReply.encode

/-- The value and the type that a reply is to be parsed to. -/
def value : FlatReply → LVal × LVal
  | item (.status s) => (.str s.1, .num STATUS_REPLY)
  | item (.error s) => (.str s.1, .num ERROR_REPLY)
  | item (.integer n) => (.num n, .num INTEGER_REPLY)
  | item (.bulk s) => (.str s.1, .num BULK_REPLY)
  | item .null => (.nil, .num BULK_REPLY)
  | multi items => (.array (items.1.map elementValue), .num MULTI_BULK_REPLY)
  | nullMulti => (.nil, .num MULTI_BULK_REPLY)

end FlatReply

theorem encodeAll_map_item (items : List Lib.Resp.Item) : encodeAll (items.map .item) = items.flatMap Lib.Resp.Item.encode := by
  induction items with
  | nil => rfl
  | cons i items ih => rw [map_cons, encodeAll, ih, flatMap_cons, Reply.encode]

theorem multiCount_header {n : Nat} (h : n < 2 ^ 31) : multiCount (decimal n ++ crlf ++ rest) 0 =
    some ((n : Int), 13 :: 10 :: rest) := by
  rw [append_assoc, multiCount_decimal h]
  rfl

/-- An encoded reply is parsed to its value, whatever follows it. -/
theorem helper_encode (r : FlatReply) (st : Stack) (rest : Bytes) :
    parse_reply_helper st (r.encode ++ rest) = (r.value.2 :: r.value.1 :: st, rest) := by
  cases r with
  | nullMulti => rfl
  | multi items =>
    obtain ⟨items, hitems⟩ := items
    have hbytes : (FlatReply.multi ⟨items, hitems⟩).encode ++ rest =
        42 :: (decimal items.length ++ crlf ++ (items.flatMap Lib.Resp.Item.encode ++ rest)) := by
      simp only [FlatReply.encode, FlatReply.toReply, Reply.encode, encodeAll_map_item, length_map, cons_append,
        append_assoc]
    have hparse : parse_multi_bulk_reply st (decimal items.length ++ crlf ++ (items.flatMap Lib.Resp.Item.encode ++ rest)) =
        (LVal.array (items.map elementValue) :: st, some rest) := by
      have hne : ¬((items.length : Int) = -1) := by omega
      simp only [parse_multi_bulk_reply, multiCount_header hitems, if_neg hne, Int.toNat_natCast]
      exact parseElements_encode items 1 _
    rw [hbytes]
    simp only [parse_reply_helper, hparse]
    rfl
  | item i =>
    cases i with
    | null => rfl
    | bulk s =>
      have hbytes : (FlatReply.item (.bulk s)).encode ++ rest =
          36 :: (decimal s.1.length ++ crlf ++ s.1 ++ crlf ++ rest) := rfl
      rw [hbytes]
      simp only [parse_reply_helper, parse_bulk_reply_bulk]
      rfl
    | status s =>
      have hbytes : (FlatReply.item (.status s)).encode ++ rest = 43 :: (s.1 ++ crlf ++ rest) := rfl
      rw [hbytes]
      simp only [parse_reply_helper, parse_single_line_reply_line, if_true, (take_line s.1).1, (take_line s.1).2]
      rfl
    | error s =>
      have hbytes : (FlatReply.item (.error s)).encode ++ rest = 45 :: (s.1 ++ crlf ++ rest) := rfl
      rw [hbytes]
      simp only [parse_reply_helper, parse_single_line_reply_line, (take_line s.1).1, (take_line s.1).2]
      rfl
    | integer n =>
      have hbytes : (FlatReply.item (.integer n)).encode ++ rest = 58 :: (decimalInt n ++ crlf ++ rest) := rfl
      have hline : parse_single_line_reply (decimalInt n ++ crlf ++ rest) false 0 = some (decimalInt n).length := by
        rw [append_assoc, parse_single_line_reply_crlf (notMem_decimalInt n), Nat.zero_add]
      rw [hbytes]
      simp only [parse_reply_helper, hline, (take_line (decimalInt n)).1, (take_line (decimalInt n)).2, tonumber,
        tonumber_decimalInt, Option.getD_some]
      rfl

theorem FlatReply.value_ne_bad (r : FlatReply) : r.value.2 ≠ .num BAD_REPLY := by
  rcases r with (i | items | _)
  · cases i <;> exact fun h => absurd (LVal.num.inj h) (by decide)
  · exact fun h => absurd (LVal.num.inj h) (by decide)
  · exact fun h => absurd (LVal.num.inj h) (by decide)

theorem parse_reply_append (r : FlatReply) (rest : Bytes) :
    parse_reply (r.encode ++ rest) = r.value ∧ afterReply (r.encode ++ rest) = rest ∧
      badElement (r.encode ++ rest) = none := by
  refine ⟨?_, ?_, ?_⟩
  · rw [parse_reply, helper_encode]
  · rw [afterReply, helper_encode]
  · cases hbad : badElement (r.encode ++ rest) with
    | none => rfl
    | some vs =>
      have hhelper := helper_bad hbad []
      rw [helper_encode] at hhelper
      exact absurd (List.cons.inj (Prod.mk.inj hhelper).1).1 r.value_ne_bad

theorem parse_reply_encode (r : FlatReply) : parse_reply r.encode = r.value := by
  have h := (parse_reply_append r []).1
  rwa [append_nil] at h

theorem afterReplies_flatMap {i : Nat} {rs : List FlatReply} (h : i < rs.length) :
    badElement (afterReplies i (rs.flatMap FlatReply.encode)) = none := by
  induction rs generalizing i with
  | nil => cases h
  | cons r rs ih =>
    rw [flatMap_cons]
    cases i with
    | zero => exact (parse_reply_append r _).2.2
    | succ i =>
      rw [afterReplies, (parse_reply_append r _).2.1]
      exact ih (lt_of_succ_lt_succ h)

theorem results_flatMap (rs : List FlatReply) :
    results rs.length (rs.flatMap FlatReply.encode) = rs.map FlatReply.value := by
  induction rs with
  | nil => rfl
  | cons r rs ih =>
    rw [flatMap_cons, length_cons, results, (parse_reply_append r _).1, (parse_reply_append r _).2.1, ih,
      map_cons]

theorem parse_replies_flatMap (rs : List FlatReply) :
    parse_replies (rs.flatMap FlatReply.encode) rs.length = LVal.array (rs.map fun r => pair (parse_reply r.encode)) := by
  rw [parse_replies_good fun i hi => afterReplies_flatMap hi, results_flatMap, map_map]
  congr 1
  exact map_congr_left fun r _ => by rw [Function.comp_apply, parse_reply_encode]

/-! ## Requests -/

theorem sprintf_num_eq (n : Nat) (dst : Bytes) : sprintf_num n dst = decimal n ++ dst := by
  induction n using decimal_induction generalizing dst with
  | digit n hn =>
    rw [sprintf_num, if_pos (div_eq_of_lt hn), mod_eq_of_lt hn, decimal_of_lt hn]
    rfl
  | append n hn ih =>
    rw [sprintf_num, if_neg (by omega), ih, decimal_of_le hn, append_assoc]
    rfl

theorem get_num_size_eq (n : Nat) : get_num_size n = (decimal n).length := by
  induction n using decimal_induction with
  | digit n hn =>
    rw [get_num_size, if_pos (div_eq_of_lt hn), decimal_of_lt hn]
    rfl
  | append n hn ih =>
    rw [get_num_size, if_neg (by omega), ih, decimal_of_le hn, length_append]
    rfl

section

variable (tolstring : ν → LuaString)

theorem one_lt : 1 < 2 ^ 31 := by decide

/-- What is written of a parameter is an element of a multi-bulk reply. -/
def Param.item : Param ν → Lib.Resp.Item
  | .str s => .bulk s
  | .num x => .bulk (tolstring x)
  | .bool b => .bulk ⟨[if b then 49 else 48], one_lt⟩
  | .null => .null

theorem Param.write_eq (p : Param ν) : p.write tolstring = (p.item tolstring).encode := by
  cases p with
  | str s =>
    simp only [Param.write, Param.item, Lib.Resp.Item.encode, sprintf_num_eq, append_nil, cons_append]
  | num x =>
    simp only [Param.write, Param.item, Lib.Resp.Item.encode, sprintf_num_eq, append_nil, cons_append]
  | bool b => cases b <;> rfl
  | null => rfl

/-- The first pass counts the bytes of the second. -/
theorem Param.size_eq (p : Param ν) : p.size tolstring = (p.write tolstring).length := by
  cases p with
  | str s =>
    simp only [Param.size, Param.write, sprintf_num_eq, get_num_size_eq, length_append, length_cons, crlf,
      length_nil]
    omega
  | num x =>
    simp only [Param.size, Param.write, sprintf_num_eq, get_num_size_eq, length_append, length_cons, crlf,
      length_nil]
    omega
  | bool b => rfl
  | null => rfl

variable {args : List (Arg ν)}

theorem totalSize_eq {i size : Nat} (h : totalSize tolstring i args = .ok size) :
    size = (args.flatMap (Arg.write tolstring)).length := by
  induction args generalizing i size with
  | nil =>
    cases h
    rfl
  | cons a args ih =>
    cases a with
    | other => cases h
    | param p =>
      rw [totalSize] at h
      cases htail : totalSize tolstring (i + 1) args with
      | error e =>
        rw [htail] at h
        cases h
      | ok m =>
        rw [htail] at h
        cases h
        rw [ih htail, flatMap_cons, length_append, Param.size_eq]
        rfl

theorem totalSize_params (i : Nat) (ps : List (Param ν)) : ∃ size, totalSize tolstring i (ps.map .param) = .ok size := by
  induction ps generalizing i with
  | nil => exact ⟨0, rfl⟩
  | cons p ps ih =>
    obtain ⟨size, hsize⟩ := ih (i + 1)
    exact ⟨p.size tolstring + size, by rw [map_cons, totalSize, hsize]; rfl⟩

/-- The second pass writes as many bytes as the first has counted. -/
theorem build_query_total {size : Nat} (h : totalSize tolstring 1 args = .ok size) :
    (42 :: sprintf_num args.length [] ++ crlf ++ args.flatMap (Arg.write tolstring)).length =
      1 + get_num_size args.length + 2 + size := by
  rw [totalSize_eq tolstring h, sprintf_num_eq, append_nil, length_append, length_append, length_cons,
    get_num_size_eq, crlf]
  simp only [length_cons, length_nil]
  omega

theorem parameter_error_ne (i : Nat) :
    "parameter " ++ toString i ++ " is not a string, number, redis.parser.null, or boolean value" ≠ "buffer error" := by
  intro h
  have hchars := congrArg String.toList h
  rw [String.toList_append, String.toList_append] at hchars
  exact absurd (List.cons.inj hchars).1 (by decide)

/-- The two passes agree. -/
theorem build_query_of_total {size : Nat} (hne : args.length ≠ 0)
    (h : totalSize tolstring 1 args = .ok size) :
    build_query tolstring args =
      .ok (42 :: sprintf_num args.length [] ++ crlf ++ args.flatMap (Arg.write tolstring)) := by
  have htotal := build_query_total tolstring h
  simp only [build_query, if_neg hne, h]
  exact if_neg (not_not.mpr htotal)

theorem build_query_ne_buffer_error (args : List (Arg ν)) : build_query tolstring args ≠ .error "buffer error" := by
  intro herror
  by_cases hne : args.length = 0
  · rw [build_query, if_pos hne] at herror
    exact absurd (Except.error.inj herror) (by decide)
  · cases htotal : totalSize tolstring 1 args with
    | error i =>
      simp only [build_query, if_neg hne, htotal] at herror
      exact parameter_error_ne i (Except.error.inj herror)
    | ok size =>
      rw [build_query_of_total tolstring hne htotal] at herror
      cases herror

/-- The parameters of a request, which are counted by an `int`. -/
def Params (ν : Type) := { ps : List (Param ν) // ps ≠ [] ∧ ps.length < 2 ^ 31 }

/-- The request as the reply that it looks like. -/
def Params.reply (ps : Params ν) : FlatReply :=
  .multi ⟨ps.1.map (Param.item tolstring), by rw [length_map]; exact ps.2.2⟩

theorem build_query_params (ps : Params ν) :
    build_query tolstring (ps.1.map .param) = .ok (ps.reply tolstring).encode := by
  obtain ⟨ps, hne, hlen⟩ := ps
  obtain ⟨size, hsize⟩ := totalSize_params tolstring 1 ps
  have hlength : (ps.map Arg.param).length ≠ 0 := by
    rw [length_map]
    exact mt eq_nil_of_length_eq_zero hne
  have helements : (ps.map Arg.param).flatMap (Arg.write tolstring) = (ps.map (Param.item tolstring)).flatMap Lib.Resp.Item.encode := by
    rw [flatMap_map, flatMap_map]
    exact congrArg (fun f => ps.flatMap f) (funext fun p => p.write_eq tolstring)
  rw [build_query_of_total tolstring hlength hsize, helements]
  simp only [Params.reply, FlatReply.encode, FlatReply.toReply, Reply.encode, encodeAll_map_item, length_map,
    sprintf_num_eq, append_nil, cons_append]

/-- What a parameter is parsed to. -/
def Param.value : Param ν → LVal
  | .str s => .str s.1
  | .num x => .str (tolstring x).1
  | .bool b => .str (ascii [if b then '1' else '0'])
  | .null => .nil

theorem Param.elementValue_item (p : Param ν) : elementValue (p.item tolstring) = p.value tolstring := by
  cases p with
  | bool b => cases b <;> rfl
  | str s => rfl
  | num x => rfl
  | null => rfl

/-- A request is parsed to the parameters that it was built from. -/
theorem parse_reply_build_query (ps : Params ν) :
    ∃ query, build_query tolstring (ps.1.map .param) = .ok query ∧
      parse_reply query = (.array (ps.1.map (Param.value tolstring)), .num MULTI_BULK_REPLY) := by
  refine ⟨_, build_query_params tolstring ps, ?_⟩
  rw [parse_reply_encode, Params.reply, FlatReply.value, map_map]
  congr 2
  exact map_congr_left fun p _ => p.elementValue_item tolstring

/-- **Round trips.** A request of strings, numbers, booleans and nulls is parsed to
these; the two passes over the parameters of a request, whatever they are, never
disagree; and replies one after the other, the elements of the multi-bulk ones without
elements themselves, are returned in order, each as it is parsed alone. -/
theorem requests_and_replies_round_trip :
    (∀ ps : Params ν, ∃ query, build_query tolstring (ps.1.map .param) = .ok query ∧
      parse_reply query = (.array (ps.1.map (Param.value tolstring)), .num MULTI_BULK_REPLY)) ∧
    (∀ (args : List (Arg ν)), build_query tolstring args ≠ .error "buffer error") ∧
    (∀ (args : List (Arg ν)) (size : Nat), totalSize tolstring 1 args = .ok size →
      (42 :: sprintf_num args.length [] ++ crlf ++ args.flatMap (Arg.write tolstring)).length =
        1 + get_num_size args.length + 2 + size) ∧
    (∀ rs : List FlatReply,
      parse_replies (rs.flatMap FlatReply.encode) rs.length =
        .array (rs.map fun r => pair (parse_reply r.encode)) ∧
      ∀ r ∈ rs, parse_reply r.encode = r.value) :=
  ⟨parse_reply_build_query tolstring, build_query_ne_buffer_error tolstring,
    fun _ _ h => build_query_total tolstring h, fun rs => ⟨parse_replies_flatMap rs, fun r _ => parse_reply_encode r⟩⟩

end

/-- The type of the reply of a pair. -/
def typeOf (v : LVal) : Option Rat :=
  match v.get 2 with
  | .num q => some q
  | _ => none

/-- An element of a multi-bulk reply that has elements itself is refused, and is then
read again as the next reply. -/
theorem replies_not_in_order_nested :
    ¬∀ (rs : List Reply) (i : Nat) (r : Reply), rs[i]? = some r →
      (parse_replies (encodeAll rs) rs.length).get (i + 1) = pair (parse_reply r.encode) := by
  intro h
  let ok : Reply := .item (.status ⟨[79, 75], by decide⟩)
  have hpair := congrArg typeOf (h [.multi [.multi []], ok] 1 ok rfl)
  exact absurd hpair (by decide +kernel)

end OpenResty.Resty.RedisParser
