/-
The buffers that nginx hands from one filter to the next, with their bytes and flags.
-/
import Mathlib.Data.List.Basic

namespace OpenResty.Filter

abbrev Bytes := List UInt8

/-- `memory` stands for `temporary`, `memory` and `mmap`; `data` for the bytes from `pos` to `last`. -/
structure Buf where
  data : Bytes
  memory : Bool
  in_file : Bool
  sync : Bool
  flush : Bool
  last_buf : Bool
  deriving DecidableEq

/-- `ngx_create_temp_buf` -/
def temp_buf (data : Bytes) : Buf :=
  { data, memory := true, in_file := false, sync := false, flush := false, last_buf := false }

/-- `ngx_buf_special` -/
def Buf.special (b : Buf) : Bool := (b.flush || b.last_buf || b.sync) && !b.memory && !b.in_file

end OpenResty.Filter
