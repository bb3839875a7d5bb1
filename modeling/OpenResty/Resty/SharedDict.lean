/-
`ngx.shared.DICT` as the libraries use it: entries that do not expire, in a
zone with room for them. Numbers are exact.
-/
import Mathlib.Data.Rat.Defs
import OpenResty.Lib.Memory

namespace OpenResty.Resty

open Lib Function

/-- What is stored under a key; `S` says what a string is to its readers. -/
inductive Value (S : Type)
  | boolean (b : Bool)
  | number (n : Rat)
  | string (s : S)
  deriving DecidableEq

abbrev Dict (S : Type) := Bytes → Option (Value S)

inductive IncrError
  | notFound
  | notANumber

namespace Dict

variable {S : Type} (d : Dict S) (key : Bytes)

def empty : Dict S := fun _ => none

/-- A value of nil deletes. -/
def set (value : Option (Value S)) : Dict S := update d key value

def incr (value : Rat) (init : Option Rat) : Except IncrError Rat × Dict S :=
  match d key with
  | some (.number n) => (.ok (n + value), d.set key (some (.number (n + value))))
  | some _ => (.error .notANumber, d)
  | none =>
    match init with
    | some init => (.ok (init + value), d.set key (some (.number (init + value))))
    | none => (.error .notFound, d)

variable {d key} {key' : Bytes} {value : Option (Value S)}

@[simp] theorem set_self : d.set key value key = value := update_self ..

@[simp] theorem set_ne (h : key' ≠ key) : d.set key value key' = d key' := update_of_ne h ..

theorem incr_number {n : Rat} (h : d key = some (.number n)) (v : Rat) (init : Option Rat) :
    d.incr key v init = (.ok (n + v), d.set key (some (.number (n + v)))) := by
  unfold incr
  rw [h]

theorem incr_init (h : d key = none) (v init : Rat) :
    d.incr key v (some init) = (.ok (init + v), d.set key (some (.number (init + v)))) := by
  unfold incr
  rw [h]

end Dict

end OpenResty.Resty
