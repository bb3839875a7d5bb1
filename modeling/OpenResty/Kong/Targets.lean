/-
The history of the targets of an upstream: `clean_history` and the list of active
targets of `kong.api.routes.upstreams`, and the hosts that `kong.core.balancer`
makes of the history.

All three sort the history by text. The text of a creation time has its digits
from the left, so a time with more digits can sort before one with fewer.
-/
import Mathlib.Data.String.Basic
import OpenResty.Lib.Join
import OpenResty.Lib.Newest
import OpenResty.Lib.Transition
import OpenResty.Lua.Numeral

namespace OpenResty.Kong.Targets

open Lib Lib.Transition List Nat Function
open String (ofList toList toList_append toList_injective)

/-! ## Entries -/

/-- A host and port, as `format_host` has put them together. -/
@[ext]
structure Target where
  name : String
  port : Nat
  deriving DecidableEq

def Target.text (target : Target) : String := target.name ++ ":" ++ toString target.port

/-- `string.match(target, "^(.-):(%d+)$")`, with `tonumber` of the port. -/
def splitTarget (target : String) : Option (String × Option Rat) :=
  let digits := (target.toList.reverse.takeWhile Char.isDigit).reverse
  match digits, target.toList.reverse.dropWhile Char.isDigit with
  | _ :: _, ':' :: name => some (ofList name.reverse, Lua.tonumber (ofList digits))
  | _, _ => none

def WEIGHT_MIN : Rat := 0

def WEIGHT_MAX : Rat := 1000

structure Entry where
  id : String
  created_at : Nat
  target : Target
  weight : Rat
  /-- `self_check` of the schema -/
  valid : WEIGHT_MIN ≤ weight ∧ weight ≤ WEIGHT_MAX
  deriving DecidableEq

/-- `target.created_at .. ":" .. target.id` -/
def order (entry : Entry) : String := Lua.numToString entry.created_at ++ ":" ++ entry.id

/-- The key of the list of active targets. -/
def activeOrder (entry : Entry) : String := entry.target.text ++ ":" ++ order entry

/-- `table.sort` by falling keys, where no two entries have the same. -/
def sortDown (key : Entry → String) (history : List Entry) : List Entry :=
  history.mergeSort fun a b => key b ≤ key a

def sortUp (key : Entry → String) (history : List Entry) : List Entry :=
  history.mergeSort fun a b => key a ≤ key b

/-! ## Cleaning the history -/

structure Cleanup where
  cleaned : List Entry
  delete : List Entry

def Cleanup.add (c : Cleanup) (entry : Entry) : Cleanup :=
  if c.cleaned.any (·.target.text == entry.target.text) then
    -- there is a newer entry for this target
    { c with delete := c.delete ++ [entry] }
  else
    { cleaned := c.cleaned ++ [entry]
      delete  := if entry.weight = 0 then c.delete ++ [entry] else c.delete }

def cleanup_factor : Nat := 10

/-- What `clean_history` leaves of the stored entries. -/
def clean_history (target_history : List Entry) : List Entry :=
  let c := (sortDown order target_history).foldl Cleanup.add ⟨[], []⟩
  if c.cleaned.length = 0 ∧ c.delete.length > 0 ∨ c.delete.length ≥ max c.cleaned.length 1 * cleanup_factor then
    target_history.filter fun entry => !c.delete.any (·.id == entry.id)
  else target_history

/-! ## The active targets -/

structure Walk where
  seen : List String
  active : List Entry

def Walk.add (w : Walk) (entry : Entry) : Walk :=
  if entry.target.text ∈ w.seen then w
  else if entry.weight = 0 then { w with seen := entry.target.text :: w.seen }
  else { seen := entry.target.text :: w.seen, active := w.active ++ [entry] }

/-- The `data` of `/targets/active`. -/
def active (target_history : List Entry) : List Entry :=
  ((sortDown activeOrder target_history).foldl Walk.add ⟨[], []⟩).active

/-! ## The balancer -/

/-- The hosts of a ring-balancer with their weights. -/
abbrev Hosts := String × Option Rat → Option Rat

def addHost (rb : Hosts) (name : String) (port : Option Rat) (weight : Rat) : Hosts :=
  update rb (name, port) (some weight)

/-- Does nothing where there is no such host. -/
def removeHost (rb : Hosts) (name : String) (port : Option Rat) : Hosts := update rb (name, port) none

/-- One round of the loop of `apply_history`. An entry without a host and port is
not there: its target was formatted. -/
def applyEntry (rb : Hosts) (target : Entry) : Hosts :=
  match splitTarget target.target.text with
  | some (name, port) => if target.weight > 0 then addHost rb name port target.weight else removeHost rb name port
  | none => rb

/-- `apply_history` on a new balancer, from the first entry. -/
def apply_history (history : List Entry) : Hosts := history.foldl applyEntry fun _ => none

def load_targets_into_memory (target_history : List Entry) : List Entry := sortUp order target_history

/-! ## Runs -/

structure History where
  stored : List Entry
  /-- all entries that were ever added -/
  added : List Entry
  deriving DecidableEq

inductive Event
  | add (entry : Entry)
  | clean

/-- An entry that is added has an id and a creation time of its own. -/
def step (s : History) : Event → Option History
  | .add entry =>
    if ∀ x ∈ s.added, x.id ≠ entry.id ∧ x.created_at ≠ entry.created_at then
      some { stored := entry :: s.stored, added := entry :: s.added }
    else none
  | .clean => some { s with stored := clean_history s.stored }

/-- The target and weight are those of a listed entry. -/
def Listed (s : History) (target : Target) (weight : Rat) : Prop :=
  ∃ entry ∈ active s.stored, entry.target = target ∧ entry.weight = weight

def Balanced (s : History) (target : Target) (weight : Rat) : Prop :=
  apply_history (load_targets_into_memory s.stored) (target.name, some (target.port : Rat)) = some weight

/-- The newest of all entries for the target has the weight, which is not 0. -/
def Current (s : History) (target : Target) (weight : Rat) : Prop :=
  weight ≠ 0 ∧ ∃ entry, Newest Entry.target Entry.created_at s.added target entry ∧ entry.weight = weight

/-- The three views of the active targets are one. -/
def Right (s : History) : Prop :=
  ∀ target weight,
    (Listed s target weight ↔ Current s target weight) ∧ (Balanced s target weight ↔ Current s target weight)

/-- An entry that is added sorts after the stored entries for its target exactly
when it is newer than all that there ever were, or it does not change the weight
of its target. -/
def Careful (s : History) : Event → Prop
  | .add entry =>
    ((∀ x ∈ s.stored, x.target = entry.target → order x < order entry) ↔
        ∀ x ∈ s.added, x.target = entry.target → x.created_at < entry.created_at) ∨
      ∀ weight, Listed s entry.target weight ↔ weight = entry.weight ∧ weight ≠ 0
  | .clean => True

/-- What is stored was added, and the entries that were added differ. -/
structure Inv (s : History) : Prop where
  stored : s.stored.Sublist s.added
  id : (s.added.map Entry.id).Nodup
  created_at : (s.added.map Entry.created_at).Nodup

/-! ## Texts -/

theorem notMem_port (port : Nat) : ':' ∉ (toString port).toList :=
  Lua.notMem_toString (c := ':') (by decide) (by decide) port

theorem Target.text_inj {a b : Target} : a.text = b.text ↔ a = b := by
  refine ⟨fun h => ?_, fun h => h ▸ rfl⟩
  have hlists := congrArg toList h
  simp only [Target.text, toList_append] at hlists
  change a.name.toList ++ [':'] ++ (toString a.port).toList = b.name.toList ++ [':'] ++ (toString b.port).toList at hlists
  rw [append_assoc, append_assoc] at hlists
  obtain ⟨hname, hport⟩ := append_cons_inj (notMem_port a.port) (notMem_port b.port) hlists
  exact Target.ext (toList_injective hname) (Lua.toString_natInj (toList_injective hport))

/-- The balancer finds the host and port that were put together. -/
theorem splitTarget_text (t : Target) : splitTarget t.text = some (t.name, some (t.port : Rat)) := by
  have hdigit : ∀ c ∈ (toString t.port).toList.reverse, c.isDigit = true := by
    intro c hc
    have hlist : (toString t.port).toList = toDigits 10 t.port := by simp [toString, Nat.repr]
    rw [hlist, mem_reverse] at hc
    exact isDigit_of_mem_toDigits (by decide) (by decide) hc
  have htext : t.text.toList.reverse = (toString t.port).toList.reverse ++ ':' :: t.name.toList.reverse := by
    rw [Target.text, toList_append, toList_append, reverse_append, reverse_append]
    rfl
  have htake : t.text.toList.reverse.takeWhile Char.isDigit = (toString t.port).toList.reverse := by
    rw [htext, takeWhile_append_of_pos hdigit, takeWhile_cons_of_neg (by decide), append_nil]
  have hdrop : t.text.toList.reverse.dropWhile Char.isDigit = ':' :: t.name.toList.reverse := by
    rw [htext, dropWhile_append_of_pos hdigit, dropWhile_cons_of_neg (by decide)]
  have hname : ofList t.name.toList.reverse.reverse = t.name := by
    rw [reverse_reverse, String.ofList_toList]
  have hport : Lua.tonumber (ofList (toString t.port).toList.reverse.reverse) = some (t.port : Rat) := by
    rw [reverse_reverse, String.ofList_toList, Lua.tonumber_repr]
  have hne : (toString t.port).toList.reverse.reverse ≠ [] := by
    rw [reverse_reverse]
    have hlist : (toString t.port).toList = toDigits 10 t.port := by simp [toString, Nat.repr]
    exact hlist ▸ toDigits_ne_nil
  rw [splitTarget, htake, hdrop]
  revert hport hne
  generalize (toString t.port).toList.reverse.reverse = digits
  intro hport hne
  cases digits with
  | nil => exact absurd rfl hne
  | cons d ds => simp only [hname, hport]

theorem id_of_order {a b : Entry} (h : order a = order b) : a.id = b.id := by
  have hnot : ∀ e : Entry, ':' ∉ (Lua.numToString e.created_at).toList :=
    fun e => Lua.notMem_numToString (by decide) (by decide) _
  have hlists := congrArg toList h
  simp only [order, toList_append, append_assoc] at hlists
  exact toList_injective (append_cons_inj_left (hnot a) (hnot b) hlists).2

theorem append_lt_append_left {x y : String} (z : String) (h : x < y) : z ++ x < z ++ y := by
  rw [String.lt_iff_toList_lt, toList_append, toList_append]
  exact append_left_lt (String.lt_iff_toList_lt.mp h)

/-- The entries for one target are in the same order in both lists. -/
theorem activeOrder_le {a b : Entry} (h : a.target = b.target) : activeOrder a ≤ activeOrder b ↔ order a ≤ order b := by
  unfold activeOrder
  rw [h]
  constructor
  · intro hle
    by_contra hnot
    exact absurd hle (not_le_of_gt (append_lt_append_left _ (not_le.mp hnot)))
  · intro hle
    rcases hle.eq_or_lt with heq | hlt
    · rw [heq]
    · exact (append_lt_append_left _ hlt).le

/-! ## Sorting -/

theorem mem_sortDown {key : Entry → String} {h : List Entry} {x : Entry} : x ∈ sortDown key h ↔ x ∈ h :=
  mem_mergeSort

theorem sortDown_falls (key : Entry → String) (h : List Entry) :
    (sortDown key h).Pairwise fun a b => key b ≤ key a := by
  have hsorted := pairwise_mergeSort (show ∀ a b c : Entry, decide (key b ≤ key a) → decide (key c ≤ key b) → decide (key c ≤ key a) by
    simpa using fun a b c hab hbc => le_trans hbc hab) (by simpa using fun a b => le_total (key b) (key a)) h
  simpa only [sortDown, decide_eq_true_eq] using hsorted

theorem sortUp_rises (key : Entry → String) (h : List Entry) : (sortUp key h).Pairwise fun a b => key a ≤ key b := by
  have hsorted := pairwise_mergeSort (show ∀ a b c : Entry, decide (key a ≤ key b) → decide (key b ≤ key c) → decide (key a ≤ key c) by
    simpa using fun a b c hab hbc => le_trans hab hbc) (by simpa using fun a b => le_total (key a) (key b)) h
  simpa only [sortUp, decide_eq_true_eq] using hsorted

/-! ## The three walks -/

variable {l : List Entry}

/-- The walk lists the first entry of each target that it has not seen, when that
has a weight. -/
theorem mem_walk {w : Walk} {e : Entry} :
    e ∈ (l.foldl Walk.add w).active ↔
      e ∈ w.active ∨ e.target.text ∉ w.seen ∧ l.find? (·.target = e.target) = some e ∧ e.weight ≠ 0 := by
  induction l generalizing w with
  | nil => simp
  | cons x l ih =>
    rw [foldl_cons, ih]
    by_cases hx : x.target = e.target
    · rw [find?_cons_of_pos (by simpa using hx), Walk.add, hx]
      by_cases hseen : e.target.text ∈ w.seen
      · simp [hseen]
      · by_cases hzero : x.weight = 0
        · have hne : ¬(x = e ∧ e.weight ≠ 0) := by
            rintro ⟨rfl, hne⟩
            exact hne hzero
          simp [hseen, hzero, hne]
        · have heq : e = x ↔ x = e ∧ e.weight ≠ 0 := by
            constructor
            · rintro rfl
              exact ⟨rfl, hzero⟩
            · exact fun h => h.1.symm
          simp [hseen, hzero, ← heq]
    · have htext : e.target.text ≠ x.target.text := fun h => hx (Target.text_inj.mp h.symm)
      have hne : e ≠ x := by
        rintro rfl
        exact hx rfl
      rw [find?_cons_of_neg (by simpa using hx), Walk.add]
      split
      · rfl
      · split <;> simp [htext, hne]

/-- The hosts after a walk have for each target what the last entry for it says. -/
theorem hosts_walk {rb : Hosts} (t : Target) :
    l.foldl applyEntry rb (t.name, some (t.port : Rat)) =
      match l.reverse.find? (·.target = t) with
      | some e => if e.weight > 0 then some e.weight else none
      | none => rb (t.name, some (t.port : Rat)) := by
  induction l generalizing rb with
  | nil => rfl
  | cons x l ih =>
    rw [foldl_cons, ih, reverse_cons, find?_append]
    cases hfind : l.reverse.find? (·.target = t) with
    | some e => rfl
    | none =>
      simp only [Option.none_or, find?_cons, find?_nil, applyEntry, splitTarget_text]
      by_cases hx : x.target = t
      · subst hx
        simp only [decide_true]
        split <;> simp [addHost, removeHost]
      · have hne : (t.name, some (t.port : Rat)) ≠ (x.target.name, some (x.target.port : Rat)) := by
          intro heq
          have hname := congrArg Prod.fst heq
          have hport := Option.some.inj (congrArg Prod.snd heq)
          exact hx (Target.ext hname.symm (Rat.natCast_injective hport).symm)
        simp only [hx, decide_false]
        split <;> simp [addHost, removeHost, update_of_ne hne]

/-- What is to be deleted: all but the first entry of each target, and that too
when it has no weight. -/
theorem mem_delete {c : Cleanup} {e : Entry} (hl : l.Nodup) :
    e ∈ (l.foldl Cleanup.add c).delete ↔
      e ∈ c.delete ∨
        e ∈ l ∧ ((∃ x ∈ c.cleaned, x.target = e.target) ∨ l.find? (·.target = e.target) ≠ some e ∨ e.weight = 0) := by
  induction l generalizing c with
  | nil => simp
  | cons x l ih =>
    obtain ⟨hx, hl⟩ := nodup_cons.mp hl
    rw [foldl_cons, ih hl]
    have hany : c.cleaned.any (·.target.text == x.target.text) = true ↔ ∃ y ∈ c.cleaned, y.target = x.target := by
      simp [Target.text_inj]
    by_cases hcleaned : ∃ y ∈ c.cleaned, y.target = x.target
    · rw [Cleanup.add, if_pos (hany.mpr hcleaned)]
      by_cases hex : e = x
      · subst hex
        simp [hcleaned]
      · by_cases htarget : x.target = e.target
        · rw [htarget] at hcleaned
          simp [hex, hcleaned]
        · rw [find?_cons_of_neg (by simpa using htarget)]
          simp [hex]
    · rw [Cleanup.add, if_neg (fun h => hcleaned (hany.mp h))]
      by_cases hex : e = x
      · subst hex
        rw [find?_cons_of_pos (by simp)]
        simp only [hx, hcleaned]
        split <;> simp_all
      · have hdelete : e ∈ (if x.weight = 0 then c.delete ++ [x] else c.delete) ↔ e ∈ c.delete := by
          split <;> simp [hex]
        simp only [hdelete, mem_cons, hex, false_or, mem_append]
        by_cases htarget : x.target = e.target
        · rw [find?_cons_of_pos (by simpa using htarget)]
          have hne : some x ≠ some e := fun h => hex (Option.some.inj h).symm
          have hsame : ∃ y, (y ∈ c.cleaned ∨ y = x ∨ y ∈ ([] : List Entry)) ∧ y.target = e.target :=
            ⟨x, .inr (.inl rfl), htarget⟩
          simp only [hsame, hne, ne_eq, not_false_eq_true, true_or, or_true]
        · rw [find?_cons_of_neg (by simpa using htarget)]
          have hsame : (∃ y, (y ∈ c.cleaned ∨ y = x ∨ y ∈ ([] : List Entry)) ∧ y.target = e.target) ↔
              ∃ y ∈ c.cleaned, y.target = e.target := by
            constructor
            · rintro ⟨y, hy | rfl | hy, hye⟩
              · exact ⟨y, hy, hye⟩
              · exact absurd hye htarget
              · cases hy
            · rintro ⟨y, hy, hye⟩
              exact ⟨y, .inl hy, hye⟩
          rw [hsame]

/-! ## The views of a stored history -/

/-- The newest entry for the target in the order of the history has the weight,
which is not 0. -/
def Weighs (h : List Entry) (target : Target) (weight : Rat) : Prop :=
  weight ≠ 0 ∧ ∃ entry, Newest Entry.target order h target entry ∧ entry.weight = weight

variable {h : List Entry} {t : Target} {w : Rat} {e : Entry}

theorem find?_sortDown (hid : (h.map Entry.id).Nodup) :
    (sortDown order h).find? (·.target = t) = some e ↔ Newest Entry.target order h t e := by
  rw [Newest.find?_iff (sortDown_falls order h), Newest.congr fun _ => mem_sortDown]
  intro x hx y hy _ heq
  exact inj_on_of_nodup_map hid (mem_sortDown.mp hx) (mem_sortDown.mp hy) (id_of_order heq)

theorem find?_sortDown_active (hid : (h.map Entry.id).Nodup) :
    (sortDown activeOrder h).find? (·.target = t) = some e ↔ Newest Entry.target order h t e := by
  rw [Newest.find?_iff (sortDown_falls activeOrder h), Newest.congr fun _ => mem_sortDown]
  · refine and_congr_right fun _ => and_congr_right fun he => forall₂_congr fun x _ => ?_
    exact forall_congr' fun hx => activeOrder_le (hx.trans he.symm)
  · intro x hx y hy htarget heq
    have horder := le_antisymm ((activeOrder_le htarget).mp heq.le) ((activeOrder_le htarget.symm).mp heq.ge)
    exact inj_on_of_nodup_map hid (mem_sortDown.mp hx) (mem_sortDown.mp hy) (id_of_order horder)

theorem find?_sortUp (hid : (h.map Entry.id).Nodup) :
    (sortUp order h).reverse.find? (·.target = t) = some e ↔ Newest Entry.target order h t e := by
  have hmem : ∀ x, x ∈ (sortUp order h).reverse ↔ x ∈ h := fun x => mem_reverse.trans mem_mergeSort
  rw [Newest.find?_iff (pairwise_reverse.mpr (sortUp_rises order h)), Newest.congr hmem]
  intro x hx y hy _ heq
  exact inj_on_of_nodup_map hid ((hmem x).mp hx) ((hmem y).mp hy) (id_of_order heq)

/-- The list of active targets holds the newest entries that have a weight. -/
theorem mem_active (hid : (h.map Entry.id).Nodup) :
    e ∈ active h ↔ Newest Entry.target order h e.target e ∧ e.weight ≠ 0 := by
  rw [active, mem_walk, find?_sortDown_active hid]
  simp

theorem active_iff (hid : (h.map Entry.id).Nodup) :
    (∃ e ∈ active h, e.target = t ∧ e.weight = w) ↔ Weighs h t w := by
  constructor
  · rintro ⟨e, he, rfl, rfl⟩
    obtain ⟨hnewest, hne⟩ := (mem_active hid).mp he
    exact ⟨hne, e, hnewest, rfl⟩
  · rintro ⟨hne, e, hnewest, rfl⟩
    obtain rfl := hnewest.2.1
    exact ⟨e, (mem_active hid).mpr ⟨hnewest, hne⟩, rfl, rfl⟩

theorem hosts_iff (hid : (h.map Entry.id).Nodup) :
    apply_history (load_targets_into_memory h) (t.name, some (t.port : Rat)) = some w ↔ Weighs h t w := by
  rw [apply_history, load_targets_into_memory, hosts_walk]
  cases hfind : (sortUp order h).reverse.find? (·.target = t) with
  | none =>
    refine iff_of_false (by simp) ?_
    rintro ⟨-, e, hnewest, -⟩
    rw [(find?_sortUp hid).mpr hnewest] at hfind
    cases hfind
  | some e =>
    have hnewest := (find?_sortUp hid).mp hfind
    have hpos : e.weight > 0 ↔ e.weight ≠ 0 := ⟨ne_of_gt, fun hne => lt_of_le_of_ne e.valid.1 hne.symm⟩
    simp only [hpos]
    constructor
    · intro heq
      split at heq
      · next hne =>
        obtain rfl := Option.some.inj heq
        exact ⟨hne, e, hnewest, rfl⟩
      · cases heq
    · rintro ⟨hne, e', hnewest', rfl⟩
      rw [(find?_sortUp hid).mpr hnewest'] at hfind
      obtain rfl := Option.some.inj hfind
      rw [if_pos hne]

/-- What a cleanup is to delete: all but the newest entries that have a weight. -/
theorem mem_cleanup (hid : (h.map Entry.id).Nodup) :
    e ∈ ((sortDown order h).foldl Cleanup.add ⟨[], []⟩).delete ↔
      e ∈ h ∧ ¬(Newest Entry.target order h e.target e ∧ e.weight ≠ 0) := by
  have hnodup : (sortDown order h).Nodup := (mergeSort_perm h _).nodup_iff.mpr hid.of_map
  rw [mem_delete hnodup, mem_sortDown, ne_eq, find?_sortDown hid]
  simp only [not_mem_nil, false_and, exists_false, false_or]
  refine and_congr_right fun _ => ?_
  rw [not_and_or, not_not]

/-- A cleanup that starts leaves the newest entries that have a weight. -/
theorem mem_kept (hid : (h.map Entry.id).Nodup) :
    (e ∈ h.filter fun x => !((sortDown order h).foldl Cleanup.add ⟨[], []⟩).delete.any (·.id == x.id)) ↔
      Newest Entry.target order h e.target e ∧ e.weight ≠ 0 := by
  rw [mem_filter]
  simp only [Bool.not_eq_true', any_eq_false, beq_iff_eq]
  constructor
  · rintro ⟨he, hkept⟩
    by_contra hnot
    exact hkept e ((mem_cleanup hid).mpr ⟨he, hnot⟩) rfl
  · intro hnewest
    refine ⟨hnewest.1.1, fun x hx hxe => ?_⟩
    obtain ⟨hmem, hnot⟩ := (mem_cleanup hid).mp hx
    obtain rfl := inj_on_of_nodup_map hid hmem hnewest.1.1 hxe
    exact hnot hnewest

/-- **A cleanup changes no weight.** -/
theorem weighs_clean_history (hid : (h.map Entry.id).Nodup) : Weighs (clean_history h) t w ↔ Weighs h t w := by
  unfold clean_history
  simp only
  split
  · constructor
    · rintro ⟨hne, e, ⟨hmem, rfl, -⟩, rfl⟩
      exact ⟨hne, e, ((mem_kept hid).mp hmem).1, rfl⟩
    · rintro ⟨hne, e, hnewest, rfl⟩
      obtain rfl := hnewest.2.1
      refine ⟨hne, e, ⟨(mem_kept hid).mpr ⟨hnewest, hne⟩, rfl, fun x hx => ?_⟩, rfl⟩
      exact hnewest.2.2 x (mem_of_mem_filter hx)
  · exact Iff.rfl

theorem clean_history_sublist : (clean_history h).Sublist h := by
  unfold clean_history
  simp only
  split
  · exact filter_sublist
  · exact Sublist.refl h

/-! ## Runs -/

variable {s s' : History} {ev : Event}

theorem Inv.stored_id (hinv : Inv s) : (s.stored.map Entry.id).Nodup := hinv.id.sublist (hinv.stored.map _)

theorem Inv.step (hinv : Inv s) (hstep : Targets.step s ev = some s') : Inv s' := by
  cases ev with
  | clean =>
    cases hstep
    exact
      { stored     := clean_history_sublist.trans hinv.stored
        id         := hinv.id
        created_at := hinv.created_at }
  | add entry =>
    simp only [Targets.step] at hstep
    split at hstep
    · next hnew =>
      cases hstep
      refine
        { stored     := hinv.stored.cons_cons entry
          id         := nodup_cons.mpr ⟨fun hmem => ?_, hinv.id⟩
          created_at := nodup_cons.mpr ⟨fun hmem => ?_, hinv.created_at⟩ }
      · obtain ⟨x, hx, heq⟩ := mem_map.mp hmem
        exact (hnew x hx).1 heq
      · obtain ⟨x, hx, heq⟩ := mem_map.mp hmem
        exact (hnew x hx).2 heq
    · cases hstep

/-- The views are right when the newest entries that are stored, by the order of
the history, weigh what the newest that were added do. -/
theorem Inv.right_iff (hinv : Inv s) : Right s ↔ ∀ t w, Weighs s.stored t w ↔ Current s t w := by
  have hlisted : ∀ t w, Listed s t w ↔ Weighs s.stored t w := fun t w => active_iff hinv.stored_id
  have hbalanced : ∀ t w, Balanced s t w ↔ Weighs s.stored t w := fun t w => hosts_iff hinv.stored_id
  refine forall₂_congr fun t w => ?_
  rw [hlisted, hbalanced, and_self]

section

variable {β : Type} [LinearOrder β] {rank : Entry → β}

/-- What an entry that is newer than all of its target makes of the weights. -/
theorem view_cons_of_newer (hnew : ∀ x ∈ h, x.target = e.target → rank x < rank e) :
    (w ≠ 0 ∧ ∃ x, Newest Entry.target rank (e :: h) e.target x ∧ x.weight = w) ↔ w = e.weight ∧ w ≠ 0 := by
  simp only [Newest.cons_of_newer rfl hnew, exists_eq_left]
  exact and_comm.trans (and_congr_left fun _ => eq_comm)

/-- An entry that is older than another of its target makes no difference. -/
theorem view_cons_of_older (hdiff : ∀ x ∈ h, x.target = e.target → rank x ≠ rank e)
    (hold : ¬∀ x ∈ h, x.target = e.target → rank x < rank e) :
    (w ≠ 0 ∧ ∃ x, Newest Entry.target rank (e :: h) e.target x ∧ x.weight = w) ↔
      w ≠ 0 ∧ ∃ x, Newest Entry.target rank h e.target x ∧ x.weight = w := by
  push Not at hold
  obtain ⟨x, hx, htarget, hle⟩ := hold
  have hlt := lt_of_le_of_ne hle (hdiff x hx htarget).symm
  simp only [Newest.cons_of_older hx htarget hlt]

theorem view_cons_of_ne (hne : e.target ≠ t) :
    (w ≠ 0 ∧ ∃ x, Newest Entry.target rank (e :: h) t x ∧ x.weight = w) ↔
      w ≠ 0 ∧ ∃ x, Newest Entry.target rank h t x ∧ x.weight = w := by
  simp only [Newest.cons_of_ne hne]

end

/-- An addition keeps the views right exactly when it is careful. -/
theorem Inv.right_add (hinv : Inv s) (hright : Right s) (hnew : ∀ x ∈ s.added, x.id ≠ e.id ∧ x.created_at ≠ e.created_at)
    (hinv' : Inv { stored := e :: s.stored, added := e :: s.added }) :
    Right { stored := e :: s.stored, added := e :: s.added } ↔ Careful s (.add e) := by
  have hsame := hinv.right_iff.mp hright
  have hlisted : ∀ w, Listed s e.target w ↔ Weighs s.stored e.target w := fun w => active_iff hinv.stored_id
  have horder : ∀ x ∈ s.stored, x.target = e.target → order x ≠ order e :=
    fun x hx _ heq => (hnew x (hinv.stored.subset hx)).1 (id_of_order heq)
  have hcreated : ∀ x ∈ s.added, x.target = e.target → x.created_at ≠ e.created_at := fun x hx _ => (hnew x hx).2
  -- only the target of the entry can differ
  have htarget : Right { stored := e :: s.stored, added := e :: s.added } ↔
      ∀ w, Weighs (e :: s.stored) e.target w ↔ Current { stored := e :: s.stored, added := e :: s.added } e.target w := by
    rw [hinv'.right_iff]
    refine ⟨fun h => h e.target, fun h t w => ?_⟩
    by_cases hne : e.target = t
    · exact hne ▸ h w
    · exact (view_cons_of_ne hne).trans ((hsame t w).trans (view_cons_of_ne hne).symm)
  rw [htarget, Careful]
  by_cases hsort : ∀ x ∈ s.stored, x.target = e.target → order x < order e
  · have hweighs : ∀ w, Weighs (e :: s.stored) e.target w ↔ w = e.weight ∧ w ≠ 0 := fun w => view_cons_of_newer hsort
    by_cases hlate : ∀ x ∈ s.added, x.target = e.target → x.created_at < e.created_at
    · exact iff_of_true (fun w => (hweighs w).trans (view_cons_of_newer hlate).symm) (.inl (iff_of_true hsort hlate))
    · have hcurrent : ∀ w, Current { stored := e :: s.stored, added := e :: s.added } e.target w ↔
          Listed s e.target w :=
        fun w => (view_cons_of_older hcreated hlate).trans ((hsame e.target w).symm.trans (hlisted w).symm)
      rw [or_iff_right (fun h => hlate (h.mp hsort))]
      exact forall_congr' fun w => by rw [hweighs, hcurrent]; exact Iff.comm
  · have hweighs : ∀ w, Weighs (e :: s.stored) e.target w ↔ Listed s e.target w :=
      fun w => (view_cons_of_older horder hsort).trans (hlisted w).symm
    by_cases hlate : ∀ x ∈ s.added, x.target = e.target → x.created_at < e.created_at
    · have hcurrent : ∀ w, Current { stored := e :: s.stored, added := e :: s.added } e.target w ↔
          w = e.weight ∧ w ≠ 0 := fun w => view_cons_of_newer hlate
      rw [or_iff_right (fun h => hsort (h.mpr hlate))]
      exact forall_congr' fun w => by rw [hweighs, hcurrent]
    · refine iff_of_true (fun w => ?_) (.inl (iff_of_false hsort hlate))
      exact (view_cons_of_older horder hsort).trans ((hsame e.target w).trans (view_cons_of_older hcreated hlate).symm)

theorem Inv.right_step (hinv : Inv s) (hright : Right s) (hstep : Targets.step s ev = some s') :
    Right s' ↔ Careful s ev := by
  have hinv' := hinv.step hstep
  cases ev with
  | clean =>
    cases hstep
    refine iff_of_true (hinv'.right_iff.mpr fun t w => ?_) trivial
    exact (weighs_clean_history hinv.stored_id).trans (hinv.right_iff.mp hright t w)
  | add entry =>
    simp only [Targets.step] at hstep
    split at hstep
    · next hnew =>
      cases hstep
      exact hinv.right_add hright hnew hinv'
    · cases hstep

/-- **The three views of the active targets are one in every state of exactly the
runs in which each entry sorts by where its creation time puts it.** -/
theorem views_right_iff_careful {es : List Event} :
    Always step Right ⟨[], []⟩ es ↔ Along step Careful ⟨[], []⟩ es := by
  refine always_iff_along (I := fun s => Inv s ∧ Right s) (fun s h => h.2) ?_ ?_ ?_
  · rintro s ev s' ⟨hinv, hright⟩ hstep hcareful
    exact ⟨hinv.step hstep, (hinv.right_step hright hstep).mpr hcareful⟩
  · rintro s ev s' ⟨hinv, hright⟩ hstep hright'
    exact (hinv.right_step hright hstep).mp hright'
  · have hinv : Inv ⟨[], []⟩ := ⟨Sublist.refl [], nodup_nil, nodup_nil⟩
    refine ⟨hinv, hinv.right_iff.mpr fun t w => ?_⟩
    simp [Weighs, Current, Newest]

/-- Two entries for one target, whose creation times have four and five digits. -/
def older : Entry := ⟨"b45c", 9000, ⟨"10.0.0.1", 80⟩, 100, by decide⟩

def newer : Entry := ⟨"a31f", 10000, ⟨"10.0.0.1", 80⟩, 50, by decide⟩

/-- The older of the two entries is taken for the newer one. -/
theorem not_right_digits : ¬Always step Right ⟨[], []⟩ [.add older, .add newer] := by
  intro h
  have hrun : run step ⟨[], []⟩ [.add older, .add newer] = some ⟨[newer, older], [newer, older]⟩ := by decide
  have hinv : Inv ⟨[newer, older], [newer, older]⟩ := ⟨Sublist.refl _, by decide, by decide⟩
  have hcurrent : Current ⟨[newer, older], [newer, older]⟩ newer.target 50 :=
    ⟨by decide, newer, ⟨by decide, rfl, by decide⟩, rfl⟩
  obtain ⟨-, x, ⟨hmem, -, hnewest⟩, hweight⟩ := (hinv.right_iff.mp (h.reached hrun) newer.target 50).mpr hcurrent
  rcases mem_cons.mp hmem with rfl | hmem
  · exact absurd (hnewest older (by decide) rfl) (by decide)
  · rw [mem_singleton.mp hmem] at hweight
    exact absurd hweight (by decide)

end OpenResty.Kong.Targets
