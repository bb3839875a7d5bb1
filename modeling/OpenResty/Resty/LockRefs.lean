/-
`ref_obj` and `unref_obj` of `resty.lock`: objects registered in the table `memo`, whose free
slots are threaded from slot 0 on, and whose length says where a new slot is.
-/
import Mathlib.Data.List.Nodup
import OpenResty.Lib.Transition

namespace OpenResty.Resty.LockRefs

open Lib.Transition List Function Nat Prod

variable {V : Type}

/-! ## The table -/

/-- A registered object, or the number of a slot. -/
inductive Slot (V : Type)
  | obj (v : V)
  | link (ref : Nat)

abbrev Memo (V : Type) := Nat → Option (Slot V)

def FREE_LIST_REF : Nat := 0

/-- What `#memo` may be. -/
def Border (memo : Memo V) (n : Nat) : Prop := (n = 0 ∨ (memo n).isSome = true) ∧ memo (n + 1) = none

/-- `ref_obj` where `#memo` is `len`. It is `none` where slot 0 holds an object. -/
def ref_obj (memo : Memo V) (len : Nat) : Option V → Option (Int × Memo V)
  | none => some (-1, memo)
  | some key =>
    match memo FREE_LIST_REF with
    | some (.obj _) => none
    | some (.link (ref + 1)) =>
      let memo := update memo FREE_LIST_REF (memo (ref + 1))
      some (↑(ref + 1), update memo (ref + 1) (some (.obj key)))
    | some (.link 0) | none => some (↑(len + 1), update memo (len + 1) (some (.obj key)))

def unref_obj (memo : Memo V) : Int → Memo V
  | .ofNat ref =>
    let memo := update memo ref (memo FREE_LIST_REF)
    update memo FREE_LIST_REF (some (.link ref))
  | .negSucc _ => memo

/-! ## Runs -/

/-- The table, and the references that have not been released, with their objects. -/
structure State (V : Type) where
  memo : Memo V
  live : List (Nat × V)

def State.init : State V := { memo := fun _ => none, live := [] }

/-- A call, with what `#memo` is at the time. -/
inductive Call (V : Type)
  | ref_obj (key : Option V) (len : Nat)
  | unref_obj (ref : Int)

/-- A reference is released only when it is live; `-1`, which stands for no object, at any time. -/
def Allowed (s : State V) : Call V → Prop
  | .ref_obj _ len => Border s.memo len
  | .unref_obj ref => ref = -1 ∨ ∃ e ∈ s.live, ref = e.1

def step (s : State V) : Call V → Option (State V)
  | .ref_obj key len =>
    (ref_obj s.memo len key).map fun (ref, memo) =>
      match key with
      | some key => { memo, live := (ref.toNat, key) :: s.live }
      | none => { s with memo }
  | .unref_obj ref =>
    some { memo := unref_obj s.memo ref, live := s.live.filter fun e => (e.1 : Int) ≠ ref }

/-- The slots that a list is threaded through, behind slot `r`. -/
def Threaded (memo : Memo V) : Nat → List Nat → Prop
  | r, [] => memo r = none
  | r, f :: fs => memo r = some (.link f) ∧ f ≠ 0 ∧ Threaded memo f fs

/-- What is asked of a table and the live references. -/
structure Right (s : State V) : Prop where
  distinct : (s.live.map fst).Nodup
  registered : ∀ e ∈ s.live, s.memo e.1 = some (.obj e.2)
  free : ∃ fs, Threaded s.memo FREE_LIST_REF fs ∧ fs.Nodup ∧ ∀ f ∈ fs, f ∉ s.live.map fst
  /-- The next call does not come upon an object in slot 0. -/
  total : ∀ call, ∃ s', step s call = some s'

/-! ## The invariant -/

/-- The first `n` slots are live or free, and no others are used. -/
structure Inv (s : State V) (fs : List Nat) (n : Nat) : Prop where
  distinct : (s.live.map fst).Nodup
  registered : ∀ e ∈ s.live, s.memo e.1 = some (.obj e.2)
  threaded : Threaded s.memo FREE_LIST_REF fs
  nodup : fs.Nodup
  disjoint : ∀ f ∈ fs, f ∉ s.live.map fst
  used : ∀ i, i ∈ fs ∨ i ∈ s.live.map fst ↔ 0 < i ∧ i ≤ n
  unused : ∀ i, n < i → s.memo i = none

variable {memo memo' : Memo V} {s s' : State V} {fs : List Nat} {n r r' : Nat}

theorem Threaded.congr (h : Threaded memo r fs) (hr : memo' r' = memo r) (hsame : ∀ f ∈ fs, memo' f = memo f) :
    Threaded memo' r' fs := by
  induction fs generalizing r r' with
  | nil => exact hr.trans h
  | cons f fs ih =>
    obtain ⟨hlink, hne, hrest⟩ := h
    exact ⟨hr.trans hlink, hne, ih hrest (hsame f mem_cons_self) fun g hg => hsame g (mem_cons_of_mem f hg)⟩

namespace Inv

theorem pos_of_free (h : Inv s fs n) {f : Nat} (hf : f ∈ fs) : 0 < f := ((h.used f).mp (.inl hf)).1

theorem pos_of_live (h : Inv s fs n) {e : Nat × V} (he : e ∈ s.live) : 0 < e.1 :=
  ((h.used e.1).mp (.inr (mem_map_of_mem he))).1

theorem init : Inv (.init : State V) [] 0 where
  distinct := nodup_nil
  registered e he := absurd he not_mem_nil
  threaded := rfl
  nodup := nodup_nil
  disjoint f hf := absurd hf not_mem_nil
  used i := by
    simp only [State.init, map_nil, not_mem_nil, or_self, false_iff]
    omega
  unused i _ := rfl

/-- Without free slots all that are used are live, so `#memo` is their number. -/
theorem len_eq (h : Inv s [] n) {len : Nat} (hlen : Border s.memo len) : len = n := by
  obtain ⟨hsome, hnone⟩ := hlen
  have hlive : ∀ i, 0 < i → i ≤ n → s.memo i ≠ none := by
    intro i hpos hle
    rcases (h.used i).mpr ⟨hpos, hle⟩ with hfree | hmem
    · exact absurd hfree not_mem_nil
    · obtain ⟨e, he, rfl⟩ := mem_map.mp hmem
      rw [h.registered e he]
      exact Option.some_ne_none _
  rcases Nat.lt_trichotomy len n with hlt | heq | hgt
  · exact absurd hnone (hlive (len + 1) (succ_pos len) hlt)
  · exact heq
  · rcases hsome with rfl | hsome
    · omega
    · rw [h.unused len hgt] at hsome
      cases hsome

/-- A new slot behind the used ones. -/
theorem grow (h : Inv s [] n) (key : V) :
    Inv { memo := update s.memo (n + 1) (some (.obj key)), live := (n + 1, key) :: s.live } [] (n + 1) where
  distinct := by
    refine nodup_cons.mpr ⟨fun hmem => ?_, h.distinct⟩
    have := ((h.used (n + 1)).mp (.inr hmem)).2
    omega
  registered e he := by
    rcases mem_cons.mp he with rfl | he
    · exact update_self ..
    · have hne : e.1 ≠ n + 1 := by
        have := ((h.used e.1).mp (.inr (mem_map_of_mem he))).2
        omega
      exact (update_of_ne hne ..).trans (h.registered e he)
  threaded := by
    have hzero : update s.memo (n + 1) (some (.obj key)) FREE_LIST_REF = s.memo FREE_LIST_REF :=
      update_of_ne (succ_ne_zero n).symm ..
    exact hzero.trans h.threaded
  nodup := nodup_nil
  disjoint f hf := absurd hf not_mem_nil
  used i := by
    have hused := h.used i
    simp only [not_mem_nil, false_or, map_cons, mem_cons] at hused ⊢
    rw [hused]
    omega
  unused i hi := (update_of_ne (by omega) ..).trans (h.unused i (by omega))

/-- The first free slot is taken. -/
theorem take {f : Nat} (h : Inv s (f :: fs) n) (key : V) :
    Inv { memo := update (update s.memo FREE_LIST_REF (s.memo f)) f (some (.obj key)),
          live := (f, key) :: s.live } fs n where
  distinct := nodup_cons.mpr ⟨h.disjoint f mem_cons_self, h.distinct⟩
  registered e he := by
    rcases mem_cons.mp he with rfl | he
    · exact update_self ..
    · have hne : e.1 ≠ f := fun heq => h.disjoint f mem_cons_self (heq ▸ mem_map_of_mem he)
      have hzero : e.1 ≠ FREE_LIST_REF := Nat.ne_of_gt (h.pos_of_live he)
      exact (update_of_ne hne ..).trans ((update_of_ne hzero ..).trans (h.registered e he))
  threaded := by
    have hpos := h.pos_of_free mem_cons_self
    obtain ⟨hnotMem, -⟩ := nodup_cons.mp h.nodup
    refine h.threaded.2.2.congr ?_ fun g hg => ?_
    · exact (update_of_ne (Nat.ne_of_lt hpos) ..).trans (update_self ..)
    · have hne : g ≠ f := fun heq => hnotMem (heq ▸ hg)
      have hzero : g ≠ FREE_LIST_REF := Nat.ne_of_gt (h.pos_of_free (mem_cons_of_mem f hg))
      exact (update_of_ne hne ..).trans (update_of_ne hzero ..)
  nodup := (nodup_cons.mp h.nodup).2
  disjoint g hg := by
    have hne : g ≠ f := fun heq => (nodup_cons.mp h.nodup).1 (heq ▸ hg)
    exact fun hmem => (mem_cons.mp hmem).elim hne (h.disjoint g (mem_cons_of_mem f hg))
  used i := by
    rw [← h.used i, map_cons, mem_cons, mem_cons]
    tauto
  unused i hi := by
    have hne : i ≠ f := by
      have := ((h.used f).mp (.inl mem_cons_self)).2
      omega
    exact (update_of_ne hne ..).trans
      ((update_of_ne (show i ≠ FREE_LIST_REF by simp only [FREE_LIST_REF]; omega) ..).trans (h.unused i hi))

/-- A live slot becomes the first free one. -/
theorem release (h : Inv s fs n) {e : Nat × V} (he : e ∈ s.live) :
    Inv { memo := update (update s.memo e.1 (s.memo FREE_LIST_REF)) FREE_LIST_REF (some (.link e.1)),
          live := s.live.filter fun e' => (e'.1 : Int) ≠ (e.1 : Int) } (e.1 :: fs) n := by
  have hpos := h.pos_of_live he
  have hmem : ∀ i, i ∈ (s.live.filter fun e' => (e'.1 : Int) ≠ (e.1 : Int)).map fst ↔
      i ∈ s.live.map fst ∧ i ≠ e.1 := by
    intro i
    simp only [mem_map, mem_filter, decide_eq_true_eq, Int.ofNat_inj, ne_eq]
    constructor
    · rintro ⟨e', ⟨he', hne⟩, rfl⟩
      exact ⟨⟨e', he', rfl⟩, hne⟩
    · rintro ⟨⟨e', he', rfl⟩, hne⟩
      exact ⟨e', ⟨he', hne⟩, rfl⟩
  have hlive := mem_map_of_mem (f := fst) he
  have hfree : e.1 ∉ fs := fun hf => h.disjoint _ hf hlive
  exact
    { distinct := h.distinct.sublist (filter_sublist.map fst)
      registered := by
        intro e' he'
        obtain ⟨hold, hne⟩ := mem_filter.mp he'
        have hne : e'.1 ≠ e.1 := by
          have := of_decide_eq_true hne
          omega
        have hzero : e'.1 ≠ FREE_LIST_REF := Nat.ne_of_gt (h.pos_of_live hold)
        exact (update_of_ne hzero ..).trans ((update_of_ne hne ..).trans (h.registered e' hold))
      threaded := by
        have hhead : update (update s.memo e.1 (s.memo FREE_LIST_REF)) FREE_LIST_REF
            (some (.link e.1)) FREE_LIST_REF = some (.link e.1) := update_self ..
        refine ⟨hhead, Nat.ne_of_gt hpos, h.threaded.congr ?_ fun g hg => ?_⟩
        · exact (update_of_ne (Nat.ne_of_gt hpos) ..).trans (update_self ..)
        · have hne : g ≠ e.1 := fun heq => hfree (heq ▸ hg)
          have hzero : g ≠ FREE_LIST_REF := Nat.ne_of_gt (h.pos_of_free hg)
          exact (update_of_ne hzero ..).trans (update_of_ne hne ..)
      nodup := nodup_cons.mpr ⟨hfree, h.nodup⟩
      disjoint := by
        intro g hg hmem'
        obtain ⟨hold, hne⟩ := (hmem g).mp hmem'
        exact (mem_cons.mp hg).elim hne fun hg => h.disjoint g hg hold
      used := by
        intro i
        rw [← h.used i, hmem, mem_cons]
        constructor
        · rintro ((rfl | hi) | hi)
          · exact .inr hlive
          · exact .inl hi
          · exact .inr hi.1
        · rintro (hi | hi)
          · exact .inl (.inr hi)
          · by_cases heq : i = e.1
            · exact .inl (.inl heq)
            · exact .inr ⟨hi, heq⟩
      unused := by
        intro i hi
        have hne : i ≠ e.1 := by
          have := ((h.used e.1).mp (.inr hlive)).2
          omega
        have hzero : i ≠ FREE_LIST_REF := by
          simp only [FREE_LIST_REF]
          omega
        exact (update_of_ne hzero ..).trans ((update_of_ne hne ..).trans (h.unused i hi)) }

/-- What a call does. -/
theorem next (h : Inv s fs n) {call : Call V} (hallowed : Allowed s call) (hstep : step s call = some s') :
    ∃ fs' n', Inv s' fs' n' := by
  cases call with
  | ref_obj key len =>
    cases key with
    | none =>
      cases hstep
      exact ⟨fs, n, h⟩
    | some key =>
      obtain ⟨⟨ref, memo⟩, href, rfl⟩ := Option.map_eq_some_iff.mp hstep
      cases fs with
      | nil =>
        have hzero : s.memo FREE_LIST_REF = none := h.threaded
        simp only [LockRefs.ref_obj, hzero, Option.some.injEq, mk.injEq] at href
        obtain ⟨rfl, rfl⟩ := href
        obtain rfl := h.len_eq hallowed
        exact ⟨[], len + 1, h.grow key⟩
      | cons f fs =>
        obtain ⟨hlink, hne, -⟩ := h.threaded
        obtain ⟨g, rfl⟩ := exists_eq_succ_of_ne_zero hne
        simp only [LockRefs.ref_obj, hlink, Option.some.injEq, mk.injEq] at href
        obtain ⟨rfl, rfl⟩ := href
        exact ⟨fs, n, h.take key⟩
  | unref_obj ref =>
    cases hstep
    rcases hallowed with rfl | ⟨e, he, rfl⟩
    · refine ⟨fs, n, ?_⟩
      have hsame : (s.live.filter fun e => decide ((e.1 : Int) ≠ -1)) = s.live :=
        filter_eq_self.mpr fun e _ => decide_eq_true (by omega)
      rw [hsame]
      exact h
    · exact ⟨e.1 :: fs, n, h.release he⟩

theorem right (h : Inv s fs n) : Right s where
  distinct := h.distinct
  registered := h.registered
  free := ⟨fs, h.threaded, h.nodup, h.disjoint⟩
  total call := by
    cases call with
    | unref_obj ref => exact ⟨_, rfl⟩
    | ref_obj key len =>
      cases key with
      | none => exact ⟨_, rfl⟩
      | some key =>
        cases fs with
        | nil =>
          have hzero : s.memo FREE_LIST_REF = none := h.threaded
          simp [step, LockRefs.ref_obj, hzero]
        | cons f fs =>
          obtain ⟨hlink, hne, -⟩ := h.threaded
          obtain ⟨g, rfl⟩ := exists_eq_succ_of_ne_zero hne
          simp [step, LockRefs.ref_obj, hlink]

end Inv

/-- **Every run of calls that releases live references only.** -/
theorem refs_right (calls : List (Call V)) (h : Along step Allowed (.init : State V) calls) :
    Always step Right .init calls := by
  have halways : Always step (fun s : State V => ∃ fs n, Inv s fs n) .init calls :=
    always_of_along (fun s call s' ⟨fs, n, hinv⟩ hstep hok => hinv.next hok hstep) ⟨[], 0, Inv.init⟩ h
  exact halways.mono fun s ⟨fs, n, hinv⟩ => hinv.right

/-- The first slot is released and taken again. -/
theorem refs_right_again :
    let calls : List (Call String) :=
      [.ref_obj (some "a") 0, .ref_obj (some "b") 1, .unref_obj 1, .ref_obj (some "c") 2]
    Always step Right .init calls := by
  refine refs_right _ (.cons rfl ⟨.inl rfl, rfl⟩
    (.cons rfl ⟨.inr rfl, rfl⟩ (.cons rfl (.inr ⟨(1, "a"), ?_, rfl⟩) ?_)))
  · exact mem_cons_of_mem _ mem_cons_self
  · exact .cons rfl ⟨.inr rfl, rfl⟩ trivial

end OpenResty.Resty.LockRefs
