/-
Circular doubly linked lists through links embedded in the nodes, with a node
of its own for the list: the nodes in order, and what insertion and removal
do to the order.
-/
import Mathlib.Data.List.Nodup

namespace OpenResty.Lib

open List Function

/-- The two links of every node. -/
structure Links where
  prev : Nat → Nat
  next : Nat → Nat

namespace Links

def setPrev (l : Links) (a v : Nat) : Links := { l with prev := update l.prev a v }

def setNext (l : Links) (a v : Nat) : Links := { l with next := update l.next a v }

def init (l : Links) (h : Nat) : Links := (l.setPrev h h).setNext h h

def insertHead (l : Links) (h x : Nat) : Links :=
  let l := l.setNext x (l.next h)
  let l := l.setPrev (l.next x) x
  let l := l.setPrev x h
  l.setNext h x

def insertTail (l : Links) (h x : Nat) : Links :=
  let l := l.setPrev x (l.prev h)
  let l := l.setNext (l.prev x) x
  let l := l.setNext x h
  l.setPrev h x

def remove (l : Links) (x : Nat) : Links :=
  let prev := l.prev x
  let next := l.next x
  (l.setPrev next prev).setNext prev next

/-! ## Chains -/

/-- Neighbours are linked both ways. -/
def Linked (l : Links) : List Nat → Prop
  | a :: b :: rest => l.next a = b ∧ l.prev b = a ∧ Linked l (b :: rest)
  | _ => True

variable {l l' : Links}

theorem linked_append (as : List Nat) (x : Nat) (bs : List Nat) :
    Linked l (as ++ x :: bs) ↔ Linked l (as ++ [x]) ∧ Linked l (x :: bs) := by
  induction as with
  | nil => simp [Linked]
  | cons a as ih =>
    cases as with
    | nil => simp [Linked, and_assoc]
    | cons b as =>
      simp only [cons_append, Linked] at ih ⊢
      rw [ih]
      simp only [and_assoc]

variable {as bs xs ys : List Nat}

/-- A chain reads `next` of all but its last node and `prev` of all but its first. -/
theorem Linked.congr (h : Linked l xs)
    (hnext : ∀ a ∈ xs.dropLast, l'.next a = l.next a) (hprev : ∀ a ∈ xs.tail, l'.prev a = l.prev a) :
    Linked l' xs := by
  induction xs with
  | nil => trivial
  | cons a xs ih =>
    cases xs with
    | nil => trivial
    | cons b xs =>
      obtain ⟨hab, hba, hrest⟩ := h
      refine ⟨(hnext a (by simp)).trans hab, (hprev b (by simp)).trans hba, ih hrest ?_ ?_⟩
      · exact fun c hc => hnext c (by simp [hc])
      · exact fun c hc => hprev c (by simp at hc ⊢; exact .inr hc)

variable {a b h x : Nat}

/-- Where no node but the ends is twice, the neighbours `a` and `b` are
nowhere else. -/
theorem chain_apart (hnext : (as ++ a :: b :: bs).dropLast.Nodup)
    (hprev : (as ++ a :: b :: bs).tail.Nodup) :
    ((∀ c ∈ as, c ≠ a) ∧ ∀ c ∈ (b :: bs).dropLast, c ≠ a) ∧ (∀ c ∈ (as ++ [a]).tail, c ≠ b) ∧ ∀ c ∈ bs, c ≠ b := by
  have hdrop : (as ++ a :: b :: bs).dropLast = as ++ a :: (b :: bs).dropLast := by
    rw [dropLast_append_of_ne_nil (by simp), dropLast_cons_of_ne_nil (by simp)]
  have htail : (as ++ a :: b :: bs).tail = (as ++ [a]).tail ++ b :: bs := by
    rw [append_cons, tail_append_of_ne_nil (by simp)]
  rw [hdrop, nodup_append] at hnext
  rw [htail, nodup_append] at hprev
  refine ⟨⟨fun c hc => hnext.2.2 c hc a (by simp), ?_⟩, fun c hc => hprev.2.2 c hc b (by simp), ?_⟩
  · rintro c hc rfl
    exact (nodup_cons.mp hnext.2.1).1 hc
  · rintro c hc rfl
    exact (nodup_cons.mp hprev.2.1).1 hc

/-- `x` comes between `a` and `b`, and all other links stay. -/
structure Between (l l' : Links) (a x b : Nat) : Prop where
  next_a : l'.next a = x
  prev_x : l'.prev x = a
  next_x : l'.next x = b
  prev_b : l'.prev b = x
  next : ∀ c, c ≠ a → c ≠ x → l'.next c = l.next c
  prev : ∀ c, c ≠ b → c ≠ x → l'.prev c = l.prev c

theorem Linked.insert {l l' : Links} {as bs : List Nat} {a x b : Nat} (h : Linked l (as ++ a :: b :: bs))
    (hl : Between l l' a x b) (hx : x ∉ as ++ a :: b :: bs) (hnext : (as ++ a :: b :: bs).dropLast.Nodup)
    (hprev : (as ++ a :: b :: bs).tail.Nodup) : Linked l' (as ++ a :: x :: b :: bs) := by
  obtain ⟨⟨has, hbs⟩, has', hbs'⟩ := chain_apart hnext hprev
  have hne : ∀ c ∈ as ++ a :: b :: bs, c ≠ x := fun c hc heq => hx (heq ▸ hc)
  obtain ⟨hfront, -, -, hback⟩ := (linked_append as a (b :: bs)).mp h
  refine (linked_append as a (x :: b :: bs)).mpr ⟨?_, hl.next_a, hl.prev_x, hl.next_x, hl.prev_b, ?_⟩
  · refine hfront.congr (fun c hc => ?_) fun c hc => ?_
    · rw [dropLast_concat] at hc
      exact hl.next c (has c hc) (hne c (by simp [hc]))
    · exact hl.prev c (has' c hc) (hne c (by have := mem_of_mem_tail hc; simp at this; grind))
  · refine hback.congr (fun c hc => ?_) fun c hc => ?_
    · exact hl.next c (hbs c hc) (hne c (by have := dropLast_subset _ hc; simp at this; grind))
    · exact hl.prev c (hbs' c hc) (hne c (by simp at hc; simp [hc]))

theorem Linked.remove (h : Linked l (as ++ a :: x :: b :: bs))
    (hnext : (as ++ a :: b :: bs).dropLast.Nodup) (hprev : (as ++ a :: b :: bs).tail.Nodup) :
    Linked (l.remove x) (as ++ a :: b :: bs) := by
  obtain ⟨⟨has, hbs⟩, has', hbs'⟩ := chain_apart hnext hprev
  obtain ⟨hfront, -, hxa, hxb, -, hback⟩ := (linked_append as a (x :: b :: bs)).mp h
  have hn : ∀ c, c ≠ a → (l.remove x).next c = l.next c := fun c hc => by
    simp [Links.remove, setNext, setPrev, hxa, hc]
  have hp : ∀ c, c ≠ b → (l.remove x).prev c = l.prev c := fun c hc => by
    simp [Links.remove, setNext, setPrev, hxb, hc]
  refine (linked_append as a (b :: bs)).mpr ⟨?_, ?_, ?_, ?_⟩
  · refine hfront.congr (fun c hc => hn c (has c ?_)) fun c hc => hp c (has' c hc)
    rwa [dropLast_concat] at hc
  · simp [Links.remove, setNext, setPrev, hxa, hxb]
  · simp [Links.remove, setNext, setPrev, hxa, hxb]
  · exact hback.congr (fun c hc => hn c (hbs c hc)) fun c hc => hp c (hbs' c hc)

/-! ## Rings -/

/-- The list of node `h` holds `xs`, the head first. -/
structure Ring (l : Links) (h : Nat) (xs : List Nat) : Prop where
  nodup : (h :: xs).Nodup
  linked : Linked l (h :: (xs ++ [h]))

/-- A ring reads the links of its own nodes only. -/
theorem Ring.congr (hr : Ring l h xs)
    (hsame : ∀ a ∈ h :: xs, l'.next a = l.next a ∧ l'.prev a = l.prev a) : Ring l' h xs := by
  refine ⟨hr.nodup, hr.linked.congr (fun a ha => (hsame a ?_).1) fun a ha => (hsame a ?_).2⟩
  · rwa [← cons_append, dropLast_concat] at ha
  · rw [List.tail_cons, mem_append, mem_singleton] at ha
    exact mem_cons.mpr ha.symm

theorem mem_ring : b ∈ h :: (xs ++ [h]) ↔ b ∈ h :: xs := by
  simp only [mem_cons, mem_append, not_mem_nil, or_false]
  grind

theorem Ring.not_mem_rest (hr : Ring l h (xs ++ x :: ys)) : x ∉ h :: (xs ++ ys) := by
  have hn := hr.nodup
  rw [← cons_append, nodup_middle] at hn
  exact (nodup_cons.mp hn).1

theorem ring_init (l : Links) (h : Nat) : Ring (l.init h) h [] := by
  refine ⟨nodup_singleton h, ?_, ?_, trivial⟩
  · simp [init, setNext, setPrev]
  · simp [init, setNext, setPrev]

theorem nodup_ends (hnodup : (h :: xs).Nodup) :
    (h :: (xs ++ [h])).dropLast.Nodup ∧ (h :: (xs ++ [h])).tail.Nodup := by
  rw [← cons_append, dropLast_concat, cons_append, List.tail_cons]
  exact ⟨hnodup, (perm_append_singleton h xs).nodup_iff.mpr hnodup⟩

theorem Ring.last (hr : Ring l h (xs ++ [x])) : l.prev h = x := by
  have hl := hr.linked
  rw [append_assoc, ← cons_append, singleton_append, linked_append] at hl
  exact hl.2.2.1

theorem Ring.head (hr : Ring l h (x :: xs)) : l.next h = x := hr.linked.1

theorem Ring.isEmpty (hr : Ring l h xs) : l.prev h = h ↔ xs = [] := by
  constructor
  · intro hp
    rcases eq_nil_or_concat' xs with rfl | ⟨ys, x, rfl⟩
    · rfl
    · have hlast := hr.last
      rw [hp] at hlast
      subst hlast
      have := hr.nodup
      simp at this
  · rintro rfl
    exact hr.linked.2.1

/-- A node of the ring between its neighbours, in the ring with its own node
at both ends. -/
theorem around (h : Nat) (xs ys : List Nat) :
    ∃ as a b bs, h :: xs = as ++ [a] ∧ ys ++ [h] = b :: bs := by
  obtain ⟨as, a, ha⟩ := (eq_nil_or_concat' (h :: xs)).resolve_left (by simp)
  obtain ⟨b, bs, hb⟩ := exists_cons_of_ne_nil (show ys ++ [h] ≠ [] by simp)
  exact ⟨as, a, b, bs, ha, hb⟩

/-- Removal takes a node out of its place. -/
theorem Ring.remove (hr : Ring l h (xs ++ x :: ys)) : Ring (l.remove x) h (xs ++ ys) := by
  have hnodup : (h :: (xs ++ ys)).Nodup :=
    hr.nodup.sublist (((sublist_cons_self x ys).append_left xs).cons_cons h)
  have hends := nodup_ends hnodup
  obtain ⟨as, a, b, bs, ha, hb⟩ := around h xs ys
  have hwith : h :: (xs ++ x :: ys ++ [h]) = as ++ a :: x :: b :: bs := by
    rw [append_assoc, cons_append, hb, ← cons_append, ha]
    simp
  have hwithout : h :: (xs ++ ys ++ [h]) = as ++ a :: b :: bs := by
    rw [append_assoc, hb, ← cons_append, ha]
    simp
  have hlinked := hr.linked
  rw [hwith] at hlinked
  refine ⟨hnodup, ?_⟩
  rw [hwithout] at hends ⊢
  exact hlinked.remove hends.1 hends.2

theorem between_insertHead (hxh : x ≠ h) (hxn : x ≠ l.next h) : Between l (l.insertHead h x) h x (l.next h) := by
  simp only [Links.insertHead, setNext, setPrev, update_self]
  refine ⟨?_, ?_, ?_, ?_, fun c hch hcx => ?_, fun c hcn hcx => ?_⟩
  · simp
  · simp
  · simp [hxh]
  · simp [Ne.symm hxn]
  · simp [hch, hcx]
  · simp [hcn, hcx]

theorem between_insertTail (hxh : x ≠ h) (hxp : x ≠ l.prev h) : Between l (l.insertTail h x) (l.prev h) x h := by
  simp only [Links.insertTail, setNext, setPrev, update_self]
  refine ⟨?_, ?_, ?_, ?_, fun c hcp hcx => ?_, fun c hch hcx => ?_⟩
  · simp [Ne.symm hxp]
  · simp [hxh]
  · simp
  · simp
  · simp [hcp, hcx]
  · simp [hch, hcx]

theorem Ring.insertHead (hr : Ring l h xs) (hx : x ∉ h :: xs) : Ring (l.insertHead h x) h (x :: xs) := by
  have hends := nodup_ends hr.nodup
  have hmem : x ∉ h :: (xs ++ [h]) := fun h' => hx (mem_ring.mp h')
  have hlinked := hr.linked
  obtain ⟨b, bs, hb⟩ := exists_cons_of_ne_nil (show xs ++ [h] ≠ [] by simp)
  rw [hb] at hends hlinked hmem
  have hhead : l.next h = b := hlinked.1
  have hne : x ≠ h ∧ x ≠ b := by simp at hmem; exact ⟨hmem.1, hmem.2.1⟩
  refine ⟨?_, ?_⟩
  · exact (List.Perm.swap h x xs).nodup_iff.mp (nodup_cons.mpr ⟨hx, hr.nodup⟩)
  · have hbetween := between_insertHead (l := l) hne.1 (hhead.symm ▸ hne.2)
    rw [hhead] at hbetween
    rw [cons_append, hb]
    exact @Linked.insert l _ [] bs h x b hlinked hbetween hmem hends.1 hends.2

theorem Ring.insertTail (hr : Ring l h xs) (hx : x ∉ h :: xs) : Ring (l.insertTail h x) h (xs ++ [x]) := by
  have hends := nodup_ends hr.nodup
  have hmem : x ∉ h :: (xs ++ [h]) := fun h' => hx (mem_ring.mp h')
  have hlinked := hr.linked
  obtain ⟨as, a, ha⟩ := (eq_nil_or_concat' (h :: xs)).resolve_left (by simp)
  have hall : h :: (xs ++ [h]) = as ++ a :: h :: [] := by
    rw [← cons_append, ha]
    simp
  rw [hall] at hends hlinked hmem
  have htail : l.prev h = a := ((linked_append as a [h]).mp hlinked).2.2.1
  have hne : x ≠ h ∧ x ≠ a := by simp at hmem; exact ⟨hmem.2.2, hmem.2.1⟩
  refine ⟨?_, ?_⟩
  · rw [← cons_append]
    exact (perm_append_singleton x (h :: xs)).nodup_iff.mpr (nodup_cons.mpr ⟨hx, hr.nodup⟩)
  · have hbetween := between_insertTail (l := l) hne.1 (htail.symm ▸ hne.2)
    rw [htail] at hbetween
    have hwith : h :: (xs ++ [x] ++ [h]) = as ++ a :: x :: h :: [] := by
      rw [append_assoc, ← cons_append, ha]
      simp
    rw [hwith]
    exact Linked.insert hlinked hbetween hmem hends.1 hends.2

/-! ## What is beside a ring -/

theorem Ring.next_mem (hr : Ring l h xs) (ha : a ∈ h :: xs) : l.next a ∈ h :: xs := by
  obtain ⟨as, bs, hab⟩ := append_of_mem ha
  obtain ⟨b, bs', hb⟩ := exists_cons_of_ne_nil (show bs ++ [h] ≠ [] by simp)
  have hlinked := hr.linked
  have hall : h :: (xs ++ [h]) = as ++ a :: b :: bs' := by
    rw [← hb, ← cons_append, hab]
    simp
  rw [hall, linked_append] at hlinked
  rw [hlinked.2.1]
  exact mem_ring.mp (by rw [hall]; simp)

theorem Ring.prev_mem (hr : Ring l h xs) (ha : a ∈ h :: xs) : l.prev a ∈ h :: xs := by
  have ha' : a ∈ xs ++ [h] := by simpa [or_comm] using ha
  obtain ⟨as, bs, hab⟩ := append_of_mem ha'
  obtain ⟨as', b, hb⟩ := (eq_nil_or_concat' (h :: as)).resolve_left (by simp)
  have hlinked := hr.linked
  have hall : h :: (xs ++ [h]) = as' ++ b :: a :: bs := by
    rw [hab, ← cons_append, hb]
    simp
  rw [hall, linked_append] at hlinked
  rw [hlinked.2.2.1]
  exact mem_ring.mp (by rw [hall]; simp)

/-- Two link maps that differ in the links of `touched` only. -/
def Same (l l' : Links) (touched : List Nat) : Prop := ∀ c ∉ touched, l'.next c = l.next c ∧ l'.prev c = l.prev c

theorem Ring.beside {touched : List Nat} (hr : Ring l h xs) (hsame : Same l l' touched)
    (hdisj : ∀ a ∈ h :: xs, a ∉ touched) : Ring l' h xs :=
  hr.congr fun a ha => hsame a (hdisj a ha)

theorem same_init (l : Links) (h : Nat) : Same l (l.init h) [h] := by
  intro c hc
  have hch : c ≠ h := fun heq => hc (mem_singleton.mpr heq)
  simp [init, setNext, setPrev, hch]

theorem same_remove (hr : Ring l h xs) (hx : x ∈ xs) : Same l (l.remove x) (h :: xs) := by
  intro c hc
  have hnext := hr.next_mem (mem_cons_of_mem h hx)
  have hprev := hr.prev_mem (mem_cons_of_mem h hx)
  have hcn : c ≠ l.next x := fun heq => hc (heq ▸ hnext)
  have hcp : c ≠ l.prev x := fun heq => hc (heq ▸ hprev)
  simp [Links.remove, setNext, setPrev, hcn, hcp]

theorem same_insertHead (hr : Ring l h xs) (hx : x ∉ h :: xs) : Same l (l.insertHead h x) (x :: h :: xs) := by
  intro c hc
  have hnext := hr.next_mem (mem_cons_self (a := h) (l := xs))
  have hxn : x ≠ l.next h := fun heq => hx (heq ▸ hnext)
  have hxh : x ≠ h := fun heq => hx (heq ▸ mem_cons_self)
  have hbetween := between_insertHead hxh hxn
  have hcn : c ≠ l.next h := fun heq => hc (mem_cons_of_mem x (heq ▸ hnext))
  simp only [mem_cons, not_or] at hc
  exact ⟨hbetween.next c hc.2.1 hc.1, hbetween.prev c hcn hc.1⟩

theorem same_insertTail (hr : Ring l h xs) (hx : x ∉ h :: xs) : Same l (l.insertTail h x) (x :: h :: xs) := by
  intro c hc
  have hprev := hr.prev_mem (mem_cons_self (a := h) (l := xs))
  have hxp : x ≠ l.prev h := fun heq => hx (heq ▸ hprev)
  have hxh : x ≠ h := fun heq => hx (heq ▸ mem_cons_self)
  have hbetween := between_insertTail hxh hxp
  have hcp : c ≠ l.prev h := fun heq => hc (mem_cons_of_mem x (heq ▸ hprev))
  simp only [mem_cons, not_or] at hc
  exact ⟨hbetween.next c hcp hc.1, hbetween.prev c hc.2.1 hc.1⟩

end Links

end OpenResty.Lib
