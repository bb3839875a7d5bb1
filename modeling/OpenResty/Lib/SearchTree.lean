/-
Binary search trees of nodes that are compared through what they point to:
descent, insertion at a leaf, deletion of a node, and the rotations by which a
tree is balanced, all in terms of the nodes in order.
-/
import Mathlib.Data.List.Nodup
import Mathlib.Data.List.Perm.Basic

namespace OpenResty.Lib

open List

inductive Tree (α : Type)
  | leaf
  | node (left : Tree α) (a : α) (right : Tree α)

namespace Tree

variable {α : Type}

def inorder : Tree α → List α
  | leaf => []
  | node left a right => left.inorder ++ a :: right.inorder

/-- Down to a node that is what is sought; `cmp a` compares that with `a`. -/
def descend (cmp : α → Ordering) : Tree α → Option α
  | leaf => none
  | node left a right =>
    match cmp a with
    | .lt => left.descend cmp
    | .eq => some a
    | .gt => right.descend cmp

/-- Down to a leaf, to the left of the nodes that `x` is `before`. -/
def insertLeaf (before : α → Bool) (x : α) : Tree α → Tree α
  | leaf => node leaf x leaf
  | node left a right =>
    if before a then node (left.insertLeaf before x) a right else node left a (right.insertLeaf before x)

/-- The leftmost node, and the tree without it. -/
def takeMin : Tree α → Option (α × Tree α)
  | leaf => none
  | node left a right =>
    match left.takeMin with
    | none => some (a, right)
    | some (x, left) => some (x, node left a right)

/-- A node with one child at most is replaced by it, and another one by the
leftmost node to its right. -/
def glue (left right : Tree α) : Tree α :=
  match left with
  | leaf => right
  | left =>
    match right.takeMin with
    | none => left
    | some (subst, right) => node left subst right

def delete [DecidableEq α] (x : α) : Tree α → Tree α
  | leaf => leaf
  | node left a right => if a = x then left.glue right else node (left.delete x) a (right.delete x)

/-- A rotation somewhere in the tree. -/
inductive Rotation : Tree α → Tree α → Prop
  | left {l m r : Tree α} {a b : α} : Rotation (node l a (node m b r)) (node (node l a m) b r)
  | right {l m r : Tree α} {a b : α} : Rotation (node (node l a m) b r) (node l a (node m b r))
  | inLeft {l l' r : Tree α} {a : α} : Rotation l l' → Rotation (node l a r) (node l' a r)
  | inRight {l r r' : Tree α} {a : α} : Rotation r r' → Rotation (node l a r) (node l a r')

/-- Any number of rotations. -/
def Rotated : Tree α → Tree α → Prop := Relation.ReflTransGen Rotation

variable {t t' : Tree α}

theorem Rotation.inorder (h : Rotation t t') : t'.inorder = t.inorder := by
  induction h with
  | left => simp [Tree.inorder]
  | right => simp [Tree.inorder]
  | inLeft _ ih => simp [Tree.inorder, ih]
  | inRight _ ih => simp [Tree.inorder, ih]

theorem Rotated.inorder (h : Rotated t t') : t'.inorder = t.inorder := by
  induction h with
  | refl => rfl
  | tail _ hstep ih => rw [hstep.inorder, ih]

/-! ## Insertion and deletion -/

/-- Where the nodes that `x` is before are behind the others, it comes between them. -/
theorem inorder_insertLeaf_sorted {before : α → Bool} (x : α)
    (h : t.inorder.Pairwise fun a b => before a = true → before b = true) :
    ∃ as bs, t.inorder = as ++ bs ∧ (t.insertLeaf before x).inorder = as ++ x :: bs ∧
      (∀ a ∈ as, before a = false) ∧ ∀ b ∈ bs, before b = true := by
  induction t with
  | leaf => exact ⟨[], [], rfl, rfl, by simp, by simp⟩
  | node left a right ihl ihr =>
    obtain ⟨hleft, hright, hacross⟩ := pairwise_append.mp h
    obtain ⟨hroot, hright⟩ := pairwise_cons.mp hright
    rw [insertLeaf]
    split
    · next hbefore =>
      obtain ⟨as, bs, heq, hnew, has, hbs⟩ := ihl hleft
      refine ⟨as, bs ++ a :: right.inorder, by simp [inorder, heq], by simp [inorder, hnew], has, ?_⟩
      intro b hb
      rcases mem_append.mp hb with hb | hb
      · exact hbs b hb
      · rcases mem_cons.mp hb with rfl | hb
        · exact hbefore
        · exact hroot b hb hbefore
    · next hnot =>
      obtain ⟨as, bs, heq, hnew, has, hbs⟩ := ihr hright
      refine ⟨left.inorder ++ a :: as, bs, by simp [inorder, heq], by simp [inorder, hnew], ?_, hbs⟩
      intro b hb
      rcases mem_append.mp hb with hb | hb
      · exact Bool.eq_false_iff.mpr fun hbefore => hnot (hacross b hb a mem_cons_self hbefore)
      · rcases mem_cons.mp hb with rfl | hb
        · exact Bool.eq_false_iff.mpr hnot
        · exact has b hb

/-- Only what goes before `x` among the nodes matters. -/
theorem insertLeaf_congr {before before' : α → Bool} (x : α)
    (h : ∀ a ∈ t.inorder, before a = before' a) :
    t.insertLeaf before x = t.insertLeaf before' x := by
  induction t with
  | leaf => rfl
  | node left a right ihl ihr =>
    simp only [inorder, mem_append, mem_cons] at h
    rw [insertLeaf, insertLeaf, h a (.inr (.inl rfl)), ihl fun b hb => h b (.inl hb), ihr fun b hb =>
      h b (.inr (.inr hb))]

theorem inorder_takeMin (t : Tree α) :
    match t.takeMin with
    | none => t.inorder = []
    | some (x, t') => t.inorder = x :: t'.inorder := by
  induction t with
  | leaf => rfl
  | node left a right ihl _ =>
    rw [takeMin]
    cases hmin : left.takeMin with
    | none =>
      rw [hmin] at ihl
      dsimp only at ihl ⊢
      rw [inorder, ihl, nil_append]
    | some p =>
      rw [hmin] at ihl
      dsimp only at ihl ⊢
      rw [inorder, ihl]
      rfl

theorem inorder_glue (left right : Tree α) : (left.glue right).inorder = left.inorder ++ right.inorder := by
  cases left with
  | leaf => rfl
  | node l a r =>
    have hmin := inorder_takeMin right
    rw [glue]
    · cases h : right.takeMin with
      | none =>
        rw [h] at hmin
        dsimp only at hmin ⊢
        rw [hmin, append_nil]
      | some p =>
        rw [h] at hmin
        dsimp only at hmin ⊢
        rw [hmin]
        rfl
    · intro h
      cases h

theorem inorder_delete [DecidableEq α] {x : α} (h : t.inorder.Nodup) : (t.delete x).inorder = t.inorder.erase x := by
  induction t with
  | leaf => rfl
  | node left a right ihl ihr =>
    have hall := h
    rw [inorder] at h
    obtain ⟨hleft, hright, hapart⟩ := nodup_append.mp h
    obtain ⟨hroot, hright⟩ := nodup_cons.mp hright
    rw [delete]
    split
    · next hx =>
      subst hx
      have hnot : a ∉ left.inorder := fun hin => hapart a hin a mem_cons_self rfl
      rw [inorder_glue, inorder, erase_append_right _ hnot, erase_cons_head]
    · next hx =>
      rw [inorder, inorder, ihl hleft, ihr hright]
      by_cases hin : x ∈ left.inorder
      · have hnot : x ∉ right.inorder := fun hr => hapart x hin x (mem_cons_of_mem _ hr) rfl
        rw [erase_append_left _ hin, erase_of_not_mem hnot]
      · rw [erase_append_right _ hin, erase_of_not_mem hin, erase_cons_tail (by simpa using hx)]

/-! ## Descent -/

/-- Nodes in the order that `cmp` goes by: what is sought is not behind a node
that is not in front of it. -/
def Ordered (cmp : α → Ordering) (as : List α) : Prop := as.Pairwise fun a b => cmp a ≠ .gt → cmp b = .lt

/-- Descent finds the node, wherever it is. -/
theorem descend_eq_some {cmp : α → Ordering} (h : Ordered cmp t.inorder) {a : α} :
    t.descend cmp = some a ↔ a ∈ t.inorder ∧ cmp a = .eq := by
  induction t with
  | leaf => simp [descend, inorder]
  | node left b right ihl ihr =>
    obtain ⟨hleft, hright, hacross⟩ := pairwise_append.mp h
    obtain ⟨hroot, hright⟩ := pairwise_cons.mp hright
    have hsides : a ∈ (node left b right).inorder ↔ a ∈ left.inorder ∨ a = b ∨ a ∈ right.inorder := by simp [inorder]
    rw [hsides, descend]
    cases hb : cmp b with
    | lt =>
      dsimp only
      rw [ihl hleft]
      refine ⟨fun ⟨hin, heq⟩ => ⟨.inl hin, heq⟩, fun ⟨hin, heq⟩ => ⟨?_, heq⟩⟩
      rcases hin with hin | rfl | hin
      · exact hin
      · rw [hb] at heq
        cases heq
      · rw [hroot a hin (by rw [hb]; exact Ordering.noConfusion)] at heq
        cases heq
    | eq =>
      dsimp only
      refine ⟨fun h => ?_, fun ⟨hin, heq⟩ => ?_⟩
      · cases h
        exact ⟨.inr (.inl rfl), hb⟩
      · rcases hin with hin | rfl | hin
        · rw [hacross a hin b mem_cons_self (by rw [heq]; exact Ordering.noConfusion)] at hb
          cases hb
        · rfl
        · rw [hroot a hin (by rw [hb]; exact Ordering.noConfusion)] at heq
          cases heq
    | gt =>
      dsimp only
      rw [ihr hright]
      refine ⟨fun ⟨hin, heq⟩ => ⟨.inr (.inr hin), heq⟩, fun ⟨hin, heq⟩ => ⟨?_, heq⟩⟩
      rcases hin with hin | rfl | hin
      · rw [hacross a hin b mem_cons_self (by rw [heq]; exact Ordering.noConfusion)] at hb
        cases hb
      · rw [hb] at heq
        cases heq
      · exact hin

end Tree

end OpenResty.Lib
