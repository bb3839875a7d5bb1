/-
What a shared dictionary keeps: the nodes of the tree are those of the queue,
in the order of hash and key. And what the steps that its operations are made
of do to the entries: to the one they are about, and to the others.
-/
import Mathlib.Data.List.Lex
import Mathlib.Data.List.Pairwise
import Mathlib.Data.Prod.Lex
import OpenResty.Lib.Keyed
import OpenResty.NgxLua.Shdict

namespace OpenResty.NgxLua.Shdict

open Lib List Function

variable {N : Type}

/-! ## The order of the nodes -/

/-- The bytes of a key, as numbers. -/
def nums (key : Bytes) : List Nat := key.map UInt8.toNat

theorem nums_inj {a b : Bytes} (h : nums a = nums b) : a = b :=
  map_injective_iff.mpr (fun _ _ => UInt8.toNat_inj.mp) h

theorem memn2cmp_cons (a b : UInt8) (s1 s2 : Bytes) :
    memn2cmp (a :: s1) (b :: s2) = if a < b then .lt else if b < a then .gt else memn2cmp s1 s2 := by
  unfold memn2cmp
  rw [memcmp]
  by_cases hlt : a < b
  · rw [if_pos hlt, if_pos hlt]
  · rw [if_neg hlt, if_neg hlt]
    by_cases hgt : b < a
    · rw [if_pos hgt, if_pos hgt]
    · rw [if_neg hgt, if_neg hgt]
      simp only [length_cons, Nat.compare_eq_ite_lt, Nat.add_lt_add_iff_right]

/-- Keys are compared as numbers from the left, a shorter one before a longer. -/
theorem memn2cmp_iff (a b : Bytes) :
    (memn2cmp a b = .lt ↔ nums a < nums b) ∧ (memn2cmp a b = .eq ↔ a = b) := by
  induction a generalizing b with
  | nil =>
    cases b with
    | nil => simp [memn2cmp, memcmp, nums]
    | cons b bs => simp [memn2cmp, memcmp, nums, Nat.compare_eq_ite_lt]
  | cons a as ih =>
    cases b with
    | nil => simp [memn2cmp, memcmp, nums, Nat.compare_eq_ite_lt]
    | cons b bs =>
      obtain ⟨hlt, heq⟩ := ih bs
      rw [memn2cmp_cons]
      simp only [nums, map_cons, cons_lt_cons_iff, ← UInt8.lt_iff_toNat_lt, UInt8.toNat_inj,
        List.cons.injEq]
      rcases lt_trichotomy a.toNat b.toNat with h | h | h
      · have hab : a < b := UInt8.lt_iff_toNat_lt.mpr h
        have hne : a ≠ b := fun heq => by rw [heq] at h; exact lt_irrefl _ h
        simp [hab, hne]
      · obtain rfl : a = b := UInt8.toNat_inj.mp h
        have hirr : ¬ a < a := fun h => lt_irrefl _ (UInt8.lt_iff_toNat_lt.mp h)
        rw [if_neg hirr, if_neg hirr]
        exact ⟨hlt.trans (by simp [hirr, nums]), heq.trans (by simp)⟩
      · have hba : b < a := UInt8.lt_iff_toNat_lt.mpr h
        have hab : ¬ a < b := fun hab => lt_asymm h (UInt8.lt_iff_toNat_lt.mp hab)
        have hne : a ≠ b := fun heq => by rw [heq] at h; exact lt_irrefl _ h
        simp [hba, hab, hne]

/-- Where a node belongs: by its hash, then by its key. -/
def order (hash : Nat) (key : Bytes) : ℕ ×ₗ List ℕ := toLex (hash, nums key)

def Node.order (sd : Node N) : ℕ ×ₗ List ℕ := Shdict.order sd.hash sd.key

theorem order_inj {hash hash' : Nat} {key key' : Bytes} (h : order hash key = order hash' key') :
    hash = hash' ∧ key = key' := by
  obtain ⟨hhash, hkey⟩ := Prod.ext_iff.mp (toLex_inj.mp h)
  exact ⟨hhash, nums_inj hkey⟩

/-- The comparison of a lookup. -/
def sought (hash : Nat) (key : Bytes) (sd : Node N) : Ordering :=
  if hash < sd.hash then .lt else if sd.hash < hash then .gt else memn2cmp key sd.key

theorem sought_iff (hash : Nat) (key : Bytes) (sd : Node N) :
    (sought hash key sd = .lt ↔ order hash key < sd.order) ∧
      (sought hash key sd = .eq ↔ order hash key = sd.order) := by
  obtain ⟨hlt, heq⟩ := memn2cmp_iff key sd.key
  have horder : order hash key < sd.order ↔ hash < sd.hash ∨ hash = sd.hash ∧ nums key < nums sd.key :=
    Prod.Lex.toLex_lt_toLex
  have hsame : order hash key = sd.order ↔ hash = sd.hash ∧ key = sd.key :=
    ⟨order_inj, fun ⟨h, h'⟩ => by rw [Node.order, ← h, ← h']⟩
  rw [horder, hsame, sought]
  rcases lt_trichotomy hash sd.hash with h | h | h
  · rw [if_pos h]
    exact ⟨iff_of_true rfl (.inl h), iff_of_false Ordering.noConfusion fun h' => absurd h'.1 (Nat.ne_of_lt h)⟩
  · rw [if_neg (by omega), if_neg (by omega)]
    exact ⟨hlt.trans (by simp [h]), heq.trans (by simp [h])⟩
  · rw [if_neg (by omega), if_pos h]
    exact ⟨iff_of_false Ordering.noConfusion (by omega), iff_of_false Ordering.noConfusion (by omega)⟩

theorem before_iff (sdn sdnt : Node N) : sdn.before sdnt = true ↔ sdn.order < sdnt.order := by
  refine Iff.trans ?_ (sought_iff sdn.hash sdn.key sdnt).1
  rw [Node.before, sought]
  split
  · simp
  · split
    · simp
    · simp

/-! ## The nodes -/

/-- The nodes of the tree are those of the queue, no two with the same hash
and key, and the tree is ordered by hash and key. -/
structure Rep (z : Zone) (d : Shctx N) : Prop where
  perm : d.rbtree.inorder.Perm d.lru_queue
  nodup : d.lru_queue.Nodup
  ordered : d.rbtree.inorder.Pairwise fun a b => (d.node a).order < (d.node b).order
  hashed : ∀ sd ∈ d.lru_queue, (d.node sd).hash = z.crc32_short (d.node sd).key
  old : ∀ sd ∈ d.lru_queue, sd < d.fresh

theorem rep_init (z : Zone) (node : Nat → Node N) : Rep z (Shctx.init node) where
  perm := .refl _
  nodup := nodup_nil
  ordered := List.Pairwise.nil
  hashed := fun sd h => by cases h
  old := fun sd h => by cases h

variable {z : Zone} {d d' : Shctx N} {sd : Nat} {key : Bytes} {now : Nat}

/-- A key has one node. -/
theorem Rep.unique (h : Rep z d) {a b : Nat} (ha : a ∈ d.lru_queue) (hb : b ∈ d.lru_queue)
    (hkey : (d.node a).key = (d.node b).key) : a = b := by
  have horder : (d.node a).order = (d.node b).order := by
    rw [Node.order, Node.order, h.hashed a ha, h.hashed b hb, hkey]
  have hapart : d.rbtree.inorder.Pairwise fun a b => (d.node a).order ≠ (d.node b).order :=
    h.ordered.imp fun hlt => ne_of_lt hlt
  by_contra hne
  have hsymm : Std.Symm fun a b => (d.node a).order ≠ (d.node b).order := ⟨fun _ _ hne => hne.symm⟩
  exact hapart.forall (h.perm.mem_iff.mpr ha) (h.perm.mem_iff.mpr hb) hne horder

/-- What the nodes hold, the last used first. -/
def Shctx.queue (d : Shctx N) : List (Node N) := d.lru_queue.map d.node

theorem Rep.rest (h : Rep z d) (hsd : sd ∈ d.lru_queue) :
    (d.lru_queue.erase sd).map d.node = others Node.key (d.node sd).key d.queue := by
  rw [h.nodup.erase_eq_filter, others, Shctx.queue, filter_map]
  congr 1
  refine filter_congr fun a ha => ?_
  by_cases heq : a = sd
  · simp [heq]
  · have hkey : (d.node a).key ≠ (d.node sd).key := fun hkey => heq (h.unique ha hsd hkey)
    simp [heq, hkey]

theorem Rep.entry_of_mem (h : Rep z d) {n : Node N} (hn : n ∈ d.queue) : entry Node.key n.key d.queue = some n := by
  cases hentry : entry Node.key n.key d.queue with
  | none => exact absurd rfl (entry_eq_none.mp hentry n hn)
  | some m =>
    obtain ⟨a, ha, rfl⟩ := mem_map.mp hn
    obtain ⟨b, hb, rfl⟩ := mem_map.mp (mem_of_entry hentry)
    rw [h.unique hb ha (key_of_entry hentry)]

/-- The node that was last used: `sd`, which holds `n`; `rest` are the others. -/
structure Front (z : Zone) (d : Shctx N) (sd : Nat) (n : Node N) (rest : List (Node N)) : Prop where
  rep : Rep z d
  head : ∃ l, d.lru_queue = sd :: l ∧ l.map d.node = rest
  node : d.node sd = n

variable {n n' : Node N} {rest : List (Node N)}

theorem Front.queue (h : Front z d sd n rest) : d.queue = n :: rest := by
  obtain ⟨l, hl, hrest⟩ := h.head
  rw [Shctx.queue, hl, map_cons, hrest, h.node]

theorem Front.mem (h : Front z d sd n rest) : sd ∈ d.lru_queue := by
  obtain ⟨l, hl, -⟩ := h.head
  rw [hl]
  exact mem_cons_self

/-! ## Steps of the operations -/

theorem Rep.toFront (h : Rep z d) (hsd : sd ∈ d.lru_queue) :
    Front z (d.toFront sd) sd (d.node sd) (others Node.key (d.node sd).key d.queue) where
  rep :=
    have hperm : (sd :: d.lru_queue.erase sd).Perm d.lru_queue := (perm_cons_erase hsd).symm
    { perm := h.perm.trans hperm.symm
      nodup := hperm.nodup_iff.mpr h.nodup
      ordered := h.ordered
      hashed := fun a ha => h.hashed a (hperm.mem_iff.mp ha)
      old := fun a ha => h.old a (hperm.mem_iff.mp ha) }
  head := ⟨_, rfl, h.rest hsd⟩
  node := rfl

/-- The front stays where it is. -/
theorem Front.toFront (h : Front z d sd n rest) : Front z (d.toFront sd) sd n rest := by
  obtain ⟨l, hl, hrest⟩ := h.head
  have hsame : d.toFront sd = d := by rw [Shctx.toFront, hl, erase_cons_head, ← hl]
  rw [hsame]
  exact h

theorem Rep.remove (h : Rep z d) (hsd : sd ∈ d.lru_queue) :
    Rep z (d.remove z sd) ∧ (d.remove z sd).queue = others Node.key (d.node sd).key d.queue := by
  have htree : (d.remove z sd).rbtree.inorder = d.rbtree.inorder.erase sd := by
    rw [Shctx.remove, (z.delete_rotates _).inorder, Lib.Tree.inorder_delete (h.perm.nodup_iff.mpr h.nodup)]
  refine ⟨?_, h.rest hsd⟩
  exact {
    perm := by rw [htree]; exact h.perm.erase sd
    nodup := h.nodup.erase sd
    ordered := by rw [htree]; exact h.ordered.sublist erase_sublist
    hashed := fun a ha => h.hashed a (mem_of_mem_erase ha)
    old := fun a ha => h.old a (mem_of_mem_erase ha) }

theorem Front.remove (h : Front z d sd n rest) : Rep z (d.remove z sd) ∧ (d.remove z sd).queue = rest := by
  obtain ⟨l, hl, hrest⟩ := h.head
  refine ⟨(h.rep.remove h.mem).1, ?_⟩
  rw [Shctx.queue, Shctx.remove, hl, erase_cons_head, hrest]

theorem setNode_self : (d.setNode sd n).node sd = n := update_self ..

theorem setNode_ne {a : Nat} (h : a ≠ sd) : (d.setNode sd n).node a = d.node a := update_of_ne h ..

/-- Nodes that change but for hash and key are where they were. -/
theorem Rep.changed (h : Rep z d) {node : Nat → Node N}
    (hnode : ∀ a, (node a).hash = (d.node a).hash ∧ (node a).key = (d.node a).key) : Rep z { d with node } := by
  have horder : ∀ a, (node a).order = (d.node a).order := by
    intro a
    rw [Node.order, Node.order, (hnode a).1, (hnode a).2]
  exact {
    perm := h.perm
    nodup := h.nodup
    ordered := h.ordered.imp fun hlt => by rw [horder, horder]; exact hlt
    hashed := fun a ha => by rw [(hnode a).1, (hnode a).2]; exact h.hashed a ha
    old := h.old }

theorem Rep.setNode (h : Rep z d) (hhash : n.hash = (d.node sd).hash) (hkey : n.key = (d.node sd).key) :
    Rep z (d.setNode sd n) := by
  refine h.changed fun a => ?_
  by_cases ha : a = sd
  · subst ha
    rw [update_self]
    exact ⟨hhash, hkey⟩
  · rw [update_of_ne ha]
    exact ⟨rfl, rfl⟩

theorem Front.setNode (h : Front z d sd n rest) (n' : Node N) (hhash : n'.hash = n.hash) (hkey : n'.key = n.key) :
    Front z (d.setNode sd n') sd n' rest := by
  obtain ⟨l, hl, hrest⟩ := h.head
  have hnot : sd ∉ l := (nodup_cons.mp (hl ▸ h.rep.nodup)).1
  refine ⟨h.rep.setNode (hhash.trans (by rw [h.node])) (hkey.trans (by rw [h.node])), ⟨l, hl, ?_⟩, setNode_self⟩
  rw [← hrest]
  refine map_congr_left fun a ha => setNode_ne fun heq => hnot ?_
  rw [← heq]
  exact ha

/-- A node whose key has none yet. -/
theorem Rep.addNode (h : Rep z d) (hhash : n.hash = z.crc32_short n.key)
    (habsent : entry Node.key n.key d.queue = none) :
    Front z (d.addNode z n) d.fresh n d.queue := by
  have hnew : ∀ a ∈ d.lru_queue, a ≠ d.fresh := fun a ha => Nat.ne_of_lt (h.old a ha)
  have hnode : ∀ a ∈ d.lru_queue, (d.addNode z n).node a = d.node a := fun a ha =>
    update_of_ne (hnew a ha) ..
  have hself : (d.addNode z n).node d.fresh = n := update_self ..
  have hmem : ∀ a ∈ d.rbtree.inorder, a ∈ d.lru_queue := fun a ha => h.perm.mem_iff.mp ha
  have hapart : ∀ a ∈ d.lru_queue, (d.node a).order ≠ n.order := fun a ha hsame =>
    entry_eq_none.mp habsent _ (mem_map_of_mem ha) (order_inj hsame).2
  have hsorted : d.rbtree.inorder.Pairwise fun a b => n.before (d.node a) = true → n.before (d.node b) = true :=
    h.ordered.imp fun hlt hbefore => (before_iff ..).mpr (((before_iff ..).mp hbefore).trans hlt)
  obtain ⟨as, bs, heq, hadd, has, hbs⟩ := Lib.Tree.inorder_insertLeaf_sorted d.fresh hsorted
  have htree : (d.addNode z n).rbtree.inorder = as ++ d.fresh :: bs := by
    rw [Shctx.addNode, (z.insert_rotates _).inorder, hadd]
  have hin : ∀ a ∈ as ++ bs, a ∈ d.lru_queue := fun a ha => hmem a (heq ▸ ha)
  have hordered := h.ordered
  rw [heq] at hordered
  refine ⟨?_, ⟨_, rfl, map_congr_left hnode⟩, hself⟩
  exact {
    perm := by
      rw [htree]
      refine perm_middle.trans (List.Perm.cons _ ?_)
      rw [← heq]
      exact h.perm
    nodup := nodup_cons.mpr ⟨fun ha => hnew _ ha rfl, h.nodup⟩
    ordered := by
      obtain ⟨hleft, hright, hacross⟩ := pairwise_append.mp hordered
      rw [htree]
      refine pairwise_append.mpr ⟨?_, pairwise_cons.mpr ⟨?_, ?_⟩, ?_⟩
      · refine hleft.imp_of_mem fun {a b} ha hb hlt => ?_
        rw [hnode a (hin a (mem_append_left _ ha)), hnode b (hin b (mem_append_left _ hb))]
        exact hlt
      · intro b hb
        rw [hself, hnode b (hin b (mem_append_right _ hb))]
        exact (before_iff ..).mp (hbs b hb)
      · refine hright.imp_of_mem fun {a b} ha hb hlt => ?_
        rw [hnode a (hin a (mem_append_right _ ha)), hnode b (hin b (mem_append_right _ hb))]
        exact hlt
      · intro a ha b hb
        have hain := hin a (mem_append_left _ ha)
        rw [hnode a hain]
        rcases mem_cons.mp hb with rfl | hb
        · rw [hself]
          refine lt_of_le_of_ne (not_lt.mp fun hlt => ?_) (hapart a hain)
          exact Bool.false_ne_true ((has a ha).symm.trans ((before_iff ..).mpr hlt))
        · rw [hnode b (hin b (mem_append_right _ hb))]
          exact hacross a ha b hb
    hashed := by
      intro a ha
      rcases mem_cons.mp ha with rfl | ha
      · rw [hself]
        exact hhash
      · rw [hnode a ha]
        exact h.hashed a ha
    old := by
      intro a ha
      rcases mem_cons.mp ha with rfl | ha
      · exact Nat.lt_succ_self _
      · exact Nat.lt_succ_of_lt (h.old a ha) }

/-- A node that is put where its hash belongs and then gets its key, when no
other node has that hash. -/
theorem Rep.addNode_setNode (h : Rep z d) (hhash : n'.hash = n.hash) (hclear : ∀ m ∈ d.queue, m.hash ≠ n.hash) :
    (d.addNode z n').setNode d.fresh n = d.addNode z n := by
  have hbefore : ∀ a ∈ d.rbtree.inorder, n'.before (d.node a) = n.before (d.node a) := by
    intro a ha
    have hne : (d.node a).hash ≠ n.hash := hclear _ (mem_map_of_mem (h.perm.mem_iff.mp ha))
    rw [Node.before, Node.before, hhash]
    rcases Nat.lt_or_gt_of_ne hne with hlt | hgt
    · rw [if_neg (by omega), if_pos hlt, if_neg (by omega), if_pos hlt]
    · rw [if_pos hgt, if_pos hgt]
  unfold Shctx.addNode Shctx.setNode
  dsimp only
  rw [Lib.Tree.insertLeaf_congr d.fresh hbefore, update_idem]

/-- Whether a lookup calls it expired. -/
def Node.expired (now : Nat) (sd : Node N) : Prop := sd.expires ≠ 0 ∧ sd.ms now < 0

instance (now : Nat) (sd : Node N) : Decidable (sd.expired now) := inferInstanceAs (Decidable (_ ∧ _))

/-- A lookup finds the node of the key and brings it to the front. -/
theorem Rep.lookup (h : Rep z d) (now : Nat) (key : Bytes) :
    entry Node.key key d.queue = none ∧ d.lookup z now key = (.declined, d) ∨
      ∃ n sd, entry Node.key key d.queue = some n ∧ Front z (d.toFront sd) sd n (others Node.key key d.queue) ∧
        (n.expired now ∧ d.lookup z now key = (.done sd, d.toFront sd) ∨
          ¬ n.expired now ∧ d.lookup z now key = (.ok sd, d.toFront sd)) := by
  let cmp := fun node => sought (z.crc32_short key) key (d.node node)
  have hordered : Lib.Tree.Ordered cmp d.rbtree.inorder := h.ordered.imp fun hlt hnot => by
    refine (sought_iff ..).1.mpr (lt_of_le_of_lt ?_ hlt)
    cases hcmp : cmp _ with
    | lt => exact le_of_lt ((sought_iff ..).1.mp hcmp)
    | eq => exact le_of_eq ((sought_iff ..).2.mp hcmp)
    | gt => exact absurd hcmp hnot
  have hfound : ∀ sd, d.rbtree.descend cmp = some sd ↔ sd ∈ d.lru_queue ∧ (d.node sd).key = key := by
    intro sd
    rw [Lib.Tree.descend_eq_some hordered, h.perm.mem_iff]
    refine and_congr_right fun hsd => (sought_iff ..).2.trans ⟨fun hsame => (order_inj hsame).2.symm, fun hkey => ?_⟩
    rw [Node.order, h.hashed sd hsd, hkey]
  have hrun : d.lookup z now key = (d.rbtree.descend cmp).elim (.declined, d) fun sd =>
      (if (d.node sd).expires ≠ 0 ∧ (d.node sd).ms now < 0 then .done sd else .ok sd, d.toFront sd) := by
    unfold Shctx.lookup
    dsimp only
    split
    · next heq =>
      rw [show d.rbtree.descend cmp = none from heq]
      rfl
    · next sd heq =>
      rw [show d.rbtree.descend cmp = some sd from heq]
      rfl
  cases hdescend : d.rbtree.descend cmp with
  | none =>
    refine .inl ⟨entry_eq_none.mpr fun n hn hkey => ?_, by rw [hrun, hdescend, Option.elim_none]⟩
    obtain ⟨sd, hsd, rfl⟩ := mem_map.mp hn
    rw [(hfound sd).mpr ⟨hsd, hkey⟩] at hdescend
    cases hdescend
  | some sd =>
    obtain ⟨hsd, hkey⟩ := (hfound sd).mp hdescend
    have hfront := h.toFront hsd
    have hentry : entry Node.key key d.queue = some (d.node sd) := by
      rw [← hkey]
      exact h.entry_of_mem (mem_map_of_mem hsd)
    refine .inr ⟨d.node sd, sd, hentry, hkey ▸ hfront, ?_⟩
    by_cases hexp : (d.node sd).expired now
    · exact .inl ⟨hexp, by rw [hrun, hdescend, Option.elim_some]; exact congrArg (·, _) (if_pos hexp)⟩
    · exact .inr ⟨hexp, by rw [hrun, hdescend, Option.elim_some]; exact congrArg (·, _) (if_neg hexp)⟩

/-! ## Room for a node -/

/-- Whether the scan from the end of the queue calls it expired. -/
def Node.scanned (now : Nat) (sd : Node N) : Prop := sd.expires ≠ 0 ∧ sd.ms now ≤ 0

theorem Rep.removeLast (h : Rep z d) (hlast : d.lru_queue.getLast? = some sd) :
    Rep z (d.remove z sd) ∧ d.queue = (d.remove z sd).queue ++ [d.node sd] := by
  obtain ⟨l, hl⟩ := getLast?_eq_some_iff.mp hlast
  have hsd : sd ∈ d.lru_queue := mem_of_getLast? hlast
  have hnot : sd ∉ l := fun hin => (nodup_append.mp (hl ▸ h.nodup)).2.2 sd hin sd
    (mem_singleton_self sd) rfl
  refine ⟨(h.remove hsd).1, ?_⟩
  rw [Shctx.queue, Shctx.queue, Shctx.remove, hl, erase_append_right _ hnot, erase_cons_head,
    append_nil, map_append]
  rfl

/-- The loop takes nodes from the end: expired ones, but for the first when it is forced. -/
theorem Rep.expireLoop (h : Rep z d) (now rounds : Nat) (forced : Bool) :
    Rep z (Shctx.expireLoop z now rounds forced d).2 ∧
      Dropped (fun n => forced = true ∨ n.scanned now) d.queue (Shctx.expireLoop z now rounds forced d).2.queue := by
  induction rounds generalizing d forced with
  | zero => exact ⟨h, .refl⟩
  | succ rounds ih =>
    rw [Shctx.expireLoop]
    cases hlast : d.lru_queue.getLast? with
    | none => exact ⟨h, .refl⟩
    | some sd =>
      dsimp only
      split
      · exact ⟨h, .refl⟩
      · next hgo =>
        obtain ⟨hrep, hqueue⟩ := h.removeLast hlast
        obtain ⟨hrep', hdropped⟩ := ih hrep false
        refine ⟨hrep', Dropped.trans ⟨[d.node sd], hqueue, fun n hn => ?_⟩ (hdropped.mono fun n _ hgone => ?_)⟩
        · obtain rfl := mem_singleton.mp hn
          rw [Node.scanned]
          cases forced with
          | true => exact .inl rfl
          | false =>
            simp only [Bool.not_false, true_and, not_or, not_lt] at hgo
            exact .inr hgo
        · exact .inr (hgone.resolve_left Bool.false_ne_true)

/-- The scan before an operation takes expired nodes only. -/
theorem Rep.scan (h : Rep z d) (now : Nat) :
    Rep z (d.expire z now 1).2 ∧ Dropped (Node.scanned now) d.queue (d.expire z now 1).2.queue := by
  obtain ⟨hrep, hdropped⟩ := h.expireLoop now 2 false
  exact ⟨hrep, hdropped.mono fun _ _ hgone => hgone.resolve_left Bool.false_ne_true⟩

theorem Rep.force (h : Rep z d) (now : Nat) :
    Rep z (d.expire z now 0).2 ∧ Dropped (fun _ => True) d.queue (d.expire z now 0).2.queue := by
  obtain ⟨hrep, hdropped⟩ := h.expireLoop now 3 true
  exact ⟨hrep, hdropped.mono fun _ _ _ => trivial⟩

theorem Rep.evictLoop (h : Rep z d) (now : Nat) (slab : Slab) (rounds i : Nat) (forcible : Bool) :
    Rep z (d.evictLoop z now slab rounds i forcible).2.2 ∧
      Dropped (fun _ => True) d.queue (d.evictLoop z now slab rounds i forcible).2.2.queue := by
  induction rounds generalizing d i forcible with
  | zero => exact ⟨h, .refl⟩
  | succ rounds ih =>
    obtain ⟨hrep, hdropped⟩ := h.force now
    rw [Shctx.evictLoop]
    dsimp only
    split
    · exact ⟨hrep, hdropped⟩
    · split
      · exact ⟨hrep, hdropped⟩
      · obtain ⟨hrep', hdropped'⟩ := ih hrep (i + 1) true
        exact ⟨hrep', hdropped.trans hdropped'⟩

/-- Nodes are removed for a new one only when the slab has no memory at first. -/
theorem Rep.allocate (h : Rep z d) (now : Nat) (slab : Slab) (safe : Bool) :
    Rep z (d.allocate z now slab safe).2.2 ∧
      Dropped (fun _ => slab 0 = none) d.queue (d.allocate z now slab safe).2.2.queue ∧
      ((d.allocate z now slab safe).1 = none → slab 0 = none) := by
  rw [Shctx.allocate]
  cases hslab : slab 0 with
  | some mem => exact ⟨h, .refl, fun hnone => by cases hnone⟩
  | none =>
    dsimp only
    split
    · exact ⟨h, .refl, fun _ => rfl⟩
    · obtain ⟨hrep, hdropped⟩ := h.evictLoop now slab 30 1 false
      exact ⟨hrep, hdropped.mono fun _ _ _ => rfl, fun _ => rfl⟩

end OpenResty.NgxLua.Shdict
