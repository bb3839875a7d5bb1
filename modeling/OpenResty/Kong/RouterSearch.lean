/-
What a search finds: among the APIs that match the resolved request one of the
best category, with the longest known URI or the longest URI of its own.
-/
import OpenResty.Kong.Router

namespace OpenResty.Kong.Router

open List Function Option Prod

variable {lua : Lua} {strips strips' : Strips} {api_t a b : ApiT} {apis apis_t : List ApiT}
  {method uri : Text} {host : Option Text}
  {rules : Rules}

/-! ## Matching an API -/

/-- Whether a rule of an API holds -/
def holds (api_t : ApiT) (method uri : Text) (host : Option Text) : Rule → Prop
  | .host => ∃ h, host = some h ∧ h ∈ api_t.hosts
  | .uri => (matchUri api_t uri).isSome
  | .method => method ∈ api_t.methods

def Matches (api_t : ApiT) (method uri : Text) (host : Option Text) : Prop :=
  ∀ rule, api_t.match_rules.has rule = true → holds api_t method uri host rule

/-- What a match leaves of the API's URI to strip -/
def Strips.leave (strips : Strips) (api_t : ApiT) (uri : Text) : Strips :=
  if api_t.api.strip_uri then update strips api_t.id (matchUri api_t uri) else strips

theorem matchers_fst (strips : Strips) (api_t : ApiT) (method uri : Text) (host : Option Text) (rule : Rule) :
    (matchers strips api_t method uri host rule).1 = true ↔ holds api_t method uri host rule := by
  cases rule with
  | host =>
    simp only [matchers, holds, Option.any_eq_true, decide_eq_true_eq]
  | uri =>
    simp only [matchers, holds]
    split
    · next found hfound => simp [hfound]
    · next hnone => simp [hnone]
  | method => simp [matchers, holds]

theorem matchers_snd (strips : Strips) (api_t : ApiT) (method uri : Text) (host : Option Text) (rule : Rule) :
    (matchers strips api_t method uri host rule).2 = strips ∨
    rule = .uri ∧ (matchers strips api_t method uri host rule).2 = strips.leave api_t uri := by
  cases rule with
  | host => exact .inl rfl
  | uri =>
    simp only [matchers]
    split
    · next found hfound => exact .inr ⟨trivial, by rw [Strips.leave, hfound]⟩
    · exact .inl rfl
  | method => exact .inl rfl

theorem matchers_uri (strips : Strips) (api_t : ApiT) (method uri : Text) (host : Option Text)
    (h : (matchers strips api_t method uri host .uri).1 = true) :
    (matchers strips api_t method uri host .uri).2 = strips.leave api_t uri := by
  simp only [matchers] at h ⊢
  split at h
  · next found hfound => simp only [hfound, Strips.leave]
  · cases h

theorem leave_leave : (strips.leave api_t uri).leave api_t uri = strips.leave api_t uri := by
  unfold Strips.leave
  split
  · exact update_idem ..
  · rfl

theorem matchAll_fst (rules : List Rule) : (matchAll strips api_t method uri host rules).1 = true ↔
    ∀ rule ∈ rules, holds api_t method uri host rule := by
  induction rules generalizing strips with
  | nil => simp [matchAll]
  | cons rule rules ih =>
    have hrule := matchers_fst strips api_t method uri host rule
    simp only [matchAll, forall_mem_cons]
    split
    · next strips' heq =>
      rw [heq] at hrule
      rw [ih]
      exact ⟨fun h => ⟨hrule.mp rfl, h⟩, And.right⟩
    · next strips' heq =>
      rw [heq] at hrule
      exact ⟨fun h => (by cases h), fun h => (by cases hrule.mpr h.1)⟩

/-- The matchers touch what is to be stripped of their API only, and a match
settles that. -/
theorem matchAll_snd (rules : List Rule) :
    ((matchAll strips api_t method uri host rules).2 = strips ∨
      .uri ∈ rules ∧ (matchAll strips api_t method uri host rules).2 = strips.leave api_t uri) ∧
    ((matchAll strips api_t method uri host rules).1 = true → .uri ∈ rules →
      (matchAll strips api_t method uri host rules).2 = strips.leave api_t uri) := by
  induction rules generalizing strips with
  | nil => exact ⟨.inl rfl, fun _ h => by cases h⟩
  | cons rule rules ih =>
    have hsnd := matchers_snd strips api_t method uri host rule
    have huri := matchers_uri strips api_t method uri host
    simp only [matchAll]
    split
    · next strips₁ heq =>
      rw [heq] at hsnd
      obtain ⟨hrest, hdone⟩ := @ih strips₁
      have hleave : strips₁.leave api_t uri = strips.leave api_t uri := by
        rcases hsnd with rfl | ⟨-, rfl⟩
        · rfl
        · exact leave_leave
      rw [hleave] at hrest hdone
      refine ⟨?_, fun hmatch hmem => ?_⟩
      · rcases hrest with hrest | ⟨hmem, hrest⟩
        · rw [hrest]
          exact hsnd.imp id fun h => ⟨by rw [h.1]; exact mem_cons_self, h.2⟩
        · exact .inr ⟨mem_cons_of_mem rule hmem, hrest⟩
      · rcases mem_cons.mp hmem with rfl | hmem
        · have hstrips₁ : strips₁ = strips.leave api_t uri := by
            rw [heq] at huri
            exact huri rfl
          rcases hrest with hrest | ⟨-, hrest⟩
          · rw [hrest, hstrips₁]
          · exact hrest
        · exact hdone hmatch hmem
    · next strips₁ heq =>
      rw [heq] at hsnd
      exact ⟨hsnd.imp id fun h => ⟨by rw [h.1]; exact mem_cons_self, h.2⟩, fun h => by cases h⟩

theorem match_api_fst : (match_api lua strips api_t method uri host).1 = true ↔ Matches api_t method uri host := by
  rw [match_api, matchAll_fst]
  refine forall_congr' fun rule => ?_
  rw [mem_filter]
  exact ⟨fun h hrule => h ⟨lua.pairs_all rule, hrule⟩, fun h hrule => h hrule.2⟩

theorem match_api_snd : (match_api lua strips api_t method uri host).2 = strips ∨
    api_t.match_rules.uri = true ∧ (match_api lua strips api_t method uri host).2 = strips.leave api_t uri := by
  refine (matchAll_snd _).1.imp id fun h => ⟨?_, h.2⟩
  exact (mem_filter.mp h.1).2

/-- A match settles what is to be stripped. -/
theorem match_api_leaves (hmatch : Matches api_t method uri host) (huri : api_t.match_rules.uri = true) :
    (match_api lua strips api_t method uri host).2 = strips.leave api_t uri :=
  (matchAll_snd _).2 (match_api_fst.mpr hmatch) (mem_filter.mpr ⟨lua.pairs_all .uri, huri⟩)

/-! ## What is left to be stripped -/

/-- Only APIs that strip one of their URIs are touched. -/
def Touched (apis_t : List ApiT) (strips strips' : Strips) : Prop :=
  ∀ i, strips' i ≠ strips i → ∃ a ∈ apis_t, a.id = i ∧ a.api.strip_uri = true ∧ a.match_rules.uri = true

theorem Touched.refl : Touched apis_t strips strips := fun _ h => absurd rfl h

theorem Touched.trans {strips'' : Strips} (h : Touched apis_t strips strips') (h' : Touched apis_t strips' strips'') :
    Touched apis_t strips strips'' := fun i hi => by
  by_cases hsame : strips'' i = strips' i
  · exact h i fun heq => hi (hsame.trans heq)
  · exact h' i hsame

theorem touched_leave (ha : a ∈ apis_t) (huri : a.match_rules.uri = true) :
    Touched apis_t strips (strips.leave a uri) := by
  intro i hi
  unfold Strips.leave at hi
  split at hi
  · next hstrip =>
    refine ⟨a, ha, ?_, hstrip, huri⟩
    by_contra hne
    exact hi (update_of_ne (Ne.symm hne) ..)
  · exact absurd rfl hi

theorem touched_match (ha : a ∈ apis_t) : Touched apis_t strips (match_api lua strips a method uri host).2 := by
  rcases match_api_snd with hsame | ⟨huri, hleft⟩
  · rw [hsame]
    exact .refl
  · rw [hleft]
    exact touched_leave ha huri

/-- What a search does to what is to be stripped. -/
structure Leaves (apis_t : List ApiT) (uri : Text) (strips : Strips) (found : Option ApiT × Strips) : Prop where
  touched : Touched apis_t strips found.2
  left : ∀ a, found.1 = some a → a.match_rules.uri = true → a.api.strip_uri = true → found.2 a.id = matchUri a uri

theorem Leaves.none (h : Touched apis_t strips strips') :
    Leaves apis_t uri strips (.none, strips') := ⟨h, fun _ h => by cases h⟩

theorem Leaves.after {found : Option ApiT × Strips} (h : Touched apis_t strips strips')
    (h' : Leaves apis_t uri strips' found) :
    Leaves apis_t uri strips found := ⟨h.trans h'.touched, h'.left⟩

theorem leaves_match (ha : a ∈ apis_t) (hmatch : Matches a method uri host) :
    Leaves apis_t uri strips (some a, (match_api lua strips a method uri host).2) := by
  refine ⟨touched_match ha, fun b hb huri hstrip => ?_⟩
  cases hb
  rw [match_api_leaves hmatch huri, Strips.leave, if_pos hstrip, update_self]

theorem leaves_firstMatch (lua : Lua) (method uri : Text) (host : Option Text) (strips : Strips)
    (l : List ApiT) (hl : ∀ a ∈ l, a ∈ apis_t) :
    Leaves apis_t uri strips (firstMatch lua method uri host strips l) := by
  induction l generalizing strips with
  | nil => exact .none .refl
  | cons a l ih =>
    rw [firstMatch]
    have htouched : Touched apis_t strips (match_api lua strips a method uri host).2 :=
      touched_match (hl a mem_cons_self)
    split
    · next strips₁ heq =>
      have hmatch : Matches a method uri host := match_api_fst.mp (congrArg fst heq)
      have hleaves : Leaves apis_t uri strips (some a, (match_api lua strips a method uri host).2) :=
        leaves_match (hl a mem_cons_self) hmatch
      rwa [heq] at hleaves
    · next strips₁ heq =>
      rw [heq] at htouched
      exact .after htouched (ih _ fun b hb => hl b (mem_cons_of_mem a hb))

/-! ## The first of a list -/

theorem match_api_same (strips strips' : Strips) (a : ApiT) :
    (match_api lua strips a method uri host).1 = (match_api lua strips' a method uri host).1 :=
  Bool.eq_iff_iff.mpr (match_api_fst.trans match_api_fst.symm)

/-- What is found does not depend on what was stripped. -/
theorem firstMatch_fst (lua : Lua) (method uri : Text) (host : Option Text) (strips : Strips) (l : List ApiT) :
    (firstMatch lua method uri host strips l).1 = l.find? fun a =>
      (match_api lua (fun _ => none) a method uri host).1 := by
  induction l generalizing strips with
  | nil => rfl
  | cons a l ih =>
    rw [firstMatch, find?_cons, match_api_same _ strips]
    split
    · next heq => rw [heq]
    · next heq =>
      rw [heq]
      exact ih _

theorem firstMatch_none (l : List ApiT) (h : (firstMatch lua method uri host strips l).1 = none) :
    ∀ a ∈ l, ¬ Matches a method uri host := by
  rw [firstMatch_fst, find?_eq_none] at h
  exact fun a ha hmatch => h a ha (match_api_fst.mpr hmatch)

theorem firstMatch_some (l : List ApiT) (h : (firstMatch lua method uri host strips l).1 = some a) :
    ∃ as bs, l = as ++ a :: bs ∧ Matches a method uri host ∧ ∀ b ∈ as, ¬ Matches b method uri host := by
  rw [firstMatch_fst, find?_eq_some_iff_append] at h
  obtain ⟨hmatch, as, bs, hsplit, has⟩ := h
  refine ⟨as, bs, hsplit, match_api_fst.mp hmatch, fun b hb hmatch => ?_⟩
  have hnot := has b hb
  rw [match_api_fst.mpr hmatch] at hnot
  cases hnot

variable {done l : List ApiT}

/-- In a sorted list the first has the longest URI. -/
theorem firstMatch_longest (hsorted : l.Pairwise fun a b => maxUri b ≤ maxUri a)
    (h : (firstMatch lua method uri host strips l).1 = some a) :
    ∀ b ∈ l, Matches b method uri host → maxUri b ≤ maxUri a := by
  obtain ⟨as, bs, rfl, -, has⟩ := firstMatch_some l h
  intro b hb hmatch
  rcases mem_append.mp hb with hb | hb
  · exact absurd hmatch (has b hb)
  · rcases mem_cons.mp hb with rfl | hb
    · exact Nat.le_refl _
    · exact (pairwise_cons.mp (pairwise_append.mp hsorted).2.1).1 b hb

/-! ## A category -/

/-- The lists of a category have the APIs of its rules, sorted but for those by
URIs. -/
structure Lists (apis_t : List ApiT) (rules : Rules) (category : Category) : Prop where
  apis : ∀ a, a ∈ category.apis ↔ a ∈ apis_t ∧ a.match_rules = rules
  sorted : category.apis.Pairwise fun a b => maxUri b ≤ maxUri a
  hosts : ∀ h l, category.apis_by_plain_hosts h = some l →
    (∀ a, a ∈ l ↔ (a ∈ apis_t ∧ a.match_rules = rules) ∧ h ∈ a.hosts) ∧ l.Pairwise fun a b => maxUri b ≤ maxUri a
  uris : ∀ u l, category.apis_by_plain_uris u = some l → ∀ a, a ∈ l ↔ (a ∈ apis_t ∧ a.match_rules = rules) ∧
    u ∈ a.uris
  methods : ∀ m l, category.apis_by_methods m = some l →
    (∀ a, a ∈ l ↔ (a ∈ apis_t ∧ a.match_rules = rules) ∧ m ∈ a.methods) ∧ l.Pairwise fun a b => maxUri b ≤ maxUri a

variable {category : Category}

theorem smaller_cases {acc c : Option (List ApiT)} (h : smaller acc c = some l) : acc = some l ∨ c = some l := by
  unfold smaller at h
  split at h
  · exact .inl h
  · exact .inr h
  · split at h
    · exact .inr h
    · exact .inl h

theorem foldl_smaller (cs : List (Option (List ApiT))) {acc : Option (List ApiT)}
    (h : cs.foldl smaller acc = some l) : acc = some l ∨ some l ∈ cs := by
  induction cs generalizing acc with
  | nil => exact .inl h
  | cons c cs ih =>
    rcases ih h with hacc | hmem
    · exact (smaller_cases hacc).imp id fun hc => by rw [hc]; exact mem_cons_self
    · exact .inr (mem_cons_of_mem c hmem)

/-- The candidates come from one of the rules of the category. -/
theorem reduce_some (h : reduce lua category rules method uri host = some l) :
    ∃ rule, rules.has rule = true ∧ reducers category method uri host rule = some l := by
  rcases foldl_smaller _ h with hacc | hmem
  · cases hacc
  · obtain ⟨rule, hrule, heq⟩ := mem_map.mp hmem
    exact ⟨rule, (mem_filter.mp hrule).2, heq⟩

/-- Of the candidates the first that matches has the URI itself, or the longest
URI of all that match. -/
theorem candidates_best (hlists : Lists apis_t rules category)
    (hl : reduce lua category rules method uri host = some l)
    (h : (firstMatch lua method uri host strips l).1 = some a) :
    (a ∈ apis_t ∧ a.match_rules = rules) ∧
      (uri ∈ a.uris ∨ ∀ b ∈ category.apis, Matches b method uri host → maxUri b ≤ maxUri a) := by
  obtain ⟨rule, hrule, hreducer⟩ := reduce_some hl
  obtain ⟨as, bs, hsplit, -, -⟩ := firstMatch_some l h
  have ha : a ∈ l := by rw [hsplit]; simp
  cases rule with
  | host =>
    obtain ⟨host₁, rfl, hreducer⟩ := bind_eq_some_iff.mp hreducer
    obtain ⟨hmem, hsorted⟩ := hlists.hosts host₁ l hreducer
    refine ⟨((hmem a).mp ha).1, .inr fun b hb hmatch => firstMatch_longest hsorted h b ?_ hmatch⟩
    have hb' := (hlists.apis b).mp hb
    obtain ⟨host₂, hhost, hlisted⟩ := hmatch .host (by rw [hb'.2]; exact hrule)
    cases hhost
    exact (hmem b).mpr ⟨hb', hlisted⟩
  | uri =>
    have hmem := (hlists.uris uri l hreducer a).mp ha
    exact ⟨hmem.1, .inl hmem.2⟩
  | method =>
    obtain ⟨hmem, hsorted⟩ := hlists.methods method l hreducer
    refine ⟨((hmem a).mp ha).1, .inr fun b hb hmatch => firstMatch_longest hsorted h b ?_ hmatch⟩
    have hb' := (hlists.apis b).mp hb
    exact (hmem b).mpr ⟨hb', hmatch .method (by rw [hb'.2]; exact hrule)⟩

theorem searchCategory_none (h : (searchCategory lua category rules method uri host strips).1 = none) :
    ∀ a ∈ category.apis, ¬ Matches a method uri host := by
  unfold searchCategory at h
  split at h
  · cases h
  · exact firstMatch_none _ h

theorem searchCategory_some (hlists : Lists apis_t rules category)
    (h : (searchCategory lua category rules method uri host strips).1 = some a) :
    (a ∈ apis_t ∧ a.match_rules = rules) ∧ Matches a method uri host ∧
      (uri ∈ a.uris ∨ ∀ b ∈ category.apis, Matches b method uri host → maxUri b ≤ maxUri a) := by
  unfold searchCategory at h
  split at h
  · next b strips₁ heq =>
    cases h
    have hfirst := congrArg fst heq
    cases hl : reduce lua category rules method uri host with
    | none =>
      rw [hl] at hfirst
      cases hfirst
    | some l =>
      rw [hl] at hfirst
      obtain ⟨_, _, _, hmatch, _⟩ := firstMatch_some _ hfirst
      exact ⟨(candidates_best hlists hl hfirst).1, hmatch, (candidates_best hlists hl hfirst).2⟩
  · next strips₁ heq =>
    obtain ⟨as, bs, hsplit, hmatch, -⟩ := firstMatch_some _ h
    exact ⟨(hlists.apis a).mp (by rw [hsplit]; simp), hmatch, .inr (firstMatch_longest hlists.sorted h)⟩

theorem leaves_searchCategory (hlists : Lists apis_t rules category) :
    Leaves apis_t uri strips (searchCategory lua category rules method uri host strips) := by
  have hcandidates : ∀ a ∈ (reduce lua category rules method uri host).getD [], a ∈ apis_t := fun a ha => by
    cases hl : reduce lua category rules method uri host with
    | none =>
      rw [hl] at ha
      cases ha
    | some l =>
      rw [hl] at ha
      obtain ⟨rule, -, hreducer⟩ := reduce_some hl
      cases rule with
      | host =>
        obtain ⟨host₁, rfl, hreducer⟩ := bind_eq_some_iff.mp hreducer
        exact (((hlists.hosts host₁ l hreducer).1 a).mp ha).1.1
      | uri => exact ((hlists.uris uri l hreducer a).mp ha).1.1
      | method => exact (((hlists.methods method l hreducer).1 a).mp ha).1.1
  have hfirst := leaves_firstMatch lua method uri host strips _ hcandidates
  unfold searchCategory
  split
  · next b strips₁ heq => rwa [heq] at hfirst
  · next strips₁ heq =>
    rw [heq] at hfirst
    exact .after hfirst.touched (leaves_firstMatch lua method uri host strips₁ _ fun a ha =>
      ((hlists.apis a).mp ha).1)

/-! ## All categories -/

/-- The categories hold the APIs by their rules. -/
structure Filed (apis_t : List ApiT) (tables : Tables) : Prop where
  none : ∀ rules, tables.categories rules = none → ∀ a ∈ apis_t, a.match_rules ≠ rules
  some : ∀ rules category, tables.categories rules = some category → Lists apis_t rules category

variable {tables : Tables}

theorem searchFrom_none (hfiled : Filed apis_t tables) (cs : List Rules)
    (h : (searchFrom lua tables method uri host strips cs).1 = none) :
    ∀ a ∈ apis_t, a.match_rules ∈ cs → ¬ Matches a method uri host := by
  induction cs generalizing strips with
  | nil => exact fun _ _ hmem => by cases hmem
  | cons c cs ih =>
    intro a ha hmem
    rw [searchFrom] at h
    split at h
    · next hnone =>
      rcases mem_cons.mp hmem with hc | hmem
      · exact absurd hc (hfiled.none c hnone a ha)
      · exact ih h a ha hmem
    · next category hcategory =>
      split at h
      · cases h
      · next strips₁ heq =>
        rcases mem_cons.mp hmem with hc | hmem
        · exact searchCategory_none (congrArg fst heq) a
            (((hfiled.some c category hcategory).apis a).mpr ⟨ha, hc⟩)
        · exact ih h a ha hmem

/-- What is found is of the first category in which an API matches. -/
theorem searchFrom_some (hfiled : Filed apis_t tables) (cs : List Rules)
    (h : (searchFrom lua tables method uri host strips cs).1 = some a) :
    a ∈ apis_t ∧ Matches a method uri host ∧
      (∃ as bs, cs = as ++ a.match_rules :: bs ∧ ∀ b ∈ apis_t, b.match_rules ∈ as → ¬ Matches b method uri host) ∧
      (uri ∈ a.uris ∨ ∀ b ∈ apis_t, b.match_rules = a.match_rules → Matches b method uri host →
        maxUri b ≤ maxUri a) := by
  induction cs generalizing strips with
  | nil => cases h
  | cons c cs ih =>
    have hskip (hc : ∀ b ∈ apis_t, b.match_rules = c → ¬ Matches b method uri host) (strips₁ : Strips)
        (hrest : (searchFrom lua tables method uri host strips₁ cs).1 = some a) :
        a ∈ apis_t ∧ Matches a method uri host ∧
          (∃ as bs, c :: cs = as ++ a.match_rules :: bs ∧ ∀ b ∈ apis_t, b.match_rules ∈ as →
            ¬ Matches b method uri host) ∧
          (uri ∈ a.uris ∨
            ∀ b ∈ apis_t, b.match_rules = a.match_rules → Matches b method uri host → maxUri b ≤ maxUri a) := by
      obtain ⟨ha, hmatch, ⟨as, bs, rfl, has⟩, hbest⟩ := ih hrest
      refine ⟨ha, hmatch, ⟨c :: as, bs, rfl, fun b hb hmem => ?_⟩, hbest⟩
      rcases mem_cons.mp hmem with hbc | hmem
      · exact hc b hb hbc
      · exact has b hb hmem
    rw [searchFrom] at h
    split at h
    · next hnone => exact hskip (fun b hb hbc => absurd hbc (hfiled.none c hnone b hb)) _ h
    · next category hcategory =>
      have hlists := hfiled.some c category hcategory
      split at h
      · next b strips₁ heq =>
        cases h
        obtain ⟨⟨ha, rfl⟩, hmatch, hbest⟩ := searchCategory_some hlists (congrArg fst heq)
        exact ⟨ha, hmatch, ⟨[], cs, rfl, fun _ _ hmem => by cases hmem⟩,
          hbest.imp id fun hall b hb hbc => hall b ((hlists.apis b).mpr ⟨hb, hbc⟩)⟩
      · next strips₁ heq =>
        exact hskip (fun b hb hbc =>
          searchCategory_none (congrArg fst heq) b ((hlists.apis b).mpr ⟨hb, hbc⟩)) _ h

theorem leaves_searchFrom (hfiled : Filed apis_t tables) (cs : List Rules) :
    Leaves apis_t uri strips (searchFrom lua tables method uri host strips cs) := by
  induction cs generalizing strips with
  | nil => exact .none .refl
  | cons c cs ih =>
    rw [searchFrom]
    split
    · exact ih
    · next category hcategory =>
      have hleaves : Leaves apis_t uri strips (searchCategory lua category c method uri host strips) :=
        leaves_searchCategory (hfiled.some c category hcategory)
      split
      · next b strips₁ heq => rwa [heq] at hleaves
      · next strips₁ heq =>
        rw [heq] at hleaves
        exact .after hleaves.touched ih

/-! ## Building the tables -/

theorem mem_insertUnder (keys : List Text) (table : Text → Option (List ApiT)) (key : Text) :
    b ∈ (insertUnder keys a table key).getD [] ↔ b ∈ (table key).getD [] ∨ b = a ∧ key ∈ keys := by
  induction keys generalizing table with
  | nil => simp [insertUnder]
  | cons k keys ih =>
    have hstep : insertUnder (k :: keys) a table =
        insertUnder keys a (update table k (some ((table k).getD [] ++ [a]))) := rfl
    rw [hstep, ih, mem_cons]
    by_cases hk : key = k
    · subst hk
      simp only [update_self, getD_some, mem_append, mem_singleton]
      grind
    · rw [update_of_ne hk]
      simp [hk]

def emptyCategory : Category :=
  { apis_by_plain_hosts := fun _ => none, apis_by_plain_uris := fun _ => none,
    apis_by_methods := fun _ => none, apis := [] }

/-- The lists have the APIs that were put in so far. -/
structure Put (done : List ApiT) (categories : Rules → Option Category) : Prop where
  apis : ∀ rules a, a ∈ ((categories rules).getD emptyCategory).apis ↔ a ∈ done ∧ a.match_rules = rules
  hosts : ∀ rules h a, a ∈ (((categories rules).getD emptyCategory).apis_by_plain_hosts h).getD [] ↔
    (a ∈ done ∧ a.match_rules = rules) ∧ h ∈ a.hosts
  uris : ∀ rules u a, a ∈ (((categories rules).getD emptyCategory).apis_by_plain_uris u).getD [] ↔
    (a ∈ done ∧ a.match_rules = rules) ∧ u ∈ a.uris
  methods : ∀ rules m a, a ∈ (((categories rules).getD emptyCategory).apis_by_methods m).getD [] ↔
    (a ∈ done ∧ a.match_rules = rules) ∧ m ∈ a.methods

theorem categorize_self (categories : Rules → Option Category) (a : ApiT) :
    (categorize_api_t categories a a.match_rules).getD emptyCategory =
      { apis := ((categories a.match_rules).getD emptyCategory).apis ++ [a]
        apis_by_plain_hosts := insertUnder a.hosts a ((categories a.match_rules).getD emptyCategory).apis_by_plain_hosts
        apis_by_plain_uris := insertUnder a.uris a ((categories a.match_rules).getD emptyCategory).apis_by_plain_uris
        apis_by_methods := insertUnder a.methods a ((categories a.match_rules).getD emptyCategory).apis_by_methods } := by
  rw [categorize_api_t, update_self]
  rfl

theorem categorize_ne {categories : Rules → Option Category} {a : ApiT} (h : rules ≠ a.match_rules) :
    categorize_api_t categories a rules = categories rules := update_of_ne h ..

/-- A table that an API is put in under its keys has it there. -/
theorem mem_categorize {categories : Rules → Option Category} (a : ApiT) (keys : ApiT → List Text)
    (table : Category → Text → Option (List ApiT))
    (hself : table ((categorize_api_t categories a a.match_rules).getD emptyCategory) =
      insertUnder (keys a) a (table ((categories a.match_rules).getD emptyCategory)))
    (h : ∀ rules k b, b ∈ (table ((categories rules).getD emptyCategory) k).getD [] ↔
      (b ∈ done ∧ b.match_rules = rules) ∧ k ∈ keys b) (rules : Rules) (k : Text) (b : ApiT) :
    b ∈ (table ((categorize_api_t categories a rules).getD emptyCategory) k).getD [] ↔
      (b ∈ done ++ [a] ∧ b.match_rules = rules) ∧ k ∈ keys b := by
  rw [mem_append, mem_singleton]
  by_cases hr : rules = a.match_rules
  · subst hr
    rw [hself, mem_insertUnder, h]
    grind
  · rw [categorize_ne hr, h]
    grind

theorem Put.categorize {categories : Rules → Option Category} (h : Put done categories) (a : ApiT) :
    Put (done ++ [a]) (categorize_api_t categories a) := by
  refine ⟨fun rules b => ?_, mem_categorize a ApiT.hosts Category.apis_by_plain_hosts ?_ h.hosts,
    mem_categorize a ApiT.uris Category.apis_by_plain_uris ?_ h.uris,
    mem_categorize a ApiT.methods Category.apis_by_methods ?_ h.methods⟩
  · rw [mem_append, mem_singleton]
    by_cases hr : rules = a.match_rules
    · subst hr
      rw [categorize_self, mem_append, h.apis, mem_singleton]
      grind
    · rw [categorize_ne hr, h.apis]
      grind
  · rw [categorize_self]
  · rw [categorize_self]
  · rw [categorize_self]

theorem Put.foldl {categories : Rules → Option Category} (h : Put done categories)
    (l : List ApiT) :
    Put (done ++ l) (l.foldl categorize_api_t categories) := by
  induction l generalizing done categories with
  | nil => rwa [append_nil]
  | cons a l ih =>
    rw [append_cons]
    exact ih (h.categorize a)

theorem filed_new (lua : Lua) (apis : List Api) : Filed (apis.mapIdx marshall_api) (new lua apis) := by
  have hput : Put (apis.mapIdx marshall_api) ((apis.mapIdx marshall_api).foldl categorize_api_t fun _ => none) := by
    have hempty : Put [] fun _ => none := ⟨fun _ _ => by simp [emptyCategory], fun _ _ _ => by simp [emptyCategory],
      fun _ _ _ => by simp [emptyCategory], fun _ _ _ => by simp [emptyCategory]⟩
    exact hempty.foldl _
  refine ⟨fun rules hnone a ha hr => ?_, fun rules category hcategory => ?_⟩
  · have hcategories := map_eq_none_iff.mp hnone
    have hmem := (hput.apis rules a).mpr ⟨ha, hr⟩
    rw [hcategories] at hmem
    cases hmem
  · obtain ⟨category, hcategories, rfl⟩ := map_eq_some_iff.mp hcategory
    have happs := hput.apis rules
    have hhosts := hput.hosts rules
    have huris := hput.uris rules
    have hmethods := hput.methods rules
    rw [hcategories] at happs hhosts huris hmethods
    simp only [getD_some] at happs hhosts huris hmethods
    refine ⟨fun a => ?_, lua.sort_sorted .., fun h l hl => ?_, fun u l hl a => ?_, fun m l hl => ?_⟩
    · rw [← happs]
      exact (lua.sort_perm ..).mem_iff
    · obtain ⟨l, hl', rfl⟩ := map_eq_some_iff.mp hl
      refine ⟨fun a => ?_, lua.sort_sorted ..⟩
      rw [← hhosts, hl']
      exact (lua.sort_perm ..).mem_iff
    · rw [← huris, show category.apis_by_plain_uris u = some l from hl]
      exact Iff.rfl
    · obtain ⟨l, hl', rfl⟩ := map_eq_some_iff.mp hl
      refine ⟨fun a => ?_, lua.sort_sorted ..⟩
      rw [← hmethods, hl']
      exact (lua.sort_perm ..).mem_iff

end OpenResty.Kong.Router
