/-
Flat programs with relative jumps, and the chains they are laid out from.

A flat program is a list of cells at positions `1, 2, ...`; each cell that is
executed says how far to jump, and no jump ends the run. A chain is a block
of cells that are executed one after the other as long as each succeeds. The
chain-structured evaluation of a list of chains (`chainRun`) enters a chain
at its head only; `flatRun_chains` says which jumps make the flat run of the
laid out cells land on the same positions.
-/
import Mathlib.Data.List.Basic

namespace OpenResty.Lib

open Option Nat

open List hiding getElem?_eq_some_iff

/-- Cells that continue the chain, and the one that closes it. -/
structure Chain {α : Type} (continues : α → Bool) where
  body : List α
  close : α
  body_continues : ∀ a ∈ body, continues a = true
  close_stops : continues close = false

namespace Chain

variable {α : Type} {continues : α → Bool}

def cells (c : Chain continues) : List α := c.body ++ [c.close]

/-- The cells of chains laid out one after the other. -/
def flatten (cs : List (Chain continues)) : List α := cs.flatMap cells

@[simp] theorem length_cells (c : Chain continues) : c.cells.length = c.body.length + 1 := by
  simp [cells]

@[simp] theorem flatten_nil : flatten ([] : List (Chain continues)) = [] := rfl

@[simp] theorem flatten_cons (c : Chain continues) (cs) : flatten (c :: cs) = c.cells ++ flatten cs := rfl

@[simp] theorem flatten_append (cs cs' : List (Chain continues)) :
    flatten (cs ++ cs') = flatten cs ++ flatten cs' := by
  simp [flatten]

end Chain

variable {α : Type} {continues : α → Bool}

/-! ## Running flat -/

/-- The positions a flat run lands on, from position `pc` on; `jump` is the
distance to the next position. `none` when the fuel runs out first. -/
def flatRun (prog : List α) (jump : Nat → α → Option Nat) : Nat → Nat → Option (List Nat)
  | 0, _ => none
  | fuel + 1, pc =>
    match prog[pc - 1]? with
    | none => some []
    | some a =>
      match jump pc a with
      | none => some [pc]
      | some d => (flatRun prog jump fuel (pc + d)).map (pc :: ·)

/-- The jump `j`, taken at `pos` in a program of `n` cells, leads to the
position `t`: no jump is as good as one past the end. -/
def Leads (n pos : Nat) (j : Option Nat) (t : Nat) : Prop :=
  match j with
  | none => n < t
  | some d => pos + d = t

/-- The flat run from `pc` ends, having landed on `vs`. -/
def Lands (prog : List α) (jump : Nat → α → Option Nat) (pc : Nat) (vs : List Nat) : Prop :=
  ∃ k, ∀ fuel ≥ k, flatRun prog jump fuel pc = .some vs

theorem Lands.det {prog : List α} {jump pc vs vs'} (h : Lands prog jump pc vs) (h' : Lands prog jump pc vs') :
    vs = vs' := by
  obtain ⟨k, hk⟩ := h
  obtain ⟨k', hk'⟩ := h'
  have := (hk (max k k') (Nat.le_max_left _ _)).symm.trans (hk' (max k k') (Nat.le_max_right _ _))
  simpa using this

theorem Lands.past {prog : List α} {jump pc} (h : prog.length < pc) : Lands prog jump pc [] := by
  refine ⟨1, fun fuel hf => ?_⟩
  obtain ⟨fuel, rfl⟩ : ∃ f, fuel = f + 1 := ⟨fuel - 1, by omega⟩
  have hn : prog[pc - 1]? = .none := getElem?_eq_none (by omega)
  simp only [flatRun, hn]

/-- A run that lands inside the program starts with that landing, and goes on
where the jump leads. -/
theorem lands_iff {prog : List α} {jump pc a t vs} (ha : prog[pc - 1]? = .some a)
    (hl : Leads prog.length pc (jump pc a) t) :
    Lands prog jump pc vs ↔ ∃ ws, vs = pc :: ws ∧ Lands prog jump t ws := by
  cases hj : jump pc a with
  | none =>
    rw [hj] at hl
    have hpc : Lands prog jump pc [pc] := by
      refine ⟨1, fun fuel hf => ?_⟩
      obtain ⟨fuel, rfl⟩ : ∃ f, fuel = f + 1 := ⟨fuel - 1, by omega⟩
      simp only [flatRun, ha, hj]
    constructor
    · intro h
      exact ⟨[], h.det hpc, Lands.past hl⟩
    · rintro ⟨ws, rfl, hws⟩
      rw [hws.det (Lands.past hl)]
      exact hpc
  | some d =>
    rw [hj] at hl
    simp only [Leads] at hl
    constructor
    · rintro ⟨k, hk⟩
      have hone := hk (k + 1) (by omega)
      simp only [flatRun, ha, hj, hl, map_eq_some_iff] at hone
      obtain ⟨ws, -, rfl⟩ := hone
      refine ⟨ws, rfl, k, fun fuel hf => ?_⟩
      have := hk (fuel + 1) (by omega)
      simp only [flatRun, ha, hj, hl, map_eq_some_iff, List.cons.injEq, true_and] at this
      obtain ⟨ws', hws', rfl⟩ := this
      exact hws'
    · rintro ⟨ws, rfl, k, hk⟩
      refine ⟨k + 1, fun fuel hf => ?_⟩
      obtain ⟨fuel, rfl⟩ : ∃ f, fuel = f + 1 := ⟨fuel - 1, by omega⟩
      simp only [flatRun, ha, hj, hl, hk fuel (by omega), map_some]

/-- A run from inside the program starts there. -/
theorem Lands.head {prog : List α} {jump pc a vs} (ha : prog[pc - 1]? = .some a) (h : Lands prog jump pc vs) :
    ∃ ws, vs = pc :: ws := by
  obtain ⟨k, hk⟩ := h
  have := hk (k + 1) (by omega)
  simp only [flatRun, ha] at this
  split at this
  · exact ⟨[], by simpa using this.symm⟩
  · obtain ⟨ws, -, rfl⟩ := map_eq_some_iff.mp this
    exact ⟨ws, rfl⟩

/-! ## Running by chains -/

/-- The landings in one chain, from position `pos` on: up to the first cell
that fails. Whether all succeeded. -/
def evalChain (ok : Nat → α → Bool) : Nat → List α → List Nat × Bool
  | _, [] => ([], true)
  | pos, a :: rest =>
    if ok pos a then
      let (vs, full) := evalChain ok (pos + 1) rest
      (pos :: vs, full)
    else ([pos], false)

/-- What is left of the chains laid out from `b` on after `n` more cells, a
chain begun being passed whole. -/
def skipCells : Nat → Nat → List (Chain continues) → Nat × List (Chain continues)
  | b, 0, cs => (b, cs)
  | b, _ + 1, [] => (b, [])
  | b, n + 1, c :: cs => skipCells (b + c.cells.length) (n + 1 - c.cells.length) cs

theorem skipCells_length (b n : Nat) (cs : List (Chain continues)) :
    (skipCells b n cs).2.length ≤ cs.length := by
  induction cs generalizing b n with
  | nil => cases n <;> simp [skipCells]
  | cons c cs ih =>
    cases n with
    | zero => simp [skipCells]
    | succ n =>
      have := ih (b + c.cells.length) (n + 1 - c.cells.length)
      simp only [skipCells, length_cons]
      omega

/-- The landings of the chain-structured evaluation of chains laid out after
the first `b` cells: each chain is entered at its head, left for the next one
at its first failure, and a full success passes `skip` more cells. -/
def chainRun (ok : Nat → α → Bool) (skip : α → Nat) : Nat → List (Chain continues) → List Nat
  | _, [] => []
  | b, c :: cs =>
    let ran := evalChain ok (b + 1) c.cells
    let left := skipCells (b + c.cells.length) (if ran.2 then skip c.close else 0) cs
    ran.1 ++ chainRun ok skip left.1 left.2
termination_by _ cs => cs.length
decreasing_by
  exact lt_succ_of_le (skipCells_length _ _ _)

/-- `n` cells from here are whole chains, or all there is. -/
def Aligned : Nat → List (Chain continues) → Prop
  | 0, _ => True
  | _ + 1, [] => True
  | n + 1, c :: cs => c.cells.length ≤ n + 1 ∧ Aligned (n + 1 - c.cells.length) cs

/-- Every chain's skip passes whole chains. -/
def SkipsAligned (skip : α → Nat) : List (Chain continues) → Prop
  | [] => True
  | c :: cs => Aligned (skip c.close) cs ∧ SkipsAligned skip cs

/-- The jumps of a chain laid out after the first `b` of `n` cells: a failure
leads past the chain, a success to the next cell, and the closing cell's
success past the chain and `skip` more cells. -/
def ChainLeads (n : Nat) (ok : Nat → α → Bool) (jump : Nat → α → Option Nat) (skip : α → Nat) (b : Nat)
    (c : Chain continues) : Prop :=
  ∀ i a, c.cells[i]? = .some a →
    (ok (b + i + 1) a = false → Leads n (b + i + 1) (jump (b + i + 1) a) (b + c.cells.length + 1)) ∧
    (ok (b + i + 1) a = true → i < c.body.length → Leads n (b + i + 1) (jump (b + i + 1) a) (b + i + 2)) ∧
    (ok (b + i + 1) a = true → i = c.body.length →
      Leads n (b + i + 1) (jump (b + i + 1) a) (b + c.cells.length + skip a + 1))

def AllLead (n : Nat) (ok : Nat → α → Bool) (jump : Nat → α → Option Nat) (skip : α → Nat) :
    Nat → List (Chain continues) → Prop
  | _, [] => True
  | b, c :: cs => ChainLeads n ok jump skip b c ∧ AllLead n ok jump skip (b + c.cells.length) cs

/-- The positions of the chains' heads. -/
def heads : Nat → List (Chain continues) → List Nat
  | _, [] => []
  | b, c :: cs => (b + 1) :: heads (b + c.cells.length) cs

section Refinement

variable {prog : List α} {ok : Nat → α → Bool} {jump : Nat → α → Option Nat} {skip : α → Nat}

variable {cs cs' : List (Chain continues)}

theorem AllLead.append {n b} (h : AllLead n ok jump skip b (cs ++ cs')) :
    AllLead n ok jump skip (b + (Chain.flatten cs).length) cs' := by
  induction cs generalizing b with
  | nil => simpa using h
  | cons c cs ih => simpa [Nat.add_assoc] using ih h.2

theorem SkipsAligned.append (h : SkipsAligned skip (cs ++ cs')) : SkipsAligned skip cs' := by
  induction cs with
  | nil => exact h
  | cons c cs ih => exact ih h.2

variable {c : Chain continues}

/-- The flat run through the rest of a chain, from the cell after `done`. -/
theorem lands_cells {b} (hprog : ∀ i a, c.cells[i]? = .some a → prog[b + i]? = .some a)
    (hl : ChainLeads prog.length ok jump skip b c) : ∀ (done rest : List α) (a : α) (ws : List Nat),
      c.cells = done ++ a :: rest →
      (Lands prog jump (b + done.length + 1) ws ↔
        ∃ vs, ws = (evalChain ok (b + done.length + 1) (a :: rest)).1 ++ vs ∧
          Lands prog jump (b + c.cells.length +
            (if (evalChain ok (b + done.length + 1) (a :: rest)).2 then skip c.close else 0) + 1) vs)
  | done, rest, a, ws, hc => by
    have ha : c.cells[done.length]? = .some a := by simp [hc]
    have hp : prog[b + done.length + 1 - 1]? = .some a := hprog _ _ ha
    obtain ⟨hfail, hnext, hclose⟩ := hl _ _ ha
    cases hok : ok (b + done.length + 1) a with
    | false =>
      simp only [evalChain, hok, Bool.false_eq_true, if_false, Nat.add_zero]
      exact lands_iff hp (hfail hok)
    | true =>
      simp only [evalChain, hok, if_true]
      have hlen := congrArg List.length hc
      simp only [Chain.length_cells, length_append, length_cons] at hlen
      cases rest with
      | nil =>
        have hcl : a = c.close := by
          have := congrArg List.getLast? hc
          simpa [Chain.cells] using this.symm
        subst hcl
        simp only [evalChain, if_true]
        exact lands_iff hp (hclose hok (by simp only [length_nil] at hlen; omega))
      | cons a' rest =>
        rw [lands_iff hp (hnext hok (by simp only [length_cons] at hlen; omega))]
        constructor
        · rintro ⟨ws, rfl, hws⟩
          have ih := lands_cells hprog hl (done ++ [a]) rest a' ws (by simp [hc])
          simp only [length_append, length_singleton, ← Nat.add_assoc] at ih
          obtain ⟨vs, rfl, hvs⟩ := ih.mp hws
          exact ⟨vs, rfl, hvs⟩
        · rintro ⟨vs, rfl, hvs⟩
          have ih := lands_cells hprog hl (done ++ [a]) rest a'
            ((evalChain ok (b + done.length + 1 + 1) (a' :: rest)).1 ++ vs) (by simp [hc])
          simp only [length_append, length_singleton, ← Nat.add_assoc] at ih
          exact ⟨_, rfl, ih.mpr ⟨vs, rfl, hvs⟩⟩

/-- The flat run through a chain. -/
theorem lands_chain {b} (hprog : ∀ i a, c.cells[i]? = .some a → prog[b + i]? = .some a)
    (hl : ChainLeads prog.length ok jump skip b c) (ws : List Nat) :
    Lands prog jump (b + 1) ws ↔ ∃ vs, ws = (evalChain ok (b + 1) c.cells).1 ++ vs ∧
      Lands prog jump (b + c.cells.length +
        (if (evalChain ok (b + 1) c.cells).2 then skip c.close else 0) + 1) vs := by
  obtain ⟨a, rest, hcs⟩ : ∃ a rest, c.cells = a :: rest := by
    rw [← ne_nil_iff_exists_cons]
    simp [Chain.cells]
  have key := lands_cells hprog hl [] rest a ws hcs
  rwa [← hcs] at key

variable {b n pos q : Nat}

/-- An aligned skip passes whole chains, or everything. -/
theorem skipCells_aligned (h : Aligned n cs) :
    ∃ pre, cs = pre ++ (skipCells b n cs).2 ∧ (skipCells b n cs).1 = b + (Chain.flatten pre).length ∧
      ((skipCells b n cs).1 = b + n ∨ (skipCells b n cs).2 = [] ∧ (skipCells b n cs).1 ≤ b + n) := by
  induction cs generalizing b n with
  | nil => cases n <;> exact ⟨[], by simp [skipCells]⟩
  | cons c cs ih =>
    cases n with
    | zero => exact ⟨[], by simp [skipCells]⟩
    | succ n =>
      obtain ⟨hle, hal⟩ := h
      obtain ⟨pre, hpre, hb, hend⟩ := ih (b := b + c.cells.length) hal
      refine ⟨c :: pre, ?_, ?_, ?_⟩
      · simpa [skipCells] using hpre
      · simp only [skipCells, hb, Chain.flatten_cons, length_append, Nat.add_assoc]
      · simp only [skipCells]
        rcases hend with hend | ⟨hnil, hle'⟩
        · exact .inl (by omega)
        · exact .inr ⟨hnil, by omega⟩

theorem prog_cells (pre : List α) (cs : List (Chain continues))
    (hp : prog = pre ++ Chain.flatten (c :: cs)) :
    ∀ i a, c.cells[i]? = .some a → prog[pre.length + i]? = .some a := by
  intro i a ha
  have hi : i < c.cells.length := (List.getElem?_eq_some_iff.mp ha).1
  rw [hp, getElem?_append_right (by omega), Nat.add_sub_cancel_left, Chain.flatten_cons,
    getElem?_append_left hi, ha]

/-- **The flat run refines the chain-structured evaluation** when the jumps
lead where the chains say and every skip passes whole chains. -/
theorem lands_chainRun (pre : List α) (hp : prog = pre ++ Chain.flatten cs)
    (hl : AllLead prog.length ok jump skip pre.length cs) (ha : SkipsAligned skip cs) :
    Lands prog jump (pre.length + 1) (chainRun ok skip pre.length cs) := by
  induction hn : cs.length using Nat.strongRecOn generalizing pre cs with
  | ind n ih =>
  cases cs with
  | nil =>
    rw [chainRun]
    exact Lands.past (by simp [hp])
  | cons c cs =>
    rw [chainRun]
    obtain ⟨hlc, hls⟩ := hl
    obtain ⟨hac, has⟩ := ha
    refine (lands_chain (prog_cells pre cs hp) hlc _).mpr ⟨_, rfl, ?_⟩
    generalize hm : (if (evalChain ok (pre.length + 1) c.cells).2 then skip c.close else 0) = m
    have ham : Aligned m cs := by
      subst hm
      split
      · exact hac
      · cases cs <;> simp [Aligned]
    obtain ⟨passed, hcs', hb, hend⟩ := skipCells_aligned (b := pre.length + c.cells.length) ham
    have hlen := skipCells_length (pre.length + c.cells.length) m cs
    revert hcs' hb hend hlen
    generalize (skipCells (pre.length + c.cells.length) m cs).1 = b'
    generalize (skipCells (pre.length + c.cells.length) m cs).2 = cs'
    intro hcs' hb hend hlen
    subst hcs' hn
    rcases hend with hend | ⟨rfl, hle⟩
    · have hpre : (pre ++ c.cells ++ Chain.flatten passed).length = b' := by
        simp only [length_append, hb]
      rw [← hend, ← hpre]
      refine ih _ (lt_succ_of_le hlen) (pre ++ c.cells ++ Chain.flatten passed) (by simp [hp]) ?_ has.append rfl
      rw [hpre, hb]
      exact hls.append
    · rw [chainRun]
      refine Lands.past ?_
      simp only [hp, append_nil, Chain.flatten_cons, length_append]
      omega

/-! ## What the chain-structured evaluation lands on -/

/-- The landings `vs` after one on `p` go forward, each onto a position of `H`
or onto the next one. -/
def Enters (H : List Nat) : Nat → List Nat → Prop
  | _, [] => True
  | p, q :: vs => p < q ∧ (q ∈ H ∨ q = p + 1) ∧ Enters H q vs

theorem evalChain_enters {H : List Nat} : ∀ {cells : List α} {p pos : Nat} {vs : List Nat}, p < pos →
    pos ∈ H ∨ pos = p + 1 → (∀ p' < pos + cells.length, Enters H p' vs) →
    Enters H p ((evalChain ok pos cells).1 ++ vs)
  | [], _, _, _, hp, _, hvs => hvs _ hp
  | a :: rest, p, pos, vs, hp, hpos, hvs => by
    cases hok : ok pos a with
    | false =>
      simp only [evalChain, hok, Bool.false_eq_true, if_false]
      exact ⟨hp, hpos, hvs _ (by simp only [length_cons]; omega)⟩
    | true =>
      simp only [evalChain, hok, if_true]
      refine ⟨hp, hpos, evalChain_enters (by omega) (.inr rfl) fun p' hp' => hvs p' ?_⟩
      simp only [length_cons]
      omega

theorem skipCells_heads (b n : Nat) (cs : List (Chain continues)) :
    b ≤ (skipCells b n cs).1 ∧ heads (skipCells b n cs).1 (skipCells b n cs).2 ⊆ heads b cs := by
  induction cs generalizing b n with
  | nil => cases n <;> simp [skipCells, heads]
  | cons c cs ih =>
    cases n with
    | zero => simp [skipCells]
    | succ n =>
      obtain ⟨hb, hsub⟩ := ih (b := b + c.cells.length) (n := n + 1 - c.cells.length)
      simp only [skipCells, heads]
      exact ⟨by omega, List.Subset.trans hsub (subset_cons_self _ _)⟩

/-- **Chains are entered at their heads and no position is landed on twice.** -/
theorem chainRun_enters {H : List Nat} {p : Nat} (hp : p ≤ b)
    (hH : heads b cs ⊆ H) : Enters H p (chainRun ok skip b cs) := by
  induction hn : cs.length using Nat.strongRecOn generalizing b p cs with
  | ind n ih =>
  cases cs with
  | nil => rw [chainRun]; trivial
  | cons c cs =>
    rw [chainRun]
    refine evalChain_enters (by omega) (.inl (hH (by simp [heads]))) fun p' hp' => ?_
    generalize (if (evalChain ok (b + 1) c.cells).2 then skip c.close else 0) = m
    obtain ⟨hb, hsub⟩ := skipCells_heads (b + c.cells.length) m cs
    have hlen := skipCells_length (b + c.cells.length) m cs
    subst hn
    exact ih _ (lt_succ_of_le hlen) (by omega)
      (fun q hq => hH (by simp only [heads, mem_cons]; exact .inr (hsub hq))) rfl

variable {cells : List α}

theorem mem_evalChain (h : q ∈ (evalChain ok pos cells).1) : q = pos ∨ ∃ a, ok (q - 1) a = true := by
  induction cells generalizing pos with
  | nil => simp [evalChain] at h
  | cons a rest ih =>
    cases hok : ok pos a with
    | false => simp [evalChain, hok] at h; exact .inl h
    | true =>
      simp only [evalChain, hok, if_true, mem_cons] at h
      rcases h with rfl | h
      · exact .inl rfl
      · rcases ih h with rfl | h
        · exact .inr ⟨a, by simpa using hok⟩
        · exact .inr h

/-- A landing is on a head, or follows a success. -/
theorem mem_chainRun (h : q ∈ chainRun ok skip b cs) : q ∈ heads b cs ∨ ∃ a, ok (q - 1) a = true := by
  induction hn : cs.length using Nat.strongRecOn generalizing b cs with
  | ind n ih =>
  cases cs with
  | nil => simp [chainRun] at h
  | cons c cs =>
    rw [chainRun] at h
    rcases mem_append.mp h with h | h
    · rcases mem_evalChain h with rfl | h
      · exact .inl (by simp [heads])
      · exact .inr h
    · revert h
      generalize (if (evalChain ok (b + 1) c.cells).2 then skip c.close else 0) = m
      intro h
      have hlen := skipCells_length (b + c.cells.length) m cs
      subst hn
      rcases ih _ (lt_succ_of_le hlen) h rfl with h | h
      · exact .inl (mem_cons_of_mem _ ((skipCells_heads _ _ _).2 h))
      · exact .inr h

/-! ## Only aligned skips keep to the chains -/

theorem heads_append : heads b (cs ++ cs') = heads b cs ++ heads (b + (Chain.flatten cs).length) cs' := by
  induction cs generalizing b with
  | nil => simp [heads]
  | cons c cs ih => simp [heads, ih, Nat.add_assoc]

theorem heads_le (h : q ∈ heads b cs) : b < q ∧ q ≤ b + (Chain.flatten cs).length := by
  induction cs generalizing b with
  | nil => simp [heads] at h
  | cons c cs ih =>
    simp only [heads, mem_cons] at h
    simp only [Chain.flatten_cons, length_append, Chain.length_cells]
    rcases h with rfl | h
    · omega
    · have := ih h
      simp only [Chain.length_cells] at this
      omega

theorem aligned_of_head (h : b + n + 1 ∈ heads b cs) : Aligned n cs := by
  induction cs generalizing b n with
  | nil => simp [heads] at h
  | cons c cs ih =>
    cases n with
    | zero => trivial
    | succ n =>
      simp only [heads, mem_cons] at h
      rcases h with h | h
      · omega
      · have hle := (heads_le h).1
        refine ⟨by omega, ih (b := b + c.cells.length) ?_⟩
        rwa [show b + c.cells.length + (n + 1 - c.cells.length) + 1 = b + (n + 1) + 1 by omega]

theorem aligned_of_past (h : (Chain.flatten cs).length ≤ n) : Aligned n cs := by
  induction cs generalizing n with
  | nil => cases n <;> trivial
  | cons c cs ih =>
    cases n with
    | zero => trivial
    | succ n =>
      simp only [Chain.flatten_cons, length_append] at h
      exact ⟨by omega, ih (by omega)⟩

theorem exists_misaligned (h : ¬ SkipsAligned skip cs) :
    ∃ (cs₁ : List (Chain continues)) (c : Chain continues) (cs₂ : List (Chain continues)),
      cs = cs₁ ++ c :: cs₂ ∧ ¬ Aligned (skip c.close) cs₂ := by
  induction cs with
  | nil => exact absurd trivial h
  | cons c cs ih =>
    by_cases hc : Aligned (skip c.close) cs
    · obtain ⟨cs₁, c', cs₂, rfl, hn⟩ := ih fun hs => h ⟨hc, hs⟩
      exact ⟨c :: cs₁, c', cs₂, rfl, hn⟩
    · exact ⟨[], c, cs, rfl, hc⟩

theorem evalChain_false (hne : cells ≠ []) (h : ∀ a, ok pos a = false) : (evalChain ok pos cells).2 = false := by
  cases cells with
  | nil => exact absurd rfl hne
  | cons a rest => simp [evalChain, h a]

theorem evalChain_true (h : ∀ q a, pos ≤ q → q < pos + cells.length → ok q a = true) :
    (evalChain ok pos cells).2 = true := by
  induction cells generalizing pos with
  | nil => rfl
  | cons a rest ih =>
    simp only [evalChain, h pos a (Nat.le_refl _) (by simp), if_true]
    exact ih fun q b hq hq' => h q b (by omega) (by simp only [length_cons]; omega)

/-- A flat run through chains that all fail at their heads. -/
theorem lands_failing (pre : List α) {ws : List Nat} : ∀ (cs cs' : List (Chain continues)),
    prog = pre ++ Chain.flatten (cs ++ cs') → AllLead prog.length ok jump skip pre.length (cs ++ cs') →
    (∀ q a, q ≤ pre.length + (Chain.flatten cs).length → ok q a = false) → Lands prog jump (pre.length + 1) ws →
    ∃ ls vs, ws = ls ++ vs ∧ Lands prog jump (pre.length + (Chain.flatten cs).length + 1) vs
  | [], _, _, _, _, h => ⟨[], ws, rfl, h⟩
  | c :: cs, cs', hp, hl, hf, h => by
    obtain ⟨vs, rfl, hvs⟩ := (lands_chain (prog_cells pre (cs ++ cs') hp) hl.1 ws).mp h
    rw [evalChain_false (by simp [Chain.cells]) fun a => hf _ a (by simp; omega)] at hvs
    have hpre : (pre ++ c.cells).length = pre.length + c.cells.length := length_append
    have := lands_failing (pre ++ c.cells) cs cs' (by simp [hp])
      (hpre ▸ hl.2) (fun q a hq => hf q a (by simp at hq ⊢; omega))
      (by rw [hpre]; simpa using hvs)
    obtain ⟨ls, vs', rfl, hvs'⟩ := this
    refine ⟨_ ++ ls, vs', (append_assoc _ _ _).symm, ?_⟩
    rw [hpre] at hvs'
    simpa [Nat.add_assoc] using hvs'

/-- **If the flat run keeps to the chains for all outcomes, every skip passes
whole chains**: let one chain succeed and all others fail at their heads. -/
theorem skipsAligned_of_lands {jumps : (Nat → Bool) → Nat → α → Option Nat}
    (hp : prog = Chain.flatten cs) (hl : ∀ ok, AllLead prog.length (fun q _ => ok q) (jumps ok) skip 0 cs)
    (h : ∀ ok, Lands prog (jumps ok) 1 (chainRun (fun q _ => ok q) skip 0 cs)) : SkipsAligned skip cs := by
  by_contra hn
  obtain ⟨cs₁, c, cs₂, rfl, hc⟩ := exists_misaligned hn
  let b := (Chain.flatten cs₁).length
  let e := b + c.cells.length
  let ok : Nat → Bool := fun q => decide (b < q ∧ q ≤ e)
  have hl := hl ok
  obtain ⟨ls, ws, hws, hrun⟩ := lands_failing [] cs₁ (c :: cs₂) hp hl
    (fun q a hq => by simp only [length_nil] at hq; simp only [ok, b, decide_eq_false_iff_not]; omega) (h ok)
  simp only [length_nil, Nat.zero_add] at hrun
  have hlc := hl.append
  simp only [Nat.zero_add] at hlc
  obtain ⟨vs, rfl, hvs⟩ := (lands_chain
    (prog_cells (Chain.flatten cs₁) cs₂ (by rw [hp, Chain.flatten_append])) hlc.1 ws).mp hrun
  rw [evalChain_true fun q a hq hq' => by simp only [ok, b, e, decide_eq_true_eq]; omega, if_pos rfl] at hvs
  by_cases hpast : prog.length < e + skip c.close + 1
  · refine hc (aligned_of_past ?_)
    simp only [hp, Chain.flatten_append, Chain.flatten_cons, length_append] at hpast
    omega
  · obtain ⟨vs', rfl⟩ := Lands.head (getElem?_eq_getElem (by omega)) hvs
    have hmem : e + skip c.close + 1 ∈ chainRun (fun q _ => ok q) skip 0 (cs₁ ++ c :: cs₂) := by simp [hws, e, b]
    rcases mem_chainRun hmem with hhead | ⟨a, hok⟩
    · rw [heads_append, mem_append] at hhead
      rcases hhead with hhead | hhead
      · have := (heads_le hhead).2
        omega
      · simp only [heads, mem_cons, Nat.zero_add] at hhead
        rcases hhead with hhead | hhead
        · simp only [e, Chain.length_cells] at hhead
          omega
        · exact hc (aligned_of_head hhead)
    · simp only [ok, decide_eq_true_eq] at hok
      have : skip c.close = 0 := by omega
      rw [this] at hc
      exact hc (by cases cs₂ <;> trivial)

end Refinement

end OpenResty.Lib
