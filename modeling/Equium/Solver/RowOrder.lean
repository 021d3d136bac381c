import Equium.Solver.TryNonce
import Equium.Schemes.Order

/-! @src crates/equihash-core/src/solver.rs | name:row order | scheme:induction on rounds

    The order in which the rounds leave their rows, stated on the subtrees alone: by the first of the
    two rows a row was made of and then by the second, each by what the sort compared. The scan for a
    solution therefore stops at the least solution in this order (`firstValid_least`). -/

namespace Equium.Solver
open Schemes Equium.Core

variable (T : LeafTable)

/-- What `r` rounds leave of the XOR of a tuple. -/
def LeafTable.rest (r : ℕ) (t : List UInt32) : List UInt8 := (T.xorOf t).drop (r * T.cbytes)

/-- The order after the stable sort of a round: by what is left of the XOR, then as before. -/
def LeafTable.sorts (before : List UInt32 → List UInt32 → Bool) (r : ℕ) (t u : List UInt32) : Bool :=
  decide (T.rest r t < T.rest r u) || (decide (T.rest r t = T.rest r u) && before t u)

/-- The halves of a tuple, in the order in which the sort has them. -/
def halves (sorts : List UInt32 → List UInt32 → Bool) (r : ℕ) (t : List UInt32) :
    List UInt32 × List UInt32 :=
  if sorts (t.take (2 ^ r)) (t.drop (2 ^ r)) then (t.take (2 ^ r), t.drop (2 ^ r))
  else (t.drop (2 ^ r), t.take (2 ^ r))

/-- The order of the rows after `r` rounds. -/
def LeafTable.before : ℕ → List UInt32 → List UInt32 → Bool
  | 0, t, u => decide (t.headD 0 < u.headD 0)
  | r + 1, t, u =>
    let sorts := T.sorts (LeafTable.before r) r
    let (a, b) := halves sorts r t
    let (c, d) := halves sorts r u
    sorts a c || (decide (a = c) && sorts b d)

variable {T} {r : ℕ} {rows : List Row}

theorem sorts_iff {before : List UInt32 → List UInt32 → Bool} {t u : List UInt32} :
    T.sorts before r t u = true ↔
      T.rest r t < T.rest r u ∨ (T.rest r t = T.rest r u ∧ before t u = true) := by
  simp [LeafTable.sorts]

/-- The order of a round's rows is the lexicographic order of their halves. -/
theorem before_succ {t u : List UInt32} : T.before (r + 1) t u = true ↔
    Prod.Lex (fun a c => T.sorts (T.before r) r a c = true)
      (fun b d => T.sorts (T.before r) r b d = true)
      (halves (T.sorts (T.before r) r) r t) (halves (T.sorts (T.before r) r) r u) := by
  rw [LeafTable.before, Prod.lex_def]
  simp

theorem sorts_asymm {before : List UInt32 → List UInt32 → Bool}
    (h : ∀ t u, before t u = true → ¬ before u t = true) (t u : List UInt32)
    (htu : T.sorts before r t u = true) : ¬ T.sorts before r u t = true := by
  rw [sorts_iff] at htu ⊢
  rintro (hlt | ⟨heq, hb⟩)
  · rcases htu with hlt' | ⟨heq', -⟩
    · exact List.lt_asymm hlt hlt'
    · rw [heq'] at hlt
      exact List.lt_irrefl _ hlt
  · rcases htu with hlt' | ⟨-, hb'⟩
    · rw [heq] at hlt'
      exact List.lt_irrefl _ hlt'
    · exact h t u hb' hb

theorem before_asymm (r : ℕ) (t u : List UInt32) (h : T.before r t u = true) :
    ¬ T.before r u t = true := by
  induction r generalizing t u with
  | zero =>
    intro h'
    exact UInt32.lt_irrefl _ (UInt32.lt_trans (of_decide_eq_true h) (of_decide_eq_true h'))
  | succ r ih =>
    have hs := fun a b => @sorts_asymm T r (T.before r) ih a b
    rw [before_succ, Prod.lex_def] at h ⊢
    rintro (h₁ | ⟨he, h₂⟩)
    · rcases h with h₁' | ⟨he', -⟩
      · exact hs _ _ h₁' h₁
      · rw [he'] at h₁
        exact hs _ _ h₁ h₁
    · rcases h with h₁' | ⟨-, h₂'⟩
      · rw [he] at h₁'
        exact hs _ _ h₁' h₁'
      · exact hs _ _ h₂' h₂

/-! ### One round -/

variable (T) in
/-- The rows stand in the order of their level. -/
def Ordered (r : ℕ) (rows : List Row) : Prop :=
  rows.Pairwise fun a b => T.before r a.indices b.indices = true

theorem Level.rest_eq (h : Level T r rows) {row : Row} (hr : row ∈ rows) :
    T.rest r row.indices = row.hash := by
  rw [LeafTable.rest, h.hash row hr, List.drop_left' (zeros_length _)]

/-- The sort of a round, being stable. -/
theorem Level.sorted (h : Level T r rows) (ho : Ordered T r rows) :
    (sortRows rows).Pairwise fun a b => T.sorts (T.before r) r a.indices b.indices = true := by
  have hstable := @mergeSort_stable Row _ (fun a b => decide (a.hash ≤ b.hash))
    (fun a b c hab hbc => decide_eq_true
      (List.le_trans (of_decide_eq_true hab) (of_decide_eq_true hbc)))
    (fun a b => by simpa using List.le_total a.hash b.hash) rows h.once.of_map ho
  refine List.Pairwise.imp_of_mem (fun {a b} ha hb hab => ?_) hstable
  have hra := h.rest_eq (mem_sortRows.mp ha)
  have hrb := h.rest_eq (mem_sortRows.mp hb)
  rw [sorts_iff, hra, hrb]
  rcases List.le_iff_lt_or_eq.mp (of_decide_eq_true hab.1) with hlt | heq
  · exact .inl hlt
  · exact .inr ⟨heq, hab.2 (decide_eq_true (heq ▸ List.le_refl _))⟩

/-- Joining two rows loses neither the halves nor their order. -/
theorem halves_concat {sorts : List UInt32 → List UInt32 → Bool} {a b : List UInt32}
    (hasymm : ¬ sorts b a = true) (ha : a.length = 2 ^ r) (hb : b.length = 2 ^ r)
    (hab : sorts a b = true) : halves sorts r (concatCanonical a b) = (a, b) := by
  rw [concatCanonical, halves]
  split_ifs with hlt hs hs
  · rw [List.take_left' ha, List.drop_left' ha]
  · rw [List.take_left' ha, List.drop_left' ha] at hs
    exact absurd hab hs
  · rw [List.take_left' hb, List.drop_left' hb] at hs
    exact absurd hs hasymm
  · rw [List.take_left' hb, List.drop_left' hb]

/-- STEP LEMMA: a round takes ordered rows to ordered rows. -/
theorem Level.round_ordered (h : Level T r rows) (hk : r < T.k) (ho : Ordered T r rows) :
    Ordered T (r + 1) (Solver.round rows (8 * T.cbytes)) := by
  have hsorted := h.sorted ho
  have hs : Level T r (sortRows rows) := h.perm (sortRows_perm rows)
  rw [Ordered, round_eq, pairUp, List.pairwise_filterMap]
  refine List.Pairwise.imp_of_mem ?_ (pairs_pairwise hsorted)
  rintro ⟨a, b⟩ ⟨c, d⟩ hab hcd hlex z hz w hw
  -- what a pair makes has the pair for its halves
  have hhalves : ∀ {a b z : Row}, (a, b) ∈ pairs (sortRows rows) →
      collide T.cbytes a b = some z →
      halves (T.sorts (T.before r) r) r z.indices = (a.indices, b.indices) := by
    intro a b z hp hc
    obtain ⟨ha, hb⟩ := mem_of_mem_pairs hp
    obtain ⟨-, -, rfl⟩ := (collide_eq_some (hs.long_enough hk ha hb)).mp hc
    have hlt := List.pairwise_iff_forall_sublist.mp hsorted (mem_pairs.mp hp)
    exact halves_concat (sorts_asymm (before_asymm r) _ _ hlt) (hs.subtree ha).length
      (hs.subtree hb).length hlt
  rw [before_succ, hhalves hab hz, hhalves hcd hw]
  rw [Prod.lex_def] at hlex ⊢
  exact hlex.imp id fun h => ⟨congrArg Row.indices h.1, h.2⟩

/-! ### From the leaves -/

theorem leaves_ordered (T : LeafTable) : Ordered T 0 (leafRows T.count T.leaf) := by
  refine List.pairwise_map.mpr (List.pairwise_lt_range.imp_of_mem ?_)
  intro i j hi hj hij
  have hlt := List.mem_range.mp hj
  have hle := T.count_le
  refine decide_eq_true (UInt32.lt_iff_toNat_lt.mpr ?_)
  simp only [List.headD_cons]
  rw [UInt32.toNat_ofNat_of_lt' (by change i < 2 ^ 32; omega),
    UInt32.toNat_ofNat_of_lt' (by change j < 2 ^ 32; omega)]
  exact hij

theorem Ordered.iterRound (m : ℕ) {r : ℕ} {rows : List Row} (h : Level T r rows)
    (ho : Ordered T r rows) (hk : r + m ≤ T.k) :
    Ordered T (r + m) (iterRound (8 * T.cbytes) m rows) := by
  induction m generalizing r rows with
  | zero => exact ho
  | succ m ih =>
    have := ih (h.round (by omega)) (h.round_ordered (by omega) ho) (by omega)
    rwa [show r + 1 + m = r + (m + 1) by omega] at this

/-- RUN LEMMA: after `r ≤ k` rounds from the leaves the rows are in order. -/
theorem ordered_rounds (T : LeafTable) (hr : r ≤ T.k) :
    Ordered T r (iterRound (8 * T.cbytes) r (leafRows T.count T.leaf)) := by
  simpa using Ordered.iterRound r (Level.leaves T) (leaves_ordered T) (by omega)

/-! ### The scan -/

variable {n k : UInt32} {c : Crates} {input : Vector UInt8 iLen} {nonce : Bytes32}

/-- Where no candidate is turned away, the scan stops at the first one. -/
theorem firstValid_eq_find {rows : List Row} (h : ∀ row ∈ rows, Candidate k row →
      c.isValidSolution n k input.toList nonce (compressIndices n k row.indices) = true) :
    firstValid c n k input nonce rows = (rows.find? fun row => decide (Candidate k row)).map
      fun row => compressIndices n k row.indices := by
  induction rows with
  | nil => rfl
  | cons row rows ih =>
    have hrest := ih fun row hr => h row (List.mem_cons_of_mem _ hr)
    rw [firstValid_cons, List.find?_cons]
    by_cases hrow : Candidate k row
    · rw [if_pos ⟨hrow, h row List.mem_cons_self hrow⟩, decide_eq_true hrow]
      rfl
    · rw [if_neg fun hc => hrow hc.1, decide_eq_false hrow]
      exact hrest

variable (T) in
/-- The least solution of a table in the order of the rows. -/
structure FirstSolution (t : List UInt32) : Prop where
  solution : T.Solution t
  least : ∀ u, T.Solution u → u ≠ t → T.before T.k t u = true

theorem FirstSolution.unique {t u : List UInt32} (ht : FirstSolution T t) (hu : FirstSolution T u) :
    t = u := by
  by_contra hne
  exact before_asymm T.k t u (ht.least u hu.solution (Ne.symm hne)) (hu.least t ht.solution hne)

/-- MAIN: `try_nonce` answers with the least solution of the nonce, if it has one. -/
theorem tryNonce_least (hc : DigestLength c) (p : Params n k) {base : BaseState}
    (h : BaseState.new n k input = .ok base)
    (hv : VerifierSpec c n k (nonceTable hc p h nonce) input nonce) :
    (∃ t, FirstSolution (nonceTable hc p h nonce) t ∧
      tryNonce c base input nonce = some (compressIndices n k t)) ∨
    ((∀ t, ¬ (nonceTable hc p h nonce).Solution t) ∧ tryNonce c base input nonce = none) := by
  have hlevel : Level (nonceTable hc p h nonce) k.toNat _ :=
    p.level (fun i _ => nonceLeaf_length hc p h nonce i) le_rfl
  have horder := ordered_rounds (nonceTable hc p h nonce) (r := k.toNat) le_rfl
  rw [show 8 * (nonceTable hc p h nonce).cbytes = cbitsOf n k from p.cbits] at horder
  have hcand := fun {row} => @Level.candidate_iff k _ _ hlevel rfl row
  rw [tryNonce_eq c p h, firstValid_eq_find fun row hr hrow => hlevel.accepted rfl hv hr hrow]
  cases hf : (iterRound (cbitsOf n k) k.toNat (leafRows (nInitLeaves n k)
      (nonceLeaf c base nonce))).find? fun row => decide (Candidate k row) with
  | some row =>
    obtain ⟨hr, hrow, hleast⟩ := find?_least horder hf
    have hsol := (hcand hr).mp (of_decide_eq_true hrow)
    refine .inl ⟨row.indices, ⟨hsol, fun u hu hne => ?_⟩, rfl⟩
    obtain ⟨row', hr', rfl⟩ := List.mem_map.mp ((hlevel.exact u).mpr hu.1)
    refine (hleast row' hr' (decide_eq_true ((hcand hr').mpr hu))).resolve_left fun he => hne ?_
    rw [he]
  | none =>
    refine .inr ⟨fun t ht => ?_, rfl⟩
    obtain ⟨row, hr, rfl⟩ := List.mem_map.mp ((hlevel.exact t).mpr ht.1)
    have := List.find?_eq_none.mp hf row hr
    exact this (decide_eq_true ((hcand hr).mpr ht))

end Equium.Solver
