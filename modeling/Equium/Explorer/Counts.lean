import Mathlib.Algebra.BigOperators.Group.List.Basic
import Mathlib.Algebra.Order.Ring.Nat
import Equium.Explorer.Indexer

/-! @src scripts/indexer.ts | name:What the index holds | scheme:fold

    `Holds` compares the store with a set of transactions: each mined block is in the miner's count, in
    the reward total, in the rank score and in one record. The order in which the transactions were
    indexed does not matter to it, so pages may come newest first. -/

namespace Equium.Explorer
open Schemes

/-- The transaction mined a block for `w`. -/
def Transaction.minedBy (w : String) (t : Transaction) : Bool := t.mined.any fun m => m.winner = w

/-- What the transaction paid to `w`. -/
def Transaction.rewardTo (w : String) (t : Transaction) : ℕ :=
  match t.mined with
  | some m => if m.winner = w then m.reward else 0
  | none => 0

/-- The transaction is the one signed so, and mined a block. -/
def Transaction.minedAs (sig : Signature) (t : Transaction) : Bool :=
  t.signature = sig && t.mined.isSome

namespace Store

/-- The miner's block count. -/
def blocksOf (s : Store) (w : String) : ℕ := (s.miners.lookup w).getD 0

/-- The miner's reward total. -/
def rewardsOf (s : Store) (w : String) : ℕ := (s.rewards.lookup w).getD 0

/-- The miner's rank score. -/
def rankOf (s : Store) (w : String) : ℕ := (s.rank.lookup w).getD 0

/-- The records of a signature in `blocks_by_height`. -/
def records (s : Store) (sig : Signature) : ℕ := s.blocksByHeight.keys.countP fun b => b.sig = sig

/-- All writes of one block, accepted. -/
def index (s : Store) (b : MinedBlock) : Store := (indexBlock b).foldl Command.apply s

theorem index_miners (s : Store) (b : MinedBlock) :
    (s.index b).miners = incrBy s.miners b.winner 1 := rfl

theorem index_rewards (s : Store) (b : MinedBlock) :
    (s.index b).rewards = incrBy s.rewards b.winner b.reward := rfl

theorem index_rank (s : Store) (b : MinedBlock) :
    (s.index b).rank = incrBy s.rank b.winner 1 := rfl

theorem index_blocksByHeight (s : Store) (b : MinedBlock) :
    (s.index b).blocksByHeight = s.blocksByHeight.insert b b.height := rfl

end Store

/-- The store counts the mined blocks among `es`, each once. -/
structure Holds (s : Store) (es : List Transaction) : Prop where
  blocks : ∀ w, s.blocksOf w = es.countP (Transaction.minedBy w)
  rewards : ∀ w, s.rewardsOf w = (es.map (Transaction.rewardTo w)).sum
  rank : ∀ w, s.rankOf w = es.countP (Transaction.minedBy w)
  records : ∀ sig, s.records sig = es.countP (Transaction.minedAs sig)
  members : ∀ w ∈ s.miners, 0 < es.countP (Transaction.minedBy w)

theorem holds_empty : Holds Store.empty [] :=
  ⟨fun _ => rfl, fun _ => rfl, fun _ => rfl, fun _ => rfl, fun w hw => by cases hw⟩

/-- The order of the transactions does not matter. -/
theorem Holds.perm {s : Store} {es es' : List Transaction} (h : Holds s es) (hp : es.Perm es') :
    Holds s es' where
  blocks w := (h.blocks w).trans (hp.countP_eq _)
  rewards w := (h.rewards w).trans (hp.map _).sum_eq
  rank w := (h.rank w).trans (hp.countP_eq _)
  records sig := (h.records sig).trans (hp.countP_eq _)
  members w hw := (hp.countP_eq _) ▸ h.members w hw

/-- Only the counted keys matter. -/
theorem Holds.congr {s s' : Store} {es : List Transaction} (h : Holds s es)
    (hm : s'.miners = s.miners) (hr : s'.rewards = s.rewards) (hk : s'.rank = s.rank)
    (hb : s'.blocksByHeight = s.blocksByHeight) : Holds s' es := by
  refine ⟨fun w => ?_, fun w => ?_, fun w => ?_, fun sig => ?_, hm ▸ h.members⟩
  · rw [Store.blocksOf, hm]
    exact h.blocks w
  · rw [Store.rewardsOf, hr]
    exact h.rewards w
  · rw [Store.rankOf, hk]
    exact h.rank w
  · rw [Store.records, hb]
    exact h.records sig

/-- Transactions that mined nothing do not count. -/
theorem Holds.append_idle {s : Store} {es ts : List Transaction}
    (hidle : ∀ t ∈ ts, t.mined = none) : Holds s (es ++ ts) ↔ Holds s es := by
  have hcount : ∀ w, ts.countP (Transaction.minedBy w) = 0 := by
    intro w
    rw [List.countP_eq_zero]
    intro t ht
    simp [Transaction.minedBy, hidle t ht]
  have hreward : ∀ w, (ts.map (Transaction.rewardTo w)).sum = 0 := by
    intro w
    refine List.sum_eq_zero fun n hn => ?_
    obtain ⟨t, ht, rfl⟩ := List.mem_map.mp hn
    simp [Transaction.rewardTo, hidle t ht]
  have hrecord : ∀ sig, ts.countP (Transaction.minedAs sig) = 0 := by
    intro sig
    rw [List.countP_eq_zero]
    intro t ht
    simp [Transaction.minedAs, hidle t ht]
  constructor
  · rintro ⟨hb, hr, hk, hc, hm⟩
    simp only [List.countP_append, List.map_append, List.sum_append, hcount, hreward, hrecord,
      Nat.add_zero] at hb hr hk hc hm
    exact ⟨hb, hr, hk, hc, hm⟩
  · rintro ⟨hb, hr, hk, hc, hm⟩
    refine ⟨fun w => ?_, fun w => ?_, fun w => ?_, fun sig => ?_, fun w hw => ?_⟩
    · rw [List.countP_append, hcount, hb]
      rfl
    · rw [List.map_append, List.sum_append, hreward, hr]
      rfl
    · rw [List.countP_append, hcount, hk]
      rfl
    · rw [List.countP_append, hrecord, hc]
      rfl
    · rw [List.countP_append]
      exact Nat.lt_add_right _ (hm w hw)

/-! ### One block -/

theorem lookup_incrBy (h : AList fun _ : String => ℕ) (f w : String) (n : ℕ) :
    ((incrBy h f n).lookup w).getD 0 = (h.lookup w).getD 0 + if f = w then n else 0 := by
  unfold incrBy
  by_cases hf : f = w
  · subst hf
    rw [AList.lookup_insert, if_pos rfl]
    rfl
  · rw [AList.lookup_insert_ne fun he => hf he.symm, if_neg hf]
    rfl

/-- Indexing a mined block whose signature is new counts it once everywhere. -/
theorem Holds.index {s : Store} {es : List Transaction} {t : Transaction} {b : MinedBlock}
    {now : Signature → ℕ} (h : Holds s es) (hok : t.err = false)
    (hb : parseMinedBlock now t = some b) (hnew : t.signature ∉ es.map (·.signature)) :
    Holds (s.index b) (es ++ [t]) := by
  obtain ⟨m, hm, rfl⟩ := Option.map_eq_some_iff.mp hb
  have hmined : t.mined = some m := by rw [Transaction.mined, hok, if_neg Bool.false_ne_true, hm]
  have hnone : es.countP (Transaction.minedAs t.signature) = 0 := by
    rw [List.countP_eq_zero]
    intro u hu hmine
    rw [Transaction.minedAs, Bool.and_eq_true, decide_eq_true_eq] at hmine
    exact hnew (List.mem_map.mpr ⟨u, hu, hmine.1⟩)
  have hcount : ∀ w, (es ++ [t]).countP (Transaction.minedBy w) =
      es.countP (Transaction.minedBy w) + if m.winner = w then 1 else 0 := by
    intro w
    rw [List.countP_append, List.countP_singleton]
    simp [Transaction.minedBy, hmined]
  refine ⟨fun w => ?_, fun w => ?_, fun w => ?_, fun sig => ?_, fun w hw => ?_⟩
  · rw [hcount, ← h.blocks w, Store.blocksOf, Store.index_miners, lookup_incrBy]
    rfl
  · rw [List.map_append, List.sum_append, ← h.rewards w, Store.rewardsOf, Store.index_rewards,
      lookup_incrBy]
    simp [Store.rewardsOf, Transaction.rewardTo, hmined]
  · rw [hcount, ← h.rank w, Store.rankOf, Store.index_rank, lookup_incrBy]
    rfl
  · -- no record had this signature, so the new member is one more
    have hfresh : ∀ b ∈ s.blocksByHeight.keys, b.sig ≠ t.signature := by
      have hzero := (h.records t.signature).trans hnone
      rw [Store.records, List.countP_eq_zero] at hzero
      intro b hb he
      exact hzero b hb (decide_eq_true he)
    rw [List.countP_append, ← h.records sig, List.countP_singleton, Store.records,
      Store.index_blocksByHeight, AList.keys_insert,
      List.erase_of_not_mem fun hmem => hfresh _ hmem rfl, List.countP_cons]
    simp [Store.records, Transaction.minedAs, hmined]
  · rw [hcount]
    rcases (AList.mem_insert s.miners).mp hw with rfl | hw
    · simp
    · exact Nat.lt_add_right _ (h.members w hw)

end Equium.Explorer
