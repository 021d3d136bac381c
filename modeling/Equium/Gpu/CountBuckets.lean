import Equium.Gpu.Kernels
import Mathlib.Data.List.Induction

/-! @src clients/gpu-miner/src/shaders/rounds.wgsl | name:count_buckets | scheme:fold over the order

    Whatever the order of the increments, slot `s` of a bucket holds the `s`-th row of that bucket to
    arrive, up to the table's sixteen slots. -/

namespace Equium.Gpu
open Schemes

variable {p : Params} {rowsIn : Buffer}

/-- The bucket of a row as a number. -/
def bucketOf (rowsIn : Buffer) (i : ℕ) : ℕ := (extractBucket rowsIn i).toNat

/-- The rows of bucket `b`, in the order of arrival. -/
def members (p : Params) (rowsIn : Buffer) (order : List ℕ) (b : ℕ) : List ℕ :=
  order.filter fun i => decide (i < p.nRows ∧ bucketOf rowsIn i = b)

/-- The tables after a prefix of the pass. -/
structure CountInv (p : Params) (rowsIn : Buffer) (order : List ℕ) (bk : Buckets) : Prop where
  counts : ∀ b, bk.counts b = (members p rowsIn order b).length
  slots : ∀ b, ∀ s < maxPerBucket, ∀ i, (members p rowsIn order b)[s]? = some i →
    bk.slots (b * maxPerBucket + s) = i

theorem members_concat (order : List ℕ) (i b : ℕ) : members p rowsIn (order ++ [i]) b =
    members p rowsIn order b ++ if i < p.nRows ∧ bucketOf rowsIn i = b then [i] else [] := by
  rw [members, members, List.filter_append]
  by_cases h : i < p.nRows ∧ bucketOf rowsIn i = b <;> simp [h]

/-- Slots of different buckets, and different slots of one, have different addresses. -/
theorem slot_addr_inj {b b' s s' : ℕ} (hs : s < maxPerBucket) (hs' : s' < maxPerBucket)
    (h : b * maxPerBucket + s = b' * maxPerBucket + s') : b = b' ∧ s = s' := by
  unfold maxPerBucket at *
  omega

/-- Step lemma: one increment and the slot it reserves. -/
theorem CountInv.step {order : List ℕ} {bk : Buckets} (h : CountInv p rowsIn order bk) (i : ℕ) :
    CountInv p rowsIn (order ++ [i]) (countBuckets p rowsIn bk i) := by
  unfold countBuckets
  by_cases hi : i ≥ p.nRows
  · rw [if_pos hi]
    have hsame : ∀ b, members p rowsIn (order ++ [i]) b = members p rowsIn order b := fun b => by
      rw [members_concat, if_neg fun hc => absurd hc.1 (Nat.not_lt.mpr hi), List.append_nil]
    exact ⟨fun b => by rw [hsame, h.counts], fun b s hs j hj => h.slots b s hs j (hsame b ▸ hj)⟩
  · rw [if_neg hi]
    have hlen := h.counts (bucketOf rowsIn i)
    refine ⟨fun b => ?_, fun b s hs j hj => ?_⟩
    · by_cases hb : bucketOf rowsIn i = b
      · subst hb
        rw [members_concat, if_pos ⟨by omega, rfl⟩, List.length_append, List.length_singleton, ← hlen]
        exact Function.update_self _ _ _
      · rw [members_concat, if_neg fun hc => hb hc.2, List.append_nil, ← h.counts]
        exact Function.update_of_ne (Ne.symm hb) _ _
    · -- the slot just reserved holds `i`; every other slot is as before
      dsimp only
      change (if bk.counts (bucketOf rowsIn i) < maxPerBucket then
        Function.update bk.slots (bucketOf rowsIn i * maxPerBucket + bk.counts (bucketOf rowsIn i)) i
        else bk.slots) (b * maxPerBucket + s) = j
      by_cases hnew : bucketOf rowsIn i = b ∧ s = bk.counts (bucketOf rowsIn i)
      · obtain ⟨rfl, rfl⟩ := hnew
        rw [members_concat, if_pos ⟨by omega, rfl⟩, hlen, List.getElem?_concat_length] at hj
        rw [if_pos hs, Function.update_self]
        exact Option.some.inj hj
      · have hold : (members p rowsIn order b)[s]? = some j := by
          rw [members_concat] at hj
          split_ifs at hj with hc
          · obtain ⟨-, rfl⟩ := hc
            rw [List.getElem?_append] at hj
            split_ifs at hj with hlt
            · exact hj
            · have hge : s = (members p rowsIn order (bucketOf rowsIn i)).length := by
                have := (List.getElem?_eq_some_iff.mp hj).1
                simp only [List.length_singleton] at this
                omega
              exact absurd ⟨rfl, hge.trans hlen.symm⟩ hnew
          · rwa [List.append_nil] at hj
        rw [← h.slots b s hs j hold]
        split_ifs with hc
        · refine Function.update_of_ne (fun he => ?_) _ _
          obtain ⟨hb, hss⟩ := slot_addr_inj hs hc he
          exact hnew ⟨hb.symm, hss⟩
        · rfl

/-- The pass, from cleared counters and any slots. -/
theorem countInv_pass (p : Params) (rowsIn : Buffer) (slots : ℕ → ℕ) (order : List ℕ) :
    CountInv p rowsIn order (order.foldl (countBuckets p rowsIn) ⟨fun _ => 0, slots⟩) := by
  induction order using List.reverseRecOn with
  | nil => exact ⟨fun _ => rfl, fun _ _ _ _ h => by cases h⟩
  | append_singleton order i ih =>
    rw [List.foldl_concat]
    exact ih.step i

/-! ### What the pair pass finds in the table -/

/-- The slots `pair_emit` visits for a row: different rows of the row's bucket, and all of them when
    the bucket did not overflow. -/
structure SlotsOk (p : Params) (rowsIn : Buffer) (bk : Buckets) : Prop where
  mem : ∀ i s, s < slotCount rowsIn bk i →
    slotRow rowsIn bk i s < p.nRows ∧ bucketOf rowsIn (slotRow rowsIn bk i s) = bucketOf rowsIn i
  inj : ∀ i s t, s < slotCount rowsIn bk i → t < slotCount rowsIn bk i →
    slotRow rowsIn bk i s = slotRow rowsIn bk i t → s = t
  all : ∀ i j, j < p.nRows → bucketOf rowsIn j = bucketOf rowsIn i →
    bk.counts (bucketOf rowsIn i) ≤ maxPerBucket → ∃ s < slotCount rowsIn bk i,
      slotRow rowsIn bk i s = j

theorem CountInv.slotsOk {order : List ℕ} {bk : Buckets} (h : CountInv p rowsIn order bk)
    (hc : Covers order p.nRows) : SlotsOk p rowsIn bk := by
  have hget : ∀ i s, s < slotCount rowsIn bk i → ∃ hs : s < (members p rowsIn order
      (bucketOf rowsIn i)).length, slotRow rowsIn bk i s =
        (members p rowsIn order (bucketOf rowsIn i))[s] := by
    intro i s hs
    obtain ⟨hlt, hmax⟩ := lt_min_iff.mp hs
    have hlt' : s < (members p rowsIn order (bucketOf rowsIn i)).length := h.counts _ ▸ hlt
    exact ⟨hlt', h.slots _ s hmax _ (List.getElem?_eq_getElem hlt')⟩
  refine ⟨fun i s hs => ?_, fun i s t hs ht he => ?_, fun i j hj hb hcap => ?_⟩
  · obtain ⟨hlt, he⟩ := hget i s hs
    have := (List.mem_filter.mp (List.getElem_mem hlt)).2
    rw [he]
    simpa using this
  · obtain ⟨hs', hes⟩ := hget i s hs
    obtain ⟨ht', het⟩ := hget i t ht
    rw [hes, het] at he
    exact (hc.1.filter _).getElem_inj_iff.mp he
  · have hmem : j ∈ members p rowsIn order (bucketOf rowsIn i) :=
      List.mem_filter.mpr ⟨hc.2 j hj, by simp [hj, hb]⟩
    obtain ⟨s, hs, he⟩ := List.getElem_of_mem hmem
    have hlt : s < slotCount rowsIn bk i := by
      have hcount := h.counts (bucketOf rowsIn i)
      refine lt_min_iff.mpr ⟨?_, by omega⟩
      change s < bk.counts (bucketOf rowsIn i)
      omega
    obtain ⟨_, he'⟩ := hget i s hlt
    exact ⟨s, hlt, he'.trans he⟩

end Equium.Gpu
