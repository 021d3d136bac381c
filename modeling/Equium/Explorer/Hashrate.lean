import Mathlib.Tactic.IntervalCases
import Equium.Schemes.Histogram
import Equium.Explorer.Pages

/-! @src clients/website/src/lib/rpc.ts | name:Blocks per minute | scheme:histogram

    The hashrate chart counts blocks into minutes. A minute is labelled with its first second, but the
    index of a block's minute is rounded the other way: a block counts for the minute that ends with it,
    and only one on a full minute counts where the label says.

        label:      60          120         180 (the current minute)
        counted:  (0, 60]    (60, 120]   (120, 180]      -/

namespace Equium.Explorer
open Schemes

/-- The counts and labels of `HashrateSeries`. -/
structure HashrateSeries where
  blocksPerMinute : List ℕ
  bucketTimestamps : List ℤ
  deriving DecidableEq

def lastBucketStart (nowSec : ℤ) : ℤ := nowSec / 60 * 60

/-- `stamps[i]`. -/
def stamp (nowSec : ℤ) (bucketCount i : ℕ) : ℤ := lastBucketStart nowSec - (bucketCount - 1 - i) * 60

/-- The bucket that a block raises. -/
def bucketOf (nowSec : ℤ) (bucketCount : ℕ) (b : PageBlock) : Option ℕ :=
  if b.ts = 0 then none else
    let offsetMin := (lastBucketStart nowSec - b.ts) / 60
    if offsetMin < 0 ∨ bucketCount ≤ offsetMin then none
    else some (bucketCount - 1 - offsetMin.toNat)

/-- `fetchHashrateSeriesUncached`, of the blocks that were read. -/
def fetchHashrateSeriesUncached (blocks : List PageBlock) (nowSec : ℤ) (bucketCount : ℕ) :
    HashrateSeries where
  blocksPerMinute := tally (bucketOf nowSec bucketCount) blocks (List.replicate bucketCount 0)
  bucketTimestamps := (List.range bucketCount).map (stamp nowSec bucketCount)

/-- The blocks of the minute that begins at `t`. -/
def blocksFrom (blocks : List PageBlock) (t : ℤ) : ℕ := blocks.countP fun b => t ≤ b.ts ∧ b.ts < t + 60

/-- Each bucket has the blocks of the minute it is labelled with, so that all blocks since the first
    label are there. -/
structure Labelled (blocks : List PageBlock) (nowSec : ℤ) (s : HashrateSeries) : Prop where
  buckets : ∀ (i : ℕ) (t : ℤ), s.bucketTimestamps[i]? = some t →
    s.blocksPerMinute[i]? = some (blocksFrom blocks t)
  total : ∀ t, s.bucketTimestamps.head? = some t →
    s.blocksPerMinute.sum = blocks.countP fun b => t ≤ b.ts ∧ b.ts ≤ nowSec

/-- The blocks strictly inside the minute that begins at `t`. -/
def blocksInside (blocks : List PageBlock) (t : ℤ) : ℕ := blocks.countP fun b => t < b.ts ∧ b.ts < t + 60

/-- As many blocks inside each minute of the chart as inside the minute before it. -/
def EvenMinutes (blocks : List PageBlock) (nowSec : ℤ) (bucketCount : ℕ) : Prop :=
  ∀ i < bucketCount, blocksInside blocks (stamp nowSec bucketCount i - 60) =
    blocksInside blocks (stamp nowSec bucketCount i)

section
variable {blocks : List PageBlock} {nowSec : ℤ} {bucketCount : ℕ}

/-- The bucket of a block ends with its label. -/
theorem bucketOf_eq_some {b : PageBlock} (hb : 0 < b.ts) {i : ℕ} (hi : i < bucketCount) :
    bucketOf nowSec bucketCount b = some i ↔
      stamp nowSec bucketCount i - 60 < b.ts ∧ b.ts ≤ stamp nowSec bucketCount i := by
  rw [bucketOf, if_neg (Nat.ne_of_gt hb), stamp]
  dsimp only
  split_ifs with hout
  · simp only [false_iff]
    omega
  · rw [Option.some.injEq]
    omega

/-- Loop lemma: a bucket counts the minute up to and including its label. -/
theorem bucket_counts (hts : ∀ b ∈ blocks, 0 < b.ts) {i : ℕ} (hi : i < bucketCount) :
    (fetchHashrateSeriesUncached blocks nowSec bucketCount).blocksPerMinute[i]? =
      some (blocks.countP fun b =>
        stamp nowSec bucketCount i - 60 < b.ts ∧ b.ts ≤ stamp nowSec bucketCount i) := by
  rw [fetchHashrateSeriesUncached, tally_getElem?, List.getElem?_replicate, if_pos hi, Option.map_some,
    Nat.zero_add]
  refine congrArg some (List.countP_congr fun b hb => ?_)
  rw [decide_eq_true_eq, decide_eq_true_eq]
  exact bucketOf_eq_some (hts b hb) hi

theorem stamps_getElem? (i : ℕ) :
    (fetchHashrateSeriesUncached blocks nowSec bucketCount).bucketTimestamps[i]? =
      if i < bucketCount then some (stamp nowSec bucketCount i) else none := by
  rw [fetchHashrateSeriesUncached, List.getElem?_map]
  by_cases hi : i < bucketCount
  · rw [if_pos hi, List.getElem?_range hi, Option.map_some]
  · rw [if_neg hi, List.getElem?_eq_none (by simpa using Nat.le_of_not_lt hi), Option.map_none]

/-- A minute up to and including its end, and a minute from its beginning on, have the end and the
    beginning to themselves and the inside of one minute each. -/
theorem counted_iff (t : ℤ) :
    (blocks.countP fun b => t - 60 < b.ts ∧ b.ts ≤ t) = blocksFrom blocks t ↔
      blocksInside blocks (t - 60) = blocksInside blocks t := by
  have hcounted : (blocks.countP fun b => t - 60 < b.ts ∧ b.ts ≤ t) =
      blocksInside blocks (t - 60) + blocks.countP fun b => b.ts = t := by
    refine countP_split fun b _ => ?_
    simp only [decide_eq_true_eq]
    split_ifs <;> omega
  have hlabel : blocksFrom blocks t = blocksInside blocks t + blocks.countP fun b => b.ts = t := by
    refine countP_split fun b _ => ?_
    simp only [decide_eq_true_eq]
    split_ifs <;> omega
  rw [hcounted, hlabel, Nat.add_right_cancel_iff]

/-- The minutes of the chart, from its first label to now. -/
theorem sum_blocksFrom (hnow : ∀ b ∈ blocks, (b.ts : ℤ) ≤ nowSec) :
    ((List.range bucketCount).map fun i => blocksFrom blocks (stamp nowSec bucketCount i)).sum =
      blocks.countP fun b => stamp nowSec bucketCount 0 ≤ b.ts ∧ b.ts ≤ nowSec := by
  have hstamp : ∀ i : ℕ, stamp nowSec bucketCount i = stamp nowSec bucketCount 0 + 60 * i := by
    intro i
    simp only [stamp]
    omega
  have hall := sum_countP_intervals (fun b : PageBlock => (b.ts : ℤ)) blocks
    (stamp nowSec bucketCount 0) 60 (by decide) bucketCount
  have hmap : ((List.range bucketCount).map fun i =>
      blocksFrom blocks (stamp nowSec bucketCount i)) = _ :=
    List.map_congr_left fun i _ => congrArg (blocksFrom blocks) (hstamp i)
  rw [hmap]
  refine hall.trans (List.countP_congr fun b hb => ?_)
  have hle := hnow b hb
  rw [decide_eq_true_eq, decide_eq_true_eq, stamp, lastBucketStart]
  omega

end

/-- MINUTES: the buckets have the blocks of the minutes they are labelled with iff each minute of the
    chart has as many blocks inside as the one before it. -/
theorem bucket_labels_iff (blocks : List PageBlock) (hts : ∀ b ∈ blocks, 0 < b.ts) (nowSec : ℤ)
    (hnow : ∀ b ∈ blocks, (b.ts : ℤ) ≤ nowSec) (bucketCount : ℕ) (hcount : 1 ≤ bucketCount) :
    Labelled blocks nowSec (fetchHashrateSeriesUncached blocks nowSec bucketCount) ↔
      EvenMinutes blocks nowSec bucketCount := by
  constructor
  · intro h i hi
    have hbucket := h.buckets i (stamp nowSec bucketCount i) (by rw [stamps_getElem?, if_pos hi])
    rw [bucket_counts hts hi] at hbucket
    exact (counted_iff _).mp (Option.some.inj hbucket)
  · intro h
    have hbuckets : ∀ i < bucketCount,
        (fetchHashrateSeriesUncached blocks nowSec bucketCount).blocksPerMinute[i]? =
          some (blocksFrom blocks (stamp nowSec bucketCount i)) := by
      intro i hi
      rw [bucket_counts hts hi, (counted_iff _).mpr (h i hi)]
    refine ⟨fun i t ht => ?_, fun t ht => ?_⟩
    · rw [stamps_getElem?] at ht
      split_ifs at ht with hi
      obtain rfl := Option.some.inj ht
      exact hbuckets i hi
    · have hlist : (fetchHashrateSeriesUncached blocks nowSec bucketCount).blocksPerMinute =
          (List.range bucketCount).map fun i => blocksFrom blocks (stamp nowSec bucketCount i) := by
        refine List.ext_getElem? fun i => ?_
        by_cases hi : i < bucketCount
        · rw [hbuckets i hi, List.getElem?_map, List.getElem?_range hi, Option.map_some]
        · rw [List.getElem?_eq_none, List.getElem?_eq_none]
          · simpa using Nat.le_of_not_lt hi
          · rw [fetchHashrateSeriesUncached, tally_length, List.length_replicate]
            exact Nat.le_of_not_lt hi
      have hpos : 0 < bucketCount := hcount
      rw [List.head?_eq_getElem?, stamps_getElem?, if_pos hpos] at ht
      obtain rfl := Option.some.inj ht
      rw [hlist, sum_blocksFrom hnow]

/-- A block mined at a second. -/
def Demo.minedAt (ts : ℕ) : PageBlock := ⟨"m", 0, "A", 25000000, ts, ""⟩

/-- A block of the current minute, one second old, is not on the chart. -/
theorem newest_block_dropped : ¬ ∀ (blocks : List PageBlock), (∀ b ∈ blocks, 0 < b.ts) →
    ∀ nowSec : ℤ, (∀ b ∈ blocks, (b.ts : ℤ) ≤ nowSec) → ∀ bucketCount, 1 ≤ bucketCount →
      Labelled blocks nowSec (fetchHashrateSeriesUncached blocks nowSec bucketCount) := by
  intro hall
  have hlabelled := hall [Demo.minedAt 61] (by decide) 62 (by decide) 1 (by decide)
  have hbucket := hlabelled.buckets 0 60 (by decide)
  exact absurd hbucket (by decide)

/-- Blocks on full minutes are where the labels say. -/
theorem bucket_labels_demo : Labelled [Demo.minedAt 60, Demo.minedAt 120] 130
    (fetchHashrateSeriesUncached [Demo.minedAt 60, Demo.minedAt 120] 130 2) :=
  (bucket_labels_iff _ (by decide) 130 (by decide) 2 (by decide)).mpr (by
    intro i hi
    interval_cases i <;> decide)

end Equium.Explorer
