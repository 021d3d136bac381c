import Equium.Explorer.OnChain
import Equium.Schemes.ByKey

/-! @src clients/website/src/lib/rpc.ts | name:Leaderboards | scheme:ranking

    The explorer ranks miners over the newest blocks, by folding these into a map, and over all time, by
    reading the rank set of the indexer, or every entry of the hash where that set is empty or cannot be read. A set
    lists members of one score in an order of its own, so a listing is any ranking of it. The hashrate of
    a row is a float; the count it comes from is in its place. -/

namespace Equium.Explorer
open Schemes

variable {batch : BatchSize}

/-- The members of a set, or the fields of a hash, with their values. -/
def entriesOf {α : Type} (z : AList fun _ : α => ℕ) : List (α × ℕ) := z.entries.map fun e => (e.1, e.2)

/-- A set as `ZRANGE … REV` lists it. -/
structure Ranked {α : Type} (z : AList fun _ : α => ℕ) (xs : List (α × ℕ)) : Prop where
  perm : xs.Perm (entriesOf z)
  sorted : xs.Pairwise fun a b => b.2 ≤ a.2

/-- The entries from 0 to `stop`; a negative stop counts from the end. -/
def zrange {α : Type} (xs : List α) (stop : ℤ) : List α :=
  xs.take (if 0 ≤ stop then stop.toNat + 1 else (xs.length + stop + 1).toNat)

/-! ### The recent leaderboard -/

structure LeaderboardEntry where
  miner : String
  blocks : ℕ
  totalRewardBase : ℕ
  lastSeen : ℕ
  lastHeight : ℕ
  deriving DecidableEq, Repr

/-- The row of a miner's first block. -/
def LeaderboardEntry.first (b : MinedBlock) : LeaderboardEntry := ⟨b.winner, 1, b.reward, b.ts, b.height⟩

/-- One more block. The source adds JS numbers, so a total is exact as long as it is below `2 ^ 53`. -/
def LeaderboardEntry.more (e : LeaderboardEntry) (b : MinedBlock) : LeaderboardEntry :=
  { e with
    blocks := e.blocks + 1
    totalRewardBase := e.totalRewardBase + b.reward
    lastSeen := if b.ts > e.lastSeen then b.ts else e.lastSeen
    lastHeight := if b.height > e.lastHeight then b.height else e.lastHeight }

/-- `fetchRecentBlockRecords`: the newest blocks of a listing; none if the read fails. -/
def fetchRecentBlockRecords (listing : Option (List (MinedBlock × ℕ))) (limit : ℕ) : List MinedBlock :=
  (zrange (listing.getD []) (max 1 limit - 1)).map Prod.fst

/-- The map of `fetchLeaderboardUncached`. -/
def leaderboardMap (blocks : List MinedBlock) : List (String × LeaderboardEntry) :=
  foldByKey MinedBlock.winner LeaderboardEntry.first LeaderboardEntry.more blocks

/-- `fetchLeaderboardUncached` behind the read. -/
def fetchLeaderboardUncached (blocks : List MinedBlock) (take : ℕ) : List LeaderboardEntry :=
  (rankBy LeaderboardEntry.blocks ((leaderboardMap blocks).map Prod.snd)).take take

/-! ### The all-time leaderboard -/

structure AllTimeEntry where
  miner : String
  blocks : ℕ
  totalRewardBase : ℕ
  lastSeen : ℕ
  lastHeight : ℕ
  /-- blocks in the last hour -/
  recentBlocks : ℕ
  deriving DecidableEq, Repr

/-- `RECENT_WINDOW_SEC`. -/
abbrev recentWindowSec : ℕ := 3600

/-- `ZRANGE … BYSCORE` of the recent set from an hour ago on. -/
def recentMembers (s : Store) (nowSec : ℕ) : List (String × ℕ) :=
  ((entriesOf s.recent).filter fun e => nowSec ≤ e.2 + recentWindowSec).map Prod.fst

/-- The miners to show: what the rank set answers, or else the sorted tallies. -/
def rankedMiners (take : ℕ) (ranked all : Option (List (String × ℕ))) : List (String × ℕ) :=
  let miners := ranked.getD []
  if miners = [] then (rankBy Prod.snd (all.getD [])).take take else miners

/-- `fetchAllTimeLeaderboardUncached`, from the answers to its reads; the other reads come from one
    store, or fail. -/
def fetchAllTimeLeaderboardUncached (side : Option Store) (nowSec take : ℕ)
    (ranked all : Option (List (String × ℕ))) : List AllTimeEntry :=
  match side with
  | none => []
  | some s =>
    let recentCount := foldByKey Prod.fst (fun _ => 1) (fun n _ => n + 1) (recentMembers s nowSec)
    (rankedMiners take ranked all).map fun (m, blocks) =>
      { miner := m
        blocks := blocks
        totalRewardBase := (s.rewards.lookup m).getD 0
        lastSeen := (s.lastSeen.lookup m).getD 0
        lastHeight := (s.lastHeight.lookup m).getD 0
        recentBlocks := (recentCount.lookup m).getD 0 }

/-! ### What the recent rows show -/

/-- The rows are the blocks by winner, the most blocks first, cut at `take`. -/
structure RanksBlocks (blocks : List MinedBlock) (take : ℕ) (rows : List LeaderboardEntry) : Prop where
  nodup : (rows.map (·.miner)).Nodup
  counts : ∀ e ∈ rows, e.blocks = blocks.countP (·.winner = e.miner) ∧ 0 < e.blocks
  rewards : ∀ e ∈ rows, e.totalRewardBase = totalOf MinedBlock.winner MinedBlock.reward e.miner blocks
  lastSeen : ∀ e ∈ rows, (∃ b ∈ blocks, b.winner = e.miner ∧ b.ts = e.lastSeen) ∧
    ∀ b ∈ blocks, b.winner = e.miner → b.ts ≤ e.lastSeen
  lastHeight : ∀ e ∈ rows, (∃ b ∈ blocks, b.winner = e.miner ∧ b.height = e.lastHeight) ∧
    ∀ b ∈ blocks, b.winner = e.miner → b.height ≤ e.lastHeight
  sorted : rows.Pairwise fun a b => b.blocks ≤ a.blocks
  top : ∀ b ∈ blocks, b.winner ∉ rows.map (·.miner) → rows.length = take ∧
    ∀ e ∈ rows, blocks.countP (·.winner = b.winner) ≤ e.blocks

/-- INVARIANT: a row against the blocks folded into it. -/
structure RowOf (bs : List MinedBlock) (e : LeaderboardEntry) : Prop where
  count : e.blocks = bs.length
  rewards : e.totalRewardBase = (bs.map (·.reward)).sum
  lastSeen : (∃ b ∈ bs, b.ts = e.lastSeen) ∧ ∀ b ∈ bs, b.ts ≤ e.lastSeen
  lastHeight : (∃ b ∈ bs, b.height = e.lastHeight) ∧ ∀ b ∈ bs, b.height ≤ e.lastHeight

/-- The greater of a maximum and one more value. -/
theorem max_snoc {f : MinedBlock → ℕ} {bs : List MinedBlock} {n : ℕ} (b : MinedBlock)
    (h : (∃ b ∈ bs, f b = n) ∧ ∀ b ∈ bs, f b ≤ n) :
    (∃ c ∈ bs ++ [b], f c = if f b > n then f b else n) ∧
      ∀ c ∈ bs ++ [b], f c ≤ if f b > n then f b else n := by
  obtain ⟨⟨c, hc, hmax⟩, hall⟩ := h
  constructor
  · split_ifs
    · exact ⟨b, List.mem_append_right _ (List.mem_singleton_self b), rfl⟩
    · exact ⟨c, List.mem_append_left _ hc, hmax⟩
  · intro d hd
    rcases List.mem_append.mp hd with hd | hd
    · have := hall d hd
      split_ifs <;> omega
    · rw [List.mem_singleton.mp hd]
      split_ifs <;> omega

theorem RowOf.first (b : MinedBlock) : RowOf [b] (.first b) where
  count := rfl
  rewards := by simp [LeaderboardEntry.first]
  lastSeen := ⟨⟨b, List.mem_singleton_self b, rfl⟩, fun c hc => by rw [List.mem_singleton.mp hc]; rfl⟩
  lastHeight := ⟨⟨b, List.mem_singleton_self b, rfl⟩, fun c hc => by rw [List.mem_singleton.mp hc]; rfl⟩

/-- Step lemma: one more block. -/
theorem RowOf.more {bs : List MinedBlock} {e : LeaderboardEntry} (h : RowOf bs e) (b : MinedBlock) :
    RowOf (bs ++ [b]) (e.more b) where
  count := by rw [LeaderboardEntry.more, h.count, List.length_append, List.length_singleton]
  rewards := by simp [LeaderboardEntry.more, h.rewards]
  lastSeen := max_snoc b h.lastSeen
  lastHeight := max_snoc b h.lastHeight

theorem rowOf_fold (b : MinedBlock) (bs : List MinedBlock) :
    RowOf (b :: bs) (bs.foldl LeaderboardEntry.more (.first b)) ∧
      (bs.foldl LeaderboardEntry.more (.first b)).miner = b.winner := by
  induction bs using List.reverseRecOn with
  | nil => exact ⟨.first b, rfl⟩
  | append_singleton bs c ih =>
    rw [List.foldl_append]
    exact ⟨ih.1.more c, ih.2⟩

/-- A row of the map. -/
theorem row_of_map {blocks : List MinedBlock} {p : String × LeaderboardEntry}
    (hp : p ∈ leaderboardMap blocks) :
    p.2.miner = p.1 ∧ RowOf (blocks.filter fun b => b.winner = p.1) p.2 := by
  obtain ⟨b, bs, hfilter, hrow⟩ := (foldByKey_folded blocks).values p hp
  have hb : b ∈ blocks.filter fun b => b.winner = p.1 := by
    rw [hfilter]
    exact List.mem_cons_self
  obtain ⟨hfold, hminer⟩ := rowOf_fold b bs
  rw [hfilter, hrow]
  exact ⟨hminer.trans (of_decide_eq_true (List.mem_filter.mp hb).2), hfold⟩

theorem map_miners (blocks : List MinedBlock) :
    ((leaderboardMap blocks).map Prod.snd).map (·.miner) = (leaderboardMap blocks).map Prod.fst := by
  rw [List.map_map]
  exact List.map_congr_left fun p hp => (row_of_map hp).1

/-- A row shown, against the blocks of its miner. -/
theorem row_shown {blocks : List MinedBlock} {take : ℕ} {e : LeaderboardEntry}
    (he : e ∈ fetchLeaderboardUncached blocks take) :
    RowOf (blocks.filter fun b => b.winner = e.miner) e := by
  obtain ⟨p, hp, rfl⟩ := List.mem_map.mp ((rankBy_perm _ _).mem_iff.mp (List.mem_of_mem_take he))
  obtain ⟨hminer, hrow⟩ := row_of_map hp
  rwa [hminer]

/-- A maximum over a miner's blocks. -/
theorem max_own {f : MinedBlock → ℕ} {blocks : List MinedBlock} {w : String} {n : ℕ}
    (h : (∃ b ∈ blocks.filter fun b => b.winner = w, f b = n) ∧
      ∀ b ∈ blocks.filter fun b => b.winner = w, f b ≤ n) :
    (∃ b ∈ blocks, b.winner = w ∧ f b = n) ∧ ∀ b ∈ blocks, b.winner = w → f b ≤ n := by
  obtain ⟨⟨b, hb, hn⟩, hall⟩ := h
  obtain ⟨hmem, hw⟩ := List.mem_filter.mp hb
  exact ⟨⟨b, hmem, of_decide_eq_true hw, hn⟩, fun c hc hcw =>
    hall c (List.mem_filter.mpr ⟨hc, decide_eq_true hcw⟩)⟩

/-- The rows are the exact totals of the winners among the blocks read, and whoever is not
    shown has no more blocks than anyone who is. -/
theorem leaderboard_ranks (blocks : List MinedBlock) (take : ℕ) :
    RanksBlocks blocks take (fetchLeaderboardUncached blocks take) := by
  have hperm := rankBy_perm LeaderboardEntry.blocks ((leaderboardMap blocks).map Prod.snd)
  have hsorted := rankBy_sorted LeaderboardEntry.blocks ((leaderboardMap blocks).map Prod.snd)
  refine ⟨?_, fun e he => ⟨?_, ?_⟩, fun e he => ?_, fun e he => max_own (row_shown he).lastSeen,
    fun e he => max_own (row_shown he).lastHeight, hsorted.sublist (List.take_sublist _ _),
    fun b hb hout => ?_⟩
  · have hall : ((rankBy LeaderboardEntry.blocks ((leaderboardMap blocks).map Prod.snd)).map
        (·.miner)).Nodup := by
      rw [(hperm.map _).nodup_iff, map_miners]
      exact (foldByKey_folded blocks).nodup
    exact hall.sublist ((List.take_sublist _ _).map _)
  · rw [(row_shown he).count, List.countP_eq_length_filter]
  · rw [(row_shown he).count, List.length_pos_iff]
    obtain ⟨⟨b, hb, -⟩, -⟩ := (row_shown he).lastSeen
    exact List.ne_nil_of_mem hb
  · rw [(row_shown he).rewards, totalOf_filter]
  · -- the winner has a row, below the cut
    obtain ⟨p, hp, hpb⟩ : ∃ p ∈ leaderboardMap blocks, p.1 = b.winner :=
      List.mem_map.mp (((foldByKey_folded blocks).keys b.winner).mpr ⟨b, hb, rfl⟩)
    have hminer : p.2.miner = b.winner := (row_of_map hp).1.trans hpb
    have hin : p.2 ∈ rankBy LeaderboardEntry.blocks ((leaderboardMap blocks).map Prod.snd) :=
      hperm.mem_iff.mpr (List.mem_map_of_mem hp)
    have hcut : p.2 ∉ fetchLeaderboardUncached blocks take := fun hmem =>
      hout (hminer ▸ List.mem_map_of_mem hmem)
    have hcount : blocks.countP (·.winner = b.winner) = p.2.blocks := by
      rw [(row_of_map hp).2.count, hpb, List.countP_eq_length_filter]
    refine ⟨?_, fun e he => ?_⟩
    · rw [fetchLeaderboardUncached, List.length_take, min_eq_left]
      by_contra hlen
      refine hcut ?_
      rwa [fetchLeaderboardUncached, List.take_of_length_le (by omega)]
    · rw [hcount]
      exact below_cut hsorted he hin hcut

/-! ### What the indexer writes -/

/-- A write as the indexer makes it: one block at a time, a record under its height. -/
def Command.Sent : Command → Prop
  | .hincrbyMiners _ n => n = 1
  | .zincrbyRank n _ => n = 1
  | .zaddBlocksByHeight score b => score = b.height
  | _ => True

section
variable {P : Store → Prop}

theorem send_inv (hP : ∀ c s, Command.Sent c → P s → P (c.apply s)) {cs : List Command} {s : Store}
    {rs : List Reply} (hcs : ∀ c ∈ cs, c.Sent) (h : P s) : P (send cs s rs).store := by
  induction cs generalizing s rs with
  | nil => exact h
  | cons c cs ih =>
    rw [send]
    split
    · exact ih (fun c' hc' => hcs c' (List.mem_cons_of_mem _ hc')) (hP c s (hcs c List.mem_cons_self) h)
    · exact h
    · exact h

theorem indexBlock_sent (b : MinedBlock) : ∀ c ∈ indexBlock b, c.Sent := by
  intro c hc
  simp only [indexBlock, List.mem_cons, List.not_mem_nil, or_false] at hc
  rcases hc with rfl | rfl | rfl | rfl | rfl | rfl | rfl
  all_goals first | exact trivial | exact rfl

theorem indexBlocks_inv (hP : ∀ c s, Command.Sent c → P s → P (c.apply s)) {bs : List MinedBlock}
    {s : Store} {rs : List Reply} (h : P s) : P (indexBlocks bs s rs).store := by
  induction bs generalizing s rs with
  | nil => exact h
  | cons b bs ih =>
    have hsent : P (send (indexBlock b) s rs).store := send_inv hP (indexBlock_sent b) h
    rw [indexBlocks]
    dsimp only
    split
    · exact hsent
    · exact ih hsent
    · exact ih hsent

/-- Step lemma: what every write keeps, every step of the indexer keeps, whatever fails. -/
theorem Step.store_inv (hP : ∀ c s, Command.Sent c → P s → P (c.apply s)) {s s' : Sys} {a : Action}
    (hst : Step batch s a s') (h : P s.store) : P s'.store := by
  have hsaved : ∀ (newestSig : Option Signature) (st : Store) (rs : List Reply), P st →
      P (send (newestSig.toList.map .setCursor) st rs).store := fun newestSig st rs hs =>
    send_inv hP (fun c hc => by
      obtain ⟨sig, -, rfl⟩ := List.mem_map.mp hc
      exact trivial) hs
  have hone : ∀ (c : Command) (st : Store) (rs : List Reply), c.Sent → P st →
      P (send [c] st rs).store := fun c st rs hc hs =>
    send_inv hP (fun c' hc' => by rwa [List.mem_singleton.mp hc']) hs
  have hfinish : ∀ newestSig cutoff st rs, P st → P (finishBackfill s newestSig cutoff st rs).store := by
    intro newestSig cutoff st rs hs
    have htrimmed := hone (.trimRecent cutoff) _ (send (newestSig.toList.map .setCursor) st rs).replies
      trivial (hsaved newestSig st rs hs)
    unfold finishBackfill
    dsimp only
    split
    · exact hsaved newestSig st rs hs
    · split
      · exact htrimmed
      · exact hone .hsetMeta _ _ trivial htrimmed
  cases hst with
  | arrive => exact h
  | start _ r =>
    unfold Explorer.start
    split_ifs
    · exact h
    · split <;> exact h
  | page _ now cutoff rs =>
    have hpage : ∀ sigs, P (processSigs batch now sigs s.store rs).store := fun sigs =>
      indexBlocks_inv hP h
    unfold backfillPage
    dsimp only
    split_ifs
    · exact hfinish _ _ _ _ h
    · exact hpage _
    · exact hfinish _ _ _ _ (hpage _)
    · exact hfinish _ _ _ _ (hpage _)
    · exact hpage _
    · exact hpage _
  | check =>
    unfold checkMigration
    split_ifs <;> first | exact h | (dsimp only; split_ifs <;> exact h)
  | migrate _ now rs =>
    have hwrote : ∀ sigs, P (send ((parseSigs batch now sigs).map fun b =>
        .zaddBlocksByHeight b.height b) s.store rs).store := fun sigs =>
      send_inv hP (fun c hc => by
        obtain ⟨b, -, rfl⟩ := List.mem_map.mp hc
        exact rfl) h
    unfold migrationPage
    dsimp only
    split_ifs
    · exact h
    · exact hwrote _
    · exact hwrote _
    · exact hwrote _
  | tick _ now cutoff read rs =>
    have hpass : ∀ sigs, P (processSigs batch now sigs s.store rs).store := fun sigs =>
      indexBlocks_inv hP h
    unfold Explorer.tick
    split_ifs
    · exact h
    · split
      · exact h
      · dsimp only
        have hcursor := fun sigs sig => hone (.setCursor sig) _ (processSigs batch now sigs s.store rs).replies
          trivial (hpass sigs)
        split
        · exact hpass _
        · split
          · exact hcursor _ _
          · exact hcursor _ _
          · exact hone (.trimRecent cutoff) _ _ trivial (hcursor _ _)
  | stop => exact h

end

/-- Scores stand for what they are taken from: a rank is never zero, a record stands at its height. -/
structure Scored (s : Store) : Prop where
  rank : ∀ w ∈ s.rank, 0 < s.rankOf w
  miners : ∀ w ∈ s.miners, 0 < s.blocksOf w
  records : ∀ b n, s.blocksByHeight.lookup b = some n → n = b.height

/-- One more is never zero. -/
theorem incrBy_pos {h : AList fun _ : String => ℕ} (hpos : ∀ w ∈ h, 0 < (h.lookup w).getD 0)
    (f : String) : ∀ w ∈ incrBy h f 1, 0 < ((incrBy h f 1).lookup w).getD 0 := by
  intro w hw
  rw [lookup_incrBy]
  by_cases hf : f = w
  · rw [if_pos hf]
    exact Nat.succ_pos _
  · have hold : w ∈ h := ((AList.mem_insert _).mp hw).resolve_left fun he => hf he.symm
    exact Nat.lt_of_lt_of_le (hpos w hold) (Nat.le_add_right _ _)

theorem Scored.apply {c : Command} {s : Store} (hc : c.Sent) (h : Scored s) : Scored (c.apply s) := by
  cases c with
  | hincrbyMiners m n =>
    obtain rfl : n = 1 := hc
    exact ⟨h.rank, incrBy_pos h.miners m, h.records⟩
  | zincrbyRank n m =>
    obtain rfl : n = 1 := hc
    exact ⟨incrBy_pos h.rank m, h.miners, h.records⟩
  | zaddBlocksByHeight score b =>
    obtain rfl : score = b.height := hc
    refine ⟨h.rank, h.miners, fun b' n hn => ?_⟩
    by_cases hb : b' = b
    · subst hb
      rw [Command.apply, AList.lookup_insert] at hn
      exact (Option.some.inj hn).symm
    · rw [Command.apply, AList.lookup_insert_ne hb] at hn
      exact h.records b' n hn
  | _ => exact ⟨h.rank, h.miners, h.records⟩

/-- Run lemma: so it is in every run, whatever fails. -/
theorem scored_run {tr : List (Taken Sys Action)} {s : Sys} (h : Run (Step batch) Sys.init tr s) :
    Scored s.store := by
  refine h.inv_state (fun s => Scored s.store) ⟨?_, ?_, ?_⟩ fun s a s' hs hst =>
    hst.store_inv (fun c s hc => Scored.apply hc) hs
  · intro w hw
    cases hw
  · intro w hw
    cases hw
  · intro b n hn
    cases hn

/-! ### Listings -/

theorem mem_entriesOf {α : Type} [DecidableEq α] {z : AList fun _ : α => ℕ} {w : α} {n : ℕ} :
    (w, n) ∈ entriesOf z ↔ z.lookup w = some n := by
  rw [← Option.mem_def, AList.mem_lookup_iff, entriesOf, List.mem_map]
  constructor
  · rintro ⟨e, he, heq⟩
    obtain ⟨rfl, rfl⟩ := Prod.mk.inj heq
    exact he
  · exact fun he => ⟨_, he, rfl⟩

theorem entriesOf_keys {α : Type} (z : AList fun _ : α => ℕ) : (entriesOf z).map Prod.fst = z.keys := by
  rw [entriesOf, List.map_map]
  rfl

theorem entriesOf_nodup {α : Type} (z : AList fun _ : α => ℕ) : (entriesOf z).Nodup :=
  List.Nodup.of_map Prod.fst (entriesOf_keys z ▸ z.keys_nodup)

/-- Where ranks and tallies agree, the set and the hash list the same. -/
theorem Scored.entries_perm {s : Store} (h : Scored s) (heq : ∀ w, s.rankOf w = s.blocksOf w) :
    (entriesOf s.rank).Perm (entriesOf s.miners) := by
  have hlookup : ∀ w, s.rank.lookup w = s.miners.lookup w := by
    intro w
    have hw := heq w
    have hrank := h.rank w
    have hminers := h.miners w
    simp only [Store.rankOf, Store.blocksOf] at hw hrank hminers
    cases hr : s.rank.lookup w with
    | none =>
      cases hm : s.miners.lookup w with
      | none => rfl
      | some n =>
        have hin := hminers (AList.lookup_isSome.mp (by rw [hm]; rfl))
        rw [hr, hm] at hw
        rw [hm] at hin
        simp at hw hin
        omega
    | some n =>
      have hin := hrank (AList.lookup_isSome.mp (by rw [hr]; rfl))
      rw [hr] at hw hin
      cases hm : s.miners.lookup w with
      | none =>
        rw [hm] at hw
        simp at hw hin
        omega
      | some n' =>
        rw [hm] at hw
        exact congrArg some hw
  refine (List.perm_ext_iff_of_nodup (entriesOf_nodup _) (entriesOf_nodup _)).mpr fun e => ?_
  rw [mem_entriesOf, mem_entriesOf, hlookup]

/-- RECENT: at any point of any run of the indexer, whatever fails, the recent leaderboard is made of
    the stored blocks of the greatest heights: its rows are the exact totals of their winners, and who
    is not shown has no more of them than anyone who is. -/
theorem recent_leaderboard (tr : List (Taken Sys Action)) (s : Sys) (h : Run (Step batch) Sys.init tr s)
    (xs : List (MinedBlock × ℕ)) (hx : Ranked s.store.blocksByHeight xs) (limit take : ℕ) :
    RanksBlocks (fetchRecentBlockRecords (some xs) limit) take
      (fetchLeaderboardUncached (fetchRecentBlockRecords (some xs) limit) take) ∧
    (fetchRecentBlockRecords (some xs) limit).Nodup ∧
    (fetchRecentBlockRecords (some xs) limit).length =
      min (max 1 limit) s.store.blocksByHeight.keys.length ∧
    (∀ b ∈ fetchRecentBlockRecords (some xs) limit, b ∈ s.store.blocksByHeight) ∧
    ∀ b ∈ s.store.blocksByHeight, b ∉ fetchRecentBlockRecords (some xs) limit →
      ∀ c ∈ fetchRecentBlockRecords (some xs) limit, b.height ≤ c.height := by
  have hscored := scored_run h
  have hentry : ∀ p ∈ xs, s.store.blocksByHeight.lookup p.1 = some p.2 := fun p hmem =>
    mem_entriesOf.mp (hx.perm.mem_iff.mp hmem)
  have hheight : ∀ p ∈ xs, p.2 = p.1.height := fun p hmem => hscored.records _ _ (hentry p hmem)
  have hread : fetchRecentBlockRecords (some xs) limit = (xs.take (max 1 limit)).map Prod.fst := by
    rw [fetchRecentBlockRecords, zrange, Option.getD_some, if_pos (by omega)]
    congr 2
    omega
  have hkeys : (xs.map Prod.fst).Nodup := by
    rw [(hx.perm.map _).nodup_iff, entriesOf_keys]
    exact s.store.blocksByHeight.keys_nodup
  refine ⟨leaderboard_ranks _ take, ?_, ?_, fun b hb => ?_, fun b hb hout c hc => ?_⟩
  · rw [hread]
    exact hkeys.sublist ((List.take_sublist _ _).map _)
  · rw [hread, List.length_map, List.length_take, hx.perm.length_eq, ← entriesOf_keys, List.length_map]
  · rw [hread] at hb
    obtain ⟨p, hp, rfl⟩ := List.mem_map.mp hb
    exact AList.lookup_isSome.mp (by rw [hentry p (List.mem_of_mem_take hp)]; rfl)
  · rw [hread] at hout hc
    obtain ⟨q, hq, rfl⟩ := List.mem_map.mp hc
    obtain ⟨n, hn⟩ := Option.isSome_iff_exists.mp (AList.lookup_isSome.mpr hb)
    have hin : (b, n) ∈ xs := hx.perm.mem_iff.mpr (mem_entriesOf.mpr hn)
    have hcut := below_cut hx.sorted hq hin fun hmem => hout (List.mem_map_of_mem hmem)
    rwa [hheight _ hin, hheight _ (List.mem_of_mem_take hq)] at hcut

/-! Five blocks of two miners, indexed by a backfill. -/

namespace Demo

/-- The transaction of a mined block. -/
def won (signature : Signature) (height : ℕ) (winner : String) : Transaction :=
  ⟨signature, false, some (10 + height), some [programLog (minedMessage height winner 25000000)]⟩

def duel : List Transaction :=
  [won "a" 0 "A", won "b" 1 "A", won "c" 2 "B", won "d" 3 "A", won "e" 4 "B"]

/-- The indexer behind it. -/
def duelSys : Sys := indexed ⟨duel, Store.empty, .backfilling none none 0⟩

theorem duel_run : ∃ tr, Run (Step ten) Sys.init tr duelSys ∧
    (∀ t ∈ tr, t.label.faultless) ∧ ∀ t ∈ tr, t.label.isTick = false := indexed_run (by decide)

/-- Its records, the highest first. -/
def duelRecords : List MinedBlock :=
  [⟨"e", 4, "B", 25000000, 14⟩, ⟨"d", 3, "A", 25000000, 13⟩, ⟨"c", 2, "B", 25000000, 12⟩,
    ⟨"b", 1, "A", 25000000, 11⟩, ⟨"a", 0, "A", 25000000, 10⟩]

theorem duelRecords_ranked :
    Ranked duelSys.store.blocksByHeight (duelRecords.map fun b => (b, b.height)) :=
  ⟨by decide +kernel, by decide +kernel⟩

end Demo

/-- Of the four newest blocks each miner has two; the fifth would put A in front. -/
theorem recent_leaderboard_demo : ∃ tr, Run (Step Demo.ten) Sys.init tr Demo.duelSys ∧
    RanksBlocks (Demo.duelRecords.take 4) 20
      [⟨"B", 2, 50000000, 14, 4⟩, ⟨"A", 2, 50000000, 13, 3⟩] := by
  obtain ⟨tr, hr, -⟩ := Demo.duel_run
  have hrows := (recent_leaderboard tr _ hr _ Demo.duelRecords_ranked 4 20).1
  have hread : fetchRecentBlockRecords (some (Demo.duelRecords.map fun b => (b, b.height))) 4 =
      Demo.duelRecords.take 4 := by decide +kernel
  have hshown : fetchLeaderboardUncached (Demo.duelRecords.take 4) 20 =
      [⟨"B", 2, 50000000, 14, 4⟩, ⟨"A", 2, 50000000, 13, 3⟩] := by
    have hmap : (leaderboardMap (Demo.duelRecords.take 4)).map Prod.snd =
        [⟨"B", 2, 50000000, 14, 4⟩, ⟨"A", 2, 50000000, 13, 3⟩] := by decide +kernel
    rw [fetchLeaderboardUncached, hmap, rankBy, List.mergeSort_of_pairwise (by decide)]
    rfl
  rw [hread, hshown] at hrows
  exact ⟨tr, hr, hrows⟩

/-! ### What the all-time rows show -/

/-- The rows are the miners with the most blocks in `s`; the side data is that of `side`. -/
structure TopMiners (s side : Store) (nowSec take : ℕ) (rows : List AllTimeEntry) : Prop where
  nodup : (rows.map (·.miner)).Nodup
  counts : ∀ e ∈ rows, e.blocks = s.blocksOf e.miner ∧ 0 < e.blocks
  rewards : ∀ e ∈ rows, e.totalRewardBase = side.rewardsOf e.miner
  recent : ∀ e ∈ rows, e.recentBlocks = (recentMembers side nowSec).countP (·.1 = e.miner)
  sorted : rows.Pairwise fun a b => b.blocks ≤ a.blocks
  top : ∀ w, w ∉ rows.map (·.miner) → ∀ e ∈ rows, s.blocksOf w ≤ e.blocks
  full : rows.length = min take s.miners.keys.length

/-- The rows of a ranking of the tallies. -/
theorem top_of_ranking {s side : Store} {nowSec take : ℕ} {ranked all : Option (List (String × ℕ))}
    {zs : List (String × ℕ)} (h : Scored s) (hp : zs.Perm (entriesOf s.miners))
    (hs : zs.Pairwise fun a b => b.2 ≤ a.2) (hrows : rankedMiners take ranked all = zs.take take) :
    TopMiners s side nowSec take (fetchAllTimeLeaderboardUncached (some side) nowSec take ranked all) := by
  have hlist : fetchAllTimeLeaderboardUncached (some side) nowSec take ranked all =
      (zs.take take).map fun p => ⟨p.1, p.2, side.rewardsOf p.1, (side.lastSeen.lookup p.1).getD 0,
        (side.lastHeight.lookup p.1).getD 0, (recentMembers side nowSec).countP (·.1 = p.1)⟩ := by
    rw [fetchAllTimeLeaderboardUncached, hrows]
    refine List.map_congr_left fun p _ => ?_
    obtain ⟨w, n⟩ := p
    dsimp only
    rw [lookup_count]
    rfl
  have hentry : ∀ p ∈ zs, s.miners.lookup p.1 = some p.2 := fun p hmem =>
    mem_entriesOf.mp (hp.mem_iff.mp hmem)
  have hcount : ∀ p ∈ zs, s.blocksOf p.1 = p.2 := fun p hmem => by
    rw [Store.blocksOf, hentry p hmem, Option.getD_some]
  have hminers : (zs.take take).map Prod.fst =
      (fetchAllTimeLeaderboardUncached (some side) nowSec take ranked all).map (·.miner) := by
    rw [hlist, List.map_map]
    rfl
  have hrow : ∀ e ∈ fetchAllTimeLeaderboardUncached (some side) nowSec take ranked all,
      ∃ p ∈ zs.take take, e = ⟨p.1, p.2, side.rewardsOf p.1, (side.lastSeen.lookup p.1).getD 0,
        (side.lastHeight.lookup p.1).getD 0, (recentMembers side nowSec).countP (·.1 = p.1)⟩ := by
    intro e he
    rw [hlist] at he
    obtain ⟨p, hmem, rfl⟩ := List.mem_map.mp he
    exact ⟨p, hmem, rfl⟩
  refine ⟨?_, fun e he => ?_, fun e he => ?_, fun e he => ?_, ?_, fun w hw e he => ?_, ?_⟩
  · rw [← hminers]
    have hall : (zs.map Prod.fst).Nodup := by
      rw [(hp.map _).nodup_iff, entriesOf_keys]
      exact s.miners.keys_nodup
    exact hall.sublist ((List.take_sublist _ _).map _)
  · obtain ⟨p, hmem, rfl⟩ := hrow e he
    have hin := List.mem_of_mem_take hmem
    have hpos := h.miners p.1 (AList.lookup_isSome.mp (by rw [hentry p hin]; rfl))
    rw [hcount p hin] at hpos
    exact ⟨(hcount p hin).symm, hpos⟩
  · obtain ⟨p, -, rfl⟩ := hrow e he
    rfl
  · obtain ⟨p, -, rfl⟩ := hrow e he
    rfl
  · rw [hlist, List.pairwise_map]
    exact hs.sublist (List.take_sublist _ _)
  · obtain ⟨p, hmem, rfl⟩ := hrow e he
    cases hl : s.miners.lookup w with
    | none =>
      rw [Store.blocksOf, hl]
      exact Nat.zero_le _
    | some n =>
      have hin : (w, n) ∈ zs := hp.mem_iff.mpr (mem_entriesOf.mpr hl)
      rw [Store.blocksOf, hl]
      refine below_cut hs hmem hin fun hcut => hw ?_
      rw [← hminers]
      exact List.mem_map_of_mem hcut
  · rw [hlist, List.length_map, List.length_take, hp.length_eq, ← entriesOf_keys, List.length_map]

/-- ALL TIME: in every clean run of the indexer whose ticks leave no block out the two ways to read the
    leaderboard show the same numbers of blocks, and both show the miners with the most blocks, each
    with its own totals; once the indexer has caught up these are the totals of the history. -/
theorem alltime_leaderboard (tr : List (Taken Sys Action)) (s : Sys)
    (h : Run (Step batch) Sys.init tr s) (hclean : ∀ t ∈ tr, Clean t.pre t.label)
    (hskip : ∀ t ∈ tr, t.label.isTick = true → NoSkip t.pre) (take : ℕ) (htake : 1 ≤ take)
    (xs ys : List (String × ℕ)) (hx : Ranked s.store.rank xs) (hy : ys.Perm (entriesOf s.store.miners))
    (side : Store) (nowSec : ℕ) :
    TopMiners s.store side nowSec take (fetchAllTimeLeaderboardUncached (some side) nowSec take
      (some (zrange xs (take - 1))) (some ys)) ∧
    TopMiners s.store side nowSec take (fetchAllTimeLeaderboardUncached (some side) nowSec take
      none (some ys)) ∧
    (rankedMiners take (some (zrange xs (take - 1))) (some ys)).map Prod.snd =
      (rankedMiners take none (some ys)).map Prod.snd ∧
    (AtTip s → ∀ rows, TopMiners s.store s.store nowSec take rows → ∀ e ∈ rows,
      e.blocks = (blocksIn s.chain).countP (·.winner = e.miner) ∧
        e.totalRewardBase = totalOf MineLog.winner MineLog.reward e.miner (blocksIn s.chain)) := by
  have hinv := inv_run h hclean hskip
  have hscored := scored_run h
  have hsame := hx.perm.trans (hscored.entries_perm hinv.rank_eq)
  have hslow : rankedMiners take none (some ys) = (rankBy Prod.snd ys).take take := rfl
  have hstop : zrange xs (take - 1) = xs.take take := by
    rw [zrange, if_pos (by omega)]
    congr 1
    omega
  -- an empty answer means that nobody has a block
  have hfast : rankedMiners take (some (zrange xs (take - 1))) (some ys) = xs.take take := by
    rw [hstop, rankedMiners]
    dsimp only [Option.getD_some]
    split_ifs with hnil
    · rcases List.take_eq_nil_iff.mp hnil with hzero | hempty
      · omega
      · have hnone : ys = [] := (hy.trans (hsame.symm.trans (by rw [hempty]))).eq_nil
        rw [hempty, hnone, rankBy, List.mergeSort_nil]
    · rfl
  have hranked : (rankBy Prod.snd ys).Perm (entriesOf s.store.miners) := (rankBy_perm _ _).trans hy
  refine ⟨top_of_ranking hscored hsame hx.sorted hfast,
    top_of_ranking hscored hranked (rankBy_sorted _ _) hslow, ?_, fun htip rows hrows e he => ?_⟩
  · rw [hfast, hslow, List.map_take, List.map_take]
    exact congrArg (List.take take) (ranking_scores (hsame.trans hranked.symm) hx.sorted
      (rankBy_sorted _ _))
  · obtain ⟨hblocks, -, hrewards⟩ := (hinv.tip htip).totals e.miner
    exact ⟨(hrows.counts e he).1.trans hblocks, (hrows.rewards e he).trans hrewards⟩

/-- The miner with the most blocks of all, where one row is asked for. -/
theorem alltime_leaderboard_demo : ∃ tr, Run (Step Demo.ten) Sys.init tr Demo.duelSys ∧
    TopMiners Demo.duelSys.store Demo.duelSys.store 3612 1 [⟨"A", 3, 75000000, 13, 3, 1⟩] := by
  obtain ⟨tr, hr, hf, hno⟩ := Demo.duel_run
  have hrank : Ranked Demo.duelSys.store.rank [("A", 3), ("B", 2)] :=
    ⟨by decide +kernel, by decide +kernel⟩
  have hall : [("B", 2), ("A", 3)].Perm (entriesOf Demo.duelSys.store.miners) := by decide +kernel
  have hrows := (alltime_leaderboard tr _ hr (fun t ht => (hf t ht).clean t.pre)
    (fun t ht htick => by rw [hno t ht] at htick; cases htick) 1 (by decide) _ _ hrank hall
    Demo.duelSys.store 3612).1
  have hshown : fetchAllTimeLeaderboardUncached (some Demo.duelSys.store) 3612 1
      (some (zrange [("A", 3), ("B", 2)] ((1 : ℕ) - 1))) (some [("B", 2), ("A", 3)]) =
        [⟨"A", 3, 75000000, 13, 3, 1⟩] := by
    decide +kernel
  rw [hshown] at hrows
  exact ⟨tr, hr, hrows⟩

end Equium.Explorer
