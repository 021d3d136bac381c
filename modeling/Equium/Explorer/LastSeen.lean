import Equium.Schemes.Order
import Equium.Explorer.Dashboard

/-! @src scripts/indexer.ts | name:Last seen after a backfill | scheme:run-invariant

    `last_seen` and `last_height` are overwritten with every block. A page is indexed oldest first, but
    the pages are walked newest first, so what stays is the newest block of the oldest page in which the
    miner has one. -/

namespace Equium.Explorer
open Schemes

variable {batch : BatchSize} {now : Signature → ℕ} {w : String}

/-- The miner's first block in a listing; in a newest-first one, its newest. -/
def newestBlock (now : Signature → ℕ) (w : String) (txs : List Transaction) : Option MinedBlock :=
  (parseBatch now txs).find? fun b => b.winner = w

/-- For each miner the store shows the first block of a listing as the last one. -/
def Shows (now : Signature → ℕ) (txs : List Transaction) (s : Store) : Prop :=
  ∀ w, s.lastSeen.lookup w = (newestBlock now w txs).map (·.ts) ∧
    s.lastHeight.lookup w = (newestBlock now w txs).map (·.height)

/-- Wherever a page ends, a miner with a block behind that border has been as late, and as high, there
    as anywhere. -/
def SameBehindBorders (now : Signature → ℕ) (txs : List Transaction) : Prop :=
  ∀ w i a b, newestBlock now w txs = some a →
    newestBlock now w (txs.drop (pageSize * i)) = some b → a.ts = b.ts ∧ a.height = b.height

/-! ### The blocks of a listing -/

theorem parseBatch_append (xs ys : List Transaction) :
    parseBatch now (xs ++ ys) = parseBatch now xs ++ parseBatch now ys := by
  simp [parseBatch]

theorem parseBatch_reverse (xs : List Transaction) :
    parseBatch now xs.reverse = (parseBatch now xs).reverse := by
  simp [parseBatch, List.filter_reverse, List.filterMap_reverse]

theorem newestBlock_append (xs ys : List Transaction) :
    newestBlock now w (xs ++ ys) = (newestBlock now w xs).or (newestBlock now w ys) := by
  rw [newestBlock, parseBatch_append, List.find?_append]
  rfl

/-- The second block is not after the first, in time or height. -/
def NotAfter (a b : MinedBlock) : Prop := b.ts ≤ a.ts ∧ b.height ≤ a.height

/-- In a listing that is newest first, a miner's newest block behind a border is not after its newest
    block in front of it. -/
theorem newestBlock_drop {txs : List Transaction} (hmono : (parseBatch now txs).Pairwise NotAfter)
    {i j : ℕ} (hij : i ≤ j) {a b : MinedBlock} (ha : newestBlock now w (txs.drop i) = some a)
    (hb : newestBlock now w (txs.drop j) = some b) : b.ts ≤ a.ts ∧ b.height ≤ a.height := by
  obtain ⟨k, rfl⟩ := Nat.exists_eq_add_of_le hij
  have hpart : ∀ n (xs : List Transaction),
      parseBatch now xs = parseBatch now (xs.take n) ++ parseBatch now (xs.drop n) := by
    intro n xs
    rw [← parseBatch_append, List.take_append_drop]
  rw [hpart i] at hmono
  obtain ⟨-, -, hall⟩ := find?_least (List.pairwise_append.mp hmono).2.1 ha
  rw [← List.drop_drop] at hb
  have hmem : b ∈ parseBatch now (txs.drop i) := by
    rw [hpart k]
    exact List.mem_append_right _ (List.mem_of_find?_eq_some hb)
  have hmatch := @List.find?_some _ (fun b : MinedBlock => b.winner = w) b _ hb
  rcases hall b hmem hmatch with rfl | hle
  · exact ⟨Nat.le_refl _, Nat.le_refl _⟩
  · exact hle

/-! ### What the writes of a page leave -/

/-- The last write to a field is the one that stays. -/
theorem lookup_foldl_insert (value : MinedBlock → ℕ) (bs : List MinedBlock)
    (h : AList fun _ : String => ℕ) :
    (bs.foldl (fun h b => h.insert b.winner (value b)) h).lookup w =
      ((bs.reverse.find? fun b => b.winner = w).map value).or (h.lookup w) := by
  induction bs generalizing h with
  | nil => simp
  | cons b bs ih =>
    rw [List.foldl_cons, ih, List.reverse_cons, List.find?_append]
    cases hlater : bs.reverse.find? fun b => b.winner = w with
    | some c => rfl
    | none =>
      by_cases hw : b.winner = w
      · subst hw
        simp
      · have hne : w ≠ b.winner := fun he => hw he.symm
        simp [hw, AList.lookup_insert_ne hne]

theorem lastSeen_foldl_index (bs : List MinedBlock) (s : Store) :
    (bs.foldl Store.index s).lastSeen =
      bs.foldl (fun h b => h.insert b.winner b.ts) s.lastSeen :=
  (List.foldl_hom Store.lastSeen fun _ _ => rfl).symm

theorem lastHeight_foldl_index (bs : List MinedBlock) (s : Store) :
    (bs.foldl Store.index s).lastHeight =
      bs.foldl (fun h b => h.insert b.winner b.height) s.lastHeight :=
  (List.foldl_hom Store.lastHeight fun _ _ => rfl).symm

/-- A page, indexed oldest first, comes in front of what was there. -/
theorem Shows.page {txs page : List Transaction} {s : Store} (h : Shows now txs s) :
    Shows now (page ++ txs) ((parseBatch now page.reverse).foldl Store.index s) := by
  intro w
  obtain ⟨hseen, hheight⟩ := h w
  rw [lastSeen_foldl_index, lookup_foldl_insert, lastHeight_foldl_index, lookup_foldl_insert, hseen,
    hheight, parseBatch_reverse, List.reverse_reverse, newestBlock_append]
  change ((newestBlock now w page).map _).or _ = _ ∧ ((newestBlock now w page).map _).or _ = _
  cases newestBlock now w page with
  | none => exact ⟨rfl, rfl⟩
  | some b => exact ⟨rfl, rfl⟩

/-! ### The backfill -/

/-- A page of the backfill, every write of it accepted. -/
def Action.backfills (now : Signature → ℕ) : Action → Prop
  | .page now' _ rs => now' = now ∧ ∀ r ∈ rs, r = .ok
  | _ => False

/-- The state in which `fullBackfill` begins, with nothing in Redis. -/
def backfillStart (chain : List Transaction) : Sys := ⟨chain, Store.empty, .backfilling none none 0⟩

/-- A whole `fullBackfill`; `now` is the clock at which each transaction is fetched. -/
structure Backfill (batch : BatchSize) (chain : List Transaction) (now : Signature → ℕ)
    (tr : List (Taken Sys Action)) (s : Sys) : Prop where
  run : Run (Step batch) (backfillStart chain) tr s
  pages : ∀ t ∈ tr, t.label.backfills now
  ended : s.phase = .seeding

/-- INVARIANT: so many full pages are indexed, the last one on top. -/
structure Walking (chain : List Transaction) (now : Signature → ℕ) (m : ℕ) (s : Sys) : Prop where
  history : s.chain = chain
  phase : ∃ newestSig total, s.phase = .backfilling
    ((chain.reverse.take (pageSize * m)).getLast?.map (·.signature)) newestSig total
  full : pageSize * m ≤ chain.length
  shows : Shows now (pagesBack pageSize chain.reverse m) s.store

/-- After the last page. -/
structure WalkedAll (chain : List Transaction) (now : Signature → ℕ) (s : Sys) : Prop where
  phase : s.phase = .seeding
  shows : ∃ m, chain.length ≤ pageSize * m ∧ Shows now (pagesBack pageSize chain.reverse m) s.store

theorem walking_start (chain : List Transaction) : Walking chain now 0 (backfillStart chain) where
  history := rfl
  phase := ⟨none, 0, rfl⟩
  full := Nat.zero_le _
  shows := fun _ => ⟨rfl, rfl⟩

/-- The end of a backfill without a refused write. -/
theorem finishBackfill_ok (s : Sys) (newestSig : Option Signature) (cutoff : ℕ) (store : Store)
    {rs : List Reply} (hok : ∀ r ∈ rs, r = .ok) :
    (finishBackfill s newestSig cutoff store rs).phase = .seeding ∧
      (finishBackfill s newestSig cutoff store rs).store.lastSeen = store.lastSeen ∧
      (finishBackfill s newestSig cutoff store rs).store.lastHeight = store.lastHeight := by
  have hsend : ∀ cs s n, send cs s (rs.drop n) =
      ⟨.done, cs.foldl Command.apply s, (rs.drop n).drop cs.length, 0⟩ := fun cs s n =>
    send_ok fun r hr => hok r (List.mem_of_mem_drop (List.mem_of_mem_take hr))
  have hfirst := hsend (newestSig.toList.map .setCursor) store 0
  rw [List.drop_zero] at hfirst
  rw [finishBackfill, hfirst]
  dsimp only
  rw [hsend]
  dsimp only
  rw [List.drop_drop, hsend]
  cases newestSig with
  | none => exact ⟨rfl, rfl, rfl⟩
  | some sig => exact ⟨rfl, rfl, rfl⟩

/-- What is listed behind the first `k` signatures. -/
theorem listing_behind {chain : List Transaction} (hn : (chain.map (·.signature)).Nodup) (n k : ℕ) :
    getSignaturesForAddress chain n ((chain.reverse.take k).getLast?.map (·.signature)) none =
      (chain.reverse.drop k).take n := by
  rw [getSignaturesForAddress, newerThan]
  congr 1
  by_cases hnil : chain.reverse.take k = []
  · rw [hnil]
    rcases List.take_eq_nil_iff.mp hnil with rfl | hempty
    · rfl
    · rw [hempty, List.drop_nil]
      rfl
  · exact @olderThan_page _ _ _ _ _ _ none k (nodup_map_reverse.mpr hn) rfl hnil

theorem Shows.congr {txs : List Transaction} {s s' : Store} (h : Shows now txs s)
    (hseen : s'.lastSeen = s.lastSeen) (hheight : s'.lastHeight = s.lastHeight) :
    Shows now txs s' := by
  intro w
  rw [hseen, hheight]
  exact h w

theorem processSigs_faultless {rs : List Reply} (hok : ∀ r ∈ rs, r = .ok) (sigs : List Transaction)
    (s : Store) : processSigs batch now sigs s rs =
      ⟨.done, (parseBatch now sigs.reverse).foldl Store.index s,
        rs.drop (7 * (parseBatch now sigs.reverse).length), (parseBatch now sigs.reverse).length⟩ := by
  rw [processSigs, parseSigs_eq]
  exact indexBlocks_ok fun r hr => hok r (List.mem_of_mem_take hr)

/-- Step lemma: a page is put on top, and the walk goes on behind it or is over. -/
theorem Walking.page {chain : List Transaction} {m : ℕ} {s : Sys} (h : Walking chain now m s)
    (hn : (chain.map (·.signature)).Nodup) {before newestSig : Option Signature} {total : ℕ}
    (hp : s.phase = .backfilling before newestSig total) (cutoff : ℕ) {rs : List Reply}
    (hok : ∀ r ∈ rs, r = .ok) :
    WalkedAll chain now (backfillPage batch s before newestSig total now cutoff rs) ∨
      Walking chain now (m + 1) (backfillPage batch s before newestSig total now cutoff rs) := by
  obtain ⟨newestSig', total', hphase⟩ := h.phase
  rw [hphase] at hp
  obtain ⟨rfl, rfl, rfl⟩ := Phase.backfilling.inj hp
  have hlist := listing_behind hn pageSize (pageSize * m)
  have htake : chain.reverse.take (pageSize * (m + 1)) = chain.reverse.take (pageSize * m) ++
      (chain.reverse.drop (pageSize * m)).take pageSize := by
    rw [Nat.mul_succ, List.take_add]
  have hlen : ((chain.reverse.drop (pageSize * m)).take pageSize).length =
      min pageSize (chain.length - pageSize * m) := by
    rw [List.length_take, List.length_drop, List.length_reverse]
  have hshows : ∀ s', s' = _ → Shows now (pagesBack pageSize chain.reverse (m + 1)) s' :=
    fun s' hs => hs ▸ @Shows.page now _ ((chain.reverse.drop (pageSize * m)).take pageSize) _ h.shows
  have hfull := h.full
  rw [backfillPage, h.history, hlist]
  generalize (chain.reverse.drop (pageSize * m)).take pageSize = page at htake hlen hshows ⊢
  dsimp only
  by_cases hnil : page = []
  · obtain ⟨hended, hseen, hheight⟩ := finishBackfill_ok s newestSig' cutoff s.store hok
    rw [if_pos hnil]
    refine Or.inl ⟨hended, m, ?_, h.shows.congr hseen hheight⟩
    rw [hnil, List.length_nil] at hlen
    simp only [pageSize] at hlen ⊢
    omega
  · rw [if_neg hnil, processSigs_faultless hok]
    dsimp only
    rw [if_neg (by simp)]
    by_cases hshort : page.length < pageSize
    · rw [if_pos hshort]
      obtain ⟨hended, hseen, hheight⟩ := finishBackfill_ok s _ cutoff _
        fun r hr => hok r (List.mem_of_mem_drop hr)
      refine Or.inl ⟨hended, m + 1, ?_, (hshows _ rfl).congr hseen hheight⟩
      rw [hlen] at hshort
      simp only [pageSize] at hshort ⊢
      omega
    · rw [if_neg hshort]
      have hlast : page.getLast? = (chain.reverse.take (pageSize * (m + 1))).getLast? := by
        rw [htake, List.getLast?_append_of_ne_nil _ hnil]
      rw [hlast]
      refine Or.inr ⟨rfl, ⟨_, _, rfl⟩, ?_, hshows _ rfl⟩
      rw [hlen] at hshort
      simp only [pageSize] at hshort ⊢
      omega

/-- Run lemma: a whole backfill has walked the history. -/
theorem Backfill.walked {chain : List Transaction} {tr : List (Taken Sys Action)} {s : Sys}
    (h : Backfill batch chain now tr s) (hn : (chain.map (·.signature)).Nodup) :
    WalkedAll chain now s := by
  have hinv : (∃ m, Walking chain now m s) ∨ WalkedAll chain now s := by
    refine h.run.inv (fun tr s => (∀ t ∈ tr, t.label.backfills now) →
      (∃ m, Walking chain now m s) ∨ WalkedAll chain now s) ?_ ?_ h.pages
    · exact fun _ => Or.inl ⟨0, walking_start chain⟩
    · intro tr s l s' _ ih hst hall
      have hlast : l.backfills now :=
        hall ⟨s, l, s'⟩ (List.mem_append_right _ (List.mem_singleton_self _))
      cases hst with
      | page hp now' cutoff rs =>
        obtain ⟨rfl, hok⟩ := hlast
        rcases ih fun t ht => hall t (List.mem_append_left _ ht) with ⟨m, hw⟩ | hw
        · rcases hw.page hn hp cutoff hok with hend | hgo
          · exact Or.inr hend
          · exact Or.inl ⟨m + 1, hgo⟩
        · rw [hw.phase] at hp
          cases hp
      | _ => exact absurd hlast id
  rcases hinv with ⟨m, hw⟩ | hw
  · obtain ⟨newestSig, total, hp⟩ := hw.phase
    rw [h.ended] at hp
    cases hp
  · exact hw

/-- The walk comes to an end: each page leaves less of the history. -/
theorem Walking.exists_end {chain : List Transaction} {m : ℕ} {s : Sys} (h : Walking chain now m s)
    (hn : (chain.map (·.signature)).Nodup) : ∃ tr s', Run (Step batch) s tr s' ∧
      (∀ t ∈ tr, t.label.backfills now) ∧ s'.phase = .seeding := by
  induction hk : chain.length - pageSize * m using Nat.strongRecOn generalizing m s with
  | _ k ih =>
    obtain ⟨newestSig, total, hp⟩ := h.phase
    have hst : Run (Step batch) s _ _ := Run.nil.snoc (Step.page hp now 0 [])
    have hlabel : (Action.page now 0 []).backfills now := ⟨rfl, fun r hr => by cases hr⟩
    rcases @Walking.page batch now chain m s h hn _ _ _ hp 0 [] (fun r hr => by cases hr)
      with hend | hgo
    · exact ⟨_, _, hst, List.forall_mem_singleton.mpr hlabel, hend.phase⟩
    · have hfull := hgo.full
      obtain ⟨tr, s', hr, hall, hended⟩ :=
        ih (chain.length - pageSize * (m + 1)) (by simp only [pageSize] at hfull hk ⊢; omega) hgo rfl
      refine ⟨_, s', hst.append hr, ?_, hended⟩
      exact List.forall_mem_append.mpr ⟨List.forall_mem_singleton.mpr hlabel, hall⟩

/-! ### When it is the newest block -/

/-- What a backfill shows is the newest block exactly when the borders do not matter. -/
theorem WalkedAll.shows_iff {chain : List Transaction} {s : Sys} (h : WalkedAll chain now s)
    (hmono : (parseBatch now chain).Pairwise fun a b => a.ts ≤ b.ts ∧ a.height ≤ b.height) :
    Shows now chain.reverse s.store ↔ SameBehindBorders now chain.reverse := by
  obtain ⟨m, hm, hshows⟩ := h.shows
  have hall : chain.reverse.take (pageSize * m) = chain.reverse :=
    List.take_of_length_le (by rwa [List.length_reverse])
  have hmono' : (parseBatch now chain.reverse).Pairwise NotAfter := by
    rw [parseBatch_reverse]
    exact List.pairwise_reverse.mpr hmono
  -- the block that is shown is the newest one from some border on, and none is behind the next
  have hborder : ∀ w, ∃ j, newestBlock now w (pagesBack pageSize chain.reverse m) =
      newestBlock now w (chain.reverse.drop (pageSize * j)) ∧
      (∀ i, j < i → newestBlock now w (chain.reverse.drop (pageSize * i)) = none) ∧
      (newestBlock now w (pagesBack pageSize chain.reverse m) = none → j = 0) := by
    intro w
    obtain ⟨j, -, hfound, hrest⟩ :=
      @pagesBack_search _ _ (newestBlock now w) rfl newestBlock_append pageSize chain.reverse m
    rw [hall] at hfound hrest
    exact ⟨j, hfound, hrest⟩
  constructor
  · intro hnewest w i a b ha hb
    obtain ⟨j, hfound, hbehind, -⟩ := hborder w
    obtain ⟨hseen, hheight⟩ := hshows w
    rw [(hnewest w).1, ha, hfound] at hseen
    rw [(hnewest w).2, ha, hfound] at hheight
    have hij : i ≤ j := by
      by_contra hlt
      rw [hbehind i (Nat.lt_of_not_le hlt)] at hb
      cases hb
    cases hc : newestBlock now w (chain.reverse.drop (pageSize * j)) with
    | none =>
      rw [hc] at hseen
      cases hseen
    | some c =>
      rw [hc] at hseen hheight
      have hts : a.ts = c.ts := Option.some.inj hseen
      have hht : a.height = c.height := Option.some.inj hheight
      have hba := newestBlock_drop hmono' (Nat.zero_le _) (by simpa using ha) hb
      have hcb := newestBlock_drop hmono' (Nat.mul_le_mul_left pageSize hij) hb hc
      omega
  · intro hsame w
    obtain ⟨j, hfound, -, hzero⟩ := hborder w
    obtain ⟨hseen, hheight⟩ := hshows w
    rw [hseen, hheight]
    cases hb : newestBlock now w (pagesBack pageSize chain.reverse m) with
    | none =>
      have hnone := hfound
      rw [hb, hzero hb] at hnone
      have hempty : newestBlock now w chain.reverse = none := hnone.symm
      rw [hempty]
      exact ⟨rfl, rfl⟩
    | some b =>
      have hdrop := hfound.symm.trans hb
      obtain ⟨a, ha⟩ : ∃ a, newestBlock now w chain.reverse = some a := by
        rw [← List.take_append_drop (pageSize * j) chain.reverse, newestBlock_append, hdrop]
        cases newestBlock now w (chain.reverse.take (pageSize * j)) with
        | none => exact ⟨b, rfl⟩
        | some a => exact ⟨a, rfl⟩
      obtain ⟨hts, hht⟩ := hsame w j a b ha hdrop
      rw [ha]
      exact ⟨congrArg some hts.symm, congrArg some hht.symm⟩

/-- LAST SEEN: after a backfill from an empty store, `last_seen` and `last_height` of every miner are
    those of its newest block iff no border between two pages has a later or higher block of a miner in
    front of it than behind it, where the miner has any. -/
theorem backfill_last_iff (batch : BatchSize) (chain : List Transaction)
    (hn : (chain.map (·.signature)).Nodup) (now : Signature → ℕ)
    (hmono : (parseBatch now chain).Pairwise fun a b => a.ts ≤ b.ts ∧ a.height ≤ b.height) :
    (∃ tr s, Backfill batch chain now tr s) ∧ ∀ tr s, Backfill batch chain now tr s →
      (Shows now chain.reverse s.store ↔ SameBehindBorders now chain.reverse) := by
  constructor
  · obtain ⟨tr, s, hr, hall, hended⟩ := (walking_start chain).exists_end hn
    exact ⟨tr, s, hr, hall, hended⟩
  · intro tr s h
    exact (h.walked hn).shows_iff hmono

/-! The two blocks of `lull`, both of one miner. -/

namespace Demo

/-- What the indexer makes of the two blocks. -/
def first : MinedBlock := ⟨"m", 0, "A", 25000000, 7⟩
def second : MinedBlock := ⟨"x", 1, "A", 25000000, 9⟩

/-- A clock; every transaction has a block time. -/
def clock : Signature → ℕ := fun _ => 10

theorem parseBatch_others (ns : List ℕ) : parseBatch clock (ns.map other) = [] := by
  induction ns with
  | nil => rfl
  | cons n ns ih => exact ih

theorem parseBatch_lull (n : ℕ) : parseBatch clock (lull n) = [first, second] := by
  have hmine : parseBatch clock [mine] = [first] := by decide +kernel
  have hlatest : parseBatch clock [latest] = [second] := by decide +kernel
  rw [lull, burst, ← List.singleton_append, parseBatch_append, parseBatch_append, hmine,
    parseBatch_others, hlatest]
  rfl

theorem lull_mono (n : ℕ) :
    (parseBatch clock (lull n)).Pairwise fun a b => a.ts ≤ b.ts ∧ a.height ≤ b.height := by
  rw [parseBatch_lull]
  decide

theorem lull_newest (n : ℕ) : newestBlock clock "A" (lull n).reverse = some second := by
  rw [newestBlock, parseBatch_reverse, parseBatch_lull]
  rfl

/-- The older block is the first signature of the second page. -/
theorem lull_behind : newestBlock clock "A" ((lull 999).reverse.drop pageSize) = some first := by
  have hrev : (lull 999).reverse = (latest :: ((List.range 999).map other).reverse) ++ [mine] := by
    simp [lull, burst]
  have hlen : (latest :: ((List.range 999).map other).reverse).length = pageSize := by simp
  rw [hrev, ← hlen, List.drop_left, newestBlock]
  decide +kernel

end Demo

/-- Two blocks of one miner, a thousand signatures apart: the older one is shown. -/
theorem backfill_shows_older : ¬ ∀ (batch : BatchSize) (chain : List Transaction),
    (chain.map (·.signature)).Nodup → ∀ now : Signature → ℕ,
      (parseBatch now chain).Pairwise (fun a b => a.ts ≤ b.ts ∧ a.height ≤ b.height) →
        ∀ tr s, Backfill batch chain now tr s → Shows now chain.reverse s.store := by
  intro hall
  have hn := Demo.lull_nodup 999
  obtain ⟨tr, s, hr, hpages, hended⟩ :=
    @Walking.exists_end Demo.ten Demo.clock _ _ _ (walking_start (Demo.lull 999)) hn
  have hback : Backfill Demo.ten (Demo.lull 999) Demo.clock tr s := ⟨hr, hpages, hended⟩
  have hshows := hall Demo.ten _ hn Demo.clock (Demo.lull_mono 999) tr s hback
  have hsame := ((hback.walked hn).shows_iff (Demo.lull_mono 999)).mp hshows
  have hts := (hsame "A" 1 _ _ (Demo.lull_newest 999) Demo.lull_behind).1
  exact absurd hts (by decide)

namespace Demo

/-- Two blocks of another miner. -/
def rival : Transaction := ⟨"x", false, some 8,
  some ["Program log: equium: mined block 1 by B for 25000000 base units"]⟩

def rivalAgain : Transaction := ⟨"y", false, some 9,
  some ["Program log: equium: mined block 2 by B for 25000000 base units"]⟩

/-- The first page holds both blocks of B, the second one holds the block of A. -/
def twoPages : List Transaction := burst 998 ++ [rival, rivalAgain]

theorem twoPages_nodup : (twoPages.map (·.signature)).Nodup := by
  have hsplit : twoPages.map (·.signature) = (burst 998).map (·.signature) ++ ["x", "y"] := by
    rw [twoPages, List.map_append]
    rfl
  have hx : "x" ∉ "y" :: (burst 998).map (·.signature) :=
    List.not_mem_cons_of_ne_of_not_mem (by decide) (fresh_burst 998 (by decide) (by decide))
  rw [hsplit, List.nodup_append_comm]
  exact List.nodup_cons.mpr ⟨hx, List.nodup_cons.mpr
    ⟨fresh_burst 998 (by decide) (by decide), burst_nodup 998⟩⟩

theorem parseBatch_twoPages : parseBatch clock twoPages =
    [first, ⟨"x", 1, "B", 25000000, 8⟩, ⟨"y", 2, "B", 25000000, 9⟩] := by
  have hmine : parseBatch clock [mine] = [first] := by decide +kernel
  have hrivals : parseBatch clock [rival, rivalAgain] =
      [⟨"x", 1, "B", 25000000, 8⟩, ⟨"y", 2, "B", 25000000, 9⟩] := by decide +kernel
  rw [twoPages, burst, ← List.singleton_append, parseBatch_append, parseBatch_append, hmine,
    parseBatch_others, hrivals]
  rfl

theorem newest_twoPages (w : String) : newestBlock clock w twoPages.reverse =
    [⟨"y", 2, "B", 25000000, 9⟩, ⟨"x", 1, "B", 25000000, 8⟩, first].find? fun b => b.winner = w := by
  rw [newestBlock, parseBatch_reverse, parseBatch_twoPages]
  rfl

theorem secondPage : twoPages.reverse.drop pageSize = [mine] := by
  have hrev : twoPages.reverse =
      (rivalAgain :: rival :: ((List.range 998).map other).reverse) ++ [mine] := by
    simp [twoPages, burst]
  have hlen : (rivalAgain :: rival :: ((List.range 998).map other).reverse).length = pageSize := by
    simp
  rw [hrev, ← hlen, List.drop_left]

/-- Behind the border there is only A's block. -/
theorem newest_secondPage {w : String} {b : MinedBlock} {k : ℕ}
    (h : newestBlock clock w ([mine].drop k) = some b) : w = "A" ∧ b = first := by
  have hmine : parseBatch clock [mine] = [first] := by decide +kernel
  rcases Nat.eq_zero_or_pos k with rfl | hk
  · rw [newestBlock, List.drop_zero, hmine] at h
    have hmem := List.mem_of_find?_eq_some h
    have hw := List.find?_some h
    rw [List.mem_singleton] at hmem
    subst hmem
    exact ⟨(of_decide_eq_true hw).symm, rfl⟩
  · rw [List.drop_eq_nil_of_le (show [mine].length ≤ k from hk)] at h
    cases h

/-- A has no other block, and B has none behind the border. -/
theorem twoPages_same : SameBehindBorders clock twoPages.reverse := by
  intro w i a b ha hb
  cases i with
  | zero =>
    rw [Nat.mul_zero, List.drop_zero, ha] at hb
    obtain rfl := Option.some.inj hb
    exact ⟨rfl, rfl⟩
  | succ i =>
    rw [Nat.mul_succ, Nat.add_comm, ← List.drop_drop, secondPage] at hb
    obtain ⟨rfl, rfl⟩ := newest_secondPage hb
    rw [newest_twoPages] at ha
    obtain rfl : first = a := Option.some.inj ha
    exact ⟨rfl, rfl⟩

end Demo

/-- Two pages that meet the condition: A is shown with the block of the second page, B with the newer
    one of the first. -/
theorem backfill_last_demo : ∃ tr s, Backfill Demo.ten Demo.twoPages Demo.clock tr s ∧
    pageSize < Demo.twoPages.length ∧
    s.store.lastSeen.lookup "A" = some 7 ∧ s.store.lastHeight.lookup "A" = some 0 ∧
    s.store.lastSeen.lookup "B" = some 9 ∧ s.store.lastHeight.lookup "B" = some 2 := by
  obtain ⟨⟨tr, s, hback⟩, hiff⟩ := backfill_last_iff Demo.ten Demo.twoPages Demo.twoPages_nodup
    Demo.clock (by rw [Demo.parseBatch_twoPages]; decide)
  have hshows := (hiff tr s hback).mpr Demo.twoPages_same
  obtain ⟨hseenA, hheightA⟩ := hshows "A"
  obtain ⟨hseenB, hheightB⟩ := hshows "B"
  rw [Demo.newest_twoPages] at hseenA hheightA hseenB hheightB
  exact ⟨tr, s, hback, by simp [Demo.twoPages, Demo.burst], hseenA, hheightA, hseenB, hheightB⟩

end Equium.Explorer
