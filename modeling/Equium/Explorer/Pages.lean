import Equium.Explorer.Transactions

/-! @src clients/website/src/lib/rpc.ts, app/api/blocks/route.ts | name:Pages of mined blocks

    `fetchBlocksPage` walks back from a cursor, two hundred signatures at a time and at most five
    times, until it has enough mined blocks. Its spec lemma says what a page is: the first blocks of a
    window of a thousand signatures. -/

namespace Equium.Explorer
open Schemes

/-- `MinedBlock` of the website. -/
structure PageBlock where
  sig : Signature
  height : ℕ
  winner : String
  reward : ℕ
  ts : ℕ
  newChallenge : String
  deriving DecidableEq

/-- The block of a listed transaction; `blockTime ?? 0`. -/
def pageBlock (t : Transaction) : Option PageBlock :=
  t.mineLog.map fun m => ⟨t.signature, m.height, m.winner, m.reward, t.blockTime.getD 0, ""⟩

/-- The blocks mined in a newest-first list of transactions. -/
def blocksOf (txs : List Transaction) : List PageBlock :=
  txs.filterMap fun t => if t.err then none else pageBlock t

section
variable (take : ℕ)

/-- The loop over the fetched transactions of one batch: it stops when the page is full. -/
def pushBlocks : List Transaction → List PageBlock → List PageBlock
  | [], blocks => blocks
  | t :: txs, blocks =>
    match pageBlock t with
    | none => pushBlocks txs blocks
    | some b => if take ≤ (blocks ++ [b]).length then blocks ++ [b] else pushBlocks txs (blocks ++ [b])

/-- The loop over the batches of ten. -/
def pushBatches : List (List Transaction) → List PageBlock → List PageBlock
  | [], blocks => blocks
  | batch :: rest, blocks =>
    let blocks := pushBlocks take (batch.filter fun t => !t.err) blocks
    if take ≤ blocks.length then blocks else pushBatches rest blocks

/-- `blocks`, `cursor` and `exhausted` of `fetchBlocksPage`. -/
structure Scan where
  blocks : List PageBlock
  cursor : Option Signature
  exhausted : Bool

/-- The loop over signature batches, with the number of batches still allowed. -/
def scan (chain : List Transaction) : ℕ → Option Signature → List PageBlock → Scan
  | 0, cursor, blocks => ⟨blocks, cursor, false⟩
  | batches + 1, cursor, blocks =>
    if take ≤ blocks.length then ⟨blocks, cursor, false⟩ else
      let sigs := getSignaturesForAddress chain 200 cursor none
      if sigs = [] then ⟨blocks, cursor, true⟩ else
        scan chain batches (sigs.getLast?.map (·.signature)) (pushBatches take (slices 10 sigs) blocks)

/-- `MAX_BATCHES`. -/
abbrev maxBatches : ℕ := 5

/-- A page, and the cursor of the next one. -/
structure Page where
  blocks : List PageBlock
  nextCursor : Option Signature
  deriving DecidableEq

/-- `fetchBlocksPage`, with the node answering every request. -/
def fetchBlocksPage (chain : List Transaction) (before : Option Signature) : Page :=
  let r := scan take chain maxBatches before []
  let nextCursor := if 0 < r.blocks.length then r.blocks.getLast?.map (·.sig)
    else if r.exhausted then none else r.cursor
  ⟨r.blocks, if r.exhausted ∧ r.blocks.length = 0 then none else nextCursor⟩

end

/-- `GET /api/blocks`: the limit is clamped to 1 to 50. -/
def getBlocks (chain : List Transaction) (before : Option Signature) (limit : ℕ) : Page :=
  fetchBlocksPage (max 1 (min 50 limit)) chain before

/-! ### What a page is -/

theorem blocksOf_append (xs ys : List Transaction) :
    blocksOf (xs ++ ys) = blocksOf xs ++ blocksOf ys := List.filterMap_append

/-- A page in progress takes the blocks of a batch as far as it has room. -/
theorem pushBlocks_eq {take : ℕ} (txs : List Transaction) {blocks : List PageBlock}
    (h : blocks.length < take) : pushBlocks take (txs.filter fun t => !t.err) blocks =
      (blocks ++ blocksOf txs).take take := by
  induction txs generalizing blocks with
  | nil => simp [pushBlocks, blocksOf, List.take_of_length_le (Nat.le_of_lt h)]
  | cons t txs ih =>
    cases herr : t.err with
    | true =>
      have hskip : blocksOf (t :: txs) = blocksOf txs := by simp [blocksOf, herr]
      rw [List.filter_cons_of_neg (by simp [herr]), hskip]
      exact ih h
    | false =>
      rw [List.filter_cons_of_pos (by simp [herr]), pushBlocks]
      cases hb : pageBlock t with
      | none =>
        have hskip : blocksOf (t :: txs) = blocksOf txs := by simp [blocksOf, herr, hb]
        rw [hskip]
        exact ih h
      | some b =>
        have hcons : blocksOf (t :: txs) = b :: blocksOf txs := by simp [blocksOf, herr, hb]
        have hmove : blocks ++ b :: blocksOf txs = (blocks ++ [b]) ++ blocksOf txs := by simp
        rw [hcons, hmove]
        dsimp only
        by_cases hfull : take ≤ (blocks ++ [b]).length
        · rw [if_pos hfull]
          have hlen : (blocks ++ [b]).length = take := by
            rw [List.length_append, List.length_singleton] at hfull ⊢
            omega
          rw [← hlen, List.take_left]
        · rw [if_neg hfull]
          exact ih (Nat.lt_of_not_le hfull)

theorem pushBatches_eq {take : ℕ} (batches : List (List Transaction)) {blocks : List PageBlock}
    (h : blocks.length < take) :
    pushBatches take batches blocks = (blocks ++ blocksOf batches.flatten).take take := by
  induction batches generalizing blocks with
  | nil => simp [pushBatches, blocksOf, List.take_of_length_le (Nat.le_of_lt h)]
  | cons batch rest ih =>
    rw [pushBatches, pushBlocks_eq batch h, List.flatten_cons, blocksOf_append, ← List.append_assoc]
    by_cases hfull : take ≤ ((blocks ++ blocksOf batch).take take).length
    · rw [if_pos hfull]
      rw [List.length_take, Nat.le_min] at hfull
      exact (List.take_append_of_le_length hfull.2).symm
    · rw [if_neg hfull, ih (Nat.lt_of_not_le hfull)]
      rw [List.length_take, Nat.le_min, not_and] at hfull
      have hroom := hfull (Nat.le_refl take)
      rw [List.take_of_length_le (Nat.le_of_not_le hroom)]

theorem take_take_append {α : Type} (xs ys : List α) (k : ℕ) :
    (xs.take k ++ ys).take k = (xs ++ ys).take k := by
  have hlen : k - min k xs.length = k - xs.length := by omega
  rw [List.take_append, List.take_append, List.length_take, hlen, List.take_take, Nat.min_self]

/-- Step lemma: a page with room reads the next 200 signatures, until none are left. -/
theorem scan_succ {take : ℕ} {chain : List Transaction} {cursor : Option Signature}
    {rest : List Transaction} {blocks : List PageBlock}
    (hr : olderThan (·.signature) cursor chain.reverse = rest) (hroom : blocks.length < take) (n : ℕ) :
    scan take chain (n + 1) cursor blocks =
      if rest.take 200 = [] then ⟨blocks, cursor, true⟩ else
        scan take chain n ((rest.take 200).getLast?.map (·.signature))
          ((blocks ++ blocksOf (rest.take 200)).take take) := by
  have hsigs : getSignaturesForAddress chain 200 cursor none = rest.take 200 := by
    rw [getSignaturesForAddress, newerThan, hr]
  have hbatch := pushBatches_eq (slices 10 (rest.take 200)) hroom
  rw [slices_flatten (by decide)] at hbatch
  rw [scan, hsigs, if_neg (Nat.not_le_of_gt hroom)]
  dsimp only
  rw [hbatch]

/-- Behind the cursor of a batch is what follows the batch. -/
theorem olderThan_batch {chain : List Transaction} (hn : (chain.map (·.signature)).Nodup)
    {cursor : Option Signature} {rest : List Transaction}
    (hr : olderThan (·.signature) cursor chain.reverse = rest) (hnil : rest.take 200 ≠ []) :
    olderThan (·.signature) ((rest.take 200).getLast?.map (·.signature)) chain.reverse =
      rest.drop 200 :=
  olderThan_page (nodup_map_reverse.mpr hn) hr hnil

/-- Loop lemma: what is found within `n` more batches, as far as the page has room. -/
theorem scan_blocks {take : ℕ} {chain : List Transaction}
    (hn : (chain.map (·.signature)).Nodup) (n : ℕ) {cursor : Option Signature}
    {rest : List Transaction} {blocks : List PageBlock}
    (hr : olderThan (·.signature) cursor chain.reverse = rest) (hb : blocks.length ≤ take) :
    (scan take chain n cursor blocks).blocks =
      (blocks ++ blocksOf (rest.take (200 * n))).take take := by
  induction n generalizing cursor rest blocks with
  | zero => simp [scan, blocksOf, List.take_of_length_le hb]
  | succ n ih =>
    by_cases hfull : take ≤ blocks.length
    · rw [scan, if_pos hfull, ← Nat.le_antisymm hb hfull, List.take_left]
    · rw [scan_succ hr (Nat.lt_of_not_le hfull)]
      by_cases hnil : rest.take 200 = []
      · have hrest : rest = [] := by simpa using hnil
        rw [if_pos hnil, hrest]
        simp [blocksOf, List.take_of_length_le hb]
      · rw [if_neg hnil, ih (olderThan_batch hn hr hnil) (List.length_take_le _ _),
          take_take_append, List.append_assoc, ← blocksOf_append, ← List.take_add, Nat.mul_succ,
          Nat.add_comm 200]

/-- PAGE: the first blocks of the thousand signatures behind the cursor. -/
theorem fetchBlocksPage_blocks {take : ℕ} {chain : List Transaction}
    (hn : (chain.map (·.signature)).Nodup) {before : Option Signature} {rest : List Transaction}
    (hr : olderThan (·.signature) before chain.reverse = rest) :
    (fetchBlocksPage take chain before).blocks = (blocksOf (rest.take 1000)).take take := by
  rw [fetchBlocksPage]
  exact scan_blocks hn maxBatches hr (Nat.zero_le take)

/-- A page that is not empty hands out the signature of its last block. -/
theorem fetchBlocksPage_next {take : ℕ} {chain : List Transaction} {before : Option Signature}
    (h : (fetchBlocksPage take chain before).blocks ≠ []) :
    (fetchBlocksPage take chain before).nextCursor =
      (fetchBlocksPage take chain before).blocks.getLast?.map (·.sig) := by
  have hpos : 0 < (scan take chain maxBatches before []).blocks.length :=
    List.length_pos_of_ne_nil h
  rw [fetchBlocksPage]
  dsimp only
  rw [if_neg fun hz => Nat.ne_of_gt hpos hz.2, if_pos hpos]

/-- A page with blocks reads the history up to a mined block, and the next page goes on behind it. -/
theorem fetchBlocksPage_found {take : ℕ} {chain : List Transaction}
    (hn : (chain.map (·.signature)).Nodup) {before : Option Signature} {rest : List Transaction}
    (hr : olderThan (·.signature) before chain.reverse = rest)
    (hne : (blocksOf (rest.take 1000)).take take ≠ []) :
    ∃ p x q, rest = p ++ x :: q ∧ p.length < 1000 ∧ blocksOf [x] ≠ [] ∧
      (fetchBlocksPage take chain before).blocks = blocksOf (p ++ [x]) ∧
      (fetchBlocksPage take chain before).nextCursor = some x.signature ∧
      olderThan (·.signature) (some x.signature) chain.reverse = q := by
  have hblocks := @fetchBlocksPage_blocks take chain hn before rest hr
  obtain ⟨p, x, q, y, hsplit, hy, hpage, hlast⟩ := filterMap_take_split hne
  have hlen : (p ++ x :: q).length ≤ 1000 := hsplit ▸ List.length_take_le 1000 rest
  have hrest : rest = p ++ x :: (q ++ rest.drop 1000) := by
    rw [← List.cons_append, ← List.append_assoc, ← hsplit, List.take_append_drop]
  have hsig : y.sig = x.signature := by
    by_cases herr : x.err
    · simp [herr] at hy
    · rw [if_neg herr, pageBlock, Option.map_eq_some_iff] at hy
      obtain ⟨m, -, rfl⟩ := hy
      rfl
  refine ⟨p, x, q ++ rest.drop 1000, hrest, ?_, ?_, hblocks.trans hpage.symm, ?_, ?_⟩
  · rw [List.length_append, List.length_cons] at hlen
    omega
  · have hone : blocksOf [x] = [y] := by
      simp only [blocksOf, List.filterMap_cons, hy, List.filterMap_nil]
    rw [hone]
    exact List.cons_ne_nil y []
  · have hnext := hblocks.trans_ne hne
    rw [fetchBlocksPage_next hnext, hblocks]
    exact (congrArg (Option.map (·.sig)) hlast).trans (congrArg some hsig)
  · obtain ⟨pre, hpre⟩ : olderThan (·.signature) before chain.reverse <:+ chain.reverse :=
      olderThan_suffix_self before chain.reverse
    rw [hr, hrest, ← List.append_assoc] at hpre
    rw [← hpre]
    refine olderThan_cons ?_
    rw [hpre]
    exact nodup_map_reverse.mpr hn

/-- A page of the route: it has blocks, or the next thousand signatures hold none. -/
theorem getBlocks_page {chain : List Transaction} (hn : (chain.map (·.signature)).Nodup)
    {before : Option Signature} {rest : List Transaction}
    (hr : olderThan (·.signature) before chain.reverse = rest) (limit : ℕ) :
    ((getBlocks chain before limit).blocks = [] ∧ blocksOf (rest.take 1000) = []) ∨
      ∃ p x q, rest = p ++ x :: q ∧ p.length < 1000 ∧ blocksOf [x] ≠ [] ∧
        (getBlocks chain before limit).blocks = blocksOf (p ++ [x]) ∧
        (getBlocks chain before limit).nextCursor = some x.signature ∧
        olderThan (·.signature) (some x.signature) chain.reverse = q := by
  have hblocks : (getBlocks chain before limit).blocks = _ := fetchBlocksPage_blocks hn hr
  by_cases hnil : (blocksOf (rest.take 1000)).take (max 1 (min 50 limit)) = []
  · refine Or.inl ⟨hblocks.trans hnil, ?_⟩
    rcases List.take_eq_nil_iff.mp hnil with hzero | hnone
    · omega
    · exact hnone
  · exact Or.inr (fetchBlocksPage_found hn hr hnil)

/-! ### Page after page

    The next cursor is the last block of the page, or the last signature looked at when five batches held
    no block. -/

/-- Loop lemma: a scan that finds no block runs out of signatures, or stops behind `n` batches. -/
theorem scan_idle {take : ℕ} {chain : List Transaction} (hn : (chain.map (·.signature)).Nodup)
    (htake : 0 < take) (n : ℕ) {cursor : Option Signature} {rest : List Transaction}
    (hr : olderThan (·.signature) cursor chain.reverse = rest)
    (hnone : blocksOf (rest.take (200 * n)) = []) :
    (scan take chain n cursor []).exhausted = true ∧ blocksOf rest = [] ∨
      (scan take chain n cursor []).exhausted = false ∧ (0 < n → rest ≠ []) ∧
      (0 < n ∨ cursor ≠ none → (scan take chain n cursor []).cursor ≠ none) ∧
      olderThan (·.signature) (scan take chain n cursor []).cursor chain.reverse =
        rest.drop (200 * n) := by
  induction n generalizing cursor rest with
  | zero => exact Or.inr ⟨rfl, by simp, by simp [scan], by simpa [scan] using hr⟩
  | succ n ih =>
    rw [Nat.mul_succ, Nat.add_comm, List.take_add, blocksOf_append, List.append_eq_nil_iff] at hnone
    obtain ⟨hfirst, hmore⟩ := hnone
    rw [scan_succ hr htake]
    by_cases hnil : rest.take 200 = []
    · have hrest : rest = [] := by simpa using hnil
      rw [if_pos hnil, hrest]
      exact Or.inl ⟨rfl, rfl⟩
    · rw [if_neg hnil, hfirst, List.append_nil, List.take_nil]
      have hlast : (rest.take 200).getLast?.map (·.signature) ≠ none := by simpa using hnil
      rcases ih (olderThan_batch hn hr hnil) hmore with ⟨hex, hidle⟩ | ⟨hex, -, hcur, hleft⟩
      · refine Or.inl ⟨hex, ?_⟩
        rw [← List.take_append_drop 200 rest, blocksOf_append, hfirst, hidle]
        rfl
      · refine Or.inr ⟨hex, ?_, fun _ => hcur (Or.inr hlast), ?_⟩
        · rintro - rfl
          exact hnil rfl
        · rw [hleft, List.drop_drop, Nat.mul_succ, Nat.add_comm 200]

/-- PAGE, AND WHAT IS LEFT: a page reads on behind its cursor and hands out the cursor behind what it
    has read; only when no block is left there is no such cursor. -/
theorem fetchBlocksPage_reads {take : ℕ} {chain : List Transaction}
    (hn : (chain.map (·.signature)).Nodup) (htake : 0 < take) {before : Option Signature}
    {rest : List Transaction} (hr : olderThan (·.signature) before chain.reverse = rest) :
    fetchBlocksPage take chain before = ⟨[], none⟩ ∧ blocksOf rest = [] ∨
      ∃ read left c, rest = read ++ left ∧ read ≠ [] ∧
        fetchBlocksPage take chain before = ⟨blocksOf read, some c⟩ ∧
        olderThan (·.signature) (some c) chain.reverse = left := by
  by_cases hne : (blocksOf (rest.take 1000)).take take = []
  · have hnone : blocksOf (rest.take (200 * maxBatches)) = [] := by
      rcases List.take_eq_nil_iff.mp hne with hzero | hnone
      · omega
      · exact hnone
    have hblocks : (scan take chain maxBatches before []).blocks = [] :=
      (fetchBlocksPage_blocks hn hr).trans hne
    rcases scan_idle hn htake maxBatches hr hnone with ⟨hex, hidle⟩ | ⟨hex, hrest, hcur, hleft⟩
    · refine Or.inl ⟨?_, hidle⟩
      simp [fetchBlocksPage, hblocks, hex]
    · obtain ⟨c, hc⟩ := Option.ne_none_iff_exists'.mp (hcur (Or.inl (by decide)))
      rw [hc] at hleft
      refine Or.inr ⟨_, _, c, (List.take_append_drop (200 * maxBatches) rest).symm, ?_, ?_, hleft⟩
      · intro hnil
        exact hrest (by decide) (by simpa [maxBatches] using hnil)
      · simp [fetchBlocksPage, hblocks, hex, hc, hnone]
  · obtain ⟨p, x, q, hsplit, -, -, hblocks, hnext, hleft⟩ := fetchBlocksPage_found hn hr hne
    refine Or.inr ⟨p ++ [x], q, x.signature, by simp [hsplit], by simp, ?_, hleft⟩
    rw [← hblocks, ← hnext]

section
variable (take : ℕ)

/-- A client that asks for page after page until there is no cursor, at most `calls` times. -/
def allPages (chain : List Transaction) : ℕ → Option Signature → Option (List PageBlock)
  | 0, _ => none
  | calls + 1, before =>
    let page := fetchBlocksPage take chain before
    match page.nextCursor with
    | none => some page.blocks
    | some cursor => (allPages chain calls (some cursor)).map (page.blocks ++ ·)

end

/-- No signature gives two blocks. -/
theorem blocksOf_sublist (txs : List Transaction) :
    ((blocksOf txs).map (·.sig)).Sublist (txs.map (·.signature)) := by
  induction txs with
  | nil => exact List.Sublist.refl []
  | cons t txs ih =>
    by_cases herr : t.err
    · have hskip : blocksOf (t :: txs) = blocksOf txs := by simp [blocksOf, herr]
      rw [hskip]
      exact ih.cons _
    · cases hm : t.mineLog with
      | none =>
        have hskip : blocksOf (t :: txs) = blocksOf txs := by simp [blocksOf, pageBlock, hm]
        rw [hskip]
        exact ih.cons _
      | some m =>
        have hcons : (blocksOf (t :: txs)).map (·.sig) = t.signature :: (blocksOf txs).map (·.sig) := by
          simp [blocksOf, pageBlock, herr, hm]
        rw [hcons]
        exact ih.cons_cons _

/-- LOSSLESS: page after page, a client gets the mined blocks behind its starting cursor, newest first
    and each once, within one call for each signature and one more. No cursor, or an empty string, starts
    at the newest transaction. -/
theorem pagination_lossless (take : ℕ) (htake : 1 ≤ take) (chain : List Transaction)
    (hn : (chain.map (·.signature)).Nodup) (before : Option Signature) (calls : ℕ)
    (hcalls : (olderThan (·.signature) before chain.reverse).length < calls) :
    allPages take chain calls before =
        some (blocksOf (olderThan (·.signature) before chain.reverse)) ∧
      ((blocksOf (olderThan (·.signature) before chain.reverse)).map (·.sig)).Nodup := by
  constructor
  · induction calls generalizing before with
    | zero => exact absurd hcalls (Nat.not_lt_zero _)
    | succ calls ih =>
      rw [allPages]
      rcases fetchBlocksPage_reads hn htake rfl with
        ⟨hpage, hidle⟩ | ⟨read, left, c, hsplit, hread, hpage, hleft⟩
      · rw [hpage, hidle]
      · have hpos := List.length_pos_of_ne_nil hread
        rw [hsplit, List.length_append] at hcalls
        have hrest := ih (some c) (by rw [hleft]; omega)
        rw [hpage]
        dsimp only
        rw [hrest, hleft, hsplit, blocksOf_append]
        rfl
  · refine (blocksOf_sublist _).nodup ?_
    have hsuffix : olderThan (·.signature) before chain.reverse <:+ chain.reverse :=
      olderThan_suffix_self before chain.reverse
    exact List.Nodup.sublist (hsuffix.sublist.map _) (nodup_map_reverse.mpr hn)

/-- Two mined blocks, and a failed transaction between them. -/
def Demo.history : List Transaction :=
  [⟨"a", false, some 5, some ["Program log: equium: mined block 0 by A for 25 base units"]⟩,
   ⟨"b", true, some 6, some ["Program log: equium: mined block 1 by A for 25 base units"]⟩,
   ⟨"c", false, none, some ["Program log: equium: mined block 1 by B for 25 base units"]⟩]

/-- Pages of one block: the two blocks, and then an empty page without a cursor. -/
theorem pagination_lossless_demo :
    allPages 1 Demo.history 4 none = some [⟨"c", 1, "B", 25, 0, ""⟩, ⟨"a", 0, "A", 25, 5, ""⟩] := by
  have hall := pagination_lossless 1 (by decide) Demo.history (by decide) none 4 (by decide)
  rw [hall.1]
  decide +kernel

end Equium.Explorer
