import Equium.Explorer.Transactions
import Equium.Schemes.Run
import Mathlib.Data.List.AList

/-! @src scripts/indexer.ts | name:Explorer indexer | scheme:run

    The indexer copies every mined block into Redis. A Redis command is applied, refused, or never sent
    because the process has stopped; the replies of a pass are listed in the order of its commands, and
    a missing one stands for success. The node is asked once a page, so a pass is one step of the
    system, and new transactions arrive between passes. -/

namespace Equium.Explorer
open Schemes

/-- `MinedBlock`; its JSON text names it, so it also stands for that text. -/
structure MinedBlock where
  sig : Signature
  height : ℕ
  winner : String
  reward : ℕ
  ts : ℕ
  deriving DecidableEq

/-- The Redis keys of the indexer, without those nothing reads back. -/
structure Store where
  miners : AList fun _ : String => ℕ
  rewards : AList fun _ : String => ℕ
  lastSeen : AList fun _ : String => ℕ
  lastHeight : AList fun _ : String => ℕ
  rank : AList fun _ : String => ℕ
  /-- scores by member `winner:height` -/
  recent : AList fun _ : String × ℕ => ℕ
  blocksByHeight : AList fun _ : MinedBlock => ℕ
  cursor : Option Signature

def Store.empty : Store := ⟨∅, ∅, ∅, ∅, ∅, ∅, ∅, none⟩

/-- `HINCRBY` and `ZINCRBY`: an absent field counts as zero. -/
def incrBy (h : AList fun _ : String => ℕ) (field : String) (n : ℕ) : AList fun _ : String => ℕ :=
  h.insert field ((h.lookup field).getD 0 + n)

/-- `ZREMRANGEBYSCORE key 0 max`. -/
def removeUpTo {α : Type} (z : AList fun _ : α => ℕ) (max : ℕ) : AList fun _ : α => ℕ :=
  ⟨z.entries.filter fun e => max < e.2, z.nodupKeys.sublist List.filter_sublist⟩

/-- The writes of the indexer. -/
inductive Command where
  | hincrbyMiners (miner : String) (n : ℕ)
  | hincrbyRewards (miner : String) (n : ℕ)
  | hsetLastSeen (miner : String) (ts : ℕ)
  | hsetLastHeight (miner : String) (height : ℕ)
  | zincrbyRank (n : ℕ) (miner : String)
  | zaddRecent (score : ℕ) (member : String × ℕ)
  | zaddBlocksByHeight (score : ℕ) (member : MinedBlock)
  | setCursor (sig : Signature)
  | trimRecent (cutoff : ℕ)
  | hsetMeta

/-- What a write does when Redis accepts it. -/
def Command.apply (s : Store) : Command → Store
  | .hincrbyMiners m n => { s with miners := incrBy s.miners m n }
  | .hincrbyRewards m n => { s with rewards := incrBy s.rewards m n }
  | .hsetLastSeen m ts => { s with lastSeen := s.lastSeen.insert m ts }
  | .hsetLastHeight m h => { s with lastHeight := s.lastHeight.insert m h }
  | .zincrbyRank n m => { s with rank := incrBy s.rank m n }
  | .zaddRecent score m => { s with recent := s.recent.insert m score }
  | .zaddBlocksByHeight score b => { s with blocksByHeight := s.blocksByHeight.insert b score }
  | .setCursor sig => { s with cursor := some sig }
  | .trimRecent cutoff => { s with recent := removeUpTo s.recent cutoff }
  -- bookkeeping that nothing reads
  | .hsetMeta => s

/-- What becomes of one command. -/
inductive Reply where
  | ok
  /-- Redis refuses it, and the call throws -/
  | fail
  /-- the process stops before sending it -/
  | stop
  deriving DecidableEq, Repr

inductive Outcome where
  | done
  | thrown
  | stopped
  deriving DecidableEq, Repr

/-- How a piece of the program ended, the store it left, the replies not yet used, and the number of
    blocks it indexed. -/
structure Ended where
  outcome : Outcome
  store : Store
  replies : List Reply
  indexed : ℕ

/-- Send commands one after the other, up to the first that is not accepted. -/
def send : List Command → Store → List Reply → Ended
  | [], s, rs => ⟨.done, s, rs, 0⟩
  | c :: cs, s, rs =>
    match rs.headD .ok with
    | .ok => send cs (c.apply s) rs.tail
    | .fail => ⟨.thrown, s, rs.tail, 0⟩
    | .stop => ⟨.stopped, s, rs.tail, 0⟩

/-- `parseMinedBlock`, of a transaction that did not fail; `now` is the clock when it is fetched. -/
def parseMinedBlock (now : Signature → ℕ) (t : Transaction) : Option MinedBlock :=
  t.mineLog.map fun m =>
    ⟨t.signature, m.height, m.winner, m.reward, t.blockTime.getD (now t.signature)⟩

/-- The seven writes of `indexBlock`. -/
def indexBlock (b : MinedBlock) : List Command :=
  [.hincrbyMiners b.winner 1,
   .hincrbyRewards b.winner b.reward,
   .hsetLastSeen b.winner b.ts,
   .hsetLastHeight b.winner b.height,
   .zincrbyRank 1 b.winner,
   .zaddRecent b.ts (b.winner, b.height),
   .zaddBlocksByHeight b.height b]

/-- The write loop of `processSigs`: a block whose writes throw is logged and left behind. -/
def indexBlocks : List MinedBlock → Store → List Reply → Ended
  | [], s, rs => ⟨.done, s, rs, 0⟩
  | b :: bs, s, rs =>
    let r := send (indexBlock b) s rs
    match r.outcome with
    | .stopped => r
    | .thrown => indexBlocks bs r.store r.replies
    | .done =>
      let r' := indexBlocks bs r.store r.replies
      { r' with indexed := r'.indexed + 1 }

/-- The mined blocks of one batch, in the order of their signatures. -/
def parseBatch (now : Signature → ℕ) (batch : List Transaction) : List MinedBlock :=
  (batch.filter fun t => !t.err).filterMap (parseMinedBlock now)

/-- `BATCH_SIZE` from the environment; the loops need it positive. -/
structure BatchSize where
  size : ℕ
  pos : 0 < size

section
variable (batch : BatchSize)

/-- The mined blocks `processSigs` finds, oldest first: batch by batch. -/
def parseSigs (now : Signature → ℕ) (sigs : List Transaction) : List MinedBlock :=
  (slices batch.size sigs.reverse).flatMap (parseBatch now)

/-- `processSigs`. -/
def processSigs (now : Signature → ℕ) (sigs : List Transaction) (s : Store) (rs : List Reply) :
    Ended :=
  indexBlocks (parseSigs batch now sigs) s rs

/-- A page of signatures. -/
abbrev pageSize : ℕ := 1000

/-- Where the process stands between two passes. -/
inductive Phase where
  /-- not running, or before the cursor read of `main` -/
  | down
  /-- in `fullBackfill`, before the next page -/
  | backfilling (before newestSig : Option Signature) (totalBlocks : ℕ)
  /-- before the migration check of `main` -/
  | seeding
  /-- in `backfillBlocksByHeight`, before the next page -/
  | migrating (before : Option Signature)
  /-- in the steady-state loop -/
  | ready
  deriving DecidableEq

/-- The chain as the node sees it, oldest first, the store and the process. -/
structure Sys where
  chain : List Transaction
  store : Store
  phase : Phase

/-- Nothing on the chain, nothing in Redis, no process. -/
def Sys.init : Sys := ⟨[], .empty, .down⟩

/-- The cursor read of `main` and of `tick`: a refused read counts as no cursor. -/
def readCursor (s : Store) : Reply → Option Signature
  | .fail => none
  | _ => s.cursor

/-- `main` up to the choice between backfill and resuming. -/
def start (s : Sys) (r : Reply) : Sys :=
  if r = .stop then s else
    match readCursor s.store r with
    | none => { s with phase := .backfilling none none 0 }
    | some _ => { s with phase := .seeding }

/-- The end of `fullBackfill`: save the cursor, trim, write the bookkeeping. Only the trim may fail. -/
def finishBackfill (s : Sys) (newestSig : Option Signature) (cutoff : ℕ) (store : Store)
    (rs : List Reply) : Sys :=
  let saved := send (newestSig.toList.map .setCursor) store rs
  if saved.outcome ≠ .done then { s with store := saved.store, phase := .down } else
    let trimmed := send [.trimRecent cutoff] saved.store saved.replies
    if trimmed.outcome = .stopped then { s with store := trimmed.store, phase := .down } else
      let wrote := send [.hsetMeta] trimmed.store trimmed.replies
      { s with store := wrote.store, phase := if wrote.outcome = .done then .seeding else .down }

/-- One page of `fullBackfill`. -/
def backfillPage (s : Sys) (before newestSig : Option Signature) (totalBlocks : ℕ)
    (now : Signature → ℕ) (cutoff : ℕ) (rs : List Reply) : Sys :=
  let sigs := getSignaturesForAddress s.chain pageSize before none
  if sigs = [] then finishBackfill s newestSig cutoff s.store rs else
    let newestSig := if before = none ∧ newestSig = none then sigs.head?.map (·.signature)
      else newestSig
    let r := processSigs batch now sigs s.store rs
    if r.outcome = .stopped then { s with store := r.store, phase := .down }
    else if sigs.length < pageSize then finishBackfill s newestSig cutoff r.store r.replies
    else { s with
      store := r.store
      phase := .backfilling (sigs.getLast?.map (·.signature)) newestSig (totalBlocks + r.indexed) }

/-- The migration check of `main`: refused reads count as zero. -/
def checkMigration (s : Sys) (zcard hlen : Reply) : Sys :=
  if zcard = .stop ∨ hlen = .stop then { s with phase := .down } else
    let blocksZcard := if zcard = .fail then 0 else s.store.blocksByHeight.keys.length
    let totalAggBlocks := if hlen = .fail then 0 else s.store.miners.keys.length
    if blocksZcard = 0 ∧ 0 < totalAggBlocks then { s with phase := .migrating none }
    else { s with phase := .ready }

/-- One page of `backfillBlocksByHeight`. -/
def migrationPage (s : Sys) (before : Option Signature) (now : Signature → ℕ) (rs : List Reply) :
    Sys :=
  let sigs := getSignaturesForAddress s.chain pageSize before none
  if sigs = [] then { s with phase := .ready } else
    let r := send ((parseSigs batch now sigs).map fun b => .zaddBlocksByHeight b.height b) s.store rs
    if r.outcome ≠ .done then { s with store := r.store, phase := .down }
    else if sigs.length < pageSize then { s with store := r.store, phase := .ready }
    else { s with store := r.store, phase := .migrating (sigs.getLast?.map (·.signature)) }

/-- The signatures a tick fetches. -/
def tickSigs (chain : List Transaction) (cursor : Option Signature) : List Transaction :=
  getSignaturesForAddress chain pageSize none cursor

/-- `tick`; the loop around it catches what it throws. -/
def tick (s : Sys) (now : Signature → ℕ) (cutoff : ℕ) (read : Reply) (rs : List Reply) : Sys :=
  if read = .stop then { s with phase := .down } else
    match tickSigs s.chain (readCursor s.store read) with
    | [] => s
    | newest :: rest =>
      let r := processSigs batch now (newest :: rest) s.store rs
      if r.outcome = .stopped then { s with store := r.store, phase := .down } else
        let saved := send [.setCursor newest.signature] r.store r.replies
        match saved.outcome with
        | .stopped => { s with store := saved.store, phase := .down }
        | .thrown => { s with store := saved.store }
        | .done =>
          let trimmed := send [.trimRecent cutoff] saved.store saved.replies
          { s with
            store := trimmed.store
            phase := if trimmed.outcome = .stopped then .down else s.phase }

/-- What happens between two states. -/
inductive Action where
  | arrive (txs : List Transaction)
  | start (r : Reply)
  | page (now : Signature → ℕ) (cutoff : ℕ) (rs : List Reply)
  | check (zcard hlen : Reply)
  | migrate (now : Signature → ℕ) (rs : List Reply)
  | tick (now : Signature → ℕ) (cutoff : ℕ) (read : Reply) (rs : List Reply)
  | stop

/-- One step of the chain or of the indexer. -/
inductive Step : Sys → Action → Sys → Prop
  | arrive {s : Sys} {txs : List Transaction}
      (h : ((s.chain ++ txs).map (·.signature)).Nodup) :
      Step s (.arrive txs) { s with chain := s.chain ++ txs }
  | start {s : Sys} (h : s.phase = .down) (r : Reply) : Step s (.start r) (start s r)
  | page {s : Sys} {before newestSig : Option Signature} {totalBlocks : ℕ}
      (h : s.phase = .backfilling before newestSig totalBlocks) (now : Signature → ℕ) (cutoff : ℕ)
      (rs : List Reply) :
      Step s (.page now cutoff rs) (backfillPage batch s before newestSig totalBlocks now cutoff rs)
  | check {s : Sys} (h : s.phase = .seeding) (zcard hlen : Reply) :
      Step s (.check zcard hlen) (checkMigration s zcard hlen)
  | migrate {s : Sys} {before : Option Signature} (h : s.phase = .migrating before)
      (now : Signature → ℕ) (rs : List Reply) :
      Step s (.migrate now rs) (migrationPage batch s before now rs)
  | tick {s : Sys} (h : s.phase = .ready) (now : Signature → ℕ) (cutoff : ℕ) (read : Reply)
      (rs : List Reply) : Step s (.tick now cutoff read rs) (tick batch s now cutoff read rs)
  | stop {s : Sys} : Step s .stop { s with phase := .down }

end

end Equium.Explorer
