import Equium.Solver.Rounds
import Equium.Schemes.Words

/-! @src clients/gpu-miner/src/shaders/rounds.wgsl, wagner.rs | name:GPU Wagner pipeline |
    scheme:kernels under a schedule

    The kernels as the shader runs them, one invocation step at a time, and the host loop that
    dispatches them. A pass is a list of invocation ids: the order in which their atomic increments
    take effect. `init_rows`, `count_buckets` and `solution_scan` have at most one increment for each
    invocation; `pair_emit` has one for each pair, so its list names an invocation once for each turn
    of its loop. Row ids, counters and addresses stay far below `2^32` and are plain numbers; the
    words of a row are 32-bit. -/

namespace Equium.Gpu
open Schemes

def hashWords : ℕ := 3
def indicesMax : ℕ := 32
def rowWords : ℕ := 35
def numBuckets : ℕ := 65536
def maxPerBucket : ℕ := 16
def maxRows : ℕ := 320000
def maxSolutions : ℕ := 64
def nLeaves : ℕ := 131072

/-- A storage buffer of words. `written` marks what the stage that last had it as output wrote; the
    other words hold whatever earlier stages or nonces left there. -/
structure Buffer where
  word : ℕ → UInt32
  written : ℕ → Bool

/-- The buffer becomes the output of a new stage. -/
def Buffer.recycle (b : Buffer) : Buffer := { b with written := fun _ => false }

def Buffer.write (b : Buffer) (a : ℕ) (v : UInt32) : Buffer :=
  ⟨Function.update b.word a v, Function.update b.written a true⟩

def Buffer.writeAll (b : Buffer) (ws : List (ℕ × UInt32)) : Buffer :=
  ws.foldl (fun b w => b.write w.1 w.2) b

def readHashWord (b : Buffer) (row w : ℕ) : UInt32 := b.word (row * rowWords + w)

def readIndexIn (b : Buffer) (row idx : ℕ) : UInt32 := b.word (row * rowWords + hashWords + idx)

/-- The index words of a row that were written by the stage before. -/
def freshRow (b : Buffer) (n row : ℕ) : Bool :=
  (List.range n).all fun k => b.written (row * rowWords + hashWords + k)

/-- `Params`. -/
structure Params where
  nRows : ℕ
  maxOutRows : ℕ
  indicesCountIn : ℕ
deriving DecidableEq, Repr

/-- `(byte0 << 8) | byte1` of the row's first hash word. -/
def extractBucket (b : Buffer) (row : ℕ) : UInt32 :=
  let w0 := readHashWord b row 0
  let b0 := w0 &&& 0xFF
  let b1 := (w0 >>> 8) &&& 0xFF
  (b0 <<< 8) ||| b1

/-! ### init_rows -/

/-- One invocation of `init_rows`; `leaves` holds three words for each leaf. -/
def initRows (p : Params) (leaves : ℕ → UInt32) (out : Buffer) (i : ℕ) : Buffer :=
  if i ≥ p.nRows then out
  else
    let leafBase := i * 3
    let rowBase := i * rowWords
    out.writeAll [(rowBase, leaves leafBase), (rowBase + 1, leaves (leafBase + 1)),
      (rowBase + 2, leaves (leafBase + 2)), (rowBase + hashWords, UInt32.ofNat i)]

/-! ### count_buckets -/

/-- `bucket_counts` and `bucket_slots`; the slots are never cleared. -/
structure Buckets where
  counts : ℕ → ℕ
  slots : ℕ → ℕ

/-- One invocation of `count_buckets`: the `atomicAdd`, and the slot it reserves. -/
def countBuckets (p : Params) (rowsIn : Buffer) (s : Buckets) (i : ℕ) : Buckets :=
  if i ≥ p.nRows then s
  else
    let bucket := (extractBucket rowsIn i).toNat
    let slot := s.counts bucket
    { counts := Function.update s.counts bucket (slot + 1)
      slots := if slot < maxPerBucket then
          Function.update s.slots (bucket * maxPerBucket + slot) i
        else s.slots }

/-! ### pair_emit -/

def distinctIndicesIn (p : Params) (rowsIn : Buffer) (a b : ℕ) : Bool :=
  (List.range p.indicesCountIn).all fun i =>
    (List.range p.indicesCountIn).all fun j => readIndexIn rowsIn a i != readIndexIn rowsIn b j

/-- The slots of a row's bucket that the loop of `pair_emit` visits. -/
def slotCount (rowsIn : Buffer) (bk : Buckets) (i : ℕ) : ℕ :=
  min (bk.counts (extractBucket rowsIn i).toNat) maxPerBucket

def slotRow (rowsIn : Buffer) (bk : Buckets) (i s : ℕ) : ℕ :=
  bk.slots ((extractBucket rowsIn i).toNat * maxPerBucket + s)

/-- XOR and trim, then the index words in canonical order. -/
def emitRow (p : Params) (rowsIn : Buffer) (i j outIdx : ℕ) (out : Buffer) : Buffer :=
  let h0 := readHashWord rowsIn i 0 ^^^ readHashWord rowsIn j 0
  let h1 := readHashWord rowsIn i 1 ^^^ readHashWord rowsIn j 1
  let h2 := readHashWord rowsIn i 2 ^^^ readHashWord rowsIn j 2
  let outBase := outIdx * rowWords
  let n := p.indicesCountIn
  let (a, b) := if readIndexIn rowsIn i 0 < readIndexIn rowsIn j 0 then (i, j) else (j, i)
  out.writeAll ([(outBase, (h0 >>> 16) ||| (h1 <<< 16)), (outBase + 1, (h1 >>> 16) ||| (h2 <<< 16)),
      (outBase + 2, h2 >>> 16)] ++
    (List.range n).flatMap fun k => [(outBase + hashWords + k, readIndexIn rowsIn a k),
      (outBase + hashWords + n + k, readIndexIn rowsIn b k)])

/-- A `pair_emit` pass under way: the output counter and rows, and the loop counter `s` of each
    invocation. `found` lists the pairs that incremented the counter, in that order; `stale` says
    whether a pair was looked at with an index word that the stage before had not written. -/
structure PairState where
  outCount : ℕ
  rowsOut : Buffer
  pos : ℕ → ℕ
  found : List (ℕ × ℕ)
  stale : Bool

/-- One turn of the loop of invocation `i`. -/
def pairEmit (p : Params) (rowsIn : Buffer) (bk : Buckets) (st : PairState) (i : ℕ) : PairState :=
  if i ≥ p.nRows then st
  else
    let cnt := slotCount rowsIn bk i
    let s := st.pos i
    if s ≥ cnt then st
    else
      let j := slotRow rowsIn bk i s
      let st := { st with pos := Function.update st.pos i (s + 1) }
      if j ≤ i then st
      else
        let st := { st with stale := st.stale ||
          !(freshRow rowsIn p.indicesCountIn i && freshRow rowsIn p.indicesCountIn j) }
        if !distinctIndicesIn p rowsIn i j then st
        else
          let outIdx := st.outCount
          let st := { st with outCount := outIdx + 1, found := st.found ++ [(i, j)] }
          if outIdx ≥ p.maxOutRows then { st with pos := Function.update st.pos i cnt }
          else { st with rowsOut := emitRow p rowsIn i j outIdx st.rowsOut }

/-! ### solution_scan -/

structure ScanState where
  outCount : ℕ
  rowsOut : Buffer
  found : List ℕ
  stale : Bool

/-- One invocation of `solution_scan`. -/
def solutionScan (p : Params) (rowsIn : Buffer) (st : ScanState) (i : ℕ) : ScanState :=
  if i ≥ p.nRows then st
  else
    let h0 := readHashWord rowsIn i 0
    let h1 := readHashWord rowsIn i 1
    let h2 := readHashWord rowsIn i 2
    if h0 ≠ 0 ∨ h1 ≠ 0 ∨ h2 ≠ 0 then st
    else
      let slot := st.outCount
      let st := { st with outCount := slot + 1, found := st.found ++ [i] }
      if slot ≥ p.maxOutRows then st
      else
        let outBase := slot * rowWords
        { st with
          stale := st.stale || !freshRow rowsIn indicesMax i
          rowsOut := st.rowsOut.writeAll ([(outBase, 0), (outBase + 1, 0), (outBase + 2, 0)] ++
            (List.range indicesMax).map fun k =>
              (outBase + hashWords + k, readIndexIn rowsIn i k)) }

/-! ### The host -/

/-- The orders of one round's two passes. -/
structure RoundSchedule where
  count : List ℕ
  pair : List ℕ

/-- The orders of all passes of one nonce. -/
structure Schedule where
  init : List ℕ
  round : ℕ → RoundSchedule
  scan : List ℕ

/-- What earlier nonces left on the device. -/
structure Device where
  rowsA : Buffer
  rowsB : Buffer
  slots : ℕ → ℕ

/-- One round, with everything its passes read and wrote. -/
structure RoundLog where
  params : Params
  schedule : RoundSchedule
  rowsIn : Buffer
  buckets : Buckets
  pairs : PairState

/-- Clear the counters, count, pair. -/
def runRound (sched : RoundSchedule) (p : Params) (rowsIn rowsOut : Buffer) (slots : ℕ → ℕ) :
    RoundLog :=
  let buckets := sched.count.foldl (countBuckets p rowsIn) ⟨fun _ => 0, slots⟩
  { params := p
    schedule := sched
    rowsIn := rowsIn
    buckets := buckets
    pairs := sched.pair.foldl (pairEmit p rowsIn buckets)
      ⟨0, rowsOut.recycle, fun _ => 0, [], false⟩ }

/-- What one nonce did: its rounds, the last scan if it came to one, and the answer. -/
structure NonceRun where
  logs : List RoundLog
  scan : Option (Params × ScanState)
  result : Except String (List (List UInt32))

/-- `"round {round} output overflow: {next_n} > MAX_ROWS={MAX_ROWS}"`. -/
def overflowMessage (round nextN : ℕ) : String :=
  "round " ++ toString round ++ " output overflow: " ++ toString nextN ++ " > MAX_ROWS=" ++
    toString maxRows

/-- `solution_scan` and the readback of at most `MAX_SOLUTIONS` slots. -/
def finish (sched : List ℕ) (nRows : ℕ) (rowsIn rowsOut : Buffer) : NonceRun :=
  let p : Params := ⟨nRows, maxRows, 32⟩
  let scan := sched.foldl (solutionScan p rowsIn) ⟨0, rowsOut.recycle, [], false⟩
  let nSol := min scan.outCount maxSolutions
  { logs := []
    scan := some (p, scan)
    result := .ok ((List.range nSol).map fun i =>
      (List.range 32).map fun k => scan.rowsOut.word (i * rowWords + hashWords + k)) }

/-- The rounds from number `round` on, `remaining` of them; the two row buffers swap each time. -/
def hostRounds (S : Schedule) : ℕ → ℕ → ℕ → Buffer → Buffer → (ℕ → ℕ) → NonceRun
  | 0, _, nRows, rowsIn, rowsOut, _ => finish S.scan nRows rowsIn rowsOut
  | remaining + 1, round, nRows, rowsIn, rowsOut, slots =>
    let log := runRound (S.round round) ⟨nRows, maxRows, 2 ^ round⟩ rowsIn rowsOut slots
    let nextN := log.pairs.outCount
    if nextN = 0 then ⟨[log], none, .ok []⟩
    else if nextN > maxRows then ⟨[log], none, .error (overflowMessage round nextN)⟩
    else
      let rest := hostRounds S remaining (round + 1) nextN log.pairs.rowsOut rowsIn
        log.buckets.slots
      { rest with logs := log :: rest.logs }

/-- `GpuWagner::run_nonce` from the leaves on. -/
def runNonce (S : Schedule) (leaves : ℕ → UInt32) (dev : Device) : NonceRun :=
  let rowsA := S.init.foldl (initRows ⟨nLeaves, maxRows, 1⟩ leaves) dev.rowsA.recycle
  hostRounds S 5 0 nLeaves rowsA dev.rowsB dev.slots

/-! ### Which schedules are orders of the whole pass -/

/-- Every invocation with work to do runs once; those past `n_rows` return at once. -/
def Covers (order : List ℕ) (n : ℕ) : Prop := order.Nodup ∧ ∀ i < n, i ∈ order

/-- The count pass runs every invocation, and the pair pass runs every loop to its end. -/
def RoundLog.Legal (log : RoundLog) : Prop :=
  Covers log.schedule.count log.params.nRows ∧
    ∀ i < log.params.nRows, slotCount log.rowsIn log.buckets i ≤ log.pairs.pos i

/-- The schedule orders every pass of this nonce completely. -/
structure Schedule.Legal (S : Schedule) (leaves : ℕ → UInt32) (dev : Device) : Prop where
  init : Covers S.init nLeaves
  rounds : ∀ log ∈ (runNonce S leaves dev).logs, log.Legal
  scan : ∀ p st, (runNonce S leaves dev).scan = some (p, st) → Covers S.scan p.nRows

/-- The pairs of a round: rows of one bucket's slot table that share no index. -/
def RoundLog.collisions (log : RoundLog) : List (ℕ × ℕ) :=
  (List.range log.params.nRows).flatMap fun i =>
    ((List.range (slotCount log.rowsIn log.buckets i)).map fun s =>
      (i, slotRow log.rowsIn log.buckets i s)).filter fun q =>
        decide (q.1 < q.2) && distinctIndicesIn log.params log.rowsIn q.1 q.2

/-- No bucket, row or candidate overflow. -/
structure NonceRun.NoOverflow (run : NonceRun) : Prop where
  buckets : ∀ log ∈ run.logs, ∀ b < numBuckets, log.buckets.counts b ≤ maxPerBucket
  rows : ∀ log ∈ run.logs, log.collisions.length ≤ maxRows
  candidates : ∀ p st, run.scan = some (p, st) → st.outCount ≤ maxSolutions

end Equium.Gpu
