import Equium.Gpu.Kernels
import Equium.Gpu.LeafKernels
import Mathlib.Data.List.Infix

/-! @src clients/gpu-miner/cuda/rounds.cu, clients/gpu-miner/src/cuda_wagner.rs,
    clients/website/src/lib/webgpu-wagner.ts | name:Ports of the pipeline

    The CUDA kernels address rows by pointers. Every host keeps `rows_a` and `rows_b` by name, and the
    parity of the round says which one is read; `hostRounds` swaps them. The answer comes back as
    bytes. -/

namespace Equium.Gpu
open Schemes Equium.Core

/-! ### The CUDA kernels -/

namespace Cuda

/-- `&rows_in[i * ROW_WORDS]`. -/
def rowPtr (i : ℕ) : ℕ := i * rowWords

def extractBucket (b : Buffer) (row : ℕ) : UInt32 :=
  let w0 := b.word row
  let b0 := w0 &&& 0xFF
  let b1 := (w0 >>> 8) &&& 0xFF
  (b0 <<< 8) ||| b1

def initRows (p : Params) (leaves : ℕ → UInt32) (out : Buffer) (i : ℕ) : Buffer :=
  if i ≥ p.nRows then out
  else
    let leafBase := i * 3
    let rowBase := rowPtr i
    out.writeAll [(rowBase + 0, leaves (leafBase + 0)), (rowBase + 1, leaves (leafBase + 1)),
      (rowBase + 2, leaves (leafBase + 2)), (rowBase + hashWords, UInt32.ofNat i)]

def countBuckets (p : Params) (rowsIn : Buffer) (s : Buckets) (i : ℕ) : Buckets :=
  if i ≥ p.nRows then s
  else
    let bucket := (extractBucket rowsIn (rowPtr i)).toNat
    let slot := s.counts bucket
    { counts := Function.update s.counts bucket (slot + 1)
      slots := if slot < maxPerBucket then
          Function.update s.slots (bucket * maxPerBucket + slot) i
        else s.slots }

/-- The two index lists start at the pointers `a` and `b`. -/
def distinctIndices (rows : Buffer) (a b n : ℕ) : Bool :=
  (List.range n).all fun i => (List.range n).all fun j => rows.word (a + i) != rows.word (b + j)

/-- The output row at the pointer `rowO`. -/
def emitRow (n : ℕ) (rowsIn : Buffer) (rowI rowJ rowO : ℕ) (out : Buffer) : Buffer :=
  let iIdx := rowI + hashWords
  let jIdx := rowJ + hashWords
  let h0 := rowsIn.word (rowI + 0) ^^^ rowsIn.word (rowJ + 0)
  let h1 := rowsIn.word (rowI + 1) ^^^ rowsIn.word (rowJ + 1)
  let h2 := rowsIn.word (rowI + 2) ^^^ rowsIn.word (rowJ + 2)
  let i0 := rowsIn.word (iIdx + 0)
  let j0 := rowsIn.word (jIdx + 0)
  let outIdxBase := rowO + hashWords
  out.writeAll ([(rowO + 0, (h0 >>> 16) ||| (h1 <<< 16)), (rowO + 1, (h1 >>> 16) ||| (h2 <<< 16)),
      (rowO + 2, h2 >>> 16)] ++
    if i0 < j0 then
      (List.range n).flatMap fun k => [(outIdxBase + k, rowsIn.word (iIdx + k)),
        (outIdxBase + (n + k), rowsIn.word (jIdx + k))]
    else
      (List.range n).flatMap fun k => [(outIdxBase + k, rowsIn.word (jIdx + k)),
        (outIdxBase + (n + k), rowsIn.word (iIdx + k))])

/-- One turn of the loop of thread `i`. -/
def pairEmit (p : Params) (rowsIn : Buffer) (bk : Buckets) (st : PairState) (i : ℕ) : PairState :=
  if i ≥ p.nRows then st
  else
    let rowI := rowPtr i
    let bucket := (extractBucket rowsIn rowI).toNat
    let cnt := min (bk.counts bucket) maxPerBucket
    let base := bucket * maxPerBucket
    let n := p.indicesCountIn
    let s := st.pos i
    if s ≥ cnt then st
    else
      let j := bk.slots (base + s)
      let st := { st with pos := Function.update st.pos i (s + 1) }
      if j ≤ i then st
      else
        let rowJ := rowPtr j
        let st := { st with stale := st.stale || !(freshRow rowsIn n i && freshRow rowsIn n j) }
        if !distinctIndices rowsIn (rowI + hashWords) (rowJ + hashWords) n then st
        else
          let outIdx := st.outCount
          let st := { st with outCount := outIdx + 1, found := st.found ++ [(i, j)] }
          if outIdx ≥ p.maxOutRows then { st with pos := Function.update st.pos i cnt }
          else { st with rowsOut := emitRow n rowsIn rowI rowJ (rowPtr outIdx) st.rowsOut }

def solutionScan (p : Params) (rowsIn : Buffer) (st : ScanState) (i : ℕ) : ScanState :=
  if i ≥ p.nRows then st
  else
    let row := rowPtr i
    if rowsIn.word (row + 0) ≠ 0 ∨ rowsIn.word (row + 1) ≠ 0 ∨ rowsIn.word (row + 2) ≠ 0 then st
    else
      let slot := st.outCount
      let st := { st with outCount := slot + 1, found := st.found ++ [i] }
      if slot ≥ p.maxOutRows then st
      else
        let rowO := rowPtr slot
        { st with
          stale := st.stale || !freshRow rowsIn indicesMax i
          rowsOut := st.rowsOut.writeAll ([(rowO + 0, 0), (rowO + 1, 0), (rowO + 2, 0)] ++
            (List.range indicesMax).map fun k =>
              (rowO + hashWords + k, rowsIn.word (row + hashWords + k))) }

end Cuda

/-! ### The hosts -/

/-- The kernels a host launches. -/
structure Kernels where
  initRows : Params → (ℕ → UInt32) → Buffer → ℕ → Buffer
  countBuckets : Params → Buffer → Buckets → ℕ → Buckets
  pairEmit : Params → Buffer → Buckets → PairState → ℕ → PairState
  solutionScan : Params → Buffer → ScanState → ℕ → ScanState

/-- `rounds.wgsl`. -/
def wgslKernels : Kernels := ⟨initRows, countBuckets, pairEmit, solutionScan⟩

/-- `rounds.cu`. -/
def cudaKernels : Kernels := ⟨Cuda.initRows, Cuda.countBuckets, Cuda.pairEmit, Cuda.solutionScan⟩

/-- What differs between the hosts: their kernels, the text of an overflow, and how they put a word
    together from the bytes of the readback. -/
structure Port where
  kernels : Kernels
  overflow : ℕ → ℕ → String
  word : List UInt8 → ℕ → UInt32

/-- The first `count` rows of the buffer, as the copy to the host brings them. -/
def rowBytes (b : Buffer) (count : ℕ) : List UInt8 :=
  (List.range (count * rowWords)).flatMap fun a => bytes4 (b.word a)

/-- `solution_scan` from `rows_b` into `rows_a`, and the readback. -/
def Port.solutions (port : Port) (sched : List ℕ) (nRows : ℕ) (rowsA rowsB : Buffer) : NonceRun :=
  let p : Params := ⟨nRows, maxRows, 32⟩
  let scan := sched.foldl (port.kernels.solutionScan p rowsB) ⟨0, rowsA.recycle, [], false⟩
  let nSol := min scan.outCount maxSolutions
  let host := rowBytes scan.rowsOut nSol
  { logs := []
    scan := some (p, scan)
    result := .ok (if nSol = 0 then [] else (List.range nSol).map fun i =>
      let base := i * (rowWords * 4) + hashWords * 4
      (List.range 32).map fun k => port.word host (base + k * 4)) }

/-- Clear the counters, count, pair. -/
def Port.round (port : Port) (sched : RoundSchedule) (p : Params) (rowsIn rowsOut : Buffer)
    (slots : ℕ → ℕ) : RoundLog :=
  let buckets := sched.count.foldl (port.kernels.countBuckets p rowsIn) ⟨fun _ => 0, slots⟩
  { params := p
    schedule := sched
    rowsIn := rowsIn
    buckets := buckets
    pairs := sched.pair.foldl (port.kernels.pairEmit p rowsIn buckets)
      ⟨0, rowsOut.recycle, fun _ => 0, [], false⟩ }

/-- The rounds from number `round` on: even ones read `rows_a`, odd ones `rows_b`. -/
def Port.rounds (port : Port) (S : Schedule) :
    ℕ → ℕ → ℕ → Buffer → Buffer → (ℕ → ℕ) → NonceRun
  | 0, _, nRows, rowsA, rowsB, _ => port.solutions S.scan nRows rowsA rowsB
  | remaining + 1, round, nRows, rowsA, rowsB, slots =>
    let p : Params := ⟨nRows, maxRows, 1 <<< round⟩
    let log := if round % 2 = 0 then port.round (S.round round) p rowsA rowsB slots
      else port.round (S.round round) p rowsB rowsA slots
    let nextN := log.pairs.outCount
    if nextN = 0 then ⟨[log], none, .ok []⟩
    else if nextN > maxRows then ⟨[log], none, .error (port.overflow round nextN)⟩
    else
      let rest := if round % 2 = 0 then
          port.rounds S remaining (round + 1) nextN rowsA log.pairs.rowsOut log.buckets.slots
        else port.rounds S remaining (round + 1) nextN log.pairs.rowsOut rowsB log.buckets.slots
      { rest with logs := log :: rest.logs }

/-- One nonce from the leaves on. -/
def Port.runNonce (port : Port) (S : Schedule) (leaves : ℕ → UInt32) (dev : Device) : NonceRun :=
  let rowsA := S.init.foldl (port.kernels.initRows ⟨nLeaves, maxRows, 1⟩ leaves) dev.rowsA.recycle
  port.rounds S 5 0 nLeaves rowsA dev.rowsB dev.slots

/-- `u32::from_le_bytes` of four bytes of the copy. -/
def fromLeBytes (host : List UInt8) (off : ℕ) : UInt32 := word4 ((host.drop off).take 4)

/-- `data[off] | (data[off + 1] << 8) | …`, stored into a `Uint32Array`. -/
def joinBytes (data : List UInt8) (off : ℕ) : UInt32 :=
  let byte := fun i => (data.getD (off + i) 0).toUInt32
  byte 0 ||| byte 1 <<< 8 ||| byte 2 <<< 16 ||| byte 3 <<< 24

/-- `GpuWagner`, by name and parity. -/
def gpuWagner : Port := ⟨wgslKernels, overflowMessage, fromLeBytes⟩

/-- `CudaWagner`. -/
def cudaWagner : Port where
  kernels := cudaKernels
  overflow round nextN := "round " ++ toString round ++ " out_count overflow: " ++ toString nextN ++
    " > " ++ toString maxRows
  word := fromLeBytes

/-- `WebGPUWagner`. -/
def webGpuWagner : Port where
  kernels := wgslKernels
  overflow round nextN := "round " ++ toString round ++ " overflow: " ++ toString nextN ++ " > " ++
    toString maxRows
  word := joinBytes

/-! ### The leaves they start from -/

/-- `leaves_buf`, written as bytes and read as words. -/
def Cuda.leafWords (mem : ℕ → UInt8) (a : ℕ) : UInt32 :=
  word4 ((List.range 4).map fun d => mem (a * 4 + d))

namespace WebGpu

/-- `includes` on the lower-cased vendor and description. -/
def pickWorkgroupSize (tag : List Char) : UInt32 :=
  if "nvidia".toList <:+: tag then 128
  else if "amd".toList <:+: tag ∨ "radeon".toList <:+: tag then 64
  else if "apple".toList <:+: tag then 64
  else if "intel".toList <:+: tag then 32
  else 64

/-- The stores of the leaf pass, thread by thread; `writeLeavesParams` packs the same 160 bytes as
    the CUDA host, and the size of the dispatch is rounded up twice. -/
def leavesPass (input : Vector UInt8 iLen) (nonce : Bytes32) (wgSize : UInt32) :
    List (ℕ × UInt32) :=
  let p := Wgsl.Params.ofBlock (CudaLeafGen.params input nonce (UInt32.ofNat nLeaves))
  (globalIds (GpuLeafGen.groups nLeaves wgSize.toNat) wgSize.toNat).flatMap (Wgsl.main p)

end WebGpu

/-- The schedule orders every pass of a port's nonce completely. -/
structure Port.Legal (port : Port) (S : Schedule) (leaves : ℕ → UInt32) (dev : Device) : Prop where
  init : Covers S.init nLeaves
  rounds : ∀ log ∈ (port.runNonce S leaves dev).logs, log.Legal
  scan : ∀ p st, (port.runNonce S leaves dev).scan = some (p, st) → Covers S.scan p.nRows

end Equium.Gpu
