import Equium.Gpu.Leaves
import Equium.Schemes.Scatter

/-! @src clients/gpu-miner/src/shaders/leaves.wgsl, gpu.rs, cuda/leaves.cu, cuda.rs |
    name:Leaf kernels | scheme:scatter

    The two kernels and the hosts that feed them. Both hosts send the same 160 bytes; the shader reads
    them as words and shifts the nonce into place behind the 81 input bytes, the CUDA kernel reads
    them as bytes and has 64-bit words. A thread's stores are the list it returns; the threads of a
    dispatch run in any order. -/

namespace Equium.Gpu
open Schemes Solver Equium.Core

/-- The ids of a dispatch: `gid.x` in WGSL, `blockIdx.x * blockDim.x + threadIdx.x` in CUDA. -/
def globalIds (groups size : ℕ) : List UInt32 := (List.range (groups * size)).map UInt32.ofNat

def leavesPerCall : UInt32 := 5

/-! ### gpu.rs -/

namespace GpuLeafGen

/-- The workgroup size for a PCI vendor. -/
def pickWorkgroupSize (vendor : UInt32) : UInt32 :=
  if vendor = 0x10de then 128
  else if vendor = 0x1002 then 64
  else if vendor = 0x106b then 64
  else if vendor = 0x8086 then 32
  else 64

/-- `Params`, all of it `u32`s. -/
structure Params where
  personal : Vector UInt32 4
  cfg : Vector UInt32 4
  input : Vector (Vector UInt32 4) 6
  nonce : Vector UInt32 4
  nonceHi : Vector UInt32 4

/-- Four `u32::from_le_bytes`. -/
def vec4 (bs : List UInt8) : Vector UInt32 4 :=
  Vector.ofFn fun i => word4 ((bs.drop (i * 4)).take 4)

/-- The packing in `generate`. -/
def params (input : Vector UInt8 iLen) (nonce : Bytes32) (nLeaves : UInt32) : Params :=
  let p := zcashPoW ++ (toLe32 96).toList ++ (toLe32 5).toList
  let inputPadded := input.toList ++ List.replicate 15 0
  { personal := vec4 p
    cfg := #v[60, nLeaves, 0, 0]
    input := Vector.ofFn fun i => vec4 ((inputPadded.drop (i * 16)).take 16)
    nonce := vec4 (nonce.toList.take 16)
    nonceHi := vec4 (nonce.toList.drop 16) }

def vecBytes (v : Vector UInt32 4) : List UInt8 := v.toList.flatMap bytes4

/-- `bytemuck::bytes_of` on a little-endian host. -/
def Params.bytes (p : Params) : List UInt8 :=
  vecBytes p.personal ++ vecBytes p.cfg ++ p.input.toList.flatMap vecBytes ++ vecBytes p.nonce ++
    vecBytes p.nonceHi

/-- The size of the dispatch. -/
def workgroups (nLeaves wgSize : UInt32) : UInt32 :=
  let nCalls := (nLeaves + leavesPerCall - 1) / leavesPerCall
  (nCalls + wgSize - 1) / wgSize

/-- `⌈⌈n / 5⌉ / wg⌉`. -/
def groups (n wg : ℕ) : ℕ := ((n + 4) / 5 + wg - 1) / wg

/-- The threads of so many workgroups of `wg`. -/
def threads (n wg : ℕ) : ℕ := groups n wg * wg

end GpuLeafGen

/-! ### leaves.wgsl -/

namespace Wgsl

/-- `vec4<u32>`. -/
structure Vec4 where
  x : UInt32
  y : UInt32
  z : UInt32
  w : UInt32

/-- `Params`. -/
structure Params where
  personal : Vec4
  cfg : Vec4
  input : Vector Vec4 6
  nonce : Vec4
  nonceHi : Vec4

/-- The vector at an offset of the uniform block. -/
def vec4At (block : List UInt8) (offset : ℕ) : Vec4 where
  x := word4 ((block.drop offset).take 4)
  y := word4 ((block.drop (offset + 4)).take 4)
  z := word4 ((block.drop (offset + 8)).take 4)
  w := word4 ((block.drop (offset + 12)).take 4)

/-- The layout of the uniform block. -/
def Params.ofBlock (block : List UInt8) : Params where
  personal := vec4At block 0
  cfg := vec4At block 16
  input := Vector.ofFn fun i => vec4At block (32 + i * 16)
  nonce := vec4At block 128
  nonceHi := vec4At block 144

def select (f t : UInt32) (cond : Bool) : UInt32 := if cond then t else f

def u64Add (a b : U64) : U64 :=
  let lo := a.1 + b.1
  let carry := select 0 1 (lo < a.1)
  let hi := a.2 + b.2 + carry
  (lo, hi)

def u64Xor (a b : U64) : U64 := (a.1 ^^^ b.1, a.2 ^^^ b.2)

def u64Rotr (a : U64) (n : ℕ) : U64 :=
  if n = 32 then (a.2, a.1)
  else if n < 32 then
    let lo := (a.1 >>> UInt32.ofNat n) ||| (a.2 <<< UInt32.ofNat (32 - n))
    let hi := (a.2 >>> UInt32.ofNat n) ||| (a.1 <<< UInt32.ofNat (32 - n))
    (lo, hi)
  else
    let m := n - 32
    let swapped := (a.2, a.1)
    let lo := (swapped.1 >>> UInt32.ofNat m) ||| (swapped.2 <<< UInt32.ofNat (32 - m))
    let hi := (swapped.2 >>> UInt32.ofNat m) ||| (swapped.1 <<< UInt32.ofNat (32 - m))
    (lo, hi)

def ops : Blake2b.WordOps U64 := ⟨u64Add, u64Xor, u64Rotr⟩

-- `IV0` to `IV7` and `SIGMA` are the port's tables, number for number
open ShaderRef (iv sigma)

/-- The same statements as the port's, with the loop over the lanes written out. -/
def compress (h : Vector U64 8) (block : Vector U64 16) (t : U64) (f : UInt32) : Vector U64 8 :=
  let v := h ++ iv
  let v := Blake2b.modify v 12 fun w => u64Xor w t
  let v := Blake2b.modify v 14 fun w => (w.1 ^^^ f, w.2 ^^^ f)
  Blake2b.finish ops h (Blake2b.rounds ops block sigma v)

section
variable (p : Params)

def readInputWord (i : Fin 24) : UInt32 :=
  let v := p.input.get ⟨i.val / 4, by omega⟩
  let lane := i.val % 4
  if lane = 0 then v.x else if lane = 1 then v.y else if lane = 2 then v.z else v.w

def readNonceWord (i : Fin 8) : UInt32 :=
  if i.val < 4 then
    match i.val with
    | 0 => p.nonce.x
    | 1 => p.nonce.y
    | 2 => p.nonce.z
    | _ => p.nonce.w
  else
    match i.val - 4 with
    | 0 => p.nonceHi.x
    | 1 => p.nonceHi.y
    | 2 => p.nonceHi.z
    | _ => p.nonceHi.w

/-- The first 20 of `w`. -/
def inputWords : Vector UInt32 20 := Vector.ofFn fun i => readInputWord p ⟨i.val, by omega⟩

/-- `w`: the input bytes fill 20 words and one byte, so the nonce and the index are shifted. -/
def messageWords (callIdx : UInt32) : Vector UInt32 32 :=
  let inputTail := readInputWord p 20 &&& (0x000000ff : UInt32)
  let n0 := readNonceWord p 0
  let n1 := readNonceWord p 1
  let n2 := readNonceWord p 2
  let n3 := readNonceWord p 3
  let n4 := readNonceWord p 4
  let n5 := readNonceWord p 5
  let n6 := readNonceWord p 6
  let n7 := readNonceWord p 7
  inputWords p ++
    #v[inputTail ||| ((n0 &&& 0x00ffffff) <<< 8),
      (n0 >>> 24) ||| ((n1 &&& 0x00ffffff) <<< 8), (n1 >>> 24) ||| ((n2 &&& 0x00ffffff) <<< 8),
      (n2 >>> 24) ||| ((n3 &&& 0x00ffffff) <<< 8), (n3 >>> 24) ||| ((n4 &&& 0x00ffffff) <<< 8),
      (n4 >>> 24) ||| ((n5 &&& 0x00ffffff) <<< 8), (n5 >>> 24) ||| ((n6 &&& 0x00ffffff) <<< 8),
      (n6 >>> 24) ||| ((n7 &&& 0x00ffffff) <<< 8),
      (n7 >>> 24) ||| ((callIdx &&& 0x00ffffff) <<< 8), callIdx >>> 24, 0, 0]

/-- `h_init`. -/
def initialState : Vector U64 8 :=
  let p0Lo : UInt32 := p.cfg.x ||| ((1 : UInt32) <<< 16) ||| ((1 : UInt32) <<< 24)
  let h := Blake2b.modify iv 0 fun w => (w.1 ^^^ p0Lo, w.2)
  let h := Blake2b.modify h 6 fun w => u64Xor w (p.personal.x, p.personal.y)
  Blake2b.modify h 7 fun w => u64Xor w (p.personal.z, p.personal.w)

/-- The sixteen words of the digest. -/
def digestWords (callIdx : UInt32) : List UInt32 :=
  let w := messageWords p callIdx
  let block : Vector U64 16 := Vector.ofFn fun i => (w[i.val * 2], w[i.val * 2 + 1])
  let h := compress (initialState p) block (117, 0) 0xffffffff
  h.toList.flatMap fun x => [x.1, x.2]

/-- `main`: the stores of one thread. -/
def main (gid : UInt32) : List (ℕ × UInt32) :=
  let callIdx := gid
  let nLeaves := p.cfg.y
  let firstLeaf := callIdx * 5
  if firstLeaf ≥ nLeaves then []
  else
    let words := digestWords p callIdx
    -- the loop returns at the first index that is no leaf
    ((List.range 5).takeWhile fun k => decide (firstLeaf + UInt32.ofNat k < nLeaves)).flatMap
      fun k =>
        let leafId := firstLeaf + UInt32.ofNat k
        let baseOut := leafId * 3
        let baseIn := k * 3
        [((baseOut + 0).toNat, words.getD (baseIn + 0) 0),
          ((baseOut + 1).toNat, words.getD (baseIn + 1) 0),
          ((baseOut + 2).toNat, words.getD (baseIn + 2) 0)]

end

/-- The stores of a dispatch, thread by thread. -/
def dispatch (input : Vector UInt8 iLen) (nonce : Bytes32) (nLeaves wgSize : UInt32) :
    List (ℕ × UInt32) :=
  let p := Params.ofBlock (GpuLeafGen.params input nonce nLeaves).bytes
  (globalIds (GpuLeafGen.workgroups nLeaves wgSize).toNat wgSize.toNat).flatMap (main p)

end Wgsl

/-! ### cuda.rs -/

namespace CudaLeafGen

def defaultBlock : UInt32 := 256

/-- `PERSONAL`. -/
def personal : List UInt8 := [90, 99, 97, 115, 104, 80, 111, 87, 96, 0, 0, 0, 5, 0, 0, 0]

/-- The 160 bytes, zero where nothing is copied. -/
def params (input : Vector UInt8 iLen) (nonce : Bytes32) (nLeaves : UInt32) : List UInt8 :=
  personal ++ (toLe32 60).toList ++ (toLe32 nLeaves).toList ++ List.replicate 8 0 ++
    input.toList ++ List.replicate 15 0 ++ nonce.toList

def gridDim (nLeaves : UInt32) : UInt32 :=
  let nCalls := (nLeaves + leavesPerCall - 1) / leavesPerCall
  (nCalls + defaultBlock - 1) / defaultBlock

end CudaLeafGen

/-! ### leaves.cu -/

namespace Cuda

def ops : Blake2b.WordOps UInt64 where
  add a b := a + b
  xor a b := a ^^^ b
  rotr a n := (a >>> UInt64.ofNat n) ||| (a <<< UInt64.ofNat (64 - n))

-- `IV` is BLAKE2b's, and `SIGMA` is the port's table
open Blake2b (iv)
open ShaderRef (sigma)

def compress (h : Vector UInt64 8) (m : Vector UInt64 16) (t : UInt64) : Vector UInt64 8 :=
  let v := h ++ iv
  let v := Blake2b.modify v 12 (· ^^^ t)
  let v := Blake2b.modify v 14 (· ^^^ 0xFFFFFFFFFFFFFFFF)
  let v := Blake2b.rounds ops m sigma v
  -- `h[i] ^= v[i] ^ v[i + 8]`
  Vector.zipWith (· ^^^ ·) h (Vector.zipWith (· ^^^ ·) (v.take 8) (v.drop 8))

def packLe (p : List UInt8) : UInt64 :=
  (p.getD 0 0).toUInt64 ||| ((p.getD 1 0).toUInt64 <<< 8) ||| ((p.getD 2 0).toUInt64 <<< 16) |||
    ((p.getD 3 0).toUInt64 <<< 24) ||| ((p.getD 4 0).toUInt64 <<< 32) |||
    ((p.getD 5 0).toUInt64 <<< 40) ||| ((p.getD 6 0).toUInt64 <<< 48) |||
    ((p.getD 7 0).toUInt64 <<< 56)

section
variable (params : List UInt8)

/-- `mbytes`. -/
def messageBytes (callIdx : UInt32) : List UInt8 :=
  (params.drop 32).take 81 ++ (params.drop 128).take 32 ++
    [(callIdx &&& 0xFF).toUInt8, ((callIdx >>> 8) &&& 0xFF).toUInt8,
      ((callIdx >>> 16) &&& 0xFF).toUInt8, ((callIdx >>> 24) &&& 0xFF).toUInt8] ++
    List.replicate 11 0

/-- The state after the compression. -/
def state (callIdx : UInt32) : Vector UInt64 8 :=
  let h := Blake2b.modify iv 0
    (· ^^^ ((60 : UInt64) ||| ((1 : UInt64) <<< 16) ||| ((1 : UInt64) <<< 24)))
  let h := Blake2b.modify h 6 (· ^^^ packLe params)
  let h := Blake2b.modify h 7 (· ^^^ packLe (params.drop 8))
  let mbytes := messageBytes params callIdx
  let m : Vector UInt64 16 := Vector.ofFn fun i => packLe (mbytes.drop (i * 8))
  compress h m 117

/-- The stores of one thread. -/
def leavesKernel (nLeaves callIdx : UInt32) : List (ℕ × UInt8) :=
  let nCalls := (nLeaves + 5 - 1) / 5
  if callIdx ≥ nCalls then []
  else
    let h := (state params callIdx).toList
    let base := callIdx * 5
    ((List.range 5).takeWhile fun k => decide (base + UInt32.ofNat k < nLeaves)).flatMap fun k =>
      let leaf := base + UInt32.ofNat k
      let outOff := leaf * 12
      let inOff := k * 12
      (List.range 12).map fun b =>
        let i := inOff + b
        ((outOff + UInt32.ofNat b).toNat,
          ((h.getD (i / 8) 0 >>> UInt64.ofNat (i % 8 * 8)) &&& 0xFF).toUInt8)

end

/-- The stores of a launch, thread by thread. -/
def launch (input : Vector UInt8 iLen) (nonce : Bytes32) (nLeaves : UInt32) (grid block : ℕ) :
    List (ℕ × UInt8) :=
  (globalIds grid block).flatMap
    (leavesKernel (CudaLeafGen.params input nonce nLeaves) nLeaves)

/-- The launch of the host. -/
def generate (input : Vector UInt8 iLen) (nonce : Bytes32) (nLeaves : UInt32) :
    List (ℕ × UInt8) :=
  launch input nonce nLeaves (CudaLeafGen.gridDim nLeaves).toNat CudaLeafGen.defaultBlock.toNat

end Cuda

end Equium.Gpu
