import Equium.Core.Challenge
import Equium.Schemes.Pairs

/-! @src crates/equihash-core/src/solver.rs | name:CPU Wagner solver | scheme:sort-and-scan

    The solver as the code runs it: leaf generation over an incremental BLAKE2b state, the sort-based
    collision round, the packing of indices and the two entry points that search one nonce. -/

namespace Equium.Solver
open Schemes Equium.Core

/-- `Row`: what is left of the XOR of the leaves, and the leaves in tree order. -/
structure Row where
  hash : List UInt8
  indices : List UInt32
deriving DecidableEq, Repr

inductive SolveError where
  | invalidParams
  | noSolutionFound
deriving DecidableEq, Repr

def hashOutputLen (n : UInt32) : ℕ := 512 / n.toNat * n.toNat / 8

def cbitsOf (n k : UInt32) : ℕ := n.toNat / (k.toNat + 1)

/-- `usize::div_ceil(8)`. -/
def divCeil8 (x : ℕ) : ℕ := (x + 7) / 8

def nInitLeaves (n k : UInt32) : ℕ := 2 ^ (cbitsOf n k + 1)

def leafBytes (n : UInt32) : ℕ := n.toNat / 8

/-! ### Leaves -/

/-- A `blake2b_simd::State`: its parameters and the bytes fed so far. -/
structure Blake2bState where
  hashLength : ℕ
  personal : List UInt8
  fed : List UInt8
deriving DecidableEq, Repr

def Blake2bState.update (s : Blake2bState) (bytes : List UInt8) : Blake2bState :=
  { s with fed := s.fed ++ bytes }

def Blake2bState.finalize (c : Crates) (s : Blake2bState) : List UInt8 :=
  c.blake2b s.hashLength s.personal s.fed

/-- `b"ZcashPoW"`. -/
def zcashPoW : List UInt8 := [90, 99, 97, 115, 104, 80, 111, 87]

def initState (n k : UInt32) (hashOutput : ℕ) : Blake2bState :=
  ⟨hashOutput, zcashPoW ++ (toLe32 n).toList ++ (toLe32 k).toList, []⟩

def generateLeafHash (c : Crates) (base : Blake2bState) (n i : UInt32) : List UInt8 :=
  let indicesPer := 512 / n.toNat
  let nBytes := n.toNat / 8
  let full := (base.update (leBytes 4 (i.toNat / indicesPer))).finalize c
  let off := i.toNat % indicesPer * nBytes
  (full.drop off).take nBytes

/-! ### One round -/

def firstCbitsEq (a b : List UInt8) (cbits : ℕ) : Bool :=
  let fullBytes := cbits / 8
  if a.take fullBytes ≠ b.take fullBytes then false
  else
    let remBits := cbits % 8
    if remBits = 0 then true
    else
      let mask : UInt8 := 0xFF <<< UInt8.ofNat (8 - remBits)
      (a.getD fullBytes 0 &&& mask) == (b.getD fullBytes 0 &&& mask)

def xor (a b : List UInt8) : List UInt8 := List.zipWith (· ^^^ ·) a b

def distinctIndices (a b : List UInt32) : Bool := a.all fun x => b.all fun y => x != y

/-- The subtree with the smaller first index goes first. -/
def concatCanonical (a b : List UInt32) : List UInt32 :=
  if a.headD 0 < b.headD 0 then a ++ b else b ++ a

/-- The body of the two inner loops: the row made of `a` and `b`, unless they share an index. -/
def pairRow (cbytes : ℕ) (a b : Row) : Option Row :=
  if !distinctIndices a.indices b.indices then none
  else
    let xored := xor a.hash b.hash
    let newHash := if xored.length ≤ cbytes then [] else xored.drop cbytes
    some ⟨newHash, concatCanonical a.indices b.indices⟩

/-- Sort by hash, pair the rows of each stretch that agrees on the first `cbits`, XOR and trim. -/
def round (rows : List Row) (cbits : ℕ) : List Row :=
  let cbytes := divCeil8 cbits
  let sorted := rows.mergeSort fun a b => decide (a.hash ≤ b.hash)
  (runs (fun a b => firstCbitsEq a.hash b.hash cbits) sorted).flatMap (pairUp (pairRow cbytes))

/-- The loop of `round`s, abandoned when no row is left. -/
def rounds (cbits : ℕ) : ℕ → List Row → Option (List Row)
  | 0, rows => some rows
  | r + 1, rows =>
    let rows := round rows cbits
    if rows.isEmpty then none else rounds cbits r rows

/-! ### Packing and search -/

/-- `out[pos / 8] |= bit << (7 - pos % 8)`. -/
def setBit (out : List UInt8) (pos : ℕ) (bit : UInt32) : List UInt8 :=
  out.modify (pos / 8) fun byte => byte ||| (bit.toUInt8 <<< UInt8.ofNat (7 - pos % 8))

/-- The bits of the indices, `cbits + 1` each, most significant first, packed into bytes. -/
def compressIndices (n k : UInt32) (indices : List UInt32) : List UInt8 :=
  let bitsPer := cbitsOf n k + 1
  let bits := indices.flatMap fun idx =>
    (List.range bitsPer).reverse.map fun b => (idx >>> UInt32.ofNat b) &&& 1
  bits.zipIdx.foldl (fun out p => setBit out p.2 p.1)
    (List.replicate (divCeil8 (bitsPer * indices.length)) 0)

/-- The first candidate that passes the third-party verifier. -/
def firstValid (c : Crates) (n k : UInt32) (input : Vector UInt8 iLen) (nonce : Bytes32) :
    List Row → Option (List UInt8)
  | [] => none
  | row :: rows =>
    if row.indices.length ≠ 2 ^ k.toNat then firstValid c n k input nonce rows
    else if !row.hash.all (· == 0) then firstValid c n k input nonce rows
    else
      let compressed := compressIndices n k row.indices
      if c.isValidSolution n k input.toList nonce compressed then some compressed
      else firstValid c n k input nonce rows

/-- The parameters both entry points accept. -/
def acceptsParams (n k : UInt32) : Bool :=
  !(n.toNat == 0 || k.toNat == 0 || n.toNat % 8 != 0 || n.toNat % (k.toNat + 1) != 0 ||
    decide (k.toNat ≥ n.toNat))

structure BaseState where
  state : Blake2bState
  n : UInt32
  k : UInt32
deriving DecidableEq, Repr

/-- `hash_output_len(n) as u8` keeps the low byte. -/
def BaseState.new (n k : UInt32) (input : Vector UInt8 iLen) : Except SolveError BaseState :=
  if acceptsParams n k then
    .ok ⟨(initState n k (hashOutputLen n % 256)).update input.toList, n, k⟩
  else .error .invalidParams

/-- The rows a search starts from: one for each leaf. -/
def leafRows (count : ℕ) (leaf : UInt32 → List UInt8) : List Row :=
  (List.range count).map fun i => ⟨leaf (UInt32.ofNat i), [UInt32.ofNat i]⟩

/-- Leaf `i` of a packed table. -/
def tableLeaf (leaves : List UInt8) (lb : ℕ) (i : UInt32) : List UInt8 :=
  (leaves.drop (i.toNat * lb)).take lb

def tryNonceWithLeaves (c : Crates) (n k : UInt32) (input : Vector UInt8 iLen) (nonce : Bytes32)
    (leaves : List UInt8) : Option (List UInt8) :=
  if !acceptsParams n k then none
  else if leaves.length < nInitLeaves n k * leafBytes n then none
  else
    (rounds (cbitsOf n k) k.toNat
      (leafRows (nInitLeaves n k) (tableLeaf leaves (leafBytes n)))).bind
      (firstValid c n k input nonce)

/-- The leaf hashes of one nonce. -/
def nonceLeaf (c : Crates) (base : BaseState) (nonce : Bytes32) (i : UInt32) : List UInt8 :=
  generateLeafHash c (base.state.update nonce.toList) base.n i

def tryNonce (c : Crates) (base : BaseState) (input : Vector UInt8 iLen) (nonce : Bytes32) :
    Option (List UInt8) :=
  (rounds (cbitsOf base.n base.k) base.k.toNat
    (leafRows (nInitLeaves base.n base.k) (nonceLeaf c base nonce))).bind
    (firstValid c base.n base.k input nonce)

end Equium.Solver
