import Equium.Solver.TryNonce

/-! @src crates/equihash-core/src/solver.rs | name:CPU solver with its panics

    The solver once more, where a slice or an index out of range, a division by zero, an overflow, a
    shift by the word width and a digest length that `blake2b_simd` refuses are `none`. `usize` has 64
    bits. Where nothing panics it is the solver of `Wagner`. -/

namespace Equium.Solver.Checked
open Schemes Equium.Core

/-- `&xs[lo..hi]`. -/
def slice {α : Type} (xs : List α) (lo hi : ℕ) : Option (List α) :=
  if lo ≤ hi ∧ hi ≤ xs.length then some ((xs.drop lo).take (hi - lo)) else none

/-- `1u32 << s`. -/
def shl32 (s : ℕ) : Option ℕ := if s < 32 then some (2 ^ s) else none

/-- `1usize << s`. -/
def shl64 (s : ℕ) : Option ℕ := if s < 64 then some (2 ^ s) else none

def hashOutputLen (n : UInt32) : Option ℕ :=
  if n.toNat = 0 then none else some (Solver.hashOutputLen n)

def cbitsOf (n k : UInt32) : Option ℕ :=
  if k.toNat + 1 < 2 ^ 32 then some (n.toNat / (k.toNat + 1)) else none

/-- `hash_length` takes 1 to 64 bytes. -/
def initState (n k : UInt32) (hashOutput : ℕ) : Option Blake2bState :=
  if 1 ≤ hashOutput ∧ hashOutput ≤ 64 then some (Solver.initState n k hashOutput) else none

def generateLeafHash (c : Crates) (base : Blake2bState) (n i : UInt32) : Option (List UInt8) :=
  if n.toNat = 0 then none
  else
    let indicesPer := 512 / n.toNat
    let nBytes := n.toNat / 8
    if indicesPer = 0 then none
    else
      let full := (base.update (leBytes 4 (i.toNat / indicesPer))).finalize c
      let off := i.toNat % indicesPer * nBytes
      slice full off (off + nBytes)

def firstCbitsEq (a b : List UInt8) (cbits : ℕ) : Option Bool := do
  let fullBytes := cbits / 8
  let aFull ← slice a 0 fullBytes
  let bFull ← slice b 0 fullBytes
  if aFull ≠ bFull then pure false
  else
    let remBits := cbits % 8
    if remBits = 0 then pure true
    else do
      let mask : UInt8 := 0xFF <<< UInt8.ofNat (8 - remBits)
      let x ← a[fullBytes]?
      let y ← b[fullBytes]?
      pure ((x &&& mask) == (y &&& mask))

def concatCanonical (a b : List UInt32) : Option (List UInt32) := do
  let x ← a[0]?
  let y ← b[0]?
  pure (if x < y then a ++ b else b ++ a)

def pairRow (cbytes : ℕ) (a b : Row) : Option (Option Row) :=
  if !distinctIndices a.indices b.indices then some none
  else do
    let xored := xor a.hash b.hash
    let newHash ← (if xored.length ≤ cbytes then some [] else slice xored cbytes xored.length :
      Option (List UInt8))
    let indices ← concatCanonical a.indices b.indices
    pure (some ⟨newHash, indices⟩)

/-- The scan of `round`, whose comparisons may panic. -/
def runsFrom {α : Type} (same : α → α → Option Bool) (first : α) (taken : List α) :
    List α → Option (List (List α))
  | [] => some [taken.reverse]
  | y :: ys => do
    if ← same first y then runsFrom same first (y :: taken) ys
    else do
      let rest ← runsFrom same y [y] ys
      pure (taken.reverse :: rest)

def runs {α : Type} (same : α → α → Option Bool) : List α → Option (List (List α))
  | [] => some []
  | x :: xs => runsFrom same x [x] xs

def round (rows : List Row) (cbits : ℕ) : Option (List Row) := do
  let cbytes := divCeil8 cbits
  let stretches ← runs (fun a b => firstCbitsEq a.hash b.hash cbits) (sortRows rows)
  let made ← stretches.mapM fun stretch => (pairs stretch).mapM fun p => pairRow cbytes p.1 p.2
  pure (made.flatten.filterMap id)

/-- The loop of `round`s; the inner `none` is its early exit. -/
def rounds (cbits : ℕ) : ℕ → List Row → Option (Option (List Row))
  | 0, rows => some (some rows)
  | r + 1, rows => do
    let rows ← round rows cbits
    if rows.isEmpty then pure none else rounds cbits r rows

/-- The bit loop of the packers, `bitsPer` bits an index. -/
def packBits (bitsPer : ℕ) (indices : List UInt32) : Option (List UInt8) := do
  let bits ← indices.mapM fun idx => (List.range bitsPer).reverse.mapM fun b =>
    if b < 32 then some ((idx >>> UInt32.ofNat b) &&& 1) else none
  bits.flatten.zipIdx.foldlM
    (fun out p => if p.2 / 8 < out.length then some (setBit out p.2 p.1) else none)
    (List.replicate (divCeil8 (bitsPer * indices.length)) 0)

def compressIndices (n k : UInt32) (indices : List UInt32) : Option (List UInt8) := do
  let cbits ← cbitsOf n k
  packBits (cbits + 1) indices

def firstValid (c : Crates) (n k : UInt32) (input : Vector UInt8 iLen) (nonce : Bytes32)
    (targetIndicesLen : ℕ) : List Row → Option (Option (List UInt8))
  | [] => some none
  | row :: rows =>
    if row.indices.length ≠ targetIndicesLen then
      firstValid c n k input nonce targetIndicesLen rows
    else if !row.hash.all (· == 0) then firstValid c n k input nonce targetIndicesLen rows
    else do
      let compressed ← compressIndices n k row.indices
      if c.isValidSolution n k input.toList nonce compressed then pure (some compressed)
      else firstValid c n k input nonce targetIndicesLen rows

/-- The guard computes `k + 1` once the first three tests have passed. -/
def acceptsParams (n k : UInt32) : Option Bool :=
  if n.toNat = 0 ∨ k.toNat = 0 ∨ n.toNat % 8 ≠ 0 then some false
  else if k.toNat + 1 < 2 ^ 32 then some (Solver.acceptsParams n k) else none

def BaseState.new (n k : UInt32) (input : Vector UInt8 iLen) :
    Option (Except SolveError BaseState) := do
  if ← acceptsParams n k then do
    let len ← hashOutputLen n
    let state ← initState n k (len % 256)
    pure (.ok ⟨state.update input.toList, n, k⟩)
  else pure (.error .invalidParams)

/-- From the rows of the leaves on, the same in both searches. -/
def search (c : Crates) (n k : UInt32) (input : Vector UInt8 iLen) (nonce : Bytes32) (cbits : ℕ)
    (rows : List Row) : Option (Option (List UInt8)) := do
  match ← rounds cbits k.toNat rows with
  | none => pure none
  | some rows => do
    let targetIndicesLen ← shl64 k.toNat
    firstValid c n k input nonce targetIndicesLen rows

def tryNonceWithLeaves (c : Crates) (n k : UInt32) (input : Vector UInt8 iLen) (nonce : Bytes32)
    (leaves : List UInt8) : Option (Option (List UInt8)) := do
  if ← acceptsParams n k then do
    let cbits ← cbitsOf n k
    let nInit ← shl32 (cbits + 1)
    let lb := leafBytes n
    if leaves.length < nInit * lb then pure none
    else do
      let rows ← (List.range nInit).mapM fun i => do
        let hash ← slice leaves (i * lb) ((i + 1) * lb)
        pure (⟨hash, [UInt32.ofNat i]⟩ : Row)
      search c n k input nonce cbits rows
  else pure none

def tryNonce (c : Crates) (base : BaseState) (input : Vector UInt8 iLen) (nonce : Bytes32) :
    Option (Option (List UInt8)) := do
  let cbits ← cbitsOf base.n base.k
  let nInit ← shl32 (cbits + 1)
  let rows ← (List.range nInit).mapM fun i => do
    let hash ← generateLeafHash c (base.state.update nonce.toList) base.n (UInt32.ofNat i)
    pure (⟨hash, [UInt32.ofNat i]⟩ : Row)
  search c base.n base.k input nonce cbits rows

/-! ### Where nothing panics -/

theorem slice_of_le {α : Type} {xs : List α} {lo hi : ℕ} (hlo : lo ≤ hi) (hhi : hi ≤ xs.length) :
    slice xs lo hi = some ((xs.drop lo).take (hi - lo)) := if_pos ⟨hlo, hhi⟩

/-- A loop none of whose steps panics. -/
theorem mapM_of_some {α β : Type} {f : α → Option β} {g : α → β} {xs : List α}
    (h : ∀ x ∈ xs, f x = some (g x)) : xs.mapM f = some (xs.map g) := by
  induction xs with
  | nil => rfl
  | cons x xs ih =>
    rw [List.mapM_cons, bind_of_some (h x List.mem_cons_self),
      bind_of_some (ih fun y hy => h y (List.mem_cons_of_mem _ hy))]
    rfl

theorem divCeil8_pos {x : ℕ} (h : x % 8 ≠ 0) : x / 8 < divCeil8 x := by
  unfold divCeil8
  omega

theorem div8_le (x : ℕ) : x / 8 ≤ divCeil8 x := by
  unfold divCeil8
  omega

theorem firstCbitsEq_eq {a b : List UInt8} {cbits : ℕ} (ha : divCeil8 cbits ≤ a.length)
    (hb : divCeil8 cbits ≤ b.length) :
    firstCbitsEq a b cbits = some (Solver.firstCbitsEq a b cbits) := by
  have hle := div8_le cbits
  rw [firstCbitsEq, bind_of_some (slice_of_le (Nat.zero_le _) (hle.trans ha)),
    bind_of_some (slice_of_le (Nat.zero_le _) (hle.trans hb)), Solver.firstCbitsEq]
  simp only [Nat.sub_zero, List.drop_zero]
  split_ifs with hfull hrem
  · rfl
  · rfl
  · have hlt := divCeil8_pos hrem
    have hxa := List.getElem?_eq_getElem (hlt.trans_le ha)
    have hxb := List.getElem?_eq_getElem (hlt.trans_le hb)
    rw [bind_of_some hxa, bind_of_some hxb, List.getD_eq_getElem?_getD, List.getD_eq_getElem?_getD,
      hxa, hxb]
    rfl

theorem concatCanonical_eq {a b : List UInt32} (ha : a ≠ []) (hb : b ≠ []) :
    concatCanonical a b = some (Solver.concatCanonical a b) := by
  obtain ⟨x, xs, rfl⟩ := List.exists_cons_of_ne_nil ha
  obtain ⟨y, ys, rfl⟩ := List.exists_cons_of_ne_nil hb
  rfl

theorem pairRow_eq {a b : Row} (cbytes : ℕ) (ha : a.indices ≠ []) (hb : b.indices ≠ []) :
    pairRow cbytes a b = some (Solver.pairRow cbytes a b) := by
  unfold pairRow Solver.pairRow
  split_ifs with hd
  · rfl
  · have hslice : (if (xor a.hash b.hash).length ≤ cbytes then some []
        else slice (xor a.hash b.hash) cbytes (xor a.hash b.hash).length) =
        some (if (xor a.hash b.hash).length ≤ cbytes then []
          else (xor a.hash b.hash).drop cbytes) := by
      split_ifs with hlen
      · rfl
      · rw [slice_of_le (by omega) le_rfl, List.take_of_length_le (by rw [List.length_drop])]
    dsimp only
    rw [bind_of_some hslice, bind_of_some (concatCanonical_eq ha hb)]
    rfl

theorem runsFrom_eq {α : Type} {same : α → α → Option Bool} {same' : α → α → Bool} {ys : List α}
    {first : α} (taken : List α)
    (h : ∀ x ∈ first :: ys, ∀ y ∈ first :: ys, same x y = some (same' x y)) :
    runsFrom same first taken ys = some (Schemes.runsFrom same' first taken ys) := by
  induction ys generalizing first taken with
  | nil => rfl
  | cons y ys ih =>
    rw [runsFrom, bind_of_some (h first (by simp) y (by simp)), Schemes.runsFrom]
    split_ifs
    · exact ih (y :: taken) fun a ha b hb => h a (by simp at ha ⊢; tauto) b (by simp at hb ⊢; tauto)
    · rw [bind_of_some (ih [y] fun a ha b hb =>
        h a (List.mem_cons_of_mem _ ha) b (List.mem_cons_of_mem _ hb))]
      rfl

theorem runs_eq {α : Type} {same : α → α → Option Bool} {same' : α → α → Bool} {xs : List α}
    (h : ∀ x ∈ xs, ∀ y ∈ xs, same x y = some (same' x y)) :
    runs same xs = some (Schemes.runs same' xs) := by
  cases xs with
  | nil => rfl
  | cons x xs => exact runsFrom_eq [x] h

/-- The entries of the stretches are entries of the list. -/
theorem mem_of_mem_runsFrom {α : Type} {same : α → α → Bool} {ys : List α} {first : α}
    {taken : List α} {stretch : List α} (hs : stretch ∈ Schemes.runsFrom same first taken ys)
    {x : α} (hx : x ∈ stretch) : x ∈ taken ∨ x ∈ ys := by
  induction ys generalizing first taken with
  | nil =>
    obtain rfl := List.mem_singleton.mp hs
    exact .inl (List.mem_reverse.mp hx)
  | cons y ys ih =>
    rw [Schemes.runsFrom] at hs
    split_ifs at hs
    · have := ih hs
      simp only [List.mem_cons] at this ⊢
      tauto
    · rcases List.mem_cons.mp hs with rfl | hs
      · exact .inl (List.mem_reverse.mp hx)
      · have := ih hs
        simp only [List.mem_singleton] at this
        simp only [List.mem_cons]
        tauto

theorem mem_of_mem_runs {α : Type} {same : α → α → Bool} {xs stretch : List α}
    (hs : stretch ∈ Schemes.runs same xs) {x : α} (hx : x ∈ stretch) : x ∈ xs := by
  cases xs with
  | nil => cases hs
  | cons y ys =>
    have := mem_of_mem_runsFrom hs hx
    simp only [List.mem_singleton] at this
    exact List.mem_cons.mpr this

/-- A round on rows that are long enough. -/
theorem round_eq {rows : List Row} {cbits : ℕ} (hlen : ∀ row ∈ rows, divCeil8 cbits ≤ row.hash.length)
    (hne : ∀ row ∈ rows, row.indices ≠ []) : round rows cbits = some (Solver.round rows cbits) := by
  have hsame : ∀ a ∈ sortRows rows, ∀ b ∈ sortRows rows, firstCbitsEq a.hash b.hash cbits =
      some (Solver.firstCbitsEq a.hash b.hash cbits) := fun a ha b hb =>
    firstCbitsEq_eq (hlen a (mem_sortRows.mp ha)) (hlen b (mem_sortRows.mp hb))
  have hruns := runs_eq hsame
  have hstretch : ∀ stretch ∈ Schemes.runs (fun a b : Row =>
        Solver.firstCbitsEq a.hash b.hash cbits) (sortRows rows),
      ((pairs stretch).mapM fun p => pairRow (divCeil8 cbits) p.1 p.2) =
        some ((pairs stretch).map fun p => Solver.pairRow (divCeil8 cbits) p.1 p.2) :=
    fun stretch hs => mapM_of_some fun p hp => by
      obtain ⟨ha, hb⟩ := mem_of_mem_pairs (Prod.eta p ▸ hp)
      exact pairRow_eq _ (hne _ (mem_sortRows.mp (mem_of_mem_runs hs ha)))
        (hne _ (mem_sortRows.mp (mem_of_mem_runs hs hb)))
  have hmade := mapM_of_some hstretch
  rw [round, bind_of_some hruns, bind_of_some hmade, Solver.round]
  simp only [List.filterMap_flatten, List.map_map, List.flatMap_def]
  congr 3
  funext stretch
  simp [List.filterMap_map, pairUp]

/-! ### The packer -/

@[simp] theorem setBit_length (out : List UInt8) (pos : ℕ) (bit : UInt32) :
    (setBit out pos bit).length = out.length := by
  simp [setBit]

theorem foldlM_setBit (bits : List UInt32) (pos : ℕ) (out : List UInt8)
    (h : pos + bits.length ≤ 8 * out.length) :
    (bits.zipIdx pos).foldlM
        (fun out p => if p.2 / 8 < out.length then some (setBit out p.2 p.1) else none) out =
      some ((bits.zipIdx pos).foldl (fun out p => setBit out p.2 p.1) out) := by
  induction bits generalizing pos out with
  | nil => rfl
  | cons bit bits ih =>
    rw [List.length_cons] at h
    have hlt : pos / 8 < out.length := by omega
    rw [List.zipIdx_cons, List.foldlM_cons, List.foldl_cons]
    dsimp only
    rw [if_pos hlt]
    exact ih (pos + 1) (setBit out pos bit) (by rw [setBit_length]; omega)

/-- Bits of one index, most significant first. -/
def indexBits (bitsPer : ℕ) (idx : UInt32) : List UInt32 :=
  (List.range bitsPer).reverse.map fun b => (idx >>> UInt32.ofNat b) &&& 1

@[simp] theorem indexBits_length (bitsPer : ℕ) (idx : UInt32) :
    (indexBits bitsPer idx).length = bitsPer := by
  simp [indexBits]

theorem flatMap_indexBits_length (bitsPer : ℕ) (indices : List UInt32) :
    (indices.flatMap (indexBits bitsPer)).length = bitsPer * indices.length := by
  induction indices with
  | nil => rfl
  | cons idx indices ih =>
    rw [List.flatMap_cons, List.length_append, ih, indexBits_length, List.length_cons, Nat.mul_succ,
      Nat.add_comm]

/-- With at most 32 bits an index, every shift is below the word width and every bit has its byte. -/
theorem packBits_eq {bitsPer : ℕ} (hbits : bitsPer ≤ 32) (indices : List UInt32) :
    packBits bitsPer indices = some ((indices.flatMap (indexBits bitsPer)).zipIdx.foldl
      (fun out p => setBit out p.2 p.1)
      (List.replicate (divCeil8 (bitsPer * indices.length)) 0)) := by
  have hrow : ∀ idx ∈ indices, ((List.range bitsPer).reverse.mapM fun b =>
      if b < 32 then some ((idx >>> UInt32.ofNat b) &&& 1) else none) =
        some (indexBits bitsPer idx) := fun idx _ =>
    mapM_of_some fun b hb => if_pos (by
      have := List.mem_range.mp (List.mem_reverse.mp hb)
      omega)
  rw [packBits, bind_of_some (mapM_of_some hrow), ← List.flatMap_def]
  refine foldlM_setBit _ 0 _ ?_
  rw [flatMap_indexBits_length, List.length_replicate]
  unfold divCeil8
  omega

theorem cbitsOf_eq {n k : UInt32} (hk : k.toNat + 1 < 2 ^ 32) :
    cbitsOf n k = some (Solver.cbitsOf n k) := if_pos hk

theorem compressIndices_eq {n k : UInt32} (hk : k.toNat + 1 < 2 ^ 32)
    (hbits : Solver.cbitsOf n k + 1 ≤ 32) (indices : List UInt32) :
    compressIndices n k indices = some (Solver.compressIndices n k indices) := by
  rw [compressIndices, bind_of_some (cbitsOf_eq hk), packBits_eq hbits]
  rfl

theorem firstValid_eq {n k : UInt32} (c : Crates) (hk : k.toNat + 1 < 2 ^ 32)
    (hbits : Solver.cbitsOf n k + 1 ≤ 32) (input : Vector UInt8 iLen) (nonce : Bytes32)
    (rows : List Row) : firstValid c n k input nonce (2 ^ k.toNat) rows =
      some (Solver.firstValid c n k input nonce rows) := by
  induction rows with
  | nil => rfl
  | cons row rows ih =>
    rw [firstValid, Solver.firstValid, bind_of_some (compressIndices_eq hk hbits row.indices), ih]
    dsimp only
    split_ifs <;> rfl

end Equium.Solver.Checked
