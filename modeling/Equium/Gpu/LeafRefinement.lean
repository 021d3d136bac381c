import Equium.Gpu.LeafKernels
import Mathlib.Data.Fintype.Basic
import Mathlib.Tactic.FinCases

/-! @src clients/gpu-miner/src/shaders/leaves.wgsl, cuda/leaves.cu | name:Kernels against the port |
    scheme:scatter

    A thread of either kernel stores the leaves of its call, byte for byte the port's. The threads of
    a dispatch cover the table once, unless there are so many that the shader's `call_idx * 5u` wraps:
    then a surplus thread takes itself for an early one. -/

namespace Equium.Gpu
open Schemes Solver Equium.Core

variable (input : Vector UInt8 iLen) (nonce : Bytes32) (nLeaves : UInt32)

/-! ### The uniform block -/

theorem vecBytes_vec4 {bs : List UInt8} (h : bs.length = 4 * 4) :
    GpuLeafGen.vecBytes (GpuLeafGen.vec4 bs) = bs := by
  rw [GpuLeafGen.vecBytes, GpuLeafGen.vec4, Vector.toList_ofFn,
    flatMap_ofFn 4 (fun i => word4 ((bs.drop (i * 4)).take 4)) bytes4, flatMap_word4 h]

theorem vecBytes_slices {k : ℕ} {bs : List UInt8} (h : bs.length = k * 16) :
    (Vector.ofFn fun i : Fin k => GpuLeafGen.vec4 ((bs.drop (i * 16)).take 16)).toList.flatMap
      GpuLeafGen.vecBytes = bs := by
  rw [Vector.toList_ofFn,
    flatMap_ofFn k (fun i => GpuLeafGen.vec4 ((bs.drop (i * 16)).take 16)) GpuLeafGen.vecBytes]
  refine Eq.trans (List.flatMap_congr fun i hi => vecBytes_vec4 ?_) (flatMap_slices h)
  have hik := List.mem_range.mp hi
  rw [List.length_take, List.length_drop]
  omega

/-- Both hosts send the same 160 bytes. -/
theorem params_bytes : (GpuLeafGen.params input nonce nLeaves).bytes =
    CudaLeafGen.params input nonce nLeaves := by
  have hpadded : (input.toList ++ List.replicate 15 0).length = 6 * 16 := by simp
  have hpersonal : GpuLeafGen.vecBytes (GpuLeafGen.vec4
      (zcashPoW ++ (toLe32 96).toList ++ (toLe32 5).toList)) = CudaLeafGen.personal :=
    vecBytes_vec4 (by decide)
  have hlo : GpuLeafGen.vecBytes (GpuLeafGen.vec4 (nonce.toList.take 16)) = nonce.toList.take 16 :=
    vecBytes_vec4 (by simp)
  have hhi : GpuLeafGen.vecBytes (GpuLeafGen.vec4 (nonce.toList.drop 16)) = nonce.toList.drop 16 :=
    vecBytes_vec4 (by simp)
  have hcfg : GpuLeafGen.vecBytes #v[60, nLeaves, 0, 0] =
      (toLe32 60).toList ++ (toLe32 nLeaves).toList ++ List.replicate 8 0 := by
    simp [GpuLeafGen.vecBytes, bytes4, toLe32, leBytes]
  rw [GpuLeafGen.Params.bytes, GpuLeafGen.params, vecBytes_slices hpadded, hpersonal, hlo, hhi,
    hcfg, CudaLeafGen.params]
  simp only [List.append_assoc, List.take_append_drop]

theorem params_tail : (CudaLeafGen.params input nonce nLeaves).drop 32 =
    input.toList ++ List.replicate 15 0 ++ nonce.toList := by
  have hhead : (CudaLeafGen.personal ++ (toLe32 60).toList ++ (toLe32 nLeaves).toList ++
      List.replicate 8 0).length = 32 := by simp [CudaLeafGen.personal]
  rw [CudaLeafGen.params, List.append_assoc, List.append_assoc, List.drop_left' hhead,
    ← List.append_assoc]

/-- The input in the block, with its padding. -/
theorem params_input {i : ℕ} (hi : i < 24) :
    ((CudaLeafGen.params input nonce nLeaves).drop (32 + i * 4)).take 4 =
      ((input.toList ++ List.replicate 15 0).drop (i * 4)).take 4 := by
  have hpadded : (input.toList ++ List.replicate 15 0).length = 96 := by simp
  rw [← List.drop_drop, params_tail, List.drop_append_of_le_length (by omega),
    List.take_append_of_le_length (by rw [List.length_drop]; omega)]

theorem params_nonce : (CudaLeafGen.params input nonce nLeaves).drop 128 = nonce.toList := by
  have hpadded : (input.toList ++ List.replicate 15 0).length = 96 := by simp
  have hdrop : (128 : ℕ) = 32 + 96 := rfl
  rw [hdrop, ← List.drop_drop, params_tail, List.drop_left' hpadded]

/-! ### The host's arithmetic -/

theorem nCalls_toNat {nLeaves : UInt32} (hn : nLeaves.toNat ≤ 2 ^ 17) :
    ((nLeaves + leavesPerCall - 1) / leavesPerCall).toNat = (nLeaves.toNat + 4) / 5 := by
  rw [UInt32.toNat_div, UInt32.toNat_sub, UInt32.toNat_add]
  change (2 ^ 32 - 1 + (nLeaves.toNat + 5) % 2 ^ 32) % 2 ^ 32 / 5 = _
  omega

/-- Rounding up covers. -/
theorem le_roundUp {m wg : ℕ} (hwg : 0 < wg) : m ≤ (m + wg - 1) / wg * wg := by
  have hdiv := Nat.div_add_mod' (m + wg - 1) wg
  have hmod := Nat.mod_lt (m + wg - 1) hwg
  omega

theorem roundUp_toNat {m wg : UInt32} (hwg : 0 < wg.toNat) (hle : m.toNat + wg.toNat ≤ 2 ^ 32) :
    ((m + wg - 1) / wg).toNat = (m.toNat + wg.toNat - 1) / wg.toNat := by
  have hsum : (m + wg - 1).toNat = m.toNat + wg.toNat - 1 := by
    rw [UInt32.toNat_sub, UInt32.toNat_add]
    change (2 ^ 32 - 1 + (m.toNat + wg.toNat) % 2 ^ 32) % 2 ^ 32 = _
    omega
  rw [UInt32.toNat_div, hsum]

/-- Without wrapping ids the host's dispatch does not wrap either. -/
theorem workgroups_toNat {nLeaves wgSize : UInt32} (hn : nLeaves.toNat ≤ 2 ^ 17)
    (hwg : 0 < wgSize.toNat)
    (hids : 5 * (GpuLeafGen.threads nLeaves.toNat wgSize.toNat - 1) < 2 ^ 32) :
    (GpuLeafGen.workgroups nLeaves wgSize).toNat * wgSize.toNat =
      GpuLeafGen.threads nLeaves.toNat wgSize.toNat := by
  have hcalls := nCalls_toNat hn
  have hmax := wgSize.toNat_lt
  have hle : (nLeaves.toNat + 4) / 5 + wgSize.toNat ≤ 2 ^ 32 := by
    obtain h0 | hpos := Nat.eq_zero_or_pos ((nLeaves.toNat + 4) / 5)
    · omega
    · have hone : 0 < ((nLeaves.toNat + 4) / 5 + wgSize.toNat - 1) / wgSize.toNat :=
        Nat.div_pos (by omega) hwg
      have hgroup := Nat.mul_le_mul_right wgSize.toNat hone
      unfold GpuLeafGen.threads GpuLeafGen.groups at hids
      omega
  unfold GpuLeafGen.workgroups GpuLeafGen.threads GpuLeafGen.groups
  dsimp only
  rw [roundUp_toNat hwg (by rw [hcalls]; exact hle), hcalls]

/-- No thread id of a dispatch in small workgroups comes near a wrap. -/
theorem small_ids {n : ℕ} (hn : n ≤ 2 ^ 17) {wg : ℕ} (hwg : 0 < wg) (hmax : wg ≤ 128) :
    5 * (GpuLeafGen.threads n wg - 1) < 2 ^ 32 := by
  have hround := Nat.div_mul_le_self ((n + 4) / 5 + wg - 1) wg
  unfold GpuLeafGen.threads GpuLeafGen.groups
  omega

/-- The sizes the host picks are small. -/
theorem picked_ids (vendor : UInt32) {nLeaves : UInt32} (hn : nLeaves.toNat ≤ 2 ^ 17) :
    0 < (GpuLeafGen.pickWorkgroupSize vendor).toNat ∧ 5 * (GpuLeafGen.threads nLeaves.toNat
      (GpuLeafGen.pickWorkgroupSize vendor).toNat - 1) < 2 ^ 32 := by
  have hsize : 0 < (GpuLeafGen.pickWorkgroupSize vendor).toNat ∧
      (GpuLeafGen.pickWorkgroupSize vendor).toNat ≤ 128 := by
    unfold GpuLeafGen.pickWorkgroupSize
    split_ifs <;> decide
  exact ⟨hsize.1, small_ids hn hsize.1 hsize.2⟩

/-- The ids of a dispatch are different words. -/
theorem threads_lt (n : ℕ) (hn : n ≤ 2 ^ 17) {wgSize : UInt32} (hwg : 0 < wgSize.toNat) :
    GpuLeafGen.threads n wgSize.toNat < 2 ^ 32 := by
  have hmax := wgSize.toNat_lt
  have hround := Nat.div_mul_le_self ((n + 4) / 5 + wgSize.toNat - 1) wgSize.toNat
  unfold GpuLeafGen.threads GpuLeafGen.groups
  obtain hlt | hge := Nat.lt_or_ge wgSize.toNat ((n + 4) / 5)
  · omega
  · -- one workgroup is enough
    have hgroups : ((n + 4) / 5 + wgSize.toNat - 1) / wgSize.toNat < 2 :=
      (Nat.div_lt_iff_lt_mul hwg).mpr (by omega)
    have hthreads := Nat.mul_le_mul_right wgSize.toNat (Nat.le_of_lt_succ hgroups)
    omega

/-! ### The leaves of a call -/

section
variable {nLeaves} {base : UInt32} {b : ℕ}

/-- Past the table the loop does not start. -/
theorem no_leaves (hb : nLeaves.toNat ≤ b) :
    ((List.range 5).takeWhile fun k => decide (b + k < nLeaves.toNat)) = [] := by
  have hfalse : (fun k => decide (b + k < nLeaves.toNat)) = fun _ => false := by
    funext k
    rw [decide_eq_false_iff_not]
    omega
  rw [hfalse]
  rfl

theorem leaf_toNat (hn : nLeaves.toNat ≤ 2 ^ 17) (hbase : base.toNat = b) (hb : b < nLeaves.toNat)
    {k : ℕ} (hk : k < 5) : (base + UInt32.ofNat k).toNat = b + k := by
  have hk' : (UInt32.ofNat k).toNat = k := UInt32.toNat_ofNat_of_lt' (by change k < 2 ^ 32; omega)
  rw [UInt32.toNat_add, hbase, hk']
  change (b + k) % 2 ^ 32 = b + k
  omega

theorem firstLeaf_toNat {g : ℕ} (hg : 5 * g < 2 ^ 32) : (UInt32.ofNat g * 5).toNat = g * 5 := by
  have hid : (UInt32.ofNat g).toNat = g :=
    UInt32.toNat_ofNat_of_lt' (by change g < 2 ^ 32; omega)
  rw [UInt32.toNat_mul, hid]
  change g * 5 % 2 ^ 32 = g * 5
  omega

/-- The cell of a leaf that is `w` cells long. -/
theorem cell_toNat {leaf : UInt32} {i w j : ℕ} (hleaf : leaf.toNat = i) (hi : i < 2 ^ 18)
    (hw : w ≤ 12) (hj : j < w) :
    (leaf * UInt32.ofNat w + UInt32.ofNat j).toNat = i * w + j := by
  have hw' : (UInt32.ofNat w).toNat = w := UInt32.toNat_ofNat_of_lt' (by change w < 2 ^ 32; omega)
  have hj' : (UInt32.ofNat j).toNat = j := UInt32.toNat_ofNat_of_lt' (by change j < 2 ^ 32; omega)
  have hmul : i * w ≤ 2 ^ 18 * 12 := Nat.mul_le_mul (by omega) hw
  rw [UInt32.toNat_add, UInt32.toNat_mul, hleaf, hw', hj']
  change (i * w % 2 ^ 32 + j) % 2 ^ 32 = _
  omega

theorem takeWhile_leaves (hn : nLeaves.toNat ≤ 2 ^ 17) (hbase : base.toNat = b)
    (hb : b < nLeaves.toNat) :
    ((List.range 5).takeWhile fun k => decide (base + UInt32.ofNat k < nLeaves)) =
      (List.range 5).takeWhile fun k => decide (b + k < nLeaves.toNat) := by
  refine takeWhile_congr fun k hk => ?_
  rw [decide_eq_decide, UInt32.lt_iff_toNat_lt, leaf_toNat hn hbase hb (List.mem_range.mp hk)]

end

/-! ### The table of a dispatch -/

/-- What a pass leaves in the first `n` cells, whatever was there before. -/
def Fills {V : Type} (ws : List (ℕ × V)) (n : ℕ) (enc : V → List UInt8) (bytes : List UInt8) :
    Prop :=
  (∀ a, storeCount ws a = if a < n then 1 else 0) ∧
    ∀ mem : ℕ → V, ((List.range n).map (store mem ws)).flatMap enc = bytes

section
variable {V : Type} {w : ℕ} {body : ℕ → List (ℕ × V)}

/-- The threads of a dispatch that covers the table store all of it. -/
theorem dispatch_eq {thread : UInt32 → List (ℕ × V)} {groups size : ℕ}
    (hcover : nLeaves.toNat ≤ groups * size * 5)
    (hthread : ∀ g < groups * size, thread (UInt32.ofNat g) =
      ((List.range 5).takeWhile fun k => decide (g * 5 + k < nLeaves.toNat)).flatMap fun k =>
        body (g * 5 + k)) :
    (globalIds groups size).flatMap thread = (List.range nLeaves.toNat).flatMap body := by
  rw [globalIds, List.flatMap_map, ← flatMap_chunks body hcover]
  exact List.flatMap_congr fun g hg => hthread g (List.mem_range.mp hg)

/-- In any order, the stores of all leaves fill each cell once, with the bytes of the port. -/
theorem table_any_order (enc : V → List UInt8)
    (haddr : ∀ i, (body i).map (·.1) = (List.range w).map (i * w + ·))
    (hbytes : ∀ i, (body i).flatMap (fun s => enc s.2) = ShaderRef.leafAt input nonce i)
    {ws : List (ℕ × V)} (hp : ws.Perm ((List.range nLeaves.toNat).flatMap body)) :
    Fills ws (w * nLeaves.toNat) enc (ShaderRef.leaves input nonce nLeaves) := by
  have hq : ((List.range nLeaves.toNat).flatMap body).map (·.1) =
      List.range (nLeaves.toNat * w) := by
    rw [List.map_flatMap, ← range_rows]
    exact List.flatMap_congr fun i _ => haddr i
  rw [Fills, Nat.mul_comm]
  refine ⟨storeCount_any_order hq hp, fun mem => ?_⟩
  rw [scatter_any_order hq hp, List.flatMap_map, List.flatMap_assoc, ShaderRef.leaves_eq]
  exact List.flatMap_congr fun i _ => hbytes i

end

namespace Wgsl

theorem readInputWord_eq (block : List UInt8) (i : Fin 24) :
    readInputWord (Params.ofBlock block) i = word4 ((block.drop (32 + i.val * 4)).take 4) := by
  have hdiv := Nat.div_add_mod i.val 4
  have hget : (Params.ofBlock block).input.get ⟨i.val / 4, by omega⟩ =
      vec4At block (32 + i.val / 4 * 16) := by
    rw [Params.ofBlock]
    exact Vector.getElem_ofFn _
  unfold readInputWord
  rw [hget]
  dsimp only [vec4At]
  split_ifs with h0 h1 h2
  · rw [show 32 + i.val / 4 * 16 = 32 + i.val * 4 by omega]
  · rw [show 32 + i.val / 4 * 16 + 4 = 32 + i.val * 4 by omega]
  · rw [show 32 + i.val / 4 * 16 + 8 = 32 + i.val * 4 by omega]
  · rw [show 32 + i.val / 4 * 16 + 12 = 32 + i.val * 4 by omega]

theorem readNonceWord_eq (block : List UInt8) (i : Fin 8) :
    readNonceWord (Params.ofBlock block) i = word4 ((block.drop (128 + i.val * 4)).take 4) := by
  fin_cases i <;> rfl

variable (callIdx : UInt32)

/-- The block the shader is sent. -/
def sent : Params := Params.ofBlock (CudaLeafGen.params input nonce nLeaves)

theorem sent_input (i : Fin 24) : readInputWord (sent input nonce nLeaves) i =
    word4 (((input.toList ++ List.replicate 15 0).drop (i.val * 4)).take 4) := by
  rw [sent, readInputWord_eq, params_input _ _ _ i.isLt]

theorem sent_nonce (i : Fin 8) : bytes4 (readNonceWord (sent input nonce nLeaves) i) =
    (nonce.toList.drop (i.val * 4)).take 4 := by
  rw [sent, readNonceWord_eq, ← List.drop_drop, params_nonce]
  refine bytes4_word4 ?_
  rw [List.length_take, List.length_drop, Vector.length_toList]
  omega

theorem input_length : input.toList.length = 81 := Vector.length_toList

/-- The 20 words of whole input bytes. -/
theorem inputWords_bytes : (inputWords (sent input nonce nLeaves)).toList.flatMap bytes4 =
    input.toList.take 80 := by
  have hlen : (input.toList.take 80).length = 20 * 4 := by simp
  have hinput := input_length input
  have hword : (fun i : Fin 20 => readInputWord (sent input nonce nLeaves) ⟨i.val, by omega⟩) =
      fun i : Fin 20 => word4 (((input.toList.take 80).drop (i.val * 4)).take 4) := by
    funext i
    have hi := i.isLt
    have hdrop : i.val * 4 ≤ input.toList.length := by omega
    have htake : 4 ≤ (input.toList.drop (i.val * 4)).length := by
      rw [List.length_drop]
      omega
    rw [sent_input, List.drop_append_of_le_length hdrop, List.take_append_of_le_length htake,
      List.drop_take, List.take_take, Nat.min_eq_left (by omega)]
  rw [inputWords, Vector.toList_ofFn, hword,
    flatMap_ofFn 20 (fun i => word4 (((input.toList.take 80).drop (i * 4)).take 4)) bytes4,
    flatMap_word4 hlen]

/-- The last input byte, alone in its word. -/
theorem inputTail_bytes : (bytes4 (readInputWord (sent input nonce nLeaves) 20)).take 1 =
    input.toList.drop 80 := by
  have hinput := input_length input
  have hlast : (input.toList.drop 80).length = 1 := by rw [List.length_drop, hinput]
  have hdrop : (input.toList ++ List.replicate 15 0).drop 80 =
      input.toList.drop 80 ++ List.replicate 15 0 := List.drop_append_of_le_length (by omega)
  have hword := sent_input input nonce nLeaves 20
  rw [show ((20 : Fin 24).val * 4) = 80 from rfl, hdrop] at hword
  rw [hword, bytes4_word4 (by simp), List.take_take, show min 1 4 = 1 from rfl,
    List.take_left' hlast]

/-- ASSEMBLY: the shifted words are the bytes of input, nonce, index and padding. -/
theorem messageWords_bytes :
    (messageWords (sent input nonce nLeaves) callIdx).toList.flatMap bytes4 =
      ShaderRef.blockBytes input nonce callIdx := by
  have hjoin : ∀ l r : List UInt8, l.take 3 ++ (l.drop 3 ++ r) = l ++ r := fun l r => by
    rw [← List.append_assoc, List.take_append_drop]
  have hinput : ∀ r, input.toList.take 80 ++ (input.toList.drop 80 ++ r) = input.toList ++ r :=
    fun r => by rw [← List.append_assoc, List.take_append_drop]
  have hnonce := @flatMap_slices _ 4 8 nonce.toList (by simp)
  simp only [List.range_succ_eq_map, List.range_zero, List.map_cons, List.map_nil,
    List.flatMap_cons, List.flatMap_nil, List.append_nil] at hnonce
  rw [messageWords, Vector.toList_append, List.flatMap_append, inputWords_bytes]
  simp only [Vector.toList_mk, List.flatMap_cons, List.flatMap_nil, List.append_nil, bytes4_mask,
    bytes4_funnel, bytes4_shift, List.append_assoc, hjoin, inputTail_bytes]
  simp only [sent_nonce, hinput, ShaderRef.blockBytes]
  conv_rhs => rw [← hnonce]
  simp only [List.append_assoc]
  rfl

theorem ops_eq : ops = ShaderRef.pairOps := by
  have hadd : u64Add = ShaderRef.u64Add := by
    funext a b
    simp [u64Add, ShaderRef.u64Add, select]
  rw [ops, ShaderRef.pairOps, hadd]
  rfl

theorem sent_cfg :
    (sent input nonce nLeaves).cfg.x = 60 ∧ (sent input nonce nLeaves).cfg.y = nLeaves :=
  ⟨rfl, word4_bytes4 nLeaves⟩

theorem initialState_eq :
    initialState (sent input nonce nLeaves) = ShaderRef.initialState ShaderRef.personal 60 := by
  rw [← Vector.toList_inj]
  rfl

/-- The first 60 bytes of a thread's words are the port's digest. -/
theorem digestWords_bytes :
    ((digestWords (sent input nonce nLeaves) callIdx).flatMap bytes4).take 60 =
      ShaderRef.kernelDigest ShaderRef.personal 60 input nonce callIdx := by
  have hblock : (Vector.ofFn fun i : Fin 16 =>
      ((messageWords (sent input nonce nLeaves) callIdx)[i.val * 2],
        (messageWords (sent input nonce nLeaves) callIdx)[i.val * 2 + 1])) =
      ShaderRef.blockWords (ShaderRef.blockBytes input nonce callIdx) := by
    have hword : ∀ j (hj : j < 32), (messageWords (sent input nonce nLeaves) callIdx)[j] =
        word4 (((ShaderRef.blockBytes input nonce callIdx).drop (j * 4)).take 4) := by
      intro j hj
      have hget := flatMap_block (fun w _ => bytes4_length w) j
        (by rwa [Vector.length_toList] :
          j < (messageWords (sent input nonce nLeaves) callIdx).toList.length)
      rw [messageWords_bytes] at hget
      rw [hget, word4_bytes4, Vector.getElem_toList]
    refine Vector.ext fun i hi => ?_
    rw [ShaderRef.blockWords, Vector.getElem_ofFn, Vector.getElem_ofFn]
    dsimp only
    rw [hword _ (by omega), hword _ (by omega), show i * 2 * 4 = i * 8 by omega,
      show (i * 2 + 1) * 4 = i * 8 + 4 by omega]
  have hcompress : ∀ h block t f, compress h block t f = ShaderRef.compress h block t f := by
    intro h block t f
    rw [compress, ops_eq]
    rfl
  have hpairs : ∀ hs : List U64, (hs.flatMap fun x => [x.1, x.2]).flatMap bytes4 =
      hs.flatMap fun w => bytes4 w.1 ++ bytes4 w.2 := by
    intro hs
    rw [List.flatMap_assoc]
    simp
  rw [digestWords, hpairs, hblock, initialState_eq, hcompress]
  rfl

/-! ### Threads -/

/-- The three words of a leaf. -/
def leafStores (p : Params) (i : ℕ) : List (ℕ × UInt32) :=
  (List.range 3).map fun j =>
    (i * 3 + j, (digestWords p (UInt32.ofNat (i / 5))).getD (i % 5 * 3 + j) 0)

theorem leafStores_cells (p : Params) (i : ℕ) :
    (leafStores p i).map (·.1) = (List.range 3).map (i * 3 + ·) := by
  rw [leafStores, List.map_map]
  rfl

/-- A thread stores the leaves of its call, as long as five times its id fits a word. -/
theorem main_eq (hn : nLeaves.toNat ≤ 2 ^ 17) {g : ℕ} (hg : 5 * g < 2 ^ 32) :
    main (sent input nonce nLeaves) (UInt32.ofNat g) =
      ((List.range 5).takeWhile fun k => decide (g * 5 + k < nLeaves.toNat)).flatMap fun k =>
        leafStores (sent input nonce nLeaves) (g * 5 + k) := by
  have hfirst := firstLeaf_toNat hg
  unfold main
  dsimp only
  rw [(sent_cfg input nonce nLeaves).2]
  by_cases hge : UInt32.ofNat g * 5 ≥ nLeaves
  · have hge' := UInt32.le_iff_toNat_le.mp hge
    rw [hfirst] at hge'
    rw [if_pos hge, no_leaves hge']
    rfl
  · have hlt : g * 5 < nLeaves.toNat := by
      rw [← hfirst]
      exact UInt32.lt_iff_toNat_lt.mp (UInt32.not_le.mp hge)
    rw [if_neg hge, takeWhile_leaves hn hfirst hlt]
    refine List.flatMap_congr fun k hk => ?_
    have hk5 := List.mem_range.mp (List.takeWhile_subset _ hk)
    have hleaf := leaf_toNat hn hfirst hlt hk5
    have hdiv : (g * 5 + k) / 5 = g := by omega
    have hmod : (g * 5 + k) % 5 = k := by omega
    have haddr : ∀ j < 3, ((UInt32.ofNat g * 5 + UInt32.ofNat k) * 3 + UInt32.ofNat j).toNat =
        (g * 5 + k) * 3 + j := fun j hj =>
      cell_toNat hleaf (by omega) (by decide) hj
    rw [leafStores, hdiv, hmod]
    simp only [List.range_succ_eq_map, List.range_zero, List.map_cons, List.map_nil]
    refine congrArg₂ List.cons (congrArg₂ Prod.mk (haddr 0 (by decide)) rfl) ?_
    refine congrArg₂ List.cons (congrArg₂ Prod.mk (haddr 1 (by decide)) rfl) ?_
    exact congrArg₂ List.cons (congrArg₂ Prod.mk (haddr 2 (by decide)) rfl) rfl

theorem digestWords_length (p : Params) : (digestWords p callIdx).length = 16 := by
  simp [digestWords]

/-- The words of a leaf have the port's bytes. -/
theorem leafStores_bytes (i : ℕ) :
    (leafStores (sent input nonce nLeaves) i).flatMap (fun s => bytes4 s.2) =
      ShaderRef.leafAt input nonce i := by
  have hi : i % 5 < 5 := Nat.mod_lt _ (by decide)
  have hlen := digestWords_length (UInt32.ofNat (i / 5)) (sent input nonce nLeaves)
  have hblocks := @flatMap_blocks _ _ bytes4 4
    (digestWords (sent input nonce nLeaves) (UInt32.ofNat (i / 5))) (fun w _ => bytes4_length w)
    (i % 5 * 3) 3
  rw [leafStores, List.flatMap_map, ← List.flatMap_map (fun j =>
    (digestWords (sent input nonce nLeaves) (UInt32.ofNat (i / 5))).getD (i % 5 * 3 + j) 0) bytes4,
    map_getD_range 0 (by omega), ← hblocks, ShaderRef.leafAt, ← digestWords_bytes input nonce nLeaves,
    List.drop_take, List.take_take, Nat.mul_assoc, Nat.min_eq_left (by omega)]

/-- WGSL: the stores of a dispatch are the leaves of the table. -/
theorem dispatch_leaves {wgSize : UInt32} (hn : nLeaves.toNat ≤ 2 ^ 17) (hwg : 0 < wgSize.toNat)
    (hids : 5 * (GpuLeafGen.threads nLeaves.toNat wgSize.toNat - 1) < 2 ^ 32) :
    dispatch input nonce nLeaves wgSize =
      (List.range nLeaves.toNat).flatMap (leafStores (sent input nonce nLeaves)) := by
  have hgroups := workgroups_toNat hn hwg hids
  rw [dispatch, params_bytes]
  refine dispatch_eq _ ?_ fun g hg => main_eq input nonce nLeaves hn ?_
  · rw [hgroups]
    have hcover : (nLeaves.toNat + 4) / 5 ≤ GpuLeafGen.threads nLeaves.toNat wgSize.toNat :=
      le_roundUp hwg
    omega
  · rw [hgroups] at hg
    omega

end Wgsl

/-! ### CUDA -/

namespace Cuda

/-- The first bytes, each ORed in above the last. -/
def orBytes (p : List UInt8) (k : ℕ) : UInt64 :=
  (List.range k).foldl (fun x j => x ||| ((p.getD j 0).toUInt64 <<< UInt64.ofNat (8 * j))) 0

theorem orBytes_toNat {p : List UInt8} {k : ℕ} (hk : k ≤ 8) (hp : k ≤ p.length) :
    (orBytes p k).toNat = ofLe (p.take k) := by
  induction k with
  | zero => rfl
  | succ k ih =>
    have ih := ih (by omega) (by omega)
    have hlen : (p.take k).length = k := by
      rw [List.length_take]
      omega
    have hlt := ofLe_lt (p.take k)
    have hpow : 256 ^ k = 2 ^ (8 * k) := (Nat.pow_mul 2 8 k).symm
    have hshift : (UInt64.ofNat (8 * k)).toNat = 8 * k :=
      UInt64.toNat_ofNat_of_lt' (by change 8 * k < 2 ^ 64; omega)
    rw [hlen, hpow, ← ih] at hlt
    have hbyte := or_byte (p.getD k 0) hshift (by omega) hlt
    rw [orBytes, List.range_succ, List.foldl_append, List.foldl_cons, List.foldl_nil, ← orBytes,
      hbyte, ih, List.take_add_one, ofLe_append, hlen, hpow, Nat.add_comm,
      List.getElem?_eq_getElem (by omega), List.getD_eq_getElem _ _ (by omega)]
    simp [ofLe]

/-- Eight bytes ORed together are the word with these bytes. -/
theorem packLe_eq {p : List UInt8} (h : 8 ≤ p.length) : packLe p = word8 (p.take 8) := by
  have hpack : packLe p = orBytes p 8 := by
    simp [packLe, orBytes, List.range_succ]
  rw [hpack, word8, ← orBytes_toNat le_rfl h, UInt64.ofNat_toNat]

/-- Two shifts and an OR rotate. -/
theorem ops_hom : ops.Hom Blake2b.wordOps id where
  add _ _ := rfl
  xor _ _ := rfl
  rotr a n hn := by
    have hrange : ∀ n ∈ Blake2b.rotations, n < 64 ∧ 64 - n < 64 := by decide
    obtain ⟨hn, hn'⟩ := hrange n hn
    have hmod : ∀ m < 64, ((UInt64.ofNat m).toBitVec % 64).toNat = m := by
      intro m hm
      have h64 : (UInt64.ofNat m).toNat = m :=
        UInt64.toNat_ofNat_of_lt' (by change m < 2 ^ 64; omega)
      rw [BitVec.toNat_umod, UInt64.toNat_toBitVec, h64]
      exact Nat.mod_eq_of_lt hm
    refine UInt64.toBitVec_inj.mp ?_
    change (a >>> UInt64.ofNat n ||| a <<< UInt64.ofNat (64 - n)).toBitVec = a.toBitVec.rotateRight n
    rw [UInt64.toBitVec_or, UInt64.toBitVec_shiftRight, UInt64.toBitVec_shiftLeft,
      BitVec.ushiftRight_eq', BitVec.shiftLeft_eq', hmod n hn, hmod _ hn', BitVec.rotateRight_def,
      Nat.mod_eq_of_lt hn]

/-- The kernel's compression is that of the last block. -/
theorem compress_eq (h : Vector UInt64 8) (m : Vector UInt64 16) {t : ℕ} (ht : t < 2 ^ 64) :
    compress h m (UInt64.ofNat t) = Blake2b.F h m t true := by
  have hrounds : ∀ v, Blake2b.rounds ops m ShaderRef.sigma v =
      Blake2b.rounds Blake2b.wordOps m Blake2b.schedule v := by
    intro v
    have hmap := Blake2b.rounds_map ops_hom m ShaderRef.sigma v
    rwa [Vector.map_id, Vector.map_id, Vector.map_id, ShaderRef.sigma_eq] at hmap
  have hfinish : ∀ v : Vector UInt64 16, Vector.zipWith (· ^^^ ·) h
      (Vector.zipWith (· ^^^ ·) (v.take 8) (v.drop 8)) = Blake2b.finish Blake2b.wordOps h v := by
    intro v
    refine Vector.ext fun i hi => ?_
    have hlow : (v.take 8)[i] = v[i] := Vector.getElem_take _
    have hhigh : (v.drop 8)[i] = v[8 + i] := Vector.getElem_drop _
    rw [Blake2b.finish, Vector.getElem_ofFn, Vector.getElem_zipWith, Vector.getElem_zipWith]
    simp only [hlow, hhigh, Nat.add_comm 8]
    exact (UInt64.xor_assoc _ _ _).symm
  rw [compress, Blake2b.F_last _ _ ht, hrounds]
  exact hfinish _

variable (callIdx : UInt32)

theorem messageBytes_eq : messageBytes (CudaLeafGen.params input nonce nLeaves) callIdx =
    ShaderRef.blockBytes input nonce callIdx := by
  have hinput : ((CudaLeafGen.params input nonce nLeaves).drop 32).take 81 = input.toList := by
    rw [params_tail, List.append_assoc, List.take_left' Vector.length_toList]
  have hbyte : ∀ x : UInt32, (x &&& 0xFF).toUInt8 = UInt8.ofNat x.toNat := by
    intro x
    refine UInt8.toNat_inj.mp ?_
    rw [UInt32.toNat_toUInt8, UInt32.toNat_and, UInt8.toNat_ofNat']
    exact (congrArg (· % 2 ^ 8) (Nat.and_two_pow_sub_one_eq_mod x.toNat 8)).trans (Nat.mod_mod _ _)
  have hshift : ∀ s < 32, (callIdx >>> UInt32.ofNat s).toNat = callIdx.toNat / 2 ^ s := by
    intro s hs
    have hs' : (UInt32.ofNat s).toNat = s :=
      UInt32.toNat_ofNat_of_lt' (by change s < 2 ^ 32; omega)
    rw [UInt32.toNat_shiftRight, hs', Nat.mod_eq_of_lt hs, Nat.shiftRight_eq_div_pow]
  have hidx : [(callIdx &&& 0xFF).toUInt8, ((callIdx >>> 8) &&& 0xFF).toUInt8,
      ((callIdx >>> 16) &&& 0xFF).toUInt8, ((callIdx >>> 24) &&& 0xFF).toUInt8] =
      bytes4 callIdx := by
    have h8 : (callIdx >>> 8).toNat = callIdx.toNat / 2 ^ 8 := hshift 8 (by decide)
    have h16 : (callIdx >>> 16).toNat = callIdx.toNat / 2 ^ 16 := hshift 16 (by decide)
    have h24 : (callIdx >>> 24).toNat = callIdx.toNat / 2 ^ 24 := hshift 24 (by decide)
    simp only [hbyte, h8, h16, h24, bytes4, leBytes, Nat.div_div_eq_div_mul]
    rfl
  rw [messageBytes, hinput, params_nonce, hidx, List.take_of_length_le (by simp)]
  rfl

theorem initial_eq : Blake2b.modify (Blake2b.modify (Blake2b.modify Blake2b.iv 0
      (· ^^^ ((60 : UInt64) ||| ((1 : UInt64) <<< 16) ||| ((1 : UInt64) <<< 24)))) 6
      (· ^^^ packLe CudaLeafGen.personal)) 7 (· ^^^ packLe (CudaLeafGen.personal.drop 8)) =
    Blake2b.initial 60 ShaderRef.personal.toList := by
  rw [← Vector.toList_inj, Blake2b.initial, Vector.toList_zipWith, Blake2b.words8,
    Vector.toList_ofFn]
  decide

/-- The state after the kernel's compression is BLAKE2b's. -/
theorem state_eq : state (CudaLeafGen.params input nonce nLeaves) callIdx =
    Blake2b.F (Blake2b.initial 60 ShaderRef.personal.toList)
      (Blake2b.words8 16 (ShaderRef.blockBytes input nonce callIdx)) 117 true := by
  have hlen := ShaderRef.blockBytes_length input nonce callIdx
  have hm : (Vector.ofFn fun i : Fin 16 =>
      packLe ((ShaderRef.blockBytes input nonce callIdx).drop (i.val * 8))) =
      Blake2b.words8 16 (ShaderRef.blockBytes input nonce callIdx) := by
    refine Vector.ext fun i hi => ?_
    rw [Blake2b.words8, Vector.getElem_ofFn, Vector.getElem_ofFn, packLe_eq ?_, Nat.mul_comm]
    rw [List.length_drop, hlen]
    simp only
    omega
  have hlo : packLe (CudaLeafGen.params input nonce nLeaves) = packLe CudaLeafGen.personal := rfl
  have hhi : packLe ((CudaLeafGen.params input nonce nLeaves).drop 8) =
      packLe (CudaLeafGen.personal.drop 8) := rfl
  rw [state, messageBytes_eq, hm]
  simp only [hlo, hhi, initial_eq]
  exact @compress_eq _ _ 117 (by decide)

/-- The bytes of the state are the port's digest. -/
theorem state_bytes : ((state (CudaLeafGen.params input nonce nLeaves) callIdx).toList.flatMap
    bytes8).take 60 = ShaderRef.kernelDigest ShaderRef.personal 60 input nonce callIdx := by
  have hlen : (input.toList ++ nonce.toList ++ bytes4 callIdx).length = 117 := by simp
  rw [ShaderRef.kernelDigest_eq, Blake2b.digest_short 60 _ (by omega), hlen, state_eq]
  rfl

/-- A byte of a string of words. -/
theorem stateByte_eq (h : List UInt64) {i : ℕ} (hi : i < h.length * 8) :
    ((h.getD (i / 8) 0 >>> UInt64.ofNat (i % 8 * 8)) &&& 0xFF).toUInt8 =
      (h.flatMap bytes8).getD i 0 := by
  have hdiv := Nat.div_add_mod' i 8
  have hmod : i % 8 < 8 := Nat.mod_lt _ (by decide)
  have hq : i / 8 < h.length := by omega
  have hblock := flatMap_block (fun w _ => bytes8_length w) (i / 8) hq
  have hi' : i < (h.flatMap bytes8).length := by
    rw [List.length_flatMap, List.map_congr_left fun w _ => bytes8_length w, List.map_const',
      List.sum_replicate]
    exact hi
  rw [byte_shift _ hmod, List.getD_eq_getElem _ _ hq, ← hblock, List.getD_eq_getElem _ _ hi',
    List.getD_eq_getElem?_getD, List.getElem?_take_of_lt hmod, List.getElem?_drop, hdiv,
    List.getElem?_eq_getElem hi', Option.getD_some]

/-- The twelve bytes of a leaf. -/
def leafStores (params : List UInt8) (i : ℕ) : List (ℕ × UInt8) :=
  (List.range 12).map fun b => (i * 12 + b,
    ((state params (UInt32.ofNat (i / 5))).toList.flatMap bytes8).getD (i % 5 * 12 + b) 0)

theorem leafStores_cells (params : List UInt8) (i : ℕ) :
    (leafStores params i).map (·.1) = (List.range 12).map (i * 12 + ·) := by
  rw [leafStores, List.map_map]
  rfl

theorem leafStores_bytes (i : ℕ) :
    (leafStores (CudaLeafGen.params input nonce nLeaves) i).flatMap (fun s => [s.2]) =
      ShaderRef.leafAt input nonce i := by
  have hi : i % 5 < 5 := Nat.mod_lt _ (by decide)
  have hbytes := state_bytes input nonce nLeaves (UInt32.ofNat (i / 5))
  have hlen : ((state (CudaLeafGen.params input nonce nLeaves) (UInt32.ofNat (i / 5))).toList.flatMap
      bytes8).length = 64 := by
    rw [List.length_flatMap, List.map_congr_left fun w _ => bytes8_length w, List.map_const',
      List.sum_replicate, Vector.length_toList]
    rfl
  rw [ShaderRef.leafAt, ← hbytes, List.drop_take, List.take_take, Nat.min_eq_left (by omega),
    ← map_getD_range 0 (by omega), leafStores, List.flatMap_map, List.map_eq_flatMap]

/-- A thread stores the leaves of its call. -/
theorem leavesKernel_eq (hn : nLeaves.toNat ≤ 2 ^ 17) {g : ℕ} (hg : g < 2 ^ 32) :
    leavesKernel (CudaLeafGen.params input nonce nLeaves) nLeaves (UInt32.ofNat g) =
      ((List.range 5).takeWhile fun k => decide (g * 5 + k < nLeaves.toNat)).flatMap fun k =>
        leafStores (CudaLeafGen.params input nonce nLeaves) (g * 5 + k) := by
  have hid : (UInt32.ofNat g).toNat = g := UInt32.toNat_ofNat_of_lt' hg
  have hcalls : ((nLeaves + 5 - 1) / 5).toNat = (nLeaves.toNat + 4) / 5 := nCalls_toNat hn
  unfold leavesKernel
  dsimp only
  by_cases hge : UInt32.ofNat g ≥ (nLeaves + 5 - 1) / 5
  · have hge' := UInt32.le_iff_toNat_le.mp hge
    rw [hcalls, hid] at hge'
    rw [if_pos hge, no_leaves (by omega)]
    rfl
  · have hlt := UInt32.lt_iff_toNat_lt.mp (UInt32.not_le.mp hge)
    rw [hcalls, hid] at hlt
    have hlt' : g * 5 < nLeaves.toNat := by omega
    have hfirst : (UInt32.ofNat g * 5).toNat = g * 5 := firstLeaf_toNat (by omega)
    rw [if_neg hge, takeWhile_leaves hn hfirst hlt']
    refine List.flatMap_congr fun k hk => List.map_congr_left fun b hb => ?_
    have hk5 := List.mem_range.mp (List.takeWhile_subset _ hk)
    have hb12 := List.mem_range.mp hb
    have hleaf := leaf_toNat hn hfirst hlt' hk5
    have hdiv : (g * 5 + k) / 5 = g := by omega
    have hmod : (g * 5 + k) % 5 = k := by omega
    have haddr : ((UInt32.ofNat g * 5 + UInt32.ofNat k) * 12 + UInt32.ofNat b).toNat =
        (g * 5 + k) * 12 + b := cell_toNat hleaf (by omega) (by decide) hb12
    rw [haddr, hdiv, hmod, stateByte_eq _ (by rw [Vector.length_toList]; omega)]

/-- CUDA: the stores of a launch are the leaves of the table. -/
theorem launch_leaves (hn : nLeaves.toNat ≤ 2 ^ 17) {block : UInt32} (hblock : 0 < block.toNat) :
    launch input nonce nLeaves (GpuLeafGen.groups nLeaves.toNat block.toNat) block.toNat =
      (List.range nLeaves.toNat).flatMap
        (leafStores (CudaLeafGen.params input nonce nLeaves)) := by
  have hcover : (nLeaves.toNat + 4) / 5 ≤
      GpuLeafGen.groups nLeaves.toNat block.toNat * block.toNat := le_roundUp hblock
  refine dispatch_eq _ (by omega) fun g hg => ?_
  exact leavesKernel_eq input nonce nLeaves hn (hg.trans (threads_lt _ hn hblock))

/-- The host launches blocks of 256 threads. -/
theorem generate_eq (hn : nLeaves.toNat ≤ 2 ^ 17) : generate input nonce nLeaves =
    launch input nonce nLeaves (GpuLeafGen.groups nLeaves.toNat 256) 256 := by
  have hcalls := nCalls_toNat hn
  have hgrid : (CudaLeafGen.gridDim nLeaves).toNat = GpuLeafGen.groups nLeaves.toNat 256 := by
    unfold CudaLeafGen.gridDim GpuLeafGen.groups
    dsimp only
    rw [roundUp_toNat (by decide), hcalls]
    · rfl
    · rw [hcalls]
      change _ + 256 ≤ 2 ^ 32
      omega
  rw [generate, hgrid]
  rfl

end Cuda

/-! ### The kernels against the port -/

/-- KERNELS: unless five times a thread id leaves 32 bits, every order of the shader's stores fills
    the words of the table once each with the port's bytes; so does, with blocks of any size, every
    order of the CUDA kernel's; and the message words are the bytes of the message. -/
theorem leaf_kernels (wgSize : UInt32) (hn : nLeaves.toNat ≤ 2 ^ 17) (hwg : 0 < wgSize.toNat) :
    (5 * (GpuLeafGen.threads nLeaves.toNat wgSize.toNat - 1) < 2 ^ 32 →
      ∀ ws, ws.Perm (Wgsl.dispatch input nonce nLeaves wgSize) →
        Fills ws (3 * nLeaves.toNat) bytes4 (ShaderRef.leaves input nonce nLeaves)) ∧
    (∀ ws, ws.Perm (Cuda.launch input nonce nLeaves
        (GpuLeafGen.groups nLeaves.toNat wgSize.toNat) wgSize.toNat) →
      Fills ws (12 * nLeaves.toNat) (fun b => [b]) (ShaderRef.leaves input nonce nLeaves)) ∧
    Cuda.generate input nonce nLeaves =
      Cuda.launch input nonce nLeaves (GpuLeafGen.groups nLeaves.toNat 256) 256 ∧
    ∀ callIdx, (Wgsl.messageWords
        (Wgsl.Params.ofBlock (GpuLeafGen.params input nonce nLeaves).bytes) callIdx).toList.flatMap
          bytes4 =
      input.toList ++ nonce.toList ++ leBytes 4 callIdx.toNat ++ List.replicate 11 0 := by
  refine ⟨fun hids ws hp => ?_, fun ws hp => ?_, Cuda.generate_eq input nonce nLeaves hn,
    fun callIdx => ?_⟩
  · rw [Wgsl.dispatch_leaves input nonce nLeaves hn hwg hids] at hp
    exact table_any_order input nonce nLeaves bytes4 (Wgsl.leafStores_cells _)
      (Wgsl.leafStores_bytes input nonce nLeaves) hp
  · rw [Cuda.launch_leaves input nonce nLeaves hn hwg] at hp
    exact table_any_order input nonce nLeaves (fun b => [b]) (Cuda.leafStores_cells _)
      (Cuda.leafStores_bytes input nonce nLeaves) hp
  · rw [params_bytes]
    exact Wgsl.messageWords_bytes input nonce nLeaves callIdx

/-- Seven leaves on the first vendor's cards: the second call stores two of its five. -/
theorem leaf_kernels_demo :
    Fills (Wgsl.dispatch (Vector.replicate iLen 1) (Vector.replicate 32 2) 7
      (GpuLeafGen.pickWorkgroupSize 0x10de)) 21 bytes4
      (ShaderRef.leaves (Vector.replicate iLen 1) (Vector.replicate 32 2) 7) :=
  (leaf_kernels (Vector.replicate iLen 1) (Vector.replicate 32 2) 7 _ (by decide)
    (@picked_ids 0x10de 7 (by decide)).1).1 (@picked_ids 0x10de 7 (by decide)).2 _
    (List.Perm.refl _)

/-- In one workgroup of `2^30` threads, `call_idx * 5u` wraps to 4 for thread 858993460, which stores
    leaf 4 again. -/
theorem surplus_thread_wraps : ¬ ∀ (input : Vector UInt8 iLen) (nonce : Bytes32)
    (nLeaves wgSize : UInt32), nLeaves.toNat ≤ 2 ^ 17 → 0 < wgSize.toNat →
    ∀ ws, ws.Perm (Wgsl.dispatch input nonce nLeaves wgSize) →
      Fills ws (3 * nLeaves.toNat) bytes4 (ShaderRef.leaves input nonce nLeaves) := by
  intro h
  have hfills := h (Vector.replicate iLen 0) (Vector.replicate 32 0) 5 1073741824 (by decide)
    (by decide) _ (List.Perm.refl _)
  have hone := hfills.1 12
  have hthreads : (GpuLeafGen.workgroups 5 1073741824).toNat * (1073741824 : UInt32).toNat =
      858993460 + 214748364 := by decide
  have hcell : ∀ g : UInt32, g = 0 ∨ g = 858993460 →
      12 ∈ (Wgsl.main (Wgsl.Params.ofBlock (GpuLeafGen.params (Vector.replicate iLen 0)
        (Vector.replicate 32 0) 5).bytes) g).map (·.1) := by
    rintro g (rfl | rfl)
    · rw [params_bytes]
      decide
    · rw [params_bytes]
      decide
  rw [Wgsl.dispatch, globalIds, hthreads, List.range_add, List.map_append, List.flatMap_append,
    storeCount_append, if_pos (by decide)] at hone
  have hfirst : 0 < storeCount (((List.range 858993460).map UInt32.ofNat).flatMap (Wgsl.main
      (Wgsl.Params.ofBlock (GpuLeafGen.params (Vector.replicate iLen 0) (Vector.replicate 32 0)
        5).bytes))) 12 := by
    rw [storeCount_pos, List.map_flatMap, List.mem_flatMap]
    refine ⟨0, List.mem_map.mpr ⟨0, List.mem_range.mpr (by decide), rfl⟩, hcell 0 (Or.inl rfl)⟩
  have hlast : 0 < storeCount ((((List.range 214748364).map (858993460 + ·)).map
      UInt32.ofNat).flatMap (Wgsl.main (Wgsl.Params.ofBlock (GpuLeafGen.params
        (Vector.replicate iLen 0) (Vector.replicate 32 0) 5).bytes))) 12 := by
    rw [storeCount_pos, List.map_flatMap, List.mem_flatMap]
    refine ⟨858993460, List.mem_map.mpr ⟨858993460, List.mem_map.mpr ⟨0, ?_, rfl⟩, rfl⟩,
      hcell _ (Or.inr rfl)⟩
    exact List.mem_range.mpr (by decide)
  omega

end Equium.Gpu
