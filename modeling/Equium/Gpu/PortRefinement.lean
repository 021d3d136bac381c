import Equium.Gpu.LeafRefinement
import Equium.Gpu.Ports
import Equium.Gpu.Refinement

/-! @src clients/gpu-miner/cuda/rounds.cu, clients/gpu-miner/src/cuda_wagner.rs,
    clients/website/src/lib/webgpu-wagner.ts | name:Port refinement |
    scheme:induction on the rounds left

    The kernels of the ports are those of `rounds.wgsl`, and their hosts take the steps of `runNonce`
    (`Port.Lawful.runNonce`), on leaves their own kernels stored. So they refine the CPU rounds. -/

namespace Equium.Gpu
open Schemes Solver Equium.Core

/-! ### The kernels agree -/

namespace Cuda

theorem emitRow_eq (p : Params) (rowsIn : Buffer) (i j outIdx : ℕ) (out : Buffer) :
    emitRow p.indicesCountIn rowsIn (rowPtr i) (rowPtr j) (rowPtr outIdx) out =
      Gpu.emitRow p rowsIn i j outIdx out := by
  have haddr : ∀ k, rowPtr outIdx + hashWords + (p.indicesCountIn + k) =
      outIdx * rowWords + hashWords + p.indicesCountIn + k := fun k => (Nat.add_assoc _ _ _).symm
  have hless : (rowsIn.word (rowPtr i + hashWords + 0) < rowsIn.word (rowPtr j + hashWords + 0)) =
      (readIndexIn rowsIn i 0 < readIndexIn rowsIn j 0) := rfl
  unfold emitRow Gpu.emitRow
  simp only [haddr, hless]
  split_ifs
  · rfl
  · rfl

theorem pairEmit_eq : pairEmit = Gpu.pairEmit := by
  funext p rowsIn bk st i
  unfold pairEmit Gpu.pairEmit
  simp only [emitRow_eq]
  rfl

end Cuda

theorem cudaKernels_eq : cudaKernels = wgslKernels := by
  rw [cudaKernels, wgslKernels, Cuda.pairEmit_eq]
  rfl

/-! ### The readback -/

/-- The word at a place of the copy. -/
theorem rowBytes_word (b : Buffer) {count a : ℕ} (ha : a < count * rowWords) :
    ((rowBytes b count).drop (a * 4)).take 4 = bytes4 (b.word a) := by
  rw [rowBytes, flatMap_block (fun j _ => bytes4_length _) a (by simpa using ha)]
  simp

/-- Both ways of reading a word of the copy. -/
theorem joinBytes_eq {data : List UInt8} {off : ℕ} (h : off + 4 ≤ data.length) :
    joinBytes data off = fromLeBytes data off := by
  have hget : ∀ i < 4, ((data.drop off).take 4).getD i 0 = data.getD (off + i) 0 := by
    intro i hi
    simp [List.getD_eq_getElem?_getD, hi]
  have hlen : ((data.drop off).take 4).length = 4 := by
    simp
    omega
  rw [fromLeBytes, joinBytes]
  simp only [← hget 0 (by decide), ← hget 1 (by decide), ← hget 2 (by decide),
    ← hget 3 (by decide)]
  generalize (data.drop off).take 4 = bs at hlen
  obtain ⟨a, b, c, d, rfl⟩ : ∃ a b c d, bs = [a, b, c, d] := by
    rcases bs with - | ⟨a, - | ⟨b, - | ⟨c, - | ⟨d, - | ⟨e, rest⟩⟩⟩⟩⟩ <;> simp_all
  exact or_bytes4 a b c d

/-- A port whose words are the little-endian ones and whose kernels are those of `rounds.wgsl`. -/
structure Port.Lawful (port : Port) : Prop where
  kernels : port.kernels = wgslKernels
  word : ∀ data off, off + 4 ≤ data.length → port.word data off = fromLeBytes data off

theorem gpuWagner_lawful : gpuWagner.Lawful := ⟨rfl, fun _ _ _ => rfl⟩

theorem cudaWagner_lawful : cudaWagner.Lawful := ⟨cudaKernels_eq, fun _ _ _ => rfl⟩

theorem webGpuWagner_lawful : webGpuWagner.Lawful := ⟨rfl, fun _ _ h => joinBytes_eq h⟩

variable {port : Port}

/-- Word `k` of the indices of a row that was copied. -/
theorem Port.Lawful.read (h : port.Lawful) (b : Buffer) {count i k : ℕ} (hi : i < count)
    (hk : k < 32) : port.word (rowBytes b count) (i * (rowWords * 4) + hashWords * 4 + k * 4) =
      b.word (i * rowWords + hashWords + k) := by
  have hoff : i * (rowWords * 4) + hashWords * 4 + k * 4 = (i * rowWords + hashWords + k) * 4 := by
    ring
  have hlt : i * rowWords + hashWords + k < count * rowWords := by
    have := Nat.mul_le_mul_right rowWords hi
    simp only [rowWords, hashWords] at this ⊢
    omega
  have hlen : (rowBytes b count).length = count * rowWords * 4 := by
    simp [rowBytes, List.length_flatMap]
  rw [hoff, h.word _ _ (by rw [hlen]; omega), fromLeBytes, rowBytes_word b hlt, word4_bytes4]

/-! ### The hosts agree -/

/-- Two runs of one nonce: the same passes, and the same candidates where there is an answer. -/
structure Agrees (run run' : NonceRun) : Prop where
  logs : run.logs = run'.logs
  scan : run.scan = run'.scan
  ok : ∀ cands, run.result = .ok cands ↔ run'.result = .ok cands

theorem Port.Lawful.round (h : port.Lawful) (sched : RoundSchedule) (p : Params)
    (rowsIn rowsOut : Buffer) (slots : ℕ → ℕ) :
    port.round sched p rowsIn rowsOut slots = runRound sched p rowsIn rowsOut slots := by
  rw [Port.round, h.kernels]
  rfl

/-- The early return without candidates changes nothing. -/
theorem early_return {α : Type*} {n : ℕ} {f g : ℕ → α} (h : ∀ i < n, f i = g i) :
    (if n = 0 then [] else (List.range n).map f) = (List.range n).map g := by
  split_ifs with hn
  · rw [hn]
    rfl
  · exact List.map_congr_left fun i hi => h i (List.mem_range.mp hi)

theorem Port.Lawful.solutions (h : port.Lawful) (sched : List ℕ) (nRows : ℕ)
    (rowsA rowsB : Buffer) :
    port.solutions sched nRows rowsA rowsB = finish sched nRows rowsB rowsA := by
  rw [Port.solutions, finish, h.kernels]
  refine congrArg (fun cands => NonceRun.mk [] _ (.ok cands)) (early_return fun i hi => ?_)
  exact List.map_congr_left fun k hk => h.read _ hi (List.mem_range.mp hk)

/-- The end of one round on both hosts: an empty answer, an error in either text, or the rest. -/
theorem Agrees.round {log : RoundLog} {rest rest' : NonceRun} (h : Agrees rest rest')
    (e e' : String) :
    Agrees
      (if log.pairs.outCount = 0 then ⟨[log], none, .ok []⟩
        else if log.pairs.outCount > maxRows then ⟨[log], none, .error e⟩
        else { rest with logs := log :: rest.logs })
      (if log.pairs.outCount = 0 then ⟨[log], none, .ok []⟩
        else if log.pairs.outCount > maxRows then ⟨[log], none, .error e'⟩
        else { rest' with logs := log :: rest'.logs }) := by
  split_ifs
  · exact ⟨rfl, rfl, fun _ => Iff.rfl⟩
  · exact ⟨rfl, rfl, fun _ => by simp⟩
  · exact ⟨congrArg (log :: ·) h.logs, h.scan, h.ok⟩

/-- Induction on the rounds left: by name and parity, or by swapping, the same buffer is read. -/
theorem Port.Lawful.rounds (h : port.Lawful) (S : Schedule) (remaining round n : ℕ)
    (rowsA rowsB : Buffer) (slots : ℕ → ℕ) (hr : round + remaining = 5) :
    Agrees (port.rounds S remaining round n rowsA rowsB slots)
      (if round % 2 = 0 then hostRounds S remaining round n rowsA rowsB slots
        else hostRounds S remaining round n rowsB rowsA slots) := by
  induction remaining generalizing round n rowsA rowsB slots with
  | zero =>
    obtain rfl : round = 5 := by omega
    rw [if_neg (by decide), Port.rounds, h.solutions]
    exact ⟨rfl, rfl, fun _ => Iff.rfl⟩
  | succ remaining ih =>
    have hparams : (⟨n, maxRows, 1 <<< round⟩ : Params) = ⟨n, maxRows, 2 ^ round⟩ := by
      rw [Nat.one_shiftLeft]
    rw [Port.rounds, hostRounds, hostRounds]
    simp only [h.round, hparams]
    have hnext := fun n a b sl => ih (round + 1) n a b sl (by omega)
    rcases Nat.even_or_odd' round with ⟨half, rfl | rfl⟩
    · have heven : 2 * half % 2 = 0 := by omega
      simp only [if_neg (show ¬ (2 * half + 1) % 2 = 0 by omega)] at hnext
      simp only [if_pos heven]
      exact (hnext _ _ _ _).round _ _
    · have hodd : ¬ (2 * half + 1) % 2 = 0 := by omega
      simp only [if_pos (show (2 * half + 1 + 1) % 2 = 0 by omega)] at hnext
      simp only [if_neg hodd]
      exact (hnext _ _ _ _).round _ _

/-- One nonce: the same leaves and device, the same run up to the text of an overflow. -/
theorem Port.Lawful.runNonce (h : port.Lawful) (S : Schedule) (leaves : ℕ → UInt32)
    (dev : Device) : Agrees (port.runNonce S leaves dev) (Gpu.runNonce S leaves dev) := by
  rw [Port.runNonce, h.kernels]
  exact h.rounds S 5 0 nLeaves _ dev.rowsB dev.slots rfl

theorem Port.Lawful.legal_iff (h : port.Lawful) {S : Schedule} {leaves : ℕ → UInt32}
    {dev : Device} : port.Legal S leaves dev ↔ S.Legal leaves dev := by
  have hrun := h.runNonce S leaves dev
  constructor
  · rintro ⟨hinit, hrounds, hscan⟩
    exact ⟨hinit, hrun.logs ▸ hrounds, hrun.scan ▸ hscan⟩
  · rintro ⟨hinit, hrounds, hscan⟩
    exact ⟨hinit, hrun.logs ▸ hrounds, hrun.scan ▸ hscan⟩

/-! ### The leaves agree -/

section
variable {input : Vector UInt8 iLen} {nonce : Bytes32}

/-- The leaf the solver has at an index. -/
def blakeLeaf (input : Vector UInt8 iLen) (nonce : Bytes32) (i : UInt32) : List UInt8 :=
  ShaderRef.leafAt input nonce i.toNat

theorem blakeLeaf_length (i : UInt32) : (blakeLeaf input nonce i).length = 12 :=
  ShaderRef.leafAt_length input nonce _

/-- Four bytes of the table are a word of a leaf. -/
theorem leaves_word {a : ℕ} (ha : a < 3 * nLeaves) :
    word4 (((ShaderRef.leaves input nonce (UInt32.ofNat nLeaves)).drop (a * 4)).take 4) =
      packLeaves (blakeLeaf input nonce) a := by
  have hi : a / 3 < nLeaves := by omega
  have hid : (UInt32.ofNat (a / 3)).toNat = a / 3 :=
    UInt32.toNat_ofNat_of_lt' (hi.trans (by decide))
  have hblock := @flatMap_block _ _ (ShaderRef.leafAt input nonce) 12 (List.range nLeaves)
    (fun i _ => ShaderRef.leafAt_length input nonce i) (a / 3) (by simpa using hi)
  have hoff : a * 4 = a / 3 * 12 + 4 * (a % 3) := by omega
  rw [packLeaves, blakeLeaf, hid, ShaderRef.leaves_eq,
    show (UInt32.ofNat nLeaves).toNat = nLeaves from rfl]
  rw [List.getElem_range] at hblock
  rw [← hblock, List.drop_take, List.take_take, List.drop_drop, hoff,
    Nat.min_eq_left (by omega)]

/-- The native dispatch, for any vendor's workgroups. -/
theorem Wgsl.picked_dispatch (vendor : UInt32) :
    Wgsl.dispatch input nonce (UInt32.ofNat nLeaves) (GpuLeafGen.pickWorkgroupSize vendor) =
      (List.range nLeaves).flatMap
        (Wgsl.leafStores (Wgsl.sent input nonce (UInt32.ofNat nLeaves))) := by
  have hn : (UInt32.ofNat nLeaves).toNat ≤ 2 ^ 17 := by decide
  obtain ⟨hsize, hids⟩ := picked_ids vendor hn
  exact Wgsl.dispatch_leaves input nonce _ hn hsize hids

/-- The browser's dispatch is the native one: no id of it wraps. -/
theorem WebGpu.leavesPass_eq (tag : List Char) :
    WebGpu.leavesPass input nonce (WebGpu.pickWorkgroupSize tag) = (List.range nLeaves).flatMap
      (Wgsl.leafStores (Wgsl.sent input nonce (UInt32.ofNat nLeaves))) := by
  have hn : (UInt32.ofNat nLeaves).toNat ≤ 2 ^ 17 := by decide
  have hsize : 0 < (WebGpu.pickWorkgroupSize tag).toNat ∧
      (WebGpu.pickWorkgroupSize tag).toNat ≤ 128 := by
    unfold WebGpu.pickWorkgroupSize
    split_ifs <;> decide
  have hids := small_ids hn hsize.1 hsize.2
  have hleaves := Wgsl.dispatch_leaves input nonce _ hn hsize.1 hids
  have hthreads := workgroups_toNat hn hsize.1 hids
  rw [Wgsl.dispatch, globalIds, hthreads, params_bytes] at hleaves
  exact hleaves

/-- The shader's stores, in any order, are the words of the leaves. -/
theorem Wgsl.stores_words {ws : List (ℕ × UInt32)} (hp : ws.Perm ((List.range nLeaves).flatMap
      (Wgsl.leafStores (Wgsl.sent input nonce (UInt32.ofNat nLeaves)))))
    (mem : ℕ → UInt32) {a : ℕ} (ha : a < 3 * nLeaves) :
    store mem ws a = packLeaves (blakeLeaf input nonce) a := by
  have hfills : Fills ws (3 * nLeaves) bytes4 _ := table_any_order input nonce
    (UInt32.ofNat nLeaves) bytes4 (Wgsl.leafStores_cells _) (Wgsl.leafStores_bytes input nonce _) hp
  have hword := @flatMap_block _ _ bytes4 4 ((List.range (3 * nLeaves)).map (store mem ws))
    (fun w _ => bytes4_length w) a (by simpa using ha)
  rw [hfills.2 mem, List.getElem_map, List.getElem_range] at hword
  rw [← leaves_word ha, hword, word4_bytes4]

/-- So are the bytes of the CUDA kernel. -/
theorem Cuda.leafWords_eq {ws : List (ℕ × UInt8)}
    (hp : ws.Perm (Cuda.generate input nonce (UInt32.ofNat nLeaves))) (mem : ℕ → UInt8) {a : ℕ}
    (ha : a < 3 * nLeaves) :
    Cuda.leafWords (store mem ws) a = packLeaves (blakeLeaf input nonce) a := by
  have hn : (UInt32.ofNat nLeaves).toNat ≤ 2 ^ 17 := by decide
  rw [Cuda.generate_eq input nonce _ hn,
    show 256 = (256 : UInt32).toNat from rfl, Cuda.launch_leaves input nonce _ hn (by decide)] at hp
  have hfills : Fills ws (12 * nLeaves) (fun b => [b]) _ := table_any_order input nonce
    (UInt32.ofNat nLeaves) (fun b => [b]) (Cuda.leafStores_cells _)
    (Cuda.leafStores_bytes input nonce _) hp
  have hbytes := hfills.2 mem
  rw [List.flatMap_singleton'] at hbytes
  have hslice : (((List.range (12 * nLeaves)).map (store mem ws)).drop (a * 4)).take 4 =
      (List.range 4).map fun d => store mem ws (a * 4 + d) := by
    refine List.ext_getElem ?_ fun d hd hd' => ?_
    · simp
      omega
    · simp
  rw [← leaves_word ha, ← hbytes, hslice, Cuda.leafWords]

/-- With a crate that runs BLAKE2b these are the leaves `try_nonce` hashes. -/
theorem nonceLeaf_eq {c : Crates} (hc : ImplementsBlake2b c) {base : BaseState}
    (hb : BaseState.new 96 5 input = .ok base) : nonceLeaf c base nonce = blakeLeaf input nonce := by
  funext i
  rw [baseState_new params96 hb]
  exact generateLeafHash_eq hc input nonce i

end

/-! ### The ports refine the CPU rounds -/

variable {leaf : UInt32 → List UInt8}

/-- A run that agrees is worth the same. -/
theorem Agrees.refines {run run' : NonceRun} (h : Agrees run run') (hr : run'.Refines leaf) :
    run.Refines leaf where
  rounds := h.logs ▸ hr.rounds
  scan := h.scan ▸ hr.scan
  sound := fun cands hres => hr.sound cands ((h.ok cands).mp hres)
  complete := fun hno => by
    obtain ⟨cands, hres, hp⟩ := hr.complete
      ⟨h.logs ▸ hno.buckets, h.logs ▸ hno.rows, h.scan ▸ hno.candidates⟩
    exact ⟨cands, (h.ok cands).mpr hres, hp⟩
  overflow := fun log hlog hc => by
    obtain ⟨e, he⟩ := hr.overflow log (h.logs ▸ hlog) hc
    -- an answer here would be an answer there
    cases hres : run.result with
    | error e' => exact ⟨e', rfl⟩
    | ok cands =>
      have := (h.ok cands).mp hres
      rw [he] at this
      cases this

/-- One nonce of the first host, from any buffer that holds the solver's leaves. -/
theorem runNonce_refines {c : Crates} (hc : ImplementsBlake2b c) {input : Vector UInt8 iLen}
    {base : BaseState} (hb : BaseState.new 96 5 input = .ok base) {nonce : Bytes32}
    {leaves : ℕ → UInt32}
    (hleaves : ∀ a < 3 * nLeaves, leaves a = packLeaves (blakeLeaf input nonce) a)
    {S : Schedule} {dev : Device} (hS : S.Legal leaves dev) :
    (runNonce S leaves dev).Refines (nonceLeaf c base nonce) := by
  have hlen := fun i (_ : i.toNat < nLeaves) => @blakeLeaf_length input nonce i
  obtain ⟨hinit, hrounds, hscan⟩ := hS
  rw [runNonce_congr hleaves] at hrounds hscan ⊢
  rw [nonceLeaf_eq hc hb]
  exact (runNonce_ok hlen S dev ⟨hinit, hrounds, hscan⟩).refines

/-- One nonce of a port. -/
theorem Port.Lawful.refines (h : port.Lawful) {c : Crates} (hc : ImplementsBlake2b c)
    {input : Vector UInt8 iLen} {base : BaseState} (hb : BaseState.new 96 5 input = .ok base)
    {nonce : Bytes32} {leaves : ℕ → UInt32}
    (hleaves : ∀ a < 3 * nLeaves, leaves a = packLeaves (blakeLeaf input nonce) a)
    {S : Schedule} {dev : Device} (hS : port.Legal S leaves dev) :
    (port.runNonce S leaves dev).Refines (nonceLeaf c base nonce) :=
  (h.runNonce S leaves dev).refines (runNonce_refines hc hb hleaves (h.legal_iff.mp hS))

/-- PORTS: for every input and nonce, every order of the leaf kernel's stores, every complete order
    of the atomic increments and any stale device contents, the three hosts answer with rows of the
    CPU rounds over the leaves `try_nonce` hashes, each from its own pairs: no candidate but an
    all-zero row and none twice, all of them where nothing overflows, and an error where a round has
    more than `MAX_ROWS` pairs. -/
theorem ports_refine_cpu {c : Crates} (hc : ImplementsBlake2b c) {input : Vector UInt8 iLen}
    {base : BaseState} (hb : BaseState.new 96 5 input = .ok base) (nonce : Bytes32) (S : Schedule)
    (dev : Device) :
    (∀ vendor mem ws, ws.Perm (Wgsl.dispatch input nonce (UInt32.ofNat nLeaves)
        (GpuLeafGen.pickWorkgroupSize vendor)) →
      gpuWagner.Legal S (store mem ws) dev →
      (gpuWagner.runNonce S (store mem ws) dev).Refines (nonceLeaf c base nonce)) ∧
    (∀ mem ws, ws.Perm (Cuda.generate input nonce (UInt32.ofNat nLeaves)) →
      cudaWagner.Legal S (Cuda.leafWords (store mem ws)) dev →
      (cudaWagner.runNonce S (Cuda.leafWords (store mem ws)) dev).Refines
        (nonceLeaf c base nonce)) ∧
    ∀ tag mem ws, ws.Perm (WebGpu.leavesPass input nonce (WebGpu.pickWorkgroupSize tag)) →
      webGpuWagner.Legal S (store mem ws) dev →
      (webGpuWagner.runNonce S (store mem ws) dev).Refines (nonceLeaf c base nonce) := by
  refine ⟨fun vendor mem ws hp hS => ?_, fun mem ws hp hS => ?_, fun tag mem ws hp hS => ?_⟩
  · rw [Wgsl.picked_dispatch] at hp
    exact gpuWagner_lawful.refines hc hb (fun a ha => Wgsl.stores_words hp mem ha) hS
  · exact cudaWagner_lawful.refines hc hb (fun a ha => Cuda.leafWords_eq hp mem ha) hS
  · rw [WebGpu.leavesPass_eq] at hp
    exact webGpuWagner_lawful.refines hc hb (fun a ha => Wgsl.stores_words hp mem ha) hS

/-- The leaf kernels thread by thread and the passes in sequential order, on a used device. -/
theorem ports_refine_cpu_demo : ∃ base, BaseState.new 96 5 (Vector.replicate iLen 1) = .ok base ∧
    (cudaWagner.runNonce (sequential maxRows) (Cuda.leafWords (store (fun _ => 9)
      (Cuda.generate (Vector.replicate iLen 1) (Vector.replicate 32 2) (UInt32.ofNat nLeaves))))
      usedDevice).Refines (nonceLeaf
        ⟨fun _ => Vector.replicate 32 0, fun _ _ _ _ _ => true, Blake2b.digest⟩ base
        (Vector.replicate 32 2)) ∧
    (webGpuWagner.runNonce (sequential maxRows) (store (fun _ => 9)
      (WebGpu.leavesPass (Vector.replicate iLen 1) (Vector.replicate 32 2)
        (WebGpu.pickWorkgroupSize "intel arc".toList))) usedDevice).Refines (nonceLeaf
        ⟨fun _ => Vector.replicate 32 0, fun _ _ _ _ _ => true, Blake2b.digest⟩ base
        (Vector.replicate 32 2)) := by
  obtain ⟨base, hb⟩ : ∃ base, BaseState.new 96 5 (Vector.replicate iLen 1) = .ok base := ⟨_, rfl⟩
  obtain ⟨-, hcuda, hweb⟩ := @ports_refine_cpu
    ⟨fun _ => Vector.replicate 32 0, fun _ _ _ _ _ => true, Blake2b.digest⟩
    (fun _ _ _ _ _ _ => rfl) _ base hb (Vector.replicate 32 2) (sequential maxRows) usedDevice
  refine ⟨base, hb, hcuda _ _ (.refl _) ?_, hweb _ _ _ (.refl _) ?_⟩
  · exact cudaWagner_lawful.legal_iff.mpr (sequential_legal le_rfl _ _)
  · exact webGpuWagner_lawful.legal_iff.mpr (sequential_legal le_rfl _ _)

end Equium.Gpu
