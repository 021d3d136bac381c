import Equium.Gpu.Capacity
import Equium.Gpu.ShaderRef

/-! @src clients/gpu-miner/src/wagner.rs, shaders/rounds.wgsl | name:GPU refinement |
    scheme:induction on the rounds left

    The host loop over the passes refines the CPU rounds on the same leaves, for every order of the
    atomic increments and whatever earlier nonces left in the buffers. -/

namespace Equium.Gpu
open Schemes Solver

variable {T : LeafTable} {r n : ℕ} {buf : Buffer} {leaf : UInt32 → List UInt8}

/-- What one round of a run has done: rows of the CPU solver, each from its own pair of rows, and no
    index word read that the stage before had not written. -/
structure RoundOk (leaf : UInt32 → List UInt8) (r : ℕ) (log : RoundLog) : Prop where
  rows : ∀ m < min log.pairs.outCount maxRows,
    decodeRow (r + 1) log.pairs.rowsOut m ∈ cpuRows leaf (r + 1)
  made : ∀ m < min log.pairs.outCount maxRows, ∃ q, log.pairs.found[m]? = some q ∧
    Emitted log.params log.rowsIn log.pairs.rowsOut m q
  once : log.pairs.found.Nodup
  ordered : ∀ q ∈ log.pairs.found, q.1 < q.2 ∧ q.2 < log.params.nRows
  count : log.pairs.outCount = log.pairs.found.length
  fresh : log.pairs.stale = false

theorem GpuLevel.roundOk {hlen : ∀ i : UInt32, i.toNat < nLeaves → (leaf i).length = 12}
    (h : GpuLevel (table96 leaf hlen) r n buf) (hr : r < 5) {sched : RoundSchedule}
    {rowsOut : Buffer} {slots : ℕ → ℕ} (hl : (levelLog sched r n buf rowsOut slots).Legal) :
    RoundOk leaf r (levelLog sched r n buf rowsOut slots) where
  rows := fun m hm => (h.round (table96_wide leaf hlen) hr hl).decode_mem (table96_wide leaf hlen)
    (cpuRows_level leaf hlen (by omega)) hm
  made := fun m hm => h.emitted hr hl hm
  once := (h.pairInv hr hl).nodup
  ordered := fun q hq => by
    obtain ⟨h₁, h₂, -, -⟩ := h.found (table96_wide leaf hlen) hr hl hq
    exact ⟨h₁, h₂⟩
  count := (h.pairInv hr hl).count
  fresh := (h.pairInv hr hl).fresh

/-- No subtree of a level, none of a higher one. -/
theorem no_subtree_above (h : ∀ t, ¬ T.Subtree r t) (m : ℕ) : ∀ t, ¬ T.Subtree (r + m) t := by
  induction m with
  | zero => exact h
  | succ m ih =>
    intro t ht
    obtain ⟨a, -, -, ha, -⟩ := subtree_succ.mp ht
    exact ih a ha

/-- What the rest of a run does from level `r` on; `full` says that no subtree has been lost yet. -/
structure HostOk (leaf : UInt32 → List UInt8) (T : LeafTable) (r : ℕ) (full : Prop)
    (run : NonceRun) : Prop where
  rounds : ∀ i log, run.logs[i]? = some log → RoundOk leaf (r + i) log
  scan : ∀ p st, run.scan = some (p, st) → st.stale = false ∧
    ∀ m < min st.outCount maxSolutions, freshRow st.rowsOut indicesMax m = true
  sound : ∀ cands, run.result = .ok cands → ScanOk T cands
  complete : full → run.NoOverflow → ∃ cands, run.result = .ok cands ∧
    ∀ t, T.Solution t → t ∈ cands
  overflow : ∀ log ∈ run.logs, maxRows < log.collisions.length → ∃ e, run.result = .error e
  roomy : Roomy T → run.NoOverflow

/-- The run stops in its first round, with no row left or too many. -/
theorem HostOk.stop {hlen : ∀ i : UInt32, i.toNat < nLeaves → (leaf i).length = 12}
    {log : RoundLog} {full : Prop} {result : Except String (List (List UInt32))}
    (hround : RoundOk leaf r log)
    (hok : ∀ cands, result = .ok cands → cands = [])
    (hcomplete : full → (∀ b < numBuckets, log.buckets.counts b ≤ maxPerBucket) →
      log.collisions.length ≤ maxRows → result = .ok [] ∧
        ∀ t, ¬ (table96 leaf hlen).Solution t)
    (hover : maxRows < log.collisions.length → ∃ e, result = .error e)
    (hroom : Roomy (table96 leaf hlen) → (∀ b < numBuckets, log.buckets.counts b ≤ maxPerBucket) ∧
      log.collisions.length ≤ maxRows) :
    HostOk leaf (table96 leaf hlen) r full ⟨[log], none, result⟩ := by
  refine ⟨fun i log' hi => ?_, fun p st hst => ?_, fun cands hres => ?_, fun hfull hno => ?_,
    fun log' hlog' => ?_, fun hT => ⟨fun log' hlog' => ?_, fun log' hlog' => ?_, fun p st hst => ?_⟩⟩
  · obtain ⟨rfl, rfl⟩ : i = 0 ∧ log' = log := by
      cases i with
      | zero => exact ⟨rfl, (Option.some.inj hi).symm⟩
      | succ i => cases hi
    exact hround
  · cases hst
  · rw [hok cands hres]
    exact ⟨List.nodup_nil, by simp⟩
  · obtain ⟨hres, hnone⟩ := hcomplete hfull (hno.buckets log List.mem_cons_self)
      (hno.rows log List.mem_cons_self)
    exact ⟨[], hres, fun t ht => absurd ht (hnone t)⟩
  · exact List.mem_singleton.mp hlog' ▸ hover
  · exact List.mem_singleton.mp hlog' ▸ (hroom hT).1
  · exact List.mem_singleton.mp hlog' ▸ (hroom hT).2
  · cases hst

/-- The run goes on after its first round. -/
theorem HostOk.next {hlen : ∀ i : UInt32, i.toNat < nLeaves → (leaf i).length = 12}
    {log : RoundLog} {rest : NonceRun} {full full' : Prop} (hround : RoundOk leaf r log)
    (ih : HostOk leaf (table96 leaf hlen) (r + 1) full' rest)
    (hfull : full → (∀ b < numBuckets, log.buckets.counts b ≤ maxPerBucket) → full')
    (hfit : ¬ maxRows < log.collisions.length)
    (hroom : Roomy (table96 leaf hlen) → (∀ b < numBuckets, log.buckets.counts b ≤ maxPerBucket) ∧
      log.collisions.length ≤ maxRows) :
    HostOk leaf (table96 leaf hlen) r full { rest with logs := log :: rest.logs } := by
  refine ⟨fun i log' hi => ?_, ih.scan, ih.sound, fun hf hno => ?_, fun log' hlog' hc => ?_,
    fun hT => ⟨fun log' hlog' => ?_, fun log' hlog' => ?_, (ih.roomy hT).candidates⟩⟩
  · cases i with
    | zero => exact Option.some.inj hi ▸ hround
    | succ i =>
      have := ih.rounds i log' hi
      rwa [show r + 1 + i = r + (i + 1) by omega] at this
  · exact ih.complete (hfull hf (hno.buckets _ List.mem_cons_self))
      ⟨fun log hlog => hno.buckets log (List.mem_cons_of_mem _ hlog),
        fun log hlog => hno.rows log (List.mem_cons_of_mem _ hlog), hno.candidates⟩
  · rcases List.mem_cons.mp hlog' with rfl | hlog'
    exacts [absurd hc hfit, ih.overflow log' hlog' hc]
  · rcases List.mem_cons.mp hlog' with rfl | hlog'
    exacts [(hroom hT).1, (ih.roomy hT).buckets log' hlog']
  · rcases List.mem_cons.mp hlog' with rfl | hlog'
    exacts [(hroom hT).2, (ih.roomy hT).rows log' hlog']

/-- The last stage, from a buffer at level 5. -/
theorem HostOk.finish (hlen : ∀ i : UInt32, i.toNat < nLeaves → (leaf i).length = 12)
    (h : GpuLevel (table96 leaf hlen) 5 n buf) {order : List ℕ} (hc : Covers order n)
    (rowsOut : Buffer) : HostOk leaf (table96 leaf hlen) 5 (FullLevel (table96 leaf hlen) 5 n buf)
      (Gpu.finish order n buf rowsOut) := by
  have hrows : Level (table96 leaf hlen) 5 (cpuRows leaf 5) := cpuRows_level leaf hlen le_rfl
  have hspec := fun p st =>
    @finish_spec _ n buf h (table96_wide leaf hlen) _ hrows order hc rowsOut p st
  obtain ⟨-, -, cands, hres, hok, hall⟩ := hspec _ _ rfl
  refine ⟨fun i log hi => (by cases hi), fun p st hst => ?_, fun cands' hres' => ?_,
    fun hfull hno => ⟨cands, hres, hall (hno.candidates _ _ rfl) hfull⟩,
    fun log hlog => (by cases hlog),
    fun hroom => ⟨fun log hlog => (by cases hlog), fun log hlog => (by cases hlog), fun p st hst => ?_⟩⟩
  · exact ⟨(hspec p st hst).1, (hspec p st hst).2.1⟩
  · rw [show cands' = cands from Except.ok.inj (hres'.symm.trans hres)]
    exact hok
  · exact (finish_found h (table96_wide leaf hlen) hrows hc rowsOut hst).fits h hroom

/-- Induction on the rounds left: each round is a `GpuLevel` step, the rest is the same loop. -/
theorem hostRounds_ok (hlen : ∀ i : UInt32, i.toNat < nLeaves → (leaf i).length = 12)
    (S : Schedule) (remaining r n : ℕ) (rowsIn rowsOut : Buffer) (slots : ℕ → ℕ)
    (hr : r + remaining = 5) (h : GpuLevel (table96 leaf hlen) r n rowsIn)
    (hlegal : ∀ log ∈ (hostRounds S remaining r n rowsIn rowsOut slots).logs, log.Legal)
    (hscan : ∀ p st, (hostRounds S remaining r n rowsIn rowsOut slots).scan = some (p, st) →
      Covers S.scan p.nRows) :
    HostOk leaf (table96 leaf hlen) r (FullLevel (table96 leaf hlen) r n rowsIn)
      (hostRounds S remaining r n rowsIn rowsOut slots) := by
  induction remaining generalizing r n rowsIn rowsOut slots with
  | zero =>
    obtain rfl : r = 5 := by omega
    exact .finish hlen h (hscan ⟨n, maxRows, 32⟩ _ rfl) rowsOut
  | succ remaining ih =>
    have hT := table96_wide leaf hlen
    have hr5 : r < 5 := by omega
    have hhead := hlegal _
      (List.mem_of_getElem? (hostRounds_head S remaining r n rowsIn rowsOut slots))
    have hround := h.roundOk hr5 hhead
    have hover := h.overflow_iff hr5 hhead
    have hnext := h.round hT hr5 hhead
    have hfull := fun hf hb hc => h.round_full hT hr5 hhead hf hb hc
    have hroom := fun hroom : Roomy (table96 leaf hlen) =>
      (⟨fun b _ => h.buckets_fit hT hr5 hroom hhead.1 slots b, h.rows_fit hT hr5 hroom hhead⟩ :
        (∀ b < numBuckets, (levelLog (S.round r) r n rowsIn rowsOut slots).buckets.counts b ≤
          maxPerBucket) ∧ _)
    rw [hostRounds_succ] at hlegal hscan ⊢
    by_cases hzero : (levelLog (S.round r) r n rowsIn rowsOut slots).pairs.outCount = 0
    · -- no row is left: no subtree of this level, so no solution
      rw [if_pos hzero]
      refine .stop hround (fun cands hc => (Except.ok.inj hc).symm) (fun hf hb _ => ⟨rfl, ?_⟩)
        (fun hc => absurd (hover.mpr hc) (by omega)) hroom
      intro t ht
      have hnone : ∀ t, ¬ (table96 leaf hlen).Subtree (r + 1) t := fun t ht => by
        obtain ⟨m, hm, -⟩ := hfull hf hb (by omega) t ht
        omega
      refine no_subtree_above hnone remaining t ?_
      rw [show r + 1 + remaining = 5 by omega]
      exact ht.1
    by_cases hbig : (levelLog (S.round r) r n rowsIn rowsOut slots).pairs.outCount > maxRows
    · rw [if_neg hzero, if_pos hbig]
      exact .stop hround (fun cands hc => by cases hc)
        (fun _ _ hc => absurd (hover.mp hbig) (by omega)) (fun _ => ⟨_, rfl⟩) hroom
    · -- the next level is in the buffer, and the loop goes on
      rw [if_neg hzero, if_neg hbig] at hlegal hscan ⊢
      rw [Nat.min_eq_left (by omega)] at hnext
      have hrest := ih (r + 1) _ _ rowsIn
        (levelLog (S.round r) r n rowsIn rowsOut slots).buckets.slots (by omega) hnext
        (fun log hlog => hlegal log (List.mem_cons_of_mem _ hlog)) hscan
      exact .next hround hrest (fun hf hb => hfull hf hb (by omega)) (mt hover.mpr hbig) hroom

/-- The whole run over one table. -/
theorem runNonce_ok (hlen : ∀ i : UInt32, i.toNat < nLeaves → (leaf i).length = 12) (S : Schedule)
    (dev : Device) (hS : S.Legal (packLeaves leaf) dev) :
    HostOk leaf (table96 leaf hlen) 0 True (runNonce S (packLeaves leaf) dev) := by
  obtain ⟨hlev, hfull⟩ := init_level hlen dev.rowsA.recycle hS.init
  have h := hostRounds_ok hlen S 5 0 nLeaves _ dev.rowsB dev.slots rfl hlev hS.rounds hS.scan
  exact ⟨h.rounds, h.scan, h.sound, fun _ hno => h.complete hfull hno, h.overflow, h.roomy⟩

/-- The leaf lists of the CPU rows whose remaining hash is zero. -/
def zeroRows (leaf : UInt32 → List UInt8) : List (List UInt32) :=
  ((cpuRows leaf 5).filter fun row => row.hash.all (· == 0)).map Row.indices

/-- The solutions of a table are the CPU rows whose remaining hash is zero. -/
theorem mem_zeroRows (hlen : ∀ i : UInt32, i.toNat < nLeaves → (leaf i).length = 12)
    (t : List UInt32) :
    t ∈ zeroRows leaf ↔ (table96 leaf hlen).Solution t := by
  have hlevel : Level (table96 leaf hlen) 5 (cpuRows leaf 5) := cpuRows_level leaf hlen le_rfl
  have hcand : ∀ {row}, row ∈ cpuRows leaf 5 →
      (row.hash.all (· == 0) = true ↔ (table96 leaf hlen).Solution row.indices) := fun {row} hr => by
    rw [← Level.candidate_iff (T := table96 leaf hlen) (k := 5) hlevel rfl hr, Candidate]
    exact (and_iff_right (hlevel.subtree hr).length).symm
  rw [zeroRows, List.mem_map]
  constructor
  · rintro ⟨row, hr, rfl⟩
    obtain ⟨hr, hz⟩ := List.mem_filter.mp hr
    exact (hcand hr).mp hz
  · intro ht
    obtain ⟨row, hr, rfl⟩ := List.mem_map.mp ((hlevel.exact t).mpr ht.1)
    exact ⟨row, List.mem_filter.mpr ⟨hr, (hcand hr).mpr ht⟩, rfl⟩

/-- What the run of a nonce is worth, against the CPU rounds over the same leaves. -/
structure NonceRun.Refines (run : NonceRun) (leaf : UInt32 → List UInt8) : Prop where
  rounds : ∀ r log, run.logs[r]? = some log → RoundOk leaf r log
  scan : ∀ p st, run.scan = some (p, st) → st.stale = false ∧
    ∀ m < min st.outCount maxSolutions, freshRow st.rowsOut indicesMax m = true
  sound : ∀ cands, run.result = .ok cands → cands.Nodup ∧ ∀ t ∈ cands, t ∈ zeroRows leaf
  complete : run.NoOverflow → ∃ cands, run.result = .ok cands ∧ cands.Perm (zeroRows leaf)
  overflow : ∀ log ∈ run.logs, maxRows < log.collisions.length → ∃ e, run.result = .error e

theorem HostOk.refines {hlen : ∀ i : UInt32, i.toNat < nLeaves → (leaf i).length = 12}
    {run : NonceRun} (h : HostOk leaf (table96 leaf hlen) 0 True run) : run.Refines leaf where
  rounds := fun r log hlog => Nat.zero_add r ▸ h.rounds r log hlog
  scan := h.scan
  sound := fun cands hres => by
    obtain ⟨hnod, hsol⟩ := h.sound cands hres
    exact ⟨hnod, fun t ht => (mem_zeroRows hlen t).mpr (hsol t ht)⟩
  complete := fun hno => by
    obtain ⟨cands, hres, hall⟩ := h.complete trivial hno
    obtain ⟨hnod, hsol⟩ := h.sound cands hres
    refine ⟨cands, hres, (List.perm_ext_iff_of_nodup hnod ?_).mpr fun t => ?_⟩
    · exact (cpuRows_level leaf hlen le_rfl).once.sublist (List.filter_sublist.map _)
    · rw [mem_zeroRows hlen]
      exact ⟨hsol t, hall t⟩
  overflow := h.overflow

/-- GPU PIPELINE: for every table, every complete order of the atomic increments and any stale device
    contents, each round emits only rows of the CPU solver, from pairs of rows no two of which are the
    same, and reads no index word the stage before did not write. Where nothing overflows the
    candidates are the CPU's all-zero rows; and a round with more than `MAX_ROWS` pairs is an error.
    The sequential order is one of these orders, and its rounds and candidates are the port's. -/
theorem gpu_refines_cpu (leaf : UInt32 → List UInt8)
    (hlen : ∀ i : UInt32, i.toNat < nLeaves → (leaf i).length = 12) (S : Schedule) (dev : Device)
    (hS : S.Legal (packLeaves leaf) dev) :
    (∀ r log, (runNonce S (packLeaves leaf) dev).logs[r]? = some log → RoundOk leaf r log) ∧
    (∀ p st, (runNonce S (packLeaves leaf) dev).scan = some (p, st) → st.stale = false ∧
      ∀ m < min st.outCount maxSolutions, freshRow st.rowsOut indicesMax m = true) ∧
    (∀ cands, (runNonce S (packLeaves leaf) dev).result = .ok cands → cands.Nodup ∧
      ∀ t ∈ cands, t ∈
        ((cpuRows leaf 5).filter fun row => row.hash.all (· == 0)).map Row.indices) ∧
    ((runNonce S (packLeaves leaf) dev).NoOverflow →
      ∃ cands, (runNonce S (packLeaves leaf) dev).result = .ok cands ∧
        cands.Perm
          (((cpuRows leaf 5).filter fun row => row.hash.all (· == 0)).map Row.indices)) ∧
    (∀ log ∈ (runNonce S (packLeaves leaf) dev).logs, maxRows < log.collisions.length →
      ∃ e, (runNonce S (packLeaves leaf) dev).result = .error e) ∧
    ∀ m, maxRows ≤ m → (sequential m).Legal (packLeaves leaf) dev ∧
      (∀ r log, (runNonce (sequential m) (packLeaves leaf) dev).logs[r]? = some log →
        log.pairs.outCount ≤ maxRows →
        Mirrors (ShaderRef.roundLoop 0 (r + 1) (ShaderRef.initialRows (leafTableBytes leaf)))
          (2 ^ (r + 1)) log.pairs.outCount log.pairs.rowsOut) ∧
      ∀ cands, (runNonce (sequential m) (packLeaves leaf) dev).result = .ok cands →
        cands = ((ShaderRef.wagnerFull (leafTableBytes leaf)).map
          fun row => row.indices.toList).take maxSolutions := by
  have h := (runNonce_ok hlen S dev hS).refines
  exact ⟨h.rounds, h.scan, h.sound, h.complete, h.overflow,
    fun m hm => ⟨sequential_legal hm _ dev, sequential_port hlen hm dev⟩⟩

/-- A device that earlier nonces have filled with rubbish. -/
def usedDevice : Device :=
  ⟨⟨fun a => UInt32.ofNat a, fun _ => true⟩, ⟨fun a => UInt32.ofNat (a + 7), fun _ => true⟩,
    fun s => s / 3⟩

/-- The leaves of the demonstration: their own index, and zeros. -/
def countingLeaf (i : UInt32) : List UInt8 := bytes4 i ++ zeros 8

/-- The first round over leaves that count upwards, in sequential order. -/
theorem gpu_refines_cpu_demo : ∃ log,
    (runNonce (sequential maxRows) (packLeaves countingLeaf) usedDevice).logs[0]? = some log ∧
    RoundOk countingLeaf 0 log := by
  obtain ⟨log, hlog⟩ := runNonce_head (sequential maxRows) (packLeaves countingLeaf) usedDevice
  exact ⟨log, hlog, (gpu_refines_cpu countingLeaf (fun i _ => by simp [countingLeaf])
    (sequential maxRows) usedDevice (sequential_legal le_rfl _ _)).1 0 log hlog⟩

end Equium.Gpu
