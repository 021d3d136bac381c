import Equium.Miner.Attempts

/-! @src clients/cli-miner/src/main.rs, clients/gpu-miner/src/main.rs | name:mining paths |
    scheme:agreement of the three paths

    When the CPU, the hybrid and the full-GPU miner win on the same nonces. A path that looks at one
    solution only misses a nonce whose first solution is above the target and whose second is not
    (`second_solution_missed`). -/

namespace Equium.Miner
open Schemes Equium.Core Solver Gpu

/-- The three paths report a winner on the same nonces: those with a winning solution. -/
structure PathsAgree (c : Crates) (base : BaseState) (g : Backend) (S : Schedule) (dev : Device)
    (input : Vector UInt8 iLen) (target nonce : Bytes32) : Prop where
  cpu : (cpuAttempt c base input target nonce).isSome ↔
    FullGpuReports c g S dev input target nonce
  hybrid : (hybridAttempt c g input target nonce).isSome ↔
    FullGpuReports c g S dev input target nonce
  fullGpu : FullGpuReports c g S dev input target nonce ↔ HasWinner c input target nonce

/-- MINING PATHS: where the GPU pipeline overflows nothing, the three paths agree on a nonce exactly
    when none of its solutions is under the target, or the one that the rounds leave first is. -/
theorem mining_paths_agree (c : Crates) (base : BaseState) (g : Backend) (S : Schedule) (dev : Device)
    (input : Vector UInt8 iLen) (target nonce : Bytes32)
    (h : Nominal c base g S dev input nonce) :
    PathsAgree c base g S dev input target nonce ↔
      (∀ t, h.table.Solution t → ¬ Under c input target t) ∨
        ∃ t, FirstSolution h.table t ∧ Under c input target t := by
  have hcpu := @cpuAttempt_isSome c base input target nonce g S dev h
  have hhybrid := @hybridAttempt_eq c base input target nonce g h.digest h.started h.leaves
  have hfull := @fullGpuReports_iff c base input target nonce g S dev h
  constructor
  · intro hagree
    by_cases hwin : ∃ t, h.table.Solution t ∧ Under c input target t
    · exact .inr (hcpu.mp (hagree.cpu.mpr (hfull.mpr hwin)))
    · exact .inl fun t ht hunder => hwin ⟨t, ht, hunder⟩
  · intro hfirst
    have hiff : (cpuAttempt c base input target nonce).isSome ↔
        FullGpuReports c g S dev input target nonce := by
      rw [hcpu, hfull]
      constructor
      · rintro ⟨t, ht, hunder⟩
        exact ⟨t, ht.solution, hunder⟩
      · rintro ⟨t, ht, hunder⟩
        exact hfirst.resolve_left fun hnone => hnone t ht hunder
    exact ⟨hiff, hhybrid.symm ▸ hiff, hfull.trans (hasWinner_iff h).symm⟩

/-! ### A nonce with two solutions -/

namespace Blocks

/-- The six 16-bit words of leaf `i`: at level `r` exactly the aligned blocks of `2 ^ r` neighbours
    collide, and from level 2 on only the first 64 leaves are in any. -/
def words (i : ℕ) : List ℕ :=
  [i / 2, if i % 2 = 1 then (if i < 64 then i / 4 else i / 2) else 0,
    if i % 4 = 0 ∧ i < 64 then i / 8 else 0, if i % 8 = 0 ∧ i < 64 then i / 16 else 0,
    if i % 16 = 0 ∧ i < 64 then i / 32 else 0, 0]

def leaf (i : UInt32) : List UInt8 := (words i.toNat).flatMap (leBytes 2)

theorem leaf_length (i : UInt32) : (leaf i).length = 12 := by simp [leaf, words]

def table : LeafTable := table96 leaf fun i _ => leaf_length i

/-- The first `n` aligned blocks of `2 ^ r` indices. -/
def blocks (r n : ℕ) : List (List UInt32) :=
  (List.range n).map fun j => (List.range (2 ^ r)).map fun d => UInt32.ofNat (2 ^ r * j + d)

theorem level_xor {r : ℕ} {a b : List UInt8} :
    table.level r (Solver.xor a b) = Solver.xor (table.level r a) (table.level r b) := by
  rw [LeafTable.level, Solver.xor, List.drop_zipWith, List.take_zipWith]
  rfl

theorem xorOf_leaf (i : UInt32) : table.xorOf [i] = leaf i := by
  have hz := xor_zeros (leaf i)
  rw [leaf_length] at hz
  exact (Solver.xor_comm _ _).trans hz

theorem level_zero (i : UInt32) : table.level 0 (table.xorOf [i]) = leBytes 2 (i.toNat / 2) := by
  rw [xorOf_leaf]
  rfl

theorem toNat_ofNat {m : ℕ} (hm : m < 131072) : (UInt32.ofNat m).toNat = m :=
  UInt32.toNat_ofNat_of_lt' (by change m < 4294967296; omega)

/-- Level 1: the pairs of neighbours. -/
theorem subtree_one {t : List UInt32} : table.Subtree 1 t ↔
    ∃ m < 65536, t = [UInt32.ofNat (2 * m), UInt32.ofNat (2 * m + 1)] := by
  have hcount : table.count = 131072 := by decide
  constructor
  · intro h
    obtain ⟨a, b, rfl, ha, hb, -, hlt, he⟩ := subtree_succ.mp h
    obtain ⟨i, hi, rfl⟩ := subtree_zero.mp ha
    obtain ⟨j, hj, rfl⟩ := subtree_zero.mp hb
    rw [level_zero, level_zero] at he
    rw [hcount] at hi hj
    have hij : i.toNat < j.toNat := hlt
    have heq := leBytes_inj (by change _ < 65536; omega) (by change _ < 65536; omega) he
    refine ⟨i.toNat / 2, by omega, ?_⟩
    rw [show 2 * (i.toNat / 2) = i.toNat by omega, show i.toNat + 1 = j.toNat by omega,
      UInt32.ofNat_toNat, UInt32.ofNat_toNat]
    rfl
  · rintro ⟨m, hm, rfl⟩
    have h₀ := toNat_ofNat (show 2 * m < 131072 by omega)
    have h₁ := toNat_ofNat (show 2 * m + 1 < 131072 by omega)
    refine subtree_succ.mpr ⟨[_], [_], rfl, subtree_zero.mpr ⟨_, by rw [h₀, hcount]; omega, rfl⟩,
      subtree_zero.mpr ⟨_, by rw [h₁, hcount]; omega, rfl⟩, ?_, ?_, ?_⟩
    · rw [List.singleton_disjoint, List.mem_singleton]
      intro he
      have := congrArg UInt32.toNat he
      omega
    · change (UInt32.ofNat (2 * m)).toNat < (UInt32.ofNat (2 * m + 1)).toNat
      omega
    · rw [level_zero, level_zero, h₀, h₁]
      congr 1
      omega

/-- What the second bytes of a pair of neighbours are. -/
theorem level_one {m : ℕ} (hm : m < 65536) :
    table.level 1 (table.xorOf [UInt32.ofNat (2 * m), UInt32.ofNat (2 * m + 1)]) =
      leBytes 2 (if m < 32 then m / 2 else m) := by
  have hlev : ∀ i : UInt32, table.level 1 (leaf i) =
      leBytes 2 (if i.toNat % 2 = 1 then (if i.toNat < 64 then i.toNat / 4 else i.toNat / 2) else 0) :=
    fun _ => rfl
  have hsub := subtree_one.mpr ⟨m, hm, rfl⟩
  have happ := xorOf_append (T := table) (a := [UInt32.ofNat (2 * m)])
    (b := [UInt32.ofNat (2 * m + 1)]) fun i hi => hsub.leaves i (List.mem_cons_of_mem _ hi)
  have hz := xor_zeros (leBytes 2 (if m < 32 then m / 2 else m))
  rw [leBytes_length] at hz
  rw [← List.singleton_append, happ, level_xor, xorOf_leaf, xorOf_leaf, hlev, hlev,
    toNat_ofNat (by omega), toNat_ofNat (by omega), if_neg (by omega), if_pos (by omega)]
  refine Eq.trans ?_ hz
  congr 2
  split_ifs <;> omega

/-- The first 32 leaves make the solution that the rounds leave first. -/
def first : List UInt32 := (List.range 32).map UInt32.ofNat

def second : List UInt32 := (List.range 32).map fun d => UInt32.ofNat (32 + d)

/-- Worked out on the table: the levels from 2 to 5, and the solutions in their order. -/
theorem computed : (∀ t ∈ blocks 2 16, table.Subtree 2 t) ∧
    (table.joins 2 (blocks 2 16) = blocks 3 8 ∧ table.joins 3 (blocks 3 8) = blocks 4 4 ∧
      table.joins 4 (blocks 4 4) = blocks 5 2) ∧
    (∀ t ∈ blocks 5 2, table.xorOf t = zeros ((table.k + 1) * table.cbytes)) ∧
    blocks 5 2 = [first, second] ∧ table.before 5 first second = true := by
  decide +kernel

/-- Level 2: sixteen blocks of four. -/
theorem subtree_two (t : List UInt32) : table.Subtree 2 t ↔ t ∈ blocks 2 16 := by
  constructor
  · intro h
    obtain ⟨a, b, rfl, ha, hb, -, hlt, he⟩ := subtree_succ.mp h
    obtain ⟨m, hm, rfl⟩ := subtree_one.mp ha
    obtain ⟨m', hm', rfl⟩ := subtree_one.mp hb
    rw [level_one hm, level_one hm'] at he
    have heq := leBytes_inj (by change _ < 65536; split_ifs <;> omega)
      (by change _ < 65536; split_ifs <;> omega) he
    have hmm : m < m' := by
      have hlt' : (UInt32.ofNat (2 * m)).toNat < (UInt32.ofNat (2 * m')).toNat := hlt
      rw [toNat_ofNat (by omega), toNat_ofNat (by omega)] at hlt'
      omega
    have hblock : m % 2 = 0 ∧ m' = m + 1 ∧ m < 32 := by
      split_ifs at heq <;> omega
    obtain ⟨heven, rfl, hsmall⟩ := hblock
    refine List.mem_map.mpr ⟨m / 2, List.mem_range.mpr (by omega), ?_⟩
    rw [show 2 ^ 2 * (m / 2) = 2 * m by omega]
    rfl
  · exact computed.1 t

/-- Levels 3 to 5 are worked out from level 2. -/
theorem subtree_three (t : List UInt32) : table.Subtree 3 t ↔ t ∈ blocks 3 8 := by
  rw [subtree_joins subtree_two, computed.2.1.1]

theorem subtree_four (t : List UInt32) : table.Subtree 4 t ↔ t ∈ blocks 4 4 := by
  rw [subtree_joins subtree_three, computed.2.1.2.1]

theorem subtree_five (t : List UInt32) : table.Subtree 5 t ↔ t ∈ blocks 5 2 := by
  rw [subtree_joins subtree_four, computed.2.1.2.2]

/-- The solutions: the first 32 leaves and the next 32. -/
theorem solution_iff (t : List UInt32) : table.Solution t ↔ t = first ∨ t = second := by
  have hblocks : t ∈ blocks 5 2 ↔ t = first ∨ t = second := by simp [computed.2.2.2.1]
  rw [LeafTable.Solution, show table.k = 5 from rfl, subtree_five, ← hblocks]
  exact ⟨fun h => h.1, fun h => ⟨h, computed.2.2.1 t h⟩⟩

theorem blocks_length (r n : ℕ) : (blocks r n).length = n := by simp [blocks]

/-- From level 2 on there are at most sixteen subtrees. -/
theorem few_subtrees {r : ℕ} (h₂ : 2 ≤ r) (h₅ : r ≤ 5) {ts : List (List UInt32)} (hn : ts.Nodup)
    (h : ∀ t ∈ ts, table.Subtree r t) : ts.length ≤ 16 := by
  obtain ⟨n, hle, hlist⟩ : ∃ n ≤ 16, ∀ t, table.Subtree r t ↔ t ∈ blocks r n := by
    obtain rfl | rfl | rfl | rfl : r = 2 ∨ r = 3 ∨ r = 4 ∨ r = 5 := by omega
    exacts [⟨16, by decide, subtree_two⟩, ⟨8, by decide, subtree_three⟩,
      ⟨4, by decide, subtree_four⟩, ⟨2, by decide, subtree_five⟩]
  have hsub : ts ⊆ blocks r n := fun t ht => (hlist t).mp (h t ht)
  exact (List.subperm_of_subset hn hsub).length_le.trans ((blocks_length r n).trans_le hle)

/-- On the first two levels a subtree collides with few others. -/
theorem collide_with {r : ℕ} (hr : r ≤ 1) {t₀ : List UInt32} (h₀ : table.Subtree r t₀) :
    ∃ us : List (List UInt32), us.length ≤ 16 ∧ ∀ t, table.Subtree r t →
      table.level r (table.xorOf t) = table.level r (table.xorOf t₀) → t ∈ us := by
  have hcount : table.count = 131072 := by decide
  obtain rfl | rfl : r = 0 ∨ r = 1 := by omega
  · -- leaves that collide are neighbours
    obtain ⟨i, hi, rfl⟩ := subtree_zero.mp h₀
    rw [hcount] at hi
    refine ⟨[[UInt32.ofNat (2 * (i.toNat / 2))], [UInt32.ofNat (2 * (i.toNat / 2) + 1)]],
      by simp, fun t ht he => ?_⟩
    obtain ⟨j, hj, rfl⟩ := subtree_zero.mp ht
    rw [hcount] at hj
    rw [level_zero, level_zero] at he
    have heq := leBytes_inj (by change _ < 65536; omega) (by change _ < 65536; omega) he
    rcases Nat.mod_two_eq_zero_or_one j.toNat with hpar | hpar
    · rw [show 2 * (i.toNat / 2) = j.toNat by omega, UInt32.ofNat_toNat]
      simp
    · rw [show 2 * (i.toNat / 2) + 1 = j.toNat by omega, UInt32.ofNat_toNat]
      simp
  · -- of the pairs, only the first 32 collide, two by two
    obtain ⟨m, hm, rfl⟩ := subtree_one.mp h₀
    refine ⟨[m, 2 * (m / 2), 2 * (m / 2) + 1, 2 * m, 2 * m + 1].map fun m =>
      [UInt32.ofNat (2 * m), UInt32.ofNat (2 * m + 1)], by simp, fun t ht he => ?_⟩
    obtain ⟨m', hm', rfl⟩ := subtree_one.mp ht
    rw [level_one hm, level_one hm'] at he
    have heq := leBytes_inj (by change _ < 65536; split_ifs <;> omega)
      (by change _ < 65536; split_ifs <;> omega) he
    refine List.mem_map.mpr ⟨m', ?_, rfl⟩
    simp only [List.mem_cons, List.not_mem_nil, or_false]
    split_ifs at heq <;> omega

/-- The device has room for everything this table makes. -/
theorem roomy : Roomy table := by
  refine ⟨fun r hr ts hn hsub hlev => ?_, fun r hr ts hn hsub => ?_, fun ts hn hsol => ?_⟩
  · obtain h₂ | hsmall : 2 ≤ r ∨ r ≤ 1 := by omega
    · exact few_subtrees h₂ (by omega) hn hsub
    cases ts with
    | nil => simp
    | cons t₀ ts =>
      obtain ⟨us, hlen, hus⟩ := collide_with hsmall (hsub t₀ List.mem_cons_self)
      have hall : t₀ :: ts ⊆ us := fun t ht =>
        hus t (hsub t ht) (hlev t ht t₀ List.mem_cons_self)
      exact (List.subperm_of_subset hn hall).length_le.trans hlen
  · change ts.length ≤ 320000
    obtain rfl | h₂ : r = 0 ∨ 2 ≤ r + 1 := by omega
    · have hpairs : ts ⊆ (List.range 65536).map fun m =>
          [UInt32.ofNat (2 * m), UInt32.ofNat (2 * m + 1)] := fun t ht => by
        obtain ⟨m, hm, rfl⟩ := subtree_one.mp (hsub t ht)
        exact List.mem_map.mpr ⟨m, List.mem_range.mpr hm, rfl⟩
      have := (List.subperm_of_subset hn hpairs).length_le
      rw [List.length_map, List.length_range] at this
      omega
    · have := few_subtrees h₂ (by omega) hn hsub
      omega
  · change ts.length ≤ 64
    have := few_subtrees (r := 5) (by decide) le_rfl hn fun t ht =>
      (hsol t ht).1
    omega

/-! The crates and the device -/

/-- The second byte of the packing tells the two solutions apart. -/
def sha256 (data : List UInt8) : Bytes32 :=
  Vector.replicate 32 (if data.getD 1 0 = 0 then 200 else 0)

def verifier (soln : List UInt8) : Bool :=
  [first, second].any fun t => soln == compressIndices 96 5 t

/-- Five leaves for each digest; the last four bytes fed are the number of the digest. -/
def digest (len : ℕ) (_ data : List UInt8) : List UInt8 :=
  let call := ofLe (data.drop (data.length - 4))
  (((List.range 5).flatMap fun j => leaf (UInt32.ofNat (5 * call + j))) ++ zeros 64).take len

def crates : Crates := ⟨sha256, fun _ _ _ _ soln => verifier soln, digest⟩

def input : Vector UInt8 iLen := Vector.replicate iLen 1

def nonce : Bytes32 := Vector.replicate 32 7

def target : Bytes32 := Vector.replicate 32 128

def base : BaseState := ⟨(initState 96 5 60).update input.toList, 96, 5⟩

def backend : Backend := ⟨fun _ _ => .ok (leafTableBytes leaf), fun _ _ => packLeaves leaf⟩

theorem digestLength : DigestLength crates := fun len personal data hlen => by
  change (digest len personal data).length = len
  rw [digest, List.length_take, List.length_append, zeros_length]
  omega

theorem base_eq : BaseState.new 96 5 input = .ok base := rfl

/-- The leaves of the nonce are the leaves of the table. -/
theorem nonceLeaf_eq : nonceLeaf crates base nonce = leaf := by
  funext i
  have hi := i.toNat_lt
  have hcall : ofLe (leBytes 4 (i.toNat / 5)) = i.toNat / 5 := by
    rw [ofLe_leBytes]
    exact Nat.mod_eq_of_lt (by change _ < 4294967296; omega)
  have hfive : ∀ j ∈ List.range 5, (leaf (UInt32.ofNat (5 * (i.toNat / 5) + j))).length = 12 :=
    fun j _ => leaf_length _
  have hblock := flatMap_block hfive (i.toNat % 5) (by rw [List.length_range]; omega)
  have hlen : ((List.range 5).flatMap fun j =>
      leaf (UInt32.ofNat (5 * (i.toNat / 5) + j))).length = 60 := by
    simp [leaf_length]
  rw [List.getElem_range, Nat.div_add_mod, UInt32.ofNat_toNat] at hblock
  have hdigest : ∀ personal fed : List UInt8, digest 60 personal (fed ++ leBytes 4 (i.toNat / 5)) =
      (List.range 5).flatMap fun j => leaf (UInt32.ofNat (5 * (i.toNat / 5) + j)) := fun _ fed => by
    rw [digest, List.length_append, leBytes_length, Nat.add_sub_cancel, List.drop_left, hcall,
      List.take_left' hlen]
  rw [← hblock, ← hdigest base.state.personal (base.state.fed ++ nonce.toList)]
  rfl

theorem table_eq : nonceTable digestLength params96 base_eq nonce = table := by
  have hcongr : ∀ {l l' : UInt32 → List UInt8} (h : ∀ i, (l i).length = 12)
      (h' : ∀ i, (l' i).length = 12), l = l' →
      table96 l (fun i _ => h i) = table96 l' fun i _ => h' i := by
    rintro l _ _ _ rfl
    rfl
  exact hcongr (nonceLeaf_length digestLength params96 base_eq nonce) leaf_length nonceLeaf_eq

theorem legal : (sequential maxRows).Legal (packLeaves leaf) usedDevice :=
  sequential_legal le_rfl _ _

theorem nominal :
    Nominal crates base backend (sequential maxRows) usedDevice input nonce where
  digest := digestLength
  started := base_eq
  verifier := fun soln => by
    rw [table_eq]
    change verifier soln = true ↔ _
    rw [verifier, List.any_eq_true]
    simp only [solution_iff, List.mem_cons, List.not_mem_nil, or_false, beq_iff_eq]
  leaves := by
    rw [nonceLeaf_eq]
    exact ⟨rfl, fun _ _ => rfl⟩
  legal := legal
  noOverflow := (runNonce_ok (fun i _ => leaf_length i) _ _ legal).roomy roomy

theorem nominal_table : nominal.table = table := table_eq

theorem firstSolution : FirstSolution nominal.table first := by
  rw [nominal_table]
  refine ⟨(solution_iff _).mpr (.inl rfl), fun u hu hne => ?_⟩
  obtain rfl := ((solution_iff u).mp hu).resolve_left hne
  exact computed.2.2.2.2

/-- Only the second solution is under the target; the easiest target takes the first one too. -/
theorem hashes : ¬ Under crates input target first ∧ Under crates input target second ∧
    Under crates input maxTarget first := by decide +kernel

end Blocks

/-- The nonce whose first solution is above the target: the CPU and the hybrid worker drop the second
    one, which the full-GPU loop submits. -/
theorem second_solution_missed :
    Nominal Blocks.crates Blocks.base Blocks.backend (sequential maxRows) usedDevice Blocks.input
      Blocks.nonce ∧
    HasWinner Blocks.crates Blocks.input Blocks.target Blocks.nonce ∧
    FullGpuReports Blocks.crates Blocks.backend (sequential maxRows) usedDevice Blocks.input
      Blocks.target Blocks.nonce ∧
    cpuAttempt Blocks.crates Blocks.base Blocks.input Blocks.target Blocks.nonce = none ∧
    hybridAttempt Blocks.crates Blocks.backend Blocks.input Blocks.target Blocks.nonce = none ∧
    ¬ PathsAgree Blocks.crates Blocks.base Blocks.backend (sequential maxRows) usedDevice
      Blocks.input Blocks.target Blocks.nonce := by
  have hwin : ∃ t, Blocks.nominal.table.Solution t ∧ Under Blocks.crates Blocks.input Blocks.target t :=
    ⟨Blocks.second, Blocks.nominal_table ▸ (Blocks.solution_iff _).mpr (.inr rfl),
      Blocks.hashes.2.1⟩
  have hfull := (fullGpuReports_iff Blocks.nominal).mpr hwin
  have hcpu : cpuAttempt Blocks.crates Blocks.base Blocks.input Blocks.target Blocks.nonce = none := by
    rw [← Option.not_isSome_iff_eq_none, cpuAttempt_isSome Blocks.nominal]
    rintro ⟨t, ht, hunder⟩
    rw [ht.unique Blocks.firstSolution] at hunder
    exact Blocks.hashes.1 hunder
  refine ⟨Blocks.nominal, (hasWinner_iff Blocks.nominal).mpr hwin, hfull, hcpu, ?_, fun h => ?_⟩
  · rw [hybridAttempt_eq Blocks.digestLength Blocks.base_eq Blocks.nominal.leaves, hcpu]
  · have := h.cpu.mpr hfull
    rw [hcpu] at this
    cases this

/-- With the easiest target the first solution wins, and the paths agree. -/
theorem mining_paths_agree_demo :
    PathsAgree Blocks.crates Blocks.base Blocks.backend (sequential maxRows) usedDevice
      Blocks.input maxTarget Blocks.nonce :=
  (mining_paths_agree Blocks.crates Blocks.base Blocks.backend (sequential maxRows) usedDevice
    Blocks.input maxTarget Blocks.nonce Blocks.nominal).mpr
    (.inr ⟨Blocks.first, Blocks.firstSolution, Blocks.hashes.2.2⟩)

end Equium.Miner
