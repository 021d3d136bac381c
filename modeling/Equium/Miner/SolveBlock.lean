import Equium.Solver.Totality

/-! @src clients/web-miner/wasm/src/lib.rs, crates/equihash-core/src/solver.rs | name:solve_block |
    scheme:first hit of a counter

    The loop of `solve` has no bound of its own: it stops when its closure has no nonce left. The
    closure of `solve_block` counts in a wrapping `u32` and stops above `max_attempts`, which no
    counter is when `max_attempts` is the largest `u32`. -/

namespace Equium.Miner
open Schemes Equium.Core Equium.Solver

structure Solution where
  nonce : Bytes32
  solnIndices : List UInt8

/-- What the browser gets. -/
structure EquihashSolution where
  nonce : List UInt8
  solnIndices : List UInt8
  attempts : UInt32

/-- The loop of `solve` over the nonces of a closure with state `σ`: its result, the closure's state
    then, and the nonces tried. No result within the fuel is `none`. -/
def solveLoop {σ : Type} (nextNonce : σ → Option Bytes32 × σ)
    (tryNonce : Bytes32 → Option (List UInt8)) :
    ℕ → σ → Option (Except SolveError Solution × σ × List Bytes32)
  | 0, _ => none
  | fuel + 1, s =>
    match nextNonce s with
    | (none, s) => some (.error .noSolutionFound, s, [])
    | (some nonce, s) =>
      match tryNonce nonce with
      | some solnIndices => some (.ok ⟨nonce, solnIndices⟩, s, [nonce])
      | none => (solveLoop nextNonce tryNonce fuel s).map fun r => (r.1, r.2.1, nonce :: r.2.2)

/-- `solve`; a panic of `BaseState::new` is no result either. -/
def solve {σ : Type} (n k : UInt32) (input : Vector UInt8 iLen)
    (nextNonce : σ → Option Bytes32 × σ)
    (tryNonce : BaseState → Vector UInt8 iLen → Bytes32 → Option (List UInt8)) (fuel : ℕ) (s : σ) :
    Option (Except SolveError Solution × σ × List Bytes32) := do
  match ← Checked.BaseState.new n k input with
  | .error e => pure (.error e, s, [])
  | .ok base => solveLoop nextNonce (tryNonce base input) fuel s

/-- The seed with the counter's bytes XORed into its front. -/
def seedXor (seed : Bytes32) (counter : UInt32) : Bytes32 :=
  let bytes := toLe32 counter
  let nonce := seed
  let nonce := nonce.set 0 (nonce[0] ^^^ bytes[0])
  let nonce := nonce.set 1 (nonce[1] ^^^ bytes[1])
  let nonce := nonce.set 2 (nonce[2] ^^^ bytes[2])
  nonce.set 3 (nonce[3] ^^^ bytes[3])

/-- The closure of `solve_block`, on its counter. -/
def nextNonce (maxAttempts : UInt32) (seed : Bytes32) (counter : UInt32) :
    Option Bytes32 × UInt32 :=
  -- wrapping_add
  let counter := counter + 1
  if counter > maxAttempts then (none, counter) else (some (seedXor seed counter), counter)

/-- `solve_block`, with the nonces it tried. -/
def solveBlock (tryNonce : BaseState → Vector UInt8 iLen → Bytes32 → Option (List UInt8))
    (n k : UInt32) (challenge miner : List UInt8) (height : UInt64) (maxAttempts : UInt32)
    (seed : List UInt8) (fuel : ℕ) : Option (Option EquihashSolution × List Bytes32) :=
  if h : challenge.length = 32 ∧ miner.length = 32 ∧ seed.length = 32 then
    let c : Bytes32 := ⟨challenge.toArray, by simp [h]⟩
    let m : Bytes32 := ⟨miner.toArray, by simp [h]⟩
    let s : Bytes32 := ⟨seed.toArray, by simp [h]⟩
    let input := buildInput c m height
    (solve n k input (nextNonce maxAttempts s) tryNonce fuel 0).map fun r =>
      (match r.1 with
        | .ok result => some ⟨result.nonce.toList, result.solnIndices, r.2.1⟩
        | .error _ => none, r.2.2)
  else some (none, [])

/-! ### The nonces of the closure -/

theorem seedXor_toList (seed : Bytes32) (counter : UInt32) : (seedXor seed counter).toList =
    List.zipWith (· ^^^ ·) (seed.toList.take 4) (leBytes 4 counter.toNat) ++ seed.toList.drop 4 := by
  refine List.ext_getElem (by simp) fun i hi _ => ?_
  rw [Vector.length_toList] at hi
  have hbytes : ∀ j (hj : j < 4),
      (toLe32 counter)[j] = (leBytes 4 counter.toNat).get ⟨j, by simpa⟩ :=
    fun j hj => by simp [toLe32]
  rcases lt_or_ge i 4 with hlt | hge
  · rw [List.getElem_append_left (by simpa using hlt)]
    obtain rfl | rfl | rfl | rfl : i = 0 ∨ i = 1 ∨ i = 2 ∨ i = 3 := by omega
    all_goals simp [seedXor, hbytes]
  · rw [List.getElem_append_right (by simpa using hge)]
    simp [seedXor, show (0 : ℕ) ≠ i by omega, show (1 : ℕ) ≠ i by omega,
      show (2 : ℕ) ≠ i by omega, show (3 : ℕ) ≠ i by omega, show 4 + (i - 4) = i by omega]

/-- XOR with one byte string tells byte strings apart. -/
theorem zipWith_xor_inj {a b c : List UInt8} (hb : a.length = b.length) (hc : a.length = c.length)
    (h : List.zipWith (· ^^^ ·) a b = List.zipWith (· ^^^ ·) a c) : b = c := by
  refine List.ext_getElem (hb.symm.trans hc) fun i hi hi' => ?_
  have hget := congrArg (·[i]?) h
  simp only [List.getElem?_zipWith, List.getElem?_eq_getElem hi, List.getElem?_eq_getElem hi',
    List.getElem?_eq_getElem (hb ▸ hi : i < a.length), Option.some.injEq] at hget
  simpa [← UInt8.xor_assoc] using congrArg (a[i] ^^^ ·) hget

/-- Different counters give different nonces. -/
theorem seedXor_inj {seed : Bytes32} {c c' : UInt32} (h : seedXor seed c = seedXor seed c') :
    c = c' := by
  have hlist := congrArg Vector.toList h
  rw [seedXor_toList, seedXor_toList] at hlist
  have hlen : (seed.toList.take 4).length = 4 := by simp
  have hbytes := zipWith_xor_inj (by simp) (by simp) (List.append_cancel_right hlist)
  exact UInt32.toNat_inj.mp (leBytes_inj (by simpa using c.toNat_lt) (by simpa using c'.toNat_lt)
    hbytes)

/-- The nonces of `count` counters after `c`. -/
def noncesAfter (seed : Bytes32) (c count : ℕ) : List Bytes32 :=
  (List.range' (c + 1) count).map fun i => seedXor seed (UInt32.ofNat i)

theorem noncesAfter_succ (seed : Bytes32) (c : UInt32) (count : ℕ) :
    noncesAfter seed c.toNat (count + 1) =
      seedXor seed (c + 1) :: noncesAfter seed (c.toNat + 1) count := by
  have hnext : UInt32.ofNat (c.toNat + 1) = c + 1 := by
    rw [UInt32.ofNat_add, UInt32.ofNat_toNat]
    rfl
  rw [noncesAfter, List.range'_succ, List.map_cons, hnext]
  rfl

theorem noncesAfter_concat (seed : Bytes32) {c count : ℕ} {w : UInt32}
    (hw : c + (count + 1) = w.toNat) :
    noncesAfter seed c (count + 1) = noncesAfter seed c count ++ [seedXor seed w] := by
  have hlast : c + 1 + count = w.toNat := by omega
  rw [noncesAfter, List.range'_concat, List.map_append, Nat.one_mul, hlast, List.map_singleton,
    UInt32.ofNat_toNat]
  rfl

theorem noncesAfter_nodup {seed : Bytes32} {c count : ℕ} (h : c + count < 2 ^ 32) :
    (noncesAfter seed c count).Nodup := by
  refine (List.nodup_map_iff_inj_on List.nodup_range').mpr fun i hi j hj he => ?_
  have hi := List.mem_range'_1.mp hi
  have hj := List.mem_range'_1.mp hj
  have hnat := congrArg UInt32.toNat (seedXor_inj he)
  rwa [UInt32.toNat_ofNat_of_lt' (show i < 2 ^ 32 by omega),
    UInt32.toNat_ofNat_of_lt' (show j < 2 ^ 32 by omega)] at hnat

/-! ### Runs of the loop -/

variable {tryNonce : Bytes32 → Option (List UInt8)} {maxAttempts : UInt32} {seed : Bytes32}

theorem succ_toNat {c : UInt32} (h : c.toNat + 1 < 2 ^ 32) : (c + 1).toNat = c.toNat + 1 := by
  rw [UInt32.toNat_add]
  exact Nat.mod_eq_of_lt h

/-- The closure below its limit. -/
theorem nextNonce_some {c : UInt32} (h : c.toNat < maxAttempts.toNat) :
    nextNonce maxAttempts seed c = (some (seedXor seed (c + 1)), c + 1) := by
  have hmax := maxAttempts.toNat_lt
  have hc := succ_toNat (show c.toNat + 1 < 2 ^ 32 by omega)
  exact if_neg (UInt32.not_lt.mpr (UInt32.le_iff_toNat_le.mpr (by omega)))

/-- STEP LEMMA: a nonce without a solution takes the loop to the next counter. -/
theorem solveLoop_step {c : UInt32} (h : c.toNat < maxAttempts.toNat)
    (hnone : tryNonce (seedXor seed (c + 1)) = none) (fuel : ℕ) :
    solveLoop (nextNonce maxAttempts seed) tryNonce (fuel + 1) c =
      (solveLoop (nextNonce maxAttempts seed) tryNonce fuel (c + 1)).map
        fun r => (r.1, r.2.1, seedXor seed (c + 1) :: r.2.2) := by
  rw [solveLoop, nextNonce_some h]
  simp only [hnone]

/-- RUN LEMMA: counters without a solution are skipped. -/
theorem solveLoop_skip (fuel count : ℕ) {c c' : UInt32} (hc : c.toNat + count = c'.toNat)
    (hmax : c'.toNat ≤ maxAttempts.toNat)
    (hnone : ∀ d : UInt32, c.toNat < d.toNat → d.toNat ≤ c'.toNat →
      tryNonce (seedXor seed d) = none) :
    solveLoop (nextNonce maxAttempts seed) tryNonce (fuel + count) c =
      (solveLoop (nextNonce maxAttempts seed) tryNonce fuel c').map
        fun r => (r.1, r.2.1, noncesAfter seed c.toNat count ++ r.2.2) := by
  induction count generalizing c with
  | zero =>
    obtain rfl : c = c' := UInt32.toNat_inj.mp hc
    exact Option.map_id'.symm
  | succ count ih =>
    have hsucc := succ_toNat (show c.toNat + 1 < 2 ^ 32 by have := c'.toNat_lt; omega)
    rw [← Nat.add_assoc, solveLoop_step (by omega) (hnone _ (by omega) (by omega)),
      ih (by omega) fun d h h' => hnone d (by omega) h', Option.map_map, noncesAfter_succ, hsucc]
    rfl

/-- The loop stops at the first counter with a solution. -/
theorem solveLoop_finds {w : UInt32} {solnIndices : List UInt8}
    (hw : w.toNat ≤ maxAttempts.toNat) (hfound : tryNonce (seedXor seed w) = some solnIndices)
    (count : ℕ) {c : UInt32} (hc : c.toNat + (count + 1) = w.toNat)
    (hnone : ∀ c' : UInt32, c.toNat < c'.toNat → c'.toNat < w.toNat →
      tryNonce (seedXor seed c') = none) :
    solveLoop (nextNonce maxAttempts seed) tryNonce (count + 1) c =
      some (.ok ⟨seedXor seed w, solnIndices⟩, w, noncesAfter seed c.toNat (count + 1)) := by
  have hlt := w.toNat_lt
  have hprev : (UInt32.ofNat (c.toNat + count)).toNat = c.toNat + count :=
    UInt32.toNat_ofNat_of_lt' (show c.toNat + count < 2 ^ 32 by omega)
  have hnext : UInt32.ofNat (c.toNat + count) + 1 = w := by
    refine UInt32.toNat_inj.mp ?_
    rw [succ_toNat (by omega), hprev]
    omega
  have hlast : solveLoop (nextNonce maxAttempts seed) tryNonce 1 (UInt32.ofNat (c.toNat + count)) =
      some (.ok ⟨seedXor seed w, solnIndices⟩, w, [seedXor seed w]) := by
    rw [solveLoop, nextNonce_some (by omega), hnext]
    simp only [hfound]
  rw [noncesAfter_concat seed hc, Nat.add_comm count, solveLoop_skip 1 count hprev.symm (by omega)
    fun d h h' => hnone d h (by omega), hlast]
  rfl

/-- Without a solution up to a limit that the counter can pass, the loop gives up. -/
theorem solveLoop_gives_up (hmax : maxAttempts.toNat < 2 ^ 32 - 1) (count : ℕ) {c : UInt32}
    (hc : c.toNat + count = maxAttempts.toNat)
    (hnone : ∀ c' : UInt32, c.toNat < c'.toNat → c'.toNat ≤ maxAttempts.toNat →
      tryNonce (seedXor seed c') = none) :
    solveLoop (nextNonce maxAttempts seed) tryNonce (count + 1) c =
      some (.error .noSolutionFound, maxAttempts + 1, noncesAfter seed c.toNat count) := by
  have hsucc := succ_toNat (show maxAttempts.toNat + 1 < 2 ^ 32 by omega)
  have hgt : maxAttempts + 1 > maxAttempts := UInt32.lt_iff_toNat_lt.mpr (by omega)
  have hlast : solveLoop (nextNonce maxAttempts seed) tryNonce 1 maxAttempts =
      some (.error .noSolutionFound, maxAttempts + 1, []) := by
    rw [solveLoop, nextNonce, if_pos hgt]
  rw [Nat.add_comm, solveLoop_skip 1 count hc le_rfl hnone, hlast, Option.map_some,
    List.append_nil]

/-- No `u32` is above the largest one. -/
theorem nextNonce_unbounded (hmax : maxAttempts.toNat = 2 ^ 32 - 1) (c : UInt32) :
    nextNonce maxAttempts seed c = (some (seedXor seed (c + 1)), c + 1) := by
  have hlt := (c + 1).toNat_lt
  exact if_neg (UInt32.not_lt.mpr (UInt32.le_iff_toNat_le.mpr (by omega)))

/-- With the largest limit the closure never stops the loop. -/
theorem solveLoop_unbounded (hmax : maxAttempts.toNat = 2 ^ 32 - 1) (fuel : ℕ) (c : UInt32)
    {r : Except SolveError Solution × UInt32 × List Bytes32}
    (h : solveLoop (nextNonce maxAttempts seed) tryNonce fuel c = some r) :
    ∃ s, r.1 = .ok s := by
  induction fuel generalizing c r with
  | zero => cases h
  | succ fuel ih =>
    rw [solveLoop, nextNonce_unbounded hmax] at h
    cases hf : tryNonce (seedXor seed (c + 1)) with
    | some solnIndices =>
      simp only [hf, Option.some.injEq] at h
      exact ⟨⟨_, solnIndices⟩, by rw [← h]⟩
    | none =>
      simp only [hf, Option.map_eq_some_iff] at h
      obtain ⟨r', hr', rfl⟩ := h
      obtain ⟨s, hs⟩ := ih (c + 1) hr'
      exact ⟨s, hs⟩

/-! ### `solve_block` -/

/-- What a caller of `solve_block` counts on: it returns after at most `maxAttempts` different nonces,
    with the first hit of the counters `1 … maxAttempts` if there is one. -/
def MeetsBound (tryNonce : Bytes32 → Option (List UInt8)) (maxAttempts : UInt32) (seed : Bytes32)
    (run : ℕ → Option (Option EquihashSolution × List Bytes32)) : Prop :=
  ∃ fuel result tried, run fuel = some (result, tried) ∧ tried.length ≤ maxAttempts.toNat ∧
    tried.Nodup ∧
    (result = none ↔ ∀ c : UInt32, 1 ≤ c → c ≤ maxAttempts → tryNonce (seedXor seed c) = none) ∧
    ∀ s, result = some s → ∃ (c : UInt32) (solnIndices : List UInt8), 1 ≤ c ∧ c ≤ maxAttempts ∧
      tryNonce (seedXor seed c) = some solnIndices ∧
      (∀ c' : UInt32, 1 ≤ c' → c' < c → tryNonce (seedXor seed c') = none) ∧
      s = ⟨(seedXor seed c).toList, solnIndices, c⟩

theorem one_le_iff {c : UInt32} : 1 ≤ c ↔ 0 < c.toNat := UInt32.le_iff_toNat_le

/-- What `solve_block` makes of the end of the loop. -/
def ending (r : Except SolveError Solution × UInt32 × List Bytes32) :
    Option EquihashSolution × List Bytes32 :=
  (match r.1 with
    | .ok result => some ⟨result.nonce.toList, result.solnIndices, r.2.1⟩
    | .error _ => none, r.2.2)

/-- On 32-byte arguments `solve_block` is the loop from counter 0. -/
theorem solveBlock_eq {tryNonce : BaseState → Vector UInt8 iLen → Bytes32 → Option (List UInt8)}
    {n k : UInt32} {challenge miner seed : Bytes32} {height : UInt64} {base : BaseState}
    (hbase : Checked.BaseState.new n k (buildInput challenge miner height) = some (.ok base))
    (maxAttempts : UInt32) (fuel : ℕ) :
    solveBlock tryNonce n k challenge.toList miner.toList height maxAttempts seed.toList fuel =
      (solveLoop (nextNonce maxAttempts seed) (tryNonce base (buildInput challenge miner height))
        fuel 0).map ending := by
  have hlen : challenge.toList.length = 32 ∧ miner.toList.length = 32 ∧ seed.toList.length = 32 := by
    simp
  rw [solveBlock, dif_pos hlen]
  exact congrArg (Option.map _) (bind_of_some hbase _)

/-- The first counter with a solution. -/
theorem exists_first {tryNonce : Bytes32 → Option (List UInt8)} {seed : Bytes32} {c : UInt32}
    (hc : 1 ≤ c) (h : (tryNonce (seedXor seed c)).isSome = true) :
    ∃ w : UInt32, 1 ≤ w ∧ w ≤ c ∧ (∃ solnIndices, tryNonce (seedXor seed w) = some solnIndices) ∧
      ∀ c' : UInt32, 1 ≤ c' → c' < w → tryNonce (seedXor seed c') = none := by
  have hex : ∃ i, 0 < i ∧ i < 2 ^ 32 ∧ (tryNonce (seedXor seed (UInt32.ofNat i))).isSome = true :=
    ⟨c.toNat, one_le_iff.mp hc, c.toNat_lt, by rwa [UInt32.ofNat_toNat]⟩
  classical
  obtain ⟨hpos, hlt, hsome⟩ := Nat.find_spec hex
  have hw : (UInt32.ofNat (Nat.find hex)).toNat = Nat.find hex := UInt32.toNat_ofNat_of_lt' hlt
  refine ⟨UInt32.ofNat (Nat.find hex), one_le_iff.mpr (by rw [hw]; exact hpos), ?_,
    Option.isSome_iff_exists.mp hsome, fun c' hc' hlt' => ?_⟩
  · rw [UInt32.le_iff_toNat_le, hw]
    exact Nat.find_min' hex ⟨one_le_iff.mp hc, c.toNat_lt, by rwa [UInt32.ofNat_toNat]⟩
  · rw [UInt32.lt_iff_toNat_lt, hw] at hlt'
    have hmin := Nat.find_min hex hlt'
    rw [UInt32.ofNat_toNat] at hmin
    cases hf : tryNonce (seedXor seed c') with
    | none => rfl
    | some solnIndices =>
      exact absurd ⟨one_le_iff.mp hc', c'.toNat_lt, by rw [hf]; rfl⟩ hmin

section
variable {run : ℕ → Option (Option EquihashSolution × List Bytes32)}
  (hrun : ∀ fuel, run fuel =
    (solveLoop (nextNonce maxAttempts seed) tryNonce fuel 0).map ending)
include hrun

/-- The loop stops at the first hit. -/
theorem meetsBound_of_hit {w : UInt32} {solnIndices : List UInt8} (hw : 1 ≤ w)
    (hwmax : w ≤ maxAttempts) (hfound : tryNonce (seedXor seed w) = some solnIndices)
    (hfirst : ∀ c : UInt32, 1 ≤ c → c < w → tryNonce (seedXor seed c) = none) :
    MeetsBound tryNonce maxAttempts seed run := by
  have hwpos := one_le_iff.mp hw
  have hcount : (0 : UInt32).toNat + (w.toNat - 1 + 1) = w.toNat := by
    rw [UInt32.toNat_zero]
    omega
  have hloop := solveLoop_finds (UInt32.le_iff_toNat_le.mp hwmax) hfound (w.toNat - 1) hcount
    fun c h h' => hfirst c (one_le_iff.mpr h) (UInt32.lt_iff_toNat_lt.mpr h')
  refine ⟨w.toNat - 1 + 1, _, _, by rw [hrun, hloop]; rfl, ?_, ?_, ?_, ?_⟩
  · have := UInt32.le_iff_toNat_le.mp hwmax
    simp [noncesAfter]
    omega
  · exact noncesAfter_nodup (by rw [hcount]; exact w.toNat_lt)
  · simp only [reduceCtorEq, false_iff]
    intro hnone
    rw [hnone w hw hwmax] at hfound
    cases hfound
  · rintro s hs
    obtain rfl := Option.some.inj hs
    exact ⟨w, solnIndices, hw, hwmax, hfound, hfirst, rfl⟩

variable (hnone : ∀ c : UInt32, 1 ≤ c → c ≤ maxAttempts → tryNonce (seedXor seed c) = none)
include hnone

/-- The counter passes the limit. -/
theorem meetsBound_of_limit (hlt : maxAttempts.toNat < 2 ^ 32 - 1) :
    MeetsBound tryNonce maxAttempts seed run := by
  have hloop := solveLoop_gives_up hlt maxAttempts.toNat (c := 0)
    (by rw [UInt32.toNat_zero, Nat.zero_add])
    fun c h h' => hnone c (one_le_iff.mpr h) (UInt32.le_iff_toNat_le.mpr h')
  refine ⟨maxAttempts.toNat + 1, none, _, by rw [hrun, hloop]; rfl, ?_, ?_, ?_, ?_⟩
  · simp [noncesAfter]
  · exact noncesAfter_nodup (by rw [UInt32.toNat_zero]; omega)
  · simpa using hnone
  · rintro s hs
    cases hs

/-- The counter never passes the limit. -/
theorem not_meetsBound (hmax : maxAttempts.toNat = 2 ^ 32 - 1) :
    ¬ MeetsBound tryNonce maxAttempts seed run := by
  rintro ⟨fuel, result, tried, hout, -, -, hiff, -⟩
  rw [hrun, Option.map_eq_some_iff] at hout
  obtain ⟨r, hr, hout⟩ := hout
  obtain ⟨s, hs⟩ := solveLoop_unbounded hmax fuel 0 hr
  rw [ending, hs, hiff.mpr hnone] at hout
  cases (Prod.mk.inj hout).1

end

/-- BOUNDED: `solve_block` keeps to its limit exactly when the limit is not the largest `u32`, or some
    counter has a solution. -/
theorem solveBlock_bound_iff
    (tryNonce : BaseState → Vector UInt8 iLen → Bytes32 → Option (List UInt8)) (n k : UInt32)
    (challenge miner seed : Bytes32) (height : UInt64) (maxAttempts : UInt32) (base : BaseState)
    (hbase : Checked.BaseState.new n k (buildInput challenge miner height) = some (.ok base)) :
    MeetsBound (tryNonce base (buildInput challenge miner height)) maxAttempts seed
        (solveBlock tryNonce n k challenge.toList miner.toList height maxAttempts seed.toList) ↔
      maxAttempts.toNat < 2 ^ 32 - 1 ∨ ∃ c : UInt32, 1 ≤ c ∧
        (tryNonce base (buildInput challenge miner height) (seedXor seed c)).isSome = true := by
  have hmax := maxAttempts.toNat_lt
  have hrun := @solveBlock_eq tryNonce _ _ _ _ seed _ _ hbase maxAttempts
  generalize tryNonce base (buildInput challenge miner height) = try' at *
  by_cases hhit : ∃ c : UInt32, 1 ≤ c ∧ c ≤ maxAttempts ∧ (try' (seedXor seed c)).isSome = true
  · obtain ⟨c, hc, hcmax, hsome⟩ := hhit
    obtain ⟨w, hw, hwc, ⟨solnIndices, hfound⟩, hfirst⟩ := exists_first hc hsome
    exact iff_of_true (meetsBound_of_hit hrun hw (UInt32.le_trans hwc hcmax) hfound hfirst)
      (.inr ⟨c, hc, hsome⟩)
  · have hnone : ∀ c : UInt32, 1 ≤ c → c ≤ maxAttempts → try' (seedXor seed c) = none :=
      fun c hc hcmax => Option.not_isSome_iff_eq_none.mp fun hsome => hhit ⟨c, hc, hcmax, hsome⟩
    by_cases hlt : maxAttempts.toNat < 2 ^ 32 - 1
    · exact iff_of_true (meetsBound_of_limit hrun hnone hlt) (.inl hlt)
    · refine iff_of_false (not_meetsBound hrun hnone (by omega)) ?_
      rintro (h | ⟨c, hc, hsome⟩)
      · exact hlt h
      · have hcmax : c ≤ maxAttempts :=
          UInt32.le_iff_toNat_le.mpr (by have := c.toNat_lt; omega)
        exact hhit ⟨c, hc, hcmax, hsome⟩

theorem solveBlock_bound_demo : MeetsBound (fun _ => none) 1000 (Vector.replicate 32 7)
    (solveBlock (fun _ _ _ => none) 96 5 (Vector.replicate 32 (1 : UInt8)).toList
      (Vector.replicate 32 (2 : UInt8)).toList 3 1000 (Vector.replicate 32 (7 : UInt8)).toList) :=
  (solveBlock_bound_iff (fun _ _ _ => none) 96 5 (Vector.replicate 32 1) (Vector.replicate 32 2)
    (Vector.replicate 32 7) 3 1000 _
    (checked_baseState_new (by decide) (by decide) _)).mpr (.inl (by decide))

/-- With the largest limit and no solution the counter goes round: the call never returns. -/
theorem solveBlock_never_returns :
    (∀ fuel, solveBlock (fun _ _ _ => none) 96 5 (Vector.replicate 32 (1 : UInt8)).toList
      (Vector.replicate 32 (2 : UInt8)).toList 3 4294967295
      (Vector.replicate 32 (7 : UInt8)).toList fuel = none) ∧
    ¬ MeetsBound (fun _ => none) 4294967295 (Vector.replicate 32 7)
      (solveBlock (fun _ _ _ => none) 96 5 (Vector.replicate 32 (1 : UInt8)).toList
        (Vector.replicate 32 (2 : UInt8)).toList 3 4294967295
        (Vector.replicate 32 (7 : UInt8)).toList) := by
  have hloop : ∀ fuel (c : UInt32), solveLoop (nextNonce 4294967295 (Vector.replicate 32 7))
      (fun _ => none) fuel c = none := by
    intro fuel
    induction fuel with
    | zero => exact fun _ => rfl
    | succ fuel ih =>
      intro c
      rw [solveLoop, nextNonce_unbounded rfl]
      simp only [ih, Option.map_none]
  have hrun : ∀ fuel, solveBlock (fun _ _ _ => none) 96 5 (Vector.replicate 32 (1 : UInt8)).toList
      (Vector.replicate 32 (2 : UInt8)).toList 3 4294967295
      (Vector.replicate 32 (7 : UInt8)).toList fuel = none := fun fuel => by
    rw [solveBlock_eq (checked_baseState_new (by decide) (by decide) _), hloop]
    rfl
  refine ⟨hrun, ?_⟩
  rintro ⟨fuel, result, tried, hout, -⟩
  rw [hrun] at hout
  cases hout

end Equium.Miner
