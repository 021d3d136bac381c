import Equium.Website.Check
import Equium.Miner.SolveBlock
import Equium.Miner.Landing

/-! @src clients/web-miner/app/src/miner.ts, solver.worker.ts | name:Loop of the web miner |
    scheme:run-invariant

    One async loop drives one worker. `stop` terminates the worker and raises a flag that only the
    loop's own test reads, so whatever is awaited runs on to that test; a config that arrives after the
    stop still starts a worker, whose handle nobody has. -/

namespace Equium.WebMiner
open Schemes Equium.Core Equium.Program Miner

/-- The fields of the on-chain config the loop reads. -/
structure EquiumConfig extends Website.EquiumConfig where
  mint : Pubkey
  equihashN : UInt32
  equihashK : UInt32

structure SolveRequest where
  jobId : ℕ
  n : UInt32
  k : UInt32
  challenge : List UInt8
  miner : List UInt8
  height : UInt64
  maxAttempts : UInt32
  seed : List UInt8
  deriving DecidableEq

inductive SolveResponse where
  | solved (jobId : ℕ) (nonce solnIndices : List UInt8) (attempts : UInt32)
  | noSolution (jobId : ℕ) (attempts : UInt32)
  | error (jobId : ℕ) (message : String)

def SolveResponse.jobId : SolveResponse → ℕ
  | .solved jobId _ _ _ => jobId
  | .noSolution jobId _ => jobId
  | .error jobId _ => jobId

/-- What the worker's `onmessage` posts back; loading the WASM or a panic in it throws. -/
inductive Answers (c : Crates) (req : SolveRequest) : SolveResponse → Prop
  | solved {fuel : ℕ} {result : EquihashSolution} {tried : List Bytes32}
      (h : solveBlock (Solver.tryNonce c) req.n req.k req.challenge req.miner req.height
        req.maxAttempts req.seed fuel = some (some result, tried)) :
      Answers c req (.solved req.jobId result.nonce result.solnIndices result.attempts)
  | noSolution {fuel : ℕ} {tried : List Bytes32}
      (h : solveBlock (Solver.tryNonce c) req.n req.k req.challenge req.miner req.height
        req.maxAttempts req.seed fuel = some (none, tried)) :
      Answers c req (.noSolution req.jobId req.maxAttempts)
  | error (message : String) : Answers c req (.error req.jobId message)

/-- A solution and the config it was searched for. -/
structure Candidate where
  cfg : EquiumConfig
  nonce : List UInt8
  solnIndices : List UInt8

/-- What the loop awaits. -/
inductive Pc where
  | fetching
  | sleeping
  | solving (worker jobId : ℕ) (cfg : EquiumConfig)
  | hashing (cand : Candidate)
  | detecting (cand : Candidate)
  /-- the transaction, a blockhash and the wallet's signature -/
  | signing (cand : Candidate) (tokenProgram : Pubkey)
  | sending (cand : Candidate) (tokenProgram : Pubkey)
  | confirming (cand : Candidate)
  | done

/-- The closure of `startMiner`, with the browser's workers. -/
structure Loop where
  stopped : Bool
  worker : Option ℕ
  nextJobId : ℕ
  tokenProgramCache : Option Pubkey
  pc : Pc
  /-- workers made so far; the next one's name -/
  created : ℕ
  /-- workers that run -/
  alive : List ℕ
  /-- requests a running worker has not answered -/
  posted : List (ℕ × SolveRequest)

/-- `startMiner`, up to its first `await`. -/
def startMiner : Loop where
  stopped := false
  worker := none
  nextJobId := 1
  tokenProgramCache := none
  pc := .fetching
  created := 0
  alive := []
  posted := []

/-! ### Between two awaits -/

/-- The loop's test. -/
def Loop.again (s : Loop) : Loop := { s with pc := if s.stopped then .done else .fetching }

def Loop.sleep (s : Loop) : Loop := { s with pc := .sleeping }

def stop (s : Loop) : Loop :=
  match s.worker with
  | none => { s with stopped := true }
  | some w =>
    { s with
      stopped := true
      worker := none
      alive := s.alive.erase w
      posted := s.posted.filter (·.1 ≠ w) }

/-- `if (!worker) worker = new SolverWorker()`. -/
def Loop.ensureWorker (s : Loop) : Loop × ℕ :=
  match s.worker with
  | some w => (s, w)
  | none =>
    ({ s with worker := some s.created, alive := s.created :: s.alive, created := s.created + 1 },
      s.created)

def solveRequest (miner : Pubkey) (cfg : EquiumConfig) (seed : Bytes32) (jobId : ℕ) :
    SolveRequest where
  jobId := jobId
  n := cfg.equihashN
  k := cfg.equihashK
  challenge := cfg.currentChallenge.toList
  miner := miner.toList
  height := cfg.blockHeight
  maxAttempts := 4096
  seed := seed.toList

def solveOnWorker (miner : Pubkey) (s : Loop) (cfg : EquiumConfig) (seed : Bytes32) : Loop :=
  let (s, w) := s.ensureWorker
  { s with
    nextJobId := s.nextJobId + 1
    posted := s.posted ++ [(w, solveRequest miner cfg seed s.nextJobId)]
    pc := .solving w s.nextJobId cfg }

/-- What follows `fetchConfig`. -/
def onConfig (miner : Pubkey) (s : Loop) (cfg : Option EquiumConfig) (seed : Bytes32) : Loop :=
  match cfg with
  | none => s.sleep
  | some cfg => if cfg.miningOpen then solveOnWorker miner s cfg seed else s.sleep

def onResponse (s : Loop) (cfg : EquiumConfig) : SolveResponse → Loop
  | .error _ _ => s.sleep
  | .noSolution _ _ => s.again
  | .solved _ nonce solnIndices _ => { s with pc := .hashing ⟨cfg, nonce, solnIndices⟩ }

/-- The message handlers: only the one of the awaited job settles a promise. -/
def onMessage (s : Loop) (w : ℕ) (resp : SolveResponse) : Loop :=
  match s.pc with
  | .solving w' jobId cfg => if w = w' ∧ resp.jobId = jobId then onResponse s cfg resp else s
  | _ => s

/-- The error handlers; the job's promise is rejected, the worker stays. -/
def onError (s : Loop) (w : ℕ) : Loop :=
  match s.pc with
  | .solving w' _ _ => if w = w' then s.sleep else s
  | _ => s

/-- What follows `sha256`: the target check, then a cached token program or a lookup. -/
def onDigest (c : Crates) (miner : Pubkey) (s : Loop) (cand : Candidate) : Loop :=
  if Website.aboveTarget c miner cand.cfg.toEquiumConfig cand.solnIndices then s.again
  else
    match s.tokenProgramCache with
    | none => { s with pc := .detecting cand }
    | some tokenProgram => { s with pc := .signing cand tokenProgram }

/-- The awaits of the submission, with the candidate. -/
def Pc.submission : Pc → Option Candidate
  | .detecting cand => some cand
  | .signing cand _ => some cand
  | .sending cand _ => some cand
  | .confirming cand => some cand
  | _ => none

/-- What resumes the loop, or runs beside it. -/
inductive Event where
  | fetched (cfg : Option EquiumConfig) (seed : Bytes32)
  | woke
  | message (resp : SolveResponse)
  | workerError
  | digest
  | digestFailed
  | detected (owner : Pubkey)
  | signed
  | sent
  | confirmed
  | submitFailed
  | stop

/-- One resumption. -/
inductive Step (c : Crates) (miner : Pubkey) : Loop → Event → Loop → Prop
  | fetched {s : Loop} (hp : s.pc = .fetching) (cfg : Option EquiumConfig) (seed : Bytes32) :
      Step c miner s (.fetched cfg seed) (onConfig miner s cfg seed)
  | woke {s : Loop} (hp : s.pc = .sleeping) : Step c miner s .woke s.again
  | message {s : Loop} {w : ℕ} {req : SolveRequest} {resp : SolveResponse}
      (hposted : (w, req) ∈ s.posted) (hresp : Answers c req resp) :
      Step c miner s (.message resp)
        (onMessage { s with posted := s.posted.erase (w, req) } w resp)
  | workerError {s : Loop} {w : ℕ} (halive : w ∈ s.alive) :
      Step c miner s .workerError (onError s w)
  | digest {s : Loop} {cand : Candidate} (hp : s.pc = .hashing cand) :
      Step c miner s .digest (onDigest c miner s cand)
  | digestFailed {s : Loop} {cand : Candidate} (hp : s.pc = .hashing cand) :
      Step c miner s .digestFailed s.sleep
  | detected {s : Loop} {cand : Candidate} (hp : s.pc = .detecting cand) (owner : Pubkey) :
      Step c miner s (.detected owner)
        { s with tokenProgramCache := some owner, pc := .signing cand owner }
  | signed {s : Loop} {cand : Candidate} {tokenProgram : Pubkey}
      (hp : s.pc = .signing cand tokenProgram) :
      Step c miner s .signed { s with pc := .sending cand tokenProgram }
  | sent {s : Loop} {cand : Candidate} {tokenProgram : Pubkey}
      (hp : s.pc = .sending cand tokenProgram) :
      Step c miner s .sent { s with pc := .confirming cand }
  | confirmed {s : Loop} {cand : Candidate} (hp : s.pc = .confirming cand) :
      Step c miner s .confirmed s.again
  | submitFailed {s : Loop} {cand : Candidate} (hp : s.pc.submission = some cand) :
      Step c miner s .submitFailed s.sleep
  | stop {s : Loop} : Step c miner s .stop (stop s)

variable {c : Crates} {miner : Pubkey}

/-! ### The invariant of the loop -/

/-- The config a fetch brought. -/
def Event.config : Event → Option EquiumConfig
  | .fetched cfg _ => cfg
  | _ => none

/-- The config fetched last. -/
def lastConfig (tr : List (Taken Loop Event)) : Option EquiumConfig :=
  (tr.filterMap (·.label.config)).getLast?

theorem lastConfig_concat (tr : List (Taken Loop Event)) (t : Taken Loop Event) :
    lastConfig (tr ++ [t]) = t.label.config.or (lastConfig tr) := by
  rw [lastConfig, List.filterMap_append, List.getLast?_append]
  cases h : t.label.config <;> simp [h, lastConfig]

def Pc.candidate : Pc → Option Candidate
  | .hashing cand => some cand
  | pc => pc.submission

/-- The token program a transaction is built with. -/
def Pc.tokenProgram : Pc → Option Pubkey
  | .signing _ tokenProgram => some tokenProgram
  | .sending _ tokenProgram => some tokenProgram
  | _ => none

/-- The candidate is a solution of its config's puzzle. -/
def Candidate.Solves (c : Crates) (miner : Pubkey) (cand : Candidate) : Prop :=
  ∃ nonce : Bytes32, cand.nonce = nonce.toList ∧
    c.isValidSolution cand.cfg.equihashN cand.cfg.equihashK
      (buildInput cand.cfg.currentChallenge miner cand.cfg.blockHeight).toList nonce
      cand.solnIndices = true

/-- What every resumption keeps, with the config fetched last. -/
structure Sound (c : Crates) (miner : Pubkey) (last : Option EquiumConfig) (s : Loop) : Prop where
  alive : s.alive = s.worker.toList
  posted : ∀ p ∈ s.posted, p.1 ∈ s.alive ∧ p.2.jobId < s.nextJobId
  solving : ∀ w j cfg, s.pc = .solving w j cfg → last = some cfg ∧ j < s.nextJobId ∧
    ∀ p ∈ s.posted, p.2.jobId = j → ∃ seed, p.2 = solveRequest miner cfg seed j
  candidate : ∀ cand, s.pc.candidate = some cand → last = some cand.cfg ∧ cand.Solves c miner
  under : ∀ cand, s.pc.submission = some cand →
    Website.aboveTarget c miner cand.cfg.toEquiumConfig cand.solnIndices = false
  token : ∀ tokenProgram, s.pc.tokenProgram = some tokenProgram →
    s.tokenProgramCache = some tokenProgram

/-- The invariant asks of the control only what it carries. -/
theorem Sound.pause {last last' : Option EquiumConfig} {s s' : Loop} (h : Sound c miner last s)
    (halive : s'.alive = s.alive) (hworker : s'.worker = s.worker)
    (hposted : s'.posted ⊆ s.posted) (hnext : s'.nextJobId = s.nextJobId)
    (hpc : s'.pc = .fetching ∨ s'.pc = .sleeping ∨ s'.pc = .done) : Sound c miner last' s' where
  alive := by rw [halive, hworker, h.alive]
  posted := by
    intro p hp
    rw [halive, hnext]
    exact h.posted p (hposted hp)
  solving := by
    intro w j cfg hs
    rcases hpc with hpc | hpc | hpc <;> rw [hpc] at hs <;> cases hs
  candidate := by
    intro cand hs
    rcases hpc with hpc | hpc | hpc <;> rw [hpc] at hs <;> cases hs
  under := by
    intro cand hs
    rcases hpc with hpc | hpc | hpc <;> rw [hpc] at hs <;> cases hs
  token := by
    intro tokenProgram hs
    rcases hpc with hpc | hpc | hpc <;> rw [hpc] at hs <;> cases hs

theorem Sound.again {last : Option EquiumConfig} {s : Loop} (h : Sound c miner last s) :
    Sound c miner last s.again := by
  refine h.pause rfl rfl (List.Subset.refl _) rfl ?_
  rw [Loop.again]
  dsimp only
  split_ifs
  · exact Or.inr (Or.inr rfl)
  · exact Or.inl rfl

theorem Sound.sleep {last last' : Option EquiumConfig} {s : Loop} (h : Sound c miner last s) :
    Sound c miner last' s.sleep :=
  h.pause rfl rfl (List.Subset.refl _) rfl (Or.inr (Or.inl rfl))

/-- The next await with the same candidate. -/
theorem Sound.advance {last : Option EquiumConfig} {s s' : Loop} (h : Sound c miner last s)
    {cand : Candidate} (hcand : s.pc.candidate = some cand)
    (halive : s'.alive = s.alive) (hworker : s'.worker = s.worker) (hposted : s'.posted = s.posted)
    (hnext : s'.nextJobId = s.nextJobId) (hpc : s'.pc.submission = some cand)
    (hunder : Website.aboveTarget c miner cand.cfg.toEquiumConfig cand.solnIndices = false)
    (htoken : ∀ tokenProgram, s'.pc.tokenProgram = some tokenProgram →
      s'.tokenProgramCache = some tokenProgram) : Sound c miner last s' where
  alive := by rw [halive, hworker, h.alive]
  posted := by
    rw [halive, hposted, hnext]
    exact h.posted
  solving := by
    intro w j cfg hs
    rw [hs] at hpc
    cases hpc
  candidate := by
    intro cand' hs
    have hsame : s'.pc.candidate = s'.pc.submission := by
      cases hp : s'.pc with
      | hashing _ => rw [hp] at hpc; cases hpc
      | _ => rfl
    rw [hsame, hpc] at hs
    obtain rfl := Option.some.inj hs
    exact h.candidate _ hcand
  under := by
    intro cand' hs
    rw [hpc] at hs
    obtain rfl := Option.some.inj hs
    exact hunder
  token := htoken

/-- `ensureWorker` leaves exactly the worker it returns. -/
theorem ensureWorker_eq {last : Option EquiumConfig} {s : Loop} (h : Sound c miner last s) :
    s.ensureWorker.1.worker = some s.ensureWorker.2 ∧ s.ensureWorker.1.alive = [s.ensureWorker.2] ∧
      s.ensureWorker.1.posted = s.posted ∧ s.ensureWorker.1.nextJobId = s.nextJobId := by
  have halive := h.alive
  unfold Loop.ensureWorker
  split
  · rename_i w hw
    rw [hw] at halive
    exact ⟨hw, halive, rfl, rfl⟩
  · rename_i hw
    rw [hw] at halive
    exact ⟨rfl, by dsimp only; rw [halive]; rfl, rfl, rfl⟩

theorem Sound.solveOnWorker {last : Option EquiumConfig} {s : Loop} (h : Sound c miner last s)
    (cfg : EquiumConfig) (seed : Bytes32) :
    Sound c miner (some cfg) (solveOnWorker miner s cfg seed) := by
  obtain ⟨hworker, halive, hposted, hnext⟩ := ensureWorker_eq h
  have hold : ∀ p ∈ s.posted, p.1 = s.ensureWorker.2 := by
    intro p hp
    have hmem := (h.posted p hp).1
    have hkept : s.alive ⊆ s.ensureWorker.1.alive := by
      unfold Loop.ensureWorker
      split
      · exact List.Subset.refl _
      · exact List.subset_cons_self _ _
    simpa [halive] using hkept hmem
  refine ⟨?_, ?_, ?_, ?_, ?_, ?_⟩
  · simp [WebMiner.solveOnWorker, hworker, halive]
  · intro p hp
    simp only [WebMiner.solveOnWorker, hposted, hnext, halive, List.mem_append,
      List.mem_singleton] at hp ⊢
    rcases hp with hp | rfl
    · exact ⟨hold p hp, Nat.lt_succ_of_lt (h.posted p hp).2⟩
    · exact ⟨rfl, Nat.lt_succ_self _⟩
  · intro w j cfg' hs
    simp only [WebMiner.solveOnWorker, hposted, hnext, Pc.solving.injEq] at hs ⊢
    obtain ⟨rfl, rfl, rfl⟩ := hs
    refine ⟨rfl, Nat.lt_succ_self _, fun p hp hj => ?_⟩
    rcases List.mem_append.mp hp with hp | hp
    · exact absurd hj (h.posted p hp).2.ne
    · rw [List.mem_singleton.mp hp]
      exact ⟨seed, rfl⟩
  · rintro cand ⟨⟩
  · rintro cand ⟨⟩
  · rintro tokenProgram ⟨⟩

/-! ### The worker's answers -/

/-- A hit of the loop came from its search. -/
theorem solveLoop_hit {σ : Type} {nextNonce : σ → Option Bytes32 × σ}
    {tryNonce : Bytes32 → Option (List UInt8)} {fuel : ℕ} {st : σ} {result : Miner.Solution}
    {st' : σ} {tried : List Bytes32}
    (h : solveLoop nextNonce tryNonce fuel st = some (.ok result, st', tried)) :
    tryNonce result.nonce = some result.solnIndices := by
  induction fuel generalizing st tried with
  | zero => cases h
  | succ fuel ih =>
    rw [solveLoop] at h
    split at h
    · cases h
    · rename_i nonce s hnonce
      split at h
      · rename_i solnIndices hsoln
        cases h
        exact hsoln
      · obtain ⟨⟨r, st'', rest⟩, hr, he⟩ := Option.map_eq_some_iff.mp h
        cases he
        exact ih hr

/-- The parameters of the request are the ones searched with. -/
theorem checked_new {n k : UInt32} {input : Vector UInt8 iLen} {base : Solver.BaseState}
    (h : Solver.Checked.BaseState.new n k input = some (.ok base)) : base.n = n ∧ base.k = k := by
  unfold Solver.Checked.BaseState.new at h
  obtain ⟨b, -, h⟩ := Option.bind_eq_some_iff.mp h
  split_ifs at h
  · obtain ⟨len, -, h⟩ := Option.bind_eq_some_iff.mp h
    obtain ⟨state, -, h⟩ := Option.bind_eq_some_iff.mp h
    cases h
    exact ⟨rfl, rfl⟩
  · cases h

/-- A solution the worker posts solves the puzzle of the request. -/
theorem solveBlock_solves {cfg : EquiumConfig} {seed : Bytes32} {fuel : ℕ}
    {result : EquihashSolution} {tried : List Bytes32}
    (h : solveBlock (Solver.tryNonce c) cfg.equihashN cfg.equihashK cfg.currentChallenge.toList
      miner.toList cfg.blockHeight 4096 seed.toList fuel = some (some result, tried)) :
    Candidate.Solves c miner ⟨cfg, result.nonce, result.solnIndices⟩ := by
  have hlen : cfg.currentChallenge.toList.length = 32 ∧ miner.toList.length = 32 ∧
      seed.toList.length = 32 := by simp
  rw [solveBlock, dif_pos hlen] at h
  obtain ⟨⟨r, counter, nonces⟩, hr, he⟩ := Option.map_eq_some_iff.mp h
  obtain ⟨found, hfound, hr⟩ := Option.bind_eq_some_iff.mp hr
  cases found with
  | error e =>
    cases hr
    cases he
  | ok base =>
    cases r with
    | error e => cases he
    | ok result' =>
      cases he
      have hvalid := tryNonce_valid (solveLoop_hit hr)
      obtain ⟨hn, hk⟩ := checked_new hfound
      rw [hn, hk] at hvalid
      exact ⟨result'.nonce, rfl, hvalid⟩

/-- The reply to the awaited job. -/
theorem Answers.solves {cfg : EquiumConfig} {seed : Bytes32} {j j' : ℕ} {nonce solnIndices : List UInt8}
    {attempts : UInt32}
    (h : Answers c (solveRequest miner cfg seed j) (.solved j' nonce solnIndices attempts)) :
    Candidate.Solves c miner ⟨cfg, nonce, solnIndices⟩ := by
  cases h with
  | solved h => exact solveBlock_solves h

theorem Answers.jobId {req : SolveRequest} {resp : SolveResponse} (h : Answers c req resp) :
    resp.jobId = req.jobId := by
  cases h <;> rfl

/-! ### Every run -/

theorem Sound.onConfig {last : Option EquiumConfig} {s : Loop} (h : Sound c miner last s)
    (cfg : Option EquiumConfig) (seed : Bytes32) :
    Sound c miner (cfg.or last) (onConfig miner s cfg seed) := by
  unfold WebMiner.onConfig
  split
  · exact h.sleep
  · split_ifs
    · exact h.solveOnWorker _ seed
    · exact h.sleep

theorem Sound.onMessage {last : Option EquiumConfig} {s : Loop} (h : Sound c miner last s) {w : ℕ}
    {req : SolveRequest} {resp : SolveResponse} (hposted : (w, req) ∈ s.posted)
    (hresp : Answers c req resp) :
    Sound c miner last (onMessage { s with posted := s.posted.erase (w, req) } w resp) := by
  have herase : s.posted.erase (w, req) ⊆ s.posted := List.erase_subset
  have hrest : Sound c miner last { s with posted := s.posted.erase (w, req) } := by
    refine ⟨h.alive, fun p hp => h.posted p (herase hp), ?_, h.candidate, h.under, h.token⟩
    intro w' j cfg hs
    obtain ⟨hlast, hlt, hreq⟩ := h.solving w' j cfg hs
    exact ⟨hlast, hlt, fun p hp => hreq p (herase hp)⟩
  unfold WebMiner.onMessage
  split
  · rename_i w' j cfg hpc
    split_ifs with hmine
    · obtain ⟨hlast, -, hreq⟩ := h.solving w' j cfg hpc
      obtain ⟨seed, rfl⟩ := hreq _ hposted (hresp.jobId.symm.trans hmine.2)
      cases resp with
      | error j' message => exact hrest.sleep
      | noSolution j' attempts => exact hrest.again
      | solved j' nonce solnIndices attempts =>
        refine ⟨hrest.alive, hrest.posted, ?_, ?_, ?_, ?_⟩
        · rintro w j cfg ⟨⟩
        · rintro cand ⟨⟩
          exact ⟨hlast, hresp.solves⟩
        · rintro cand ⟨⟩
        · rintro tokenProgram ⟨⟩
    · exact hrest
  · exact hrest

theorem Sound.onError {last : Option EquiumConfig} {s : Loop} (h : Sound c miner last s) (w : ℕ) :
    Sound c miner last (onError s w) := by
  unfold WebMiner.onError
  split
  · split_ifs
    · exact h.sleep
    · exact h
  · exact h

theorem Sound.onDigest {last : Option EquiumConfig} {s : Loop} (h : Sound c miner last s)
    {cand : Candidate} (hp : s.pc = .hashing cand) :
    Sound c miner last (onDigest c miner s cand) := by
  have hcand : s.pc.candidate = some cand := by rw [hp]; rfl
  unfold WebMiner.onDigest
  split_ifs with habove
  · exact h.again
  · have hunder := Bool.eq_false_of_not_eq_true habove
    split
    · exact h.advance hcand rfl rfl rfl rfl rfl hunder (by rintro tokenProgram ⟨⟩)
    · rename_i tokenProgram hcache
      refine h.advance hcand rfl rfl rfl rfl rfl hunder ?_
      rintro _ ⟨⟩
      exact hcache

/-- A stopped loop has no worker and nothing to wait for from one. -/
structure Halted (s s' : Loop) : Prop where
  stopped : s'.stopped = true
  worker : s'.worker = none
  alive : s'.alive = []
  posted : s'.posted = []
  pc : s'.pc = s.pc
  next : s'.nextJobId = s.nextJobId
  cache : s'.tokenProgramCache = s.tokenProgramCache

theorem Sound.halted {last : Option EquiumConfig} {s : Loop} (h : Sound c miner last s) :
    Halted s (stop s) := by
  have halive := h.alive
  unfold WebMiner.stop
  split
  · rename_i hw
    rw [hw] at halive
    have hposted : s.posted = [] := by
      refine List.eq_nil_iff_forall_not_mem.mpr fun p hp => ?_
      have hmem := (h.posted p hp).1
      rw [halive] at hmem
      cases hmem
    exact ⟨rfl, hw, halive, hposted, rfl, rfl, rfl⟩
  · rename_i w hw
    rw [hw] at halive
    have hposted : s.posted.filter (·.1 ≠ w) = [] := by
      refine List.filter_eq_nil_iff.mpr fun p hp => ?_
      have hmem := (h.posted p hp).1
      rw [halive] at hmem
      simpa using List.mem_singleton.mp hmem
    exact ⟨rfl, rfl, by simp [halive], hposted, rfl, rfl, rfl⟩

theorem Sound.stop {last : Option EquiumConfig} {s : Loop} (h : Sound c miner last s) :
    Sound c miner last (stop s) := by
  have hh := h.halted
  refine ⟨?_, ?_, ?_, ?_, ?_, ?_⟩
  · rw [hh.alive, hh.worker]
    rfl
  · simp [hh.posted]
  · intro w j cfg hs
    obtain ⟨hlast, hlt, -⟩ := h.solving w j cfg (hh.pc ▸ hs)
    exact ⟨hlast, hh.next ▸ hlt, by simp [hh.posted]⟩
  · rw [hh.pc]
    exact h.candidate
  · rw [hh.pc]
    exact h.under
  · rw [hh.pc, hh.cache]
    exact h.token

/-- Step lemma: every resumption keeps the invariant. -/
theorem Step.sound {last : Option EquiumConfig} {s s' : Loop} {e : Event}
    (h : Step c miner s e s') (hs : Sound c miner last s) :
    Sound c miner (e.config.or last) s' := by
  cases h with
  | fetched hp cfg seed => exact hs.onConfig cfg seed
  | woke hp => exact hs.again
  | message hposted hresp => exact hs.onMessage hposted hresp
  | workerError halive => exact hs.onError _
  | digest hp => exact hs.onDigest hp
  | digestFailed hp => exact hs.sleep
  | detected hp owner =>
    refine hs.advance (by rw [hp]; rfl) rfl rfl rfl rfl rfl (hs.under _ (by rw [hp]; rfl)) ?_
    rintro _ ⟨⟩
    rfl
  | signed hp =>
    refine hs.advance (by rw [hp]; rfl) rfl rfl rfl rfl rfl (hs.under _ (by rw [hp]; rfl)) ?_
    rintro _ ⟨⟩
    exact hs.token _ (by rw [hp]; rfl)
  | sent hp =>
    refine hs.advance (by rw [hp]; rfl) rfl rfl rfl rfl rfl (hs.under _ (by rw [hp]; rfl)) ?_
    rintro _ ⟨⟩
  | confirmed hp => exact hs.again
  | submitFailed hp => exact hs.sleep
  | stop => exact hs.stop

/-- Run lemma: it holds in every state reached. -/
theorem sound_run {tr : List (Taken Loop Event)} {s : Loop}
    (h : Run (Step c miner) startMiner tr s) : Sound c miner (lastConfig tr) s := by
  refine h.inv (fun tr s => Sound c miner (lastConfig tr) s) ?_ ?_
  · refine ⟨rfl, by simp [startMiner], ?_, ?_, ?_, ?_⟩
    · rintro w j cfg ⟨⟩
    · rintro cand ⟨⟩
    · rintro cand ⟨⟩
    · rintro tokenProgram ⟨⟩
  · intro tr s e s' _ hs hst
    rw [lastConfig_concat]
    exact hst.sound hs

/-! ### After the last `stop` -/

/-- The order of the awaits between two tests of the loop. -/
def Pc.stage : Pc → ℕ
  | .fetching => 0
  | .solving _ _ _ => 1
  | .hashing _ => 2
  | .detecting _ => 3
  | .signing _ _ => 4
  | .sending _ _ => 5
  | .confirming _ => 6
  | .sleeping => 7
  | .done => 8

/-- A fetch that came back with mining open. -/
def Event.opens : Event → Bool
  | .fetched (some cfg) _ => cfg.miningOpen
  | _ => false

def Event.fetches : Event → Bool
  | .fetched _ _ => true
  | _ => false

/-- The wallet signed a transaction, which goes out. -/
def Event.signs : Event → Bool
  | .signed => true
  | _ => false

/-- What a resumption does to a stopped loop. -/
structure Winds (s : Loop) (e : Event) (s' : Loop) : Prop where
  stopped : s'.stopped = true
  stage : s.pc.stage ≤ s'.pc.stage
  worker : s'.worker.isSome = (s.worker.isSome || e.opens)
  fetches : e.fetches = true → s.pc = .fetching ∧ 0 < s'.pc.stage
  signs : e.signs = true → s.pc.stage = 4 ∧ 4 < s'.pc.stage

theorem Pc.stage_of_submission {pc : Pc} {cand : Candidate} (h : pc.submission = some cand) :
    pc.stage ≤ 6 := by
  cases pc <;> simp_all [Pc.submission, Pc.stage]

theorem Pc.fetching_of_stage {pc : Pc} (h : pc.stage ≤ 0) : pc = .fetching := by
  cases pc <;> simp_all [Pc.stage]

theorem Pc.stage_le (pc : Pc) : pc.stage ≤ 8 := by
  cases pc <;> simp [Pc.stage]

/-- A loop that leaves an await for a later one, with its worker. -/
theorem winds_of {s s' : Loop} {e : Event} (hstopped : s'.stopped = true)
    (hworker : s'.worker = s.worker) (hstage : s.pc.stage ≤ s'.pc.stage) (hopens : e.opens = false)
    (hfetches : e.fetches = false) (hsigns : e.signs = false) : Winds s e s' where
  stopped := hstopped
  stage := hstage
  worker := by rw [hworker, hopens, Bool.or_false]
  fetches := by simp [hfetches]
  signs := by simp [hsigns]

theorem ensureWorker_worker (s : Loop) : s.ensureWorker.1.stopped = s.stopped ∧
    s.ensureWorker.1.worker = some s.ensureWorker.2 := by
  unfold Loop.ensureWorker
  split
  · rename_i w hw
    exact ⟨rfl, hw⟩
  · exact ⟨rfl, rfl⟩

theorem solveOnWorker_worker (miner : Pubkey) (s : Loop) (cfg : EquiumConfig) (seed : Bytes32) :
    (solveOnWorker miner s cfg seed).stopped = s.stopped ∧
      (solveOnWorker miner s cfg seed).worker.isSome = true := by
  obtain ⟨hstopped, hworker⟩ := ensureWorker_worker s
  exact ⟨hstopped, Option.isSome_iff_exists.mpr ⟨_, hworker⟩⟩

theorem again_stage {s : Loop} (hs : s.stopped = true) : s.again.pc = .done := by
  rw [Loop.again]
  dsimp only
  rw [if_pos hs]

/-- Step lemma: a stopped loop only goes on to its test. -/
theorem Step.winds {s s' : Loop} {e : Event} (h : Step c miner s e s') (hs : s.stopped = true)
    (he : e ≠ .stop) : Winds s e s' := by
  have hagain : s.pc.stage ≤ s.again.pc.stage := by
    rw [again_stage hs]
    exact s.pc.stage_le
  cases h with
  | fetched hp cfg seed =>
    have hstage : s.pc.stage = 0 := by rw [hp]; rfl
    have hsleep : Event.opens (.fetched cfg seed) = false → Winds s (.fetched cfg seed) s.sleep :=
      fun hopens => ⟨hs, by simp [hstage], by simp [hopens, Loop.sleep],
        fun _ => ⟨hp, by simp [Loop.sleep, Pc.stage]⟩, by rintro ⟨⟩⟩
    unfold onConfig
    split
    · exact hsleep rfl
    · rename_i cfg
      split_ifs with hopen
      · obtain ⟨hstopped, hworker⟩ := solveOnWorker_worker miner s cfg seed
        exact ⟨hstopped.trans hs, by simp [hstage], by simp [hworker, Event.opens, hopen],
          fun _ => ⟨hp, Nat.one_pos⟩, by rintro ⟨⟩⟩
      · exact hsleep (by simpa [Event.opens] using hopen)
  | woke hp => exact winds_of hs rfl hagain rfl rfl rfl
  | @message w req resp hposted hresp =>
    unfold onMessage
    split
    · rename_i w' j cfg hp
      have hp : s.pc = .solving w' j cfg := hp
      split_ifs
      · cases resp with
        | error j' message =>
          exact winds_of hs rfl (by simp [hp, onResponse, Loop.sleep, Pc.stage]) rfl rfl rfl
        | noSolution j' attempts =>
          exact winds_of hs rfl hagain rfl rfl rfl
        | solved j' nonce solnIndices attempts =>
          exact winds_of hs rfl (by simp [hp, onResponse, Pc.stage]) rfl rfl rfl
      · exact winds_of hs rfl le_rfl rfl rfl rfl
    · exact winds_of hs rfl le_rfl rfl rfl rfl
  | workerError halive =>
    unfold onError
    split
    · rename_i hp
      split_ifs
      · exact winds_of hs rfl (by simp [hp, Loop.sleep, Pc.stage]) rfl rfl rfl
      · exact winds_of hs rfl le_rfl rfl rfl rfl
    · exact winds_of hs rfl le_rfl rfl rfl rfl
  | digest hp =>
    unfold onDigest
    split_ifs
    · exact winds_of hs rfl hagain rfl rfl rfl
    · split <;> exact winds_of hs rfl (by rw [hp]; simp [Pc.stage]) rfl rfl rfl
  | digestFailed hp => exact winds_of hs rfl (by rw [hp]; simp [Pc.stage, Loop.sleep]) rfl rfl rfl
  | detected hp owner => exact winds_of hs rfl (by rw [hp]; simp [Pc.stage]) rfl rfl rfl
  | signed hp =>
    refine ⟨hs, by rw [hp]; simp [Pc.stage], by simp [Event.opens], by rintro ⟨⟩, fun _ => ?_⟩
    rw [hp]
    exact ⟨rfl, by simp [Pc.stage]⟩
  | sent hp => exact winds_of hs rfl (by rw [hp]; simp [Pc.stage]) rfl rfl rfl
  | confirmed hp => exact winds_of hs rfl hagain rfl rfl rfl
  | submitFailed hp =>
    exact winds_of hs rfl ((Pc.stage_of_submission hp).trans (by simp [Pc.stage, Loop.sleep])) rfl
      rfl rfl
  | stop => exact absurd rfl he

/-- Run lemma: the awaits of a stopped loop come in their order, and its worker is one that a fetch
    still waited for brought up. -/
theorem winds_run {s s' : Loop} {tr : List (Taken Loop Event)} (h : Run (Step c miner) s tr s')
    (hs : s.stopped = true) (hstop : ∀ t ∈ tr, t.label ≠ .stop) :
    s'.stopped = true ∧ (∀ t ∈ tr, Winds t.pre t.label t.post) ∧
      s'.worker.isSome = (s.worker.isSome || tr.any (·.label.opens)) := by
  induction h with
  | nil => simp [hs]
  | @snoc tr s₁ s₂ e hr hst ih =>
    obtain ⟨hs₁, hall, hworker⟩ := ih fun t ht => hstop t (List.mem_append_left _ ht)
    have hw := hst.winds hs₁ (hstop ⟨s₁, e, s₂⟩ (by simp))
    refine ⟨hw.stopped, fun t ht => ?_, ?_⟩
    · rcases List.mem_append.mp ht with ht | ht
      · exact hall t ht
      · rw [List.mem_singleton.mp ht]
        exact hw
    · rw [hw.worker, hworker, List.any_append, Bool.or_assoc]
      simp

/-- A loop that is stopped while it solves never resumes. -/
theorem halted_solving {s s' s'' : Loop} {w j : ℕ} {cfg : EquiumConfig} (hh : Halted s s')
    (hpc : s.pc = .solving w j cfg) {e : Event} (he : e ≠ .stop) : ¬ Step c miner s' e s'' := by
  have hpc' : s'.pc = .solving w j cfg := hh.pc.trans hpc
  intro h
  cases h with
  | message hposted hresp =>
    rw [hh.posted] at hposted
    cases hposted
  | workerError halive =>
    rw [hh.alive] at halive
    cases halive
  | submitFailed hp =>
    rw [hpc'] at hp
    cases hp
  | stop => exact he rfl
  | fetched hp | woke hp | digest hp | digestFailed hp | detected hp | signed hp | sent hp
    | confirmed hp =>
    rw [hpc'] at hp
    cases hp

/-- STOP: in every run at most one worker runs, the one `stop` would terminate. After the last stop
    a worker is left running exactly when the config the loop was still waiting for has come in with
    mining open; at most one more transaction is signed, and only by a loop that was not solving,
    sending or asleep. A loop stopped while it solves never resumes. -/
theorem stopped_miner {tr tr' : List (Taken Loop Event)} {s s' : Loop}
    (h : Run (Step c miner) startMiner tr s) (h' : Run (Step c miner) (stop s) tr' s')
    (hlast : ∀ t ∈ tr', t.label ≠ .stop) :
    s.alive = s.worker.toList ∧ s'.alive = s'.worker.toList ∧
      (s'.alive ≠ [] ↔ ∃ t ∈ tr', t.label.opens = true) ∧
      ((∃ t ∈ tr', t.label.fetches = true) → s.pc = .fetching) ∧
      tr'.countP (·.label.fetches) ≤ 1 ∧
      ((∃ t ∈ tr', t.label.signs = true) → s.pc = .fetching ∨ (∃ cand, s.pc = .hashing cand) ∨
        (∃ cand, s.pc = .detecting cand) ∨ ∃ cand tokenProgram, s.pc = .signing cand tokenProgram) ∧
      tr'.countP (·.label.signs) ≤ 1 ∧
      ((∃ w j cfg, s.pc = .solving w j cfg) → tr' = []) := by
  have hsound := sound_run h
  have hhalt := hsound.halted
  have hsound' := sound_run ((h.snoc .stop).append h')
  obtain ⟨-, hwinds, hworker⟩ := winds_run h' hhalt.stopped hlast
  have hmono : ∀ t ∈ tr', t.pre.pc.stage ≤ t.post.pc.stage := fun t ht => (hwinds t ht).stage
  have hfrom : ∀ t ∈ tr', s.pc.stage ≤ t.pre.pc.stage := by
    intro t ht
    obtain ⟨tr₁, tr₂, rfl, hr, -⟩ := h'.mem t ht
    rw [← hhalt.pc]
    exact hr.rank_le (·.pc.stage) fun t' ht' => hmono t' (List.mem_append_left _ ht')
  have hstuck : (∃ w j cfg, s.pc = .solving w j cfg) → tr' = [] := by
    rintro ⟨w, j, cfg, hpc⟩
    cases tr' with
    | nil => rfl
    | cons t tr' =>
      exact absurd h'.first (halted_solving hhalt hpc (hlast t List.mem_cons_self))
  have honce : ∀ (b : ℕ) (p : Event → Bool), (∀ t ∈ tr', p t.label = true →
      t.pre.pc.stage = b ∧ b < t.post.pc.stage) → tr'.countP (fun t => p t.label) ≤ 1 := by
    intro b p hp
    refine le_trans (List.countP_mono_left fun t ht hl => ?_)
      (h'.leaves_once (·.pc.stage) b hmono).1
    simpa using hp t ht hl
  refine ⟨hsound.alive, hsound'.alive, ?_, ?_, ?_, ?_, ?_, hstuck⟩
  · rw [hhalt.worker, Option.isSome_none, Bool.false_or] at hworker
    rw [hsound'.alive, ← List.any_eq_true, ← hworker]
    cases s'.worker <;> simp
  · rintro ⟨t, ht, hl⟩
    have hpre := ((hwinds t ht).fetches hl).1
    have hle := hfrom t ht
    rw [hpre] at hle
    exact Pc.fetching_of_stage hle
  · refine honce 0 _ fun t ht hl => ?_
    obtain ⟨hpre, hpost⟩ := (hwinds t ht).fetches hl
    exact ⟨by rw [hpre]; rfl, hpost⟩
  · rintro ⟨t, ht, hl⟩
    have hle := hfrom t ht
    rw [((hwinds t ht).signs hl).1] at hle
    cases hpc : s.pc with
    | fetching => exact Or.inl rfl
    | hashing cand => exact Or.inr (Or.inl ⟨cand, rfl⟩)
    | detecting cand => exact Or.inr (Or.inr (Or.inl ⟨cand, rfl⟩))
    | signing cand tokenProgram => exact Or.inr (Or.inr (Or.inr ⟨cand, tokenProgram, rfl⟩))
    | solving w j cfg =>
      rw [hstuck ⟨w, j, cfg, hpc⟩] at ht
      cases ht
    | sending | confirming | sleeping | done =>
      rw [hpc] at hle
      simp [Pc.stage] at hle
  · exact honce 4 _ fun t ht hl => (hwinds t ht).signs hl

namespace Demo

def crates : Crates := ⟨fun _ => Vector.replicate 32 0, fun _ _ _ _ _ => true, fun _ _ _ => []⟩

def key : Pubkey := Vector.replicate 32 7

def config : EquiumConfig :=
  ⟨⟨3, Vector.replicate 32 1, Vector.replicate 32 255, true⟩, Vector.replicate 32 1, 96, 5⟩

/-- A loop stopped at its first fetch. -/
def stopped : Loop := stop startMiner

/-- The config comes in, the worker fails, the loop ends. -/
def after : Loop := ((solveOnWorker key stopped config key).sleep).again

end Demo

/-- A config that comes in after the stop leaves a worker behind when the loop has ended. -/
theorem stopped_miner_demo : ∃ tr, Run (Step Demo.crates Demo.key) Demo.stopped tr Demo.after ∧
    Demo.after.pc = .done ∧ Demo.after.alive ≠ [] ∧ tr.countP (·.label.signs) ≤ 1 := by
  have h₁ : Run (Step Demo.crates Demo.key) Demo.stopped _ _ :=
    Run.nil.snoc (Step.fetched rfl (some Demo.config) Demo.key)
  have h₂ := h₁.snoc (Step.workerError (List.mem_singleton_self 0))
  have h₃ : Run (Step Demo.crates Demo.key) Demo.stopped _ Demo.after := h₂.snoc (Step.woke rfl)
  obtain ⟨-, -, hleft, -, -, -, hsigned, -⟩ := stopped_miner .nil h₃ (by simp)
  exact ⟨_, h₃, rfl, hleft.mpr (by simp [Event.opens, Demo.config]), hsigned⟩

end Equium.WebMiner
