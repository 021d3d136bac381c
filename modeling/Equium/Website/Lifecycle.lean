import Equium.Website.Dispatch

/-! @src clients/website/src/lib/miner-engine.ts | name:Start and stop | scheme:run-invariant

    Starting the browser miner probes the tiers one after the other, full GPU, then GPU leaves, then
    CPU, and makes what the tier needs as it goes. Stopping releases what has been made by then. The
    probe does not look at the flag: what it makes after a stop stays.

        wagnerInit ──null──▶ leavesInit ──▶ spawnWorkers ──▶ decided
            │ wagner                                           ▲
            └──────────────────────────────────────────────────┘ -/

namespace Equium.Website.Lifecycle
open Schemes Equium.Core

/-- What a miner holds outside its own memory. -/
inductive Resource where
  | worker (i : ℕ)
  | wagner
  | leaves
  deriving DecidableEq, Repr

def defaultMaxWorkers : ℕ := 8

/-- The size of the pool; a zero counts as no answer. -/
def pickWorkerCount (override hardwareConcurrency : Option ℕ) : ℕ :=
  match override with
  | some (n + 1) => min (n + 1) 32
  | _ =>
    let hw := match hardwareConcurrency with
      | some (n + 1) => n + 1
      | _ => 4
    max 1 (min (hw - 1) defaultMaxWorkers)

/-- What the start-up probe awaits. -/
inductive Probe where
  /-- `WebGPUWagner.init`, within `probeFullGpu` -/
  | wagnerInit
  /-- `probeFullGpu`, which has returned this -/
  | wagnerReturned (found : Bool)
  /-- `WebGPULeaves.init`, within `probeHybrid` -/
  | leavesInit
  /-- `probeHybrid`, which has returned this -/
  | leavesReturned (found : Bool)
  /-- nothing more: the tier is decided -/
  | decided
  deriving DecidableEq

/-- What `fullGpuLoop` awaits. -/
inductive GpuLoop where
  /-- it was not started -/
  | idle
  | importing
  | initialising
  | sleeping
  /-- a GPU pass -/
  | running (cfg : EquiumConfig)
  /-- the hash of a validated candidate, with more to come -/
  | hashing (cfg : EquiumConfig) (compressed : List UInt8) (candidates : List (List UInt8))
  /-- `submitCandidate`, which has taken the flag or found it taken -/
  | submitting (taken : Bool)
  | ended
  deriving DecidableEq

/-- What resumes `fullGpuLoop`; of a pass only the candidates that validate count. -/
inductive GpuEvent where
  | done
  | failed
  | passed (candidates : List (List UInt8))

/-- The closure of `startMiner` from its first line on. -/
structure Miner where
  engine : Engine
  tier : SolverTier
  probe : Probe
  /-- the supervisor is past `tierReady` -/
  ready : Bool
  gpuLoop : GpuLoop
  wagnerGpu : Bool
  leavesGpu : Bool
  created : List Resource
  released : List Resource

def Miner.init : Miner where
  engine := Engine.init .cpu 0
  tier := .cpu
  probe := .wagnerInit
  ready := false
  gpuLoop := .idle
  wagnerGpu := false
  leavesGpu := false
  created := []
  released := []

/-! ### The probe -/

def workers (n : ℕ) : List Resource := (List.range n).map .worker

/-- `probeFullGpu` after `WebGPUWagner.init`; an exception counts as null. -/
def probeFullGpu (s : Miner) (found : Bool) : Miner :=
  if found then
    { s with wagnerGpu := true, tier := .fullgpu, created := s.created ++ [.wagner],
             probe := .wagnerReturned true }
  else { s with probe := .wagnerReturned false }

/-- `probeHybrid` after `WebGPULeaves.init`. -/
def probeHybrid (s : Miner) (found : Bool) : Miner :=
  if found then
    { s with leavesGpu := true, tier := .hybrid, created := s.created ++ [.leaves],
             probe := .leavesReturned true }
  else { s with probe := .leavesReturned false }

def spawnWorkers (s : Miner) (n : ℕ) : Miner :=
  { s with engine := { s.engine with slots := List.replicate n ⟨false⟩ },
           created := s.created ++ workers n }

/-! ### The full-GPU loop -/

section
variable (c : Crates) (miner : Bytes32)

/-- The head of the loop. -/
def gpuHead (s : Engine) : GpuLoop :=
  if s.stopped then .ended
  else match s.currentConfig with
    | none => .sleeping
    | some cfg => if s.submitting then .sleeping else .running cfg

/-- The next candidate, if there is one. -/
def gpuNext (s : Engine) (cfg : EquiumConfig) : List (List UInt8) → GpuLoop
  | [] => gpuHead s
  | compressed :: candidates => .hashing cfg compressed candidates

/-- One resumption of `fullGpuLoop`. -/
def resumeGpu (s : Engine) : GpuLoop → GpuEvent → Option (Engine × GpuLoop)
  | .importing, .done => some (s, .initialising)
  | .initialising, .done => some (s, gpuHead s)
  | .sleeping, .done => some (s, gpuHead s)
  | .running cfg, .passed candidates => some (s, gpuNext s cfg candidates)
  | .running _, .failed => some (s, .sleeping)
  | .hashing cfg compressed candidates, .done =>
    if aboveTarget c miner cfg compressed then some (s, gpuNext s cfg candidates)
    else if s.submitting then some (s, .submitting false)
    else some ({ s with submitting := true }, .submitting true)
  | .submitting taken, .done =>
    let s := if taken then { s with submitting := false } else s
    some (s, gpuHead s)
  -- nothing catches these
  | .importing, .failed => some (s, .ended)
  | .initialising, .failed => some (s, .ended)
  | .hashing _ _ _, .failed => some (s, .ended)
  | _, _ => none

/-! ### Stopping -/

/-- What `stop` finds. -/
def held (s : Miner) : List Resource :=
  workers s.engine.slots.length ++ (if s.wagnerGpu then [.wagner] else []) ++
    (if s.leavesGpu then [.leaves] else [])

def stop (s : Miner) : Miner :=
  { s with engine := { s.engine with stopped := true }, wagnerGpu := false, leavesGpu := false,
           released := s.released ++ held s }

/-- What runs between two awaits. -/
inductive Action where
  | wagnerInit (found : Bool)
  | leavesInit (found : Bool)
  | probed
  | tierReady
  | gpu (e : GpuEvent)
  | engine (e : Event)
  | stop

/-- One resumption of the event loop, or a call of `stop`. -/
inductive Step (n : ℕ) : Miner → Action → Miner → Prop
  | wagnerInit {s : Miner} (hp : s.probe = .wagnerInit) (found : Bool) :
      Step n s (.wagnerInit found) (probeFullGpu s found)
  | fullGpu {s : Miner} {found : Bool} (hp : s.probe = .wagnerReturned found) :
      Step n s .probed { s with probe := if found then .decided else .leavesInit }
  | leavesInit {s : Miner} (hp : s.probe = .leavesInit) (found : Bool) :
      Step n s (.leavesInit found) (probeHybrid s found)
  | spawn {s : Miner} {found : Bool} (hp : s.probe = .leavesReturned found) :
      Step n s .probed (spawnWorkers { s with tier := if found then s.tier else .cpu,
                                              probe := .decided } n)
  | tierReady {s : Miner} (hp : s.probe = .decided) (hr : s.ready = false) :
      Step n s .tierReady
        { s with ready := true, gpuLoop := if s.tier = .fullgpu then .importing else .idle,
                 engine := { s.engine with
                   supervisor := if s.engine.stopped then .done else .fetching } }
  | gpu {s : Miner} {e : GpuEvent} {r : Engine × GpuLoop}
      (h : resumeGpu c miner s.engine s.gpuLoop e = some r) :
      Step n s (.gpu e) { s with engine := r.1, gpuLoop := r.2 }
  | engine {s : Miner} {e : Event} {s' : Engine} (hr : s.ready = true) (he : e ≠ .stop)
      (h : Website.Step c miner s.tier s.engine e s') :
      Step n s (.engine e) { s with engine := s' }
  | stop {s : Miner} : Step n s .stop (stop s)

/-- A worker's reply; none comes from a worker that is terminated. -/
def Action.isReply : Action → Bool
  | .engine (.message _ _) => true
  | _ => false

/-- Every pending continuation has run. -/
def Quiescent (n : ℕ) (s : Miner) : Prop :=
  ∀ a s', Step c miner n s a s' → a = .stop ∨ a.isReply = true

/-- Every stop of the run has released everything, and nothing was created after it. -/
def StopReleases (tr : List (Taken Miner Action)) (s : Miner) : Prop :=
  ∀ tr₁ t tr₂, tr = tr₁ ++ t :: tr₂ → t.label = .stop →
    s.created = t.post.created ∧ ∀ r ∈ s.created, r ∈ s.released

end

/-- The probe has nothing left to make. -/
def Settled (s : Miner) : Prop := s.probe = .decided ∨ s.probe = .wagnerReturned true

/-! ### Who holds what -/

variable {c : Crates} {miner : Bytes32} {n : ℕ}

theorem gpuResumed {s : Engine} {loop : GpuLoop} {e : GpuEvent} {r : Engine × GpuLoop}
    (h : resumeGpu c miner s loop e = some r) : r.1.slots = s.slots := by
  cases loop with
  | hashing cfg compressed candidates =>
    cases e with
    | done =>
      rw [resumeGpu] at h
      split_ifs at h
      all_goals
        cases h
        rfl
    | failed => cases h; rfl
    | passed candidates => cases h
  | submitting taken =>
    cases e with
    | done => cases taken <;> cases h <;> rfl
    | failed => cases h
    | passed candidates => cases h
  | idle => cases h
  | ended => cases h
  | importing => cases e <;> cases h <;> rfl
  | initialising => cases e <;> cases h <;> rfl
  | sleeping =>
    cases e <;> cases h
    rfl
  | running cfg => cases e <;> cases h <;> rfl

/-- Only the probe makes anything, and only `stop` releases anything. -/
structure Owned (s : Miner) : Prop where
  created : ∀ r ∈ s.created, r ∈ s.released ∨ r ∈ held s
  unspawned : s.probe ≠ .decided → s.engine.slots = [] ∧ s.ready = false

theorem mem_held {s : Miner} {r : Resource} : r ∈ held s ↔
    (∃ i < s.engine.slots.length, r = .worker i) ∨ (s.wagnerGpu = true ∧ r = .wagner) ∨
      (s.leavesGpu = true ∧ r = .leaves) := by
  simp [held, workers, eq_comm (a := r)]

/-- A step that keeps hold of what it makes, and of what was held. -/
theorem Owned.make {s s' : Miner} (h : Owned s) {made : List Resource}
    (hc : s'.created = s.created ++ made) (hr : s'.released = s.released)
    (hkeep : held s ⊆ held s') (hmade : made ⊆ held s')
    (hu : s'.probe ≠ .decided → s'.engine.slots = [] ∧ s'.ready = false) : Owned s' := by
  refine ⟨fun r hr' => ?_, hu⟩
  rw [hr]
  rcases List.mem_append.mp (hc ▸ hr') with hr' | hr'
  · exact (h.created r hr').imp id fun hheld => hkeep hheld
  · exact Or.inr (hmade hr')

/-- A step that makes nothing. -/
theorem Owned.congr {s s' : Miner} (h : Owned s) (hc : s'.created = s.created)
    (hr : s'.released = s.released) (hh : held s' = held s)
    (hu : s'.probe ≠ .decided → s'.engine.slots = [] ∧ s'.ready = false) : Owned s' :=
  h.make (hc.trans (List.append_nil _).symm) hr (fun _ hr => hh ▸ hr) (List.nil_subset _) hu

theorem owned_init : Owned Miner.init := ⟨by simp [Miner.init], fun _ => ⟨rfl, rfl⟩⟩

/-- Step lemma: whatever was made is released or held. -/
theorem owned_step {s s' : Miner} {a : Action} (h : Owned s) (hst : Step c miner n s a s') :
    Owned s' := by
  cases hst with
  | wagnerInit hp found =>
    have hu := h.unspawned (by simp [hp])
    cases found with
    | false => exact h.congr rfl rfl rfl fun _ => hu
    | true =>
      refine h.make rfl rfl ?_ ?_ fun _ => hu
      · intro r hr
        rw [mem_held] at hr ⊢
        exact hr.imp id (Or.imp (fun hw => ⟨rfl, hw.2⟩) id)
      · intro r hr
        exact mem_held.mpr (Or.inr (Or.inl ⟨rfl, List.mem_singleton.mp hr⟩))
  | fullGpu hp => exact h.congr rfl rfl rfl fun _ => h.unspawned (by simp [hp])
  | leavesInit hp found =>
    have hu := h.unspawned (by simp [hp])
    cases found with
    | false => exact h.congr rfl rfl rfl fun _ => hu
    | true =>
      refine h.make rfl rfl ?_ ?_ fun _ => hu
      · intro r hr
        rw [mem_held] at hr ⊢
        exact hr.imp id (Or.imp id fun hl => ⟨rfl, hl.2⟩)
      · intro r hr
        exact mem_held.mpr (Or.inr (Or.inr ⟨rfl, List.mem_singleton.mp hr⟩))
  | spawn hp =>
    -- no worker is lost with the old pool: it was empty
    obtain ⟨hslots, -⟩ := h.unspawned (by simp [hp])
    refine h.make rfl rfl ?_ ?_ fun hd => absurd rfl hd
    · intro r hr
      rw [mem_held, hslots] at hr
      rw [mem_held]
      rcases hr with ⟨i, hi, -⟩ | hr
      · cases hi
      · exact Or.inr hr
    · intro r hr
      obtain ⟨i, hi, rfl⟩ := List.mem_map.mp hr
      exact mem_held.mpr (Or.inl ⟨i, by simpa [spawnWorkers] using hi, rfl⟩)
  | tierReady hp hr => exact h.congr rfl rfl rfl fun hd => absurd hp hd
  | gpu hg =>
    have hslots := gpuResumed hg
    refine h.congr rfl rfl (by simp [held, hslots]) ?_
    rw [hslots]
    exact h.unspawned
  | engine hr he hst =>
    have hlen := length_step hst
    refine h.congr rfl rfl (by simp [held, hlen]) fun hd => ?_
    rw [(h.unspawned hd).2] at hr
    cases hr
  | stop =>
    refine ⟨fun r hr => Or.inl ?_, h.unspawned⟩
    exact List.mem_append.mpr (h.created r hr)

/-! ### What the probe still makes -/

theorem released_step {s s' : Miner} {a : Action} (hst : Step c miner n s a s') :
    s.released ⊆ s'.released := by
  cases hst with
  | wagnerInit hp found => cases found <;> exact List.Subset.refl _
  | leavesInit hp found => cases found <;> exact List.Subset.refl _
  | stop => exact List.subset_append_left _ _
  | fullGpu hp => exact List.Subset.refl _
  | spawn hp => exact List.Subset.refl _
  | tierReady hp hr => exact List.Subset.refl _
  | gpu hg => exact List.Subset.refl _
  | engine hr he hst => exact List.Subset.refl _

theorem stop_post {s s' : Miner} {a : Action} (hst : Step c miner n s a s') (ha : a = .stop) :
    s' = stop s := by
  cases hst with
  | stop => rfl
  | _ => cases ha

/-- Step lemma: a settled probe makes nothing more. -/
theorem settled_step {s s' : Miner} {a : Action} (h : Settled s) (hst : Step c miner n s a s') :
    Settled s' ∧ s'.created = s.created := by
  cases hst with
  | wagnerInit hp found => simp [Settled, hp] at h
  | leavesInit hp found => simp [Settled, hp] at h
  | spawn hp => simp [Settled, hp] at h
  | @fullGpu found hp =>
    obtain rfl : found = true := by simpa [Settled, hp] using h
    exact ⟨Or.inl rfl, rfl⟩
  | tierReady hp hr => exact ⟨h, rfl⟩
  | gpu hg => exact ⟨h, rfl⟩
  | engine hr he hst => exact ⟨h, rfl⟩
  | stop => exact ⟨h, rfl⟩

/-- Step lemma: the probe settles by making something. -/
theorem unsettled_step {s s' : Miner} {a : Action} (hn : 0 < n) (h : ¬ Settled s)
    (hst : Step c miner n s a s') :
    s.created.length ≤ s'.created.length ∧
      (Settled s' → s.created.length < s'.created.length) := by
  cases hst with
  | wagnerInit hp found => cases found <;> simp [probeFullGpu, Settled]
  | leavesInit hp found => cases found <;> simp [probeHybrid, Settled]
  | spawn hp => simp [spawnWorkers, workers, hn]
  | @fullGpu found hp =>
    cases found with
    | false => simp [Settled]
    | true => exact absurd (Or.inr hp) h
  | tierReady hp hr => exact ⟨le_rfl, fun hs => absurd hs h⟩
  | gpu hg => exact ⟨le_rfl, fun hs => absurd hs h⟩
  | engine hr he hst => exact ⟨le_rfl, fun hs => absurd hs h⟩
  | stop => exact ⟨le_rfl, fun hs => absurd hs h⟩

variable {tr : List (Taken Miner Action)} {s₀ s : Miner}

/-- Run lemma: from a settled probe on nothing is made. -/
theorem settled_run (h : Settled s₀) (hr : Run (Step c miner n) s₀ tr s) :
    Settled s ∧ s.created = s₀.created := by
  refine hr.inv_state (fun s => Settled s ∧ s.created = s₀.created) ⟨h, rfl⟩ ?_
  rintro s a s' ⟨hs, hc⟩ hst
  obtain ⟨hs', hc'⟩ := settled_step hs hst
  exact ⟨hs', hc'.trans hc⟩

/-- Run lemma: an unsettled probe that settles has made something. -/
theorem unsettled_run (hn : 0 < n) (h : ¬ Settled s₀) (hr : Run (Step c miner n) s₀ tr s)
    (hs : Settled s) : s₀.created.length < s.created.length := by
  have hinv : s₀.created.length ≤ s.created.length ∧
      (Settled s → s₀.created.length < s.created.length) := by
    refine hr.inv_state (fun s => s₀.created.length ≤ s.created.length ∧
      (Settled s → s₀.created.length < s.created.length)) ⟨le_rfl, fun hs => absurd hs h⟩ ?_
    rintro s a s' ⟨hle, hlt⟩ hst
    by_cases hs : Settled s
    · rw [(settled_step hs hst).2]
      exact ⟨hle, fun _ => hlt hs⟩
    · obtain ⟨hle', hlt'⟩ := unsettled_step hn hs hst
      exact ⟨hle.trans hle', fun hs' => hle.trans_lt (hlt' hs')⟩
  exact hinv.2 hs

theorem released_run (hr : Run (Step c miner n) s₀ tr s) : s₀.released ⊆ s.released :=
  hr.inv_state (fun s => s₀.released ⊆ s.released) (List.Subset.refl _)
    fun _ _ _ h hst => List.Subset.trans h (released_step hst)

/-- While the probe waits for something, its continuation is pending. -/
theorem Quiescent.settled (hq : Quiescent c miner n s) : Settled s := by
  cases hp : s.probe with
  | wagnerInit => simpa [Action.isReply] using hq _ _ (Step.wagnerInit hp false)
  | wagnerReturned found => simpa [Action.isReply] using hq _ _ (Step.fullGpu hp)
  | leavesInit => simpa [Action.isReply] using hq _ _ (Step.leavesInit hp false)
  | leavesReturned found => simpa [Action.isReply] using hq _ _ (Step.spawn hp)
  | decided => exact Or.inl hp

/-- Nothing is pending once the loops have ended and no job is left. -/
theorem Quiescent.of_ended (hp : s.probe = .decided) (hr : s.ready = true)
    (hg : s.gpuLoop = .idle ∨ s.gpuLoop = .ended) (hs : s.engine.supervisor = .done)
    (ht : s.engine.tasks = []) : Quiescent c miner n s := by
  intro a s' hst
  cases hst with
  | wagnerInit h found => simp [hp] at h
  | fullGpu h => simp [hp] at h
  | leavesInit h found => simp [hp] at h
  | spawn h => simp [hp] at h
  | tierReady h hr' => simp [hr] at hr'
  | gpu h => rcases hg with hg | hg <;> simp [hg, resumeGpu] at h
  | engine hr' he hst =>
    cases hst with
    | stop => exact absurd rfl he
    | wake h => simp [hs] at h
    | fetched h cfg stalled => simp [hs] at h
    | advanced h => simp [hs] at h
    | _ h => simp [ht] at h
  | stop => exact Or.inl rfl

theorem pickWorkerCount_pos (override hardwareConcurrency : Option ℕ) :
    0 < pickWorkerCount override hardwareConcurrency := by
  unfold pickWorkerCount
  split
  · simp
  · exact Nat.lt_of_lt_of_le Nat.zero_lt_one (Nat.le_max_left _ _)

/-! ### Runs -/

/-- RELEASES: with the pool of any browser, whenever all continuations have run, every `stop` of the
    run has terminated every worker, destroyed every GPU object and been the end of creation, exactly
    when each came after the probe had nothing left to make. -/
theorem stop_releases_iff (override hardwareConcurrency : Option ℕ)
    (tr : List (Taken Miner Action)) (s : Miner)
    (hr : Run (Step c miner (pickWorkerCount override hardwareConcurrency)) Miner.init tr s)
    (hq : Quiescent c miner (pickWorkerCount override hardwareConcurrency) s) :
    StopReleases tr s ↔ ∀ t ∈ tr, t.label = .stop → Settled t.pre := by
  have hn := pickWorkerCount_pos override hardwareConcurrency
  constructor
  · intro hrel t ht hl
    obtain ⟨tr₁, tr₂, rfl⟩ := List.append_of_mem ht
    by_contra hset
    have hpost : ¬ Settled t.post := by
      rw [stop_post hr.cut.1 hl]
      exact hset
    have hlt := unsettled_run hn hpost hr.cut.2 hq.settled
    rw [(hrel tr₁ t tr₂ rfl hl).1] at hlt
    exact Nat.lt_irrefl _ hlt
  · intro hset tr₁ t tr₂ he hl
    subst he
    have hstop := stop_post hr.cut.1 hl
    have hpost : Settled t.post := by
      rw [hstop]
      exact hset t (List.mem_append_right _ List.mem_cons_self) hl
    have hc : s.created = t.post.created := (settled_run hpost hr.cut.2).2
    refine ⟨hc, fun r hr' => released_run hr.cut.2 ?_⟩
    have howned : Owned t.pre := hr.before.inv_state Owned owned_init fun _ _ _ => owned_step
    rw [hc, hstop] at hr'
    rw [hstop]
    exact List.mem_append.mpr (howned.created r hr')

/-- Stopped while it mines on the CPU, a miner of two workers terminates both. -/
theorem stop_releases_demo : ∃ tr s, (∃ t ∈ tr, t.label = .stop) ∧
    s.created = [.worker 0, .worker 1] ∧ StopReleases tr s := by
  have h₁ : Run (Step Demo.crates Demo.key (pickWorkerCount (some 2) none)) Miner.init _ _ :=
    Run.nil.snoc (Step.wagnerInit rfl false)
  have h₂ := h₁.snoc (Step.fullGpu rfl)
  have h₃ := h₂.snoc (Step.leavesInit rfl false)
  have h₄ := h₃.snoc (Step.spawn rfl)
  have h₅ := h₄.snoc (Step.tierReady rfl rfl)
  have h₆ := h₅.snoc Step.stop
  have h₇ := h₆.snoc (Step.engine (e := .fetched none false) rfl (by simp) (.fetched rfl none false))
  have h₈ := h₇.snoc (Step.engine (e := .wake) rfl (by simp) (.wake rfl))
  refine ⟨_, _, by simp, ?_, (stop_releases_iff _ _ _ _ h₈ ?_).mpr ?_⟩
  · decide
  · exact Quiescent.of_ended rfl rfl (.inl rfl) rfl rfl
  · simp [Settled, spawnWorkers]

/-- A WebGPUWagner that arrives after the stop is never destroyed. -/
theorem late_wagner_leaks : ¬ ∀ (c : Crates) (miner : Bytes32) (override hw : Option ℕ)
    (tr : List (Taken Miner Action)) (s : Miner),
    Run (Step c miner (pickWorkerCount override hw)) Miner.init tr s →
    Quiescent c miner (pickWorkerCount override hw) s → StopReleases tr s := by
  intro h
  have h₁ : Run (Step Demo.crates Demo.key (pickWorkerCount none none)) Miner.init _ _ :=
    Run.nil.snoc Step.stop
  have h₂ := h₁.snoc (Step.wagnerInit rfl true)
  have h₃ := h₂.snoc (Step.fullGpu rfl)
  have h₄ := h₃.snoc (Step.tierReady rfl rfl)
  have h₅ := h₄.snoc (Step.gpu (e := .done) rfl)
  have h₆ := h₅.snoc (Step.gpu (e := .done) rfl)
  have hleak := h _ _ _ _ _ _ h₆ ?_ [] _ _ rfl rfl
  · have hmem := hleak.2 .wagner (by decide)
    exact absurd hmem (by decide)
  · exact Quiescent.of_ended rfl rfl (.inr rfl) rfl rfl

end Equium.Website.Lifecycle
