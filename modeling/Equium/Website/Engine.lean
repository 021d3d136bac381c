import Equium.Schemes.Run
import Equium.Website.Check

/-! @src clients/website/src/lib/miner-engine.ts | name:Browser miner | scheme:interleaving

    The solver pool of the browser miner. One thread runs everything, so what interleaves are the
    pieces between two awaits: replies of the workers, resumptions of the reply handler, back-off
    timers, GPU passes and ticks of the supervisor. The reply handler frees its slot before it is
    done with it: whatever it still waits for will dispatch to the slot again. The supervisor goes by
    the slot's flag alone. -/

namespace Equium.Website
open Schemes Equium.Core

inductive SolverTier where
  | fullgpu
  | hybrid
  | cpu
  deriving DecidableEq, Repr

/-- One worker; it is named by its position in the pool. -/
structure SolverSlot where
  busy : Bool
  deriving DecidableEq, Repr

/-- A worker's reply. -/
inductive SolveResponse where
  | solved (solnIndices : List UInt8)
  | noSolution
  | error

/-- Where a job, or what its handler left behind, stands. -/
inductive Phase where
  /-- waits for its pass in the GPU queue, or for the pass itself -/
  | leaves
  /-- the worker has it -/
  | posted
  /-- its leaves came after the miner was stopped, so nobody will work on it -/
  | dropped
  /-- its reply is handled; the handler awaits the hash of the solution -/
  | hashing (solnIndices : List UInt8)
  /-- its reply is handled; the handler awaits the submission -/
  | submitting
  /-- its reply is handled, or its GPU pass failed; a back-off timer is running -/
  | pausing
  deriving DecidableEq

/-- Between `dispatchTo` and the handling of the reply, or the failure of the GPU pass. -/
def Phase.outstanding : Phase → Bool
  | .leaves => true
  | .posted => true
  | .dropped => true
  | _ => false

/-- A dispatched job and its closure. -/
structure Task where
  jobId : ℕ
  slot : ℕ
  cfg : EquiumConfig
  phase : Phase
  deriving DecidableEq

/-- Where the supervisor loop stands. -/
inductive Supervisor where
  /-- before the loop's head: `tierReady` or a sleep -/
  | asleep
  | fetching
  /-- awaits `submitAdvanceEmptyRound` -/
  | advancing (cfg : EquiumConfig)
  | done
  deriving DecidableEq

/-- The closure of `startMiner`, once the tier is decided. -/
structure Engine where
  stopped : Bool
  nextJobId : ℕ
  currentConfig : Option EquiumConfig
  submitting : Bool
  slots : List SolverSlot
  tasks : List Task
  supervisor : Supervisor

/-- Full-GPU mining has no workers. -/
def Engine.init (tier : SolverTier) (workerCount : ℕ) : Engine where
  stopped := false
  nextJobId := 1
  currentConfig := none
  submitting := false
  slots := if tier = SolverTier.fullgpu then [] else List.replicate workerCount ⟨false⟩
  tasks := []
  supervisor := .asleep

namespace Engine

def busy (s : Engine) (i : ℕ) : Bool := (s.slots[i]?.map (·.busy)).getD false

def setBusy (s : Engine) (i : ℕ) (b : Bool) : Engine := { s with slots := s.slots.set i ⟨b⟩ }

/-- The task's closure has run to its end. -/
def finish (s : Engine) (t : Task) : Engine := { s with tasks := s.tasks.erase t }

def add (s : Engine) (t : Task) : Engine := { s with tasks := s.tasks ++ [t] }

/-- The outstanding jobs of a slot. -/
def outstanding (s : Engine) (i : ℕ) : ℕ :=
  s.tasks.countP fun t => t.slot = i && t.phase.outstanding

/-- The jobs in flight. -/
def inFlight (s : Engine) : ℕ := s.tasks.countP fun t => t.phase.outstanding

end Engine

section
variable (c : Crates) (miner : Bytes32) (tier : SolverTier)

/-- `dispatchTo`: on the hybrid tier the job first queues for the GPU. -/
def dispatchTo (s : Engine) (i : ℕ) (cfg : EquiumConfig) : Engine :=
  if s.stopped then s
  else { s.setBusy i true with nextJobId := s.nextJobId + 1 }.add
    ⟨s.nextJobId, i, cfg, if tier = SolverTier.hybrid then .leaves else .posted⟩

/-- `if (!stopped && currentConfig) dispatchTo(slot, currentConfig)`. -/
def redispatch (s : Engine) (i : ℕ) : Engine :=
  if s.stopped then s else
    match s.currentConfig with
    | some cfg => dispatchTo tier s i cfg
    | none => s

/-- The reply handler up to its first await. -/
def onMessage (s : Engine) (t : Task) (resp : SolveResponse) : Engine :=
  let s := (s.finish t).setBusy t.slot false
  if s.stopped then s else
    match resp with
    | .error => s.add { t with phase := .pausing }
    | .noSolution => redispatch tier s t.slot
    | .solved solnIndices => s.add { t with phase := .hashing solnIndices }

/-- The reply handler after the hash: to the submission, or back to work. -/
def onDigest (s : Engine) (t : Task) (solnIndices : List UInt8) : Engine :=
  if aboveTarget c miner t.cfg solnIndices then redispatch tier (s.finish t) t.slot
  else if s.submitting then redispatch tier (s.finish t) t.slot
  else { s.finish t with submitting := true }.add { t with phase := .submitting }

/-- The `finally` block after a submission, whatever its outcome. -/
def onSubmitted (s : Engine) (t : Task) : Engine :=
  redispatch tier { s.finish t with submitting := false } t.slot

/-- The hybrid path after `runGpuLeaves` has returned. -/
def onLeaves (s : Engine) (t : Task) : Engine :=
  (s.finish t).add { t with phase := if s.stopped then .dropped else .posted }

/-- The hybrid path after `runGpuLeaves` has thrown. -/
def onLeavesFailed (s : Engine) (t : Task) : Engine :=
  ((s.finish t).setBusy t.slot false).add { t with phase := .pausing }

/-- One turn of the kick: a worker that is idle while nothing is being submitted. -/
def kickSlot (cfg : EquiumConfig) (s : Engine) (i : ℕ) : Engine :=
  if !s.busy i && !s.submitting then dispatchTo tier s i cfg else s

/-- The loop that kicks idle workers onto the current config. -/
def kick (s : Engine) (cfg : EquiumConfig) : Engine :=
  (List.range s.slots.length).foldl (kickSlot tier cfg) s

/-- The supervisor after `fetchConfig`; `stalled` says that the chain has not moved for 75 s and the
    last `advance_empty_round` is 30 s back. -/
def onFetched (s : Engine) (cfg : Option EquiumConfig) (stalled : Bool) : Engine :=
  match cfg with
  | none => { s with supervisor := .asleep }
  | some cfg =>
    let s := { s with currentConfig := some cfg }
    if !cfg.miningOpen then { s with supervisor := .asleep }
    else if stalled && !s.submitting then { s with supervisor := .advancing cfg }
    else kick tier { s with supervisor := .asleep } cfg

/-- What runs between two awaits. -/
inductive Event where
  | message (jobId : ℕ) (resp : SolveResponse)
  | digest (jobId : ℕ)
  | digestFailed (jobId : ℕ)
  | submitted (jobId : ℕ)
  | timeout (jobId : ℕ)
  | leaves (jobId : ℕ)
  | leavesFailed (jobId : ℕ)
  | wake
  | fetched (cfg : Option EquiumConfig) (stalled : Bool)
  | advanced
  | stop

/-- One resumption of the event loop. -/
inductive Step : Engine → Event → Engine → Prop
  | message {s : Engine} {t : Task} (ht : t ∈ s.tasks) (hp : t.phase = .posted)
      (resp : SolveResponse) : Step s (.message t.jobId resp) (onMessage tier s t resp)
  | digest {s : Engine} {t : Task} (ht : t ∈ s.tasks) {solnIndices : List UInt8}
      (hp : t.phase = .hashing solnIndices) :
      Step s (.digest t.jobId) (onDigest c miner tier s t solnIndices)
  | digestFailed {s : Engine} {t : Task} (ht : t ∈ s.tasks) {solnIndices : List UInt8}
      (hp : t.phase = .hashing solnIndices) : Step s (.digestFailed t.jobId) (s.finish t)
  | submitted {s : Engine} {t : Task} (ht : t ∈ s.tasks) (hp : t.phase = .submitting) :
      Step s (.submitted t.jobId) (onSubmitted tier s t)
  | timeout {s : Engine} {t : Task} (ht : t ∈ s.tasks) (hp : t.phase = .pausing) :
      Step s (.timeout t.jobId) (redispatch tier (s.finish t) t.slot)
  -- the GPU queue serves its callers in the order of their calls
  | leaves {s : Engine} {t : Task} (ht : s.tasks.find? (·.phase = .leaves) = some t) :
      Step s (.leaves t.jobId) (onLeaves s t)
  | leavesFailed {s : Engine} {t : Task} (ht : s.tasks.find? (·.phase = .leaves) = some t) :
      Step s (.leavesFailed t.jobId) (onLeavesFailed s t)
  | wake {s : Engine} (hs : s.supervisor = .asleep) :
      Step s .wake { s with supervisor := if s.stopped then .done else .fetching }
  | fetched {s : Engine} (hs : s.supervisor = .fetching) (cfg : Option EquiumConfig)
      (stalled : Bool) : Step s (.fetched cfg stalled) (onFetched tier s cfg stalled)
  | advanced {s : Engine} {cfg : EquiumConfig} (hs : s.supervisor = .advancing cfg) :
      Step s .advanced (kick tier { s with supervisor := .asleep } cfg)
  | stop {s : Engine} : Step s .stop { s with stopped := true }

/-- The supervisor kicks the pool in this step. -/
def kicks (s : Engine) : Event → Bool
  | .fetched (some cfg) stalled => cfg.miningOpen && !(stalled && !s.submitting)
  | .advanced => true
  | _ => false

end

end Equium.Website
