import Equium.Schemes.Run
import Equium.Core.Challenge
import Mathlib.Algebra.BigOperators.Group.Finset.Basic
import Mathlib.Algebra.Order.BigOperators.Group.Finset
import Mathlib.Data.Finset.Card

/-! @src clients/cli-miner/src/main.rs, clients/gpu-miner/src/main.rs | name:SolverRace |
    scheme:interleaving

    `race_for_solution` and its hybrid twin `race_for_solution_gpu`: a coordinator spawns the
    workers, drops its own sender, receives once, raises the stop flag and joins every thread. The
    receiver stays alive until the function returns. Both functions have this shape; they differ in
    what a nonce yields, which is the parameter `attempt`. -/

namespace Equium.Miner
open Schemes Equium.Core

/-- `RaceWinner`. -/
structure RaceWinner where
  nonce : Bytes32
  solnIndices : List UInt8
deriving DecidableEq, Repr

/-- The arguments of one race. `attempt t k` is what the `k`-th nonce drawn by worker `t` yields: the
    submission to send when the solver's answer hashes under the target, and `none` otherwise. -/
structure Race where
  threads : ℕ
  maxPerThread : UInt64
  attempt : ℕ → ℕ → Option RaceWinner

/-- Where a worker stands; `tried` is its local counter. -/
inductive WorkerPc where
  | idle
  | check (tried : ℕ)
  | solve (tried : ℕ)
  | send (tried : ℕ) (winner : RaceWinner)
  | storeStop (tried : ℕ)
  | fetchAdd (tried : ℕ)
  | leaving
  | exited
deriving DecidableEq, Repr

/-- Where the coordinator stands; `spawn threads` is the point of `drop(tx)`. -/
inductive CoordinatorPc where
  | spawn (i : ℕ)
  | recv
  | storeStop (winner : Option RaceWinner)
  | join (i : ℕ) (winner : Option RaceWinner)
  | returned (result : Option (RaceWinner × UInt64))
deriving DecidableEq, Repr

/-- The shared state: the channel of capacity one, the stop flag and the nonce counter. -/
structure RaceState where
  coordinator : CoordinatorPc
  workers : ℕ → WorkerPc
  chan : Option RaceWinner
  stop : Bool
  totalNonces : UInt64

def RaceState.init : RaceState := ⟨.spawn 0, fun _ => .idle, none, false, 0⟩

/-- Move worker `t`; everything else stays. -/
def RaceState.at (s : RaceState) (t : ℕ) (pc : WorkerPc) : RaceState :=
  { s with workers := Function.update s.workers t pc }

/-- The receiver is a local of the function, so it lives until the function has returned. -/
def RaceState.receiverAlive (s : RaceState) : Bool :=
  match s.coordinator with
  | .returned _ => false
  | _ => true

/-- A worker drops its sender when its closure ends. -/
def Race.sendersLeft (r : Race) (s : RaceState) : Prop :=
  ∃ t < r.threads, s.workers t ≠ .exited

instance (r : Race) (s : RaceState) : Decidable (r.sendersLeft s) :=
  inferInstanceAs (Decidable (∃ t < r.threads, s.workers t ≠ .exited))

/-- One step of worker `t`. `tried` stays below `max_per_thread`, so counting it does not wrap. -/
def Race.workerStep (r : Race) (s : RaceState) (t : ℕ) : Option RaceState :=
  match s.workers t with
  | .idle => none
  | .check tried =>
    if tried < r.maxPerThread.toNat ∧ s.stop = false then some (s.at t (.solve tried))
    else some (s.at t (.fetchAdd tried))
  | .solve tried =>
    match r.attempt t tried with
    | some w => some (s.at t (.send (tried + 1) w))
    | none => some (s.at t (.check (tried + 1)))
  | .send tried w =>
    -- on a closed channel `send` returns at once and its error is dropped
    if s.receiverAlive = false then some (s.at t (.storeStop tried))
    else if s.chan = none then some { s.at t (.storeStop tried) with chan := some w }
    else none
  | .storeStop tried => some { s.at t (.fetchAdd tried) with stop := true }
  | .fetchAdd tried =>
    some { s.at t .leaving with totalNonces := s.totalNonces + UInt64.ofNat tried }
  | .leaving => some (s.at t .exited)
  | .exited => none

/-- One step of the coordinator, the timeout apart. -/
def Race.coordinatorStep (r : Race) (s : RaceState) : Option RaceState :=
  match s.coordinator with
  | .spawn i =>
    if i < r.threads then some { s.at i (.check 0) with coordinator := .spawn (i + 1) }
    else some { s with coordinator := .recv }
  | .recv =>
    match s.chan with
    | some w => some { s with coordinator := .storeStop (some w), chan := none }
    | none => if r.sendersLeft s then none else some { s with coordinator := .storeStop none }
  | .storeStop w => some { s with coordinator := .join 0 w, stop := true }
  | .join i w =>
    if i < r.threads then
      if s.workers i = .exited then some { s with coordinator := .join (i + 1) w } else none
    else some { s with coordinator := .returned (w.map fun w => (w, s.totalNonces)) }
  | .returned _ => none

/-- `recv_timeout` gives up after 600 s on an empty channel. -/
def Race.timeoutStep (s : RaceState) : Option RaceState :=
  match s.coordinator, s.chan with
  | .recv, none => some { s with coordinator := .storeStop none }
  | _, _ => none

/-- Who moves. -/
inductive Turn where
  | coordinator
  | timeout
  | worker (t : ℕ)
deriving DecidableEq, Repr

def Race.turn (r : Race) (s : RaceState) : Turn → Option RaceState
  | .coordinator => r.coordinatorStep s
  | .timeout => Race.timeoutStep s
  | .worker t => r.workerStep s t

/-- The interleavings; `timeouts` says whether the 600 s limit may fire in them. -/
def Race.Step (r : Race) (timeouts : Bool) (s : RaceState) (l : Turn) (s' : RaceState) : Prop :=
  (l = .timeout → timeouts = true) ∧ r.turn s l = some s'

/-- A history of the race. -/
abbrev History := List (Taken RaceState Turn)

/-! ### What is asked of a race -/

/-- No reachable state in which the coordinator has not returned is stuck. -/
def Race.DeadlockFree (r : Race) (timeouts : Bool) : Prop :=
  ∀ s, Reachable (r.Step timeouts) .init s → (∀ res, s.coordinator ≠ .returned res) →
    ∃ l s', r.Step timeouts s l s'

/-- In this history some worker solved a nonce whose outcome is `w`. -/
def Race.Found (r : Race) (tr : History) (w : RaceWinner) : Prop :=
  ∃ e ∈ tr, ∃ t tried, e.label = .worker t ∧ e.pre.workers t = .solve tried ∧
    r.attempt t tried = some w

/-- Without a timeout, what is returned was found, and something is returned when one was found. -/
def Race.ReturnsWinner (r : Race) : Prop :=
  ∀ tr s res, Run (r.Step false) .init tr s → s.coordinator = .returned res →
    (∀ w total, res = some (w, total) → r.Found tr w) ∧ (res.isSome ↔ ∃ w, r.Found tr w)

/-- The workers that can find a below-target nonce within their budget. -/
def Race.winners (r : Race) : Finset ℕ :=
  (Finset.range r.threads).filter fun t => ∃ k < r.maxPerThread.toNat, (r.attempt t k).isSome

/-! ### The moves -/

@[simp] theorem RaceState.at_coordinator (s : RaceState) (t : ℕ) (pc : WorkerPc) :
    (s.at t pc).coordinator = s.coordinator := rfl

@[simp] theorem RaceState.at_chan (s : RaceState) (t : ℕ) (pc : WorkerPc) :
    (s.at t pc).chan = s.chan := rfl

@[simp] theorem RaceState.at_stop (s : RaceState) (t : ℕ) (pc : WorkerPc) :
    (s.at t pc).stop = s.stop := rfl

@[simp] theorem RaceState.at_self (s : RaceState) (t : ℕ) (pc : WorkerPc) :
    (s.at t pc).workers t = pc := by simp [RaceState.at]

theorem RaceState.at_ne (s : RaceState) {t t' : ℕ} (pc : WorkerPc) (h : t' ≠ t) :
    (s.at t pc).workers t' = s.workers t' := by simp [RaceState.at, h]

/-- What a worker's own code does, apart from its send: it changes no field the others read except
    the stop flag, which it can only raise. -/
inductive Local (r : Race) (s : RaceState) (t : ℕ) : WorkerPc → Bool → UInt64 → Prop
  | enter (tried : ℕ) : s.workers t = .check tried → tried < r.maxPerThread.toNat →
      s.stop = false → Local r s t (.solve tried) s.stop s.totalNonces
  | leave (tried : ℕ) : s.workers t = .check tried →
      ¬ (tried < r.maxPerThread.toNat ∧ s.stop = false) →
      Local r s t (.fetchAdd tried) s.stop s.totalNonces
  | found (tried : ℕ) (w : RaceWinner) : s.workers t = .solve tried →
      r.attempt t tried = some w → Local r s t (.send (tried + 1) w) s.stop s.totalNonces
  | missed (tried : ℕ) : s.workers t = .solve tried → r.attempt t tried = none →
      Local r s t (.check (tried + 1)) s.stop s.totalNonces
  | raise (tried : ℕ) : s.workers t = .storeStop tried →
      Local r s t (.fetchAdd tried) true s.totalNonces
  | count (tried : ℕ) : s.workers t = .fetchAdd tried →
      Local r s t .leaving s.stop (s.totalNonces + UInt64.ofNat tried)
  | exit : s.workers t = .leaving → Local r s t .exited s.stop s.totalNonces

/-- Everything that can happen, guards included. -/
inductive Move (r : Race) (s : RaceState) : Turn → RaceState → Prop
  | worker (t : ℕ) (pc : WorkerPc) (stop : Bool) (total : UInt64) : Local r s t pc stop total →
      Move r s (.worker t) { s.at t pc with stop := stop, totalNonces := total }
  | send (t tried : ℕ) (w : RaceWinner) : s.workers t = .send tried w → s.chan = none →
      s.receiverAlive = true →
      Move r s (.worker t) { s.at t (.storeStop tried) with chan := some w }
  | sendClosed (t tried : ℕ) (w : RaceWinner) : s.workers t = .send tried w →
      s.receiverAlive = false → Move r s (.worker t) (s.at t (.storeStop tried))
  | spawn (i : ℕ) : s.coordinator = .spawn i → i < r.threads →
      Move r s .coordinator { s.at i (.check 0) with coordinator := .spawn (i + 1) }
  | dropTx (i : ℕ) : s.coordinator = .spawn i → ¬ i < r.threads →
      Move r s .coordinator { s with coordinator := .recv }
  | recv (w : RaceWinner) : s.coordinator = .recv → s.chan = some w →
      Move r s .coordinator { s with coordinator := .storeStop (some w), chan := none }
  | disconnected : s.coordinator = .recv → s.chan = none → ¬ r.sendersLeft s →
      Move r s .coordinator { s with coordinator := .storeStop none }
  | timeout : s.coordinator = .recv → s.chan = none →
      Move r s .timeout { s with coordinator := .storeStop none }
  | storeStop (w : Option RaceWinner) : s.coordinator = .storeStop w →
      Move r s .coordinator { s with coordinator := .join 0 w, stop := true }
  | join (i : ℕ) (w : Option RaceWinner) : s.coordinator = .join i w → i < r.threads →
      s.workers i = .exited → Move r s .coordinator { s with coordinator := .join (i + 1) w }
  | finish (i : ℕ) (w : Option RaceWinner) : s.coordinator = .join i w → ¬ i < r.threads →
      Move r s .coordinator
        { s with coordinator := .returned (w.map fun w => (w, s.totalNonces)) }

theorem workerStep_move {r : Race} {s s' : RaceState} {t : ℕ} (h : r.workerStep s t = some s') :
    Move r s (.worker t) s' := by
  unfold Race.workerStep at h
  split at h
  case h_1 => cases h
  case h_2 tried hpc =>
    split_ifs at h with hc <;> cases h
    · exact .worker t _ _ _ (.enter tried hpc hc.1 hc.2)
    · exact .worker t _ _ _ (.leave tried hpc hc)
  case h_3 tried hpc =>
    split at h <;> cases h
    case h_1 w hw => exact .worker t _ _ _ (.found tried w hpc hw)
    case h_2 hw => exact .worker t _ _ _ (.missed tried hpc hw)
  case h_4 tried w hpc =>
    split_ifs at h with hal hch <;> cases h
    · exact .sendClosed t tried w hpc hal
    · exact .send t tried w hpc hch (by simpa using hal)
  case h_5 tried hpc => cases h; exact .worker t _ _ _ (.raise tried hpc)
  case h_6 tried hpc => cases h; exact .worker t _ _ _ (.count tried hpc)
  case h_7 hpc => cases h; exact .worker t _ _ _ (.exit hpc)
  case h_8 => cases h

theorem coordinatorStep_move {r : Race} {s s' : RaceState} (h : r.coordinatorStep s = some s') :
    Move r s .coordinator s' := by
  unfold Race.coordinatorStep at h
  split at h
  case h_1 i hpc =>
    split_ifs at h with hi <;> cases h
    · exact .spawn i hpc hi
    · exact .dropTx i hpc hi
  case h_2 hpc =>
    split at h
    case h_1 w hw => cases h; exact .recv w hpc hw
    case h_2 hw => split_ifs at h with hl; cases h; exact .disconnected hpc hw hl
  case h_3 w hpc => cases h; exact .storeStop w hpc
  case h_4 i w hpc =>
    split_ifs at h with hi he <;> cases h
    · exact .join i w hpc hi he
    · exact .finish i w hpc hi
  case h_5 => cases h

theorem Race.Step.move {r : Race} {b : Bool} {s s' : RaceState} {l : Turn}
    (h : r.Step b s l s') : Move r s l s' := by
  obtain ⟨-, h⟩ := h
  cases l with
  | coordinator => exact coordinatorStep_move h
  | worker t => exact workerStep_move h
  | timeout =>
    change Race.timeoutStep s = some s' at h
    unfold Race.timeoutStep at h
    split at h
    case h_1 hpc hch => cases h; exact .timeout hpc hch
    case h_2 => cases h

/-! ### The shape of reachable states -/

/-- How many workers have been spawned. -/
def Race.spawned (r : Race) : CoordinatorPc → ℕ
  | .spawn i => i
  | _ => r.threads

/-- How many workers have been joined. -/
def Race.joined (r : Race) : CoordinatorPc → ℕ
  | .join i _ => i
  | .returned _ => r.threads
  | _ => 0

/-- The winner the coordinator holds. -/
def CoordinatorPc.winner : CoordinatorPc → Option RaceWinner
  | .storeStop w => w
  | .join _ w => w
  | .returned res => res.map Prod.fst
  | _ => none

/-- The worker is past the point where it could send. -/
def WorkerPc.sent : WorkerPc → Bool
  | .storeStop _ | .fetchAdd _ | .leaving | .exited => true
  | _ => false

/-- Where the workers stand, by how far the coordinator is. -/
structure Shape (r : Race) (s : RaceState) : Prop where
  spawned_le : r.spawned s.coordinator ≤ r.threads
  idle : ∀ t, s.workers t = .idle ↔ r.spawned s.coordinator ≤ t
  solving : ∀ t k, s.workers t = .solve k → k < r.maxPerThread.toNat
  sending : ∀ t k w, s.workers t = .send k w → t ∈ r.winners
  joined : ∀ t < r.joined s.coordinator, s.workers t = .exited

theorem Shape.init (r : Race) : Shape r .init where
  spawned_le := Nat.zero_le _
  idle := fun t => ⟨fun _ => Nat.zero_le _, fun _ => rfl⟩
  solving := by intro t k h; cases h
  sending := by intro t k w h; cases h
  joined := fun t ht => absurd ht (Nat.not_lt_zero t)

/-- A worker that stands somewhere has been spawned. -/
theorem Shape.lt_threads {r : Race} {s : RaceState} (h : Shape r s) {t : ℕ}
    (ht : s.workers t ≠ .idle) : t < r.threads := by
  have hne := mt (h.idle t).mpr ht
  have := h.spawned_le
  omega

/-- Moving a spawned, unfinished worker to a sound position keeps the shape. -/
theorem Shape.at {r : Race} {s s' : RaceState} (h : Shape r s) {t : ℕ} {pc : WorkerPc}
    (hco : s'.coordinator = s.coordinator) (hw : s'.workers = (s.at t pc).workers)
    (hidle : s.workers t ≠ .idle) (hex : s.workers t ≠ .exited) (hpc : pc ≠ .idle)
    (hsolve : ∀ k, pc = .solve k → k < r.maxPerThread.toNat)
    (hsend : ∀ k w, pc = .send k w → t ∈ r.winners) : Shape r s' where
  spawned_le := hco ▸ h.spawned_le
  idle := by
    intro u
    rw [hco, hw]
    by_cases hu : u = t
    · subst hu
      rw [RaceState.at_self, ← h.idle u]
      exact ⟨fun h => absurd h hpc, fun h => absurd h hidle⟩
    · rw [RaceState.at_ne s pc hu]; exact h.idle u
  solving := by
    intro u k
    rw [hw]
    by_cases hu : u = t
    · subst hu; rw [RaceState.at_self]; exact hsolve k
    · rw [RaceState.at_ne s pc hu]; exact h.solving u k
  sending := by
    intro u k w
    rw [hw]
    by_cases hu : u = t
    · subst hu; rw [RaceState.at_self]; exact hsend k w
    · rw [RaceState.at_ne s pc hu]; exact h.sending u k w
  joined := by
    intro u hu
    rw [hco] at hu
    have hne : u ≠ t := by rintro rfl; exact hex (h.joined u hu)
    rw [hw, RaceState.at_ne s pc hne]
    exact h.joined u hu

/-- The coordinator alone moves, past the spawning. -/
theorem Shape.coordinator {r : Race} {s s' : RaceState} (h : Shape r s)
    (hw : s'.workers = s.workers)
    (hsp : r.spawned s'.coordinator = r.spawned s.coordinator)
    (hj : ∀ t < r.joined s'.coordinator, s.workers t = .exited) : Shape r s' where
  spawned_le := hsp ▸ h.spawned_le
  idle := fun t => by rw [hw, hsp]; exact h.idle t
  solving := fun t k => by rw [hw]; exact h.solving t k
  sending := fun t k w => by rw [hw]; exact h.sending t k w
  joined := fun t ht => by rw [hw]; exact hj t ht

/-- A worker that found a winner within its budget is one of `winners`. -/
theorem Shape.found {r : Race} {s : RaceState} (h : Shape r s) {t tried : ℕ} {w : RaceWinner}
    (hpc : s.workers t = .solve tried) (hw : r.attempt t tried = some w) : t ∈ r.winners := by
  rw [Race.winners, Finset.mem_filter, Finset.mem_range]
  exact ⟨h.lt_threads (by simp [hpc]), tried, h.solving t tried hpc, by simp [hw]⟩

theorem Local.start {r : Race} {s : RaceState} {t : ℕ} {pc : WorkerPc} {stop : Bool}
    {total : UInt64} (h : Local r s t pc stop total) :
    s.workers t ≠ .idle ∧ s.workers t ≠ .exited ∧ pc ≠ .idle := by
  cases h <;> simp_all

theorem Shape.move {r : Race} {s s' : RaceState} {l : Turn} (h : Shape r s)
    (hm : Move r s l s') : Shape r s' := by
  cases hm with
  | worker t pc stop total hl =>
    obtain ⟨hi, hx, hpc⟩ := hl.start
    refine h.at (t := t) rfl rfl hi hx hpc ?_ ?_
    · rintro k rfl
      cases hl with
      | enter _ _ hlt => exact hlt
    · rintro k w rfl
      cases hl with
      | found _ _ hso hat => exact h.found hso hat
  | send t tried w hpc =>
    exact h.at (t := t) rfl rfl (by simp [hpc]) (by simp [hpc]) (by simp) (by simp) (by simp)
  | sendClosed t tried w hpc =>
    exact h.at (t := t) rfl rfl (by simp [hpc]) (by simp [hpc]) (by simp) (by simp) (by simp)
  | spawn i hc hi =>
    have hsp : r.spawned s.coordinator = i := by rw [hc]; rfl
    refine ⟨hi, fun t => ?_, fun t k => ?_, fun t k w => ?_,
      fun t ht => absurd ht (by simp [Race.joined])⟩
    all_goals
      by_cases ht : t = i
    · subst ht; simp [RaceState.at, Race.spawned]
    · have := h.idle t
      rw [hsp] at this
      simp only [RaceState.at_ne s _ ht, this, Race.spawned]
      omega
    · subst ht; simp [RaceState.at]
    · simp only [RaceState.at_ne s _ ht]; exact h.solving t k
    · subst ht; simp [RaceState.at]
    · simp only [RaceState.at_ne s _ ht]; exact h.sending t k w
  | dropTx i hc hi =>
    have hle := h.spawned_le
    rw [hc] at hle
    refine h.coordinator rfl ?_ (by simp [Race.joined])
    rw [hc]
    simp only [Race.spawned] at hle ⊢
    omega
  | recv w hc _ => exact h.coordinator rfl (by rw [hc]; rfl) (by simp [Race.joined])
  | disconnected hc _ _ => exact h.coordinator rfl (by rw [hc]; rfl) (by simp [Race.joined])
  | timeout hc _ => exact h.coordinator rfl (by rw [hc]; rfl) (by simp [Race.joined])
  | storeStop w hc => exact h.coordinator rfl (by rw [hc]; rfl) (by simp [Race.joined])
  | join i w hc hi hx =>
    refine h.coordinator rfl (by rw [hc]; rfl) fun t ht => ?_
    rcases Nat.lt_succ_iff_lt_or_eq.mp ht with ht | rfl
    · exact h.joined t (by rw [hc]; exact ht)
    · exact hx
  | finish i w hc hi =>
    refine h.coordinator rfl (by rw [hc]; rfl) fun t ht => ?_
    simp only [Race.joined] at ht
    exact h.joined t (by rw [hc]; simp only [Race.joined]; omega)

theorem Shape.reachable {r : Race} {b : Bool} {s : RaceState}
    (h : Reachable (r.Step b) .init s) : Shape r s :=
  h.inv (Shape r) (.init r) fun _ _ _ hs hst => hs.move hst.move

/-! ### What the channel has carried -/

/-- `S` is the set of workers whose winner went into the channel: each is a winner, is past its send
    for good, and its message is in the channel or in the coordinator's hands. -/
structure Delivered (r : Race) (s : RaceState) (S : Finset ℕ) : Prop where
  sub : S ⊆ r.winners
  sent : ∀ t ∈ S, (s.workers t).sent = true
  card : S.card = s.chan.toList.length + s.coordinator.winner.toList.length

theorem Local.sent {r : Race} {s : RaceState} {t : ℕ} {pc : WorkerPc} {stop : Bool}
    {total : UInt64} (h : Local r s t pc stop total) (hs : (s.workers t).sent = true) :
    pc.sent = true := by
  cases h <;> simp_all [WorkerPc.sent]

/-- Past their sends stay the workers that were, the moved one included if its new place is. -/
theorem RaceState.sent_at {s : RaceState} {t : ℕ} {pc : WorkerPc} {S : Finset ℕ}
    (h : ∀ u ∈ S, u ≠ t → (s.workers u).sent = true) (ht : t ∈ S → pc.sent = true) :
    ∀ u ∈ S, ((s.at t pc).workers u).sent = true := by
  intro u hu
  rcases eq_or_ne u t with rfl | hut
  · rw [RaceState.at_self]
    exact ht hu
  · rw [RaceState.at_ne s pc hut]
    exact h u hu hut

theorem Delivered.move {r : Race} {s s' : RaceState} {l : Turn} {S : Finset ℕ}
    (h : Delivered r s S) (hsh : Shape r s) (hm : Move r s l s') : ∃ S', Delivered r s' S' := by
  have hold : ∀ t, ∀ u ∈ S, u ≠ t → (s.workers u).sent = true := fun _ u hu _ => h.sent u hu
  cases hm with
  | worker t pc stop total hl =>
    exact ⟨S, h.sub, RaceState.sent_at (hold t) fun ht => hl.sent (h.sent t ht), h.card⟩
  | send t tried w hpc hch =>
    -- the sender joins the set, and the channel now holds its message
    have hnot : t ∉ S := by
      intro ht
      have := h.sent t ht
      rw [hpc] at this
      cases this
    refine ⟨insert t S, Finset.insert_subset (hsh.sending t _ _ hpc) h.sub, RaceState.sent_at
      (fun u hu hut => h.sent u (Finset.mem_of_mem_insert_of_ne hu hut)) fun _ => rfl, ?_⟩
    have := h.card
    rw [hch] at this
    rw [Finset.card_insert_of_notMem hnot, this]
    simp only [Option.toList_none, List.length_nil, Option.toList_some, List.length_singleton]
    change 0 + _ + 1 = 1 + s.coordinator.winner.toList.length
    omega
  | sendClosed t tried w hpc =>
    exact ⟨S, h.sub, RaceState.sent_at (hold t) fun _ => rfl, h.card⟩
  | spawn i hc =>
    have hidle : s.workers i = .idle := (hsh.idle i).mpr (by rw [hc]; exact le_rfl)
    refine ⟨S, h.sub, RaceState.sent_at (hold i) fun hi => ?_, ?_⟩
    · have := h.sent i hi
      rw [hidle] at this
      cases this
    · simpa [hc, CoordinatorPc.winner] using h.card
  | dropTx i hc => exact ⟨S, h.sub, h.sent, by simpa [hc, CoordinatorPc.winner] using h.card⟩
  | recv w hc hch => exact ⟨S, h.sub, h.sent, by simpa [hc, hch, CoordinatorPc.winner] using h.card⟩
  | disconnected hc => exact ⟨S, h.sub, h.sent, by simpa [hc, CoordinatorPc.winner] using h.card⟩
  | timeout hc => exact ⟨S, h.sub, h.sent, by simpa [hc, CoordinatorPc.winner] using h.card⟩
  | storeStop w hc => exact ⟨S, h.sub, h.sent, by simpa [hc, CoordinatorPc.winner] using h.card⟩
  | join i w hc => exact ⟨S, h.sub, h.sent, by simpa [hc, CoordinatorPc.winner] using h.card⟩
  | finish i w hc =>
    refine ⟨S, h.sub, h.sent, ?_⟩
    have := h.card
    rw [hc] at this
    cases w <;> simpa [CoordinatorPc.winner] using this

theorem Delivered.reachable {r : Race} {b : Bool} {s : RaceState}
    (h : Reachable (r.Step b) .init s) : ∃ S, Delivered r s S :=
  (h.inv (fun s => Shape r s ∧ ∃ S, Delivered r s S)
    ⟨.init r, ∅, Finset.empty_subset _, by simp, rfl⟩
    fun _ _ _ ⟨hsh, _, hS⟩ hst => ⟨hsh.move hst.move, hS.move hsh hst.move⟩).2

end Equium.Miner
