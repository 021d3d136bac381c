import Equium.Schemes.Run
import Equium.Schemes.Turns
import Equium.Schemes.Machine

/-! @src clients/website/src/lib/miner-engine.ts, webgpu-leaves.ts | name:GPU queue | scheme:simulation

    The workers share one GPU device, which has one buffer for parameters and one to read from, so
    `runGpuLeaves` lets its callers have it one after another. A caller awaits the promise it finds in
    `gpuQueue`, and leaves one of its own there that its `finally` block resolves. What interleaves are
    the pieces between two awaits. The chain of promises follows the turns of a queue. -/

namespace Equium.Website
open Schemes

/-- The arguments of `runGpuLeaves`. -/
structure LeavesRequest where
  input : List UInt8
  nonce : List UInt8
  deriving DecidableEq, Repr

/-- `"ZcashPoW" || 96 || 5`. -/
def personalBytes : List UInt8 := [90, 99, 97, 115, 104, 80, 111, 87] ++ leBytes 4 96 ++ leBytes 4 5

/-- `N_INIT_LEAVES`. -/
def nInitLeaves : ℕ := 2 ^ 17

/-- The 160 bytes of parameters, for an input of 81 bytes and a nonce of 32. -/
def packParams (r : LeavesRequest) : List UInt8 :=
  personalBytes ++ (leBytes 4 60 ++ leBytes 4 nInitLeaves ++ List.replicate 8 0) ++
    (r.input ++ List.replicate 15 0) ++ r.nonce

/-- The buffers of `WebGPULeaves`. -/
structure WebGPULeaves where
  paramsBuf : List UInt8
  leavesBuf : List UInt8
  stagingBuf : List UInt8
  deriving DecidableEq, Repr

/-- `generate` up to its await; `pass` is the shader, and the submitted commands run in order. -/
def WebGPULeaves.generate (pass : List UInt8 → List UInt8) (g : WebGPULeaves) (r : LeavesRequest) :
    Except String WebGPULeaves :=
  if r.input.length ≠ 81 then .error s!"leaves: input must be 81 bytes, got {r.input.length}"
  else if r.nonce.length ≠ 32 then .error s!"leaves: nonce must be 32 bytes, got {r.nonce.length}"
  else
    let g := { g with paramsBuf := packParams r }
    let g := { g with leavesBuf := pass g.paramsBuf }
    .ok { g with stagingBuf := g.leavesBuf }

namespace LeavesQueue

/-- Where a call of `runGpuLeaves` stands. -/
inductive Phase where
  /-- awaits the promise it found -/
  | waiting
  /-- awaits `generate`, which awaits its staging buffer -/
  | generating
  /-- `generate` has ended, the `finally` block is next -/
  | ended (result : Except String (List UInt8))
  /-- it has released the queue -/
  | returned (result : Except String (List UInt8))

/-- A call of `runGpuLeaves` with its locals; promises are named by numbers. -/
structure Caller where
  request : LeavesRequest
  prev : ℕ
  /-- the promise `release` resolves -/
  own : ℕ
  phase : Phase

end LeavesQueue

/-- The closure of `startMiner`, as far as the GPU queue goes. -/
structure LeavesQueue where
  leavesGpu : Option WebGPULeaves
  /-- every promise ever made, and whether it is resolved -/
  promises : List Bool
  gpuQueue : ℕ
  /-- every call ever made, in the order of the calls -/
  callers : List LeavesQueue.Caller

namespace LeavesQueue

/-- `gpuQueue = Promise.resolve()`. -/
def init (leavesGpu : Option WebGPULeaves) : LeavesQueue := ⟨leavesGpu, [true], 0, []⟩

/-- `runGpuLeaves` up to `await prev`. -/
def call (s : LeavesQueue) (r : LeavesRequest) : LeavesQueue :=
  { s with
    promises := s.promises ++ [false]
    gpuQueue := s.promises.length
    callers := s.callers ++ [⟨r, s.gpuQueue, s.promises.length, .waiting⟩] }

def setPhase (s : LeavesQueue) (i : ℕ) (c : Caller) (p : Phase) : LeavesQueue :=
  { s with callers := s.callers.set i { c with phase := p } }

/-- The `finally` block. -/
def release (s : LeavesQueue) (i : ℕ) (c : Caller) (result : Except String (List UInt8)) :
    LeavesQueue :=
  { s.setPhase i c (.returned result) with promises := s.promises.set c.own true }

/-- `runGpuLeaves` after `await prev`. Without a device the call throws at once. -/
def resume (pass : List UInt8 → List UInt8) (s : LeavesQueue) (i : ℕ) (c : Caller) : LeavesQueue :=
  match s.leavesGpu with
  | none => s.release i c (.error "leavesGpu is null")
  | some g =>
    match g.generate pass c.request with
    | .error e => s.setPhase i c (.ended (.error e))
    | .ok g => { s.setPhase i c .generating with leavesGpu := some g }

/-- What happens next; a caller is named by its place among the calls. -/
inductive Label where
  | call (r : LeavesRequest)
  | resume (i : ℕ)
  /-- the staging buffer of a caller is mapped -/
  | mapped (i : ℕ)
  /-- a pass fails, or the device is lost -/
  | failed (i : ℕ) (e : String)
  | release (i : ℕ)
  | stop

def Label.resumed : Label → Option ℕ
  | .resume i => some i
  | _ => none

def Label.called : Label → Option LeavesRequest
  | .call r => some r
  | _ => none

section
variable (pass : List UInt8 → List UInt8)

inductive Step : LeavesQueue → Label → LeavesQueue → Prop
  | call (s : LeavesQueue) (r : LeavesRequest) : Step s (.call r) (s.call r)
  | resume {s : LeavesQueue} {i : ℕ} {c : Caller} (hc : s.callers[i]? = some c)
      (hw : c.phase = .waiting) (hprev : s.promises[c.prev]? = some true) :
      Step s (.resume i) (s.resume pass i c)
  | mapped {s : LeavesQueue} {i : ℕ} {c : Caller} {g : WebGPULeaves}
      (hc : s.callers[i]? = some c) (hgen : c.phase = .generating) (hg : s.leavesGpu = some g) :
      Step s (.mapped i) (s.setPhase i c (.ended (.ok g.stagingBuf)))
  | failed {s : LeavesQueue} {i : ℕ} {c : Caller} (e : String)
      (hc : s.callers[i]? = some c) (hgen : c.phase = .generating) :
      Step s (.failed i e) (s.setPhase i c (.ended (.error e)))
  | release {s : LeavesQueue} {i : ℕ} {c : Caller} {result : Except String (List UInt8)}
      (hc : s.callers[i]? = some c) (hended : c.phase = .ended result) :
      Step s (.release i) (s.release i c result)
  | stop (s : LeavesQueue) : Step s .stop { s with leavesGpu := none }

end

/-! ### The queue in turns -/

def Phase.place : Phase → Place
  | .waiting => .waiting
  | .generating => .inside
  | .ended _ => .inside
  | .returned _ => .gone

theorem Phase.place_waiting {p : Phase} : p.place = .waiting ↔ p = .waiting := by
  cases p <;> simp [Phase.place]

theorem Phase.place_inside {p : Phase} :
    p.place = .inside ↔ p = .generating ∨ ∃ result, p = .ended result := by
  cases p <;> simp [Phase.place]

theorem Phase.place_gone {p : Phase} : p.place = .gone ↔ ∃ result, p = .returned result := by
  cases p <;> simp [Phase.place]

def place (s : LeavesQueue) (i : ℕ) : Place :=
  match s.callers[i]? with
  | some c => c.phase.place
  | none => .absent

/-- The state follows the turns: a caller awaits the promise of the caller before it, and a promise is
    resolved iff the callers up to its own have left. -/
structure Follows (s : LeavesQueue) (t : Turns) : Prop where
  count : s.callers.length = t.arrived
  made : s.promises.length = t.arrived + 1
  resolved : ∀ j ≤ t.arrived, s.promises[j]? = some (decide (j ≤ t.left))
  gpuQueue : s.gpuQueue = t.arrived
  chained : ∀ i c, s.callers[i]? = some c → c.prev = i ∧ c.own = i + 1
  places : ∀ i, s.place i = t.place i

variable {s s' : LeavesQueue} {t : Turns} {i : ℕ} {c : Caller}

/-- A caller stands where its phase says. -/
theorem Follows.place_eq (h : Follows s t) (hc : s.callers[i]? = some c) :
    t.place i = c.phase.place := by
  rw [← h.places i, place, hc]

theorem place_setPhase (hc : s.callers[i]? = some c) (p : Phase) (j : ℕ) :
    (s.setPhase i c p).place j = if j = i then p.place else s.place j := by
  have hi := (List.getElem?_eq_some_iff.mp hc).1
  rw [place, setPhase, List.getElem?_set]
  by_cases hij : i = j
  · simp [← hij, hi]
  · simp [hij, Ne.symm hij, place]

theorem chained_setPhase (h : Follows s t) (hc : s.callers[i]? = some c) (p : Phase) :
    ∀ j d, (s.setPhase i c p).callers[j]? = some d → d.prev = j ∧ d.own = j + 1 := by
  intro j d hd
  rw [setPhase, List.getElem?_set] at hd
  split_ifs at hd with hij hlen
  · obtain rfl := Option.some.inj hd
    exact hij ▸ h.chained i c hc
  · exact h.chained j d hd

theorem follows_init (leavesGpu : Option WebGPULeaves) : Follows (init leavesGpu) Turns.start where
  count := rfl
  made := rfl
  resolved j hj := by
    obtain rfl := Nat.le_zero.mp hj
    rfl
  gpuQueue := rfl
  chained := by simp [init]
  places i := by simp [place, init, Turns.place_start]

theorem getElem?_snoc {α : Type} (l : List α) (a : α) (i : ℕ) :
    (l ++ [a])[i]? = if i = l.length then some a else l[i]? := by
  rcases Nat.lt_trichotomy i l.length with hlt | rfl | hgt
  · rw [List.getElem?_append_left hlt, if_neg hlt.ne]
  · rw [if_pos rfl, List.getElem?_concat_length]
  · rw [if_neg hgt.ne', List.getElem?_eq_none hgt.le, List.getElem?_eq_none]
    simpa using Nat.succ_le_of_lt hgt

/-- A new caller is the last of the chain. -/
theorem Follows.call (h : Follows s t) (r : LeavesRequest) : Follows (s.call r) t.arrive where
  count := by simp [LeavesQueue.call, h.count, Turns.arrive]
  made := by simp [LeavesQueue.call, h.made, Turns.arrive]
  resolved j hj := by
    change j ≤ t.arrived + 1 at hj
    change (s.promises ++ [false])[j]? = some (decide (j ≤ t.left))
    rw [getElem?_snoc, h.made]
    split_ifs with hlast
    · have hleft : ¬ j ≤ t.left := by
        have := t.left_le.trans t.entered_le
        omega
      rw [decide_eq_false hleft]
    · exact h.resolved j (by omega)
  gpuQueue := h.made
  chained i c hc := by
    rw [LeavesQueue.call, getElem?_snoc] at hc
    split_ifs at hc with hi
    · obtain rfl := Option.some.inj hc
      exact ⟨by rw [hi, h.count, h.gpuQueue], by rw [hi, h.count, h.made]⟩
    · exact h.chained i c hc
  places i := by
    rw [Turns.place_arrive, ← h.places i, ← h.count, place, LeavesQueue.call, getElem?_snoc]
    split_ifs with hi
    · rfl
    · rfl

/-- A caller whose promise is resolved is the next one, and nobody is inside. -/
theorem Follows.next (h : Follows s t) (hc : s.callers[i]? = some c) (hw : c.phase = .waiting)
    (hprev : s.promises[c.prev]? = some true) :
    i = t.entered ∧ t.entered = t.left ∧ t.entered < t.arrived := by
  have hplace : t.place i = .waiting := by
    rw [h.place_eq hc, hw]
    rfl
  obtain ⟨hentered, harrived⟩ := Turns.place_waiting.mp hplace
  rw [(h.chained i c hc).1, h.resolved i harrived.le] at hprev
  have hleft : i ≤ t.left := of_decide_eq_true (Option.some.inj hprev)
  have := t.left_le
  omega

/-- A caller inside is the first that has not left. -/
theorem Follows.inside (h : Follows s t) (hc : s.callers[i]? = some c)
    (hin : c.phase.place = .inside) : i = t.left ∧ t.left < t.entered :=
  Turns.place_inside.mp ((h.place_eq hc).trans hin)

/-- A caller goes on within its place. -/
theorem Follows.setPhase (h : Follows s t) (hc : s.callers[i]? = some c) {p : Phase}
    (hp : p.place = c.phase.place) : Follows (s.setPhase i c p) t where
  count := List.length_set.trans h.count
  made := h.made
  resolved := h.resolved
  gpuQueue := h.gpuQueue
  chained := chained_setPhase h hc p
  places j := by
    rw [place_setPhase hc, h.places j]
    split_ifs with hj
    · rw [hp, hj, h.place_eq hc]
    · rfl

/-- The next caller begins. -/
theorem Follows.enter (h : Follows s t) (hc : s.callers[i]? = some c) {p : Phase}
    (hp : p.place = .inside) (hi : i = t.entered) (hfree : t.entered = t.left)
    (hnext : t.entered < t.arrived) : Follows (s.setPhase i c p) (t.enter hfree hnext) where
  count := List.length_set.trans h.count
  made := h.made
  resolved := h.resolved
  gpuQueue := h.gpuQueue
  chained := chained_setPhase h hc p
  places j := by
    rw [place_setPhase hc, Turns.place_enter, h.places j, hp, hi]

/-- A caller releases the queue. -/
theorem Follows.release (h : Follows s t) (hc : s.callers[i]? = some c) (hi : i = t.left)
    (hin : t.left < t.entered) (result : Except String (List UInt8)) :
    Follows (s.release i c result) (t.leave hin) where
  count := List.length_set.trans h.count
  made := List.length_set.trans h.made
  resolved j hj := by
    change (s.promises.set c.own true)[j]? = some (decide (j ≤ t.left + 1))
    rw [(h.chained i c hc).2, hi, List.getElem?_set, h.resolved j hj]
    split_ifs with hown hlen
    · rw [decide_eq_true hown.ge]
    · have := t.entered_le
      rw [h.made] at hlen
      omega
    · rw [Option.some.injEq, decide_eq_decide]
      omega
  gpuQueue := h.gpuQueue
  chained := chained_setPhase h hc _
  places j := by
    rw [Turns.place_leave, ← h.places j, ← hi]
    exact place_setPhase hc _ j

/-- The device does not matter to the chain. -/
theorem Follows.leavesGpu (h : Follows s t) (g : Option WebGPULeaves) :
    Follows { s with leavesGpu := g } t :=
  ⟨h.count, h.made, h.resolved, h.gpuQueue, h.chained, h.places⟩

theorem release_setPhase (s : LeavesQueue) (i : ℕ) (c : Caller) (p : Phase)
    (result : Except String (List UInt8)) :
    (s.setPhase i c p).release i { c with phase := p } result = s.release i c result := by
  simp [LeavesQueue.release, LeavesQueue.setPhase]

variable {pass : List UInt8 → List UInt8} {l : Label} {tr : List (Taken LeavesQueue Label)}
  {leavesGpu : Option WebGPULeaves}

/-- Resuming is entering; a call that throws at once has left again. -/
theorem Follows.resume (pass : List UInt8 → List UInt8) (h : Follows s t)
    (hc : s.callers[i]? = some c) (hw : c.phase = .waiting)
    (hprev : s.promises[c.prev]? = some true) :
    ∃ t', Follows (s.resume pass i c) t' ∧ i = t.entered ∧ t'.entered = t.entered + 1 := by
  obtain ⟨hi, hfree, hnext⟩ := h.next hc hw hprev
  have hlen := (List.getElem?_eq_some_iff.mp hc).1
  have hgenerating := h.enter hc (p := .generating) rfl hi hfree hnext
  rw [LeavesQueue.resume]
  cases s.leavesGpu with
  | none =>
    have hc' : (s.setPhase i c .generating).callers[i]? = some { c with phase := .generating } := by
      simp [LeavesQueue.setPhase, hlen]
    have hleft := hgenerating.release hc' (hi.trans hfree) (Nat.lt_succ_of_le t.left_le)
      (.error "leavesGpu is null")
    rw [release_setPhase] at hleft
    exact ⟨_, hleft, hi, rfl⟩
  | some g =>
    cases hg : g.generate pass c.request with
    | error e => exact ⟨_, by simpa only [hg] using h.enter hc rfl hi hfree hnext, hi, rfl⟩
    | ok g' => exact ⟨_, by simpa only [hg] using hgenerating.leavesGpu (some g'), hi, rfl⟩

/-- Step lemma: every step follows the turns, and the next caller is the one that resumes. -/
theorem Follows.step (h : Follows s t) (hst : Step pass s l s') :
    ∃ t', Follows s' t' ∧ List.range t'.entered = List.range t.entered ++ l.resumed.toList := by
  cases hst with
  | call r => exact ⟨_, h.call r, (List.append_nil _).symm⟩
  | @resume i c hc hw hprev =>
    obtain ⟨t', h', hi, hentered⟩ := h.resume pass hc hw hprev
    refine ⟨t', h', ?_⟩
    rw [hentered, List.range_succ, ← hi]
    rfl
  | mapped hc hgen hg =>
    exact ⟨t, h.setPhase hc (by rw [hgen]; rfl), (List.append_nil _).symm⟩
  | failed e hc hgen =>
    exact ⟨t, h.setPhase hc (by rw [hgen]; rfl), (List.append_nil _).symm⟩
  | release hc hended =>
    obtain ⟨hi, hin⟩ := h.inside hc (by rw [hended]; rfl)
    exact ⟨_, h.release hc hi hin _, (List.append_nil _).symm⟩
  | stop => exact ⟨t, h.leavesGpu none, (List.append_nil _).symm⟩

/-- Nobody's arguments change, and a new caller is last. -/
theorem step_requests (hst : Step pass s l s') :
    s'.callers.map (·.request) = s.callers.map (·.request) ++ l.called.toList := by
  have hset : ∀ {i : ℕ} {c : Caller}, s.callers[i]? = some c → ∀ p : Phase,
      (s.setPhase i c p).callers.map (·.request) = s.callers.map (·.request) := by
    intro i c hc p
    obtain ⟨hlen, rfl⟩ := List.getElem?_eq_some_iff.mp hc
    have hself := @List.set_getElem_self _ (s.callers.map (·.request)) i (by simpa using hlen)
    rw [List.getElem_map] at hself
    rw [LeavesQueue.setPhase, List.map_set, hself]
  cases hst with
  | call r => simp [LeavesQueue.call, Label.called]
  | @resume i c hc hw hprev =>
    refine Eq.trans ?_ (List.append_nil _).symm
    rw [LeavesQueue.resume]
    split
    · exact hset hc _
    · split
      · exact hset hc _
      · exact hset hc _
  | mapped hc hgen hg => exact (hset hc _).trans (List.append_nil _).symm
  | failed e hc hgen => exact (hset hc _).trans (List.append_nil _).symm
  | release hc hended => exact (hset hc _).trans (List.append_nil _).symm
  | stop => exact (List.append_nil _).symm

/-- Run lemma: a run follows the turns; callers resume in the order of their calls. -/
theorem run_follows (h : Run (Step pass) (init leavesGpu) tr s) :
    ∃ t : Turns, Follows s t ∧ tr.filterMap (·.label.resumed) = List.range t.entered ∧
      tr.filterMap (·.label.called) = s.callers.map (·.request) := by
  refine h.inv (fun tr s => ∃ t : Turns, Follows s t ∧
    tr.filterMap (·.label.resumed) = List.range t.entered ∧
      tr.filterMap (·.label.called) = s.callers.map (·.request))
    ⟨Turns.start, follows_init leavesGpu, rfl, rfl⟩ ?_
  rintro tr s l s' - ⟨t, ht, hresumed, hcalled⟩ hst
  obtain ⟨t', ht', hrange⟩ := ht.step hst
  refine ⟨t', ht', ?_, ?_⟩
  · rw [List.filterMap_append, hresumed, hrange]
    cases hl : l.resumed <;> simp [hl]
  · rw [List.filterMap_append, hcalled, step_requests hst]
    cases hl : l.called <;> simp [hl]

/-! ### What the queue is for -/

/-- `generate` of the caller has ended, whether or not the `finally` block has run. -/
def Phase.done : Phase → Bool
  | .ended _ => true
  | .returned _ => true
  | _ => false

/-- A waiting caller behind one that has released the queue may resume. -/
theorem Follows.successor (h : Follows s t) (hc : s.callers[i]? = some c)
    (hret : c.phase.place = .gone) {next : Caller} (hnext : s.callers[i + 1]? = some next)
    (hw : next.phase = .waiting) : Step pass s (.resume (i + 1)) (s.resume pass (i + 1) next) := by
  refine .resume hnext hw ?_
  have hleft := Turns.place_gone.mp ((h.place_eq hc).trans hret)
  have hle := t.left_le.trans t.entered_le
  rw [(h.chained _ _ hnext).1, h.resolved (i + 1) (by omega), decide_eq_true (by omega)]

/-- The release of an ended caller lets a waiting successor resume. -/
theorem Follows.handed_over (pass : List UInt8 → List UInt8) (h : Follows s t)
    {result : Except String (List UInt8)} (hc : s.callers[i]? = some c)
    (hended : c.phase = .ended result) {next : Caller} (hnext : s.callers[i + 1]? = some next)
    (hw : next.phase = .waiting) :
    ∃ s₁ s₂, Step pass s (.release i) s₁ ∧ Step pass s₁ (.resume (i + 1)) s₂ := by
  obtain ⟨hi, hin⟩ := h.inside hc (by rw [hended]; rfl)
  have hlen := (List.getElem?_eq_some_iff.mp hc).1
  have hc' : (s.release i c result).callers[i]? = some { c with phase := .returned result } := by
    simp [LeavesQueue.release, LeavesQueue.setPhase, hlen]
  have hnext' : (s.release i c result).callers[i + 1]? = some next := by
    simpa [LeavesQueue.release, LeavesQueue.setPhase] using hnext
  have hreleased := h.release hc hi hin result
  exact ⟨_, _, .release hc hended, hreleased.successor hc' rfl hnext' hw⟩

/-- While a caller has not returned, some caller can go on. -/
theorem Follows.goes_on (pass : List UInt8 → List UInt8) (h : Follows s t) (hleft : t.left < t.arrived) :
    ∃ l s', Step pass s l s' ∧ l.called = none ∧ l ≠ .stop := by
  have hlen : t.left < s.callers.length := h.count ▸ hleft
  obtain ⟨c, hc⟩ : ∃ c, s.callers[t.left]? = some c := ⟨_, List.getElem?_eq_getElem hlen⟩
  rcases Turns.next_place hleft with hin | ⟨hw, -⟩
  · rcases Phase.place_inside.mp ((h.place_eq hc).symm.trans hin) with hp | ⟨result, hp⟩
    · exact ⟨_, _, .failed "" hc hp, rfl, by simp⟩
    · exact ⟨_, _, .release hc hp, rfl, by simp⟩
  · have hp := Phase.place_waiting.mp ((h.place_eq hc).symm.trans hw)
    have hprev : s.promises[c.prev]? = some true := by
      rw [(h.chained _ _ hc).1, h.resolved _ hleft.le, decide_eq_true le_rfl]
    exact ⟨_, _, .resume hc hp hprev, rfl, by simp⟩

/-- A FAIR MUTEX: in every run at most one `generate` is in progress; callers, numbered in the order of
    their calls, resume in that order. When the `generate` of a caller has ended, whether it succeeded
    or threw, a waiting successor may resume, at once or after the caller's own release, and nobody is
    left behind: where only calls and stops are possible, every caller has returned. -/
theorem gpuQueue_fair (h : Run (Step pass) (init leavesGpu) tr s) :
    (∀ (i j : ℕ) (c d : Caller), s.callers[i]? = some c → s.callers[j]? = some d →
      c.phase = .generating → d.phase = .generating → i = j) ∧
    (tr.filterMap (·.label.called) = s.callers.map (·.request) ∧
      ∃ n, tr.filterMap (·.label.resumed) = List.range n) ∧
    (∀ (i : ℕ) (c next : Caller), s.callers[i]? = some c → c.phase.done = true →
      s.callers[i + 1]? = some next → next.phase = .waiting →
      ∃ s₁ s₂, (s₁ = s ∨ Step pass s (.release i) s₁) ∧ Step pass s₁ (.resume (i + 1)) s₂) ∧
    ((∀ l s', Step pass s l s' → l.called ≠ none ∨ l = .stop) →
      ∀ c ∈ s.callers, ∃ result, c.phase = .returned result) := by
  obtain ⟨t, ht, hresumed, hcalled⟩ := run_follows h
  refine ⟨?_, ⟨hcalled, t.entered, hresumed⟩, ?_, ?_⟩
  · intro i j c d hc hd hi hj
    have hti : t.place i = .inside := by
      rw [ht.place_eq hc, hi]
      rfl
    have htj : t.place j = .inside := by
      rw [ht.place_eq hd, hj]
      rfl
    exact Turns.inside_unique hti htj
  · intro i c next hc hdone hnext hw
    cases hp : c.phase with
    | waiting => simp [hp, Phase.done] at hdone
    | generating => simp [hp, Phase.done] at hdone
    | ended result =>
      obtain ⟨s₁, s₂, hrelease, hresume⟩ := ht.handed_over pass hc hp hnext hw
      exact ⟨s₁, s₂, Or.inr hrelease, hresume⟩
    | returned result =>
      exact ⟨s, _, Or.inl rfl, ht.successor hc (by rw [hp]; rfl) hnext hw⟩
  · intro hstuck c hmem
    have hall : t.arrived ≤ t.left := by
      by_contra hlt
      obtain ⟨l, s', hst, hcall, hstop⟩ := ht.goes_on pass (Nat.lt_of_not_le hlt)
      rcases hstuck l s' hst with h' | h'
      · exact h' hcall
      · exact hstop h'
    obtain ⟨i, hi, rfl⟩ := List.mem_iff_getElem.mp hmem
    have hgone : t.place i = .gone := Turns.place_gone.mpr (by rw [ht.count] at hi; omega)
    rw [ht.place_eq (List.getElem?_eq_getElem hi)] at hgone
    exact Phase.place_gone.mp hgone

namespace Demo

def request : LeavesRequest := ⟨List.replicate 81 0, List.replicate 32 0⟩

def device : WebGPULeaves := ⟨[], [], []⟩

def noPass (_ : List UInt8) : List UInt8 := []

/-- Two calls, and the first has the device. -/
def running : LeavesQueue :=
  (((init (some device)).call request).call request).resume noPass 0 ⟨request, 0, 1, .waiting⟩

/-- Its pass fails. -/
def lost : LeavesQueue :=
  running.setPhase 0 ⟨request, 0, 1, .generating⟩ (.ended (.error "device lost"))

theorem run_lost : ∃ tr, Run (Step noPass) (init (some device)) tr lost := by
  have hcall : Step noPass (init (some device)) (.call request) _ := .call _ request
  have hcalls := (Run.nil.snoc hcall).snoc (Step.call _ request)
  have hrunning := hcalls.snoc (Step.resume (i := 0) rfl rfl rfl)
  exact ⟨_, hrunning.snoc (Step.failed "device lost" rfl rfl)⟩

end Demo

/-- The caller behind a call that failed resumes after the release. -/
theorem gpuQueue_fair_demo :
    ∃ s₁ s₂, (s₁ = Demo.lost ∨ Step Demo.noPass Demo.lost (.release 0) s₁) ∧
      Step Demo.noPass s₁ (.resume (0 + 1)) s₂ := by
  obtain ⟨tr, h⟩ := Demo.run_lost
  obtain ⟨-, -, hnext, -⟩ := gpuQueue_fair h
  exact hnext 0 _ _ rfl rfl rfl rfl

/-! ### Whose leaves -/

theorem generate_ok {g g' : WebGPULeaves} {r : LeavesRequest} (h : g.generate pass r = .ok g') :
    g'.stagingBuf = pass (packParams r) := by
  rw [WebGPULeaves.generate] at h
  split_ifs at h
  obtain rfl := Except.ok.inj h
  rfl

/-- What a caller has got, or is about to read, was made from its own arguments. -/
def Caller.Own (pass : List UInt8 → List UInt8) (g : Option WebGPULeaves) (c : Caller) : Prop :=
  match c.phase with
  | .waiting => True
  | .generating => ∀ x, g = some x → x.stagingBuf = pass (packParams c.request)
  | .ended result => ∀ leaves, result = .ok leaves → leaves = pass (packParams c.request)
  | .returned result => ∀ leaves, result = .ok leaves → leaves = pass (packParams c.request)

theorem own_setPhase {g : Option WebGPULeaves} (hs : ∀ d ∈ s.callers, d.Own pass g) (i : ℕ) {p : Phase}
    (hp : ({ c with phase := p } : Caller).Own pass g) :
    ∀ d ∈ (s.setPhase i c p).callers, d.Own pass g := by
  intro d hd
  rcases List.mem_or_eq_of_mem_set hd with hd | rfl
  · exact hs d hd
  · exact hp

/-- While nobody is inside, the buffers are nobody's. -/
theorem Follows.own_any (h : Follows s t) (hfree : t.entered = t.left) {g : Option WebGPULeaves}
    (hs : ∀ d ∈ s.callers, d.Own pass g) (g' : Option WebGPULeaves) :
    ∀ d ∈ s.callers, d.Own pass g' := by
  intro d hd
  have hown := hs d hd
  obtain ⟨j, hj, rfl⟩ := List.mem_iff_getElem.mp hd
  have hout : s.callers[j].phase.place ≠ .inside := by
    intro hin
    have := h.inside (List.getElem?_eq_getElem hj) hin
    omega
  rw [Caller.Own] at hown ⊢
  cases hp : s.callers[j].phase with
  | generating => simp [hp, Phase.place] at hout
  | waiting => trivial
  | ended result => simpa only [hp] using hown
  | returned result => simpa only [hp] using hown

/-- Step lemma: nobody writes to the buffers while another caller's leaves are in them. -/
theorem Follows.own_step (h : Follows s t) (hs : ∀ d ∈ s.callers, d.Own pass s.leavesGpu)
    (hst : Step pass s l s') : ∀ d ∈ s'.callers, d.Own pass s'.leavesGpu := by
  have hmem : ∀ {i : ℕ} {c : Caller}, s.callers[i]? = some c → c.Own pass s.leavesGpu :=
    fun hc => hs _ (List.mem_of_getElem? hc)
  cases hst with
  | call r =>
    intro d hd
    rcases List.mem_append.mp hd with hd | hd
    · exact hs d hd
    · obtain rfl := List.mem_singleton.mp hd
      trivial
  | @resume i c hc hw hprev =>
    obtain ⟨-, hfree, -⟩ := h.next hc hw hprev
    rw [LeavesQueue.resume]
    split
    · rename_i hnone
      exact own_setPhase hs i (fun _ he => by cases he)
    · split
      · exact own_setPhase hs i (fun _ he => by cases he)
      · rename_i g' hg
        refine own_setPhase (h.own_any hfree hs (some g')) i fun x hx => ?_
        obtain rfl := Option.some.inj hx
        exact generate_ok hg
  | @mapped i c g hc hgen hg =>
    have hown := hmem hc
    rw [Caller.Own, hgen] at hown
    refine own_setPhase hs i fun leaves he => ?_
    obtain rfl := Except.ok.inj he
    exact hown g hg
  | @failed i c e hc hgen => exact own_setPhase hs i (fun _ he => by cases he)
  | @release i c result hc hended =>
    have hown := hmem hc
    rw [Caller.Own, hended] at hown
    exact own_setPhase hs i hown
  | stop =>
    intro d hd
    have hown := hs d hd
    rw [Caller.Own] at hown ⊢
    cases hp : d.phase with
    | waiting => trivial
    | generating => simp
    | ended result => simpa only [hp] using hown
    | returned result => simpa only [hp] using hown

/-- OWN LEAVES: in every run, what a caller is given was made from its own input and nonce. -/
theorem own_leaves (h : Run (Step pass) (init leavesGpu) tr s) :
    ∀ c ∈ s.callers, ∀ leaves, c.phase = .returned (.ok leaves) →
      leaves = pass (packParams c.request) := by
  obtain ⟨-, hown⟩ := h.inv_state
    (fun s => (∃ t : Turns, Follows s t) ∧ ∀ d ∈ s.callers, d.Own pass s.leavesGpu)
    ⟨⟨_, follows_init leavesGpu⟩, by simp [init]⟩ fun s l s' ⟨⟨t, ht⟩, hs⟩ hst => by
      obtain ⟨t', ht', -⟩ := ht.step hst
      exact ⟨⟨t', ht'⟩, ht.own_step hs hst⟩
  intro c hc leaves hp
  have hc' := hown c hc
  rw [Caller.Own, hp] at hc'
  exact hc' leaves rfl

end LeavesQueue

end Equium.Website
