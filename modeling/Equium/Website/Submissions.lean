import Equium.Website.Dispatch

/-! @src clients/website/src/lib/miner-engine.ts | name:Submissions of the pool | scheme:run-invariant

    What one resumption does to the pool is said once: it takes at most one closure out, puts it back in
    another phase or not at all, and appends new jobs. The flag `submitting` is the lock between the
    reply handlers; `stop` raises its own flag and lets the closures that wait run to their ends. -/

namespace Equium.Website
open Schemes Equium.Core

variable {c : Crates} {miner : Bytes32} {tier : SolverTier}

def Phase.submits : Phase → Bool
  | .submitting => true
  | _ => false

def Phase.hashes : Phase → Bool
  | .hashing _ => true
  | _ => false

/-- The resumptions a closure has left once the miner is stopped. -/
def Phase.left : Phase → ℕ
  | .leaves => 2
  | .posted => 1
  | .dropped => 0
  | .hashing _ => 2
  | .submitting => 1
  | .pausing => 1

def Supervisor.left : Supervisor → ℕ
  | .fetching => 3
  | .advancing _ => 2
  | .asleep => 1
  | .done => 0

/-- The resumptions left once the miner is stopped. -/
def Engine.left (s : Engine) : ℕ := (s.tasks.map (·.phase.left)).sum + s.supervisor.left

/-- Everything but another call of `stop`. -/
def Event.resumes : Event → Bool
  | .stop => false
  | _ => true

/-- The submissions that are awaited. -/
def Engine.submissions (s : Engine) : ℕ := s.tasks.countP (·.phase.submits)

/-- The replies whose hash is awaited. -/
def Engine.hashing (s : Engine) : ℕ := s.tasks.countP (·.phase.hashes)

/-! ### Dispatching -/

/-- What one or more dispatches add to the pool. -/
structure Grown (s s' : Engine) (js : List Task) : Prop where
  kept : Kept s s'
  tasks : s'.tasks = s.tasks ++ js
  phase : ∀ j ∈ js, j.phase = .leaves ∨ j.phase = .posted
  config : ∀ j ∈ js, s.currentConfig = some j.cfg
  ids : js.map (·.jobId) = List.range' s.nextJobId js.length
  next : s'.nextJobId = s.nextJobId + js.length
  stopped : s.stopped = true → js = []
  busy : ∀ i, s'.busy i = true → s.busy i = true ∨ ∃ j ∈ js, j.slot = i

theorem Grown.refl (s : Engine) : Grown s s [] where
  kept := .refl s
  tasks := (List.append_nil _).symm
  phase := by simp
  config := by simp
  ids := rfl
  next := rfl
  stopped := fun _ => rfl
  busy := fun _ h => Or.inl h

theorem Grown.trans {s s' s'' : Engine} {js js' : List Task} (h : Grown s s' js)
    (h' : Grown s' s'' js') : Grown s s'' (js ++ js') where
  kept := h.kept.trans h'.kept
  tasks := by rw [h'.tasks, h.tasks, List.append_assoc]
  phase := fun j hj => (List.mem_append.mp hj).elim (h.phase j) (h'.phase j)
  config := by
    intro j hj
    rcases List.mem_append.mp hj with hj | hj
    · exact h.config j hj
    · exact h.kept.currentConfig ▸ h'.config j hj
  ids := by
    rw [List.map_append, h.ids, h'.ids, h.next, List.length_append, List.range'_append_1]
  next := by rw [h'.next, h.next, List.length_append, Nat.add_assoc]
  stopped := by
    intro hs
    rw [h.stopped hs, h'.stopped (h.kept.stopped.trans hs), List.append_nil]
  busy := by
    intro i hi
    rcases h'.busy i hi with hi | ⟨j, hj, rfl⟩
    · rcases h.busy i hi with hi | ⟨j, hj, rfl⟩
      · exact Or.inl hi
      · exact Or.inr ⟨j, List.mem_append_left _ hj, rfl⟩
    · exact Or.inr ⟨j, List.mem_append_right _ hj, rfl⟩

variable (tier) in
theorem dispatchTo_grown {s : Engine} (i : ℕ) {cfg : EquiumConfig} (hc : s.currentConfig = some cfg) :
    ∃ js, Grown s (dispatchTo tier s i cfg) js := by
  by_cases hs : s.stopped = true
  · rw [dispatchTo, if_pos hs]
    exact ⟨[], .refl s⟩
  · refine ⟨[⟨s.nextJobId, i, cfg, if tier = SolverTier.hybrid then .leaves else .posted⟩],
      dispatchTo_kept s i cfg, ?_, ?_, ?_, ?_, ?_, fun h => absurd h hs, ?_⟩
    · rw [dispatchTo, if_neg hs]
      rfl
    · intro j hj
      rw [List.mem_singleton] at hj
      subst hj
      dsimp only
      split_ifs
      · exact Or.inl rfl
      · exact Or.inr rfl
    · intro j hj
      rw [List.mem_singleton] at hj
      subst hj
      exact hc
    · rfl
    · rw [dispatchTo, if_neg hs]
      rfl
    · intro k hk
      by_cases hki : i = k
      · exact Or.inr ⟨_, List.mem_singleton_self _, hki⟩
      · rw [dispatchTo, if_neg hs] at hk
        refine Or.inl ?_
        simpa [Engine.busy, Engine.add, Engine.setBusy, List.getElem?_set_ne hki] using hk

variable (tier) in
theorem redispatch_grown (s : Engine) (i : ℕ) : ∃ js, Grown s (redispatch tier s i) js := by
  rw [redispatch]
  split_ifs
  · exact ⟨[], .refl s⟩
  · cases hc : s.currentConfig with
    | none => exact ⟨[], .refl s⟩
    | some cfg => exact dispatchTo_grown tier i hc

variable (tier) in
theorem kick_grown {s : Engine} {cfg : EquiumConfig} (hc : s.currentConfig = some cfg) :
    ∃ js, Grown s (kick tier s cfg) js := by
  have hloop : ∀ (is : List ℕ) (s : Engine), s.currentConfig = some cfg →
      ∃ js, Grown s (is.foldl (kickSlot tier cfg) s) js := by
    intro is
    induction is with
    | nil => exact fun s _ => ⟨[], .refl s⟩
    | cons i is ih =>
      intro s hc
      have hone : ∃ js, Grown s (kickSlot tier cfg s i) js := by
        rw [kickSlot]
        split_ifs
        · exact dispatchTo_grown tier i hc
        · exact ⟨[], .refl s⟩
      obtain ⟨js, hjs⟩ := hone
      obtain ⟨js', hjs'⟩ := ih _ (hjs.kept.currentConfig.trans hc)
      exact ⟨js ++ js', hjs.trans hjs'⟩
  exact hloop _ s hc

/-! ### One resumption -/

/-- What a resumption does to the lock. -/
inductive Lock (c : Crates) (miner : Bytes32) (s s₁ : Engine) (old back : List Task) : Prop
  | same (hold : ∀ t ∈ old, t.phase.submits = false) (hback : ∀ t ∈ back, t.phase.submits = false)
      (hflag : s₁.submitting = s.submitting)
  | taken {t u : Task} {solnIndices : List UInt8} (hold : old = [t]) (hback : back = [u])
      (hp : t.phase = .hashing solnIndices) (hu : u.phase = .submitting)
      (hunder : aboveTarget c miner t.cfg solnIndices = false)
      (hfree : s.submitting = false) (hflag : s₁.submitting = true)
  | given {t : Task} (hold : old = [t]) (hback : back = []) (hp : t.phase = .submitting)
      (hflag : s₁.submitting = false)

/-- What a resumption does before it dispatches: a closure taken out, and put back or not. -/
structure Handled (c : Crates) (miner : Bytes32) (e : Event) (s s₁ : Engine) (old back : List Task) :
    Prop where
  tasks : ∃ rest, s.tasks.Perm (old ++ rest) ∧ s₁.tasks.Perm (rest ++ back)
  ids : (back.map (·.jobId)).Sublist (old.map (·.jobId))
  next : s₁.nextJobId = s.nextJobId
  length : s₁.slots.length = s.slots.length
  lock : Lock c miner s s₁ old back
  busy : ∀ i, s₁.busy i = true → s.busy i = true ∧
    ∀ t ∈ old, t.slot = i → t.phase.outstanding = true → ∃ u ∈ back, u.slot = i ∧
      u.phase.outstanding = true
  stays : s.stopped = true → s₁.stopped = true
  winds : s.stopped = true → (∀ t ∈ back, t.phase.hashes = false) ∧
    (back.map (·.phase.left)).sum + s₁.supervisor.left + (if e.resumes then 1 else 0) ≤
      (old.map (·.phase.left)).sum + s.supervisor.left

/-- A closure runs and ends, or waits again in another phase. -/
theorem Handled.closure {e : Event} {s s₁ : Engine} {t : Task} {back : List Task} (ht : t ∈ s.tasks)
    (htasks : s₁.tasks = s.tasks.erase t ++ back)
    (hback : back = [] ∨ ∃ p, back = [{ t with phase := p }]) (hnext : s₁.nextJobId = s.nextJobId)
    (hlength : s₁.slots.length = s.slots.length) (hlock : Lock c miner s s₁ [t] back)
    (hbusy : ∀ i, s₁.busy i = true → s.busy i = true ∧ (t.slot = i → t.phase.outstanding = true →
      ∃ u ∈ back, u.phase.outstanding = true))
    (hstays : s₁.stopped = s.stopped) (hsup : s₁.supervisor = s.supervisor)
    (hleft : s.stopped = true → ∀ u ∈ back, u.phase.hashes = false ∧ u.phase.left < t.phase.left)
    (hend : back = [] → 0 < t.phase.left) : Handled c miner e s s₁ [t] back where
  tasks := ⟨s.tasks.erase t, List.perm_cons_erase ht, htasks ▸ .refl _⟩
  ids := by
    rcases hback with rfl | ⟨p, rfl⟩
    · simp
    · exact .refl _
  next := hnext
  length := hlength
  lock := hlock
  busy := by
    intro i hi
    obtain ⟨hb, hout⟩ := hbusy i hi
    refine ⟨hb, fun u hu hslot hp => ?_⟩
    obtain rfl := List.mem_singleton.mp hu
    obtain ⟨v, hv, hvout⟩ := hout hslot hp
    refine ⟨v, hv, ?_, hvout⟩
    rcases hback with rfl | ⟨p, rfl⟩
    · cases hv
    · obtain rfl := List.mem_singleton.mp hv
      exact hslot
  stays := fun h => hstays.trans h
  winds := by
    intro hs
    refine ⟨fun u hu => (hleft hs u hu).1, ?_⟩
    rw [hsup, List.map_singleton, List.sum_singleton]
    have hone : (if e.resumes then 1 else 0) ≤ 1 := by split_ifs <;> omega
    rcases hback with rfl | ⟨p, rfl⟩
    · have hlt := hend rfl
      rw [List.map_nil, List.sum_nil]
      omega
    · have hlt := (hleft hs _ (List.mem_singleton_self _)).2
      rw [List.map_singleton, List.sum_singleton]
      omega

/-- A resumption of the supervisor. -/
theorem Handled.supervisor {e : Event} {s s₁ : Engine} (htasks : s₁.tasks = s.tasks)
    (hslots : s₁.slots = s.slots) (hnext : s₁.nextJobId = s.nextJobId)
    (hflag : s₁.submitting = s.submitting) (hstays : s.stopped = true → s₁.stopped = true)
    (hleft : s.stopped = true →
      s₁.supervisor.left + (if e.resumes then 1 else 0) ≤ s.supervisor.left) :
    Handled c miner e s s₁ [] [] where
  tasks := ⟨s.tasks, .refl _, by rw [htasks, List.append_nil]⟩
  ids := .refl _
  next := hnext
  length := congrArg List.length hslots
  lock := .same (by simp) (by simp) hflag
  busy := by
    intro i hi
    rw [Engine.busy, hslots] at hi
    exact ⟨hi, by simp⟩
  stays := hstays
  winds := fun hs => ⟨by simp, by simpa using hleft hs⟩

/-- A slot that is freed is not busy, and no other slot changes. -/
theorem busy_freed {s : Engine} {k i : ℕ} (h : (s.setBusy k false).busy i = true) :
    s.busy i = true ∧ k ≠ i := by
  unfold Engine.busy Engine.setBusy at h
  dsimp only at h
  by_cases hk : k = i
  · subst hk
    rw [List.getElem?_set_self'] at h
    cases hs : s.slots[k]? <;> simp [hs] at h
  · rw [List.getElem?_set_ne hk] at h
    exact ⟨h, hk⟩

/-- A reply is handled. -/
theorem onMessage_handled {s : Engine} {t : Task} (ht : t ∈ s.tasks) (hp : t.phase = .posted)
    (resp : SolveResponse) : ∃ s₁ back js,
      Handled c miner (.message t.jobId resp) s s₁ [t] back ∧
        Grown s₁ (onMessage tier s t resp) js := by
  have hfreed : ∀ i, ((s.finish t).setBusy t.slot false).busy i = true → s.busy i = true ∧
      t.slot ≠ i := fun i hi => busy_freed (s := s.finish t) hi
  have hlock : ∀ back s₁, (∀ u ∈ back, u.phase.submits = false) → s₁.submitting = s.submitting →
      Lock c miner s s₁ [t] back := by
    intro back s₁ hback hflag
    refine .same (fun u hu => ?_) hback hflag
    obtain rfl := List.mem_singleton.mp hu
    rw [hp]
    rfl
  have hplain : Handled c miner (.message t.jobId resp) s ((s.finish t).setBusy t.slot false) [t] [] :=
    .closure ht (List.append_nil _).symm (Or.inl rfl) rfl (by simp) (hlock _ _ (by simp) rfl)
      (fun i hi => ⟨(hfreed i hi).1, fun he => absurd he (hfreed i hi).2⟩) rfl rfl (by simp)
      (fun _ => by simp [hp, Phase.left])
  have hwaits : s.stopped ≠ true → ∀ p : Phase, p.submits = false →
      Handled c miner (.message t.jobId resp) s
        (((s.finish t).setBusy t.slot false).add { t with phase := p }) [t] [{ t with phase := p }] := by
    intro hs p hsub
    exact .closure ht rfl (Or.inr ⟨p, rfl⟩) rfl (by simp) (hlock _ _ (by simpa using hsub) rfl)
      (fun i hi => ⟨(hfreed i hi).1, fun he => absurd he (hfreed i hi).2⟩) rfl rfl
      (fun h => absurd h hs) (by simp)
  unfold onMessage
  dsimp only
  by_cases hs : ((s.finish t).setBusy t.slot false).stopped = true
  · rw [if_pos hs]
    exact ⟨_, _, _, hplain, .refl _⟩
  · rw [if_neg hs]
    cases resp with
    | error => exact ⟨_, _, _, hwaits hs .pausing rfl, .refl _⟩
    | noSolution =>
      obtain ⟨js, hjs⟩ := redispatch_grown tier ((s.finish t).setBusy t.slot false) t.slot
      exact ⟨_, _, js, hplain, hjs⟩
    | solved solnIndices => exact ⟨_, _, _, hwaits hs (.hashing solnIndices) rfl, .refl _⟩

/-- Step lemma: what a resumption does, in two parts. -/
theorem Step.handled {s s' : Engine} {e : Event} (hst : Step c miner tier s e s')
    (hadv : ∀ cfg, s.supervisor = .advancing cfg → s.currentConfig = some cfg) :
    ∃ s₁ old back js, Handled c miner e s s₁ old back ∧ Grown s₁ s' js := by
  cases hst with
  | @message t ht hp resp =>
    obtain ⟨s₁, back, js, h, hjs⟩ : ∃ s₁ back js, Handled c miner (.message t.jobId resp) s s₁ [t]
        back ∧ Grown s₁ (onMessage tier s t resp) js := onMessage_handled ht hp resp
    exact ⟨s₁, _, back, js, h, hjs⟩
  | @digest t ht solnIndices hp =>
    have hends : Handled c miner (.digest t.jobId) s (s.finish t) [t] [] :=
      .closure ht (List.append_nil _).symm (Or.inl rfl) rfl rfl
        (.same (by simp [hp, Phase.submits]) (by simp) rfl)
        (fun i hi => ⟨hi, by simp [hp, Phase.outstanding]⟩) rfl rfl (by simp)
        (fun _ => by simp [hp, Phase.left])
    obtain ⟨js, hjs⟩ := redispatch_grown tier (s.finish t) t.slot
    unfold onDigest
    split_ifs with habove hsub
    · exact ⟨_, _, _, js, hends, hjs⟩
    · exact ⟨_, _, _, js, hends, hjs⟩
    · refine ⟨_, [t], [{ t with phase := .submitting }], [], ?_, .refl _⟩
      exact .closure ht rfl (Or.inr ⟨_, rfl⟩) rfl rfl
        (.taken rfl rfl hp rfl (by simpa using habove) (by simpa using hsub) rfl)
        (fun i hi => ⟨hi, by simp [hp, Phase.outstanding]⟩) rfl rfl
        (by simp [hp, Phase.left, Phase.hashes]) (by simp)
  | @digestFailed t ht solnIndices hp =>
    refine ⟨_, [t], [], [], ?_, .refl _⟩
    exact .closure ht (List.append_nil _).symm (Or.inl rfl) rfl rfl
      (.same (by simp [hp, Phase.submits]) (by simp) rfl)
      (fun i hi => ⟨hi, by simp [hp, Phase.outstanding]⟩) rfl rfl (by simp)
      (fun _ => by simp [hp, Phase.left])
  | @submitted t ht hp =>
    obtain ⟨js, hjs⟩ := redispatch_grown tier { s.finish t with submitting := false } t.slot
    refine ⟨_, [t], [], js, ?_, hjs⟩
    exact .closure ht (List.append_nil _).symm (Or.inl rfl) rfl rfl (.given rfl rfl hp rfl)
      (fun i hi => ⟨hi, by simp [hp, Phase.outstanding]⟩) rfl rfl (by simp)
      (fun _ => by simp [hp, Phase.left])
  | @timeout t ht hp =>
    obtain ⟨js, hjs⟩ := redispatch_grown tier (s.finish t) t.slot
    refine ⟨_, [t], [], js, ?_, hjs⟩
    exact .closure ht (List.append_nil _).symm (Or.inl rfl) rfl rfl
      (.same (by simp [hp, Phase.submits]) (by simp) rfl)
      (fun i hi => ⟨hi, by simp [hp, Phase.outstanding]⟩) rfl rfl (by simp)
      (fun _ => by simp [hp, Phase.left])
  | @leaves t hfind =>
    have hp : t.phase = .leaves := by simpa using List.find?_some hfind
    refine ⟨_, [t], [{ t with phase := if s.stopped then .dropped else .posted }], [], ?_, .refl _⟩
    refine .closure (List.mem_of_find?_eq_some hfind) rfl (Or.inr ⟨_, rfl⟩) rfl rfl ?_ ?_ rfl rfl
      ?_ (by simp)
    · refine .same (by simp [hp, Phase.submits]) (fun u hu => ?_) rfl
      obtain rfl := List.mem_singleton.mp hu
      dsimp only
      split_ifs <;> rfl
    · refine fun i hi => ⟨hi, fun _ _ => ⟨_, List.mem_singleton_self _, ?_⟩⟩
      dsimp only
      split_ifs <;> rfl
    · intro hs
      simp [hs, hp, Phase.left, Phase.hashes]
  | @leavesFailed t hfind =>
    have hp : t.phase = .leaves := by simpa using List.find?_some hfind
    refine ⟨_, [t], [{ t with phase := .pausing }], [], ?_, .refl _⟩
    refine .closure (List.mem_of_find?_eq_some hfind) rfl (Or.inr ⟨_, rfl⟩) rfl (by simp [onLeavesFailed])
      (.same (by simp [hp, Phase.submits]) (by simp [Phase.submits]) rfl) ?_ rfl rfl
      (by simp [hp, Phase.left, Phase.hashes]) (by simp)
    intro i hi
    obtain ⟨hb, hne⟩ := busy_freed (s := s.finish t) hi
    exact ⟨hb, fun he => absurd he hne⟩
  | wake hs =>
    refine ⟨_, [], [], [], ?_, .refl _⟩
    exact .supervisor rfl rfl rfl rfl id fun h => by simp [h, hs, Supervisor.left, Event.resumes]
  | fetched hs cfg stalled =>
    unfold onFetched
    cases cfg with
    | none =>
      refine ⟨_, [], [], [], ?_, .refl _⟩
      exact .supervisor rfl rfl rfl rfl id fun _ => by simp [hs, Supervisor.left, Event.resumes]
    | some cfg =>
      dsimp only
      split_ifs
      · refine ⟨_, [], [], [], ?_, .refl _⟩
        exact .supervisor rfl rfl rfl rfl id fun _ => by simp [hs, Supervisor.left, Event.resumes]
      · refine ⟨_, [], [], [], ?_, .refl _⟩
        exact .supervisor rfl rfl rfl rfl id fun _ => by simp [hs, Supervisor.left, Event.resumes]
      · have hc : (Engine.mk s.stopped s.nextJobId (some cfg) s.submitting s.slots s.tasks
            .asleep).currentConfig = some cfg := rfl
        obtain ⟨js, hjs⟩ := kick_grown tier hc
        refine ⟨_, [], [], js, ?_, hjs⟩
        exact .supervisor rfl rfl rfl rfl id fun _ => by simp [hs, Supervisor.left, Event.resumes]
  | @advanced cfg hs =>
    have hc : (Engine.mk s.stopped s.nextJobId s.currentConfig s.submitting s.slots s.tasks
        .asleep).currentConfig = some cfg := hadv cfg hs
    obtain ⟨js, hjs⟩ := kick_grown tier hc
    refine ⟨_, [], [], js, ?_, hjs⟩
    exact .supervisor rfl rfl rfl rfl id fun _ => by simp [hs, Supervisor.left, Event.resumes]
  | stop =>
    refine ⟨_, [], [], [], ?_, .refl _⟩
    exact .supervisor rfl rfl rfl rfl (fun _ => rfl) fun _ => le_rfl

/-! ### Counting closures -/

/-- What is taken out and put back accounts for every count of closures. -/
theorem Handled.count {e : Event} {s s₁ : Engine} {old back : List Task}
    (h : Handled c miner e s s₁ old back) (p : Task → Bool) :
    s₁.tasks.countP p + old.countP p = s.tasks.countP p + back.countP p := by
  obtain ⟨rest, hpre, hpost⟩ := h.tasks
  rw [hpre.countP_eq, hpost.countP_eq, List.countP_append, List.countP_append]
  omega

/-- The new jobs are with a worker, or on their way to one. -/
theorem Grown.outstanding {s s' : Engine} {js : List Task} (h : Grown s s' js) {j : Task}
    (hj : j ∈ js) : j.phase.outstanding = true ∧ j.phase.submits = false ∧ j.phase.hashes = false := by
  rcases h.phase j hj with hp | hp <;> rw [hp] <;> exact ⟨rfl, rfl, rfl⟩

theorem Grown.count {s s' : Engine} {js : List Task} (h : Grown s s' js) {p : Task → Bool}
    (hp : ∀ j ∈ js, p j = false) : s'.tasks.countP p = s.tasks.countP p := by
  have hnone : js.countP p = 0 := by
    rw [List.countP_eq_zero]
    exact fun j hj => by simp [hp j hj]
  rw [h.tasks, List.countP_append, hnone, Nat.add_zero]

/-! ### The pool at work -/

/-- The lock counts the submissions, a busy slot has a job, and every closure has its own job id. -/
structure Working (s : Engine) : Prop where
  lock : s.submissions = if s.submitting then 1 else 0
  busy : ∀ i, s.busy i = true → ∃ t ∈ s.tasks, t.slot = i ∧ t.phase.outstanding = true
  ids : (s.tasks.map (·.jobId)).Nodup
  below : ∀ t ∈ s.tasks, t.jobId < s.nextJobId

theorem working_init (n : ℕ) : Working (Engine.init tier n) where
  lock := rfl
  busy := by
    intro i hi
    unfold Engine.busy Engine.init at hi
    dsimp only at hi
    split_ifs at hi
    · simp at hi
    · rw [List.getElem?_replicate] at hi
      split_ifs at hi <;> simp at hi
  ids := List.nodup_nil
  below := by simp [Engine.init]

theorem Working.lock_step {e : Event} {s s₁ s' : Engine} {old back js : List Task} (hw : Working s)
    (h : Handled c miner e s s₁ old back) (hg : Grown s₁ s' js) :
    s'.submissions = if s'.submitting then 1 else 0 := by
  have hcount := h.count fun t => t.phase.submits
  have hlock := hw.lock
  rw [Engine.submissions] at hlock
  rw [Engine.submissions, hg.count fun j hj => (hg.outstanding hj).2.1, hg.kept.submitting]
  cases h.lock with
  | same hold hback hflag =>
    have hold : old.countP (fun t => t.phase.submits) = 0 :=
      List.countP_eq_zero.mpr fun t ht => by simp [hold t ht]
    have hback : back.countP (fun t => t.phase.submits) = 0 :=
      List.countP_eq_zero.mpr fun t ht => by simp [hback t ht]
    rw [hflag]
    omega
  | @taken t u _ hold hback hp hu hunder hfree hflag =>
    subst hold hback
    have hbefore : t.phase.submits = false := by rw [hp]; rfl
    have hafter : u.phase.submits = true := by rw [hu]; rfl
    rw [hfree, if_neg Bool.false_ne_true] at hlock
    rw [List.countP_singleton, List.countP_singleton, hbefore, hafter, if_neg Bool.false_ne_true,
      if_pos rfl] at hcount
    rw [hflag, if_pos rfl]
    omega
  | @given t hold hback hp hflag =>
    subst hold hback
    have hbefore : t.phase.submits = true := by rw [hp]; rfl
    rw [List.countP_singleton, hbefore, if_pos rfl, List.countP_nil] at hcount
    rw [hflag, if_neg Bool.false_ne_true]
    split_ifs at hlock <;> omega

theorem Working.busy_step {e : Event} {s s₁ s' : Engine} {old back js : List Task} (hw : Working s)
    (h : Handled c miner e s s₁ old back) (hg : Grown s₁ s' js) (i : ℕ) (hi : s'.busy i = true) :
    ∃ t ∈ s'.tasks, t.slot = i ∧ t.phase.outstanding = true := by
  obtain ⟨rest, hpre, hpost⟩ := h.tasks
  have hkeep : ∀ u, u ∈ rest ++ back → u ∈ s'.tasks := fun u hu =>
    hg.kept.tasks (hpost.mem_iff.mpr hu)
  rcases hg.busy i hi with hi | ⟨j, hj, hslot⟩
  · obtain ⟨hb, hback⟩ := h.busy i hi
    obtain ⟨t, ht, hslot, hout⟩ := hw.busy i hb
    rcases List.mem_append.mp (hpre.mem_iff.mp ht) with ht | ht
    · obtain ⟨u, hu, huslot, huout⟩ := hback t ht hslot hout
      exact ⟨u, hkeep u (List.mem_append_right _ hu), huslot, huout⟩
    · exact ⟨t, hkeep t (List.mem_append_left _ ht), hslot, hout⟩
  · refine ⟨j, ?_, hslot, (hg.outstanding hj).1⟩
    rw [hg.tasks]
    exact List.mem_append_right _ hj

/-- Before new jobs come, every job id is an old one. -/
theorem Working.handled {e : Event} {s s₁ : Engine} {old back : List Task} (hw : Working s)
    (h : Handled c miner e s s₁ old back) :
    (s₁.tasks.map (·.jobId)).Nodup ∧ ∀ t ∈ s₁.tasks, t.jobId < s₁.nextJobId := by
  obtain ⟨rest, hpre, hpost⟩ := h.tasks
  have hold : (old.map (·.jobId) ++ rest.map (·.jobId)).Nodup := by
    rw [← List.map_append]
    exact (hpre.map _).nodup_iff.mp hw.ids
  have hperm : (s₁.tasks.map (·.jobId)).Perm (back.map (·.jobId) ++ rest.map (·.jobId)) := by
    rw [← List.map_append]
    exact (hpost.trans List.perm_append_comm).map _
  refine ⟨hperm.nodup_iff.mpr (hold.sublist (h.ids.append_right _)), fun t ht => ?_⟩
  have hmem := (h.ids.append_right _).subset (hperm.mem_iff.mp (List.mem_map_of_mem ht))
  rw [← List.map_append] at hmem
  obtain ⟨u, hu, heq⟩ := List.mem_map.mp hmem
  rw [h.next, ← heq]
  exact hw.below u (hpre.mem_iff.mpr hu)

/-- Step lemma. -/
theorem Working.step {e : Event} {s s₁ s' : Engine} {old back js : List Task} (hw : Working s)
    (h : Handled c miner e s s₁ old back) (hg : Grown s₁ s' js) : Working s' := by
  obtain ⟨hids, hbelow⟩ := hw.handled h
  refine ⟨hw.lock_step h hg, hw.busy_step h hg, ?_, fun t ht => ?_⟩
  · rw [hg.tasks, List.map_append, hg.ids]
    refine List.Nodup.append hids List.nodup_range' fun k hk hk' => ?_
    obtain ⟨t, ht, rfl⟩ := List.mem_map.mp hk
    have hlt := hbelow t ht
    have hge := (List.mem_range'_1.mp hk').1
    omega
  · rw [hg.tasks] at ht
    rw [hg.next]
    rcases List.mem_append.mp ht with ht | ht
    · exact Nat.lt_add_right _ (hbelow t ht)
    · have hmem : t.jobId ∈ List.range' s₁.nextJobId js.length := hg.ids ▸ List.mem_map_of_mem ht
      exact (List.mem_range'_1.mp hmem).2

/-- Run lemma, with the steps in their two parts. -/
theorem working_run {n : ℕ} {tr : List (Taken Engine Event)} {s : Engine}
    (h : Run (Step c miner tier) (Engine.init tier n) tr s) :
    Working s ∧ ∀ t ∈ tr, Working t.pre ∧ ∃ s₁ old back js,
      Handled c miner t.label t.pre s₁ old back ∧ Grown s₁ t.post js := by
  induction h with
  | nil => exact ⟨working_init n, by simp⟩
  | snoc hr hst ih =>
    obtain ⟨hw, hsteps⟩ := ih
    obtain ⟨s₁, old, back, js, hh, hg⟩ := hst.handled (advancing_config ⟨_, hr⟩)
    refine ⟨hw.step hh hg, fun t ht => ?_⟩
    rcases List.mem_append.mp ht with ht | ht
    · exact hsteps t ht
    · obtain rfl := List.mem_singleton.mp ht
      exact ⟨hw, s₁, old, back, js, hh, hg⟩

theorem one_le_outstanding {s : Engine} {i : ℕ} :
    1 ≤ s.outstanding i ↔ ∃ t ∈ s.tasks, t.slot = i ∧ t.phase.outstanding = true := by
  rw [Engine.outstanding, Nat.one_le_iff_ne_zero, ← Nat.pos_iff_ne_zero, List.countP_pos_iff]
  simp

/-- A kick starts from the state before it, but for the supervisor's own fields. -/
theorem Step.kicked {s s' : Engine} {e : Event} (hst : Step c miner tier s e s')
    (hk : kicks s e = true) : ∃ s₁ cfg, s' = kick tier s₁ cfg ∧ s₁.stopped = s.stopped ∧
      s₁.submitting = s.submitting ∧ s₁.slots = s.slots ∧ s₁.tasks = s.tasks := by
  cases hst with
  | fetched hs cfg stalled =>
    cases cfg with
    | none => cases hk
    | some cfg =>
      rw [kicks, Bool.and_eq_true, Bool.not_eq_true'] at hk
      refine ⟨{ s with currentConfig := some cfg, supervisor := .asleep }, cfg, ?_, rfl, rfl, rfl, rfl⟩
      simp [onFetched, hk.1, hk.2]
  | @advanced cfg hs => exact ⟨{ s with supervisor := .asleep }, cfg, rfl, rfl, rfl, rfl, rfl⟩
  | _ => cases hk

/-- A kick outside of a submission leaves every worker with a job. -/
theorem Working.kicked {s s' : Engine} {e : Event} (hw : Working s) (hst : Step c miner tier s e s')
    (hk : kicks s e = true) (hlive : s.stopped = false) (hidle : s.submitting = false) (i : ℕ)
    (hi : i < s'.slots.length) : 1 ≤ s'.outstanding i := by
  obtain ⟨s₁, cfg, rfl, hstop, hsub, hslots, htasks⟩ := hst.kicked hk
  rw [(kick_kept s₁ cfg).length] at hi
  refine kickLoop_dispatches cfg _ s₁ (hstop.trans hlive) (hsub.trans hidle)
    (fun j hj => List.mem_range.mp hj) ?_
  cases hb : s₁.busy i with
  | false => exact Or.inl ⟨List.mem_range.mpr hi, rfl⟩
  | true =>
    refine Or.inr (one_le_outstanding.mpr ?_)
    rw [Engine.busy, hslots] at hb
    rw [htasks]
    exact hw.busy i hb

/-- AT WORK: in every run, whatever is replied or fails and however often the supervisor kicks an
    unsettled pool, the flag `submitting` is up exactly while one submission is awaited, and never are
    two; every job id is in use once; a busy slot has a job. A submission begins only for a solution
    under its job's target, a new job is for the config fetched last, and a kick outside of a
    submission leaves every worker with a job. -/
theorem pool_keeps_working (n : ℕ) (tr : List (Taken Engine Event)) (s : Engine)
    (h : Run (Step c miner tier) (Engine.init tier n) tr s) :
    (s.submissions = if s.submitting then 1 else 0) ∧ (s.tasks.map (·.jobId)).Nodup ∧
    (∀ i, s.busy i = true → 1 ≤ s.outstanding i) ∧
    ∀ t ∈ tr,
      (t.pre.submitting = false → t.post.submitting = true → ∃ j ∈ t.pre.tasks, ∃ solnIndices,
        j.phase = .hashing solnIndices ∧ aboveTarget c miner j.cfg solnIndices = false) ∧
      (∀ j ∈ t.post.tasks, t.pre.nextJobId ≤ j.jobId → t.post.currentConfig = some j.cfg) ∧
      (kicks t.pre t.label = true → t.pre.stopped = false → t.pre.submitting = false →
        ∀ i < t.post.slots.length, 1 ≤ t.post.outstanding i) := by
  obtain ⟨hw, hsteps⟩ := working_run h
  refine ⟨hw.lock, hw.ids, fun i hi => one_le_outstanding.mpr (hw.busy i hi), fun t ht => ?_⟩
  obtain ⟨hpre, s₁, old, back, js, hh, hg⟩ := hsteps t ht
  refine ⟨fun hfree hheld => ?_, fun j hj hnew => ?_, fun hk hlive hidle => ?_⟩
  · cases hh.lock with
    | same hold hback hflag =>
      rw [hg.kept.submitting, hflag, hfree] at hheld
      cases hheld
    | @taken j u solnIndices hold hback hp hu hunder _ hflag =>
      obtain ⟨rest, hperm, -⟩ := hh.tasks
      refine ⟨j, hperm.mem_iff.mpr (List.mem_append_left _ ?_), solnIndices, hp, hunder⟩
      rw [hold]
      exact List.mem_singleton_self j
    | given hold hback hp hflag =>
      rw [hg.kept.submitting, hflag] at hheld
      cases hheld
  · rw [hg.tasks] at hj
    rcases List.mem_append.mp hj with hj | hj
    · have hlt := (hpre.handled hh).2 j hj
      rw [hh.next] at hlt
      omega
    · exact hg.kept.currentConfig.trans (hg.config j hj)
  · obtain ⟨-, -, -, -, hst⟩ := h.mem t ht
    exact hpre.kicked hst hk hlive hidle

/-- The first kick of two workers gives both a job. -/
theorem pool_keeps_working_demo : ∃ tr s,
    Run (Step Demo.crates Demo.key .cpu) (Engine.init .cpu 2) tr s ∧ s.submissions = 0 ∧
    ∀ i < 2, 1 ≤ s.outstanding i := by
  have h₁ : Run (Step Demo.crates Demo.key .cpu) (Engine.init .cpu 2) _ _ :=
    Run.nil.snoc (Step.wake rfl)
  have h₂ := h₁.snoc (Step.fetched rfl (some Demo.config) false)
  obtain ⟨hlock, -, -, hsteps⟩ := pool_keeps_working 2 _ _ h₂
  obtain ⟨-, -, hkick⟩ := hsteps _ (List.mem_append_right _ (List.mem_singleton_self _))
  exact ⟨_, _, h₂, hlock, hkick rfl rfl rfl⟩

/-! ### After a stop -/

/-- A submission begins in this step. -/
def begins (t : Taken Engine Event) : Bool := !t.pre.submitting && t.post.submitting

/-- What a stopped miner has done since the state `m`, and has left to do. -/
structure Winding (m : Engine) (tr : List (Taken Engine Event)) (s : Engine) : Prop where
  stopped : s.stopped = true
  next : s.nextJobId = m.nextJobId
  begun : tr.countP begins + s.hashing ≤ m.hashing
  resumed : tr.countP (·.label.resumes) + s.left ≤ m.left

/-- Step lemma: once stopped, a submission costs a hashed reply, and every resumption takes the
    closures nearer to their ends. -/
theorem Winding.step {m s s₁ s' : Engine} {tr : List (Taken Engine Event)} {e : Event}
    {old back js : List Task} (hw : Winding m tr s) (h : Handled c miner e s s₁ old back)
    (hg : Grown s₁ s' js) : Winding m (tr ++ [⟨s, e, s'⟩]) s' := by
  have hstop₁ := h.stays hw.stopped
  have hnil := hg.stopped hstop₁
  subst hnil
  have htasks : s'.tasks = s₁.tasks := by rw [hg.tasks, List.append_nil]
  obtain ⟨hhash, hleft⟩ := h.winds hw.stopped
  refine ⟨hg.kept.stopped.trans hstop₁, ?_, ?_, ?_⟩
  · rw [hg.next, List.length_nil, Nat.add_zero, h.next, hw.next]
  · have hcount := h.count fun t => t.phase.hashes
    have hback : back.countP (fun t => t.phase.hashes) = 0 :=
      List.countP_eq_zero.mpr fun t ht => by simp [hhash t ht]
    have hbegins : (if begins ⟨s, e, s'⟩ = true then 1 else 0) ≤
        old.countP fun t => t.phase.hashes := by
      cases h.lock with
      | same hold hback hflag =>
        rw [begins, hg.kept.submitting, hflag, Bool.not_and_self]
        exact Nat.zero_le _
      | @taken t u _ hold hback hp hu hunder hfree hflag =>
        have hone : t.phase.hashes = true := by rw [hp]; rfl
        rw [hold, List.countP_singleton, hone, if_pos rfl]
        split_ifs <;> omega
      | given hold hback hp hflag =>
        rw [begins, hg.kept.submitting, hflag, Bool.and_false]
        exact Nat.zero_le _
    have hold := hw.begun
    rw [Engine.hashing] at hold
    rw [List.countP_append, List.countP_singleton, Engine.hashing, htasks]
    omega
  · obtain ⟨rest, hpre, hpost⟩ := h.tasks
    have hsum := (hpre.map (·.phase.left)).sum_eq
    have hsum' := (hpost.map (·.phase.left)).sum_eq
    rw [List.map_append, List.sum_append] at hsum hsum'
    have hold := hw.resumed
    rw [Engine.left] at hold
    rw [List.countP_append, List.countP_singleton, Engine.left, htasks, hg.kept.supervisor]
    dsimp only
    omega

/-- WINDING DOWN: once `stop` has been called no job is dispatched any more; of the submissions that
    begin at all there are no more than replies were being hashed at that moment; and the number of
    resumptions still to come is bounded by what the closures had left to do. -/
theorem stop_winds_down (n : ℕ) (tr₁ tr₂ : List (Taken Engine Event)) (m s : Engine)
    (h₁ : Run (Step c miner tier) (Engine.init tier n) tr₁ m) (hstop : m.stopped = true)
    (h₂ : Run (Step c miner tier) m tr₂ s) :
    s.stopped = true ∧ s.nextJobId = m.nextJobId ∧ tr₂.countP begins ≤ m.hashing ∧
      tr₂.countP (·.label.resumes) + s.left ≤ m.left := by
  have hwind : Winding m tr₂ s := by
    induction h₂ with
    | nil => exact ⟨hstop, rfl, by simp, by simp⟩
    | snoc hr hst ih =>
      obtain ⟨s₁, old, back, js, hh, hg⟩ := hst.handled (advancing_config ⟨_, h₁.append hr⟩)
      exact ih.step hh hg
  exact ⟨hwind.stopped, hwind.next, le_of_add_le_left hwind.begun, hwind.resumed⟩

/-- The worker's reply is being hashed when `stop` is called. -/
def Demo.stopped : Engine :=
  ⟨true, 2, some Demo.config, false, [⟨false⟩], [⟨1, 0, Demo.config, .hashing []⟩], .asleep⟩

theorem Demo.stopped_reached : ∃ tr,
    Run (Step Demo.crates Demo.key .cpu) (Engine.init .cpu 1) tr Demo.stopped := by
  have h₁ : Run (Step Demo.crates Demo.key .cpu) (Engine.init .cpu 1) _ _ :=
    Run.nil.snoc (Step.wake rfl)
  have h₂ := h₁.snoc (Step.fetched rfl (some Demo.config) false)
  have h₃ := h₂.snoc (Step.message (t := ⟨1, 0, Demo.config, .posted⟩) (by decide) rfl (.solved []))
  exact ⟨_, h₃.snoc Step.stop⟩

/-- Such a reply is submitted all the same. -/
theorem stop_winds_down_demo : ∃ tr s, Run (Step Demo.crates Demo.key .cpu) Demo.stopped tr s ∧
    tr.countP begins = 1 ∧ Demo.stopped.hashing = 1 ∧ tr.countP (·.label.resumes) + s.left ≤ 3 := by
  obtain ⟨tr, hr⟩ := Demo.stopped_reached
  have hdigest : Run (Step Demo.crates Demo.key .cpu) Demo.stopped _ _ := Run.nil.snoc
    (Step.digest (t := ⟨1, 0, Demo.config, .hashing []⟩) (List.mem_singleton_self _) rfl)
  obtain ⟨-, -, -, hleft⟩ := stop_winds_down 1 _ _ _ _ hr rfl hdigest
  exact ⟨_, _, hdigest, by decide +kernel, by decide, hleft⟩

end Equium.Website
