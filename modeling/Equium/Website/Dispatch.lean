import Equium.Website.Engine
import Mathlib.Data.List.Perm.Subperm

/-! @src clients/website/src/lib/miner-engine.ts | name:Outstanding jobs | scheme:run-invariant

    At most one job is outstanding on a slot as long as at most one closure belongs to it: the invariant
    `Exclusive` counts the waiting handlers with the jobs. Replies, timers and GPU passes keep it,
    because each hands its slot on. The supervisor keeps it only when no idle slot still has a handler
    or a timer waiting. -/

namespace Equium.Website
open Schemes Equium.Core

variable {c : Crates} {miner : Bytes32} {tier : SolverTier}

/-- Each slot has at most one closure, and a slot with an outstanding job is flagged busy. -/
structure Exclusive (s : Engine) : Prop where
  one : (s.tasks.map (·.slot)).Nodup
  range : ∀ t ∈ s.tasks, t.slot < s.slots.length
  flagged : ∀ t ∈ s.tasks, t.phase.outstanding = true → s.busy t.slot = true

/-- No closure belongs to the slot. -/
def Free (s : Engine) (i : ℕ) : Prop := ∀ t ∈ s.tasks, t.slot ≠ i

/-! ### Frame lemmas -/

namespace Engine

theorem busy_setBusy (s : Engine) {i : ℕ} (b : Bool) (j : ℕ) (h : i < s.slots.length) :
    (s.setBusy i b).busy j = if j = i then b else s.busy j := by
  unfold Engine.busy Engine.setBusy
  by_cases hj : j = i
  · subst hj
    simp [h]
  · rw [List.getElem?_set_ne (fun he => hj he.symm), if_neg hj]

@[simp] theorem setBusy_tasks (s : Engine) (i : ℕ) (b : Bool) : (s.setBusy i b).tasks = s.tasks :=
  rfl

@[simp] theorem setBusy_length (s : Engine) (i : ℕ) (b : Bool) :
    (s.setBusy i b).slots.length = s.slots.length := by simp [Engine.setBusy]

@[simp] theorem finish_slots (s : Engine) (t : Task) : (s.finish t).slots = s.slots := rfl

@[simp] theorem add_slots (s : Engine) (t : Task) : (s.add t).slots = s.slots := rfl

theorem mem_add {s : Engine} {t u : Task} : u ∈ (s.add t).tasks ↔ u ∈ s.tasks ∨ u = t := by
  simp [Engine.add]

end Engine

/-- Only the tasks and the slots matter. -/
theorem Exclusive.congr {s s' : Engine} (h : Exclusive s) (ht : s'.tasks = s.tasks)
    (hs : s'.slots = s.slots) : Exclusive s' := by
  refine ⟨ht ▸ h.one, ?_, ?_⟩
  · rw [ht, hs]
    exact h.range
  · rw [ht]
    unfold Engine.busy
    rw [hs]
    exact h.flagged

/-! ### The primitive updates -/

/-- A closure that ends leaves its slot free. -/
theorem Exclusive.finish {s : Engine} (h : Exclusive s) {t : Task} (ht : t ∈ s.tasks) :
    Exclusive (s.finish t) ∧ Free (s.finish t) t.slot ∧ t.slot < s.slots.length := by
  have hsub : (s.finish t).tasks ⊆ s.tasks := List.erase_subset
  refine ⟨⟨h.one.sublist (List.erase_sublist.map _), fun u hu => h.range u (hsub hu),
    fun u hu => h.flagged u (hsub hu)⟩, ?_, h.range t ht⟩
  have hnodup := h.one
  rw [((List.perm_cons_erase ht).map _).nodup_iff, List.map_cons, List.nodup_cons] at hnodup
  intro u hu he
  exact hnodup.1 (List.mem_map.mpr ⟨u, hu, he⟩)

/-- The flag of a free slot can be set either way. -/
theorem Exclusive.setBusy {s : Engine} (h : Exclusive s) {i : ℕ} (hi : i < s.slots.length)
    (hfree : Free s i) (b : Bool) : Exclusive (s.setBusy i b) ∧ Free (s.setBusy i b) i := by
  refine ⟨⟨h.one, ?_, ?_⟩, hfree⟩
  · simpa using h.range
  · intro t ht hout
    rw [Engine.busy_setBusy s b _ hi, if_neg (hfree t ht)]
    exact h.flagged t ht hout

/-- A free slot can take a closure; an outstanding one needs the flag. -/
theorem Exclusive.add {s : Engine} (h : Exclusive s) {t : Task} (hi : t.slot < s.slots.length)
    (hfree : Free s t.slot) (hflag : t.phase.outstanding = true → s.busy t.slot = true) :
    Exclusive (s.add t) := by
  refine ⟨?_, ?_, ?_⟩
  · rw [Engine.add, List.map_append, List.nodup_append]
    refine ⟨h.one, by simp, ?_⟩
    intro i hi' j hj
    obtain ⟨u, hu, rfl⟩ := List.mem_map.mp hi'
    rw [List.map_cons, List.map_nil, List.mem_singleton] at hj
    exact hj ▸ hfree u hu
  · intro u hu
    rcases Engine.mem_add.mp hu with hu | rfl
    · exact h.range u hu
    · exact hi
  · intro u hu hout
    rcases Engine.mem_add.mp hu with hu | rfl
    · exact h.flagged u hu hout
    · exact hflag hout

/-- A dispatch to a free slot; after a stop it does nothing. -/
theorem Exclusive.dispatchTo {s : Engine} (h : Exclusive s) {i : ℕ} (hi : i < s.slots.length)
    (hfree : s.stopped = false → Free s i) (cfg : EquiumConfig) :
    Exclusive (dispatchTo tier s i cfg) := by
  rw [Website.dispatchTo]
  by_cases hstop : s.stopped = true
  · rw [if_pos hstop]
    exact h
  · rw [if_neg hstop]
    obtain ⟨hset, hfree'⟩ := h.setBusy hi (hfree (Bool.eq_false_of_not_eq_true hstop)) true
    have hnext : Exclusive { s.setBusy i true with nextJobId := s.nextJobId + 1 } :=
      hset.congr rfl rfl
    refine hnext.add (by simpa using hi) hfree' fun _ => ?_
    exact (Engine.busy_setBusy s true i hi).trans (if_pos rfl)

theorem Exclusive.redispatch {s : Engine} (h : Exclusive s) {i : ℕ} (hi : i < s.slots.length)
    (hfree : Free s i) : Exclusive (redispatch tier s i) := by
  rw [Website.redispatch]
  by_cases hstop : s.stopped = true
  · rw [if_pos hstop]
    exact h
  · rw [if_neg hstop]
    cases s.currentConfig with
    | none => exact h
    | some cfg => exact h.dispatchTo hi (fun _ => hfree) cfg

/-! ### The supervisor's kick -/

/-- What a dispatch leaves alone: the pool's size, and the other slots. -/
theorem dispatchTo_frame (s : Engine) {i j : ℕ} (cfg : EquiumConfig) (hi : i < s.slots.length)
    (hj : j ≠ i) : (dispatchTo tier s i cfg).busy j = s.busy j ∧
      (Free s j → Free (dispatchTo tier s i cfg) j) := by
  rw [Website.dispatchTo]
  by_cases hstop : s.stopped = true
  · rw [if_pos hstop]
    exact ⟨rfl, id⟩
  · rw [if_neg hstop]
    refine ⟨(Engine.busy_setBusy s true j hi).trans (if_neg hj), ?_⟩
    intro hfree t ht
    rcases Engine.mem_add.mp ht with ht | rfl
    · exact hfree t ht
    · exact fun he => hj he.symm

/-- What dispatching keeps: the flags, the config, the pool's size and the tasks already there. -/
structure Kept (s s' : Engine) : Prop where
  stopped : s'.stopped = s.stopped
  submitting : s'.submitting = s.submitting
  currentConfig : s'.currentConfig = s.currentConfig
  supervisor : s'.supervisor = s.supervisor
  length : s'.slots.length = s.slots.length
  tasks : s.tasks ⊆ s'.tasks

theorem Kept.refl (s : Engine) : Kept s s := ⟨rfl, rfl, rfl, rfl, rfl, List.Subset.refl _⟩

theorem Kept.trans {s s' s'' : Engine} (h : Kept s s') (h' : Kept s' s'') : Kept s s'' :=
  ⟨h'.stopped.trans h.stopped, h'.submitting.trans h.submitting,
    h'.currentConfig.trans h.currentConfig, h'.supervisor.trans h.supervisor,
    h'.length.trans h.length, fun _ ht => h'.tasks (h.tasks ht)⟩

theorem dispatchTo_kept (s : Engine) (i : ℕ) (cfg : EquiumConfig) :
    Kept s (dispatchTo tier s i cfg) := by
  rw [Website.dispatchTo]
  split_ifs
  · exact Kept.refl s
  all_goals exact ⟨rfl, rfl, rfl, rfl, by simp, List.subset_append_left _ _⟩

theorem redispatch_kept (s : Engine) (i : ℕ) : Kept s (redispatch tier s i) := by
  rw [Website.redispatch]
  split_ifs
  · exact Kept.refl s
  · cases s.currentConfig with
    | none => exact Kept.refl s
    | some cfg => exact dispatchTo_kept s i cfg

theorem kick_kept (s : Engine) (cfg : EquiumConfig) : Kept s (kick tier s cfg) := by
  have hloop : ∀ (is : List ℕ) (s : Engine), Kept s (is.foldl (kickSlot tier cfg) s) := by
    intro is
    induction is with
    | nil => exact Kept.refl
    | cons i is ih =>
      intro s
      refine Kept.trans ?_ (ih (kickSlot tier cfg s i))
      rw [kickSlot]
      split_ifs
      · exact dispatchTo_kept s i cfg
      · exact Kept.refl s
  exact hloop _ s

/-- Loop lemma: when its turn comes, an idle slot is free. -/
theorem exclusive_kickLoop (cfg : EquiumConfig) (is : List ℕ) (hn : is.Nodup) (s : Engine)
    (h : Exclusive s) (hrange : ∀ i ∈ is, i < s.slots.length)
    (hfree : ∀ i ∈ is, s.busy i = false → s.submitting = false → s.stopped = false → Free s i) :
    Exclusive (is.foldl (kickSlot tier cfg) s) := by
  induction is generalizing s with
  | nil => exact h
  | cons i is ih =>
    obtain ⟨hnew, hn⟩ := List.nodup_cons.mp hn
    have hi := hrange i List.mem_cons_self
    have hne : ∀ j ∈ is, j ≠ i := fun j hj he => hnew (he ▸ hj)
    rw [List.foldl_cons, kickSlot]
    by_cases hcond : (!s.busy i && !s.submitting) = true
    · rw [if_pos hcond]
      rw [Bool.and_eq_true, Bool.not_eq_true', Bool.not_eq_true'] at hcond
      have hkept : Kept s (dispatchTo tier s i cfg) := dispatchTo_kept s i cfg
      refine ih hn _ (h.dispatchTo hi (hfree i List.mem_cons_self hcond.1 hcond.2) cfg) ?_ ?_
      · intro j hj
        rw [hkept.length]
        exact hrange j (List.mem_cons_of_mem _ hj)
      · intro j hj hidle hquiet hlive
        obtain ⟨hbusy, hkeep⟩ := dispatchTo_frame s cfg hi (hne j hj)
        exact hkeep (hfree j (List.mem_cons_of_mem _ hj) (hbusy.symm.trans hidle)
          (hkept.submitting.symm.trans hquiet) (hkept.stopped.symm.trans hlive))
    · rw [if_neg hcond]
      exact ih hn s h (fun j hj => hrange j (List.mem_cons_of_mem _ hj))
        fun j hj => hfree j (List.mem_cons_of_mem _ hj)

/-- No handler and no timer waits for an idle slot, while the kick can dispatch. -/
def Settled (s : Engine) : Prop :=
  s.submitting = false → s.stopped = false →
    ∀ t ∈ s.tasks, t.phase.outstanding = false → s.busy t.slot = true

theorem Exclusive.kick {s : Engine} (h : Exclusive s) (hset : Settled s) (cfg : EquiumConfig) :
    Exclusive (kick tier s cfg) := by
  refine exclusive_kickLoop cfg _ List.nodup_range s h (fun i hi => List.mem_range.mp hi) ?_
  intro i _ hidle hsub hstop t ht he
  have hbusy : s.busy t.slot = true := by
    cases hout : t.phase.outstanding with
    | true => exact h.flagged t ht hout
    | false => exact hset hsub hstop t ht hout
  rw [he, hidle] at hbusy
  cases hbusy

/-! ### Runs -/

theorem Exclusive.onMessage {s : Engine} (h : Exclusive s) {t : Task} (ht : t ∈ s.tasks)
    (resp : SolveResponse) : Exclusive (onMessage tier s t resp) := by
  obtain ⟨hfin, hfree, hi⟩ := h.finish ht
  obtain ⟨hidle, hfree⟩ := hfin.setBusy hi hfree false
  have hi' : t.slot < ((s.finish t).setBusy t.slot false).slots.length := by simpa using hi
  unfold Website.onMessage
  by_cases hstop : ((s.finish t).setBusy t.slot false).stopped = true
  · rw [if_pos hstop]
    exact hidle
  · rw [if_neg hstop]
    cases resp with
    | error => exact hidle.add hi' hfree (fun hout => by cases hout)
    | noSolution => exact hidle.redispatch hi' hfree
    | solved solnIndices => exact hidle.add hi' hfree (fun hout => by cases hout)

theorem Exclusive.onDigest {s : Engine} (h : Exclusive s) {t : Task} (ht : t ∈ s.tasks)
    (solnIndices : List UInt8) : Exclusive (onDigest c miner tier s t solnIndices) := by
  obtain ⟨hfin, hfree, hi⟩ := h.finish ht
  rw [Website.onDigest]
  split_ifs
  · exact hfin.redispatch hi hfree
  · exact hfin.redispatch hi hfree
  · have hsub : Exclusive { s.finish t with submitting := true } := hfin.congr rfl rfl
    exact hsub.add hi hfree (fun hout => by cases hout)

theorem Exclusive.onFetched {s : Engine} (h : Exclusive s) (cfg : Option EquiumConfig)
    (stalled : Bool) (hset : kicks s (.fetched cfg stalled) = true → Settled s) :
    Exclusive (onFetched tier s cfg stalled) := by
  unfold Website.onFetched
  cases cfg with
  | none => exact h.congr rfl rfl
  | some cfg =>
    dsimp only
    split_ifs with hopen hadv
    · exact h.congr rfl rfl
    · exact h.congr rfl rfl
    · have hstay : (stalled && !s.submitting) = false := Bool.eq_false_of_not_eq_true hadv
      have hk : kicks s (.fetched (some cfg) stalled) = true := by
        rw [kicks, hstay]
        simpa using hopen
      have hidle : Exclusive { s with currentConfig := some cfg, supervisor := .asleep } :=
        h.congr rfl rfl
      exact hidle.kick (hset hk) cfg

/-- Step lemma: every resumption keeps the slots exclusive; a kick needs a settled pool. -/
theorem exclusive_step {s s' : Engine} {e : Event} (h : Exclusive s)
    (hst : Step c miner tier s e s') (hset : kicks s e = true → Settled s) : Exclusive s' := by
  cases hst with
  | message ht hp resp => exact h.onMessage ht resp
  | digest ht hp => exact h.onDigest ht _
  | digestFailed ht hp => exact (h.finish ht).1
  | @submitted t ht hp =>
    obtain ⟨hfin, hfree, hi⟩ := h.finish ht
    have hsub : Exclusive { s.finish t with submitting := false } := hfin.congr rfl rfl
    exact hsub.redispatch hi hfree
  | @timeout t ht hp =>
    obtain ⟨hfin, hfree, hi⟩ := h.finish ht
    exact hfin.redispatch hi hfree
  | @leaves t hfind =>
    have ht := List.mem_of_find?_eq_some hfind
    have hp : t.phase = .leaves := by simpa using List.find?_some hfind
    obtain ⟨hfin, hfree, hi⟩ := h.finish ht
    exact hfin.add hi hfree fun _ => h.flagged t ht (by rw [hp]; rfl)
  | @leavesFailed t hfind =>
    obtain ⟨hfin, hfree, hi⟩ := h.finish (List.mem_of_find?_eq_some hfind)
    obtain ⟨hidle, hfree⟩ := hfin.setBusy hi hfree false
    exact hidle.add (by simpa using hi) hfree (fun hout => by cases hout)
  | wake hs => exact h.congr rfl rfl
  | fetched hs cfg stalled => exact h.onFetched cfg stalled hset
  | @advanced cfg hs =>
    have hidle : Exclusive { s with supervisor := .asleep } := h.congr rfl rfl
    exact hidle.kick (hset rfl) cfg
  | stop => exact h.congr rfl rfl

theorem exclusive_init (n : ℕ) : Exclusive (Engine.init tier n) :=
  ⟨List.nodup_nil, by simp [Engine.init], by simp [Engine.init]⟩

/-- Exclusive slots have at most one outstanding job each, so no more than there are workers. -/
theorem Exclusive.counts {s : Engine} (h : Exclusive s) :
    (∀ i, s.outstanding i ≤ 1) ∧ s.inFlight ≤ s.slots.length := by
  constructor
  · intro i
    have hle : s.outstanding i ≤ s.tasks.countP fun t => t.slot == i := by
      refine List.countP_mono_left fun t _ ht => ?_
      simp_all
    refine hle.trans ?_
    have hone := List.nodup_iff_count_le_one.mp h.one i
    rwa [List.count, List.countP_map] at hone
  · have hsub : s.tasks.map (·.slot) ⊆ List.range s.slots.length := by
      intro i hi
      obtain ⟨t, ht, rfl⟩ := List.mem_map.mp hi
      exact List.mem_range.mpr (h.range t ht)
    have hlen := (List.subperm_of_subset h.one hsub).length_le
    rw [List.length_map, List.length_range] at hlen
    exact List.countP_le_length.trans hlen

/-- The pool is created once. -/
theorem length_step {s s' : Engine} {e : Event} (hst : Step c miner tier s e s') :
    s'.slots.length = s.slots.length := by
  cases hst with
  | @message t ht hp resp =>
    unfold onMessage
    dsimp only
    split_ifs
    · simp
    · cases resp <;> simp [(redispatch_kept _ _).length]
  | digest ht hp =>
    unfold onDigest
    split_ifs <;> simp [(redispatch_kept _ _).length]
  | digestFailed ht hp => rfl
  | submitted ht hp => simp [onSubmitted, (redispatch_kept _ _).length]
  | timeout ht hp => exact (redispatch_kept _ _).length
  | leaves ht => rfl
  | leavesFailed ht => simp [onLeavesFailed]
  | wake hs => rfl
  | fetched hs cfg stalled =>
    unfold onFetched
    cases cfg with
    | none => rfl
    | some cfg =>
      dsimp only
      split_ifs
      · rfl
      · rfl
      · exact (kick_kept _ cfg).length
  | advanced hs => exact (kick_kept _ _).length
  | stop => rfl

/-- ONE JOB A WORKER: as long as the supervisor only kicks a settled pool, no slot ever has two
    outstanding jobs, and no more jobs are in flight than there are workers. -/
theorem one_job_per_worker (n : ℕ) (tr : List (Taken Engine Event)) (s : Engine)
    (h : Run (Step c miner tier) (Engine.init tier n) tr s)
    (hset : ∀ t ∈ tr, kicks t.pre t.label = true → Settled t.pre) :
    (∀ i, s.outstanding i ≤ 1) ∧ s.inFlight ≤ n := by
  have hinv : Exclusive s ∧ s.slots.length ≤ n := by
    induction h with
    | nil =>
      refine ⟨exclusive_init n, ?_⟩
      unfold Engine.init
      split_ifs <;> simp
    | snoc hr hst ih =>
      obtain ⟨hex, hlen⟩ := ih fun t ht => hset t (List.mem_append_left _ ht)
      exact ⟨exclusive_step hex hst (hset _ (List.mem_append_right _ (List.mem_singleton_self _))),
        (length_step hst).trans_le hlen⟩
  obtain ⟨hone, hall⟩ := hinv.1.counts
  exact ⟨hone, hall.trans hinv.2⟩

/-! A pool of CPU workers on one open config. -/

namespace Demo

def crates : Crates := ⟨fun _ => Vector.replicate 32 0, fun _ _ _ _ _ => true, fun _ _ _ => []⟩

def key : Bytes32 := Vector.replicate 32 7

def config : EquiumConfig := ⟨3, Vector.replicate 32 1, Vector.replicate 32 255, true⟩

end Demo

/-- The first kick gives each of two workers its job. -/
theorem one_job_per_worker_demo : ∃ tr s,
    Run (Step Demo.crates Demo.key .cpu) (Engine.init .cpu 2) tr s ∧ s.outstanding 0 = 1 ∧
    (∀ i, s.outstanding i ≤ 1) ∧ s.inFlight ≤ 2 := by
  have h₁ : Run (Step Demo.crates Demo.key .cpu) (Engine.init .cpu 2) _ _ :=
    Run.nil.snoc (Step.wake rfl)
  have h₂ := h₁.snoc (Step.fetched rfl (some Demo.config) false)
  refine ⟨_, _, h₂, by decide, one_job_per_worker 2 _ _ h₂ ?_⟩
  intro t ht hk
  rcases List.mem_append.mp ht with ht | ht
  · obtain rfl := List.mem_singleton.mp ht
    cases hk
  · obtain rfl := List.mem_singleton.mp ht
    intro _ _ u hu
    cases hu

/-- A reply `error`, two ticks of the supervisor around it, then the back-off timer: two jobs. -/
theorem error_reply_doubles : ¬ ∀ (c : Crates) (miner : Bytes32) (tier : SolverTier) (n : ℕ)
    (tr : List (Taken Engine Event)) (s : Engine),
    Run (Step c miner tier) (Engine.init tier n) tr s →
      (∀ i, s.outstanding i ≤ 1) ∧ s.inFlight ≤ n := by
  intro hall
  have h₁ : Run (Step Demo.crates Demo.key .cpu) (Engine.init .cpu 1) _ _ :=
    Run.nil.snoc (Step.wake rfl)
  have h₂ := h₁.snoc (Step.fetched rfl (some Demo.config) false)
  have h₃ := h₂.snoc (Step.message (t := ⟨1, 0, Demo.config, .posted⟩) (by decide) rfl .error)
  have h₄ := h₃.snoc (Step.wake rfl)
  have h₅ := h₄.snoc (Step.fetched rfl (some Demo.config) false)
  have h₆ := h₅.snoc (Step.timeout (t := ⟨1, 0, Demo.config, .pausing⟩) (by decide) rfl)
  exact absurd ((hall _ _ _ _ _ _ h₆).1 0) (by decide)

/-! ### The kick that doubles -/

/-- Only outstanding jobs count. -/
theorem outstanding_finish {s : Engine} {t : Task} (ht : t ∈ s.tasks)
    (hw : t.phase.outstanding = false) (i : ℕ) : (s.finish t).outstanding i = s.outstanding i := by
  rw [Engine.outstanding, Engine.outstanding, (List.perm_cons_erase ht).countP_eq, List.countP_cons,
    hw, Bool.and_false]
  rfl

theorem outstanding_add (s : Engine) (t : Task) (i : ℕ) : (s.add t).outstanding i =
    s.outstanding i + if t.slot = i ∧ t.phase.outstanding = true then 1 else 0 := by
  rw [Engine.outstanding, Engine.add, List.countP_append]
  simp [Engine.outstanding]

variable (tier) in
/-- A dispatch while the miner runs is one more outstanding job. -/
theorem outstanding_dispatchTo {s : Engine} (hlive : s.stopped = false) (i j : ℕ)
    (cfg : EquiumConfig) : (dispatchTo tier s i cfg).outstanding j =
      s.outstanding j + if i = j then 1 else 0 := by
  rw [dispatchTo, hlive, if_neg Bool.false_ne_true, outstanding_add]
  have hout : (if tier = SolverTier.hybrid then Phase.leaves else .posted).outstanding = true := by
    split_ifs <;> rfl
  simp only [hout, and_true]
  rfl

theorem outstanding_redispatch {s : Engine} (hlive : s.stopped = false) {cfg : EquiumConfig}
    (hc : s.currentConfig = some cfg) (i : ℕ) :
    (redispatch tier s i).outstanding i = s.outstanding i + 1 := by
  simp [redispatch, hlive, hc, outstanding_dispatchTo]

theorem outstanding_onSubmitted {s : Engine} {t : Task} (ht : t ∈ s.tasks)
    (hp : t.phase = .submitting) (hlive : s.stopped = false) {cfg : EquiumConfig}
    (hc : s.currentConfig = some cfg) :
    (onSubmitted tier s t).outstanding t.slot = s.outstanding t.slot + 1 := by
  rw [onSubmitted,
    outstanding_redispatch (s := { s.finish t with submitting := false }) hlive hc]
  exact congrArg (· + 1) (outstanding_finish ht (by rw [hp]; rfl) _)

/-- Whatever a handler or timer still waits for, it can dispatch to its slot once more. -/
theorem waiting_dispatches (c : Crates) (miner : Bytes32) (tier : SolverTier) {s : Engine} {t : Task}
    (ht : t ∈ s.tasks) (hw : t.phase.outstanding = false) (hlive : s.stopped = false)
    (hidle : s.submitting = false) {cfg : EquiumConfig} (hc : s.currentConfig = some cfg) :
    ∃ s', Reachable (Step c miner tier) s s' ∧ s'.outstanding t.slot = s.outstanding t.slot + 1 := by
  have hsame := outstanding_finish ht hw t.slot
  cases hp : t.phase with
  | leaves => simp [hp, Phase.outstanding] at hw
  | posted => simp [hp, Phase.outstanding] at hw
  | dropped => simp [hp, Phase.outstanding] at hw
  | pausing =>
    refine ⟨_, Reachable.refl.tail (Step.timeout ht hp), ?_⟩
    rw [outstanding_redispatch (s := s.finish t) hlive hc, hsame]
  | submitting =>
    exact ⟨_, Reachable.refl.tail (Step.submitted ht hp), outstanding_onSubmitted ht hp hlive hc⟩
  | hashing solnIndices =>
    have hst : Step c miner tier s _ _ := Step.digest ht hp
    by_cases habove : aboveTarget c miner t.cfg solnIndices = true
    · refine ⟨_, Reachable.refl.tail hst, ?_⟩
      rw [onDigest, if_pos habove, outstanding_redispatch (s := s.finish t) hlive hc, hsame]
    · -- below the target: the handler submits first
      rw [onDigest, if_neg habove, hidle, if_neg Bool.false_ne_true] at hst
      have hmem : { t with phase := .submitting } ∈
          ({ s.finish t with submitting := true }.add { t with phase := .submitting }).tasks :=
        Engine.mem_add.mpr (Or.inr rfl)
      refine ⟨_, (Reachable.refl.tail hst).tail (Step.submitted hmem rfl), ?_⟩
      refine (outstanding_onSubmitted hmem rfl hlive hc).trans (congrArg (· + 1) ?_)
      rw [outstanding_add, if_neg fun hout => Bool.false_ne_true hout.2]
      exact hsame

/-- Loop lemma: a slot that is idle when the loop starts has a job when it ends. -/
theorem kickLoop_dispatches (cfg : EquiumConfig) {i : ℕ} (is : List ℕ) (s : Engine)
    (hlive : s.stopped = false) (hidle : s.submitting = false)
    (hrange : ∀ j ∈ is, j < s.slots.length)
    (h : i ∈ is ∧ s.busy i = false ∨ 1 ≤ s.outstanding i) :
    1 ≤ (is.foldl (kickSlot tier cfg) s).outstanding i := by
  induction is generalizing s with
  | nil =>
    rcases h with ⟨hmem, -⟩ | h
    · cases hmem
    · exact h
  | cons j is ih =>
    have hj := hrange j List.mem_cons_self
    have hrest : ∀ k ∈ is, k < s.slots.length := fun k hk => hrange k (List.mem_cons_of_mem _ hk)
    rw [List.foldl_cons, kickSlot, hidle, Bool.not_false, Bool.and_true]
    by_cases hb : (!s.busy j) = true
    · rw [if_pos hb]
      have hkept : Kept s (dispatchTo tier s j cfg) := dispatchTo_kept s j cfg
      have hcount := outstanding_dispatchTo tier hlive j i cfg
      refine ih _ (hkept.stopped.trans hlive) (hkept.submitting.trans hidle)
        (by rw [hkept.length]; exact hrest) ?_
      by_cases hji : j = i
      · rw [if_pos hji] at hcount
        exact Or.inr (by omega)
      · refine h.imp (fun h => ⟨?_, ?_⟩) fun h => by omega
        · exact (List.mem_cons.mp h.1).resolve_left fun he => hji he.symm
        · exact (dispatchTo_frame s cfg hj fun he => hji he.symm).1.trans h.2
    · rw [if_neg hb]
      refine ih s hlive hidle hrest (h.imp_left fun h => ⟨?_, h.2⟩)
      refine (List.mem_cons.mp h.1).resolve_left fun he => ?_
      rw [← he, h.2] at hb
      exact hb rfl

/-- While the supervisor advances an empty round, the config it fetched is the current one. -/
theorem advancing_config {n : ℕ} {s : Engine}
    (h : Reachable (Step c miner tier) (Engine.init tier n) s) :
    ∀ cfg, s.supervisor = .advancing cfg → s.currentConfig = some cfg := by
  have hkeep : ∀ {s s' : Engine}, Kept s s' →
      (∀ cfg, s.supervisor = .advancing cfg → s.currentConfig = some cfg) →
      ∀ cfg, s'.supervisor = .advancing cfg → s'.currentConfig = some cfg := by
    intro s s' hk hI cfg hs
    exact hk.currentConfig.trans (hI cfg (hk.supervisor.symm.trans hs))
  refine h.inv (fun s => ∀ cfg, s.supervisor = .advancing cfg → s.currentConfig = some cfg)
    (fun cfg hs => by cases hs) ?_
  intro s e s' hI hst
  cases hst with
  | @message t ht hp resp =>
    unfold onMessage
    dsimp only
    split_ifs
    · exact hI
    · cases resp with
      | error => exact hI
      | noSolution => exact hkeep (redispatch_kept ((s.finish t).setBusy t.slot false) t.slot) hI
      | solved solnIndices => exact hI
  | @digest t ht solnIndices hp =>
    unfold onDigest
    split_ifs
    · exact hkeep (redispatch_kept (s.finish t) t.slot) hI
    · exact hkeep (redispatch_kept (s.finish t) t.slot) hI
    · exact hI
  | digestFailed ht hp => exact hI
  | @submitted t ht hp =>
    exact hkeep (redispatch_kept { s.finish t with submitting := false } t.slot) hI
  | @timeout t ht hp => exact hkeep (redispatch_kept (s.finish t) t.slot) hI
  | leaves ht => exact hI
  | leavesFailed ht => exact hI
  | wake hs =>
    intro cfg hs'
    dsimp only at hs'
    split_ifs at hs'
  | fetched hs cfg stalled =>
    unfold onFetched
    cases cfg with
    | none => exact fun cfg hs' => by cases hs'
    | some cfg =>
      dsimp only
      split_ifs
      · exact fun cfg hs' => by cases hs'
      · exact fun cfg hs' => by cases hs'; rfl
      · intro cfg' hs'
        rw [(kick_kept _ cfg).supervisor] at hs'
        cases hs'
  | advanced hs =>
    intro cfg' hs'
    rw [(kick_kept _ _).supervisor] at hs'
    cases hs'
  | stop => exact hI

/-- EXACT: after the first kick of an unsettled pool, some slot can come to have two jobs. -/
theorem unsettled_kick_doubles {n : ℕ} {s s' : Engine} {e : Event}
    (hr : Reachable (Step c miner tier) (Engine.init tier n) s) (hex : Exclusive s)
    (hst : Step c miner tier s e s') (hk : kicks s e = true) (hbad : ¬ Settled s) :
    ∃ s'' i, Reachable (Step c miner tier) s' s'' ∧ 2 ≤ s''.outstanding i := by
  simp only [Settled, Classical.not_imp, not_forall, Bool.not_eq_true] at hbad
  obtain ⟨hidle, hlive, t, ht, hw, hb⟩ := hbad
  -- the kick, from a state that differs in the supervisor's own fields
  have hkicked : ∃ s₁ cfg, s' = kick tier s₁ cfg ∧ s₁.stopped = s.stopped ∧
      s₁.submitting = s.submitting ∧ s₁.slots = s.slots ∧ s₁.tasks = s.tasks ∧
      s₁.currentConfig = some cfg := by
    cases hst with
    | fetched hs cfg stalled =>
      cases cfg with
      | none => cases hk
      | some cfg =>
        rw [kicks, Bool.and_eq_true, Bool.not_eq_true'] at hk
        refine ⟨{ s with currentConfig := some cfg, supervisor := .asleep }, cfg, ?_,
          rfl, rfl, rfl, rfl, rfl⟩
        simp [onFetched, hk.1, hk.2]
    | @advanced cfg hs =>
      exact ⟨{ s with supervisor := .asleep }, cfg, rfl, rfl, rfl, rfl, rfl,
        advancing_config hr cfg hs⟩
    | _ => cases hk
  obtain ⟨s₁, cfg, rfl, hstop, hsub, hslots, htasks, hc⟩ := hkicked
  have hkept : Kept s₁ (kick tier s₁ cfg) := kick_kept s₁ cfg
  have hone : 1 ≤ (kick tier s₁ cfg).outstanding t.slot := by
    refine kickLoop_dispatches cfg _ s₁ (hstop.trans hlive) (hsub.trans hidle)
      (fun i hi => List.mem_range.mp hi) (Or.inl ⟨?_, ?_⟩)
    · exact List.mem_range.mpr (hslots ▸ hex.range t ht)
    · rw [Engine.busy, hslots]
      exact hb
  obtain ⟨s'', hreach, htwo⟩ := waiting_dispatches c miner tier (hkept.tasks (htasks ▸ ht))
    hw (hkept.stopped.trans (hstop.trans hlive))
    (hkept.submitting.trans (hsub.trans hidle)) (hkept.currentConfig.trans hc)
  exact ⟨s'', t.slot, hreach, by omega⟩

end Equium.Website
