import Equium.Miner.Race

/-! @src clients/cli-miner/src/main.rs, clients/gpu-miner/src/main.rs | name:RaceDeadlock |
    scheme:stuck-states

    When the race can block. The channel holds one message and the coordinator receives once, so a
    worker whose send comes after both can wait for a receiver that is itself waiting to join it. The
    comment at the send ("if the channel is closed the race is already over") expects a closed channel
    there; the receiver is dropped only after the joins. -/

namespace Equium.Miner
open Schemes Equium.Core

variable {r : Race} {b : Bool} {s s' : RaceState} {l : Turn} {tr : History}

/-! ### What a stuck state looks like -/

/-- A worker that cannot move is not running, or blocked in its send. -/
theorem workerStep_eq_none {t : ℕ} (h : r.workerStep s t = none) :
    s.workers t = .idle ∨ s.workers t = .exited ∨
      (∃ k v, s.workers t = .send k v) ∧ s.chan ≠ none := by
  unfold Race.workerStep at h
  split at h
  case h_1 hpc => exact .inl hpc
  case h_2 => split_ifs at h
  case h_3 => split at h <;> cases h
  case h_4 k v hpc =>
    split_ifs at h with _ hch
    exact .inr (.inr ⟨⟨k, v, hpc⟩, hch⟩)
  case h_5 => cases h
  case h_6 => cases h
  case h_7 => cases h
  case h_8 hpc => exact .inr (.inl hpc)

/-- The only way to be stuck: the coordinator joins a worker that is blocked in its send. -/
theorem stuck_join (hs : Shape r s) (hne : ∀ res, s.coordinator ≠ .returned res)
    (hst : ∀ l s', ¬ r.Step b s l s') :
    ∃ i w k v, s.coordinator = .join i w ∧ i < r.threads ∧ s.workers i = .send k v ∧
      s.chan ≠ none := by
  have hcoord : r.coordinatorStep s = none := by
    cases h : r.coordinatorStep s with
    | none => rfl
    | some s' => exact absurd ⟨by simp, h⟩ (hst .coordinator s')
  have hwork : ∀ t, r.workerStep s t = none := by
    intro t
    cases h : r.workerStep s t with
    | none => rfl
    | some s' => exact absurd ⟨by simp, h⟩ (hst (.worker t) s')
  unfold Race.coordinatorStep at hcoord
  split at hcoord
  case h_1 => split_ifs at hcoord
  case h_2 hc =>
    -- an empty channel and a live sender: that worker can move
    split at hcoord
    case h_1 => cases hcoord
    case h_2 hch =>
      split_ifs at hcoord with hleft
      obtain ⟨t, ht, hx⟩ := hleft
      rcases workerStep_eq_none (hwork t) with hi | hx' | ⟨-, hfull⟩
      · have := (hs.idle t).mp hi
        rw [hc] at this
        exact absurd ht (Nat.not_lt.mpr this)
      · exact absurd hx' hx
      · exact absurd hch hfull
  case h_3 => cases hcoord
  case h_4 i w hc =>
    split_ifs at hcoord with hi hx
    rcases workerStep_eq_none (hwork i) with hidle | hx' | ⟨⟨k, v, hpc⟩, hfull⟩
    · have := (hs.idle i).mp hidle
      rw [hc] at this
      exact absurd hi (Nat.not_lt.mpr this)
    · exact absurd hx' hx
    · exact ⟨i, w, k, v, hc, hi, hpc, hfull⟩
  case h_5 res hc => exact absurd hc (hne res)

/-- The workers that sent, and the one that is blocked, are different winners. -/
theorem Delivered.blocked {S : Finset ℕ} (h : Delivered r s S) (hs : Shape r s) {i k : ℕ}
    {v : RaceWinner} (hpc : s.workers i = .send k v) : S.card + 1 ≤ r.winners.card := by
  have hnot : i ∉ S := by
    intro hi
    have := h.sent i hi
    rw [hpc] at this
    cases this
  rw [← Finset.card_insert_of_notMem hnot]
  exact Finset.card_le_card (Finset.insert_subset (hs.sending i k v hpc) h.sub)

/-- With at most one possible winner nothing can block, timeouts included. -/
theorem deadlockFree_of_card_le_one (b : Bool) (h : r.winners.card ≤ 1) : r.DeadlockFree b := by
  intro s hr hne
  by_contra hst
  have hs := Shape.reachable hr
  obtain ⟨S, hS⟩ := Delivered.reachable hr
  obtain ⟨i, w, k, v, -, -, hpc, hfull⟩ := stuck_join (b := b) hs hne
    fun l s' h => hst ⟨l, s', h⟩
  obtain ⟨u, hu⟩ := Option.ne_none_iff_exists'.mp hfull
  have hcard := hS.card
  have hbl := hS.blocked hs hpc
  rw [hu, Option.toList_some, List.length_singleton] at hcard
  omega

/-! ### Runs without a timeout -/

/-- The coordinator is past its receive. -/
def CoordinatorPc.received : CoordinatorPc → Bool
  | .storeStop _ | .join _ _ | .returned _ => true
  | _ => false

/-- Without a timeout, the coordinator goes on empty-handed only when every worker is done. -/
def Drained (r : Race) (s : RaceState) : Prop :=
  s.coordinator.received = true → s.coordinator.winner = none →
    s.chan = none ∧ ∀ t < r.threads, s.workers t = .exited

/-- A drained state stays drained: no worker can move in it. -/
theorem Drained.move (h : Drained r s) (hs : Shape r s) (hm : Move r s l s')
    (hl : l ≠ .timeout) : Drained r s' := by
  have hdone : ∀ t, s.coordinator.received = true → s.coordinator.winner = none →
      s.workers t ≠ .idle → s.workers t = .exited :=
    fun t hr hw hi => (h hr hw).2 t (hs.lt_threads hi)
  intro hr hw
  cases hm with
  | worker t pc stop total hlo =>
    obtain ⟨hi, hx, -⟩ := hlo.start
    exact absurd (hdone t hr hw hi) hx
  | send t k w hpc =>
    have := hdone t hr hw (by simp [hpc])
    rw [hpc] at this
    cases this
  | sendClosed t k w hpc =>
    have := hdone t hr hw (by simp [hpc])
    rw [hpc] at this
    cases this
  | spawn i hc => cases hr
  | dropTx i hc => cases hr
  | recv w hc => cases hw
  | disconnected hc hch hleft =>
    refine ⟨hch, fun t ht => ?_⟩
    by_contra hx
    exact hleft ⟨t, ht, hx⟩
  | timeout => exact absurd rfl hl
  | storeStop w hc => exact h (by rw [hc]; rfl) (by rw [hc]; exact hw)
  | join i w hc => exact h (by rw [hc]; rfl) (by rw [hc]; exact hw)
  | finish i w hc =>
    refine h (by rw [hc]; rfl) ?_
    rw [hc]
    cases w with
    | none => rfl
    | some w => cases hw

theorem Race.Step.not_timeout (h : r.Step false s l s') : l ≠ .timeout :=
  fun hl => absurd (h.1 hl) Bool.false_ne_true

theorem Drained.reachable (h : Reachable (r.Step false) .init s) : Drained r s :=
  (h.inv (fun s => Shape r s ∧ Drained r s) ⟨.init r, fun hr => by cases hr⟩
    fun _ _ _ ⟨hsh, hd⟩ hst =>
      ⟨hsh.move hst.move, hd.move hsh hst.move hst.not_timeout⟩).2

/-- Where no timeout fires, two possible winners are harmless. -/
theorem deadlockFree_of_card_le_two (h : r.winners.card ≤ 2) : r.DeadlockFree false := by
  intro s hr hne
  by_contra hst
  have hs := Shape.reachable hr
  obtain ⟨S, hS⟩ := Delivered.reachable hr
  obtain ⟨i, w, k, v, hc, hi, hpc, hfull⟩ := stuck_join (b := false) hs hne
    fun l s' h => hst ⟨l, s', h⟩
  cases w with
  | none =>
    exact hfull (Drained.reachable hr (by rw [hc]; rfl) (by rw [hc]; rfl)).1
  | some w =>
    -- one message received, one in the channel, one blocked
    obtain ⟨u, hu⟩ := Option.ne_none_iff_exists'.mp hfull
    have hcard := hS.card
    have hbl := hS.blocked hs hpc
    rw [hu, hc] at hcard
    simp only [CoordinatorPc.winner, Option.toList_some, List.length_singleton] at hcard
    omega

/-! ### Where the winners are -/

/-- Some worker is about to send `w`. -/
def Sending (s : RaceState) (w : RaceWinner) : Prop := ∃ t k, s.workers t = .send k w

/-- The winner `w` is with a worker, in the channel or with the coordinator. -/
def Held (s : RaceState) (w : RaceWinner) : Prop :=
  Sending s w ∨ s.chan = some w ∨ s.coordinator.winner = some w

/-- This step solves a nonce whose outcome is `w`. -/
def Finds (r : Race) (s : RaceState) (l : Turn) (w : RaceWinner) : Prop :=
  ∃ t tried, l = .worker t ∧ s.workers t = .solve tried ∧ r.attempt t tried = some w

/-- Single out worker `t`. -/
theorem sending_split (s : RaceState) (t : ℕ) (w : RaceWinner) :
    Sending s w ↔ (∃ k, s.workers t = .send k w) ∨ ∃ u, u ≠ t ∧ ∃ k, s.workers u = .send k w := by
  constructor
  · rintro ⟨u, k, h⟩
    by_cases hu : u = t
    · exact .inl ⟨k, hu ▸ h⟩
    · exact .inr ⟨u, hu, k, h⟩
  · rintro (⟨k, h⟩ | ⟨u, -, k, h⟩)
    exacts [⟨t, k, h⟩, ⟨u, k, h⟩]

theorem sending_at (s : RaceState) (t : ℕ) (pc : WorkerPc) (w : RaceWinner) :
    Sending (s.at t pc) w ↔ (∃ k, pc = .send k w) ∨ ∃ u, u ≠ t ∧ ∃ k, s.workers u = .send k w := by
  rw [sending_split _ t, RaceState.at_self]
  refine or_congr Iff.rfl (exists_congr fun u => and_congr_right fun hu => ?_)
  rw [RaceState.at_ne s pc hu]

/-- A worker that neither stood at its send nor moved there changes nothing. -/
theorem sending_at_iff {t : ℕ} {pc : WorkerPc} {w : RaceWinner}
    (h : ∀ k, s.workers t ≠ .send k w) (hpc : ∀ k, pc ≠ .send k w) :
    Sending (s.at t pc) w ↔ Sending s w := by
  rw [sending_at, sending_split s t]
  simp [h, hpc]

/-- What a worker's own code finds is what it then stands ready to send. -/
theorem Local.sending {t : ℕ} {pc : WorkerPc} {stop : Bool} {total : UInt64} {w : RaceWinner}
    (h : Local r s t pc stop total) :
    Sending (s.at t pc) w ↔ Sending s w ∨ Finds r s (.worker t) w := by
  cases h with
  | found tried v hpc hat =>
    have hfind : Finds r s (.worker t) w ↔ v = w := by
      constructor
      · rintro ⟨t', k, ht, hk, hv⟩
        cases ht
        rw [hpc] at hk
        cases hk
        rw [hat] at hv
        exact Option.some.inj hv
      · rintro rfl; exact ⟨t, tried, rfl, hpc, hat⟩
    rw [sending_at, sending_split s t, hfind]
    simp only [hpc, WorkerPc.send.injEq, exists_eq_left', reduceCtorEq, exists_false, false_or]
    exact or_comm
  | missed tried hpc hat =>
    rw [sending_at_iff (by simp [hpc]) (by simp)]
    refine (or_iff_left ?_).symm
    rintro ⟨t', k, ht, hk, hv⟩
    cases ht
    rw [hpc] at hk
    cases hk
    rw [hat] at hv
    cases hv
  | enter _ hpc | leave _ hpc | raise _ hpc | count _ hpc | exit hpc =>
    rw [sending_at_iff (by simp [hpc]) (by simp)]
    refine (or_iff_left ?_).symm
    rintro ⟨t', k, ht, hk, -⟩
    cases ht
    rw [hpc] at hk
    cases hk

/-- Only a worker's step finds anything, and only one that solves. -/
theorem not_finds {w : RaceWinner} (h : ∀ t k, l = .worker t → s.workers t ≠ .solve k) :
    ¬ Finds r s l w := by
  rintro ⟨t, k, ht, hk, -⟩
  exact h t k ht hk

/-- Step lemma: no winner is lost on its way, and none appears from nowhere. -/
theorem held_move (hs : Shape r s) (hm : Move r s l s') (w : RaceWinner) :
    Held s' w ↔ Held s w ∨ Finds r s l w := by
  cases hm with
  | worker t pc stop total hl =>
    have := hl.sending (w := w)
    change (Sending (s.at t pc) w ∨ s.chan = some w ∨ s.coordinator.winner = some w) ↔ _
    rw [this, Held]
    tauto
  | send t k v hpc hch =>
    rw [or_iff_left (not_finds fun t' k' ht hk => by cases ht; rw [hpc] at hk; cases hk)]
    change (Sending (s.at t (.storeStop k)) w ∨ some v = some w ∨ _) ↔ _
    rw [Held, sending_at, sending_split s t, hch, hpc]
    simp only [RaceState.at_coordinator, reduceCtorEq, exists_false, false_or, Option.some.injEq,
      WorkerPc.send.injEq, exists_eq_left']
    exact (or_left_comm.trans or_assoc.symm)
  | sendClosed t k v hpc hdead =>
    -- once the receiver is gone every worker has been joined
    exfalso
    have hlt := hs.lt_threads (t := t) (by simp [hpc])
    unfold RaceState.receiverAlive at hdead
    split at hdead
    case h_1 res hc =>
      have := hs.joined t (by rw [hc]; exact hlt)
      rw [hpc] at this
      cases this
    case h_2 => cases hdead
  | spawn i hc hi =>
    have hidle : s.workers i = .idle := (hs.idle i).mpr (by rw [hc]; exact le_rfl)
    rw [or_iff_left (not_finds fun _ _ ht => by cases ht)]
    change (Sending (s.at i (.check 0)) w ∨ s.chan = some w ∨ none = some w) ↔ _
    rw [sending_at_iff (by simp [hidle]) (by simp), Held, hc]
    rfl
  | recv v hc hch =>
    rw [or_iff_left (not_finds fun _ _ ht => by cases ht)]
    change (Sending s w ∨ none = some w ∨ some v = some w) ↔ _
    rw [Held, hc, hch]
    simp only [CoordinatorPc.winner, reduceCtorEq, false_or, or_false]
  | finish i v hc hi =>
    rw [or_iff_left (not_finds fun _ _ ht => by cases ht)]
    rw [Held, Held, hc]
    cases v <;> rfl
  | dropTx i hc | disconnected hc | timeout hc | storeStop v hc | join i v hc =>
    rw [or_iff_left (not_finds fun _ _ ht => by cases ht)]
    rw [Held, Held, hc]
    rfl

/-- What was found is what was found before and what the last step found. -/
theorem found_snoc {w : RaceWinner} :
    r.Found (tr ++ [⟨s, l, s'⟩]) w ↔ r.Found tr w ∨ Finds r s l w := by
  constructor
  · rintro ⟨e, he, t, tried, h⟩
    rcases List.mem_append.mp he with he | he
    · exact .inl ⟨e, he, t, tried, h⟩
    · rw [List.mem_singleton] at he
      subst he
      exact .inr ⟨t, tried, h⟩
  · rintro (⟨e, he, h⟩ | ⟨t, tried, h⟩)
    · exact ⟨e, List.mem_append_left _ he, h⟩
    · exact ⟨⟨s, l, s'⟩, by simp, t, tried, h⟩

/-- Run lemma: the winners held are exactly the winners found. -/
theorem held_iff_found (h : Run (r.Step b) .init tr s) (w : RaceWinner) :
    Held s w ↔ r.Found tr w := by
  refine (h.inv (fun tr s => Shape r s ∧ ∀ w, Held s w ↔ r.Found tr w) ⟨.init r, ?_⟩ ?_).2 w
  · intro w
    constructor
    · rintro (⟨t, k, h⟩ | h | h) <;> cases h
    · rintro ⟨e, he, -⟩
      cases he
  · intro tr s l s' _ ⟨hsh, hw⟩ hst
    refine ⟨hsh.move hst.move, fun w => ?_⟩
    rw [held_move hsh hst.move, hw, found_snoc]

/-- The second half of the contract holds for every race: a call that returns without a timeout
    returns a winner that was found, and returns one if one was found. -/
theorem returnsWinner (r : Race) : r.ReturnsWinner := by
  intro tr s res h hc
  have hheld := held_iff_found h
  have hsh := Shape.reachable ⟨tr, h⟩
  have hwin : s.coordinator.winner = res.map Prod.fst := by rw [hc]; rfl
  have hsound : ∀ w total, res = some (w, total) → r.Found tr w := by
    rintro w total rfl
    exact (hheld w).mp (.inr (.inr hwin))
  refine ⟨hsound, fun hres => ?_, fun ⟨w, hw⟩ => ?_⟩
  · obtain ⟨⟨w, total⟩, rfl⟩ := Option.isSome_iff_exists.mp hres
    exact ⟨w, hsound w total rfl⟩
  · rcases (hheld w).mpr hw with ⟨t, k, hpc⟩ | hch | hw
    · have := hsh.joined t (by rw [hc]; exact hsh.lt_threads (by simp [hpc]))
      rw [hpc] at this
      cases this
    · cases res with
      | some _ => rfl
      | none =>
        rw [(Drained.reachable ⟨tr, h⟩ (by rw [hc]; rfl) hwin).1] at hch
        cases hch
    · rw [hwin] at hw
      obtain ⟨p, rfl, -⟩ := Option.map_eq_some_iff.mp hw
      rfl

/-! ### A race that blocks -/

/-- How far a worker is from its end. -/
def Race.rank (r : Race) : WorkerPc → ℕ
  | .idle => 0
  | .check tried => 2 * (r.maxPerThread.toNat - tried) + 5
  | .solve tried => 2 * (r.maxPerThread.toNat - tried) + 4
  | .send _ _ => 4
  | .storeStop _ => 3
  | .fetchAdd _ => 2
  | .leaving => 1
  | .exited => 0

/-- How far the coordinator is from its end; each spawn pays for the worker it starts. -/
def Race.coordinatorRank (r : Race) : CoordinatorPc → ℕ
  | .spawn i => (r.threads - i) * (2 * r.maxPerThread.toNat + 6) + r.threads + 5
  | .recv => r.threads + 4
  | .storeStop _ => r.threads + 3
  | .join i _ => r.threads - i + 1
  | .returned _ => 0

/-- The steps left, at most. -/
def Race.measure (r : Race) (s : RaceState) : ℕ :=
  ∑ t ∈ Finset.range r.threads, r.rank (s.workers t) + r.coordinatorRank s.coordinator

theorem sum_rank_at {t : ℕ} (ht : t < r.threads) (s : RaceState) (pc : WorkerPc) :
    ∑ u ∈ Finset.range r.threads, r.rank ((s.at t pc).workers u) + r.rank (s.workers t) =
      ∑ u ∈ Finset.range r.threads, r.rank (s.workers u) + r.rank pc := by
  have hmem : t ∈ Finset.range r.threads := Finset.mem_range.mpr ht
  rw [← Finset.add_sum_erase _ _ hmem, ← Finset.add_sum_erase _ (fun u => r.rank (s.workers u)) hmem,
    RaceState.at_self]
  have hrest : ∑ u ∈ (Finset.range r.threads).erase t, r.rank ((s.at t pc).workers u) =
      ∑ u ∈ (Finset.range r.threads).erase t, r.rank (s.workers u) := by
    refine Finset.sum_congr rfl fun u hu => ?_
    rw [RaceState.at_ne s pc (Finset.ne_of_mem_erase hu)]
  rw [hrest]
  omega

/-- A worker's own code brings it closer to its end. -/
theorem Local.rank_lt {t : ℕ} {pc : WorkerPc} {stop : Bool} {total : UInt64}
    (h : Local r s t pc stop total) (hs : Shape r s) : r.rank pc < r.rank (s.workers t) := by
  cases h with
  | enter _ hpc | leave _ hpc | raise _ hpc | count _ hpc | exit hpc =>
    rw [hpc]; simp only [Race.rank]; omega
  | found tried v hpc | missed tried hpc =>
    have := hs.solving t tried hpc
    rw [hpc]; simp only [Race.rank]; omega

/-- Every move lowers the measure, so every run of a race is finite. -/
theorem measure_move (hs : Shape r s) (hm : Move r s l s') : r.measure s' < r.measure s := by
  cases hm with
  | worker t pc stop total hl =>
    have h₁ := sum_rank_at (hs.lt_threads hl.start.1) s pc
    have h₂ := hl.rank_lt hs
    simp only [Race.measure, RaceState.at_coordinator] at h₁ ⊢
    omega
  | send t k w hpc =>
    have h₁ := sum_rank_at (hs.lt_threads (t := t) (by simp [hpc])) s (.storeStop k)
    rw [hpc] at h₁
    simp only [Race.measure, Race.rank, RaceState.at_coordinator] at h₁ ⊢
    omega
  | sendClosed t k w hpc =>
    have h₁ := sum_rank_at (hs.lt_threads (t := t) (by simp [hpc])) s (.storeStop k)
    rw [hpc] at h₁
    simp only [Race.measure, Race.rank, RaceState.at_coordinator] at h₁ ⊢
    omega
  | spawn i hc hi =>
    have hidle : s.workers i = .idle := (hs.idle i).mpr (by rw [hc]; exact le_rfl)
    have h₁ := sum_rank_at hi s (.check 0)
    have h₂ : (r.threads - i) * (2 * r.maxPerThread.toNat + 6) =
        (r.threads - (i + 1)) * (2 * r.maxPerThread.toNat + 6) +
          (2 * r.maxPerThread.toNat + 6) := by
      rw [← Nat.succ_mul]; congr 1; omega
    rw [hidle] at h₁
    simp only [Race.measure, Race.rank, Race.coordinatorRank, hc] at h₁ ⊢
    omega
  | dropTx i hc | recv v hc | disconnected hc | timeout hc | storeStop v hc | join i v hc
  | finish i v hc =>
    simp only [Race.measure, Race.coordinatorRank, hc]
    omega

/-- A worker is blocked in its send, the channel is full, and nobody will receive again. -/
def Doomed (r : Race) (s : RaceState) : Prop :=
  ∃ t k v, t < r.threads ∧ s.workers t = .send k v ∧ s.chan ≠ none ∧
    ((∃ w, s.coordinator = .storeStop w) ∨ ∃ i w, s.coordinator = .join i w ∧ i ≤ t)

theorem Doomed.not_returned (h : Doomed r s) (res : Option (RaceWinner × UInt64)) :
    s.coordinator ≠ .returned res := by
  obtain ⟨-, -, -, -, -, -, ⟨w, hc⟩ | ⟨i, w, hc, -⟩⟩ := h <;> simp [hc]

theorem Doomed.receiverAlive (h : Doomed r s) : s.receiverAlive = true := by
  unfold RaceState.receiverAlive
  split
  case h_1 res hc => exact absurd hc (h.not_returned res)
  case h_2 => rfl

/-- A doomed race stays doomed. -/
theorem Doomed.move (h : Doomed r s) (hm : Move r s l s') : Doomed r s' := by
  have halive := h.receiverAlive
  obtain ⟨t, k, v, ht, hpc, hfull, hc⟩ := h
  cases hm with
  | worker u pc stop total hl =>
    have hut : t ≠ u := by rintro rfl; cases hl <;> simp_all
    exact ⟨t, k, v, ht, by rw [← hpc]; exact RaceState.at_ne s pc hut, hfull, hc⟩
  | send u _ _ _ hch => exact absurd hch hfull
  | sendClosed u _ _ _ hdead => rw [halive] at hdead; cases hdead
  | spawn _ hc' | dropTx _ hc' | recv _ hc' | disconnected hc' | timeout hc' =>
    rw [hc'] at hc; simp at hc
  | storeStop w hc' => exact ⟨t, k, v, ht, hpc, hfull, .inr ⟨0, w, rfl, Nat.zero_le t⟩⟩
  | join i w hc' hi hx =>
    obtain ⟨w', hc⟩ | ⟨i', w', hc, hle⟩ := hc
    · rw [hc'] at hc; cases hc
    · rw [hc'] at hc
      cases hc
      have hne : i ≠ t := by rintro rfl; rw [hpc] at hx; cases hx
      exact ⟨t, k, v, ht, hpc, hfull, .inr ⟨i + 1, w, rfl, by omega⟩⟩
  | finish i w hc' hi =>
    obtain ⟨w', hc⟩ | ⟨i', w', hc, hle⟩ := hc
    · rw [hc'] at hc; cases hc
    · rw [hc'] at hc
      cases hc
      omega

/-- From a doomed state the race runs into a stuck one. -/
theorem Doomed.deadlock (h : Doomed r s) (hr : Reachable (r.Step b) .init s) :
    ¬ r.DeadlockFree b := by
  intro hfree
  obtain ⟨s', hr', ⟨-, hd⟩, hst⟩ := hr.exists_stuck (fun s => Shape r s ∧ Doomed r s) r.measure
    (fun _ _ _ ⟨hs, hd⟩ hst => ⟨⟨hs.move hst.move, hd.move hst.move⟩, measure_move hs hst.move⟩)
    ⟨Shape.reachable hr, h⟩
  obtain ⟨l, s'', hstep⟩ := hfree s' hr' hd.not_returned
  exact hst l s'' hstep

/-! ### Reaching a doomed state -/

/-- Every worker spawned, none has moved, the coordinator waits. -/
def Race.opened (r : Race) : RaceState :=
  ⟨.recv, fun t => if t < r.threads then .check 0 else .idle, none, false, 0⟩

theorem Reachable.worker {t : ℕ} (h : Reachable (r.Step b) .init s)
    (hst : r.workerStep s t = some s') : Reachable (r.Step b) .init s' :=
  h.tail (l := .worker t) ⟨by simp, hst⟩

theorem Reachable.coordinator (h : Reachable (r.Step b) .init s)
    (hst : r.coordinatorStep s = some s') : Reachable (r.Step b) .init s' :=
  h.tail (l := .coordinator) ⟨by simp, hst⟩

theorem spawned_reachable (r : Race) (b : Bool) : ∀ i ≤ r.threads, Reachable (r.Step b) .init
    ⟨.spawn i, fun t => if t < i then .check 0 else .idle, none, false, 0⟩ := by
  intro i
  induction i with
  | zero => intro _; exact .refl
  | succ i ih =>
    intro hi
    refine Reachable.coordinator (ih (by omega)) ?_
    simp only [Race.coordinatorStep, if_pos (show i < r.threads by omega), RaceState.at,
      Option.some.injEq, RaceState.mk.injEq, and_true, true_and]
    funext t
    rcases Nat.lt_trichotomy t i with h | rfl | h
    · rw [Function.update_of_ne (by omega), if_pos h, if_pos (by omega)]
    · rw [Function.update_self, if_pos (by omega)]
    · rw [Function.update_of_ne (by omega), if_neg (by omega), if_neg (by omega)]

theorem opened_reachable (r : Race) (b : Bool) : Reachable (r.Step b) .init r.opened := by
  refine Reachable.coordinator (spawned_reachable r b r.threads le_rfl) ?_
  simp [Race.coordinatorStep, Race.opened]

@[simp] theorem RaceState.at_at (s : RaceState) (t : ℕ) (pc pc' : WorkerPc) :
    (s.at t pc).at t pc' = s.at t pc' := by simp [RaceState.at]

/-- Driving one worker: while the flag is down it grinds up to its first winner. -/
theorem drive {t : ℕ} : ∀ d tried s, s.workers t = .check tried → s.stop = false →
    tried + d < r.maxPerThread.toNat → (r.attempt t (tried + d)).isSome →
    Reachable (r.Step b) .init s → ∃ k w, Reachable (r.Step b) .init (s.at t (.send k w)) := by
  intro d
  induction d with
  | zero =>
    intro tried s hpc hstop hlt hat hr
    rw [Nat.add_zero] at hlt hat
    obtain ⟨w, hw⟩ := Option.isSome_iff_exists.mp hat
    have h₁ : Reachable (r.Step b) .init (s.at t (.solve tried)) :=
      Reachable.worker hr (t := t) (by simp [Race.workerStep, hpc, hstop, hlt])
    refine ⟨tried + 1, w, Reachable.worker h₁ (t := t) ?_⟩
    simp [Race.workerStep, hw]
  | succ d ih =>
    intro tried s hpc hstop hlt hat hr
    have h₁ : Reachable (r.Step b) .init (s.at t (.solve tried)) :=
      Reachable.worker hr (t := t)
        (by simp [Race.workerStep, hpc, hstop, show tried < r.maxPerThread.toNat by omega])
    cases hw : r.attempt t tried with
    | some w =>
      refine ⟨tried + 1, w, Reachable.worker h₁ (t := t) ?_⟩
      simp [Race.workerStep, hw]
    | none =>
      have h₂ : Reachable (r.Step b) .init (s.at t (.check (tried + 1))) :=
        Reachable.worker h₁ (t := t) (by simp [Race.workerStep, hw])
      have heq : tried + 1 + d = tried + (d + 1) := by omega
      simpa using ih (tried + 1) (s.at t (.check (tried + 1))) (by simp) hstop (by omega)
        (by rw [heq]; exact hat) h₂

/-- A possible winner that has not moved can be driven to its send. -/
theorem drive_winner {t : ℕ} (ht : t ∈ r.winners) (hpc : s.workers t = .check 0)
    (hstop : s.stop = false) (h : Reachable (r.Step b) .init s) :
    ∃ k w, Reachable (r.Step b) .init (s.at t (.send k w)) := by
  obtain ⟨-, k, hk, hat⟩ := Finset.mem_filter.mp ht
  exact drive k 0 s hpc hstop (by rwa [Nat.zero_add]) (by rwa [Nat.zero_add]) h

theorem mem_winners_lt {t : ℕ} (ht : t ∈ r.winners) : t < r.threads :=
  Finset.mem_range.mp (Finset.mem_filter.mp ht).1

/-- Two possible winners: the receive times out, one message fills the channel, the other waits. -/
theorem deadlock_of_two (h : 2 ≤ r.winners.card) : ¬ r.DeadlockFree true := by
  obtain ⟨x, hx, y, hy, hxy⟩ := Finset.one_lt_card.mp h
  have hx' := mem_winners_lt hx
  have hy' := mem_winners_lt hy
  obtain ⟨k, v, h₁⟩ := drive_winner hx (by simp [Race.opened, hx']) rfl (opened_reachable r true)
  obtain ⟨m, w, h₂⟩ := drive_winner hy
    (by rw [RaceState.at_ne _ _ hxy.symm]; simp [Race.opened, hy']) rfl h₁
  have hpx : ((r.opened.at x (.send k v)).at y (.send m w)).workers x = .send k v := by
    rw [RaceState.at_ne _ _ hxy, RaceState.at_self]
  have hpy : ((r.opened.at x (.send k v)).at y (.send m w)).workers y = .send m w :=
    RaceState.at_self _ _ _
  generalize hs : (r.opened.at x (.send k v)).at y (.send m w) = s at h₂ hpx hpy
  have hc : s.coordinator = .recv ∧ s.chan = none := by subst hs; exact ⟨rfl, rfl⟩
  have h₃ : Reachable (r.Step true) .init { s with coordinator := .storeStop none } :=
    h₂.tail (l := .timeout)
      ⟨fun _ => rfl, by simp [Race.turn, Race.timeoutStep, hc.1, hc.2]⟩
  have h₄ : Reachable (r.Step true) .init
      { ({ s with coordinator := .storeStop none } : RaceState).at x (.storeStop k) with
        chan := some v } :=
    Reachable.worker h₃ (t := x) (by simp [Race.workerStep, hpx, hc.2, RaceState.receiverAlive])
  refine Doomed.deadlock ⟨y, m, w, hy', ?_, by simp, .inl ⟨none, rfl⟩⟩ h₄
  exact (RaceState.at_ne _ _ hxy.symm).trans hpy

/-- Three possible winners: one message is received, one fills the channel, the third waits. -/
theorem deadlock_of_three (b : Bool) (h : 3 ≤ r.winners.card) : ¬ r.DeadlockFree b := by
  obtain ⟨x, hx, y, hy, z, hz, hxy, hxz, hyz⟩ := Finset.two_lt_card.mp h
  have hx' := mem_winners_lt hx
  have hy' := mem_winners_lt hy
  have hz' := mem_winners_lt hz
  obtain ⟨k, v, h₁⟩ := drive_winner hx (by simp [Race.opened, hx']) rfl (opened_reachable r b)
  obtain ⟨m, w, h₂⟩ := drive_winner hy
    (by rw [RaceState.at_ne _ _ hxy.symm]; simp [Race.opened, hy']) rfl h₁
  obtain ⟨n, u, h₃⟩ := drive_winner hz
    (by rw [RaceState.at_ne _ _ hyz.symm, RaceState.at_ne _ _ hxz.symm]; simp [Race.opened, hz'])
    rfl h₂
  generalize hs : ((r.opened.at x (.send k v)).at y (.send m w)).at z (.send n u) = s at h₃
  have hpx : s.workers x = .send k v := by
    rw [← hs, RaceState.at_ne _ _ hxz, RaceState.at_ne _ _ hxy, RaceState.at_self]
  have hpy : s.workers y = .send m w := by
    rw [← hs, RaceState.at_ne _ _ hyz, RaceState.at_self]
  have hpz : s.workers z = .send n u := by rw [← hs, RaceState.at_self]
  have hc : s.coordinator = .recv ∧ s.chan = none := by subst hs; exact ⟨rfl, rfl⟩
  -- the first winner sends, the coordinator receives
  have h₄ : Reachable (r.Step b) .init { s.at x (.storeStop k) with chan := some v } :=
    Reachable.worker h₃ (t := x)
      (by simp [Race.workerStep, hpx, hc.1, hc.2, RaceState.receiverAlive])
  have h₅ : Reachable (r.Step b) .init
      { s.at x (.storeStop k) with coordinator := .storeStop (some v), chan := none } :=
    Reachable.coordinator h₄ (by simp [Race.coordinatorStep, hc.1])
  -- the second winner sends into the emptied channel
  have h₆ : Reachable (r.Step b) .init
      { (s.at x (.storeStop k)).at y (.storeStop m) with
        coordinator := .storeStop (some v), chan := some w } := by
    refine Reachable.worker h₅ (t := y) ?_
    have hpy' : Function.update s.workers x (.storeStop k) y = .send m w :=
      (RaceState.at_ne _ _ hxy.symm).trans hpy
    simp [Race.workerStep, hpy', RaceState.receiverAlive, RaceState.at]
  refine Doomed.deadlock ⟨z, n, u, hz', ?_, by simp, .inl ⟨some v, rfl⟩⟩ h₆
  exact (RaceState.at_ne _ _ hyz.symm).trans ((RaceState.at_ne _ _ hxz.symm).trans hpz)

/-- SOLVER RACE: no reachable state is stuck, and a call that returns without a timeout returns a
    winner exactly when one was found, if and only if at most one worker can find a below-target nonce
    within its budget. Where no timeout fires the bound is two. -/
theorem race_contract (r : Race) :
    (r.DeadlockFree true ∧ r.ReturnsWinner ↔ r.winners.card ≤ 1) ∧
      (r.DeadlockFree false ∧ r.ReturnsWinner ↔ r.winners.card ≤ 2) := by
  constructor
  · refine ⟨fun ⟨hfree, _⟩ => ?_, fun h => ⟨deadlockFree_of_card_le_one true h, returnsWinner r⟩⟩
    by_contra hc
    exact deadlock_of_two (by omega) hfree
  · refine ⟨fun ⟨hfree, _⟩ => ?_, fun h => ⟨deadlockFree_of_card_le_two h, returnsWinner r⟩⟩
    by_contra hc
    exact deadlock_of_three false (by omega) hfree

/-- Three workers whose first nonces are all below the target. -/
def easyTargetRace : Race :=
  ⟨3, 1, fun t _ => some ⟨Vector.replicate 32 (UInt8.ofNat t), []⟩⟩

/-- The race of three immediate winners can block, even if the timeout never fires. -/
theorem easyTargetRace_blocks :
    ¬ (easyTargetRace.DeadlockFree false ∧ easyTargetRace.ReturnsWinner) :=
  fun h => deadlock_of_three false (r := easyTargetRace) (by decide) h.1

end Equium.Miner
