import Equium.Miner.Session

/-! @src clients/cli-miner/src/main.rs | name:Empty-round watchdog | scheme:run-invariant

    What the watchdog does is a function of the heights the client has seen, with the time of each. The
    start of the loop counts as a sighting of the height `u64::MAX`.

        seen:   ...  (t, h')  (t₀, h)  (t₁, h)  ...  (now, h)
                              └──── at least 75 s ────┘        and no call in the last 30 s -/

namespace Equium.Miner
open Schemes Equium.Core Equium.Program

variable {rt : Runtime} {k : Client} {s s' : Session} {tr : Log}

/-- A fetch, with its time and the height it showed. -/
def sightingAt (t : Taken Session SessionLabel) : Option (ℕ × UInt64) :=
  match t.label with
  | .fetched => t.pre.world.config.map fun cfg => (t.pre.now, cfg.blockHeight)
  | _ => none

/-- The heights seen since the loop began, oldest first. -/
def sightings (now₀ : ℕ) (tr : Log) : List (ℕ × UInt64) :=
  (now₀, UInt64.ofNat (2 ^ 64 - 1)) :: tr.filterMap sightingAt

/-- A call of `advance_empty_round`, with its time. -/
def attemptAt (t : Taken Session SessionLabel) : Option ℕ :=
  match t.label with
  | .fetched => if t.post.pc = .advance then some t.pre.now else none
  | _ => none

/-- The times of the calls, oldest first. -/
def attempts (tr : Log) : List ℕ := tr.filterMap attemptAt

/-- From some sighting at least 75 s ago on, every sighting has shown this height. -/
def StallSeen (seen : List (ℕ × UInt64)) (now : ℕ) (height : UInt64) : Prop :=
  ∃ before t₀ since, seen = before ++ (t₀, height) :: since ∧ (∀ x ∈ since, x.2 = height) ∧
    t₀ + roundStallMs ≤ now

theorem sightings_concat (now₀ : ℕ) (tr : Log) (t : Taken Session SessionLabel) :
    sightings now₀ (tr ++ [t]) = sightings now₀ tr ++ (sightingAt t).toList := by
  cases h : sightingAt t <;> simp [sightings, h]

theorem attempts_concat (tr : Log) (t : Taken Session SessionLabel) :
    attempts (tr ++ [t]) = attempts tr ++ (attemptAt t).toList := by
  cases h : attemptAt t <;> simp [attempts, h]

/-- The locals of the watchdog, against what was seen and what was called. -/
structure Watching (seen : List (ℕ × UInt64)) (calls : List ℕ) (now : ℕ) (l : Locals) : Prop where
  /-- the height was first seen at `lastHeightChangeAt`, and nothing else since -/
  stretch : ∃ before since, seen = before ++ (l.lastHeightChangeAt, l.currentHeight) :: since ∧
    ∀ x ∈ since, x.2 = l.currentHeight
  /-- no stretch of one height up to now began earlier -/
  first : ∀ before t₀ h since, seen = before ++ (t₀, h) :: since → (∀ x ∈ since, x.2 = h) →
    h = l.currentHeight ∧ l.lastHeightChangeAt ≤ t₀
  past : l.lastHeightChangeAt ≤ now
  called : ∀ a ∈ calls, a ≤ now
  /-- the last call is remembered until the height changes -/
  last : match l.lastAdvanceAttemptAt with
    | some t => t ∈ calls ∧ ∀ a ∈ calls, a ≤ t
    | none => ∀ a ∈ calls, a ≤ l.lastHeightChangeAt
  spaced : calls.Pairwise fun a b => a + advanceCooldownMs ≤ b

/-- Time passes. -/
theorem Watching.later {seen : List (ℕ × UInt64)} {calls : List ℕ} {now now' : ℕ} {l l' : Locals}
    (h : Watching seen calls now l) (hw : SameWatch l l') (hle : now ≤ now') :
    Watching seen calls now' l' := by
  obtain ⟨h₁, h₂, h₃⟩ := hw
  exact ⟨by rw [h₁, h₂]; exact h.stretch, by rw [h₁, h₂]; exact h.first,
    by rw [h₂]; exact h.past.trans hle, fun a ha => (h.called a ha).trans hle,
    by rw [h₂, h₃]; exact h.last, h.spaced⟩

/-- A height is seen. -/
theorem Watching.observe {seen : List (ℕ × UInt64)} {calls : List ℕ} {now : ℕ} {l : Locals}
    (h : Watching seen calls now l) (cfg : EquiumConfig) :
    Watching (seen ++ [(now, cfg.blockHeight)]) calls now (l.observe now cfg) := by
  -- a stretch that ends with the new sighting is that sighting, or a stretch of before prolonged
  have hsplit : ∀ before t₀ h' since, seen ++ [(now, cfg.blockHeight)] = before ++ (t₀, h') :: since →
      (t₀, h') = (now, cfg.blockHeight) ∧ since = [] ∨
        ∃ mid, since = mid ++ [(now, cfg.blockHeight)] ∧ seen = before ++ (t₀, h') :: mid := by
    intro before t₀ h' since he
    rcases List.eq_nil_or_concat since with rfl | ⟨mid, x, rfl⟩
    · obtain ⟨-, hx⟩ := List.append_inj' he rfl
      exact .inl ⟨(List.singleton_inj.mp hx).symm, rfl⟩
    · rw [List.concat_eq_append, ← List.cons_append, ← List.append_assoc] at he
      obtain ⟨hseen, hx⟩ := List.append_inj' he rfl
      rw [← List.singleton_inj.mp hx]
      exact .inr ⟨mid, List.concat_eq_append, hseen⟩
  unfold Locals.observe
  split_ifs with hne
  · refine ⟨⟨seen, [], rfl, by simp⟩, fun before t₀ h' since he hall => ?_, le_rfl, h.called,
      h.called, h.spaced⟩
    rcases hsplit before t₀ h' since he with ⟨hx, -⟩ | ⟨mid, rfl, hseen⟩
    · obtain ⟨rfl, rfl⟩ := Prod.mk.inj hx
      exact ⟨rfl, le_rfl⟩
    · have hlast : cfg.blockHeight = h' := hall (now, cfg.blockHeight) (by simp)
      obtain ⟨hh, -⟩ := h.first before t₀ h' mid hseen fun x hx => hall x (by simp [hx])
      exact absurd (hlast.trans hh) hne
  · rw [not_not] at hne
    obtain ⟨before, since, hseen, hall⟩ := h.stretch
    refine ⟨⟨before, since ++ [(now, cfg.blockHeight)], by rw [hseen]; simp, fun x hx => ?_⟩,
      fun before t₀ h' since he hall => ?_, h.past, h.called, h.last, h.spaced⟩
    · rcases List.mem_append.mp hx with hx | hx
      · exact hall x hx
      · rw [List.mem_singleton.mp hx]
        exact hne
    · rcases hsplit before t₀ h' since he with ⟨hx, -⟩ | ⟨mid, rfl, hseen⟩
      · obtain ⟨rfl, rfl⟩ := Prod.mk.inj hx
        exact ⟨hne, h.past⟩
      · exact h.first before t₀ h' mid hseen fun x hx => hall x (by simp [hx])

/-- The watchdog's condition, in terms of what was seen and called. -/
theorem Watching.stalled_iff {seen : List (ℕ × UInt64)} {calls : List ℕ} {now : ℕ} {l : Locals}
    (h : Watching seen calls now l) : l.stalled now = true ↔
      StallSeen seen now l.currentHeight ∧ ∀ a ∈ calls, a + advanceCooldownMs ≤ now := by
  have hseen : roundStallMs ≤ now - l.lastHeightChangeAt ↔ StallSeen seen now l.currentHeight := by
    constructor
    · intro hle
      obtain ⟨before, since, hsplit, hall⟩ := h.stretch
      refine ⟨before, _, since, hsplit, hall, ?_⟩
      have := h.past
      have hpos : 0 < roundStallMs := by decide
      omega
    · rintro ⟨before, t₀, since, hsplit, hall, hle⟩
      have := (h.first before t₀ _ since hsplit hall).2
      omega
  have hlast := h.last
  rw [Locals.stalled, Bool.and_eq_true, decide_eq_true_eq, ge_iff_le, hseen]
  refine and_congr_right fun hstall => ?_
  cases hcall : l.lastAdvanceAttemptAt with
  | none =>
    rw [hcall] at hlast
    obtain ⟨before, t₀, since, hsplit, hall, hle⟩ := hstall
    have hbegan := (h.first before t₀ _ since hsplit hall).2
    have hshort : advanceCooldownMs ≤ roundStallMs := by decide
    simp only [true_iff]
    intro a ha
    have : a ≤ l.lastHeightChangeAt := hlast a ha
    omega
  | some t =>
    rw [hcall] at hlast
    obtain ⟨hmem, hmax⟩ := hlast
    have hnow := h.called t hmem
    have hpos : 0 < advanceCooldownMs := by decide
    simp only [decide_eq_true_eq, ge_iff_le]
    constructor
    · intro hcool a ha
      have := hmax a ha
      omega
    · intro hcool
      have := hcool t hmem
      omega

/-- A call is made. -/
theorem Watching.call {seen : List (ℕ × UInt64)} {calls : List ℕ} {now : ℕ} {l : Locals}
    (h : Watching seen calls now l) (hcool : ∀ a ∈ calls, a + advanceCooldownMs ≤ now) :
    Watching seen (calls ++ [now]) now { l with lastAdvanceAttemptAt := some now } where
  stretch := h.stretch
  first := h.first
  past := h.past
  called a ha := by
    rcases List.mem_append.mp ha with ha | ha
    · exact h.called a ha
    · exact (List.mem_singleton.mp ha).le
  last := by
    refine ⟨by simp, fun a ha => ?_⟩
    rcases List.mem_append.mp ha with ha | ha
    · exact h.called a ha
    · exact (List.mem_singleton.mp ha).le
  spaced := by
    refine List.pairwise_append.mpr ⟨h.spaced, by simp, fun a ha b hb => ?_⟩
    rw [List.mem_singleton.mp hb]
    exact hcool a ha

/-- Step lemma: a step other than a fetch sees nothing, calls nothing and keeps the watchdog's locals. -/
theorem SessionStep.unwatched {l : SessionLabel} (h : SessionStep rt k s l s') (hl : l ≠ .fetched) :
    SameWatch s.locals s'.locals ∧ s.now ≤ s'.now := by
  have hresume : ∀ (l : Option Locals) (pc : SessionPc), (∀ l', l = some l' → SameWatch s.locals l') →
      SameWatch s.locals (s.resume l pc).locals ∧ s.now ≤ (s.resume l pc).now := by
    intro l pc hl
    rw [s.resume_now]
    cases l with
    | none => exact ⟨.refl _, le_rfl⟩
    | some l => exact ⟨hl l rfl, le_rfl⟩
  cases h with
  | fetched => exact absurd rfl hl
  | tick => exact ⟨.refl _, Nat.le_add_right _ _⟩
  | refused => exact ⟨.refl _, Nat.le_add_right _ _⟩
  | exhausted => exact hresume _ _ fun l hl => (Locals.exhausted_some hl).1
  | solved => exact hresume _ _ fun l hl => (Locals.solved_some hl).1
  | @mined cfg win env evs w' =>
    unfold Session.mined
    cases hl : s.locals.mined cfg with
    | none => exact ⟨.refl _, le_rfl⟩
    | some l => exact ⟨(Locals.mined_some hl).1, le_rfl⟩
  | elsewhere => exact ⟨.refl _, le_rfl⟩
  | fetchFailed => exact ⟨.refl _, le_rfl⟩
  | advanced => exact ⟨.refl _, le_rfl⟩
  | notAdvanced => exact ⟨.refl _, le_rfl⟩

theorem Locals.observe_height (l : Locals) (now : ℕ) (cfg : EquiumConfig) :
    (l.observe now cfg).currentHeight = cfg.blockHeight := by
  unfold Locals.observe
  split_ifs with hne
  · rfl
  · exact (not_not.mp hne).symm

/-- The head of the loop calls exactly when the watchdog's condition holds of the new locals. -/
theorem Session.fetched_pc (s : Session) (cfg : EquiumConfig) :
    (s.fetched cfg).pc = .advance ↔ (s.locals.observe s.now cfg).stalled s.now = true := by
  unfold Session.fetched
  dsimp only
  split_ifs with h <;> simp [h]

/-- Run lemma: the watchdog's locals are what was seen and called. -/
theorem watching_run {w₀ : World} {now₀ : ℕ} (h : Run (SessionStep rt k) (.start w₀ now₀) tr s) :
    Watching (sightings now₀ tr) (attempts tr) s.now s.locals := by
  refine h.inv (fun tr s => Watching (sightings now₀ tr) (attempts tr) s.now s.locals) ?_ ?_
  · refine ⟨⟨[], [], rfl, by simp⟩, fun before t₀ h' since he _ => ?_, le_rfl, by simp [attempts],
      by simp [Session.start, Locals.init, attempts], .nil⟩
    have hone : before = [] ∧ (t₀, h') = (now₀, UInt64.ofNat (2 ^ 64 - 1)) := by
      cases before with
      | nil => exact ⟨rfl, (List.cons.inj he).1.symm⟩
      | cons x xs => simp [sightings] at he
    obtain ⟨rfl, rfl⟩ := Prod.mk.inj hone.2
    exact ⟨rfl, le_rfl⟩
  · intro tr s l s' _ ih hst
    rw [sightings_concat, attempts_concat]
    by_cases hl : l = .fetched
    · subst hl
      cases hst with
      | @fetched cfg hpc hcfg =>
        have hseen : sightingAt ⟨s, .fetched, s.fetched cfg⟩ = some (s.now, cfg.blockHeight) := by
          simp [sightingAt, hcfg]
        have hobs := ih.observe cfg
        rw [hseen]
        by_cases hcall : (s.locals.observe s.now cfg).stalled s.now = true
        · have hattempt : attemptAt ⟨s, .fetched, s.fetched cfg⟩ = some s.now := by
            simp [attemptAt, (s.fetched_pc cfg).mpr hcall]
          rw [hattempt, Session.fetched, if_pos hcall]
          exact hobs.call ((hobs.stalled_iff).mp hcall).2
        · have hattempt : attemptAt ⟨s, .fetched, s.fetched cfg⟩ = none := by
            simp [attemptAt, mt (s.fetched_pc cfg).mp hcall]
          rw [hattempt, Session.fetched, if_neg hcall]
          simpa using hobs
    · obtain ⟨hsame, hle⟩ := hst.unwatched hl
      have hnone : sightingAt ⟨s, l, s'⟩ = none ∧ attemptAt ⟨s, l, s'⟩ = none := by
        cases l <;> first | exact ⟨rfl, rfl⟩ | exact absurd rfl hl
      rw [hnone.1, hnone.2]
      simpa using ih.later hsame hle

/-- WATCHDOG: over any session, calls of `advance_empty_round` lie at least 30 s apart; and a fetch
    makes a call exactly when its height is what every fetch has shown since one at least 75 s before,
    and no call was made in the last 30 s. -/
theorem watchdog_exact (w₀ : World) (now₀ : ℕ) (tr : Log) (s : Session)
    (h : Run (SessionStep rt k) (.start w₀ now₀) tr s) :
    (attempts tr).Pairwise (fun a b => a + 30000 ≤ b) ∧
      ∀ tr₁ t tr₂, tr = tr₁ ++ t :: tr₂ → t.label = .fetched →
        ∃ cfg, t.pre.world.config = some cfg ∧
          (t.post.pc = .advance ↔
            StallSeen (sightings now₀ (tr₁ ++ [t])) t.pre.now cfg.blockHeight ∧
              ∀ a ∈ attempts tr₁, a + 30000 ≤ t.pre.now) := by
  refine ⟨(watching_run h).spaced, fun tr₁ t tr₂ hcut hl => ?_⟩
  have hwatch := watching_run (hcut ▸ h).before
  obtain ⟨hst, -⟩ := (hcut ▸ h).cut
  obtain ⟨pre, label, post⟩ := t
  dsimp only at hl hst hwatch ⊢
  subst hl
  cases hst with
  | @fetched cfg hpc hcfg =>
    refine ⟨cfg, hcfg, ?_⟩
    have hseen : sightingAt ⟨pre, .fetched, pre.fetched cfg⟩ = some (pre.now, cfg.blockHeight) := by
      simp [sightingAt, hcfg]
    rw [pre.fetched_pc, (hwatch.observe cfg).stalled_iff, Locals.observe_height, sightings_concat,
      hseen]
    rfl

/-- Eighty seconds without a block after the first fetch, the second one makes a call. -/
theorem watchdog_exact_demo : ∃ tr s, Run (SessionStep Landing.runtime Landing.client)
    (.start Landing.snapshot 0) tr s ∧ s.pc = .advance ∧ StallSeen (sightings 0 tr) 80000 0 := by
  open Landing in
  have hfetch : SessionStep runtime client (.start snapshot 0) .fetched
      ⟨snapshot, 0, .solve cfg₀, ⟨0, 0, 0, 0, 0, 0, none⟩⟩ :=
    start_fetched ▸ .fetched rfl snapshot_config
  have hsearch : SessionStep runtime client ⟨snapshot, 0, .solve cfg₀, ⟨0, 0, 0, 0, 0, 0, none⟩⟩
      .exhausted ⟨snapshot, 0, .fetch, ⟨0, 0, 1, 256, 0, 0, none⟩⟩ := .exhausted rfl
  have htick : SessionStep runtime client ⟨snapshot, 0, .fetch, ⟨0, 0, 1, 256, 0, 0, none⟩⟩
      (.tick 80000) ⟨snapshot, 80000, .fetch, ⟨0, 0, 1, 256, 0, 0, none⟩⟩ := .tick
  have hrun := (((Run.nil.snoc hfetch).snoc hsearch).snoc htick).snoc (.fetched rfl snapshot_config)
  have hheight : cfg₀.blockHeight = 0 := by decide +kernel
  have hcall : Locals.stalled (Locals.observe ⟨0, 0, 1, 256, 0, 0, none⟩ 80000 cfg₀) 80000 = true := by
    decide +kernel
  have hpc := (Session.fetched_pc ⟨snapshot, 80000, .fetch, ⟨0, 0, 1, 256, 0, 0, none⟩⟩ cfg₀).mpr hcall
  obtain ⟨-, hexact⟩ := watchdog_exact snapshot 0 _ _ hrun
  obtain ⟨cfg, hcfg, hiff⟩ := hexact _ _ [] rfl rfl
  obtain rfl := Option.some.inj (snapshot_config.symm.trans hcfg)
  refine ⟨_, _, hrun, hpc, ?_⟩
  rw [← hheight]
  exact (hiff.mp hpc).1

end Equium.Miner
