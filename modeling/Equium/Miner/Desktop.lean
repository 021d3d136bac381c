import Equium.Schemes.Run
import Equium.Schemes.Machine

/-! @src clients/desktop-miner/src-tauri/src/miner.rs, state.rs | name:DesktopMiner |
    scheme:interleaving

    `start_mining`, `stop_mining` and the mining threads over the shared `AppState`. A command that is
    not async runs on the main thread, so commands follow one another; between the lock sections of a
    command, and after it, the mining threads take steps of their own. `stop_mining` returns before
    the thread it stops has noticed, so a new session can start while the old thread is on its way to
    `mark_stopped`, which clears the record whoever it belongs to. -/

namespace Equium.Miner
open Schemes

/-- `MinerStats`. -/
structure MinerStats where
  blocksMined : UInt64
  totalEarnedBase : UInt64
  cumulativeNonces : UInt64
  startedAtUnixMs : Int64
  tryInRound : UInt32
  lastLog : String
deriving DecidableEq, Repr, Inhabited

/-- `MinerStats::default()`. -/
def MinerStats.default : MinerStats := ⟨0, 0, 0, 0, 0, ""⟩

/-- `MinerHandle`; a stop flag is named by a number, and so is the thread it was made for. -/
structure MinerHandle where
  stopFlag : Option ℕ
  stats : MinerStats
  running : Bool
deriving DecidableEq, Repr

/-- `MinerStatusPayload`. -/
structure MinerStatusPayload where
  running : Bool
  stats : MinerStats
deriving DecidableEq, Repr

/-- Where a live mining thread stands: before the loop, at the flag check, in the loop's body, or on
    its way to `mark_stopped` (by the flag, an error or a panic). -/
inductive ThreadPc where
  | starting
  | polling
  | working
  | stopping
deriving DecidableEq, Repr

/-- Where the main thread stands: between commands, or between the lock sections of `start_mining`. -/
inductive MainPc where
  | idle
  | checked
  | recorded (flag : ℕ)
  | spawned
deriving DecidableEq, Repr

/-- The whole program: the part of `AppState` these commands use, the flags that have been set, the
    live threads, the next unused flag, and what the last command returned. -/
structure Desktop where
  unlocked : Bool
  miner : MinerHandle
  flags : ℕ → Bool
  threads : ℕ → Option ThreadPc
  next : ℕ
  main : MainPc
  reply : Option (Except String MinerStatusPayload)

def Desktop.init : Desktop :=
  ⟨false, ⟨none, .default, false⟩, fun _ => false, fun _ => none, 0, .idle, none⟩

/-- `u64::saturating_add`. -/
def saturatingAdd (a b : UInt64) : UInt64 :=
  if a.toNat + b.toNat < 2 ^ 64 then a + b else UInt64.ofNat (2 ^ 64 - 1)

/-- The decimal digits of `n`, left-padded with zeros to six. -/
def sixDigits (n : ℕ) : List Char :=
  List.replicate (6 - (toString n).length) '0' ++ (toString n).toList

/-- `format_base`. -/
def formatBase (base : UInt64) : String :=
  let whole := base.toNat / 1000000
  let frac := base.toNat % 1000000
  if frac = 0 then toString whole
  else String.ofList
    (((toString whole).toList ++ '.' :: sixDigits frac).reverse.dropWhile (· == '0')).reverse

/-- What one step of a mining thread does. -/
inductive ThreadAct where
  /-- keypair and config are read, the loop begins -/
  | ready
  /-- the check at the head of the loop -/
  | poll
  /-- an iteration ends in `continue` -/
  | again
  /-- the statistics after a solve -/
  | attempt (tryInRound : UInt32) (totalNonces : UInt64)
  /-- the statistics after a successful submission -/
  | mined (height reward : UInt64)
  /-- `sleep_or_stop` sees the flag -/
  | woken
  /-- an early return, or a panic caught by the closure -/
  | fail
  /-- `mark_stopped`, the last step of the thread -/
  | markStopped
deriving DecidableEq, Repr

inductive DesktopAct where
  | setUnlocked (unlocked : Bool)
  | startCheck
  | startRecord (nowUnixMs : Int64)
  | startSpawn (ok : Bool) (error : String)
  | startReply
  | stop
  | thread (flag : ℕ) (act : ThreadAct)
deriving DecidableEq, Repr

/-- The first lock section of `start_mining`. -/
def Desktop.startMiningCheck (s : Desktop) : Desktop :=
  if s.miner.running then { s with reply := some (.error "miner already running") }
  else if s.unlocked = false then { s with reply := some (.error "wallet is locked") }
  else { s with main := .checked }

/-- The second lock section: a new flag, new statistics, and the session is recorded as running. -/
def Desktop.startMiningRecord (s : Desktop) (nowUnixMs : Int64) : Desktop :=
  { s with
    miner := ⟨some s.next, { MinerStats.default with startedAtUnixMs := nowUnixMs }, true⟩
    next := s.next + 1
    main := .recorded s.next }

/-- `Builder::spawn`: on failure the command returns the error and leaves the record as it is. -/
def Desktop.startMiningSpawn (s : Desktop) (flag : ℕ) (ok : Bool) (error : String) : Desktop :=
  if ok then
    { s with threads := Function.update s.threads flag (some .starting), main := .spawned }
  else
    { s with main := .idle, reply := some (.error ("failed to spawn miner thread: " ++ error)) }

/-- `stop_mining`. -/
def Desktop.stopMining (s : Desktop) : Desktop :=
  { s with
    flags := match s.miner.stopFlag with
      | some flag => Function.update s.flags flag true
      | none => s.flags
    miner := { s.miner with stopFlag := none, running := false }
    reply := some (.ok ⟨false, s.miner.stats⟩) }

/-- `mark_stopped`. -/
def markStopped (m : MinerHandle) : MinerHandle := { m with running := false, stopFlag := none }

/-- A thread moves. -/
def Desktop.goto (s : Desktop) (flag : ℕ) (pc : ThreadPc) : Desktop :=
  { s with threads := Function.update s.threads flag (some pc) }

/-- One step of the thread that polls `flag`. -/
def Desktop.threadStep (s : Desktop) (flag : ℕ) : ThreadAct → Option Desktop
  | .ready => if s.threads flag = some .starting then some (s.goto flag .polling) else none
  | .poll =>
    if s.threads flag = some .polling then
      some (s.goto flag (if s.flags flag then .stopping else .working))
    else none
  | .again => if s.threads flag = some .working then some (s.goto flag .polling) else none
  | .attempt tryInRound totalNonces =>
    if s.threads flag = some .working then
      let stats := { s.miner.stats with
        tryInRound := tryInRound, cumulativeNonces := totalNonces }
      some { s with miner := { s.miner with stats := stats } }
    else none
  | .mined height reward =>
    if s.threads flag = some .working then
      let stats := { s.miner.stats with
        blocksMined := saturatingAdd s.miner.stats.blocksMined 1
        totalEarnedBase := saturatingAdd s.miner.stats.totalEarnedBase reward
        lastLog := "mined #" ++ toString height.toNat ++ " (+" ++ formatBase reward ++ " EQM)" }
      some { s with miner := { s.miner with stats := stats } }
    else none
  | .woken =>
    if s.threads flag = some .working ∧ s.flags flag = true then some (s.goto flag .stopping)
    else none
  | .fail =>
    if s.threads flag ≠ none then some (s.goto flag .stopping) else none
  | .markStopped =>
    if s.threads flag = some .stopping then
      some { s with
        miner := markStopped s.miner, threads := Function.update s.threads flag none }
    else none

def Desktop.step (s : Desktop) : DesktopAct → Option Desktop
  | .setUnlocked unlocked => some { s with unlocked := unlocked }
  | .startCheck => if s.main = .idle then some s.startMiningCheck else none
  | .startRecord now => if s.main = .checked then some (s.startMiningRecord now) else none
  | .startSpawn ok error =>
    match s.main with
    | .recorded flag => some (s.startMiningSpawn flag ok error)
    | _ => none
  | .startReply =>
    if s.main = .spawned then
      some { s with main := .idle, reply := some (.ok ⟨true, s.miner.stats⟩) }
    else none
  | .stop => if s.main = .idle then some s.stopMining else none
  | .thread flag act => s.threadStep flag act

/-- Every interleaving of commands and thread steps. -/
def Desktop.Step (s : Desktop) (a : DesktopAct) (s' : Desktop) : Prop := s.step a = some s'

/-! ### What is asked of a session -/

/-- A live thread that has not been told to stop. -/
def Desktop.Active (s : Desktop) (flag : ℕ) : Prop :=
  s.threads flag ≠ none ∧ s.flags flag = false

instance (s : Desktop) (flag : ℕ) : Decidable (s.Active flag) :=
  inferInstanceAs (Decidable (_ ∧ _))

/-- At most one thread is active, the record says so, and it holds that thread's flag. -/
structure Desktop.Integrity (s : Desktop) : Prop where
  unique : ∀ a b, s.Active a → s.Active b → a = b
  running : s.miner.running = true ↔ ∃ a, s.Active a
  stopFlag : ∀ a, s.Active a → s.miner.stopFlag = some a

/-- This step is the exit of a thread that had already been told to stop. -/
def LateExit (t : Taken Desktop DesktopAct) : Prop :=
  ∃ flag, t.label = .thread flag .markStopped ∧ t.pre.flags flag = true

/-- The condition on a step: spawning succeeds, and `mark_stopped` finds no flag recorded or the flag
    of its own thread. -/
def DesktopAct.undisturbed (stopFlag : Option ℕ) : DesktopAct → Bool
  | .startSpawn ok _ => ok
  | .thread flag .markStopped => stopFlag == none || stopFlag == some flag
  | _ => true

def Undisturbed (t : Taken Desktop DesktopAct) : Prop :=
  t.label.undisturbed t.pre.miner.stopFlag = true

instance (t : Taken Desktop DesktopAct) : Decidable (Undisturbed t) :=
  inferInstanceAs (Decidable (_ = true))

/-! ### The invariant -/

/-- The recorded flag, if any, is that of the only active thread, or of the one about to start. -/
structure Sessions (s : Desktop) : Prop where
  fresh : ∀ a, s.threads a ≠ none ∨ s.flags a = true ∨ s.miner.stopFlag = some a → a < s.next
  owner : ∀ a, s.Active a → s.miner.stopFlag = some a
  running : s.miner.running = true ↔ s.miner.stopFlag ≠ none
  unset : ∀ a, s.miner.stopFlag = some a → s.flags a = false
  live : ∀ a, s.miner.stopFlag = some a → s.threads a ≠ none ∨ s.main = .recorded a
  checked : s.main = .checked → s.miner.stopFlag = none
  recorded : ∀ a, s.main = .recorded a → s.miner.stopFlag = some a ∧ s.threads a = none

theorem Sessions.init : Sessions .init where
  fresh := by simp [Desktop.init]
  owner := by simp [Desktop.Active, Desktop.init]
  running := by simp [Desktop.init]
  unset := by simp [Desktop.init]
  live := by simp [Desktop.init]
  checked := by simp [Desktop.init]
  recorded := by simp [Desktop.init]

/-- Between commands the invariant is the property. -/
theorem Sessions.integrity {s : Desktop} (h : Sessions s) (hi : ∀ a, s.main ≠ .recorded a) :
    s.Integrity where
  unique := fun a b ha hb => Option.some.inj ((h.owner a ha).symm.trans (h.owner b hb))
  running := by
    rw [h.running, Option.ne_none_iff_exists']
    constructor
    · rintro ⟨a, ha⟩
      exact ⟨a, (h.live a ha).resolve_right (hi a), h.unset a ha⟩
    · rintro ⟨a, ha⟩
      exact ⟨a, h.owner a ha⟩
  stopFlag := h.owner

/-- A live thread that stays live, with the record's session fields unchanged. -/
theorem Sessions.goto {s : Desktop} (h : Sessions s) {flag : ℕ} (pc : ThreadPc)
    (hlive : s.threads flag ≠ none) : Sessions (s.goto flag pc) := by
  have hth : ∀ a, (s.goto flag pc).threads a ≠ none ↔ s.threads a ≠ none := by
    intro a
    by_cases ha : a = flag
    · subst ha; simp [Desktop.goto, hlive]
    · simp [Desktop.goto, ha]
  exact {
    fresh := fun a ha => h.fresh a (by rwa [hth] at ha)
    owner := fun a ha => h.owner a ⟨(hth a).mp ha.1, ha.2⟩
    running := h.running
    unset := h.unset
    live := fun a ha => by rw [hth]; exact h.live a ha
    checked := h.checked
    recorded := by
      intro a hm
      obtain ⟨hs, hn⟩ := h.recorded a hm
      exact ⟨hs, by_contra fun hc => (hth a).mp hc hn⟩ }

/-- Statistics are no part of the session. -/
theorem Sessions.stats {s : Desktop} (h : Sessions s) (stats : MinerStats) :
    Sessions { s with miner := { s.miner with stats := stats } } :=
  ⟨h.fresh, h.owner, h.running, h.unset, h.live, h.checked, h.recorded⟩

/-- Where no flag is recorded, `mark_stopped` changes nothing. -/
theorem Sessions.markStopped_none {s : Desktop} (h : Sessions s) (hn : s.miner.stopFlag = none) :
    markStopped s.miner = s.miner := by
  have hrun : s.miner.running = false := by
    cases hr : s.miner.running with
    | false => rfl
    | true => exact absurd hn (h.running.mp hr)
  unfold markStopped
  rw [← hn, ← hrun]

/-- The last step of a thread under the condition: it removes its own record or none. -/
theorem Sessions.exit {s : Desktop} (h : Sessions s) {flag : ℕ}
    (hlive : s.threads flag = some .stopping)
    (hcond : s.miner.stopFlag = none ∨ s.miner.stopFlag = some flag) :
    Sessions { s with
      miner := markStopped s.miner, threads := Function.update s.threads flag none } := by
  have hth : ∀ a, Function.update s.threads flag none a ≠ none → a ≠ flag ∧ s.threads a ≠ none := by
    intro a ha
    by_cases haf : a = flag
    · subst haf; simp at ha
    · exact ⟨haf, by simpa [haf] using ha⟩
  have hrec : ∀ a, s.main ≠ .recorded a := by
    intro a hm
    obtain ⟨hs, hn⟩ := h.recorded a hm
    rcases hcond with hc | hc
    · rw [hc] at hs; cases hs
    · rw [hc] at hs
      cases hs
      rw [hlive] at hn
      cases hn
  exact {
    fresh := by
      rintro a (ha | ha | ha)
      · exact h.fresh a (.inl (hth a ha).2)
      · exact h.fresh a (.inr (.inl ha))
      · cases ha
    owner := by
      rintro a ⟨ha, hf⟩
      obtain ⟨hne, ha⟩ := hth a ha
      have hown := h.owner a ⟨ha, hf⟩
      rcases hcond with hc | hc
      · rw [hc] at hown; cases hown
      · exact absurd (Option.some.inj (hown.symm.trans hc)) hne
    running := by simp [markStopped]
    unset := by simp [markStopped]
    live := by simp [markStopped]
    checked := fun _ => rfl
    recorded := fun a hm => absurd hm (hrec a) }

theorem Sessions.thread {s s' : Desktop} (h : Sessions s) {flag : ℕ} {act : ThreadAct}
    (hst : s.threadStep flag act = some s')
    (hcond : act = .markStopped → s.miner.stopFlag = none ∨ s.miner.stopFlag = some flag) :
    Sessions s' := by
  cases act with
  | ready | poll | again =>
    obtain ⟨hc, ⟨⟩⟩ := Option.ite_none_right_eq_some.mp hst
    exact h.goto _ (by simp [hc])
  | attempt | mined =>
    obtain ⟨-, ⟨⟩⟩ := Option.ite_none_right_eq_some.mp hst
    exact h.stats _
  | woken =>
    obtain ⟨hc, ⟨⟩⟩ := Option.ite_none_right_eq_some.mp hst
    exact h.goto _ (by simp [hc.1])
  | fail =>
    obtain ⟨hc, ⟨⟩⟩ := Option.ite_none_right_eq_some.mp hst
    exact h.goto _ hc
  | markStopped =>
    obtain ⟨hc, ⟨⟩⟩ := Option.ite_none_right_eq_some.mp hst
    exact h.exit hc (hcond rfl)

theorem Sessions.startRecord {s : Desktop} (h : Sessions s) (hm : s.main = .checked) (now : Int64) :
    Sessions (s.startMiningRecord now) := by
  have hn := h.checked hm
  have hnext : s.threads s.next = none ∧ s.flags s.next = false := by
    constructor
    · by_contra hc
      exact lt_irrefl _ (h.fresh s.next (.inl hc))
    · by_contra hc
      exact lt_irrefl _ (h.fresh s.next (.inr (.inl (by simpa using hc))))
  exact {
    fresh := by
      rintro a (ha | ha | ha)
      · exact Nat.lt_succ_of_lt (h.fresh a (.inl ha))
      · exact Nat.lt_succ_of_lt (h.fresh a (.inr (.inl ha)))
      · cases ha; exact Nat.lt_succ_self _
    owner := fun a ha => absurd (h.owner a ha) (by simp [hn])
    running := by simp [Desktop.startMiningRecord]
    unset := by
      intro a ha
      cases ha
      exact hnext.2
    live := by
      intro a ha
      cases ha
      exact .inr rfl
    checked := by simp [Desktop.startMiningRecord]
    recorded := by
      intro a ha
      cases ha
      exact ⟨rfl, hnext.1⟩ }

theorem Sessions.startSpawn {s : Desktop} (h : Sessions s) {flag : ℕ}
    (hm : s.main = .recorded flag) (error : String) :
    Sessions (s.startMiningSpawn flag true error) := by
  obtain ⟨hs, hn⟩ := h.recorded flag hm
  have hth : ∀ a, a ≠ flag → Function.update s.threads flag (some .starting) a = s.threads a :=
    fun a ha => Function.update_of_ne ha _ _
  exact {
    fresh := by
      intro a ha
      by_cases haf : a = flag
      · subst haf; exact h.fresh a (.inr (.inr hs))
      · rw [show (s.startMiningSpawn flag true error).threads a = s.threads a from hth a haf] at ha
        exact h.fresh a ha
    owner := by
      rintro a ⟨ha, hf⟩
      by_cases haf : a = flag
      · subst haf; exact hs
      · rw [show (s.startMiningSpawn flag true error).threads a = s.threads a from hth a haf] at ha
        exact h.owner a ⟨ha, hf⟩
    running := h.running
    unset := h.unset
    live := by
      intro a ha
      have haf : flag = a := Option.some.inj (hs.symm.trans ha)
      subst haf
      exact .inl (by simp [Desktop.startMiningSpawn])
    checked := by simp [Desktop.startMiningSpawn]
    recorded := by simp [Desktop.startMiningSpawn] }

theorem Sessions.stop {s : Desktop} (h : Sessions s) (hm : s.main = .idle) :
    Sessions s.stopMining := by
  have hact : ∀ a, ¬ s.stopMining.Active a := by
    rintro a ⟨ha, hf⟩
    cases hs : s.miner.stopFlag with
    | none =>
      have hf' : s.flags a = false := by simpa [Desktop.stopMining, hs] using hf
      have := h.owner a ⟨ha, hf'⟩
      rw [hs] at this
      cases this
    | some flag =>
      by_cases haf : a = flag
      · subst haf; simp [Desktop.stopMining, hs] at hf
      · have hf' : s.flags a = false := by simpa [Desktop.stopMining, hs, haf] using hf
        have := h.owner a ⟨ha, hf'⟩
        rw [hs] at this
        exact haf (Option.some.inj this).symm
  exact {
    fresh := by
      rintro a (ha | ha | ha)
      · exact h.fresh a (.inl ha)
      · cases hs : s.miner.stopFlag with
        | none => exact h.fresh a (.inr (.inl (by simpa [Desktop.stopMining, hs] using ha)))
        | some flag =>
          by_cases haf : a = flag
          · subst haf; exact h.fresh a (.inr (.inr hs))
          · exact h.fresh a (.inr (.inl (by simpa [Desktop.stopMining, hs, haf] using ha)))
      · cases ha
    owner := fun a ha => absurd ha (hact a)
    running := by simp [Desktop.stopMining]
    unset := by simp [Desktop.stopMining]
    live := by simp [Desktop.stopMining]
    checked := fun _ => rfl
    recorded := fun a ha => by simp [Desktop.stopMining, hm] at ha }

theorem undisturbed_exit {s s' : Desktop} {flag : ℕ}
    (hu : Undisturbed ⟨s, .thread flag .markStopped, s'⟩) :
    s.miner.stopFlag = none ∨ s.miner.stopFlag = some flag := by
  simpa [Undisturbed, DesktopAct.undisturbed] using hu

/-- Step lemma: undisturbed steps keep the invariant. -/
theorem Sessions.step {s s' : Desktop} {a : DesktopAct} (h : Sessions s) (hst : s.Step a s')
    (hu : Undisturbed ⟨s, a, s'⟩) : Sessions s' := by
  unfold Desktop.Step at hst
  cases a with
  | setUnlocked u =>
    cases hst
    exact ⟨h.fresh, h.owner, h.running, h.unset, h.live, h.checked, h.recorded⟩
  | startCheck =>
    simp only [Desktop.step] at hst
    split_ifs at hst with hm
    cases hst
    unfold Desktop.startMiningCheck
    split_ifs with hr hu
    · exact ⟨h.fresh, h.owner, h.running, h.unset, h.live, h.checked, h.recorded⟩
    · exact ⟨h.fresh, h.owner, h.running, h.unset, h.live, h.checked, h.recorded⟩
    · refine ⟨h.fresh, h.owner, h.running, h.unset, fun a ha => ?_, fun _ => ?_, by simp⟩
      · exact .inl ((h.live a ha).resolve_right (by simp [hm]))
      · exact not_not.mp (mt h.running.mpr hr)
  | startRecord now =>
    simp only [Desktop.step] at hst
    split_ifs at hst with hm
    cases hst
    exact h.startRecord hm now
  | startSpawn ok error =>
    simp only [Desktop.step] at hst
    split at hst <;> cases hst
    have hok : ok = true := hu
    subst hok
    exact h.startSpawn ‹_› error
  | startReply =>
    simp only [Desktop.step] at hst
    split_ifs at hst with hm
    cases hst
    refine ⟨h.fresh, h.owner, h.running, h.unset, fun a ha => ?_, by simp, by simp⟩
    exact .inl ((h.live a ha).resolve_right (by simp [hm]))
  | stop =>
    simp only [Desktop.step] at hst
    split_ifs at hst with hm
    cases hst
    exact h.stop hm
  | thread flag act => exact h.thread hst fun ha => by subst ha; exact undisturbed_exit hu

/-- A late exit in a state of the invariant finds no flag recorded, so it changes nothing. -/
theorem Sessions.lateExit {s s' : Desktop} {a : DesktopAct} (h : Sessions s) (hst : s.Step a s')
    (hu : Undisturbed ⟨s, a, s'⟩) (hl : LateExit ⟨s, a, s'⟩) : s'.miner = s.miner := by
  obtain ⟨flag, ha, hf⟩ := hl
  dsimp only at ha hf
  subst ha
  have hn : s.miner.stopFlag = none := by
    refine (undisturbed_exit hu).resolve_right fun hs => ?_
    rw [h.unset flag hs] at hf
    cases hf
  simp only [Desktop.Step, Desktop.step, Desktop.threadStep] at hst
  split_ifs at hst
  cases hst
  exact h.markStopped_none hn

/-- START/STOP INTEGRITY: in a run in which spawning succeeds and every `mark_stopped` finds no flag
    recorded or its own, in every state between commands at most one thread is active, the record says
    whether one is, and holds its flag; and the exit of a stopped thread leaves the record alone. -/
theorem session_integrity (tr : List (Taken Desktop DesktopAct)) (s : Desktop)
    (h : Run Desktop.Step .init tr s) (hu : ∀ t ∈ tr, Undisturbed t) :
    (s.main = .idle → s.Integrity) ∧ ∀ t ∈ tr, LateExit t → t.post.miner = t.pre.miner := by
  have hrun := h.inv (fun tr s => (∀ t ∈ tr, Undisturbed t) →
    Sessions s ∧ ∀ t ∈ tr, LateExit t → t.post.miner = t.pre.miner)
    (fun _ => ⟨.init, by simp⟩) fun tr s a s' _ ih hst hu => by
      have hlast : Undisturbed ⟨s, a, s'⟩ := hu _ (by simp)
      obtain ⟨hs, hold⟩ := ih fun t ht => hu t (List.mem_append_left _ ht)
      refine ⟨hs.step hst hlast, fun t ht hl => ?_⟩
      rcases List.mem_append.mp ht with ht | ht
      · exact hold t ht hl
      · rw [List.mem_singleton] at ht
        subst ht
        exact hs.lateExit hst hlast hl
  obtain ⟨hs, hlate⟩ := hrun hu
  exact ⟨fun hi => hs.integrity (by simp [hi]), hlate⟩

/-- What the condition excludes does break the property: from a sound state between commands, an exit
    that finds another thread's flag leaves that thread running with no record of it. -/
theorem disturbed_exit_breaks {s s' : Desktop} {flag : ℕ} (h : s.Integrity)
    (hst : s.Step (.thread flag .markStopped) s') (hact : ∃ a, s.Active a)
    (hu : ¬ Undisturbed ⟨s, .thread flag .markStopped, s'⟩) : ¬ s'.Integrity := by
  intro hi
  obtain ⟨a, ha⟩ := hact
  obtain ⟨hc, ⟨⟩⟩ := Option.ite_none_right_eq_some.mp hst
  have hne : a ≠ flag := by
    rintro rfl
    exact hu (by simp [Undisturbed, DesktopAct.undisturbed, h.stopFlag a ha])
  have hact' : Desktop.Active { s with
      miner := markStopped s.miner, threads := Function.update s.threads flag none } a :=
    ⟨by simpa [hne] using ha.1, ha.2⟩
  cases hi.stopFlag a hact'

/-- The other exclusion: a failed spawn leaves a session on record that no thread serves. -/
theorem spawn_failure_breaks {s s' : Desktop} {error : String} (h : Sessions s)
    (hst : s.Step (.startSpawn false error) s') : s'.main = .idle ∧ ¬ s'.Integrity := by
  simp only [Desktop.Step, Desktop.step] at hst
  split at hst <;> cases hst
  case h_1 flag hm =>
    obtain ⟨hs, hn⟩ := h.recorded flag hm
    refine ⟨rfl, fun hi => ?_⟩
    obtain ⟨a, hlive, hf⟩ := hi.running.mp (h.running.mpr (by simp [hs]))
    have ha := h.owner a ⟨hlive, hf⟩
    rw [hs] at ha
    cases ha
    exact hlive hn

/-- Run a list of acts and record the steps. -/
def Desktop.play : Desktop → List DesktopAct → Option (List (Taken Desktop DesktopAct) × Desktop)
  | s, [] => some ([], s)
  | s, a :: as =>
    match s.step a with
    | none => none
    | some s' => (Desktop.play s' as).map fun (tr, e) => (⟨s, a, s'⟩ :: tr, e)

theorem Desktop.play_run : ∀ (as : List DesktopAct) (s e : Desktop)
    (tr : List (Taken Desktop DesktopAct)), s.play as = some (tr, e) → Run Desktop.Step s tr e
  | [], s, e, tr, h => by cases h; exact .nil
  | a :: as, s, e, tr, h => by
    simp only [Desktop.play] at h
    split at h
    case h_1 => cases h
    case h_2 s' hs =>
      obtain ⟨⟨tr', e'⟩, hp, heq⟩ := Option.map_eq_some_iff.mp h
      cases heq
      exact (Run.nil.snoc hs).append (Desktop.play_run as s' _ tr' hp)

/-- A session is started. -/
def startActs : List DesktopAct := [.startCheck, .startRecord 0, .startSpawn true "", .startReply]

/-- The thread of session 0 notices its flag and leaves. -/
def exitActs : List DesktopAct :=
  [.thread 0 .ready, .thread 0 .poll, .thread 0 .markStopped]

/-- Start, stop, the thread leaves, start again: two sessions that do not overlap. -/
theorem session_integrity_demo : ∃ tr s, Run Desktop.Step .init tr s ∧ s.Integrity ∧ s.Active 1 := by
  let acts := .setUnlocked true :: startActs ++ [.stop] ++ exitActs ++ startActs
  obtain ⟨⟨tr, s⟩, hp⟩ := Option.isSome_iff_exists.mp
    (show (Desktop.init.play acts).isSome by decide +kernel)
  have hu : ((Desktop.init.play acts).all fun p => decide ((∀ t ∈ p.1, Undisturbed t) ∧
      p.2.main = .idle ∧ p.2.Active 1)) = true := by decide +kernel
  rw [hp, Option.all_some, decide_eq_true_eq] at hu
  have hr := Desktop.play_run acts _ _ _ hp
  exact ⟨tr, s, hr, (session_integrity tr s hr hu.1).1 hu.2.1, hu.2.2⟩

/-- Start, stop, start, and only then the first thread leaves: every spawn succeeds, the second thread
    runs with its flag unset, and the record says that nothing runs. -/
theorem late_exit_erases_session : ¬ ∀ tr s, Run Desktop.Step .init tr s →
    (s.main = .idle → s.Integrity) ∧ ∀ t ∈ tr, LateExit t → t.post.miner = t.pre.miner := by
  intro hall
  let acts := .setUnlocked true :: startActs ++ [.stop] ++ startActs ++ exitActs
  obtain ⟨⟨tr, s⟩, hp⟩ := Option.isSome_iff_exists.mp
    (show (Desktop.init.play acts).isSome by decide +kernel)
  have hfacts : ((Desktop.init.play acts).all fun p => decide
      (p.2.main = .idle ∧ p.2.Active 1 ∧ p.2.miner.running = false)) = true := by decide +kernel
  rw [hp, Option.all_some, decide_eq_true_eq] at hfacts
  obtain ⟨hidle, hact, hrun⟩ := hfacts
  have hint := (hall tr s (Desktop.play_run acts _ _ _ hp)).1 hidle
  have := hint.running.mpr ⟨1, hact⟩
  rw [hrun] at this
  cases this

end Equium.Miner
