import Equium.Program.Runs
import Equium.Schemes.Chain

/-! @src programs/equium/src/round.rs, instructions/initialize.rs,
    crates/equihash-core/src/challenge.rs | name:Challenge history | scheme:chain

    The challenge is a fold of the closed rounds: each one feeds the previous challenge, a key and a
    slot hash to SHA-256. An empty round feeds the all-zero key, which tells it from every mined round
    as long as nobody can sign with that key. -/

namespace Equium.Program
open Schemes Equium.Core

variable {rt : Runtime}

/-- How a round was closed, and the slot hash its closing read. -/
structure Closing where
  transition : RoundTransition
  slotHash : Bytes32
  deriving DecidableEq

/-- The closing of a successful `mine` or `advance_empty_round`. -/
def closingAt (t : Taken World Action) : Option Closing :=
  match t.label with
  | .ok env (.mine a _ _) _ => (readRecentSlotHash env.slotHashes).toOption.map (⟨.mined a.miner, ·⟩)
  | .ok env (.advanceEmptyRound _) _ => (readRecentSlotHash env.slotHashes).toOption.map (⟨.empty, ·⟩)
  | _ => none

/-- The slot hash of a closing is bytes 16 to 47 of the SlotHashes data its instruction was given. -/
theorem closingAt_slotHash {t : Taken World Action} {r : Closing} (h : closingAt t = some r) :
    ∃ env ix evs data, t.label = .ok env ix evs ∧ env.slotHashes = some data ∧ 48 ≤ data.length ∧
      r.slotHash.toList = (data.drop 16).take 32 := by
  have hread : ∀ (env : Env) (w : RoundTransition),
      (readRecentSlotHash env.slotHashes).toOption.map (Closing.mk w) = some r →
        ∃ data, env.slotHashes = some data ∧ 48 ≤ data.length ∧
          r.slotHash.toList = (data.drop 16).take 32 := by
    intro env w hr
    obtain ⟨e, he, rfl⟩ := Option.map_eq_some_iff.mp hr
    cases hdata : readRecentSlotHash env.slotHashes with
    | error e' =>
      rw [hdata] at he
      cases he
    | ok e' =>
      rw [hdata] at he
      obtain rfl := Option.some.inj he
      obtain ⟨data, henv, hlen, -, hbytes⟩ := readRecentSlotHash_ok.mp hdata
      exact ⟨data, henv, hlen, hbytes⟩
  unfold closingAt at h
  split at h
  · rename_i env a nonce soln evs hl
    obtain ⟨data, hdata⟩ := hread env _ h
    exact ⟨env, _, evs, data, hl, hdata⟩
  · rename_i env a evs hl
    obtain ⟨data, hdata⟩ := hread env _ h
    exact ⟨env, _, evs, data, hl, hdata⟩
  · cases h

/-- The rounds closed over a run, oldest first. -/
def history (tr : Record) : List Closing := tr.filterMap closingAt

/-- The challenge a successful `initialize` writes. -/
def initialChallengeAt (t : Taken World Action) : Option Bytes32 :=
  match t.label with
  | .ok _ (.initializeEquium _ _) _ => t.post.config.map (·.currentChallenge)
  | _ => none

/-- The genesis challenge of a run. -/
def initialChallenge (tr : Record) : Option Bytes32 := tr.findSome? initialChallengeAt

/-- The challenge after one more closed round. -/
def absorb (c : Crates) (challenge : Bytes32) (r : Closing) : Bytes32 :=
  deriveNextChallenge c challenge r.transition.winnerPubkey r.slotHash

/-- The 96 bytes hashed for one closed round. -/
def challengeInput (challenge : Bytes32) (r : Closing) : List UInt8 :=
  challenge.toList ++ r.transition.winnerPubkey.toList ++ r.slotHash.toList

/-- The inputs of SHA-256 along a history. -/
def challengeInputs (c : Crates) (g : Bytes32) (rs : List Closing) : List (List UInt8) :=
  (fed (absorb c) g rs).map fun p => challengeInput p.1 p.2

/-- The stored challenge is the fold of the history, one closing a round, none won by the sentinel. -/
structure Committed (rt : Runtime) (tr : Record) (cfg : EquiumConfig) : Prop where
  height : (history tr).length = cfg.blockHeight.toNat
  winners : ∀ r ∈ history tr, r.transition ≠ .mined defaultKey
  challenge : ∃ g, initialChallenge tr = some g ∧
    cfg.currentChallenge = (history tr).foldl (absorb rt.toCrates) g

/-! ### The hashed bytes -/

/-- The key alone tells how a round was closed, the sentinel apart. -/
theorem winnerPubkey_inj {r s : RoundTransition} (hr : r ≠ .mined defaultKey)
    (hs : s ≠ .mined defaultKey) (h : r.winnerPubkey = s.winnerPubkey) : r = s := by
  cases r with
  | mined a =>
    cases s with
    | mined b => exact congrArg RoundTransition.mined h
    | empty => exact absurd (congrArg RoundTransition.mined h) hr
  | empty =>
    cases s with
    | mined b => exact absurd (congrArg RoundTransition.mined h.symm) hs
    | empty => rfl

/-- Three fields of 32 bytes: the input determines each of them. -/
theorem challengeInput_inj {p q : Bytes32 × Closing} (hp : p.2.transition ≠ .mined defaultKey)
    (hq : q.2.transition ≠ .mined defaultKey)
    (h : challengeInput p.1 p.2 = challengeInput q.1 q.2) : p = q := by
  obtain ⟨c, r, e⟩ := p
  obtain ⟨d, s, k⟩ := q
  obtain ⟨hfront, hhash⟩ := List.append_inj h (by simp)
  obtain ⟨hprev, hkey⟩ := List.append_inj hfront (by simp)
  obtain rfl : c = d := Vector.toList_inj.mp hprev
  obtain rfl : e = k := Vector.toList_inj.mp hhash
  obtain rfl : r = s := winnerPubkey_inj hp hq (Vector.toList_inj.mp hkey)
  rfl

/-! ### The invariant -/

theorem history_concat (tr : Record) (t : Taken World Action) :
    history (tr ++ [t]) = history tr ++ (closingAt t).toList := by
  cases h : closingAt t <;> simp [history, h]

theorem initialChallenge_append {tr : Record} {g : Bytes32} (h : initialChallenge tr = some g)
    (tr' : Record) : initialChallenge (tr ++ tr') = some g := by
  rw [initialChallenge, List.findSome?_append, show tr.findSome? initialChallengeAt = _ from h]
  rfl

/-- A step that closes no round, and keeps the height and the challenge. -/
theorem committed_frame {tr : Record} {t : Taken World Action} {cfg cfg' : EquiumConfig}
    (h : Committed rt tr cfg) (ht : closingAt t = none) (hb : cfg'.blockHeight = cfg.blockHeight)
    (hc : cfg'.currentChallenge = cfg.currentChallenge) : Committed rt (tr ++ [t]) cfg' := by
  obtain ⟨hheight, hwinners, g, hg, hfold⟩ := h
  have hsame : history (tr ++ [t]) = history tr := by simp [history_concat, ht]
  exact ⟨by rw [hsame, hb, hheight], hsame ▸ hwinners,
    g, initialChallenge_append hg [t], by rw [hsame, hc, hfold]⟩

/-- A transition appends one closing and folds it in. -/
theorem committed_advance {tr : Record} {t : Taken World Action} {cfg cfg' : EquiumConfig}
    {env : Env} {r : RoundTransition} (h : Committed rt tr cfg) (hr : r ≠ .mined defaultKey)
    (ht : closingAt t = (readRecentSlotHash env.slotHashes).toOption.map (⟨r, ·⟩))
    (ha : AdvanceOk rt.toCrates cfg env.clock env.slotHashes r cfg') :
    Committed rt (tr ++ [t]) cfg' := by
  obtain ⟨hheight, hwinners, g, hg, hfold⟩ := h
  obtain ⟨e, he, hnext⟩ := ha.entropy
  rw [he] at ht
  have hmore : history (tr ++ [t]) = history tr ++ [⟨r, e⟩] := by rw [history_concat, ht]; rfl
  refine ⟨by rw [hmore, List.length_append, hheight, ha.height]; rfl, ?_,
    g, initialChallenge_append hg [t], ?_⟩
  · intro s hs
    rw [hmore, List.mem_append, List.mem_singleton] at hs
    rcases hs with hs | rfl
    · exact hwinners s hs
    · exact hr
  · rw [hmore, List.foldl_append, ← hfold, hnext]
    rfl

/-- Step lemma: every successful instruction keeps the commitment. -/
theorem committed_step {tr : Record} {env : Env} {w : World} {ix : Ix} {evs : List Event}
    {cfg cfg' : EquiumConfig} {L L' : Ledger} (hzero : rt.canSign defaultKey = false)
    (hsign : rt.canSign ix.signer = true) (h : Committed rt tr cfg)
    (he : Effect rt env L (some cfg) ix cfg' L') :
    Committed rt (tr ++ [⟨w, .ok env ix evs, ⟨some cfg', L'⟩⟩]) cfg' := by
  cases he with
  | fundVault a => exact committed_frame h rfl rfl rfl
  | renounceAdmin a => exact committed_frame h rfl rfl rfl
  | setTarget a t => exact committed_frame h rfl rfl rfl
  | advanceEmptyRound a _ _ hopen hel hadv =>
    exact committed_advance h (fun hc => by cases hc) rfl hadv
  | mine a nonce soln _ _ d cumulative L₁ _ hacc hata hcum hcap htr hadv =>
    have hminer : RoundTransition.mined a.miner ≠ .mined defaultKey := by
      intro hc
      have hkey : a.miner = defaultKey := RoundTransition.mined.inj hc
      rw [show (Ix.mine a nonce soln).signer = a.miner from rfl, hkey, hzero] at hsign
      cases hsign
    have hsame : Committed rt tr { cfg with cumulativeMined := cumulative } :=
      ⟨h.height, h.winners, h.challenge⟩
    exact committed_advance hsame hminer rfl hadv

theorem Quiet.closingAt {l : Action} {L L' : Ledger} (h : Quiet rt l L L') (w w' : World) :
    closingAt ⟨w, l, w'⟩ = none ∧ initialChallengeAt ⟨w, l, w'⟩ = none := by
  cases l with
  | ok env ix evs => exact absurd rfl (h.label env ix evs)
  | err => exact ⟨rfl, rfl⟩
  | outside => exact ⟨rfl, rfl⟩

/-- Run lemma: on every reachable config the challenge is the fold of the history. -/
theorem committed_run (hzero : rt.canSign defaultKey = false) {L₀ : Ledger} {tr : Record}
    {w : World} (h : Run (Step rt) (genesis L₀) tr w) {cfg : EquiumConfig}
    (hw : w.config = some cfg) : Committed rt tr cfg := by
  refine (run_phases (N := fun tr _ => history tr = [] ∧ initialChallenge tr = none)
    (I := fun tr cfg _ => Committed rt tr cfg) ⟨rfl, rfl⟩ ?_ ?_ ?_ ?_ h).2 cfg hw
  · rintro tr l L L' hq ⟨hnil, hnone⟩
    obtain ⟨hc, hi⟩ := hq.closingAt ⟨none, L⟩ ⟨none, L'⟩
    exact ⟨by simp [history_concat, hnil, hc],
      by simp [initialChallenge, List.findSome?_append, hi, show tr.findSome? _ = _ from hnone]⟩
  · rintro tr env ix evs L cfg' L' he ⟨hnil, hnone⟩
    cases he with
    | initializeEquium a args hadmin hvault hfresh =>
      have hhist : history (tr ++ [⟨⟨none, L⟩, .ok env (.initializeEquium a args) evs,
          ⟨some (genesisConfig rt env.clock a args),
            L.set rt.vaultPda ⟨a.mint, rt.configPda, 0⟩⟩⟩]) = [] := by
        rw [history_concat, hnil]
        rfl
      refine ⟨by rw [hhist]; rfl, by simp [hhist], _, ?_, by rw [hhist]; rfl⟩
      simp [initialChallenge, List.findSome?_append, show tr.findSome? _ = _ from hnone,
        initialChallengeAt]
  · intro tr l cfg L L' hq hI
    exact committed_frame hI (hq.closingAt _ _).1 rfl rfl
  · intro tr env ix evs cfg L cfg' L' hsign he hI
    exact committed_step hzero hsign hI he

/-! ### Two runs -/

/-- The inputs of SHA-256 over a run. -/
def hashedInputs (c : Crates) (tr : Record) : List (List UInt8) :=
  ((initialChallenge tr).map fun g => challengeInputs c g (history tr)).getD []

/-- HISTORY COMMITMENT: two runs from one genesis challenge that closed equally many rounds have the
    same challenge iff they closed the same rounds. SHA-256 does not collide on what they hashed. -/
theorem challenge_commits (hzero : rt.canSign defaultKey = false) (L₁ L₂ : Ledger)
    (tr₁ tr₂ : Record) (w₁ w₂ : World) (h₁ : Run (Step rt) (genesis L₁) tr₁ w₁)
    (h₂ : Run (Step rt) (genesis L₂) tr₂ w₂) (cfg₁ cfg₂ : EquiumConfig)
    (hw₁ : w₁.config = some cfg₁) (hw₂ : w₂.config = some cfg₂)
    (hgenesis : initialChallenge tr₁ = initialChallenge tr₂)
    (hheight : cfg₁.blockHeight = cfg₂.blockHeight)
    (hsha : ∀ x ∈ hashedInputs rt.toCrates tr₁, ∀ y ∈ hashedInputs rt.toCrates tr₂,
      rt.sha256 x = rt.sha256 y → x = y) :
    cfg₁.currentChallenge = cfg₂.currentChallenge ↔ history tr₁ = history tr₂ := by
  obtain ⟨hlen₁, hwin₁, g, hg₁, hfold₁⟩ := committed_run hzero h₁ hw₁
  obtain ⟨hlen₂, hwin₂, g', hg₂, hfold₂⟩ := committed_run hzero h₂ hw₂
  obtain rfl : g = g' := Option.some.inj (hg₁.symm.trans (hgenesis.trans hg₂))
  rw [hfold₁, hfold₂]
  constructor
  · intro heq
    refine (foldl_commits (by rw [hlen₁, hlen₂, hheight]) ?_ heq).2
    intro p hp q hq hcoll
    refine challengeInput_inj (hwin₁ _ (fed_mem hp)) (hwin₂ _ (fed_mem hq)) (hsha _ ?_ _ ?_ hcoll)
    · rw [hashedInputs, hg₁]
      exact List.mem_map.mpr ⟨p, hp, rfl⟩
    · rw [hashedInputs, hg₂]
      exact List.mem_map.mpr ⟨q, hq, rfl⟩
  · intro hsame
    rw [hsame]

/-! Two runs of one round on a cluster whose hash keeps bytes 32 to 63 of its input: one is mined,
    one times out. -/

namespace Demo

def hashing : Runtime := { runtime with sha256 := fun bs => Vector.ofFn fun i => bs.getD (32 + i) 0 }

def minedTxs : List (Env × Ix) := txs.take 3

def emptyTxs : List (Env × Ix) := txs.take 2 ++ [(env 156, .advanceEmptyRound ⟨key 30, key 1, key 3⟩)]

end Demo

/-- The mined round and the empty one lead to different challenges. -/
theorem challenge_commits_demo : ∃ tr₁ tr₂ w₁ w₂ cfg₁ cfg₂,
    Run (Step Demo.hashing) (genesis Demo.ledger) tr₁ w₁ ∧ w₁.config = some cfg₁ ∧
    Run (Step Demo.hashing) (genesis Demo.ledger) tr₂ w₂ ∧ w₂.config = some cfg₂ ∧
    cfg₁.blockHeight = 1 ∧ cfg₁.currentChallenge ≠ cfg₂.currentChallenge := by
  have h₁ := record_run Demo.hashing Demo.minedTxs (genesis Demo.ledger)
  have h₂ := record_run Demo.hashing Demo.emptyTxs (genesis Demo.ledger)
  obtain ⟨cfg₁, hw₁, hone₁⟩ := Option.map_eq_some_iff.mp (by decide +kernel :
    (play Demo.hashing (genesis Demo.ledger) Demo.minedTxs).config.map (·.blockHeight) = some 1)
  obtain ⟨cfg₂, hw₂, hone₂⟩ := Option.map_eq_some_iff.mp (by decide +kernel :
    (play Demo.hashing (genesis Demo.ledger) Demo.emptyTxs).config.map (·.blockHeight) = some 1)
  have hiff := challenge_commits (by decide) Demo.ledger Demo.ledger _ _ _ _ h₁ h₂ cfg₁ cfg₂ hw₁ hw₂
    (by decide +kernel) (hone₁.trans hone₂.symm) (by decide +kernel)
  exact ⟨_, _, _, _, cfg₁, cfg₂, h₁, hw₁, h₂, hw₂, hone₁, mt hiff.mp (by decide +kernel)⟩

end Equium.Program
