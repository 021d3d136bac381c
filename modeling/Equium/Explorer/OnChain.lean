import Equium.Explorer.LastSeen
import Equium.Explorer.LogLine
import Equium.Explorer.Recovery
import Equium.Program.EmptyRounds
import Equium.Schemes.Groups
import Equium.Schemes.Project
import Equium.Schemes.Radix

/-! @src programs/equium/src/instructions, scripts/indexer.ts | name:The chain behind the index |
    scheme:program, history and indexer

    The program executes, the runtime lists what it executed, and the indexer counts from the listing.
    A transaction holds one instruction of the program, as the clients build it. The listing also shows
    transactions of other programs that merely name this one, with whatever they log.

        execute ──▶ World
           │ logs
           ▼
        history ──▶ indexer ──▶ Redis
           ▲
        other programs -/

namespace Equium.Explorer
open Schemes Equium.Core
open Program (Pubkey Env Ix World Record EquiumConfig Ledger)

/-! ### What the program logs -/

section
variable (base58 : Pubkey → String)

/-- The `msg!` of an instruction that succeeded, from the config before and after. -/
def message (clock : Program.Clock) : Ix → Option EquiumConfig → Option EquiumConfig → Option String
  | .initializeEquium a _, _, some cfg' =>
    some ("equium: initialized at slot " ++ toString cfg'.genesisSlot.toNat ++ " (mint " ++
      base58 a.mint ++ ", vault " ++ base58 a.mineableVault ++ "); mining_open=false")
  | .fundVault _, _, _ =>
    some ("equium: vault funded with " ++ toString Program.mineableBase.toNat ++
      " base units; mining_open=true at slot " ++ toString clock.slot.toNat)
  | .mine a _ _, some cfg, some cfg' =>
    some (minedMessage (cfg'.blockHeight - 1).toNat (base58 a.miner) cfg.currentEpochReward.toNat)
  | .advanceEmptyRound _, some cfg, _ =>
    some ("equium: empty-advance from height " ++ toString cfg.blockHeight.toNat ++ " (" ++
      toString (clock.slot - cfg.currentRoundOpenSlot).toNat ++ " slots elapsed)")
  | .setTarget _ _, _, _ => some "equium: target updated by admin"
  | _, _, _ => none

/-- A transaction of the program that succeeded, as the node lists it: the lines of the runtime and of
    the programs it calls stand around the program's own. -/
structure Logged (t : Transaction) (env : Env) (ix : Ix) (w w' : World) (before after : List String) :
    Prop where
  ok : t.err = false
  logs : t.logMessages = some (before ++
    ((message base58 env.clock ix w.config w'.config).map programLog).toList ++ after)

/-! ### The system -/

/-- The program's accounts, and the history with its indexer. -/
structure Net where
  world : World
  sys : Sys

inductive NetLabel where
  | executed (env : Env) (ix : Ix) (evs : List Program.Event) (before after : List String)
      (t : Transaction)
  | failed (env : Env) (ix : Ix) (e : Program.Error) (t : Transaction)
  /-- token activity that does not name the program -/
  | outside (deposit : ℕ)
  /-- a transaction that names the program without calling it -/
  | foreign (t : Transaction)
  | index (a : Action)

/-- A signature that is not in the history. -/
def Fresh (s : Sys) (t : Transaction) : Prop := ((s.chain ++ [t]).map (·.signature)).Nodup

/-- The history grows by one transaction. -/
def Sys.arrive (s : Sys) (t : Transaction) : Sys := { s with chain := s.chain ++ [t] }

inductive NetStep (rt : Program.Runtime) (batch : BatchSize) : Net → NetLabel → Net → Prop
  | executed {s : Net} {env : Env} {ix : Ix} {evs : List Program.Event} {w' : World}
      {before after : List String} {t : Transaction}
      (hx : Program.execute rt env s.world ix = .ok (w', evs))
      (hlog : Logged base58 t env ix s.world w' before after) (hnew : Fresh s.sys t) :
      NetStep rt batch s (.executed env ix evs before after t) ⟨w', s.sys.arrive t⟩
  | failed {s : Net} {env : Env} {ix : Ix} {e : Program.Error} {t : Transaction}
      (hx : Program.execute rt env s.world ix = .error e) (herr : t.err = true)
      (hnew : Fresh s.sys t) : NetStep rt batch s (.failed env ix e t) ⟨s.world, s.sys.arrive t⟩
  | outside {s : Net} {L' : Ledger} {d : ℕ}
      (ho : Program.Outside rt.vaultPda s.world.ledger L' d) :
      NetStep rt batch s (.outside d) ⟨⟨s.world.config, L'⟩, s.sys⟩
  | foreign {s : Net} {t : Transaction} (hnew : Fresh s.sys t) :
      NetStep rt batch s (.foreign t) ⟨s.world, s.sys.arrive t⟩
  | index {s : Net} {a : Action} {sys' : Sys} (h : Step batch s.sys a sys')
      (hown : ∀ txs, a ≠ .arrive txs) : NetStep rt batch s (.index a) ⟨s.world, sys'⟩

end

abbrev NetRecord := List (Taken Net NetLabel)

/-- The program's part of a step. -/
def programStep (t : Taken Net NetLabel) : Option (Taken World Program.Action) :=
  match t.label with
  | .executed env ix evs _ _ _ => some ⟨t.pre.world, .ok env ix evs, t.post.world⟩
  | .failed env ix e _ => some ⟨t.pre.world, .err env ix e, t.post.world⟩
  | .outside d => some ⟨t.pre.world, .outside d, t.post.world⟩
  | _ => none

/-- The indexer's part of a step. -/
def indexerStep (t : Taken Net NetLabel) : Option (Taken Sys Action) :=
  match t.label with
  | .executed _ _ _ _ _ x => some ⟨t.pre.sys, .arrive [x], t.post.sys⟩
  | .failed _ _ _ x => some ⟨t.pre.sys, .arrive [x], t.post.sys⟩
  | .foreign x => some ⟨t.pre.sys, .arrive [x], t.post.sys⟩
  | .index a => some ⟨t.pre.sys, a, t.post.sys⟩
  | .outside _ => none

/-- What the program did. -/
def programOf (tr : NetRecord) : Record := tr.filterMap programStep

/-- What the indexer saw and did. -/
def indexerOf (tr : NetRecord) : List (Taken Sys Action) := tr.filterMap indexerStep

variable {base58 : Pubkey → String} {rt : Program.Runtime} {batch : BatchSize} {s : Net} {tr : NetRecord}

/-- PROJECTION: the program's part of a run is a run of the program. -/
theorem program_run {s₀ : Net} (h : Run (NetStep base58 rt batch) s₀ tr s) :
    Run (Program.Step rt) s₀.world (programOf tr) s.world := by
  refine h.project (·.world) programStep fun s l s' hst => ?_
  cases hst with
  | executed hx => exact .moves _ rfl (.ok hx)
  | failed hx => exact .moves _ rfl (.err hx)
  | outside ho => exact .moves _ rfl (.outside ho)
  | foreign => exact .stutters rfl rfl
  | index => exact .stutters rfl rfl

/-- The indexer's part is a run of the indexer. -/
theorem indexer_run {s₀ : Net} (h : Run (NetStep base58 rt batch) s₀ tr s) :
    Run (Step batch) s₀.sys (indexerOf tr) s.sys := by
  refine h.project (·.sys) indexerStep fun s l s' hst => ?_
  cases hst with
  | executed hx hlog hnew => exact .moves _ rfl (.arrive hnew)
  | failed hx herr hnew => exact .moves _ rfl (.arrive hnew)
  | outside => exact .stutters rfl rfl
  | foreign hnew => exact .moves _ rfl (.arrive hnew)
  | index h => exact .moves _ rfl h

/-! ### What the history shows -/

/-- A round won on chain. -/
structure Win where
  height : ℕ
  miner : Pubkey
  reward : ℕ
  deriving DecidableEq

/-- A successful `mine`, with the height and the reward of the round it closed. -/
def winAt (t : Taken World Program.Action) : Option Win :=
  match t.label, t.pre.config with
  | .ok _ (.mine a _ _) _, some cfg =>
    some ⟨cfg.blockHeight.toNat, a.miner, cfg.currentEpochReward.toNat⟩
  | _, _ => none

/-- The rounds won, oldest first. -/
def wins (tr : Record) : List Win := tr.filterMap winAt

/-- A win as it is logged. -/
def Win.mineLog (base58 : Pubkey → String) (w : Win) : MineLog := ⟨w.height, base58 w.miner, w.reward⟩

/-- A block that a transaction of another program makes the explorer see. -/
def pretendedAt (t : Taken Net NetLabel) : Option MineLog :=
  match t.label with
  | .foreign x => x.mined
  | _ => none

def pretended (tr : NetRecord) : List MineLog := tr.filterMap pretendedAt

/-- Inside the program's own transactions no other line carries the marker. -/
def Unspoofed (tr : NetRecord) : Prop := ∀ t ∈ tr, ∀ env ix evs before after x,
  t.label = .executed env ix evs before after x →
    ∀ line ∈ before ++ after, contains line.toList marker = false

/-- A text without a colon. -/
theorem no_colon_word {w : String} (h : Word w) : ':' ∉ w.toList := fun hc => by
  have := h.chars _ hc
  revert this
  decide

theorem no_colon_number (n : ℕ) : ':' ∉ (toString n).toList := fun hc => by
  rw [toString_toList] at hc
  have := toDigits_isDigit n _ hc
  revert this
  decide

/-- A message that does not go on like that of `mine`. -/
theorem unmarked {m : String} (start rest : List Char)
    (hm : m.toList = "equium:".toList ++ (start ++ rest))
    (hclash : clash start " mined block".toList = true) (hstart : ':' ∉ start) (hrest : ':' ∉ rest) :
    contains (programLog m).toList marker = false := by
  have hcolon : ':' ∉ start ++ rest := by simp [hstart, hrest]
  rw [← Bool.not_eq_true, contains_iff, programLog_toList, hm, marker_infix hcolon]
  exact not_prefix_of_clash hclash rest

/-- Only `mine` logs the marker. -/
theorem message_unmarked (hbase : ∀ k, Word (base58 k)) {clock : Program.Clock} {ix : Ix}
    {pre post : Option EquiumConfig} {m : String} (h : message base58 clock ix pre post = some m)
    (hmine : ∀ a nonce soln, ix ≠ .mine a nonce soln) :
    contains (programLog m).toList marker = false := by
  cases ix with
  | initializeEquium a args =>
    cases post with
    | none => cases h
    | some cfg' =>
      obtain rfl := (Option.some.inj h).symm
      have hsplit : "equium: initialized at slot ".toList =
          "equium:".toList ++ " initialized at slot ".toList := rfl
      refine unmarked " initialized at slot ".toList ((toString cfg'.genesisSlot.toNat).toList ++
        (" (mint ".toList ++ ((base58 a.mint).toList ++ (", vault ".toList ++
          ((base58 a.mineableVault).toList ++ "); mining_open=false".toList))))) ?_ (by decide +kernel)
        (by decide +kernel) ?_
      · simp only [String.toList_append, List.append_assoc, hsplit]
      · simp only [List.mem_append, not_or]
        exact ⟨no_colon_number _, by decide +kernel, no_colon_word (hbase _), by decide +kernel,
          no_colon_word (hbase _), by decide +kernel⟩
  | fundVault a =>
    obtain rfl := (Option.some.inj h).symm
    have hsplit : "equium: vault funded with ".toList =
        "equium:".toList ++ " vault funded with ".toList := rfl
    refine unmarked " vault funded with ".toList ((toString Program.mineableBase.toNat).toList ++
      (" base units; mining_open=true at slot ".toList ++ (toString clock.slot.toNat).toList)) ?_
      (by decide +kernel) (by decide +kernel) ?_
    · simp only [String.toList_append, List.append_assoc, hsplit]
    · simp only [List.mem_append, not_or]
      exact ⟨no_colon_number _, by decide +kernel, no_colon_number _⟩
  | mine a nonce soln => exact absurd rfl (hmine a nonce soln)
  | advanceEmptyRound a =>
    cases pre with
    | none => cases h
    | some cfg =>
      obtain rfl := (Option.some.inj h).symm
      have hsplit : "equium: empty-advance from height ".toList =
          "equium:".toList ++ " empty-advance from height ".toList := rfl
      refine unmarked " empty-advance from height ".toList ((toString cfg.blockHeight.toNat).toList ++
        (" (".toList ++ ((toString (clock.slot - cfg.currentRoundOpenSlot).toNat).toList ++
          " slots elapsed)".toList))) ?_ (by decide +kernel) (by decide +kernel) ?_
      · simp only [String.toList_append, List.append_assoc, hsplit]
      · simp only [List.mem_append, not_or]
        exact ⟨no_colon_number _, by decide +kernel, no_colon_number _, by decide +kernel⟩
  | renounceAdmin a => cases h
  | setTarget a t =>
    obtain rfl := (Option.some.inj h).symm
    exact unmarked " target updated by admin".toList [] rfl (by decide +kernel) (by decide +kernel)
      List.not_mem_nil

/-- A transaction without the marker in its logs mined nothing. -/
theorem mined_none {t : Transaction} {lines : List String} (hlogs : t.logMessages = some lines)
    (h : ∀ line ∈ lines, contains line.toList marker = false) : t.mined = none := by
  have hnone : lines.find? (fun l => contains l.toList marker) = none :=
    List.find?_eq_none.mpr fun l hl => Bool.not_eq_true _ ▸ h l hl
  have hread : (t.logMessages.getD []).find? (fun l => contains l.toList marker) = none := by
    rw [hlogs]
    exact hnone
  have hlog : t.mineLog = none := mineLog_of_find hread
  rw [Transaction.mined, hlog]
  exact ite_self none

variable {t : Transaction} {env : Env} {ix : Ix} {w w' : World} {evs : List Program.Event}
  {before after : List String}

/-- A round that pays something has numbers a double keeps. -/
theorem paid_small {cfg : EquiumConfig} (hs : Program.Schedule cfg)
    (hpos : 0 < cfg.currentEpochReward.toNat) :
    cfg.blockHeight.toNat < 2 ^ 53 ∧ cfg.currentEpochReward.toNat < 2 ^ 53 := by
  have hheight := (Program.reward_pos_iff cfg.blockHeight).mp (hs.reward ▸ hpos)
  have hreward : cfg.currentEpochReward.toNat ≤ 25000000 := by
    rw [hs.reward, Program.rewardAtHeight_toNat]
    exact Nat.div_le_self _ _
  exact ⟨hheight.trans (by decide), Nat.lt_of_le_of_lt hreward (by decide)⟩

/-- A successful `mine` is seen as the win it is. -/
theorem Logged.mined_mine (hbase : ∀ k, Word (base58 k))
    (hs : ∀ cfg, w.config = some cfg → Program.Schedule cfg) {a : Program.Mine} {nonce : Bytes32}
    {soln : List UInt8} (h : Logged base58 t env (.mine a nonce soln) w w' before after)
    (hx : Program.execute rt env w (.mine a nonce soln) = .ok (w', evs))
    (hquiet : ∀ line ∈ before, contains line.toList marker = false) :
    ∃ cfg, w.config = some cfg ∧ t.mined =
      some (Win.mineLog base58 ⟨cfg.blockHeight.toNat, a.miner, cfg.currentEpochReward.toNat⟩) := by
  obtain ⟨-, cfg', L', rfl, he⟩ := Program.execute_ok hx
  obtain ⟨config, L⟩ := w
  dsimp only at he h hs ⊢
  cases he with
  | mine _ _ _ cfg _ _ _ _ _ hacc hata hcum hcap htr hadv =>
    refine ⟨cfg, rfl, ?_⟩
    have hheight : (cfg'.blockHeight - 1).toNat = cfg.blockHeight.toNat := by
      have hsucc : cfg'.blockHeight.toNat = cfg.blockHeight.toNat + 1 := hadv.height
      have hone : (1 : UInt64) ≤ cfg'.blockHeight := by
        rw [UInt64.le_iff_toNat_le, hsucc]
        exact Nat.le_add_left 1 _
      rw [UInt64.toNat_sub_of_le _ _ hone, hsucc]
      rfl
    have hlogs := h.logs
    rw [message, hheight, List.append_assoc] at hlogs
    rw [Transaction.mined, h.ok, if_neg Bool.false_ne_true]
    obtain ⟨hsmall, hpaid⟩ := paid_small (hs cfg rfl) hacc.rewardPos
    exact mine_line_read hlogs hquiet (hbase a.miner) hsmall hpaid

/-- Another instruction mined nothing. -/
theorem Logged.mined_other (hbase : ∀ k, Word (base58 k))
    (h : Logged base58 t env ix w w' before after) (hmine : ∀ a nonce soln, ix ≠ .mine a nonce soln)
    (hquiet : ∀ line ∈ before ++ after, contains line.toList marker = false) : t.mined = none := by
  refine mined_none h.logs fun line hline => ?_
  rcases List.mem_append.mp hline with hline | hline
  · rcases List.mem_append.mp hline with hline | hline
    · exact hquiet line (List.mem_append_left _ hline)
    · obtain ⟨m, hm, rfl⟩ := Option.map_eq_some_iff.mp (Option.mem_toList.mp hline)
      exact message_unmarked hbase hm hmine
  · exact hquiet line (List.mem_append_right _ hline)

/-! ### The invariants -/

/-- A step of the indexer leaves the history alone. -/
theorem Step.keeps_chain {s s' : Sys} {a : Action} (h : Step batch s a s')
    (hown : ∀ txs, a ≠ .arrive txs) : s'.chain = s.chain := by
  have hfinish : ∀ newestSig cutoff store rs,
      (finishBackfill s newestSig cutoff store rs).chain = s.chain := by
    intro newestSig cutoff store rs
    unfold finishBackfill
    dsimp only
    split_ifs <;> rfl
  cases h with
  | @arrive txs => exact absurd rfl (hown txs)
  | start _ r =>
    unfold Explorer.start
    split_ifs
    · rfl
    · split <;> rfl
  | page =>
    unfold backfillPage
    dsimp only
    split_ifs <;> first | rfl | exact hfinish _ _ _ _
  | check =>
    unfold checkMigration
    split_ifs <;> first | rfl | (dsimp only; split_ifs <;> rfl)
  | migrate =>
    unfold migrationPage
    dsimp only
    split_ifs <;> rfl
  | tick =>
    unfold Explorer.tick
    split_ifs
    · rfl
    · split
      · rfl
      · dsimp only
        split_ifs <;> first | rfl | (split <;> rfl)
  | stop => rfl

theorem wins_concat (tr : Record) (t : Taken World Program.Action) :
    wins (tr ++ [t]) = wins tr ++ (winAt t).toList := by
  cases h : winAt t <;> simp [wins, h]

theorem programOf_concat (tr : NetRecord) (t : Taken Net NetLabel) :
    programOf (tr ++ [t]) = programOf tr ++ (programStep t).toList := by
  cases h : programStep t <;> simp [programOf, h]

theorem pretended_concat (tr : NetRecord) (t : Taken Net NetLabel) :
    pretended (tr ++ [t]) = pretended tr ++ (pretendedAt t).toList := by
  cases h : pretendedAt t <;> simp [pretended, h]

/-- The blocks of a history. -/
def blocksIn (chain : List Transaction) : List MineLog := chain.filterMap Transaction.mined

theorem blocksIn_arrive (s : Sys) (t : Transaction) :
    blocksIn (s.arrive t).chain = blocksIn s.chain ++ t.mined.toList := by
  cases h : t.mined <;> simp [blocksIn, Sys.arrive, h]

/-- A step that adds the same blocks to both sides. -/
theorem perm_step {xs ws ps : List MineLog} (h : xs.Perm (ws ++ ps)) {c a b : List MineLog}
    (hc : c = a ++ b) : (xs ++ c).Perm (ws ++ a ++ (ps ++ b)) := by
  have hmove : (ws ++ ps ++ (a ++ b)).Perm (ws ++ (a ++ (ps ++ b))) := by
    rw [List.append_assoc]
    exact (List.perm_append_comm_assoc ps a b).append_left ws
  rw [hc, List.append_assoc ws a]
  exact (h.append_right _).trans hmove

/-- Run lemma: the blocks a history shows are the rounds won and those pretended. -/
theorem blocks_shown (hbase : ∀ k, Word (base58 k)) {L : Ledger}
    (h : Run (NetStep base58 rt batch) ⟨Program.genesis L, Sys.init⟩ tr s) (hquiet : Unspoofed tr) :
    (blocksIn s.sys.chain).Perm
      ((wins (programOf tr)).map (Win.mineLog base58) ++ pretended tr) := by
  revert hquiet
  refine h.inv (fun tr s => Unspoofed tr → (blocksIn s.sys.chain).Perm
    ((wins (programOf tr)).map (Win.mineLog base58) ++ pretended tr)) (fun _ => .refl _) ?_
  intro tr s l s' hrun ih hst hquiet
  have hp := ih fun t ht => hquiet t (List.mem_append_left _ ht)
  have hschedule : ∀ cfg, s.world.config = some cfg → Program.Schedule cfg := fun cfg hcfg =>
    ((Program.accounts_run (program_run hrun)).2 cfg hcfg).schedule
  have hlast := hquiet ⟨s, l, s'⟩ (List.mem_append_right _ (List.mem_singleton_self _))
  have hkept : blocksIn s.sys.chain = blocksIn s.sys.chain ++ [] := (List.append_nil _).symm
  rw [programOf_concat, pretended_concat]
  cases hst with
  | @executed env ix evs w' before after t hx hlog hnew =>
    have hlines := hlast env ix evs before after t rfl
    rw [show programStep _ = some ⟨s.world, .ok env ix evs, w'⟩ from rfl, Option.toList_some,
      wins_concat, List.map_append, blocksIn_arrive]
    refine perm_step hp ?_
    rw [show pretendedAt _ = none from rfl, Option.toList_none, List.append_nil]
    by_cases hmine : ∃ a nonce soln, ix = .mine a nonce soln
    · obtain ⟨a, nonce, soln, rfl⟩ := hmine
      obtain ⟨cfg, hcfg, hmined⟩ :=
        hlog.mined_mine hbase hschedule hx fun line hline =>
          hlines line (List.mem_append_left _ hline)
      simp [winAt, hcfg, hmined]
    · have hother : ∀ a nonce soln, ix ≠ .mine a nonce soln :=
        fun a nonce soln he => hmine ⟨a, nonce, soln, he⟩
      have hwin : winAt ⟨s.world, .ok env ix evs, w'⟩ = none := by
        cases ix with
        | mine a nonce soln => exact absurd rfl (hother a nonce soln)
        | _ => rfl
      rw [hlog.mined_other hbase hother hlines, hwin]
      rfl
  | @failed env ix e t hx herr hnew =>
    have hmined : t.mined = none := by rw [Transaction.mined, if_pos herr]
    rw [show programStep _ = some ⟨s.world, .err env ix e, s.world⟩ from rfl, Option.toList_some,
      wins_concat, List.map_append, blocksIn_arrive, hmined]
    exact perm_step hp rfl
  | @outside L' d ho =>
    rw [show programStep _ = some ⟨s.world, .outside d, ⟨s.world.config, L'⟩⟩ from rfl,
      Option.toList_some, wins_concat, List.map_append, hkept]
    exact perm_step hp rfl
  | @foreign t hnew =>
    rw [show programStep _ = none from rfl, blocksIn_arrive, Option.toList_none, List.append_nil]
    have hstep := perm_step hp (show t.mined.toList = [] ++ t.mined.toList from rfl)
    rwa [List.append_nil] at hstep
  | index hstep hown =>
    rw [show programStep _ = none from rfl, show pretendedAt _ = none from rfl, Option.toList_none,
      Option.toList_none, List.append_nil, List.append_nil]
    dsimp only
    rw [hstep.keeps_chain hown]
    exact hp

/-! ### The totals -/

/-- A win is one mined round. -/
theorem winAt_mined (t : Taken World Program.Action) :
    (winAt t).map Win.height = (Program.minedAt t).map (·.blockHeight.toNat) := by
  obtain ⟨⟨config, L⟩, label, post⟩ := t
  cases label with
  | ok env ix evs => cases ix <;> cases config <;> rfl
  | _ => rfl

theorem wins_heights (tr : Record) :
    (wins tr).map Win.height = (Program.minedHeights tr).map UInt64.toNat := by
  induction tr using List.reverseRecOn with
  | nil => rfl
  | append_singleton tr t ih =>
    have hlast := winAt_mined t
    rw [wins_concat, Program.minedHeights_concat, List.map_append, List.map_append, ih]
    cases hw : winAt t <;> cases hm : Program.minedAt t <;> simp_all

/-- Run lemma: the wins are what the config says was paid. -/
theorem wins_paid {L : Ledger} {tr : Record} {w : World} {cfg : EquiumConfig}
    (h : Run (Program.Step rt) (Program.genesis L) tr w) (hw : w.config = some cfg) :
    ((wins tr).map Win.reward).sum = cfg.cumulativeMined.toNat := by
  refine (Program.run_phases (N := fun tr _ => wins tr = [])
    (I := fun tr cfg _ => ((wins tr).map Win.reward).sum = cfg.cumulativeMined.toNat)
    rfl ?_ ?_ ?_ ?_ h).2 cfg hw
  · intro tr l L L' hq hN
    have hnone : winAt ⟨⟨none, L⟩, l, ⟨none, L'⟩⟩ = none := by
      cases l with
      | ok env ix evs => cases ix <;> rfl
      | _ => rfl
    rw [wins_concat, hN, hnone]
    rfl
  · intro tr env ix evs L cfg' L' he hN
    cases he with
    | initializeEquium a args =>
      rw [wins_concat, hN]
      rfl
  · intro tr l cfg L L' hq hI
    have hnone : winAt ⟨⟨some cfg, L⟩, l, ⟨some cfg, L'⟩⟩ = none := by
      cases l with
      | ok env ix evs => exact absurd rfl (hq.label env ix evs)
      | _ => rfl
    rw [wins_concat, hnone, ← hI]
    simp
  · intro tr env ix evs cfg L cfg' L' _ he hI
    rw [wins_concat, List.map_append, List.sum_append, hI]
    cases he with
    | mine _ _ _ _ _ _ _ _ _ hacc hata hcum hcap htr hadv =>
      rw [hadv.cumulativeMined, hcum]
      exact congrArg _ (Nat.add_zero _)
    | advanceEmptyRound _ _ _ _ _ hadv =>
      rw [hadv.cumulativeMined]
      rfl
    | fundVault => rfl
    | renounceAdmin => rfl
    | setTarget => rfl

/-- Every closed round was won or skipped. -/
theorem wins_closed {L : Ledger} {tr : Record} {w : World} {cfg : EquiumConfig}
    (h : Run (Program.Step rt) (Program.genesis L) tr w) (hw : w.config = some cfg) :
    (wins tr).length + cfg.emptyRounds.toNat = cfg.blockHeight.toNat := by
  have hlen := congrArg List.length (wins_heights tr)
  have hclosed := ((Program.accounts_run h).2 cfg hw).closed.length_eq
  rw [List.length_map, List.length_map] at hlen
  rw [List.length_map, List.length_append, List.length_range] at hclosed
  rw [Program.empties_run h hw, hlen, hclosed]

/-- The blocks the all-time tables show, over all miners. -/
def Store.shownBlocks (s : Store) : ℕ := (s.miners.keys.map s.blocksOf).sum

/-- The rewards they show. -/
def Store.shownRewards (s : Store) : ℕ := (s.rewards.keys.map s.rewardsOf).sum

theorem blocksIn_cons (t : Transaction) (chain : List Transaction) :
    blocksIn (t :: chain) = t.mined.toList ++ blocksIn chain := by
  cases h : t.mined <;> simp [blocksIn, h]

/-- A store that holds a history shows its blocks by miner. -/
theorem Holds.totals {st : Store} {chain : List Transaction} (h : Holds st chain) (w : String) :
    st.blocksOf w = (blocksIn chain).countP (·.winner = w) ∧ st.rankOf w = st.blocksOf w ∧
      st.rewardsOf w = totalOf MineLog.winner MineLog.reward w (blocksIn chain) := by
  rw [h.rank w, h.blocks w, h.rewards w]
  refine ⟨?_, rfl, ?_⟩
  · rw [blocksIn, List.countP_filterMap]
    refine List.countP_congr fun t _ => ?_
    rw [Transaction.minedBy]
    cases t.mined <;> rfl
  · clear h
    induction chain with
    | nil => rfl
    | cons t chain ih =>
      rw [List.map_cons, List.sum_cons, blocksIn_cons, totalOf_append, ih, Transaction.rewardTo]
      cases t.mined with
      | none => rfl
      | some m => simp [totalOf]

/-- A field that is not zero is there. -/
theorem mem_keys_of_pos {h : AList fun _ : String => ℕ} {w : String} (hpos : 0 < (h.lookup w).getD 0) :
    w ∈ h.keys := by
  cases hl : h.lookup w with
  | none =>
    rw [hl] at hpos
    exact absurd hpos (Nat.lt_irrefl 0)
  | some n => exact AList.mem_keys.mp (AList.lookup_isSome.mp (by rw [hl]; rfl))

/-- Its totals are those of the history. -/
theorem Holds.shown {st : Store} {chain : List Transaction} (h : Holds st chain) :
    st.shownBlocks = (blocksIn chain).length ∧
      st.shownRewards = ((blocksIn chain).map MineLog.reward).sum := by
  constructor
  · have hone : ∀ w, st.blocksOf w = totalOf MineLog.winner (fun _ => 1) w (blocksIn chain) :=
      fun w => (h.totals w).1.trans (totalOf_one w _).symm
    have hkeys : ∀ m ∈ blocksIn chain, 1 ≠ 0 → m.winner ∈ st.miners.keys := fun m hm _ =>
      mem_keys_of_pos (by
        rw [← Store.blocksOf, (h.totals m.winner).1]
        exact List.countP_pos_iff.mpr ⟨m, hm, decide_eq_true rfl⟩)
    rw [Store.shownBlocks, List.map_congr_left fun w _ => hone w,
      sum_totals st.miners.keys_nodup hkeys]
    simp
  · have hkeys : ∀ m ∈ blocksIn chain, m.reward ≠ 0 → m.winner ∈ st.rewards.keys := fun m hm hr =>
      mem_keys_of_pos (by
        rw [← Store.rewardsOf, (h.totals m.winner).2.2]
        exact Nat.lt_of_lt_of_le (Nat.pos_of_ne_zero hr) (le_totalOf hm))
    rw [Store.shownRewards, List.map_congr_left fun w _ => (h.totals w).2.2,
      sum_totals st.rewards.keys_nodup hkeys]

/-- ON CHAIN: once the indexer has caught up, cleanly and without leaving a block out, and while no
    other line of the program's own transactions carries the marker, the explorer's tables show for
    every miner the rounds it won and what the program paid it, and besides only what transactions of
    other programs pretend; without these the rewards add up to `cumulative_mined` and the blocks to the
    rounds that were not empty. -/
theorem explorer_shows_chain (hbase : ∀ k, Word (base58 k)) (hinj : Function.Injective base58)
    (L : Ledger) (tr : NetRecord) (s : Net)
    (h : Run (NetStep base58 rt batch) ⟨Program.genesis L, Sys.init⟩ tr s) (hquiet : Unspoofed tr)
    (hclean : ∀ t ∈ indexerOf tr, Clean t.pre t.label)
    (hskip : ∀ t ∈ indexerOf tr, t.label.isTick = true → NoSkip t.pre) (htip : AtTip s.sys) :
    (∀ m : Pubkey,
      s.sys.store.blocksOf (base58 m) = (wins (programOf tr)).countP (·.miner = m) +
        (pretended tr).countP (·.winner = base58 m) ∧
      s.sys.store.rankOf (base58 m) = s.sys.store.blocksOf (base58 m) ∧
      s.sys.store.rewardsOf (base58 m) = totalOf Win.miner Win.reward m (wins (programOf tr)) +
        totalOf MineLog.winner MineLog.reward (base58 m) (pretended tr)) ∧
    (pretended tr = [] → ∀ cfg, s.world.config = some cfg →
      s.sys.store.shownRewards = cfg.cumulativeMined.toNat ∧
      s.sys.store.shownBlocks + cfg.emptyRounds.toNat = cfg.blockHeight.toNat) := by
  have hheld := (inv_run (indexer_run h) hclean hskip).tip htip
  have hshown := blocks_shown hbase h hquiet
  refine ⟨fun m => ?_, fun hnone cfg hcfg => ?_⟩
  · obtain ⟨hblocks, hrank, hrewards⟩ := hheld.totals (base58 m)
    refine ⟨?_, hrank, ?_⟩
    · rw [hblocks, hshown.countP_eq, List.countP_append, List.countP_map]
      refine congrArg (· + _) (List.countP_congr fun w _ => ?_)
      simp [Win.mineLog, hinj.eq_iff]
    · rw [hrewards, totalOf_perm hshown, totalOf_append,
        totalOf_map hinj (fun _ => rfl : ∀ w, (Win.mineLog base58 w).winner = base58 w.miner)]
      rfl
  · rw [hnone, List.append_nil] at hshown
    obtain ⟨hblocks, hrewards⟩ := hheld.shown
    refine ⟨?_, ?_⟩
    · rw [hrewards, (hshown.map _).sum_eq, List.map_map, ← wins_paid (program_run h) hcfg]
      rfl
    · rw [hblocks, hshown.length_eq, List.length_map, wins_closed (program_run h) hcfg]

/-! The five transactions of the demonstration cluster, and then a backfill. -/

namespace Demo

/-- The text of a key. -/
def keyText (k : Pubkey) : String := String.ofList (Base58.encode k.toList)

theorem keyText_inj : Function.Injective keyText := by
  intro k k' h
  have hdecoded := congrArg Base58.decode (String.ofList_injective h)
  rw [Base58.decode_encode, Base58.decode_encode] at hdecoded
  exact Vector.toList_inj.mp (Option.some.inj hdecoded)

theorem keyText_word (k : Pubkey) : Word (keyText k) where
  chars c hc := by
    rw [keyText, String.toList_ofList] at hc
    have hall : Base58.alphabet.all isWord = true := by decide +kernel
    exact List.all_eq_true.mp hall c (Base58.encode_mem _ c hc)
  nonempty h := by
    have hempty : keyText k = String.ofList [] := h
    have hdecoded := congrArg Base58.decode (String.ofList_injective hempty)
    rw [Base58.decode_encode] at hdecoded
    have hlen := congrArg List.length (Option.some.inj hdecoded)
    rw [Vector.length_toList] at hlen
    cases hlen

/-- What the runtime logs around an instruction. -/
def invoke : List String := ["Program invoke [1]"]
def success : List String := ["Program success"]

/-- How the node lists an instruction that succeeded. -/
def listed (signature : Signature) (env : Env) (ix : Ix) (w w' : World) : Transaction :=
  ⟨signature, false, some 1000, some (invoke ++
    ((message keyText env.clock ix w.config w'.config).map programLog).toList ++ success)⟩

/-- A step of the program, or a pass without a fault that is no tick. -/
def Plain (t : Taken Net NetLabel) : Prop :=
  (∃ env ix evs x, t.label = .executed env ix evs invoke success x) ∨
    (∃ env ix e x, t.label = .failed env ix e x) ∨
    ∃ a, t.label = .index a ∧ a.faultless ∧ a.isTick = false

theorem plain_record {tr : NetRecord} (h : ∀ t ∈ tr, Plain t) : Unspoofed tr ∧ pretended tr = [] ∧
    ∀ t ∈ indexerOf tr, t.label.faultless ∧ t.label.isTick = false := by
  refine ⟨fun t ht env ix evs before after x hl => ?_, ?_, fun u hu => ?_⟩
  · rcases h t ht with ⟨_, _, _, _, hp⟩ | ⟨_, _, _, _, hp⟩ | ⟨_, hp, -⟩
    · obtain ⟨rfl, rfl⟩ : before = invoke ∧ after = success := by
        cases hl.symm.trans hp
        exact ⟨rfl, rfl⟩
      have hall : (invoke ++ success).all (fun line => !contains line.toList marker) = true := by
        decide +kernel
      exact fun line hline => (Bool.not_eq_true' _).mp (List.all_eq_true.mp hall line hline)
    · cases hl.symm.trans hp
    · cases hl.symm.trans hp
  · refine List.filterMap_eq_nil_iff.mpr fun t ht => ?_
    rcases h t ht with ⟨_, _, _, _, hp⟩ | ⟨_, _, _, _, hp⟩ | ⟨_, hp, -⟩ <;> rw [pretendedAt, hp]
  · obtain ⟨t, ht, htu⟩ := List.mem_filterMap.mp hu
    rcases h t ht with ⟨_, _, _, x, hp⟩ | ⟨_, _, _, x, hp⟩ | ⟨a, hp, ha⟩
    all_goals
      rw [indexerStep, hp] at htu
      obtain rfl := Option.some.inj htu
    · exact ⟨trivial, rfl⟩
    · exact ⟨trivial, rfl⟩
    · exact ha

/-- Transactions with signatures of their own run one after the other. -/
theorem executed_run (rt : Program.Runtime) (batch : BatchSize) (txs : List (Signature × Env × Ix))
    (s : Net) (hn : (s.sys.chain.map (·.signature) ++ txs.map (·.1)).Nodup) :
    ∃ tr chain, Run (NetStep keyText rt batch) s tr ⟨Program.play rt s.world (txs.map (·.2)),
        ⟨chain, s.sys.store, s.sys.phase⟩⟩ ∧
      programOf tr = Program.record rt s.world (txs.map (·.2)) ∧
      chain.length = s.sys.chain.length + txs.length ∧ ∀ t ∈ tr, Plain t := by
  induction txs generalizing s with
  | nil => exact ⟨[], s.sys.chain, .nil, rfl, rfl, fun t ht => by cases ht⟩
  | cons tx txs ih =>
    obtain ⟨signature, env, ix⟩ := tx
    rw [List.map_cons, List.append_cons] at hn
    have hnext : ∀ (w' : World) (l : NetLabel) (t : Transaction), t.signature = signature →
        (Fresh s.sys t → NetStep keyText rt batch s l ⟨w', s.sys.arrive t⟩) →
        Plain ⟨s, l, ⟨w', s.sys.arrive t⟩⟩ →
        ∃ tr chain, Run (NetStep keyText rt batch) s (⟨s, l, ⟨w', s.sys.arrive t⟩⟩ :: tr)
            ⟨Program.play rt w' (txs.map (·.2)), ⟨chain, s.sys.store, s.sys.phase⟩⟩ ∧
          programOf tr = Program.record rt w' (txs.map (·.2)) ∧
          chain.length = s.sys.chain.length + (txs.length + 1) ∧
          ∀ t' ∈ ⟨s, l, ⟨w', s.sys.arrive t⟩⟩ :: tr, Plain t' := by
      rintro w' l t rfl hst hl
      have hrest : ((s.sys.arrive t).chain.map (·.signature) ++ txs.map (·.1)).Nodup := by
        rw [Sys.arrive, List.map_append]
        exact hn
      have hnew : Fresh s.sys t := by
        rw [Fresh, List.map_append]
        exact hn.of_append_left
      obtain ⟨tr, chain, hr, hprog, hlen, hall⟩ := ih ⟨w', s.sys.arrive t⟩ hrest
      refine ⟨tr, chain, (Run.nil.snoc (hst hnew)).append hr, hprog, ?_, ?_⟩
      · rw [hlen, Sys.arrive, List.length_append, List.length_singleton]
        exact Nat.add_right_comm _ _ _
      · intro t' ht'
        rcases List.mem_cons.mp ht' with rfl | ht'
        · exact hl
        · exact hall t' ht'
    rw [List.map_cons, Program.play, Program.record]
    cases hx : Program.execute rt env s.world ix with
    | ok r =>
      obtain ⟨tr, chain, hr, hprog, hrest⟩ := hnext r.1 (.executed env ix r.2 invoke success _)
        (listed signature env ix s.world r.1) rfl (.executed hx ⟨rfl, rfl⟩) (.inl ⟨_, _, _, _, rfl⟩)
      exact ⟨_, chain, hr, congrArg (List.cons _) hprog, hrest⟩
    | error e =>
      obtain ⟨tr, chain, hr, hprog, hrest⟩ := hnext s.world (.failed env ix e _)
        ⟨signature, true, some 1000, none⟩ rfl (.failed hx rfl) (.inr (.inl ⟨_, _, _, _, rfl⟩))
      exact ⟨_, chain, hr, congrArg (List.cons _) hprog, hrest⟩

theorem finishBackfill_tip (s : Sys) (newestSig : Option Signature) (cutoff : ℕ) (store : Store) :
    (finishBackfill s newestSig cutoff store []).phase = .seeding ∧
      (finishBackfill s newestSig cutoff store []).store.cursor = newestSig.or store.cursor ∧
      (finishBackfill s newestSig cutoff store []).chain = s.chain := by
  cases newestSig <;> exact ⟨rfl, rfl, rfl⟩

/-- A backfill of less than a page leaves the cursor at the newest signature. -/
theorem backfill_tip {batch : BatchSize} {chain : List Transaction} (hlen : chain.length < pageSize)
    (now : Signature → ℕ) (cutoff : ℕ) :
    AtTip (backfillPage batch (backfillStart chain) none none 0 now cutoff []) := by
  have hshort : chain.reverse.length < pageSize := by rwa [List.length_reverse]
  have hsigs : getSignaturesForAddress chain pageSize none none = chain.reverse :=
    List.take_of_length_le hshort.le
  have hnone : ∀ r ∈ ([] : List Reply), r = .ok := fun r hr => by cases hr
  simp only [backfillPage, backfillStart, hsigs, processSigs_faultless hnone, if_pos hshort,
    List.drop_nil, if_neg (by simp : Outcome.done ≠ Outcome.stopped), and_self, if_true]
  split_ifs with hnil
  · rw [List.reverse_eq_nil_iff.mp hnil]
    exact ⟨rfl, rfl⟩
  · obtain ⟨hphase, hcursor, hchain⟩ := finishBackfill_tip (backfillStart chain)
      (chain.reverse.head?.map (·.signature)) cutoff
      ((parseBatch now chain.reverse.reverse).foldl Store.index Store.empty)
    obtain ⟨t, ts, ht⟩ := List.exists_cons_of_ne_nil hnil
    have htop : ((chain.reverse.head?.map (·.signature)).or ((parseBatch now
        chain.reverse.reverse).foldl Store.index Store.empty).cursor) =
        chain.getLast?.map (·.signature) := by
      rw [← List.head?_reverse, ht]
      rfl
    exact ⟨(congrArg Phase.between hphase).trans rfl, (hcursor.trans htop).trans
      (congrArg (fun c : List Transaction => c.getLast?.map (·.signature)) hchain.symm)⟩

/-- The transactions of the demonstration cluster with their signatures. -/
def signed : List (Signature × Env × Ix) := ["a", "b", "c", "d", "e"].zip Program.Demo.txs

/-- They run, and the indexer is started and fetches its only page. -/
theorem signed_run : ∃ tr chain, Run (NetStep keyText Program.Demo.runtime ten)
      ⟨Program.genesis Program.Demo.ledger, Sys.init⟩ tr ⟨Program.Demo.world,
        backfillPage ten (backfillStart chain) none none 0 (fun _ => 9) 0 []⟩ ∧
    chain.length < pageSize ∧ wins (programOf tr) = [⟨0, Program.Demo.key 30, 25000000⟩] ∧
    ∀ t ∈ tr, Plain t := by
  obtain ⟨tr, chain, hr, hprog, hlen, hall⟩ := executed_run Program.Demo.runtime ten signed
    ⟨Program.genesis Program.Demo.ledger, Sys.init⟩ (by decide)
  have hwins : wins (Program.record Program.Demo.runtime (Program.genesis Program.Demo.ledger)
      (signed.map (·.2))) = [⟨0, Program.Demo.key 30, 25000000⟩] := by decide +kernel
  refine ⟨_, chain, (hr.snoc (NetStep.index (Step.start rfl .ok) (by simp))).snoc
    (NetStep.index (Step.page rfl (fun _ => 9) 0 []) (by simp)), ?_, ?_, ?_⟩
  · rw [hlen]
    decide
  · rw [programOf_concat, programOf_concat, hprog, show programStep _ = none from rfl,
      show programStep _ = none from rfl, Option.toList_none, List.append_nil, List.append_nil]
    exact hwins
  · intro t ht
    simp only [List.append_assoc, List.mem_append, List.mem_singleton] at ht
    rcases ht with ht | rfl | rfl
    · exact hall t ht
    · exact .inr (.inr ⟨_, rfl, rfl, rfl⟩)
    · exact .inr (.inr ⟨_, rfl, (fun r hr => by cases hr), rfl⟩)

end Demo

/-- One round is won and one skipped; the explorer shows the winner with its reward. -/
theorem explorer_shows_chain_demo : ∃ s tr,
    Run (NetStep Demo.keyText Program.Demo.runtime Demo.ten)
      ⟨Program.genesis Program.Demo.ledger, Sys.init⟩ tr s ∧
    s.sys.store.blocksOf (Demo.keyText (Program.Demo.key 30)) = 1 ∧
    s.sys.store.shownRewards = 25000000 ∧ s.sys.store.shownBlocks = 1 := by
  obtain ⟨tr, chain, hr, hlen, hwins, hplain⟩ := Demo.signed_run
  obtain ⟨hquiet, hnone, hindex⟩ := Demo.plain_record hplain
  obtain ⟨hminers, htotals⟩ := explorer_shows_chain Demo.keyText_word Demo.keyText_inj _ _ _ hr hquiet
    (fun t ht => (hindex t ht).1.clean t.pre)
    (fun t ht htick => by rw [(hindex t ht).2] at htick; cases htick) (Demo.backfill_tip hlen _ _)
  obtain ⟨hrewards, hblocks⟩ := htotals hnone Program.Demo.config Program.Demo.world_config
  rw [Program.Demo.config_eq] at hrewards hblocks
  refine ⟨_, tr, hr, ?_, hrewards, Nat.add_right_cancel hblocks⟩
  rw [(hminers _).1, hwins, hnone]
  decide +kernel

end Equium.Explorer
