import Equium.Explorer.Pages
import Equium.Explorer.Ticks

/-! @src clients/website/src/components/ExplorerDashboard.tsx | name:The load-older button
    | scheme:run-invariant

    The dashboard keeps the older blocks it was handed and the cursor behind them. It takes an empty
    page for the end of history, but the server also gives up after a thousand signatures without a
    block. -/

namespace Equium.Explorer
open Schemes

/-- The paging state of `ExplorerDashboard`, beside the history of the program. -/
structure Dashboard where
  chain : List Transaction
  olderBlocks : List PageBlock
  pageCursor : Option Signature
  pageLoading : Bool
  pageExhausted : Bool
  /-- the `before` of the request on its way -/
  request : Option Signature

/-- The dashboard as mounted: the cursor is the oldest recent block. -/
def Dashboard.init (chain : List Transaction) (initialBlocks : List PageBlock) : Dashboard :=
  ⟨chain, [], initialBlocks.getLast?.map (·.sig), false, false, none⟩

/-- `loadOlder` up to its `fetch`. -/
def loadOlder (s : Dashboard) : Dashboard :=
  match s.pageCursor with
  | none => s
  | some cursor =>
    if s.pageLoading ∨ s.pageExhausted then s
    else { s with pageLoading := true, request := some cursor }

/-- `loadOlder` from its answer on. -/
def answered (s : Dashboard) (cursor : Signature) : Dashboard :=
  let data := getBlocks s.chain (some cursor) 20
  { s with
    pageExhausted := if data.blocks.length = 0 ∨ data.nextCursor = none then true else s.pageExhausted
    olderBlocks := s.olderBlocks ++ data.blocks
    pageCursor := data.nextCursor
    pageLoading := false
    request := none }

inductive PageAction
  | arrive
  | click
  | answer
  | lost
  deriving DecidableEq

/-- Clicks at any time, answers, lost answers, and new transactions of the program. -/
inductive PageStep : Dashboard → PageAction → Dashboard → Prop
  | arrive {s : Dashboard} {txs : List Transaction}
      (hn : ((s.chain ++ txs).map (·.signature)).Nodup) :
      PageStep s .arrive { s with chain := s.chain ++ txs }
  | click {s : Dashboard} : PageStep s .click (loadOlder s)
  | answer {s : Dashboard} {cursor : Signature} (hr : s.request = some cursor) :
      PageStep s .answer (answered s cursor)
  | lost {s : Dashboard} {cursor : Signature} (hr : s.request = some cursor) :
      PageStep s .lost { s with pageLoading := false, request := none }

/-- The history behind a cursor, newest first. -/
def olderHistory (chain : List Transaction) (cursor : Option Signature) : List Transaction :=
  olderThan (·.signature) cursor chain.reverse

/-- Wherever the next thousand signatures hold no mined block, none is behind them. -/
def NoGap (older : List Transaction) : Prop :=
  ∀ a r, older = a ++ r → blocksOf (r.take 1000) = [] → blocksOf r = []

/-- INVARIANT: the blocks held are those of the history read so far, which no page has carried across
    a thousand signatures without one. -/
structure Paged (older : List Transaction) (s : Dashboard) (seen rest : List Transaction) : Prop where
  unique : (s.chain.map (·.signature)).Nodup
  split : older = seen ++ rest
  held : s.olderBlocks = blocksOf seen
  noJump : ∀ a r, older = a ++ r → blocksOf (r.take 1000) = [] → seen.length ≤ a.length
  ended : s.pageExhausted = true → blocksOf (rest.take 1000) = []
  cursor : s.pageExhausted = false → ∃ c, s.pageCursor = some c ∧
    c ∈ s.chain.map (·.signature) ∧ olderHistory s.chain (some c) = rest
  loading : s.pageLoading = s.request.isSome
  asked : ∀ c, s.request = some c → s.pageExhausted = false ∧ s.pageCursor = some c

section
variable {chain : List Transaction} {older seen rest : List Transaction} {s s' : Dashboard}

theorem paged_init {blocks : List PageBlock} {c : Signature} (hn : (chain.map (·.signature)).Nodup)
    (hb : blocks.getLast?.map (·.sig) = some c) (hc : c ∈ chain.map (·.signature)) :
    Paged (olderHistory chain (some c)) (Dashboard.init chain blocks) []
      (olderHistory chain (some c)) where
  unique := hn
  split := rfl
  held := rfl
  noJump := fun _ _ _ _ => Nat.zero_le _
  ended := fun h => by cases h
  cursor := fun _ => ⟨c, hb, hc, rfl⟩
  loading := rfl
  asked := fun _ h => by cases h

theorem Paged.arrive (h : Paged older s seen rest) {txs : List Transaction}
    (hn : ((s.chain ++ txs).map (·.signature)).Nodup) :
    Paged older { s with chain := s.chain ++ txs } seen rest where
  unique := hn
  split := h.split
  held := h.held
  noJump := h.noJump
  ended := h.ended
  cursor := by
    intro he
    obtain ⟨c, hc, hmem, hrest⟩ := h.cursor he
    refine ⟨c, hc, ?_, (olderThan_grow hmem hn).trans hrest⟩
    rw [List.map_append]
    exact List.mem_append_left _ hmem
  loading := h.loading
  asked := h.asked

/-- A click asks for the page behind the cursor, unless a page is on its way or history has ended. -/
theorem loadOlder_cases (s : Dashboard) : loadOlder s = s ∨
    ∃ c, s.pageCursor = some c ∧ s.pageLoading = false ∧ s.pageExhausted = false ∧
      loadOlder s = { s with pageLoading := true, request := some c } := by
  rw [loadOlder]
  cases hc : s.pageCursor with
  | none => exact Or.inl rfl
  | some c =>
    by_cases hbusy : s.pageLoading ∨ s.pageExhausted
    · exact Or.inl (if_pos hbusy)
    · have hfree := not_or.mp hbusy
      exact Or.inr ⟨c, rfl, Bool.not_eq_true _ ▸ hfree.1, Bool.not_eq_true _ ▸ hfree.2, if_neg hbusy⟩

theorem Paged.click (h : Paged older s seen rest) : Paged older (loadOlder s) seen rest := by
  rcases loadOlder_cases s with hsame | ⟨c, hc, hidle, hopen, hasks⟩
  · rw [hsame]
    exact h
  · rw [hasks]
    refine { h with loading := rfl, asked := ?_ }
    intro c' hc'
    obtain rfl := Option.some.inj hc'
    exact ⟨hopen, hc⟩

theorem Paged.lost (h : Paged older s seen rest) :
    Paged older { s with pageLoading := false, request := none } seen rest :=
  { h with loading := rfl, asked := fun _ hc => by cases hc }

/-- A stretch without a block that begins behind what was read so far also begins behind the next
    block read, when that is less than a thousand signatures ahead. -/
theorem stretch_behind {p q a r : List Transaction} {x : Transaction} (hp : p.length < 1000)
    (hx : blocksOf [x] ≠ []) (h : seen ++ (p ++ x :: q) = a ++ r) (hle : seen.length ≤ a.length)
    (hnone : blocksOf (r.take 1000) = []) : (seen ++ (p ++ [x])).length ≤ a.length := by
  by_contra hlt
  rw [← List.append_assoc, List.length_append, List.length_singleton] at hlt
  rw [← List.append_assoc] at h
  obtain ⟨p', hp'⟩ : a <+: seen ++ p :=
    List.prefix_of_prefix_length_le ⟨r, h.symm⟩ (List.prefix_append _ _) (by omega)
  have hr : r = p' ++ x :: q := by
    rw [← hp', List.append_assoc] at h
    exact (List.append_cancel_left h).symm
  have hlen : p'.length < 1000 := by
    have hsum := congrArg List.length hp'
    rw [List.length_append, List.length_append] at hsum
    omega
  have hsucc : 1000 - p'.length = (999 - p'.length) + 1 := by omega
  rw [hr, List.take_append, List.take_of_length_le (Nat.le_of_lt hlen), hsucc, List.take_succ_cons,
    blocksOf_append, List.append_eq_nil_iff] at hnone
  rw [← List.singleton_append, blocksOf_append, List.append_eq_nil_iff] at hnone
  exact hx hnone.2.1

/-- Step lemma: an answer reads on, at least as far as the next block, or ends the history at a
    stretch without one. -/
theorem Paged.answer (h : Paged older s seen rest) {c : Signature} (hr : s.request = some c) :
    ∃ more left, rest = more ++ left ∧ Paged older (answered s c) (seen ++ more) left ∧
      ((answered s c).pageExhausted = true ∨ more ≠ []) := by
  obtain ⟨hopen, hcur⟩ := h.asked c hr
  obtain ⟨c', hc', -, hrest⟩ := h.cursor hopen
  obtain rfl := Option.some.inj (hc'.symm.trans hcur)
  rcases getBlocks_page h.unique hrest 20 with
    ⟨hempty, hgap⟩ | ⟨p, x, q, rfl, hp, hx, hblocks, hnext, hq⟩
  · have hend : (answered s c').pageExhausted = true := by simp [answered, hempty]
    refine ⟨[], rest, rfl, ?_, Or.inl hend⟩
    rw [List.append_nil]
    exact { unique := h.unique, split := h.split, noJump := h.noJump
            held := by simp [answered, hempty, h.held]
            ended := fun _ => hgap
            cursor := fun hf => by rw [hend] at hf; cases hf
            loading := rfl
            asked := fun _ hc => by cases hc }
  · have hne : blocksOf (p ++ [x]) ≠ [] := by
      rw [blocksOf_append]
      exact List.append_ne_nil_of_right_ne_nil _ hx
    have hgo : (answered s c').pageExhausted = false := by
      simp [answered, hblocks, hnext, hne, hopen]
    have hmem : x ∈ s.chain.reverse := by
      have hsuffix : olderHistory s.chain (some c') <:+ s.chain.reverse :=
        olderThan_suffix_self (some c') s.chain.reverse
      rw [hrest] at hsuffix
      exact hsuffix.mem (List.mem_append_right _ List.mem_cons_self)
    refine ⟨p ++ [x], q, by simp, ?_, Or.inr (by simp)⟩
    exact { unique := h.unique
            split := by rw [h.split]; simp
            held := by
              rw [blocksOf_append, ← h.held, ← hblocks]
              rfl
            noJump := fun a r ha hnone =>
              stretch_behind hp hx (h.split.symm.trans ha) (h.noJump a r ha hnone) hnone
            ended := fun hf => by rw [hgo] at hf; cases hf
            cursor := fun _ => ⟨x.signature, hnext, List.mem_map_of_mem (List.mem_reverse.mp hmem), hq⟩
            loading := rfl
            asked := fun _ hc => by cases hc }

/-- Once history has ended, every older block is held iff the history has no such stretch. -/
theorem Paged.complete_iff (h : Paged older s seen rest) (he : s.pageExhausted = true) :
    s.olderBlocks = blocksOf older ↔ NoGap older := by
  have hsplit : blocksOf older = blocksOf seen ++ blocksOf rest := by rw [h.split, blocksOf_append]
  constructor
  · intro hall a r ha hnone
    have hrest : blocksOf rest = [] := by
      rw [h.held, hsplit] at hall
      exact List.self_eq_append_right.mp hall
    obtain ⟨a', rfl⟩ : seen <+: a :=
      List.prefix_of_prefix_length_le ⟨rest, h.split.symm⟩ ⟨r, ha.symm⟩ (h.noJump a r ha hnone)
    have hparts := h.split.symm.trans ha
    rw [List.append_assoc] at hparts
    rw [List.append_cancel_left hparts, blocksOf_append, List.append_eq_nil_iff] at hrest
    exact hrest.2
  · intro hgap
    rw [h.held, hsplit, hgap seen rest h.split (h.ended he), List.append_nil]

/-- Run lemma. -/
theorem paged_run {blocks : List PageBlock} {c : Signature} {tr : List (Taken Dashboard PageAction)}
    (hn : (chain.map (·.signature)).Nodup) (hb : blocks.getLast?.map (·.sig) = some c)
    (hc : c ∈ chain.map (·.signature)) (h : Run PageStep (Dashboard.init chain blocks) tr s) :
    ∃ seen rest, Paged (olderHistory chain (some c)) s seen rest := by
  refine h.inv_state (fun s => ∃ seen rest, Paged (olderHistory chain (some c)) s seen rest)
    ⟨_, _, paged_init hn hb hc⟩ ?_
  rintro s l s' ⟨seen, rest, hp⟩ hst
  cases hst with
  | arrive hn => exact ⟨seen, rest, hp.arrive hn⟩
  | click => exact ⟨seen, rest, hp.click⟩
  | answer hr =>
    obtain ⟨more, left, -, hp', -⟩ := hp.answer hr
    exact ⟨seen ++ more, left, hp'⟩
  | lost hr => exact ⟨seen, rest, hp.lost⟩

/-- Clicking and waiting for the answer, again and again, comes to an end. -/
theorem Paged.exists_exhausted (h : Paged older s seen rest) (hidle : s.request = none) :
    ∃ tr s', Run PageStep s tr s' ∧ s'.pageExhausted = true := by
  induction hm : rest.length using Nat.strongRecOn generalizing s seen rest with
  | _ m ih =>
    cases hopen : s.pageExhausted with
    | true => exact ⟨[], s, .nil, hopen⟩
    | false =>
      obtain ⟨c, hc, -, -⟩ := h.cursor hopen
      have hclick : (loadOlder s).request = some c := by
        simp [loadOlder, hc, hopen, h.loading, hidle]
      obtain ⟨more, left, rfl, hp, hend⟩ := h.click.answer hclick
      have hrun := (Run.nil.snoc (PageStep.click (s := s))).snoc (PageStep.answer hclick)
      rcases hend with hend | hmore
      · exact ⟨_, _, hrun, hend⟩
      · have hpos := List.length_pos_of_ne_nil hmore
        rw [List.length_append] at hm
        obtain ⟨tr, s', hr, he⟩ := ih left.length (by omega) hp rfl rfl
        exact ⟨_, s', hrun.append hr, he⟩

end

/-- A history of at most a thousand signatures has no such stretch. -/
theorem noGap_of_length_le {older : List Transaction} (h : older.length ≤ 1000) : NoGap older := by
  rintro a r rfl hnone
  rw [List.length_append] at h
  rwa [List.take_of_length_le (by omega)] at hnone

/-- END OF HISTORY: however the button is clicked, the end is declared with every older block on the
    page iff no thousand signatures without a mined block stand in front of one. -/
theorem end_of_history_iff (chain : List Transaction) (blocks : List PageBlock) (c : Signature)
    (hn : (chain.map (·.signature)).Nodup) (hb : blocks.getLast?.map (·.sig) = some c)
    (hc : c ∈ chain.map (·.signature)) :
    (∀ tr s, Run PageStep (Dashboard.init chain blocks) tr s → s.pageExhausted = true →
      s.olderBlocks = blocksOf (olderHistory chain (some c))) ↔
    NoGap (olderHistory chain (some c)) := by
  constructor
  · intro hall
    obtain ⟨tr, s, hr, he⟩ := (paged_init hn hb hc).exists_exhausted rfl
    obtain ⟨seen, rest, hp⟩ := paged_run hn hb hc hr
    exact (hp.complete_iff he).mp (hall tr s hr he)
  · intro hgap tr s hr he
    obtain ⟨seen, rest, hp⟩ := paged_run hn hb hc hr
    exact (hp.complete_iff he).mpr hgap

/-! The burst of the indexer, and one more mined block after it. -/

namespace Demo

def latest : Transaction := ⟨"x", false, some 9,
  some ["Program log: equium: mined block 1 by A for 25000000 base units"]⟩

/-- A mined block, `n` other transactions, a mined block. -/
def lull (n : ℕ) : List Transaction := burst n ++ [latest]

/-- A signature with another first letter is not in a burst. -/
theorem fresh_burst (n : ℕ) {s : String} (hm : s ≠ "m") (ho : s.toList.head? ≠ some 'o') :
    s ∉ (burst n).map (·.signature) := by
  rw [burst, List.map_cons, List.map_map, List.mem_cons, not_or]
  refine ⟨hm, fun hmem => ?_⟩
  obtain ⟨i, -, rfl⟩ := List.mem_map.mp hmem
  rw [Function.comp_apply, other, String.toList_ofList, List.replicate_succ] at ho
  exact ho rfl

theorem lull_nodup (n : ℕ) : ((lull n).map (·.signature)).Nodup := by
  rw [lull, List.map_append, List.nodup_append_comm]
  exact List.nodup_cons.mpr ⟨fresh_burst n (by decide) (by decide), burst_nodup n⟩

theorem latest_mem (n : ℕ) : latest.signature ∈ (lull n).map (·.signature) :=
  List.mem_map_of_mem (List.mem_append_right _ (List.mem_singleton_self _))

theorem lull_older (n : ℕ) : olderHistory (lull n) (some latest.signature) = (burst n).reverse :=
  olderThan_split (lull_nodup n)

theorem blocksOf_others (ns : List ℕ) : blocksOf (ns.map other) = [] := by
  rw [blocksOf, List.filterMap_map, List.filterMap_eq_nil_iff]
  exact fun _ _ => rfl

theorem mine_block : blocksOf [mine] = [⟨"m", 0, "A", 25000000, 7, ""⟩] := by decide +kernel

theorem lull_gap {n : ℕ} (hn : 1000 ≤ n) : ¬ NoGap (burst n).reverse := by
  intro hgap
  have hrev : (burst n).reverse = (List.range n).reverse.map other ++ [mine] := by
    rw [burst, List.reverse_cons, List.map_reverse]
  have hlen : ((List.range n).reverse.map other).length = n := by simp
  have hfirst : blocksOf ((burst n).reverse.take 1000) = [] := by
    rw [hrev, List.take_append_of_le_length (hn.trans_eq hlen.symm), ← List.map_take]
    exact blocksOf_others _
  have hall : blocksOf (burst n).reverse = [] := hgap [] _ rfl hfirst
  rw [hrev, blocksOf_append, mine_block] at hall
  exact List.append_ne_nil_of_right_ne_nil _ (List.cons_ne_nil _ _) hall

end Demo

/-- A block behind a thousand signatures that mined nothing: the first click declares the end. -/
theorem lull_ends_history : ¬ ∀ (chain : List Transaction) (blocks : List PageBlock) (c : Signature),
    (chain.map (·.signature)).Nodup → blocks.getLast?.map (·.sig) = some c →
      c ∈ chain.map (·.signature) → ∀ tr s, Run PageStep (Dashboard.init chain blocks) tr s →
        s.pageExhausted = true → s.olderBlocks = blocksOf (olderHistory chain (some c)) := by
  intro hall
  have hn := Demo.lull_nodup 1000
  have hb : (blocksOf [Demo.latest]).getLast?.map (·.sig) = some Demo.latest.signature := by
    decide +kernel
  have hp := paged_init hn hb (Demo.latest_mem 1000)
  obtain ⟨tr, s, hr, he⟩ := hp.exists_exhausted rfl
  obtain ⟨seen, rest, hp⟩ := paged_run hn hb (Demo.latest_mem 1000) hr
  have hgap := (hp.complete_iff he).mp (hall _ _ _ hn hb (Demo.latest_mem 1000) tr s hr he)
  rw [Demo.lull_older] at hgap
  exact Demo.lull_gap (Nat.le_refl _) hgap

/-- With three transactions between the two blocks, the older one is on the page when the end is. -/
theorem end_of_history_demo : ∃ tr s,
    Run PageStep (Dashboard.init (Demo.lull 3) (blocksOf [Demo.latest])) tr s ∧
      s.pageExhausted = true ∧ s.olderBlocks = [⟨"m", 0, "A", 25000000, 7, ""⟩] := by
  have hn := Demo.lull_nodup 3
  have hb : (blocksOf [Demo.latest]).getLast?.map (·.sig) = some Demo.latest.signature := by
    decide +kernel
  have hp := paged_init hn hb (Demo.latest_mem 3)
  have hshort : NoGap (olderHistory (Demo.lull 3) (some Demo.latest.signature)) := by
    refine noGap_of_length_le ?_
    rw [Demo.lull_older]
    decide
  obtain ⟨tr, s, hr, he⟩ := hp.exists_exhausted rfl
  refine ⟨tr, s, hr, he, ?_⟩
  rw [(end_of_history_iff _ _ _ hn hb (Demo.latest_mem 3)).mpr hshort tr s hr he, Demo.lull_older]
  decide +kernel

end Equium.Explorer
