import Equium.Explorer.Counts

/-! @src scripts/indexer.ts | name:Passes of the indexer | scheme:run-invariant

    A pass is clean when every write up to the cursor is accepted, or when none was made before it was
    cut off. Between clean passes the index holds exactly the history up to the saved cursor; inside a
    backfill it holds what has been walked, newest page first. -/

namespace Equium.Explorer
open Schemes

variable {batch : BatchSize}

/-! ### Accepted and cut-off writes -/

theorem send_ok {cs : List Command} {s : Store} {rs : List Reply}
    (h : ∀ r ∈ rs.take cs.length, r = .ok) :
    send cs s rs = ⟨.done, cs.foldl Command.apply s, rs.drop cs.length, 0⟩ := by
  induction cs generalizing s rs with
  | nil => rfl
  | cons c cs ih =>
    cases rs with
    | nil =>
      have hnil : ∀ r ∈ ([] : List Reply).take cs.length, r = .ok := by simp
      exact (ih hnil).trans (by simp)
    | cons r rs =>
      have hr : r = .ok := h r (by simp)
      have hrest : ∀ r ∈ rs.take cs.length, r = .ok := fun r hr => h r (by simp [hr])
      subst hr
      exact ih hrest

theorem ok_split {n k : ℕ} {rs : List Reply} (h : ∀ r ∈ rs.take (n + k), r = .ok) :
    (∀ r ∈ rs.take n, r = .ok) ∧ ∀ r ∈ (rs.drop n).take k, r = .ok := by
  rw [List.take_add] at h
  exact ⟨fun r hr => h r (List.mem_append_left _ hr), fun r hr => h r (List.mem_append_right _ hr)⟩

theorem indexBlocks_ok {bs : List MinedBlock} {s : Store} {rs : List Reply}
    (h : ∀ r ∈ rs.take (7 * bs.length), r = .ok) : indexBlocks bs s rs =
      ⟨.done, bs.foldl Store.index s, rs.drop (7 * bs.length), bs.length⟩ := by
  induction bs generalizing s rs with
  | nil => rfl
  | cons b bs ih =>
    have hlen : 7 * (b :: bs).length = 7 + 7 * bs.length := by rw [List.length_cons]; omega
    rw [hlen] at h
    obtain ⟨hfirst, hrest⟩ := ok_split h
    have hone : send (indexBlock b) s rs = ⟨.done, s.index b, rs.drop 7, 0⟩ := send_ok hfirst
    rw [indexBlocks, hone]
    dsimp only
    rw [ih hrest, hlen, List.drop_drop]
    rfl

/-- A process that stops at the first write leaves the store as it was. -/
theorem indexBlocks_stop {bs : List MinedBlock} {s : Store} {rs : List Reply} (hb : bs ≠ [])
    (h : rs.head? = some .stop) : indexBlocks bs s rs = ⟨.stopped, s, rs.tail, 0⟩ := by
  obtain ⟨b, bs, rfl⟩ := List.exists_cons_of_ne_nil hb
  obtain ⟨rs, rfl⟩ := List.head?_eq_some_iff.mp h
  rfl

/-! ### What a page holds -/

/-- The batches make no difference. -/
theorem parseSigs_eq (now : Signature → ℕ) (sigs : List Transaction) :
    parseSigs batch now sigs = parseBatch now sigs.reverse := by
  have hflat := slices_flatten batch.pos sigs.reverse
  have hparts : ∀ xss : List (List Transaction),
      xss.flatMap (parseBatch now) = parseBatch now xss.flatten := by
    intro xss
    induction xss with
    | nil => rfl
    | cons xs xss ih =>
      rw [List.flatMap_cons, ih, List.flatten_cons, parseBatch, parseBatch, parseBatch,
        List.filter_append, List.filterMap_append]
  rw [parseSigs, hparts, hflat]

/-- A block is parsed from each transaction that mined one. -/
theorem parseBatch_cons (now : Signature → ℕ) (t : Transaction) (ts : List Transaction) :
    (t.mined = none ∧ parseBatch now (t :: ts) = parseBatch now ts) ∨
      ∃ b, t.err = false ∧ parseMinedBlock now t = some b ∧ t.mined.isSome = true ∧
        parseBatch now (t :: ts) = b :: parseBatch now ts := by
  unfold parseBatch Transaction.mined
  cases herr : t.err with
  | true =>
    refine Or.inl ⟨rfl, ?_⟩
    simp [herr]
  | false =>
    cases hlog : t.mineLog with
    | none =>
      refine Or.inl ⟨by simp, ?_⟩
      simp [herr, parseMinedBlock, hlog]
    | some m =>
      refine Or.inr ⟨_, rfl, by rw [parseMinedBlock, hlog]; rfl, by simp, ?_⟩
      simp [herr, parseMinedBlock, hlog]

theorem parseBatch_length (now : Signature → ℕ) (ts : List Transaction) :
    (parseBatch now ts).length = (ts.filterMap Transaction.mined).length := by
  induction ts with
  | nil => rfl
  | cons t ts ih =>
    rcases parseBatch_cons now t ts with ⟨hnone, hsame⟩ | ⟨b, -, -, hsome, hmore⟩
    · rw [hsame, ih, List.filterMap_cons_none hnone]
    · obtain ⟨m, hm⟩ := Option.isSome_iff_exists.mp hsome
      rw [hmore, List.length_cons, ih, List.filterMap_cons_some hm, List.length_cons]

/-- Loop lemma: indexing a page, oldest first, adds its transactions to what the store holds. -/
theorem holds_page (now : Signature → ℕ) (ts : List Transaction) {s : Store}
    {es : List Transaction} (h : Holds s es) (hn : ((es ++ ts).map (·.signature)).Nodup) :
    Holds ((parseBatch now ts).foldl Store.index s) (es ++ ts) ∧
      ((parseBatch now ts).foldl Store.index s).cursor = s.cursor := by
  induction ts generalizing s es with
  | nil => exact ⟨by simpa [parseBatch] using h, rfl⟩
  | cons t ts ih =>
    have hmove : es ++ t :: ts = (es ++ [t]) ++ ts := by simp
    rw [hmove] at hn ⊢
    rcases parseBatch_cons now t ts with ⟨hnone, hsame⟩ | ⟨b, hok, hb, -, hmore⟩
    · rw [hsame]
      exact ih ((Holds.append_idle (by simpa using hnone)).mpr h) hn
    · have hnew : t.signature ∉ es.map (·.signature) := by
        rw [List.map_append, List.map_append, List.append_assoc, List.nodup_append] at hn
        intro hmem
        exact hn.2.2 _ hmem _ (by simp) rfl
      rw [hmore]
      exact ih (h.index hok hb hnew) hn

/-! ### Clean steps -/

/-- The mined blocks among the signatures of a page. -/
def minedIn (sigs : List Transaction) : ℕ := (sigs.filterMap Transaction.mined).length

/-- The first writes of a pass: all are accepted, or the process stops before the first of them, or
    there is none to make for a block. -/
def CleanWrites (blocks writes : ℕ) (rs : List Reply) : Prop :=
  (∀ r ∈ rs.take writes, r = .ok) ∨ rs.head? = some .stop ∨ blocks = 0

/-- No write for a block is refused; a pass that has made one saves its cursor; reads that tell an
    indexed store from an empty one are answered. Some harmless faults are excluded as well: an
    outage of every command of a pass, that of its cursor included, and a refused `zcard` alone. -/
def Clean (s : Sys) : Action → Prop
  | .start r => r = .fail → s.store.cursor = none
  | .check zcard _ => zcard = .fail → s.store.miners.keys = []
  | .page _ _ rs => ∀ before newestSig total, s.phase = .backfilling before newestSig total →
    let sigs := getSignaturesForAddress s.chain pageSize before none
    let writes := 7 * minedIn sigs + if sigs.length < pageSize then 1 else 0
    (∀ r ∈ rs.take writes, r = .ok) ∨ total = 0 ∧ CleanWrites (minedIn sigs) writes rs
  | .tick _ _ read rs => (read = .fail → s.store.cursor = none) ∧
    let sigs := tickSigs s.chain s.store.cursor
    CleanWrites (minedIn sigs) (7 * minedIn sigs + 1) rs
  | .stop => ∀ before newestSig total, s.phase = .backfilling before newestSig total → total = 0
  | _ => True

/-- What a tick leaves out: signatures newer than the cursor, beyond the newest page of them. -/
def skipped (s : Sys) : List Transaction :=
  (newerThan (·.signature) s.store.cursor s.chain.reverse).drop pageSize

def Action.isTick : Action → Bool
  | .tick _ _ _ _ => true
  | _ => false

/-- No mined block is left out. -/
def NoSkip (s : Sys) : Prop := ∀ t ∈ skipped s, t.mined = none

/-- A store without records has no miners. -/
theorem Holds.no_miners {s : Store} {es : List Transaction} (h : Holds s es)
    (hz : s.blocksByHeight.keys = []) : s.miners.keys = [] := by
  rw [List.eq_nil_iff_forall_not_mem]
  intro w hw
  obtain ⟨t, ht, hmined⟩ := List.countP_pos_iff.mp (h.members w hw)
  have hpos : 0 < es.countP (Transaction.minedAs t.signature) := by
    refine List.countP_pos_iff.mpr ⟨t, ht, ?_⟩
    rw [Transaction.minedBy, Option.any_eq_true] at hmined
    obtain ⟨m, hm, -⟩ := hmined
    simp [Transaction.minedAs, Option.mem_def.mp hm]
  rw [← h.records, Store.records, hz] at hpos
  exact absurd hpos (Nat.lt_irrefl 0)

/-! ### The invariant -/

/-- The store holds a prefix of the chain, and the cursor is its last signature. -/
def Indexed (chain : List Transaction) (s : Store) : Prop :=
  ∃ seen more, chain = seen ++ more ∧ s.cursor = seen.getLast?.map (·.signature) ∧ Holds s seen

/-- A backfill has walked the chain from `newestSig` back to `before`. -/
def Walked (chain : List Transaction) (s : Store) (before newestSig : Option Signature)
    (total : ℕ) : Prop :=
  s.cursor = none ∧ ∃ old walked more, chain = old ++ (walked ++ more) ∧ Holds s walked ∧
    total = minedIn walked ∧ before = walked.head?.map (·.signature) ∧
    newestSig = walked.getLast?.map (·.signature) ∧ (walked = [] → more = [])

/-- No pass is under way. -/
def Phase.between : Phase → Bool
  | .backfilling _ _ _ => false
  | .migrating _ => false
  | _ => true

/-- Between passes the store is indexed; inside a backfill it holds what was walked. -/
structure Inv (s : Sys) : Prop where
  unique : (s.chain.map (·.signature)).Nodup
  phase : match s.phase with
    | .backfilling before newestSig total => Walked s.chain s.store before newestSig total
    | .migrating _ => False
    | _ => Indexed s.chain s.store

theorem minedIn_zero {ts : List Transaction} (h : minedIn ts = 0) : ∀ t ∈ ts, t.mined = none := by
  simpa [minedIn, List.filterMap_eq_nil_iff] using h

/-- A store whose walked transactions mined nothing is the empty index. -/
theorem indexed_of_idle {chain : List Transaction} {s : Store} {walked : List Transaction}
    (hc : s.cursor = none) (h : Holds s walked) (hz : minedIn walked = 0) : Indexed chain s := by
  refine ⟨[], chain, rfl, hc, ?_⟩
  exact (Holds.append_idle (minedIn_zero hz)).mp (show Holds s ([] ++ walked) from h)

theorem inv_init : Inv Sys.init := ⟨List.nodup_nil, [], [], rfl, rfl, holds_empty⟩

theorem minedIn_append (xs ys : List Transaction) : minedIn (xs ++ ys) = minedIn xs + minedIn ys := by
  rw [minedIn, List.filterMap_append, List.length_append]
  rfl

theorem minedIn_reverse (xs : List Transaction) : minedIn xs.reverse = minedIn xs := by
  rw [minedIn, List.filterMap_reverse, List.length_reverse]
  rfl

/-- The chain that a listing with an old cursor shows does not depend on what arrived since. -/
theorem Walked.listing {chain : List Transaction} {s : Store} {before newestSig : Option Signature}
    {total : ℕ} (hn : (chain.map (·.signature)).Nodup) (h : Walked chain s before newestSig total) :
    s.cursor = none ∧ ∃ old page walked more, chain = old ++ page ++ (walked ++ more) ∧
      Holds s walked ∧ total = minedIn walked ∧ newestSig = walked.getLast?.map (·.signature) ∧
      before = walked.head?.map (·.signature) ∧ (walked = [] → more = []) ∧
      getSignaturesForAddress chain pageSize before none = page.reverse ∧
      (page.length < pageSize → old = []) := by
  obtain ⟨hc, rest, walked, more, rfl, hh, ht, hb, hnew, hempty⟩ := h
  obtain ⟨old, page, rfl, htake, -, hshort⟩ := exists_newest pageSize rest
  refine ⟨hc, old, page, walked, more, rfl, hh, ht, hnew, hb, hempty, ?_, hshort⟩
  rw [getSignaturesForAddress, newerThan, hb, ← htake]
  congr 1
  rcases eq_or_ne walked [] with rfl | hw
  · rw [hempty rfl]
    simp [olderThan]
  · exact olderThan_suffix hn hw

/-! ### Steps -/

/-- A single write is accepted, or it changes nothing. -/
theorem send_one (c : Command) (s : Store) (rs : List Reply) :
    (send [c] s rs).outcome = .done ∧ (send [c] s rs).store = c.apply s ∨
      rs.head? ≠ some .ok ∧ rs ≠ [] ∧ (send [c] s rs).outcome ≠ .done ∧ (send [c] s rs).store = s := by
  cases rs with
  | nil => exact Or.inl ⟨rfl, rfl⟩
  | cons r rs =>
    cases r with
    | ok => exact Or.inl ⟨rfl, rfl⟩
    | fail => exact Or.inr ⟨by simp, by simp, by simp [send], rfl⟩
    | stop => exact Or.inr ⟨by simp, by simp, by simp [send], rfl⟩

/-- Trimming and bookkeeping keep the index, whatever becomes of them. -/
theorem Holds.send_trim {s : Store} {es : List Transaction} (h : Holds s es) (cutoff : ℕ)
    (rs : List Reply) : (send [.trimRecent cutoff] s rs).store.cursor = s.cursor ∧
      Holds (send [.trimRecent cutoff] s rs).store es := by
  rcases send_one (.trimRecent cutoff) s rs with ⟨-, hs⟩ | ⟨-, -, -, hs⟩
  · rw [hs]
    exact ⟨rfl, h.congr rfl rfl rfl rfl⟩
  · rw [hs]
    exact ⟨rfl, h⟩

theorem Indexed.send_trim {chain : List Transaction} {s : Store} (h : Indexed chain s)
    (cutoff : ℕ) (rs : List Reply) : Indexed chain (send [.trimRecent cutoff] s rs).store := by
  obtain ⟨seen, more, he, hc, hh⟩ := h
  obtain ⟨hcur, hh'⟩ := hh.send_trim cutoff rs
  exact ⟨seen, more, he, hcur.trans hc, hh'⟩

theorem Indexed.send_meta {chain : List Transaction} {s : Store} (h : Indexed chain s)
    (rs : List Reply) : Indexed chain (send [.hsetMeta] s rs).store := by
  rcases send_one .hsetMeta s rs with ⟨-, hs⟩ | ⟨-, -, -, hs⟩
  · rw [hs]
    exact h
  · rw [hs]
    exact h

/-- Saving the cursor at the end of what the store holds. -/
theorem Holds.indexed {s : Store} {seen more : List Transaction} {t : Transaction}
    (h : Holds s seen) (ht : seen.getLast? = some t) :
    Indexed (seen ++ more) ((Command.setCursor t.signature).apply s) :=
  ⟨seen, more, rfl, by rw [ht]; rfl, h.congr rfl rfl rfl rfl⟩

/-- The end of a backfill: the cursor is saved, or there was nothing to index. -/
theorem finishBackfill_indexed {s : Sys} {seen more : List Transaction} {store : Store}
    {newestSig : Option Signature} (cutoff : ℕ) {rs : List Reply} (he : s.chain = seen ++ more)
    (hnew : newestSig = seen.getLast?.map (·.signature)) (hc : store.cursor = none)
    (h : Holds store seen) (hok : (∀ r ∈ rs.take 1, r = .ok) ∨ minedIn seen = 0) :
    (finishBackfill s newestSig cutoff store rs).chain = s.chain ∧
      Indexed s.chain (finishBackfill s newestSig cutoff store rs).store ∧
      (finishBackfill s newestSig cutoff store rs).phase.between = true := by
  have hsaved : Indexed s.chain (send (newestSig.toList.map .setCursor) store rs).store := by
    cases hlast : seen.getLast? with
    | none =>
      obtain rfl := List.getLast?_eq_none_iff.mp hlast
      subst hnew
      exact ⟨[], more, he, hc, h⟩
    | some t =>
      rw [hlast] at hnew
      subst hnew
      change Indexed s.chain (send [.setCursor t.signature] store rs).store
      rcases send_one (.setCursor t.signature) store rs with ⟨-, hs⟩ | ⟨hr, hne, -, hs⟩
      · rw [hs, he]
        exact h.indexed hlast
      · have hzero : minedIn seen = 0 := by
          rcases hok with hok | hzero
          · obtain ⟨r, rs, rfl⟩ := List.exists_cons_of_ne_nil hne
            exact absurd (congrArg some (hok r (by simp))) hr
          · exact hzero
        rw [hs]
        exact indexed_of_idle hc h hzero
  unfold finishBackfill
  dsimp only
  split_ifs with hthrown hstopped hdone
  · exact ⟨rfl, hsaved, rfl⟩
  · exact ⟨rfl, hsaved.send_trim cutoff _, rfl⟩
  · exact ⟨rfl, (hsaved.send_trim cutoff _).send_meta _, rfl⟩
  · exact ⟨rfl, (hsaved.send_trim cutoff _).send_meta _, rfl⟩

theorem inv_of_indexed {s : Sys} (hn : (s.chain.map (·.signature)).Nodup)
    (h : Indexed s.chain s.store) (hp : s.phase.between = true) : Inv s := by
  refine ⟨hn, ?_⟩
  cases hph : s.phase with
  | backfilling before newestSig total => simp [hph, Phase.between] at hp
  | migrating before => simp [hph, Phase.between] at hp
  | _ => exact h

/-- The newest signature of a backfill is taken from its first page. -/
theorem newestSig_eq {before newestSig : Option Signature} {page walked : List Transaction}
    (hb : before = walked.head?.map (·.signature))
    (hn : newestSig = walked.getLast?.map (·.signature)) :
    (if before = none ∧ newestSig = none then page.reverse.head?.map (·.signature) else newestSig) =
      (page ++ walked).getLast?.map (·.signature) := by
  rcases List.eq_nil_or_concat walked with rfl | ⟨ws, w, rfl⟩
  · rw [if_pos ⟨hb, hn⟩, List.head?_reverse, List.append_nil]
  · rw [List.concat_eq_append] at hn ⊢
    rw [List.getLast?_concat] at hn
    rw [← List.append_assoc, List.getLast?_concat, if_neg (by simp [hn]), hn]

variable (batch) in
/-- What is indexed of a page, when the writes for its blocks are accepted. -/
theorem processSigs_ok (now : Signature → ℕ) {page seen : List Transaction} {s : Store}
    {rs : List Reply} (h : Holds s seen) (hn : ((page ++ seen).map (·.signature)).Nodup)
    (hok : ∀ r ∈ rs.take (7 * minedIn page), r = .ok) :
    ∃ s', processSigs batch now page.reverse s rs =
      ⟨.done, s', rs.drop (7 * minedIn page), minedIn page⟩ ∧ Holds s' (page ++ seen) ∧
        s'.cursor = s.cursor := by
  have hlen : (parseBatch now page).length = minedIn page := parseBatch_length now page
  have hperm : (seen ++ page).Perm (page ++ seen) := List.perm_append_comm
  obtain ⟨hh, hc⟩ := holds_page now page h ((hperm.map _).nodup_iff.mpr hn)
  refine ⟨_, ?_, hh.perm hperm, hc⟩
  rw [processSigs, parseSigs_eq, List.reverse_reverse, ← hlen]
  exact indexBlocks_ok (hlen ▸ hok)

variable (batch) in
/-- A process that stops before the first write of a page has indexed none of it. -/
theorem processSigs_stop (now : Signature → ℕ) {page : List Transaction} {s : Store}
    {rs : List Reply} (hm : minedIn page ≠ 0) (hstop : rs.head? = some .stop) :
    processSigs batch now page.reverse s rs = ⟨.stopped, s, rs.tail, 0⟩ := by
  rw [processSigs, parseSigs_eq, List.reverse_reverse]
  refine indexBlocks_stop ?_ hstop
  intro hnil
  exact hm ((parseBatch_length now page).symm.trans (congrArg List.length hnil))

/-- A cursor read that did not stop the process found the cursor, when a refused one had none to find. -/
theorem readCursor_eq {s : Store} {r : Reply} (hr : r ≠ .stop) (hfail : r = .fail → s.cursor = none) :
    readCursor s r = s.cursor := by
  cases r with
  | ok => rfl
  | fail => exact (hfail rfl).symm
  | stop => exact absurd rfl hr

/-- A clean page that was not stopped at its first write has all its blocks written, and its cursor if
    it is the last one. -/
theorem page_writes {page : List Transaction} {total : ℕ} {rs : List Reply}
    (hclean : (∀ r ∈ rs.take (7 * minedIn page + if page.length < pageSize then 1 else 0), r = .ok) ∨
      total = 0 ∧ CleanWrites (minedIn page)
        (7 * minedIn page + if page.length < pageSize then 1 else 0) rs)
    (hstop : ¬ (minedIn page ≠ 0 ∧ rs.head? = some .stop ∧ total = 0)) :
    (∀ r ∈ rs.take (7 * minedIn page), r = .ok) ∧
      ((page.length < pageSize → ∀ r ∈ (rs.drop (7 * minedIn page)).take 1, r = .ok) ∨
        minedIn page = 0 ∧ total = 0) := by
  by_cases hm : minedIn page = 0 ∧ total = 0
  · exact ⟨by simp [hm.1], Or.inr hm⟩
  · have hall : ∀ r ∈ rs.take (7 * minedIn page + if page.length < pageSize then 1 else 0),
        r = .ok := by
      rcases hclean with hall | ⟨hz, hall | hhead | hm'⟩
      · exact hall
      · exact hall
      · exact absurd ⟨fun h0 => hm ⟨h0, hz⟩, hhead, hz⟩ hstop
      · exact absurd ⟨hm', hz⟩ hm
    obtain ⟨hok, hlast⟩ := ok_split hall
    exact ⟨hok, Or.inl fun hlt => by rwa [if_pos hlt] at hlast⟩

/-- A page of a backfill. -/
theorem inv_page {s : Sys} {before newestSig : Option Signature} {total : ℕ}
    (h : Inv s) (hp : s.phase = .backfilling before newestSig total) (now : Signature → ℕ)
    (cutoff : ℕ) {rs : List Reply} (hclean : Clean s (.page now cutoff rs)) :
    Inv (backfillPage batch s before newestSig total now cutoff rs) := by
  have hwalk := h.phase
  rw [hp] at hwalk
  obtain ⟨hc, old, page, walked, more, hchain, hh, ht, hnew, hb, hempty, hlist, hshort⟩ :=
    Walked.listing h.unique hwalk
  have hclean := hclean before newestSig total hp
  dsimp only at hclean
  rw [hlist, minedIn_reverse, List.length_reverse] at hclean
  unfold backfillPage
  rw [hlist]
  dsimp only
  by_cases hnil : page.reverse = []
  · -- the whole chain has been walked
    rw [if_pos hnil]
    rw [List.reverse_eq_nil_iff] at hnil
    subst hnil
    have hold := hshort (by decide)
    subst hold
    have hok : (∀ r ∈ rs.take 1, r = .ok) ∨ minedIn walked = 0 := by
      rcases hclean with hok | ⟨hz, -⟩
      · exact Or.inl (by simpa [minedIn] using hok)
      · exact Or.inr (ht ▸ hz)
    obtain ⟨hch, hind, hph⟩ :=
      finishBackfill_indexed cutoff (by simpa using hchain) hnew hc hh hok
    exact inv_of_indexed (hch ▸ h.unique) (hch ▸ hind) hph
  · have hne : page ≠ [] := fun hp => hnil (by rw [hp]; rfl)
    rw [if_neg hnil, newestSig_eq hb hnew]
    have hn : ((page ++ walked).map (·.signature)).Nodup := by
      have hu := h.unique
      rw [hchain] at hu
      refine hu.sublist (List.Sublist.map _ ?_)
      rw [List.append_assoc]
      exact (List.append_sublist_append_left page).mpr (List.sublist_append_left walked more)
        |>.trans (List.sublist_append_right old _)
    by_cases hstop : minedIn page ≠ 0 ∧ rs.head? = some .stop ∧ total = 0
    · rw [processSigs_stop batch now hstop.1 hstop.2.1]
      exact ⟨h.unique, indexed_of_idle hc hh (ht ▸ hstop.2.2)⟩
    · -- the page is indexed as a whole
      obtain ⟨hok, hlast⟩ := page_writes hclean hstop
      obtain ⟨s', hproc, hh', hc'⟩ := processSigs_ok batch now hh hn hok
      rw [hproc]
      dsimp only
      rw [if_neg (by decide)]
      split_ifs with hlt
      · have hold := hshort (by simpa using hlt)
        subst hold
        obtain ⟨hch, hind, hph⟩ := finishBackfill_indexed cutoff (by simpa using hchain) rfl
          (hc'.trans hc) hh' (hlast.imp (fun hl => hl (by simpa using hlt)) fun hz => by
            rw [minedIn_append, ← ht, hz.1, hz.2])
        exact inv_of_indexed (hch ▸ h.unique) (hch ▸ hind) hph
      · refine ⟨h.unique, hc'.trans hc, old, page ++ walked, more, ?_, hh', ?_, ?_, rfl, ?_⟩
        · rw [hchain]
          simp
        · rw [minedIn_append, ht, Nat.add_comm]
        · obtain ⟨t, page, rfl⟩ := List.exists_cons_of_ne_nil hne
          rw [List.getLast?_reverse]
          rfl
        · intro hp
          exact absurd (List.append_eq_nil_iff.mp hp).1 hne

/-- What a tick fetches from an indexed store, and what it leaves out. -/
theorem Indexed.fetched {chain : List Transaction} {s : Store}
    (hn : (chain.map (·.signature)).Nodup) (h : Indexed chain s) :
    ∃ seen old page, chain = seen ++ (old ++ page) ∧
      s.cursor = seen.getLast?.map (·.signature) ∧ Holds s seen ∧
      tickSigs chain s.cursor = page.reverse ∧
      (newerThan (·.signature) s.cursor chain.reverse).drop pageSize = old.reverse ∧
      (page = [] → old = []) := by
  obtain ⟨seen, more, rfl, hc, hh⟩ := h
  obtain ⟨old, page, rfl, htake, hdrop, hshort⟩ := exists_newest pageSize more
  have hnewer : newerThan (·.signature) s.cursor (seen ++ (old ++ page)).reverse =
      (old ++ page).reverse := by
    rw [hc]
    exact newerThan_initial hn
  refine ⟨seen, old, page, rfl, hc, hh, ?_, ?_, fun hp => hshort (by rw [hp]; decide)⟩
  · rw [tickSigs, getSignaturesForAddress, olderThan, hnewer, htake]
  · rw [hnewer, hdrop]

/-- What a tick lists is new. -/
theorem nodup_listed {chain seen old listed : List Transaction}
    (hn : (chain.map (·.signature)).Nodup) (hchain : chain = seen ++ (old ++ listed)) :
    ((listed ++ seen).map (·.signature)).Nodup := by
  rw [hchain] at hn
  refine (List.perm_append_comm.map _).nodup_iff.mp (hn.sublist (List.Sublist.map _ ?_))
  exact (List.append_sublist_append_left seen).mpr (List.sublist_append_right old _)

variable (batch) in
/-- A tick that saves its cursor adds the page it fetched. -/
theorem tick_saves {s : Sys} {seen old page : List Transaction} {newest : Transaction}
    (hp : s.phase = .ready)
    (hn : (s.chain.map (·.signature)).Nodup) (hchain : s.chain = seen ++ (old ++ (page ++ [newest])))
    (hh : Holds s.store seen)
    (hlist : tickSigs s.chain s.store.cursor = (page ++ [newest]).reverse) (now : Signature → ℕ)
    (cutoff : ℕ) {read : Reply} {rs : List Reply} (hstop : read ≠ .stop)
    (hread : readCursor s.store read = s.store.cursor)
    (hok : ∀ r ∈ rs.take (7 * minedIn (page ++ [newest]) + 1), r = .ok) :
    (tick batch s now cutoff read rs).chain = s.chain ∧
      (tick batch s now cutoff read rs).phase.between = true ∧
      (tick batch s now cutoff read rs).store.cursor = some newest.signature ∧
      Holds (tick batch s now cutoff read rs).store (seen ++ (page ++ [newest])) := by
  obtain ⟨hok, hlast⟩ := ok_split hok
  obtain ⟨s', hproc, hh', -⟩ := processSigs_ok batch now hh (nodup_listed hn hchain) hok
  have hsaved := @send_ok [.setCursor newest.signature] s' _ hlast
  have hheld : Holds ((Command.setCursor newest.signature).apply s') (seen ++ (page ++ [newest])) :=
    (hh'.perm List.perm_append_comm).congr rfl rfl rfl rfl
  have hrev : (page ++ [newest]).reverse = newest :: page.reverse := by simp
  rw [hrev] at hlist hproc
  unfold tick
  rw [if_neg hstop, hread, hlist]
  dsimp only
  rw [hproc]
  dsimp only
  rw [if_neg (by decide), hsaved]
  dsimp only
  refine ⟨rfl, ?_, ?_⟩
  · split_ifs
    · rfl
    · rw [hp]
      rfl
  · obtain ⟨hcur, htrim⟩ :=
      hheld.send_trim cutoff ((rs.drop (7 * minedIn (page ++ [newest]))).drop 1)
    exact ⟨hcur, htrim⟩

variable (batch) in
/-- A tick whose cursor write is refused, on a page without a mined block. -/
theorem tick_unsaved {s : Sys} {seen page : List Transaction} {newest : Transaction}
    (hp : s.phase = .ready)
    (hh : Holds s.store seen) (hn : ((page ++ [newest] ++ seen).map (·.signature)).Nodup)
    (hlist : tickSigs s.chain s.store.cursor = (page ++ [newest]).reverse) (now : Signature → ℕ)
    (cutoff : ℕ) {read : Reply} {rs : List Reply} (hstop : read ≠ .stop)
    (hread : readCursor s.store read = s.store.cursor) (hm : minedIn (page ++ [newest]) = 0)
    (hfail : ¬ ∀ r ∈ rs.take 1, r = .ok) :
    (tick batch s now cutoff read rs).chain = s.chain ∧
      (tick batch s now cutoff read rs).phase.between = true ∧
      (tick batch s now cutoff read rs).store.cursor = s.store.cursor ∧
      Holds (tick batch s now cutoff read rs).store seen := by
  obtain ⟨s', hproc, hh', hc'⟩ := processSigs_ok batch now hh hn
    (show ∀ r ∈ rs.take (7 * minedIn (page ++ [newest])), r = .ok by simp [hm])
  have hheld : Holds s' seen :=
    (Holds.append_idle (minedIn_zero hm)).mp (hh'.perm List.perm_append_comm)
  have hrev : (page ++ [newest]).reverse = newest :: page.reverse := by simp
  rw [hrev] at hlist hproc
  rw [hm] at hproc
  obtain ⟨r, rs, rfl⟩ : ∃ r rs', rs = r :: rs' := by
    cases rs with
    | nil => exact absurd (by simp) hfail
    | cons r rs => exact ⟨r, rs, rfl⟩
  unfold tick
  rw [if_neg hstop, hread, hlist]
  dsimp only
  rw [hproc]
  cases r with
  | ok => exact absurd (by simp) hfail
  | fail => exact ⟨rfl, by rw [hp]; rfl, hc', hheld⟩
  | stop => exact ⟨rfl, rfl, hc', hheld⟩

theorem perm_fill {α : Type} (seen old page : List α) :
    (seen ++ page ++ old).Perm (seen ++ (old ++ page)) := by
  rw [List.append_assoc]
  exact List.perm_append_comm.append_left seen

/-- What was left out mined nothing, so the store holds the chain up to the new cursor. -/
theorem Holds.fill {s : Store} {seen old page : List Transaction} (h : Holds s (seen ++ page))
    (hold : ∀ t ∈ old, t.mined = none) : Holds s (seen ++ (old ++ page)) :=
  ((Holds.append_idle hold).mpr h).perm (perm_fill seen old page)

variable (batch) in
/-- A clean tick that leaves out no mined block. -/
theorem tick_indexed {s : Sys} (h : Inv s) (hp : s.phase = .ready) (now : Signature → ℕ)
    (cutoff : ℕ) {read : Reply} {rs : List Reply} (hclean : Clean s (.tick now cutoff read rs))
    (hskip : NoSkip s) : (tick batch s now cutoff read rs).chain = s.chain ∧
      (tick batch s now cutoff read rs).phase.between = true ∧
      Indexed s.chain (tick batch s now cutoff read rs).store := by
  have hind : Indexed s.chain s.store := by
    have hphase := h.phase
    rwa [hp] at hphase
  by_cases hstop : read = .stop
  · unfold tick
    rw [if_pos hstop]
    exact ⟨rfl, rfl, hind⟩
  · obtain ⟨hfail, hwrites⟩ := hclean
    have hread := readCursor_eq hstop hfail
    obtain ⟨seen, old, page, hchain, hc, hh, hlist, hold, -⟩ := hind.fetched h.unique
    have hidle : ∀ t ∈ old, t.mined = none := by
      intro t ht
      refine hskip t ?_
      rw [skipped, hold]
      exact List.mem_reverse.mpr ht
    rcases List.eq_nil_or_concat page with rfl | ⟨page, newest, rfl⟩
    · -- nothing new
      unfold tick
      rw [if_neg hstop, hread, hlist]
      exact ⟨rfl, congrArg Phase.between hp, hind⟩
    · rw [List.concat_eq_append] at hchain hlist
      dsimp only at hwrites
      rw [hlist, minedIn_reverse] at hwrites
      have hnodup := nodup_listed h.unique hchain
      by_cases hcut : minedIn (page ++ [newest]) ≠ 0 ∧ rs.head? = some .stop
      · have hproc := processSigs_stop batch (s := s.store) now hcut.1 hcut.2
        have hrev : (page ++ [newest]).reverse = newest :: page.reverse := by simp
        rw [hrev] at hlist hproc
        unfold tick
        rw [if_neg hstop, hread, hlist]
        dsimp only
        rw [hproc]
        exact ⟨rfl, rfl, hind⟩
      · by_cases hall : ∀ r ∈ rs.take (7 * minedIn (page ++ [newest]) + 1), r = .ok
        · obtain ⟨hch, hph, hcur, hheld⟩ := tick_saves batch hp h.unique hchain hh hlist
            now cutoff hstop hread hall
          refine ⟨hch, hph, seen ++ (old ++ (page ++ [newest])), [],
            by rw [hchain, List.append_nil], ?_, hheld.fill hidle⟩
          rw [hcur, ← List.append_assoc, ← List.append_assoc, List.getLast?_concat]
          rfl
        · have hm : minedIn (page ++ [newest]) = 0 := by
            rcases hwrites with hok | hhead | hm
            · exact absurd hok hall
            · by_contra hm
              exact hcut ⟨hm, hhead⟩
            · exact hm
          rw [hm] at hall
          obtain ⟨hch, hph, hcur, hheld⟩ := tick_unsaved batch hp hh hnodup hlist now cutoff
            hstop hread hm hall
          exact ⟨hch, hph, seen, _, hchain, hcur.trans hc, hheld⟩

/-- New transactions. -/
theorem inv_arrive {s : Sys} (h : Inv s) {txs : List Transaction}
    (hn : ((s.chain ++ txs).map (·.signature)).Nodup) : Inv { s with chain := s.chain ++ txs } := by
  refine ⟨hn, ?_⟩
  have hphase := h.phase
  cases hp : s.phase with
  | backfilling before newestSig total =>
    rw [hp] at hphase
    obtain ⟨hc, old, walked, more, hchain, hh, ht, hb, hnew, hempty⟩ := hphase
    rcases eq_or_ne walked [] with rfl | hw
    · -- nothing walked yet: what arrives is still to be walked
      refine ⟨hc, s.chain ++ txs, [], [], by simp, hh, ht, hb, hnew, fun _ => rfl⟩
    · refine ⟨hc, old, walked, more ++ txs, by rw [hchain]; simp, hh, ht, hb, hnew, ?_⟩
      exact fun hnil => absurd hnil hw
  | migrating before =>
    rw [hp] at hphase
    exact hphase
  | _ =>
    rw [hp] at hphase
    obtain ⟨seen, more, hchain, hc, hh⟩ := hphase
    exact ⟨seen, more ++ txs, by rw [hchain]; simp, hc, hh⟩

/-- The start of the process: a resumed index, or a backfill from nothing. -/
theorem inv_start {s : Sys} (h : Inv s) (hp : s.phase = .down) {r : Reply}
    (hclean : Clean s (.start r)) : Inv (start s r) := by
  have hind := h.phase
  rw [hp] at hind
  unfold start
  by_cases hr : r = .stop
  · rw [if_pos hr]
    exact h
  · rw [if_neg hr, readCursor_eq hr hclean]
    cases hc : s.store.cursor with
    | some sig => exact inv_of_indexed h.unique hind rfl
    | none =>
      obtain ⟨seen, more, hchain, hlast, hh⟩ := hind
      rw [hc] at hlast
      obtain rfl : seen = [] := by simpa using hlast.symm
      exact ⟨h.unique, hc, s.chain, [], [], by simp, hh, rfl, rfl, rfl, fun _ => rfl⟩

/-- The migration check finds nothing to migrate. -/
theorem inv_check {s : Sys} (h : Inv s) (hp : s.phase = .seeding) {zcard hlen : Reply}
    (hclean : Clean s (.check zcard hlen)) : Inv (checkMigration s zcard hlen) := by
  have hind := h.phase
  rw [hp] at hind
  unfold checkMigration
  by_cases hr : zcard = .stop ∨ hlen = .stop
  · rw [if_pos hr]
    exact inv_of_indexed h.unique hind rfl
  · rw [if_neg hr]
    dsimp only
    rw [if_neg]
    · exact inv_of_indexed h.unique hind rfl
    · -- a miner in the table has a record, so an empty record set means an empty table
      rintro ⟨hz, hl⟩
      obtain ⟨seen, more, -, -, hh⟩ := hind
      have hempty : s.store.miners.keys = [] := by
        by_cases hf : zcard = .fail
        · exact hclean hf
        · rw [if_neg hf, List.length_eq_zero_iff] at hz
          exact hh.no_miners hz
      rw [hempty, List.length_nil, ite_self] at hl
      exact absurd hl (Nat.lt_irrefl 0)

/-- A stop; a backfill it cuts short has found no block. -/
theorem inv_stop {s : Sys} (h : Inv s) (hclean : Clean s .stop) :
    Inv { s with phase := .down } := by
  have hphase := h.phase
  cases hp : s.phase with
  | backfilling before newestSig total =>
    rw [hp] at hphase
    obtain ⟨hc, old, walked, more, hchain, hh, ht, hb, hnew, hempty⟩ := hphase
    exact inv_of_indexed h.unique
      (indexed_of_idle hc hh (ht ▸ hclean before newestSig total hp)) rfl
  | migrating before =>
    rw [hp] at hphase
    cases hphase
  | _ =>
    rw [hp] at hphase
    exact inv_of_indexed h.unique hphase rfl

/-- Step lemma: clean steps that leave out no mined block keep the invariant. -/
theorem inv_step {s s' : Sys} {a : Action} (h : Inv s) (hst : Step batch s a s')
    (hclean : Clean s a) (hskip : a.isTick = true → NoSkip s) : Inv s' := by
  cases hst with
  | arrive hn => exact inv_arrive h hn
  | start hp r => exact inv_start h hp hclean
  | page hp now cutoff rs => exact inv_page h hp now cutoff hclean
  | check hp zcard hlen => exact inv_check h hp hclean
  | migrate hp now rs =>
    have hphase := h.phase
    rw [hp] at hphase
    cases hphase
  | tick hp now cutoff read rs =>
    obtain ⟨hch, hph, hind⟩ := tick_indexed batch h hp now cutoff hclean (hskip rfl)
    exact inv_of_indexed (hch ▸ h.unique) (hch ▸ hind) hph
  | stop => exact inv_stop h hclean

/-- Run lemma: every state of a clean run without left-out blocks. -/
theorem inv_run {tr : List (Taken Sys Action)} {s : Sys} (h : Run (Step batch) Sys.init tr s)
    (hclean : ∀ t ∈ tr, Clean t.pre t.label)
    (hskip : ∀ t ∈ tr, t.label.isTick = true → NoSkip t.pre) : Inv s := by
  induction h with
  | nil => exact inv_init
  | snoc hr hst ih =>
    have hpre := ih (fun t ht => hclean t (List.mem_append_left _ ht))
      fun t ht => hskip t (List.mem_append_left _ ht)
    exact inv_step hpre hst (hclean _ (List.mem_append_right _ (List.mem_singleton_self _)))
      (hskip _ (List.mem_append_right _ (List.mem_singleton_self _)))

end Equium.Explorer
