import Equium.Explorer.Ticks

/-! @src scripts/indexer.ts | name:Faults of the indexer | scheme:run-invariant

    Three of the seven writes for a block add to what is there, and only the cursor, saved at the end of a
    pass, tells that they have been made. A write that is refused half-way through a block is skipped
    for good, and a pass that is cut off before the cursor is saved is made again in full. -/

namespace Equium.Explorer
open Schemes

variable {batch : BatchSize}

/-- No pass is under way, and the cursor is the newest signature. -/
def AtTip (s : Sys) : Prop :=
  s.phase.between = true ∧ s.store.cursor = s.chain.getLast?.map (·.signature)

instance (s : Sys) : Decidable (AtTip s) := inferInstanceAs (Decidable (_ ∧ _))

/-- Block counts, reward totals, rank scores and records agree. -/
structure SameTotals (s s' : Store) : Prop where
  blocks : ∀ w, s.blocksOf w = s'.blocksOf w
  rewards : ∀ w, s.rewardsOf w = s'.rewardsOf w
  rank : ∀ w, s.rankOf w = s'.rankOf w
  records : ∀ sig, s.records sig = s'.records sig

theorem Holds.same {s s' : Store} {es : List Transaction} (h : Holds s es) (h' : Holds s' es) :
    SameTotals s s' where
  blocks w := (h.blocks w).trans (h'.blocks w).symm
  rewards w := (h.rewards w).trans (h'.rewards w).symm
  rank w := (h.rank w).trans (h'.rank w).symm
  records sig := (h.records sig).trans (h'.records sig).symm

/-- At the tip the store holds the whole chain. -/
theorem Inv.tip {s : Sys} (h : Inv s) (ht : AtTip s) : Holds s.store s.chain := by
  have hind : Indexed s.chain s.store := by
    have hphase := h.phase
    cases hp : s.phase with
    | backfilling before newestSig total => simp [AtTip, hp, Phase.between] at ht
    | migrating before => simp [AtTip, hp, Phase.between] at ht
    | _ =>
      rw [hp] at hphase
      exact hphase
  have hcount := hind.counted h.unique
  have hall := @upTo_initial _ _ _ (·.signature) s.chain [] (by simpa using h.unique)
  rw [List.append_nil] at hall
  rwa [Counted, ht.2, hall] at hcount

/-- Rank scores equal block counts in every state the invariant describes. -/
theorem Inv.rank_eq {s : Sys} (h : Inv s) (w : String) : s.store.rankOf w = s.store.blocksOf w := by
  obtain ⟨es, hh⟩ : ∃ es, Holds s.store es := by
    have hphase := h.phase
    cases hp : s.phase with
    | backfilling before newestSig total =>
      rw [hp] at hphase
      obtain ⟨-, old, walked, more, -, hh, -⟩ := hphase
      exact ⟨walked, hh⟩
    | migrating before =>
      rw [hp] at hphase
      cases hphase
    | _ =>
      rw [hp] at hphase
      obtain ⟨seen, more, -, -, hh⟩ := hphase
      exact ⟨seen, hh⟩
  exact (hh.rank w).trans (hh.blocks w).symm

/-- Indexing a block adds one, also when it has been indexed before. -/
theorem index_adds (s : Store) (b : MinedBlock) :
    (s.index b).blocksOf b.winner = s.blocksOf b.winner + 1 ∧
      (s.index b).rankOf b.winner = s.rankOf b.winner + 1 := by
  constructor
  · rw [Store.blocksOf, Store.index_miners, lookup_incrBy, if_pos rfl]
    rfl
  · rw [Store.rankOf, Store.index_rank, lookup_incrBy, if_pos rfl]
    rfl

/-- RECOVERY: as long as every pass saves its cursor or makes no write, and no write for a block is
    refused, the totals at the tip are those of a run without faults, and ranks equal counts at all
    times. Indexing a block a second time is never without effect. -/
theorem clean_run_recovers (tr : List (Taken Sys Action)) (s : Sys)
    (h : Run (Step batch) Sys.init tr s) (hclean : ∀ t ∈ tr, Clean t.pre t.label)
    (hskip : ∀ t ∈ tr, t.label.isTick = true → NoSkip t.pre) :
    (∀ w, s.store.rankOf w = s.store.blocksOf w) ∧
      (AtTip s → ∀ tr' s', Run (Step batch) Sys.init tr' s' → (∀ t ∈ tr', t.label.faultless) →
        (∀ t ∈ tr', t.label.isTick = true → NoSkip t.pre) → s'.chain = s.chain → AtTip s' →
        SameTotals s.store s'.store) ∧
      ∀ (st : Store) (b : MinedBlock), (st.index b).index b ≠ st.index b := by
  have hinv := inv_run h hclean hskip
  refine ⟨hinv.rank_eq, ?_, ?_⟩
  · intro htip tr' s' h' hf hskip' hchain htip'
    have hinv' := inv_run h' (fun t ht => (hf t ht).clean t.pre) hskip'
    exact (hinv.tip htip).same (hchain ▸ hinv'.tip htip')
  · intro st b hsame
    have hmore := (index_adds (st.index b) b).1
    rw [hsame] at hmore
    omega

/-! One mined block; Redis accepts the first write for it and refuses the second. -/

namespace Demo

/-- The state before the only page of the backfill. -/
def fresh : Sys := ⟨[mine], Store.empty, .backfilling none none 0⟩

/-- The history is there when the indexer starts. -/
theorem started_run {chain : List Transaction} (hn : (chain.map (·.signature)).Nodup) :
    ∃ tr, Run (Step ten) Sys.init tr ⟨chain, Store.empty, .backfilling none none 0⟩ ∧
      ∀ t ∈ tr, t.label.faultless ∧ t.label.isTick = false := by
  have h₁ : Run (Step ten) Sys.init _ _ :=
    Run.nil.snoc (@Step.arrive _ _ chain (by simpa [Sys.init] using hn))
  have h₂ := h₁.snoc (Step.start rfl .ok)
  refine ⟨_, h₂, ?_⟩
  intro t ht
  simp only [List.nil_append, List.cons_append, List.mem_cons, List.not_mem_nil, or_false] at ht
  rcases ht with rfl | rfl
  · exact ⟨trivial, rfl⟩
  · exact ⟨rfl, rfl⟩

theorem fresh_run : ∃ tr, Run (Step ten) Sys.init tr fresh ∧ ∀ t ∈ tr, t.label.faultless ∧
    t.label.isTick = false := started_run (by simp)

end Demo

/-- The refused second write leaves the miner with one block and no rank. -/
theorem refused_write_loses_rank : ¬ ∀ (batch : BatchSize) (tr : List (Taken Sys Action)) (s : Sys),
    Run (Step batch) Sys.init tr s → AtTip s →
      (∀ w, s.store.rankOf w = s.store.blocksOf w) ∧
      ∀ tr' s', Run (Step batch) Sys.init tr' s' → (∀ t ∈ tr', t.label.faultless) →
        s'.chain = s.chain → AtTip s' → SameTotals s.store s'.store := by
  intro hall
  obtain ⟨tr, hr, -⟩ := Demo.fresh_run
  have hr' := hr.snoc (Step.page rfl (fun _ => 9) 0 [.ok, .fail])
  have hrank := (hall Demo.ten _ _ hr' (by decide +kernel)).1 "A"
  exact absurd hrank (by decide +kernel)

namespace Demo

/-- The backfill goes through. -/
def indexed (s : Sys) : Sys := backfillPage ten s none none 0 (fun _ => 9) 0 []

/-- The process is stopped before its first write, and started again. -/
def restarted : Sys := start (backfillPage ten fresh none none 0 (fun _ => 9) 0 [.stop]) .ok

theorem indexed_run {chain : List Transaction} (hn : (chain.map (·.signature)).Nodup) :
    ∃ tr, Run (Step ten) Sys.init tr (indexed ⟨chain, Store.empty, .backfilling none none 0⟩) ∧
      (∀ t ∈ tr, t.label.faultless) ∧ ∀ t ∈ tr, t.label.isTick = false := by
  obtain ⟨tr, hr, hf⟩ := started_run hn
  refine ⟨_, hr.snoc (Step.page rfl (fun _ => 9) 0 []), ?_, ?_⟩
  · intro t ht
    rcases List.mem_append.mp ht with ht | ht
    · exact (hf t ht).1
    · obtain rfl := List.mem_singleton.mp ht
      exact fun r hr => by cases hr
  · intro t ht
    rcases List.mem_append.mp ht with ht | ht
    · exact (hf t ht).2
    · obtain rfl := List.mem_singleton.mp ht
      rfl

theorem fresh_indexed : ∃ tr, Run (Step ten) Sys.init tr (indexed fresh) ∧
    (∀ t ∈ tr, t.label.faultless) ∧ ∀ t ∈ tr, t.label.isTick = false := indexed_run (by simp)

theorem restarted_indexed : ∃ tr, Run (Step ten) Sys.init tr (indexed restarted) ∧
    (∀ t ∈ tr, Clean t.pre t.label) ∧ ∀ t ∈ tr, t.label.isTick = false := by
  obtain ⟨tr, hr, hf⟩ := fresh_run
  have h₁ := hr.snoc (Step.page rfl (fun _ => 9) 0 [.stop])
  have h₂ : Run (Step ten) Sys.init _ restarted := h₁.snoc (Step.start rfl .ok)
  refine ⟨_, h₂.snoc (Step.page rfl (fun _ => 9) 0 []), ?_, ?_⟩
  · intro t ht
    simp only [List.append_assoc, List.mem_append, List.mem_singleton] at ht
    rcases ht with ht | rfl | rfl | rfl
    · exact (hf t ht).1.clean t.pre
    · rintro _ _ _ ⟨⟩
      exact Or.inr ⟨rfl, Or.inr (Or.inl rfl)⟩
    · exact fun hr => by cases hr
    · exact fun _ _ _ _ => Or.inl fun r hr => by rw [List.take_nil] at hr; cases hr
  · intro t ht
    simp only [List.append_assoc, List.mem_append, List.mem_singleton] at ht
    rcases ht with ht | rfl | rfl | rfl
    · exact (hf t ht).2
    all_goals rfl

end Demo

/-- A process stopped before its first write, and started again, ends with the same totals as one
    that is not stopped. -/
theorem clean_run_recovers_demo :
    (Demo.indexed Demo.restarted).store.blocksOf "A" = 1 ∧
      SameTotals (Demo.indexed Demo.restarted).store (Demo.indexed Demo.fresh).store := by
  obtain ⟨tr, hr, hclean, hno⟩ := Demo.restarted_indexed
  obtain ⟨tr', hr', hf, hno'⟩ := Demo.fresh_indexed
  obtain ⟨-, hsame, -⟩ := clean_run_recovers tr _ hr hclean fun t ht htick => by
    rw [hno t ht] at htick
    cases htick
  refine ⟨by decide +kernel, hsame (by decide +kernel) tr' _ hr' hf (fun t ht htick => ?_)
    (by decide +kernel) (by decide +kernel)⟩
  rw [hno' t ht] at htick
  cases htick

end Equium.Explorer
