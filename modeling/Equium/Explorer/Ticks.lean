import Equium.Explorer.Passes

/-! @src scripts/indexer.ts | name:Ticks of the indexer | scheme:run-invariant

    A tick fetches the newest thousand signatures in front of the cursor and then moves the cursor to
    the newest of them. What lies between the cursor and that page is never fetched again. -/

namespace Equium.Explorer
open Schemes

variable {batch : BatchSize}

/-- Every mined block up to the saved cursor is counted once, and nothing else is. -/
def Counted (s : Sys) : Prop := Holds s.store (upTo (·.signature) s.store.cursor s.chain)

/-- No refused command, no stop. -/
def Action.faultless : Action → Prop
  | .arrive _ => True
  | .start r => r = .ok
  | .page _ _ rs => ∀ r ∈ rs, r = .ok
  | .check zcard hlen => zcard = .ok ∧ hlen = .ok
  | .migrate _ rs => ∀ r ∈ rs, r = .ok
  | .tick _ _ read rs => read = .ok ∧ ∀ r ∈ rs, r = .ok
  | .stop => False

theorem Action.faultless.clean {a : Action} (h : a.faultless) (s : Sys) : Clean s a := by
  cases a with
  | arrive txs => trivial
  | start r =>
    intro hr
    rw [show r = .ok from h] at hr
    cases hr
  | page now cutoff rs => exact fun _ _ _ _ => Or.inl fun r hr => h r (List.mem_of_mem_take hr)
  | check zcard hlen =>
    intro hr
    rw [h.1] at hr
    cases hr
  | migrate now rs => trivial
  | tick now cutoff read rs =>
    refine ⟨fun hr => ?_, Or.inl fun r hr => h.2 r (List.mem_of_mem_take hr)⟩
    rw [h.1] at hr
    cases hr
  | stop => exact absurd h id

theorem Indexed.counted {s : Sys} (hn : (s.chain.map (·.signature)).Nodup)
    (h : Indexed s.chain s.store) : Counted s := by
  obtain ⟨seen, more, hchain, hc, hh⟩ := h
  rw [hchain] at hn
  rw [Counted, hc, hchain, upTo_initial hn]
  exact hh

variable (batch) in
/-- Step lemma: a tick without a fault counts every block up to its cursor iff it leaves none out. -/
theorem tick_counted_iff {s : Sys} (h : Inv s) (hp : s.phase = .ready) (now : Signature → ℕ)
    (cutoff : ℕ) {read : Reply} {rs : List Reply}
    (hf : (Action.tick now cutoff read rs).faultless) :
    Counted (tick batch s now cutoff read rs) ↔ NoSkip s := by
  constructor
  · intro hcount t ht
    have hind : Indexed s.chain s.store := by
      have hphase := h.phase
      rwa [hp] at hphase
    obtain ⟨seen, old, page, hchain, hc, hh, hlist, hold, hempty⟩ := hind.fetched h.unique
    rw [skipped, hold, List.mem_reverse] at ht
    rcases List.eq_nil_or_concat page with rfl | ⟨page, newest, rfl⟩
    · rw [hempty rfl] at ht
      cases ht
    · rw [List.concat_eq_append] at hchain hlist
      have hread : readCursor s.store read = s.store.cursor := by rw [hf.1]; rfl
      obtain ⟨hch, -, hcur, hheld⟩ := tick_saves batch hp h.unique hchain hh hlist now
        cutoff (by rw [hf.1]; decide) hread fun r hr => hf.2 r (List.mem_of_mem_take hr)
      -- the cursor is now the last signature of the chain
      have hall : s.chain = (seen ++ (old ++ page)) ++ newest :: [] := by rw [hchain]; simp
      have hn := h.unique
      rw [hall] at hn
      rw [Counted, hch, hcur, hall, upTo_split hn] at hcount
      have hmove : seen ++ (old ++ page) ++ [newest] = seen ++ (old ++ (page ++ [newest])) := by simp
      rw [hmove] at hcount
      have hrec := (hcount.perm (perm_fill seen old (page ++ [newest])).symm).records t.signature
      have hparts : (seen ++ (page ++ [newest]) ++ old).countP (Transaction.minedAs t.signature) =
          (seen ++ (page ++ [newest])).countP (Transaction.minedAs t.signature) +
            old.countP (Transaction.minedAs t.signature) := List.countP_append
      rw [hheld.records, hparts] at hrec
      have hnone : old.countP (Transaction.minedAs t.signature) = 0 := by omega
      rw [List.countP_eq_zero] at hnone
      have hidle := hnone t ht
      rw [Transaction.minedAs, decide_eq_true rfl, Bool.true_and] at hidle
      exact Option.not_isSome_iff_eq_none.mp hidle
  · intro hskip
    obtain ⟨hch, -, hind⟩ := tick_indexed batch h hp now cutoff (hf.clean s) hskip
    exact (hch ▸ hind : Indexed (tick batch s now cutoff read rs).chain _).counted (hch ▸ h.unique)

/-- EACH BLOCK ONCE: in a run without faults, every tick leaves each mined block up to its cursor
    counted once iff no tick finds a mined block beyond the newest thousand signatures it asks for. -/
theorem counted_once_iff (tr : List (Taken Sys Action)) (s : Sys)
    (h : Run (Step batch) Sys.init tr s) (hf : ∀ t ∈ tr, t.label.faultless) :
    (∀ t ∈ tr, t.label.isTick = true → Counted t.post) ↔
      ∀ t ∈ tr, t.label.isTick = true → NoSkip t.pre := by
  induction h with
  | nil => simp
  | @snoc tr s s' a hr hst ih =>
    have hfirst : ∀ t ∈ tr, t.label.faultless := fun t ht => hf t (List.mem_append_left _ ht)
    have hlast : a.faultless := hf ⟨s, a, s'⟩ (List.mem_append_right _ (List.mem_singleton_self _))
    have hstep : (∀ t ∈ tr, t.label.isTick = true → NoSkip t.pre) →
        ((a.isTick = true → Counted s') ↔ (a.isTick = true → NoSkip s)) := by
      intro hskip
      have hpre : Inv s := inv_run hr (fun t ht => (hfirst t ht).clean t.pre) hskip
      cases hst with
      | tick hp now cutoff read rs =>
        have hiff := tick_counted_iff batch hpre hp now cutoff hlast
        exact ⟨fun hc ht => hiff.mp (hc ht), fun hn ht => hiff.mpr (hn ht)⟩
      | _ => simp [Action.isTick]
    simp only [List.forall_mem_append, List.forall_mem_singleton]
    rw [ih hfirst]
    exact and_congr_right hstep

/-! One transaction that mined a block, one that did not, and a thousand more of these. -/

namespace Demo

/-- The default batch size. -/
def ten : BatchSize := ⟨10, by decide⟩

def mine : Transaction := ⟨"m", false, some 7,
  some ["Program log: equium: mined block 0 by A for 25000000 base units"]⟩

/-- A transaction of some other instruction; its signature has `n + 1` letters. -/
def other (n : ℕ) : Transaction := ⟨String.ofList (List.replicate (n + 1) 'o'), false, some 8, none⟩

theorem mine_mined : mine.mined = some ⟨0, "A", 25000000⟩ := by decide

theorem other_signature_inj {m n : ℕ} (h : (other m).signature = (other n).signature) : m = n := by
  have hlist := congrArg (fun s : String => s.toList.length) h
  simpa [other] using hlist

theorem mine_ne_other (n : ℕ) : mine.signature ≠ (other n).signature := by
  intro h
  have hlist := congrArg String.toList h
  rw [other, String.toList_ofList, List.replicate_succ] at hlist
  exact absurd (List.cons.inj hlist).1 (by decide)

/-- A mined block, and then `n` transactions that mined nothing. -/
def burst (n : ℕ) : List Transaction := mine :: (List.range n).map other

theorem burst_nodup (n : ℕ) : ((burst n).map (·.signature)).Nodup := by
  rw [burst, List.map_cons, List.map_map, List.nodup_cons]
  constructor
  · intro hmem
    obtain ⟨i, -, hi⟩ := List.mem_map.mp hmem
    exact mine_ne_other i hi.symm
  · exact List.nodup_range.map fun i j h => other_signature_inj h

/-- The indexer started on an empty chain, and a burst of transactions since. -/
def burstSys (n : ℕ) : Sys := ⟨burst n, Store.empty, .ready⟩

/-- The tick after it. -/
def burstTick (n : ℕ) : Sys := tick ten (burstSys n) (fun _ => 9) 0 .ok []

theorem burst_run (n : ℕ) : ∃ tr, Run (Step ten) Sys.init tr (burstSys n) ∧
    ∀ t ∈ tr, t.label.faultless ∧ t.label.isTick = false := by
  have h₁ : Run (Step ten) Sys.init _ _ := Run.nil.snoc (Step.start rfl .ok)
  have h₂ := h₁.snoc (Step.page rfl (fun _ => 9) 0 [])
  have h₃ := h₂.snoc (Step.check rfl .ok .ok)
  have h₄ := h₃.snoc (@Step.arrive _ _ (burst n) (burst_nodup n))
  refine ⟨_, h₄, ?_⟩
  intro t ht
  simp only [List.nil_append, List.cons_append, List.mem_cons, List.not_mem_nil, or_false] at ht
  rcases ht with rfl | rfl | rfl | rfl
  · exact ⟨rfl, rfl⟩
  · exact ⟨(fun r hr => by cases hr), rfl⟩
  · exact ⟨⟨rfl, rfl⟩, rfl⟩
  · exact ⟨trivial, rfl⟩

theorem burst_inv (n : ℕ) : Inv (burstSys n) := by
  obtain ⟨tr, hr, hf⟩ := burst_run n
  refine inv_run hr (fun t ht => (hf t ht).1.clean t.pre) fun t ht htick => ?_
  rw [(hf t ht).2] at htick
  cases htick

/-- The tick leaves the mined block out as soon as a thousand transactions follow it. -/
theorem mine_skipped {n : ℕ} (hn : pageSize ≤ n) : mine ∈ skipped (burstSys n) := by
  have hlen : ((List.range n).map other).reverse.length = n := by simp
  rw [skipped, burstSys, burst, List.reverse_cons]
  dsimp only [Store.empty, newerThan]
  rw [List.drop_append, hlen, Nat.sub_eq_zero_of_le hn]
  exact List.mem_append_right _ (List.mem_singleton_self _)

theorem burst_not_counted {n : ℕ} (hn : pageSize ≤ n) : ¬ Counted (burstTick n) := by
  intro hcount
  have hskip := (tick_counted_iff _ (burst_inv n) rfl _ _ ⟨rfl, fun r hr => by cases hr⟩).mp hcount
  have hnone := hskip mine (mine_skipped hn)
  rw [mine_mined] at hnone
  cases hnone

/-- The whole run, its tick last. -/
theorem burst_tick_run (n : ℕ) : ∃ tr, Run (Step ten) Sys.init tr (burstTick n) ∧
    (∀ t ∈ tr, t.label.faultless) ∧
    ∃ t ∈ tr, t.label.isTick = true ∧ t.post = burstTick n := by
  obtain ⟨tr, hr, hf⟩ := burst_run n
  refine ⟨_, hr.snoc (Step.tick rfl (fun _ => 9) 0 .ok []), ?_, _,
    List.mem_append_right _ (List.mem_singleton_self _), rfl, rfl⟩
  exact List.forall_mem_append.mpr ⟨fun t ht => (hf t ht).1,
    List.forall_mem_singleton.mpr ⟨rfl, fun r hr => (by cases hr)⟩⟩

end Demo

/-- A mined block and a thousand later transactions, all between two ticks: the block is lost. -/
theorem burst_loses_block : ¬ ∀ (batch : BatchSize) (tr : List (Taken Sys Action)) (s : Sys),
    Run (Step batch) Sys.init tr s → (∀ t ∈ tr, t.label.faultless) →
      ∀ t ∈ tr, t.label.isTick = true → Counted t.post := by
  intro hall
  obtain ⟨tr, hr, hf, t, ht, htick, hpost⟩ := Demo.burst_tick_run 1000
  have hcount := hall Demo.ten tr _ hr hf t ht htick
  rw [hpost] at hcount
  exact Demo.burst_not_counted (Nat.le_refl _) hcount

/-- With three later transactions the tick counts the block. -/
theorem counted_once_demo : ∃ tr, Run (Step Demo.ten) Sys.init tr (Demo.burstTick 3) ∧
    Counted (Demo.burstTick 3) := by
  obtain ⟨tr, hr, hf⟩ := Demo.burst_run 3
  have hr' := hr.snoc (Step.tick rfl (fun _ => 9) 0 .ok [])
  refine ⟨_, hr', (counted_once_iff _ _ hr' ?_).mpr ?_ _
    (List.mem_append_right _ (List.mem_singleton_self _)) rfl⟩
  · exact List.forall_mem_append.mpr ⟨fun t ht => (hf t ht).1,
      List.forall_mem_singleton.mpr ⟨rfl, fun r hr => (by cases hr)⟩⟩
  · intro t ht htick
    rcases List.mem_append.mp ht with ht | ht
    · rw [(hf t ht).2] at htick
      cases htick
    · obtain rfl := List.mem_singleton.mp ht
      intro t ht
      have hnone : skipped (Demo.burstSys 3) = [] := by decide +kernel
      rw [hnone] at ht
      cases ht

end Equium.Explorer
