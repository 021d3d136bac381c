import Mathlib.Data.List.Basic
import Mathlib.Data.List.Nodup
import Mathlib.Data.List.Perm.Basic

/-! Scheme pairs: every unordered pair of a list, once, and the sort-and-scan way to the pairs that
    agree on a key.

    `pairs` lists the pairs of two positions, the earlier first. `runs` cuts a list into stretches
    whose members agree with the first of the stretch. On a list sorted by a key the pairs inside the
    stretches are exactly the pairs that agree on the key (`runs_flatMap_pairs`), in the same order. -/

namespace Equium.Schemes

variable {α β κ : Type*}

/-- The pairs of entries at two positions, the earlier position first. -/
def pairs : List α → List (α × α)
  | [] => []
  | x :: xs => xs.map (x, ·) ++ pairs xs

@[simp] theorem pairs_nil : pairs ([] : List α) = [] := rfl

@[simp] theorem pairs_cons (x : α) (xs : List α) : pairs (x :: xs) = xs.map (x, ·) ++ pairs xs := rfl

/-- A pair is listed when its entries occur in this order. -/
theorem mem_pairs {a b : α} {xs : List α} : (a, b) ∈ pairs xs ↔ [a, b].Sublist xs := by
  induction xs with
  | nil => simp
  | cons x xs ih =>
    rw [pairs_cons, List.mem_append, List.mem_map, ih, List.sublist_cons_iff]
    constructor
    · rintro (⟨y, hy, he⟩ | h)
      · cases he
        exact .inr ⟨[b], rfl, List.singleton_sublist.mpr hy⟩
      · exact .inl h
    · rintro (h | ⟨r, he, h⟩)
      · exact .inr h
      · cases he
        exact .inl ⟨b, List.singleton_sublist.mp h, rfl⟩

theorem mem_of_mem_pairs {a b : α} {xs : List α} (h : (a, b) ∈ pairs xs) : a ∈ xs ∧ b ∈ xs := by
  have hs := (mem_pairs.mp h).subset
  exact ⟨hs (by simp), hs (by simp)⟩

/-- Without repetitions, the entries of a pair differ. -/
theorem ne_of_mem_pairs {a b : α} {xs : List α} (hn : xs.Nodup) (h : (a, b) ∈ pairs xs) : a ≠ b := by
  have := hn.sublist (mem_pairs.mp h)
  simpa using this

/-- Two different entries are a pair in one order or the other. -/
theorem mem_pairs_or {a b : α} {xs : List α} (ha : a ∈ xs) (hb : b ∈ xs) (hne : a ≠ b) :
    (a, b) ∈ pairs xs ∨ (b, a) ∈ pairs xs := by
  induction xs with
  | nil => cases ha
  | cons x xs ih =>
    simp only [pairs_cons, List.mem_append, List.mem_map]
    rcases List.mem_cons.mp ha with rfl | ha' <;> rcases List.mem_cons.mp hb with rfl | hb'
    · exact absurd rfl hne
    · exact .inl (.inl ⟨b, hb', rfl⟩)
    · exact .inr (.inl ⟨a, ha', rfl⟩)
    · exact (ih ha' hb').imp .inr .inr

/-- Without repetitions, only in one order. -/
theorem not_mem_pairs_swap {a b : α} {xs : List α} (hn : xs.Nodup) (h : (a, b) ∈ pairs xs) :
    (b, a) ∉ pairs xs := by
  intro h'
  induction xs with
  | nil => cases h
  | cons x xs ih =>
    obtain ⟨hx, hn⟩ := List.nodup_cons.mp hn
    rw [pairs_cons, List.mem_append, List.mem_map] at h h'
    rcases h with ⟨y, hy, he⟩ | h
    · cases he
      rcases h' with ⟨z, hz, he'⟩ | h'
      · cases he'; exact hx hz
      · exact hx (mem_of_mem_pairs h').2
    · rcases h' with ⟨z, hz, he'⟩ | h'
      · cases he'; exact hx (mem_of_mem_pairs h).2
      · exact ih hn h h'

theorem pairs_nodup {xs : List α} (hn : xs.Nodup) : (pairs xs).Nodup := by
  induction xs with
  | nil => simp
  | cons x xs ih =>
    obtain ⟨hx, hn⟩ := List.nodup_cons.mp hn
    refine List.nodup_append'.mpr ⟨hn.map fun a b h => (Prod.mk.inj h).2, ih hn, ?_⟩
    rintro ⟨a, b⟩ ha hb
    obtain ⟨y, -, he⟩ := List.mem_map.mp ha
    cases he
    exact hx (mem_of_mem_pairs hb).1

/-! ### Combining pairs -/

/-- The results of a partial combination over all pairs. -/
def pairUp (f : α → α → Option β) (xs : List α) : List β :=
  (pairs xs).filterMap fun p => f p.1 p.2

/-- For a combination that does not depend on the order, every two different entries count. -/
theorem mem_pairUp {f : α → α → Option β} {xs : List α} (hn : xs.Nodup)
    (hsymm : ∀ a ∈ xs, ∀ b ∈ xs, f a b = f b a) {z : β} :
    z ∈ pairUp f xs ↔ ∃ a ∈ xs, ∃ b ∈ xs, a ≠ b ∧ f a b = some z := by
  simp only [pairUp, List.mem_filterMap, Prod.exists]
  constructor
  · rintro ⟨a, b, h, hf⟩
    obtain ⟨ha, hb⟩ := mem_of_mem_pairs h
    exact ⟨a, ha, b, hb, ne_of_mem_pairs hn h, hf⟩
  · rintro ⟨a, ha, b, hb, hne, hf⟩
    rcases mem_pairs_or ha hb hne with h | h
    · exact ⟨a, b, h, hf⟩
    · exact ⟨b, a, h, hsymm a ha b hb ▸ hf⟩

/-- A combination from which the two entries can be read back has no repeated results. -/
theorem pairUp_nodup {f : α → α → Option β} {xs : List α} (hn : xs.Nodup)
    (hinj : ∀ a ∈ xs, ∀ b ∈ xs, ∀ c ∈ xs, ∀ d ∈ xs, ∀ z, f a b = some z → f c d = some z →
      (a = c ∧ b = d) ∨ (a = d ∧ b = c)) : (pairUp f xs).Nodup := by
  have hp := pairs_nodup hn
  have hrec : ∀ ps : List (α × α), ps.Nodup → (∀ p ∈ ps, p ∈ pairs xs) →
      (ps.filterMap fun p => f p.1 p.2).Nodup := by
    intro ps
    induction ps with
    | nil => intros; simp
    | cons p ps ih =>
      intro hps hsub
      obtain ⟨hnp, hps⟩ := List.nodup_cons.mp hps
      have htail := ih hps fun q hq => hsub q (List.mem_cons_of_mem _ hq)
      cases hf : f p.1 p.2 with
      | none => simpa only [List.filterMap_cons, hf] using htail
      | some z =>
        simp only [List.filterMap_cons, hf]
        refine List.nodup_cons.mpr ⟨fun hz => ?_, htail⟩
        obtain ⟨q, hq, hfq⟩ := List.mem_filterMap.mp hz
        have hpm := hsub p List.mem_cons_self
        have hqm := hsub q (List.mem_cons_of_mem _ hq)
        obtain ⟨ha, hb⟩ := mem_of_mem_pairs hpm
        obtain ⟨hc, hd⟩ := mem_of_mem_pairs hqm
        rcases hinj _ ha _ hb _ hc _ hd z hf hfq with ⟨h₁, h₂⟩ | ⟨h₁, h₂⟩
        · exact hnp (Prod.ext h₁ h₂ ▸ hq)
        · refine not_mem_pairs_swap hn hpm ?_
          rw [h₁, h₂]
          exact hqm
  exact hrec _ hp fun _ h => h

/-! ### Runs of a sorted list -/

/-- The stretches of entries that agree with the first of the stretch; `first` opened the current
    stretch and `taken` holds it, newest first. -/
def runsFrom (same : α → α → Bool) (first : α) (taken : List α) : List α → List (List α)
  | [] => [taken.reverse]
  | y :: ys =>
    if same first y then runsFrom same first (y :: taken) ys
    else taken.reverse :: runsFrom same y [y] ys

/-- Cut a list into stretches. -/
def runs (same : α → α → Bool) : List α → List (List α)
  | [] => []
  | x :: xs => runsFrom same x [x] xs

/-- Pairs of a list in two parts, when nothing in the first agrees with anything in the second. -/
theorem filter_pairs_append (p : α × α → Bool) (xs ys : List α)
    (h : ∀ x ∈ xs, ∀ y ∈ ys, p (x, y) = false) :
    (pairs (xs ++ ys)).filter p = (pairs xs).filter p ++ (pairs ys).filter p := by
  induction xs with
  | nil => simp
  | cons x xs ih =>
    have hcross : (ys.map (x, ·)).filter p = [] := by
      rw [List.filter_eq_nil_iff]
      rintro q hq
      obtain ⟨y, hy, rfl⟩ := List.mem_map.mp hq
      simp [h x List.mem_cons_self y hy]
    rw [List.cons_append, pairs_cons, pairs_cons, List.map_append, List.filter_append,
      List.filter_append, List.filter_append, hcross, List.append_nil,
      ih fun x' hx' => h x' (List.mem_cons_of_mem _ hx'), List.append_assoc]

variable [DecidableEq κ] (key : α → κ)

/-- Agreement on a key. -/
def sameKey (a b : α) : Bool := decide (key a = key b)

theorem filter_pairs_same (k : κ) (xs : List α) (h : ∀ x ∈ xs, key x = k) :
    (pairs xs).filter (fun p => sameKey key p.1 p.2) = pairs xs := by
  rw [List.filter_eq_self]
  rintro ⟨a, b⟩ hp
  obtain ⟨ha, hb⟩ := mem_of_mem_pairs hp
  simp [sameKey, h a ha, h b hb]

/-- Step of the scan: an open stretch, and what is left sorted after it. -/
theorem runsFrom_flatMap_pairs (le : κ → κ → Prop)
    (hanti : ∀ {a b}, le a b → le b a → a = b) (ys : List α) (first : α) (taken : List α)
    (hmem : first ∈ taken) (hall : ∀ t ∈ taken, key t = key first)
    (hs : (first :: ys).Pairwise fun a b => le (key a) (key b)) :
    (runsFrom (sameKey key) first taken ys).flatMap pairs =
      (pairs (taken.reverse ++ ys)).filter fun p => sameKey key p.1 p.2 := by
  induction ys generalizing first taken with
  | nil =>
    rw [List.append_nil, filter_pairs_same key (key first) _ fun t ht => hall t (by simpa using ht)]
    simp [runsFrom]
  | cons y ys ih =>
    obtain ⟨hfirst, hrest⟩ := List.pairwise_cons.mp hs
    obtain ⟨hy, hys⟩ := List.pairwise_cons.mp hrest
    rw [runsFrom]
    split_ifs with hsame
    · -- `y` joins the stretch
      have hkey : key y = key first := (of_decide_eq_true hsame).symm
      rw [ih first (y :: taken) (List.mem_cons_of_mem _ hmem) (fun t ht => ?_)
        (List.pairwise_cons.mpr ⟨fun z hz => hfirst z (List.mem_cons_of_mem _ hz), hys⟩)]
      · simp
      · rcases List.mem_cons.mp ht with rfl | ht
        exacts [hkey, hall t ht]
    · -- `y` opens a new one: no later entry agrees with the old stretch
      have hne : ∀ t ∈ taken.reverse, ∀ z ∈ y :: ys, sameKey key t z = false := by
        intro t ht z hz
        rw [sameKey, decide_eq_false_iff_not, hall t (List.mem_reverse.mp ht)]
        intro he
        refine hsame (decide_eq_true (hanti (hfirst y List.mem_cons_self) ?_))
        rw [he]
        rcases List.mem_cons.mp hz with rfl | hz'
        · have := hfirst z List.mem_cons_self
          rwa [he] at this
        · exact hy z hz'
      rw [List.flatMap_cons, ih y [y] (by simp) (by simp) hrest,
        filter_pairs_append _ taken.reverse (y :: ys) hne, filter_pairs_same key (key first) _
          fun t ht => hall t (List.mem_reverse.mp ht)]
      rfl

/-- SORT AND SCAN: on a list sorted by a key, the pairs inside the stretches are the pairs that agree
    on the key. -/
theorem runs_flatMap_pairs (le : κ → κ → Prop) (hanti : ∀ {a b}, le a b → le b a → a = b)
    (xs : List α) (hs : xs.Pairwise fun a b => le (key a) (key b)) :
    (runs (sameKey key) xs).flatMap pairs = (pairs xs).filter fun p => sameKey key p.1 p.2 := by
  cases xs with
  | nil => rfl
  | cons x xs =>
    rw [runs, runsFrom_flatMap_pairs key le hanti xs x [x] (by simp) (by simp) hs]
    rfl

end Equium.Schemes
