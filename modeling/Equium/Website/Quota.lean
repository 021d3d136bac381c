import Mathlib.Algebra.Order.BigOperators.Group.List
import Mathlib.Algebra.Order.Ring.Nat
import Mathlib.Data.List.Perm.Subperm
import Equium.Website.Proxy

/-! @src clients/website/src/app/api/rpc/route.ts | name:Quota of the RPC proxy | scheme:run-invariant

    Each address has its own window of admitted POSTs, and what is sent upstream for it was admitted.
    The limiter counts POSTs, at the time their headers are there: a batch is one POST and as many calls
    as it likes, and a body that is read late is sent late. With one call a body, 1200 bounds the calls
    of a minute when those sent within a minute have passed the limiter within a minute; with at most
    `d` milliseconds to read a body, it bounds the calls of every span of a minute less `d`. -/

namespace Equium.Proxy
open Schemes

/-- The bodies sent upstream for an address within a span of time. -/
def sentIn (s : Server) (ip : String) (start span : ℕ) : List Upstream :=
  s.sent.filter fun u => u.ip = ip ∧ start ≤ u.time ∧ u.time < start + span

/-- The calls in them. -/
def callsIn (s : Server) (ip : String) (start span : ℕ) : ℕ :=
  ((sentIn s ip start span).map fun u => (requests u.body).length).sum

/-- A body with at most one call. -/
def Action.single : Action → Prop
  | .readBody _ p => ∀ body ∈ p.req.body, (requests body).length ≤ 1
  | _ => True

/-- A body that is read less than `span` after others of its address were sent: the POSTs have passed
    the limiter less than a minute apart. -/
def InStep (span : ℕ) (t : Taken Server Action) : Prop :=
  match t.label with
  | .readBody now p => ∀ u ∈ t.pre.sent, u.ip = p.ip → now < u.time + span →
    p.time < u.admitted + rateWindowMs ∧ u.admitted < p.time + rateWindowMs
  | _ => True

/-- A body that is read at most `d` milliseconds after its POST has passed the limiter. -/
def Action.readWithin (d : ℕ) : Action → Prop
  | .readBody now p => now ≤ p.time + d
  | _ => True

/-- The time of a POST from the address. -/
def Action.postTime (ip : String) : Action → Option ℕ
  | .post now req => if getClientIp req = ip then some now else none
  | _ => none

/-- The times of the POSTs from one address, oldest first. -/
def postTimes (ip : String) (tr : List (Taken Server Action)) : List ℕ :=
  tr.filterMap fun t => t.label.postTime ip

/-- The bucket of an address that POSTed at these times. -/
def bucketAfter (times : List ℕ) : List ℕ :=
  times.foldl (fun bucket now => (slide rateWindowMs rateMaxReqs bucket now).2) []

/-- Every call of a body sent upstream is allowed. -/
def Allowed (body : Json) : Prop :=
  ∀ r ∈ requests body, ∃ method ∈ allowedMethods, r.method = some method

theorem checkRequest_none {r : Json} (h : checkRequest r = none) :
    ∃ method ∈ allowedMethods, r.method = some method := by
  rw [checkRequest] at h
  cases hm : r.method with
  | none =>
    rw [hm] at h
    cases h
  | some method =>
    rw [hm] at h
    by_cases hin : method ∈ allowedMethods
    · exact ⟨method, hin, rfl⟩
    · simp [hin] at h

/-- A body that goes upstream was admitted and has passed the checks. -/
theorem handleBody_forward {cache : Cache} {now : ℕ} {body? : Option Json} {body : Json}
    (h : handleBody cache now body? = .forward body) : body? = some body ∧ Allowed body := by
  cases body? with
  | none => cases h
  | some b =>
    rw [handleBody] at h
    cases hc : (requests b).findSome? checkRequest with
    | some r =>
      rw [hc] at h
      cases h
    | none =>
      rw [hc] at h
      cases hh : cacheHit cache now b with
      | some text =>
        rw [hh] at h
        cases h
      | none =>
        rw [hh] at h
        cases h
        refine ⟨rfl, fun r hr => checkRequest_none ?_⟩
        exact List.findSome?_eq_none_iff.mp hc r hr

/-- A POST moves the clock and the buckets, and waits for its body if the limiter lets it pass. -/
theorem post_cases (s : Server) (now : ℕ) (req : Post) :
    (rateLimit s.ipBuckets (getClientIp req) now).1 = false ∧ (post s now req).2 = { s with
        clock := now
        ipBuckets := (rateLimit s.ipBuckets (getClientIp req) now).2 } ∨
      (rateLimit s.ipBuckets (getClientIp req) now).1 = true ∧ (post s now req).2 = { s with
        clock := now
        ipBuckets := (rateLimit s.ipBuckets (getClientIp req) now).2
        reading := s.reading ++ [⟨req, now⟩] } := by
  rw [post]
  cases hl : (rateLimit s.ipBuckets (getClientIp req) now).1 with
  | false => exact Or.inl ⟨rfl, rfl⟩
  | true => exact Or.inr ⟨rfl, rfl⟩

/-- Nothing else moves with a POST. -/
theorem post_frame (s : Server) (now : ℕ) (req : Post) :
    (post s now req).2.clock = now ∧ (post s now req).2.accountCache = s.accountCache ∧
      (post s now req).2.sent = s.sent := by
  rcases post_cases s now req with ⟨-, h⟩ | ⟨-, h⟩ <;> rw [h] <;> exact ⟨rfl, rfl, rfl⟩

/-- A body that is read moves the clock, and goes upstream or does not. -/
theorem readBody_cases (s : Server) (now : ℕ) (p : Admitted) :
    (readBody s now p).2 = { s with clock := now } ∨
      ∃ body, p.req.body = some body ∧ Allowed body ∧ (readBody s now p).2 = { s with
        clock := now
        sent := s.sent ++ [⟨p.ip, p.time, now, body⟩]
        waiting := s.waiting ++ [⟨p.ip, p.time, now, body⟩] } := by
  rw [readBody]
  cases hb : handleBody s.accountCache now p.req.body with
  | answer r => exact Or.inl (by simp)
  | forward body =>
    obtain ⟨hbody, hallowed⟩ := handleBody_forward hb
    exact Or.inr ⟨body, hbody, hallowed, by simp⟩

/-! ### The limiter -/

theorem post_ipBuckets (s : Server) (now : ℕ) (req : Post) : (post s now req).2.ipBuckets =
    (rateLimit s.ipBuckets (getClientIp req) now).2 := by
  rcases post_cases s now req with ⟨-, h⟩ | ⟨-, h⟩ <;> rw [h]

theorem readBody_ipBuckets (s : Server) (now : ℕ) (p : Admitted) :
    (readBody s now p).2.ipBuckets = s.ipBuckets := by
  rcases readBody_cases s now p with h | ⟨body, -, -, h⟩ <;> rw [h]

theorem postTimes_snoc (ip : String) (tr : List (Taken Server Action)) (t : Taken Server Action) :
    postTimes ip (tr ++ [t]) = postTimes ip tr ++ (t.label.postTime ip).toList := by
  rw [postTimes, List.filterMap_append]
  cases ht : t.label.postTime ip <;> simp [ht, postTimes]

theorem bucketAfter_snoc (times : List ℕ) (now : ℕ) : bucketAfter (times ++ [now]) =
    (slide rateWindowMs rateMaxReqs (bucketAfter times) now).2 := by
  rw [bucketAfter, List.foldl_concat]
  rfl

/-- The bucket of an address is the one its own POSTs have filled. -/
theorem bucket_run {tr : List (Taken Server Action)} {s : Server} (h : Run Step Server.init tr s)
    (ip : String) : s.ipBuckets ip = bucketAfter (postTimes ip tr) := by
  refine h.inv (fun tr s => s.ipBuckets ip = bucketAfter (postTimes ip tr)) rfl ?_
  intro tr s a s' _ ih hst
  rw [postTimes_snoc]
  cases hst with
  | @post now hc req =>
    rw [post_ipBuckets, rateLimit, Action.postTime]
    dsimp only
    by_cases hip : getClientIp req = ip
    · rw [if_pos hip, Option.toList_some, bucketAfter_snoc, ← ih, hip, Function.update_self]
    · rw [if_neg hip, Option.toList_none, List.append_nil, Function.update_of_ne (Ne.symm hip)]
      exact ih
  | readBody hc hr =>
    rw [readBody_ipBuckets]
    exact ih.trans (congrArg bucketAfter (List.append_nil _).symm)
  | reply hc hw r => exact ih.trans (congrArg bucketAfter (List.append_nil _).symm)

/-- The times at which the POSTs of an address passed the limiter: those sent upstream, and those whose
    body is still to be read. -/
def stamps (s : Server) (ip : String) : List ℕ :=
  (s.sent.filter fun u => u.ip = ip).map (·.admitted) ++
    (s.reading.filter fun p => p.ip = ip).map (·.time)

/-- INVARIANT: each bucket is a window of its admissions, and what is sent or still read is among
    them. -/
structure Limited (s : Server) (admitted : String → List ℕ) : Prop where
  window : ∀ ip, Window rateWindowMs rateMaxReqs s.clock (s.ipBuckets ip) (admitted ip)
  counted : ∀ ip, (stamps s ip).Subperm (admitted ip)
  allowed : ∀ u ∈ s.sent, Allowed u.body

theorem limited_init : Limited Server.init fun _ => [] where
  window := fun _ => Window.nil
  counted := fun _ => List.nil_subperm
  allowed := fun _ h => by cases h

section
variable {s : Server} {admitted : String → List ℕ} {now : ℕ}

/-- The admissions after a POST. -/
def admittedBy (s : Server) (admitted : String → List ℕ) (ip : String) (now : ℕ) :
    String → List ℕ :=
  if (rateLimit s.ipBuckets ip now).1 then Function.update admitted ip (admitted ip ++ [now])
  else admitted

theorem admittedBy_other {ip j : String} (hj : j ≠ ip) :
    admittedBy s admitted ip now j = admitted j := by
  rw [admittedBy]
  split
  · exact Function.update_of_ne hj _ _
  · rfl

theorem Limited.rateLimit (h : Limited s admitted) (hc : s.clock ≤ now) (ip j : String) :
    Window rateWindowMs rateMaxReqs now ((rateLimit s.ipBuckets ip now).2 j)
      (admittedBy s admitted ip now j) := by
  by_cases hj : j = ip
  · subst hj
    have hslide := (h.window j).slide hc
    rw [admittedBy, Proxy.rateLimit]
    dsimp only
    rw [Function.update_self]
    split
    · rename_i hok
      rw [if_pos hok] at hslide
      rw [Function.update_self]
      exact hslide
    · rename_i hno
      rw [if_neg hno] at hslide
      exact hslide
  · rw [admittedBy_other hj, Proxy.rateLimit]
    dsimp only
    rw [Function.update_of_ne hj]
    exact (h.window j).wait hc

theorem sublist_admittedBy (ip j : String) :
    (admitted j).Sublist (admittedBy s admitted ip now j) := by
  by_cases hj : j = ip
  · subst hj
    rw [admittedBy]
    split
    · rw [Function.update_self]
      exact List.sublist_append_left _ _
    · exact List.Sublist.refl _
  · rw [admittedBy_other hj]

/-- A POST that passes adds its time. -/
theorem stamps_post (buckets : Buckets) (req : Post) (j : String) :
    stamps { s with
      clock := now
      ipBuckets := buckets
      reading := s.reading ++ [⟨req, now⟩] } j =
        stamps s j ++ if getClientIp req = j then [now] else [] := by
  have hip : (Admitted.mk req now).ip = getClientIp req := rfl
  rw [stamps, stamps, List.filter_append, List.map_append, List.append_assoc]
  by_cases hj : getClientIp req = j <;> simp [hj, hip]

section
variable {p : Admitted} {before after : List Admitted} (hr : s.reading = before ++ p :: after)
include hr

/-- A body that is not sent takes its time out. -/
theorem stamps_drop (j : String) :
    (stamps { s with reading := before ++ after, clock := now } j).Sublist (stamps s j) := by
  rw [stamps, stamps, hr]
  refine List.Sublist.append_left (List.Sublist.map _ (List.Sublist.filter _ ?_)) _
  exact List.Sublist.append_left (List.sublist_cons_self _ _) _

/-- A body that is sent keeps its time. -/
theorem stamps_send (body : Json) (waiting : List Upstream) (j : String) :
    (stamps { s with
      clock := now
      reading := before ++ after
      sent := s.sent ++ [⟨p.ip, p.time, now, body⟩]
      waiting := waiting } j).Perm (stamps s j) := by
  rw [stamps, stamps, hr, List.filter_append, List.map_append, List.append_assoc]
  refine List.Perm.append_left _ ?_
  have hmiddle : (before ++ p :: after).Perm (p :: (before ++ after)) := List.perm_middle
  refine List.Perm.trans ?_ ((hmiddle.filter fun p => p.ip = j).map (·.time)).symm
  by_cases hj : p.ip = j <;> simp [hj]

/-- Step lemma for a body. -/
theorem Limited.readBody (h : Limited s admitted) (hc : s.clock ≤ now) :
    Limited (readBody { s with reading := before ++ after } now p).2 admitted := by
  have hwindow : ∀ ip, Window rateWindowMs rateMaxReqs now (s.ipBuckets ip) (admitted ip) :=
    fun ip => (h.window ip).wait hc
  rcases readBody_cases { s with reading := before ++ after } now p with he | ⟨body, -, hallowed, he⟩
  · rw [he]
    exact ⟨hwindow, fun ip => (stamps_drop hr ip).subperm.trans (h.counted ip), h.allowed⟩
  · rw [he]
    refine ⟨hwindow, fun ip => (stamps_send hr body _ ip).subperm.trans (h.counted ip), ?_⟩
    intro u hu
    rcases List.mem_append.mp hu with hu | hu
    · exact h.allowed u hu
    · obtain rfl := List.mem_singleton.mp hu
      exact hallowed

end

/-- Step lemma for a POST. -/
theorem Limited.post (h : Limited s admitted) (hc : s.clock ≤ now) (req : Post) :
    Limited (post s now req).2 (admittedBy s admitted (getClientIp req) now) := by
  rcases post_cases s now req with ⟨-, he⟩ | ⟨hok, he⟩
  · rw [he]
    exact ⟨h.rateLimit hc _, fun ip => (h.counted ip).trans (sublist_admittedBy _ _).subperm,
      h.allowed⟩
  · rw [he]
    refine ⟨h.rateLimit hc _, fun ip => ?_, h.allowed⟩
    rw [stamps_post]
    by_cases hip : getClientIp req = ip
    · subst hip
      rw [if_pos rfl, admittedBy, if_pos hok, Function.update_self]
      exact (h.counted _).append (List.Subperm.refl _)
    · rw [if_neg hip, List.append_nil]
      exact (h.counted ip).trans (sublist_admittedBy _ _).subperm

theorem Limited.reply (h : Limited s admitted) (hc : s.clock ≤ now) (cache : Cache)
    (waiting : List Upstream) :
    Limited { s with clock := now, accountCache := cache, waiting := waiting } admitted :=
  ⟨fun ip => (h.window ip).wait hc, h.counted, h.allowed⟩

end

/-- Run lemma. -/
theorem limited_run {tr : List (Taken Server Action)} {s : Server} (h : Run Step Server.init tr s) :
    ∃ admitted, Limited s admitted := by
  refine h.inv_state (fun s => ∃ admitted, Limited s admitted) ⟨_, limited_init⟩ ?_
  rintro s a s' ⟨admitted, hl⟩ hst
  cases hst with
  | post hc req => exact ⟨_, hl.post hc req⟩
  | readBody hc hr => exact ⟨_, hl.readBody hr hc⟩
  | reply hc hw r => exact ⟨_, hl.reply hc _ _⟩

/-! ### The calls -/

/-- Calls of one address that are sent less than `span` apart were admitted less than a minute apart. -/
def Near (span : ℕ) (u v : Upstream) : Prop :=
  u.ip = v.ip → v.time < u.time + span →
    v.admitted < u.admitted + rateWindowMs ∧ u.admitted < v.admitted + rateWindowMs

/-- One call a body, and no two sent together that were not admitted together. -/
structure Paced (span : ℕ) (s : Server) : Prop where
  single : ∀ u ∈ s.sent, (requests u.body).length ≤ 1
  near : s.sent.Pairwise (Near span)

/-- A step sends at most one body, one that was still to be read. -/
theorem sent_cases {s s' : Server} {a : Action} (h : Step s a s') : s'.sent = s.sent ∨
    ∃ now p body, a = .readBody now p ∧ p ∈ s.reading ∧ s.clock ≤ now ∧ p.req.body = some body ∧
      s'.sent = s.sent ++ [⟨p.ip, p.time, now, body⟩] := by
  cases h with
  | @post now hc req => exact Or.inl (post_frame s now req).2.2
  | @readBody now p before after hc hr =>
    rcases readBody_cases { s with reading := before ++ after } now p with he | ⟨body, hbody, -, he⟩
    · exact Or.inl (by rw [he])
    · exact Or.inr ⟨now, p, body, rfl, by simp [hr], hc, hbody, by rw [he]⟩
  | reply hc hw r => exact Or.inl rfl

/-- Run lemma: bodies of one call that are read in step. -/
theorem paced_run {span : ℕ} {tr : List (Taken Server Action)} {s : Server}
    (h : Run Step Server.init tr s) (hs : ∀ t ∈ tr, t.label.single ∧ InStep span t) :
    Paced span s := by
  induction h with
  | nil => exact ⟨fun u hu => (by cases hu), List.Pairwise.nil⟩
  | @snoc tr s s' a hrun hst ih =>
    have hfirst := ih fun t ht => hs t (List.mem_append_left _ ht)
    obtain ⟨hsingle, hstep⟩ : a.single ∧ InStep span ⟨s, a, s'⟩ :=
      hs ⟨s, a, s'⟩ (List.mem_append_right _ (List.mem_singleton_self _))
    rcases sent_cases hst with hsent | ⟨now, p, body, rfl, -, -, hbody, hsent⟩
    · exact ⟨hsent ▸ hfirst.single, hsent ▸ hfirst.near⟩
    · refine ⟨fun u hu => ?_, ?_⟩
      · rw [hsent] at hu
        rcases List.mem_append.mp hu with hu | hu
        · exact hfirst.single u hu
        · obtain rfl := List.mem_singleton.mp hu
          exact hsingle body hbody
      · rw [hsent]
        refine List.pairwise_append.mpr ⟨hfirst.near, List.pairwise_singleton _ _, fun u hu v hv => ?_⟩
        obtain rfl := List.mem_singleton.mp hv
        exact hstep u hu

theorem mem_sentIn {s : Server} {ip : String} {start span : ℕ} {u : Upstream}
    (h : u ∈ sentIn s ip start span) :
    u ∈ s.sent ∧ u.ip = ip ∧ start ≤ u.time ∧ u.time < start + span :=
  ⟨(List.mem_filter.mp h).1, of_decide_eq_true (List.mem_filter.mp h).2⟩

/-- One call a body. -/
theorem Paced.calls_le {span : ℕ} {s : Server} (h : Paced span s) (ip : String) (start : ℕ) :
    callsIn s ip start span ≤ (sentIn s ip start span).length := by
  have hone : ∀ n ∈ (sentIn s ip start span).map fun u => (requests u.body).length, n ≤ 1 := by
    intro n hn
    obtain ⟨u, hu, rfl⟩ := List.mem_map.mp hn
    exact h.single u (mem_sentIn hu).1
  have hsum := List.sum_le_card_nsmul _ 1 hone
  rwa [List.length_map, Nat.nsmul_eq_mul, Nat.mul_one] at hsum

/-- What is sent within the span was admitted within one minute. -/
theorem Paced.admitted_close {span : ℕ} {s : Server} (h : Paced span s) (ip : String) (start : ℕ) :
    ∀ t ∈ (sentIn s ip start span).map (·.admitted),
      ∀ t' ∈ (sentIn s ip start span).map (·.admitted), t' < t + rateWindowMs := by
  have hnear : (sentIn s ip start span).Pairwise fun u v =>
      v.admitted < u.admitted + rateWindowMs ∧ u.admitted < v.admitted + rateWindowMs := by
    refine (h.near.sublist List.filter_sublist).imp_of_mem fun hu hv hn => ?_
    obtain ⟨-, hip, hstart, -⟩ := mem_sentIn hu
    obtain ⟨-, hip', -, hend⟩ := mem_sentIn hv
    exact hn (hip.trans hip'.symm) (by omega)
  have hpos : 0 < rateWindowMs := by decide
  intro t ht t' ht'
  obtain ⟨u, hu, rfl⟩ := List.mem_map.mp ht
  obtain ⟨v, hv, rfl⟩ := List.mem_map.mp ht'
  exact (hnear.imp And.left).forall_of_forall_of_flip (fun _ _ => Nat.lt_add_of_pos_right hpos)
    (hnear.imp And.right) hu hv

theorem sentIn_stamps (s : Server) (ip : String) (start span : ℕ) :
    ((sentIn s ip start span).map (·.admitted)).Sublist (stamps s ip) := by
  refine (List.Sublist.map _ (List.monotone_filter_right _ fun u hu => ?_)).trans
    (List.sublist_append_left _ _)
  exact decide_eq_true (of_decide_eq_true hu).1

/-- A body is sent after its POST has passed the limiter, `d` milliseconds later at most. -/
structure Prompt (d : ℕ) (u : Upstream) : Prop where
  later : u.admitted ≤ u.time
  soon : u.time ≤ u.admitted + d

/-- No POST and no call is ahead of the clock. -/
structure Timely (s : Server) : Prop where
  reading : ∀ p ∈ s.reading, p.time ≤ s.clock
  sent : ∀ u ∈ s.sent, u.time ≤ s.clock

theorem timely_run {tr : List (Taken Server Action)} {s : Server} (h : Run Step Server.init tr s) :
    Timely s := by
  refine h.inv_state Timely ⟨fun p hp => (by cases hp), fun u hu => (by cases hu)⟩ ?_
  intro s a s' ih hst
  cases hst with
  | @post now hc req =>
    rcases post_cases s now req with ⟨-, he⟩ | ⟨-, he⟩
    · rw [he]
      exact ⟨fun p hp => (ih.reading p hp).trans hc, fun u hu => (ih.sent u hu).trans hc⟩
    · rw [he]
      refine ⟨fun p hp => ?_, fun u hu => (ih.sent u hu).trans hc⟩
      rcases List.mem_append.mp hp with hp | hp
      · exact (ih.reading p hp).trans hc
      · obtain rfl := List.mem_singleton.mp hp
        exact Nat.le_refl now
  | @readBody now p before after hc hr =>
    have hreading : ∀ q ∈ before ++ after, q.time ≤ now := by
      intro q hq
      have hmem : q ∈ s.reading := hr ▸ by
        rcases List.mem_append.mp hq with hq | hq <;> simp [hq]
      exact (ih.reading q hmem).trans hc
    rcases readBody_cases { s with reading := before ++ after } now p with he | ⟨body, -, -, he⟩
    · rw [he]
      exact ⟨hreading, fun u hu => (ih.sent u hu).trans hc⟩
    · rw [he]
      refine ⟨hreading, fun u hu => ?_⟩
      rcases List.mem_append.mp hu with hu | hu
      · exact (ih.sent u hu).trans hc
      · obtain rfl := List.mem_singleton.mp hu
        exact Nat.le_refl now
  | reply hc hw r =>
    exact ⟨fun p hp => (ih.reading p hp).trans hc, fun u hu => (ih.sent u hu).trans hc⟩

/-- Run lemma: bodies that are read in time are sent in time. -/
theorem prompt_run {d : ℕ} {tr : List (Taken Server Action)} {s : Server}
    (h : Run Step Server.init tr s) (hs : ∀ t ∈ tr, t.label.readWithin d) :
    ∀ u ∈ s.sent, Prompt d u := by
  induction h with
  | nil => exact fun u hu => by cases hu
  | @snoc tr s s' a hrun hst ih =>
    have hfirst := ih fun t ht => hs t (List.mem_append_left _ ht)
    have hlast : a.readWithin d :=
      hs ⟨s, a, s'⟩ (List.mem_append_right _ (List.mem_singleton_self _))
    rcases sent_cases hst with hsent | ⟨now, p, body, rfl, hp, hc, -, hsent⟩
    · exact hsent ▸ hfirst
    · intro u hu
      rw [hsent] at hu
      rcases List.mem_append.mp hu with hu | hu
      · exact hfirst u hu
      · obtain rfl := List.mem_singleton.mp hu
        exact ⟨((timely_run hrun).reading p hp).trans hc, hlast⟩

/-- Bodies that are read within `d` milliseconds are in step over a minute less `d`. -/
theorem inStep_of_readWithin {d : ℕ} {tr : List (Taken Server Action)} {s : Server}
    (h : Run Step Server.init tr s) (hs : ∀ t ∈ tr, t.label.readWithin d) :
    ∀ t ∈ tr, InStep (rateWindowMs - d) t := by
  rintro ⟨s₁, a, s₂⟩ ht
  obtain ⟨tr₁, tr₂, rfl, hr, hst⟩ := h.mem _ ht
  change Run Step Server.init tr₁ s₁ at hr
  change Step s₁ a s₂ at hst
  cases hst with
  | post hc req => trivial
  | @readBody now p before after hc hmem =>
    intro u hu _ hnow
    have hlate : now ≤ p.time + d := hs _ ht
    have hclock : p.time ≤ s₁.clock := (timely_run hr).reading p (by simp [hmem])
    have hsent : u.time ≤ s₁.clock := (timely_run hr).sent u hu
    obtain ⟨hlater, hsoon⟩ := prompt_run hr (fun t' ht' => hs t' (List.mem_append_left _ ht')) u hu
    omega
  | reply hc hw r => trivial

/-- Bodies of one call that are read in step make at most 1200 calls in every span. -/
theorem quota_span {span : ℕ} {tr : List (Taken Server Action)} {s : Server}
    (h : Run Step Server.init tr s) (hs : ∀ t ∈ tr, t.label.single ∧ InStep span t)
    (ip : String) (start : ℕ) : callsIn s ip start span ≤ rateMaxReqs := by
  obtain ⟨admitted, hl⟩ := limited_run h
  have hpaced := paced_run h hs
  obtain ⟨first, hfirst⟩ := within_of_close (hpaced.admitted_close ip start)
  rw [List.length_map] at hfirst
  calc callsIn s ip start span
      ≤ (sentIn s ip start span).length := hpaced.calls_le ip start
    _ = within rateWindowMs first ((sentIn s ip start span).map (·.admitted)) := hfirst.symm
    _ ≤ within rateWindowMs first (stamps s ip) := (sentIn_stamps s ip start span).countP_le
    _ ≤ within rateWindowMs first (admitted ip) := (hl.counted ip).countP_le _
    _ ≤ rateMaxReqs := (hl.window ip).bounded first

/-- QUOTA WITH DELAY: bodies of one call, each read within `d` milliseconds, make at most 1200 calls in
    every span of a minute less `d`. -/
theorem quota_within {d : ℕ} {tr : List (Taken Server Action)} {s : Server}
    (h : Run Step Server.init tr s) (hs : ∀ t ∈ tr, t.label.single ∧ t.label.readWithin d)
    (ip : String) (start : ℕ) : callsIn s ip start (rateWindowMs - d) ≤ rateMaxReqs :=
  quota_span h (fun t ht => ⟨(hs t ht).1, inStep_of_readWithin h (fun t ht => (hs t ht).2) t ht⟩)
    ip start

/-- QUOTA: when no body is a batch, and calls of one address that are sent less than a minute apart have
    passed the limiter less than a minute apart, no address has more than 1200 calls sent upstream
    within a minute. Whatever the bodies, every call sent is allowed, and the POSTs of others change no
    decision of the limiter. -/
theorem quota_of_single (tr : List (Taken Server Action)) (s : Server)
    (h : Run Step Server.init tr s) :
    ((∀ t ∈ tr, t.label.single ∧ InStep rateWindowMs t) →
      ∀ ip start, callsIn s ip start rateWindowMs ≤ rateMaxReqs) ∧
    (∀ u ∈ s.sent, ∀ r ∈ requests u.body, ∃ method ∈ allowedMethods, r.method = some method) ∧
    ∀ ip tr' s', Run Step Server.init tr' s' → postTimes ip tr' = postTimes ip tr →
      ∀ now, (rateLimit s'.ipBuckets ip now).1 = (rateLimit s.ipBuckets ip now).1 := by
  obtain ⟨admitted, hl⟩ := limited_run h
  refine ⟨fun hs ip start => quota_span h hs ip start, hl.allowed, ?_⟩
  intro ip tr' s' h' hsame now
  rw [rateLimit, rateLimit, bucket_run h', bucket_run h, hsame]

/-! One POST, of one call or of a batch, and bodies that are a millisecond late. -/

namespace Demo

def slotCall : Json :=
  .object [("jsonrpc", .string "2.0"), ("id", .number "1"), ("method", .string "getSlot")]

def slotPost : Post := ⟨none, none, some slotCall⟩

/-- A batch of `n` calls. -/
def slotBatch (n : ℕ) : Post := ⟨none, none, some (.array (List.replicate n slotCall))⟩

theorem slotCall_checked : checkRequest slotCall = none := by decide +kernel

theorem slotBatch_handled (n now : ℕ) : handleBody (fun _ => none) now (slotBatch n).body =
    .forward (.array (List.replicate n slotCall)) := by
  have hchecked : (List.replicate n slotCall).findSome? checkRequest = none := by
    rw [List.findSome?_eq_none_iff]
    intro r hr
    rw [List.eq_of_mem_replicate hr]
    exact slotCall_checked
  rw [slotBatch, handleBody, requests, hchecked]
  rfl

theorem slotPost_handled (now : ℕ) :
    handleBody (fun _ => none) now slotPost.body = .forward slotCall := by
  have hkey : cacheKey slotCall = none := by decide +kernel
  have hchecked : (requests slotCall).findSome? checkRequest = none :=
    (List.findSome?_eq_none_iff).mpr fun r hr => List.mem_singleton.mp hr ▸ slotCall_checked
  simp [slotPost, handleBody, hchecked, cacheHit, hkey]

theorem slotBatch_calls {s : Server} {n : ℕ}
    (h : s.sent = [⟨"unknown", 0, 0, .array (List.replicate n slotCall)⟩]) :
    callsIn s "unknown" 0 rateWindowMs = n := by
  rw [callsIn, sentIn, h]
  simp [requests]

/-- A POST that passes while no body is awaited, and its body some time later. -/
theorem post_sent {s : Server} {now read : ℕ} {req : Post} {body : Json} (hnone : s.reading = [])
    (hread : now ≤ read) (hpass : (rateLimit s.ipBuckets (getClientIp req) now).1 = true)
    (hforward : handleBody s.accountCache read req.body = .forward body) :
    ∃ s', Step (post s now req).2 (.readBody read ⟨req, now⟩) s' ∧
      s'.sent = s.sent ++ [⟨getClientIp req, now, read, body⟩] := by
  obtain ⟨hclock, hcache, hsent⟩ := post_frame s now req
  have hreading : (post s now req).2.reading = [] ++ ⟨req, now⟩ :: [] := by
    rcases post_cases s now req with ⟨hno, -⟩ | ⟨-, h⟩
    · cases hno.symm.trans hpass
    · rw [h, hnone]
  refine ⟨_, Step.readBody (hclock.trans_le hread) hreading, ?_⟩
  simp [readBody, hcache, hsent, hforward, Admitted.ip]

/-- The proxy with `n` bodies to be read and `m` calls sent at 1, of POSTs that passed at 0. -/
def half (clock n m : ℕ) : Server where
  clock := clock
  ipBuckets := Function.update (fun _ => []) "unknown" (List.replicate (n + m) 0)
  accountCache := fun _ => none
  reading := List.replicate n ⟨slotPost, 0⟩
  sent := List.replicate m ⟨"unknown", 0, 1, slotCall⟩
  waiting := List.replicate m ⟨"unknown", 0, 1, slotCall⟩

/-- Reached by steps of a kind. -/
def Reached (kind : Taken Server Action → Prop) (s : Server) : Prop :=
  ∃ tr, Run Step Server.init tr s ∧ ∀ t ∈ tr, kind t

theorem Reached.snoc {kind : Taken Server Action → Prop} {s s' : Server} {a : Action}
    (h : Reached kind s) (hst : Step s a s') (ha : kind ⟨s, a, s'⟩) : Reached kind s' := by
  obtain ⟨tr, hrun, htr⟩ := h
  refine ⟨_, hrun.snoc hst, fun t ht => ?_⟩
  rcases List.mem_append.mp ht with ht | ht
  · exact htr t ht
  · obtain rfl := List.mem_singleton.mp ht
    exact ha

/-- Bodies of one call, read within a millisecond and in step. -/
def Orderly (t : Taken Server Action) : Prop :=
  t.label.single ∧ t.label.readWithin 1 ∧ InStep rateWindowMs t

theorem slotPost_single (now passed : ℕ) : (Action.readBody now ⟨slotPost, passed⟩).single := by
  rintro body ⟨⟩
  exact Nat.le_refl 1

/-- One more POST at 0. -/
theorem post_half {n : ℕ} (hn : n < rateMaxReqs) :
    (post (half 0 n 0) 0 slotPost).2 = half 0 (n + 1) 0 := by
  have hfresh : fresh rateWindowMs 0 (List.replicate n 0) = List.replicate n 0 :=
    List.filter_eq_self.mpr fun t _ => by simp
  have hroom : ¬ rateMaxReqs ≤ (List.replicate n 0).length := by simpa using hn
  have hlimited : rateLimit (half 0 n 0).ipBuckets (getClientIp slotPost) 0 =
      (true, Function.update (fun _ => []) "unknown" (List.replicate (n + 1) 0)) := by
    simp only [rateLimit, show getClientIp slotPost = "unknown" from rfl, half, Nat.add_zero,
      Function.update_self, slide, hfresh, if_neg hroom, Function.update_idem,
      ← List.replicate_succ']
  rw [post, hlimited]
  simp [half, List.replicate_succ']

/-- One more body. -/
theorem readBody_half (clock n m : ℕ) :
    (readBody { half clock (n + 1) m with reading := [] ++ List.replicate n ⟨slotPost, 0⟩ } 1
      ⟨slotPost, 0⟩).2 = half 1 n (m + 1) := by
  simp [readBody, half, slotPost_handled, List.replicate_succ', Nat.add_assoc, Nat.add_comm 1 m,
    Admitted.ip, show getClientIp slotPost = "unknown" from rfl]

theorem readBody_orderly (clock n m : ℕ) (s : Server) :
    Orderly ⟨half clock n m, .readBody 1 ⟨slotPost, 0⟩, s⟩ := by
  refine ⟨slotPost_single 1 0, Nat.le_refl 1, fun u hu _ _ => ?_⟩
  obtain rfl := List.eq_of_mem_replicate hu
  exact ⟨by decide, by decide⟩

theorem reached_post : ∀ n ≤ rateMaxReqs, Reached Orderly (half 0 n 0) := by
  intro n
  induction n with
  | zero =>
    intro _
    have hinit : half 0 0 0 = Server.init := by
      simp [half, Server.init, Function.update_eq_self]
    rw [hinit]
    exact ⟨[], .nil, fun t ht => by cases ht⟩
  | succ n ih =>
    intro hn
    rw [← post_half hn]
    exact (ih (Nat.le_of_lt hn)).snoc (Step.post (Nat.le_refl 0) slotPost) ⟨trivial, trivial, trivial⟩

theorem reached_readBody (m : ℕ) : ∀ n, Reached Orderly (half 0 (n + m) 0) →
    ∃ clock ≤ 1, Reached Orderly (half clock n m) := by
  induction m with
  | zero => exact fun n h => ⟨0, Nat.zero_le 1, h⟩
  | succ m ih =>
    intro n h
    obtain ⟨clock, hclock, hr⟩ := ih (n + 1) (by rwa [Nat.add_right_comm])
    refine ⟨1, Nat.le_refl 1, ?_⟩
    rw [← readBody_half clock n m]
    exact hr.snoc (Step.readBody hclock (List.replicate_succ ..)) (readBody_orderly _ _ _ _)

/-- A full window, with every body read. -/
theorem reached_full : ∃ clock ≤ 1, Reached Orderly (half clock 0 rateMaxReqs) :=
  reached_readBody rateMaxReqs 0 (by rw [Nat.zero_add]; exact reached_post _ (Nat.le_refl _))

/-- Calls of one address, all sent within a minute. -/
theorem callsIn_all {s : Server} {start : ℕ} (h : ∀ u ∈ s.sent, u.ip = "unknown" ∧ start ≤ u.time ∧
    u.time < start + rateWindowMs ∧ (requests u.body).length = 1) :
    callsIn s "unknown" start rateWindowMs = s.sent.length := by
  have hfilter : sentIn s "unknown" start rateWindowMs = s.sent :=
    List.filter_eq_self.mpr fun u hu =>
      decide_eq_true ⟨(h u hu).1, (h u hu).2.1, (h u hu).2.2.1⟩
  have hmap : s.sent.map (fun u => (requests u.body).length) = List.replicate s.sent.length 1 := by
    rw [List.eq_replicate_iff]
    refine ⟨List.length_map _, fun n hn => ?_⟩
    obtain ⟨u, hu, rfl⟩ := List.mem_map.mp hn
    exact (h u hu).2.2.2
  rw [callsIn, hfilter, hmap, List.sum_replicate_nat, Nat.mul_one]

/-- At 60000 the POSTs of 0 are no longer counted. -/
theorem stale_pass (clock : ℕ) : (rateLimit (half clock 0 rateMaxReqs).ipBuckets
    (getClientIp slotPost) rateWindowMs).1 = true := by
  have hstale : fresh rateWindowMs rateWindowMs (List.replicate rateMaxReqs 0) = [] :=
    List.filter_eq_nil_iff.mpr fun t ht => by simp [List.eq_of_mem_replicate ht]
  simp [rateLimit, show getClientIp slotPost = "unknown" from rfl, half, slide, hstale]

end Demo

/-- A batch of 1201 calls is one POST to the limiter. -/
theorem batch_exceeds_quota : ¬ ∀ (tr : List (Taken Server Action)) (s : Server),
    Run Step Server.init tr s → ∀ ip start, callsIn s ip start rateWindowMs ≤ rateMaxReqs := by
  intro hall
  have hip : getClientIp (Demo.slotBatch 1201) = "unknown" := rfl
  have hpass : (rateLimit Server.init.ipBuckets (getClientIp (Demo.slotBatch 1201)) 0).1 = true := by
    rw [hip]
    decide
  obtain ⟨s, hst, hsent⟩ := Demo.post_sent (s := Server.init) rfl (Nat.le_refl 0) hpass
    (Demo.slotBatch_handled 1201 0)
  have hrun := (Run.nil.snoc (Step.post (Nat.le_refl 0) (Demo.slotBatch 1201))).snoc hst
  have hle := hall _ s hrun "unknown" 0
  rw [Demo.slotBatch_calls (hsent.trans (by rw [hip]; rfl))] at hle
  exact absurd hle (by decide)

/-- No delay is harmless: with bodies a millisecond late, 1200 POSTs at 0 and one at 60000 are 1201
    calls from 1 to 60000. -/
theorem late_bodies_exceed_quota : ∃ tr s, Run Step Server.init tr s ∧
    (∀ t ∈ tr, t.label.single ∧ t.label.readWithin 1) ∧
      rateMaxReqs < callsIn s "unknown" 1 rateWindowMs := by
  obtain ⟨clock, hclock, tr₀, hfull, horderly⟩ := Demo.reached_full
  obtain ⟨s, hst, hsent⟩ := Demo.post_sent (s := Demo.half clock 0 rateMaxReqs) rfl
    (Nat.le_refl rateWindowMs) (Demo.stale_pass clock) (Demo.slotPost_handled rateWindowMs)
  have hreached : Demo.Reached (fun t => t.label.single ∧ t.label.readWithin 1)
      (Demo.half clock 0 rateMaxReqs) :=
    ⟨tr₀, hfull, fun t ht => ⟨(horderly t ht).1, (horderly t ht).2.1⟩⟩
  obtain ⟨tr, hrun, htr⟩ := (hreached.snoc (Step.post (hclock.trans (by decide)) Demo.slotPost)
    ⟨trivial, trivial⟩).snoc hst ⟨Demo.slotPost_single _ _, Nat.le_add_right _ 1⟩
  refine ⟨tr, s, hrun, htr, ?_⟩
  rw [Demo.callsIn_all, hsent]
  · simp [Demo.half]
  · intro u hu
    rw [hsent] at hu
    rcases List.mem_append.mp hu with hu | hu
    · rw [List.eq_of_mem_replicate hu]
      exact ⟨rfl, by decide, by decide, rfl⟩
    · rw [List.mem_singleton.mp hu]
      exact ⟨rfl, by decide, by decide, rfl⟩

/-- A full window within the bound, of bodies that are a millisecond late. -/
theorem quota_demo : ∃ tr s, Run Step Server.init tr s ∧ s.sent.length = rateMaxReqs ∧
    callsIn s "unknown" 1 rateWindowMs ≤ rateMaxReqs := by
  obtain ⟨clock, -, tr, hrun, horderly⟩ := Demo.reached_full
  exact ⟨tr, _, hrun, List.length_replicate, (quota_of_single tr _ hrun).1
    (fun t ht => ⟨(horderly t ht).1, (horderly t ht).2.2⟩) "unknown" 1⟩

end Equium.Proxy
