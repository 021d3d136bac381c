import Equium.Website.Quota

/-! @src clients/website/src/app/api/rpc/route.ts | name:Cache of the RPC proxy | scheme:run-invariant

    An entry of the cache is the text of the last successful answer to a call with its method and
    params, and is served for two seconds. It is looked up once the body of the call is read. The key
    leaves the id out: whoever is served from the cache reads the id of whoever filled it. -/

namespace Equium.Proxy
open Schemes

/-- The `id` of a call. -/
def Json.id (r : Json) : Option Json := r.get "id"

/-- The same method, and params with the same text. -/
def SameCall (a b : Json) : Prop :=
  a.method = b.method ∧ (params a).stringify = (params b).stringify

/-- The body a step answers, when, and how. -/
def answered (t : Taken Server Action) : Option (Json × ℕ × Response) :=
  match t.label with
  | .post now req => do
    let body ← req.body
    let r ← (post t.pre now req).1
    pure (body, now, r)
  | .readBody now p => do
    let body ← p.req.body
    let r ← (readBody t.pre now p).1
    pure (body, now, r)
  | .reply now u r => some (u.body, now, (settle t.pre.accountCache now u.body r).1)

/-- An upstream answer with this text, to this body, came at this time. -/
def Fetched (tr : List (Taken Server Action)) (ts : ℕ) (body : Json) (text : String) : Prop :=
  ∃ t ∈ tr, ∃ u status contentType,
    t.label = .reply ts u (.response status contentType text) ∧ u.body = body

section

variable (carriedId : String → Option Json)

/-- The upstream answers a call with the id of the call. -/
def UpstreamIds (tr : List (Taken Server Action)) : Prop :=
  ∀ t ∈ tr, ∀ ts u status contentType text,
    t.label = .reply ts u (.response status contentType text) → isBatch u.body = false →
    carriedId text = u.body.id

/-- Every 200 answer to a single call carries its id and is an upstream answer to the same method and
    params, less than two seconds old. -/
def Transparent (tr : List (Taken Server Action)) : Prop :=
  ∀ tr₁ t tr₂, tr = tr₁ ++ t :: tr₂ → ∀ body now r, answered t = some (body, now, r) →
    isBatch body = false → r.status = 200 →
    carriedId r.body = body.id ∧ ∃ ts source, Fetched (tr₁ ++ [t]) ts source r.body ∧
      SameCall source body ∧ ts ≤ now ∧ now < ts + cacheTtlMs

/-- The answer a step stores under a key: when it came, and to which body. -/
def Action.stores (key : String) : Action → Option (ℕ × Json)
  | .reply now u (.response status _ _) =>
    if isBatch u.body = false ∧ (200 ≤ status ∧ status ≤ 299) ∧ cacheKey u.body = some key then
      some (now, u.body)
    else none
  | _ => none

/-- The last answer stored under a key. -/
def stored (tr : List (Taken Server Action)) (key : String) : Option (ℕ × Json) :=
  tr.reverse.findSome? fun t => t.label.stores key

/-- A single cacheable call whose body is read less than two seconds after an answer under its key was
    stored has the id of the call that answer was fetched for. -/
def SameIds (tr : List (Taken Server Action)) : Prop :=
  ∀ tr₁ t tr₂, tr = tr₁ ++ t :: tr₂ → ∀ now p body key ts source, t.label = .readBody now p →
    p.req.body = some body → cacheKey body = some key → stored tr₁ key = some (ts, source) →
    now < ts + cacheTtlMs → source.id = body.id

/-! ### Keys -/

theorem cacheKey_method {body : Json} {key : String} (h : cacheKey body = some key) :
    ∃ method ∈ cacheableMethods, body.method = some method ∧
      key = method ++ ":" ++ (params body).stringify := by
  rw [cacheKey] at h
  cases hm : body.method with
  | none =>
    rw [hm] at h
    cases h
  | some method =>
    simp only [hm, Option.ite_none_right_eq_some, Option.some.injEq] at h
    exact ⟨method, h.1, rfl, h.2.symm⟩

/-- A call that can be cached is one allowed call. -/
theorem cacheKey_single {body : Json} {key : String} (h : cacheKey body = some key) :
    isBatch body = false ∧ (requests body).findSome? checkRequest = none := by
  obtain ⟨method, hin, hm, -⟩ := cacheKey_method h
  cases body with
  | array items => cases hm
  | object fields =>
    have hallowed : method ∈ allowedMethods := by
      simp only [cacheableMethods, List.mem_cons, List.not_mem_nil, or_false] at hin
      rcases hin with rfl | rfl <;> decide
    exact ⟨rfl, by simp [requests, checkRequest, hm, hallowed]⟩
  | _ => cases hm

/-- Equal keys mean the same call: neither method continues the other. -/
theorem sameCall_of_key {a b : Json} {key : String} (ha : cacheKey a = some key)
    (hb : cacheKey b = some key) : SameCall a b := by
  obtain ⟨m, hm, hma, hka⟩ := cacheKey_method ha
  obtain ⟨m', hm', hmb, hkb⟩ := cacheKey_method hb
  have hkey := hka.symm.trans hkb
  simp only [cacheableMethods, List.mem_cons, List.not_mem_nil, or_false] at hm hm'
  have hlist := congrArg String.toList hkey
  simp only [String.toList_append] at hlist
  rcases hm with rfl | rfl <;> rcases hm' with rfl | rfl
  · exact ⟨hma.trans hmb.symm, String.toList_inj.mp (List.append_cancel_left hlist)⟩
  · simp at hlist
  · simp at hlist
  · exact ⟨hma.trans hmb.symm, String.toList_inj.mp (List.append_cancel_left hlist)⟩

/-! ### What a POST answers -/

theorem checkRequest_status {r : Json} {e : Response} (h : checkRequest r = some e) :
    e.status = 400 ∨ e.status = 403 := by
  rw [checkRequest] at h
  split at h
  · obtain rfl := Option.some.inj h
    exact .inl rfl
  · split_ifs at h
    obtain rfl := Option.some.inj h
    exact .inr rfl

theorem cacheHit_some {cache : Cache} {now : ℕ} {body : Json} {text : String}
    (h : cacheHit cache now body = some text) : ∃ key hit, cacheKey body = some key ∧
      cache key = some hit ∧ now - hit.ts < cacheTtlMs ∧ text = hit.body := by
  rw [cacheHit] at h
  cases hk : cacheKey body with
  | none => simp [hk] at h
  | some key =>
    cases hc : cache key with
    | none => simp [hk, hc] at h
    | some hit =>
      simp only [hk, hc, Option.ite_none_left_eq_some, Option.ite_none_right_eq_some,
        Option.some.injEq] at h
      exact ⟨key, hit, rfl, hc, h.2.1, h.2.2.symm⟩

/-- The handler's own answers are errors, or come from the cache. -/
theorem handleBody_hit {cache : Cache} {now : ℕ} {body? : Option Json} {r : Response}
    (h : handleBody cache now body? = .answer r) (hr : r.status = 200) :
    ∃ body key hit, body? = some body ∧ cacheKey body = some key ∧ cache key = some hit ∧
      now - hit.ts < cacheTtlMs ∧ r.body = hit.body := by
  cases body? with
  | none =>
    obtain rfl := Outcome.answer.inj h
    cases hr
  | some body =>
    rw [handleBody] at h
    cases hc : (requests body).findSome? checkRequest with
    | some e =>
      obtain ⟨a, -, he⟩ := List.exists_of_findSome?_eq_some hc
      simp only [hc, Outcome.answer.injEq] at h
      obtain rfl := h
      rcases checkRequest_status he with hs | hs <;> rw [hs] at hr <;> cases hr
    | none =>
      cases hh : cacheHit cache now body with
      | none =>
        simp only [hc, hh] at h
        cases h
      | some text =>
        obtain ⟨key, hit, hkey, hhit, hfresh, rfl⟩ := cacheHit_some hh
        simp only [hc, hh, Outcome.answer.injEq] at h
        exact ⟨body, key, hit, rfl, hkey, hhit, hfresh, by rw [← h]⟩

/-- The limiter's own answer is an error. -/
theorem post_answer {s : Server} {now : ℕ} {req : Post} {r : Response}
    (h : (post s now req).1 = some r) : r.status = 429 := by
  rw [post] at h
  dsimp only at h
  split_ifs at h
  obtain rfl := Option.some.inj h
  rfl

/-- A body that is answered 200 once it is read is served from the cache. -/
theorem readBody_hit {s : Server} {now : ℕ} {p : Admitted} {r : Response}
    (h : (readBody s now p).1 = some r) (hr : r.status = 200) :
    ∃ body key hit, p.req.body = some body ∧ cacheKey body = some key ∧
      s.accountCache key = some hit ∧ now - hit.ts < cacheTtlMs ∧ r.body = hit.body := by
  rw [readBody] at h
  cases hb : handleBody s.accountCache now p.req.body with
  | forward body => simp [hb] at h
  | answer r' =>
    obtain rfl : r' = r := by simpa [hb] using h
    exact handleBody_hit hb hr

/-- A fresh entry is served. -/
theorem readBody_of_hit {s : Server} {now : ℕ} {p : Admitted} {body : Json} {key : String}
    {hit : CacheEntry} (hbody : p.req.body = some body) (hkey : cacheKey body = some key)
    (hhit : s.accountCache key = some hit) (hfresh : now - hit.ts < cacheTtlMs) :
    (readBody s now p).1 =
      some ⟨200, [("content-type", "application/json"), ("x-cache", "HIT")], hit.body⟩ := by
  obtain ⟨hsingle, hchecks⟩ := cacheKey_single hkey
  have hserve : handleBody s.accountCache now (some body) =
      .answer ⟨200, [("content-type", "application/json"), ("x-cache", "HIT")], hit.body⟩ := by
    simp [handleBody, hchecks, cacheHit, hsingle, hkey, hhit, hfresh]
  simp [readBody, hbody, hserve]

/-! ### What the cache holds -/

/-- INVARIANT: an entry is the last answer stored under its key, with its text and its time. -/
structure Sourced (tr : List (Taken Server Action)) (s : Server) : Prop where
  entry : ∀ key hit, s.accountCache key = some hit → ∃ source,
    stored tr key = some (hit.ts, source) ∧ cacheKey source = some key ∧ isBatch source = false ∧
    hit.ts ≤ s.clock ∧ Fetched tr hit.ts source hit.body
  empty : ∀ key, s.accountCache key = none → stored tr key = none

theorem stored_snoc (tr : List (Taken Server Action)) (t : Taken Server Action) (key : String) :
    stored (tr ++ [t]) key = (t.label.stores key).or (stored tr key) := by
  rw [stored, List.reverse_append]
  cases h : t.label.stores key <;> simp [stored, h]

theorem Fetched.append {tr : List (Taken Server Action)} {ts : ℕ} {body : Json} {text : String}
    (h : Fetched tr ts body text) (tr' : List (Taken Server Action)) :
    Fetched (tr ++ tr') ts body text := by
  obtain ⟨t, ht, hrest⟩ := h
  exact ⟨t, List.mem_append_left _ ht, hrest⟩

theorem readBody_frame (s : Server) (now : ℕ) (p : Admitted) :
    (readBody s now p).2.clock = now ∧ (readBody s now p).2.accountCache = s.accountCache := by
  rcases readBody_cases s now p with h | ⟨body, -, -, h⟩ <;> rw [h] <;> exact ⟨rfl, rfl⟩

/-- A step that leaves the cache alone. -/
theorem Sourced.wait {tr : List (Taken Server Action)} {s s' : Server} (h : Sourced tr s)
    {a : Action} (hclock : s.clock ≤ s'.clock) (hcache : s'.accountCache = s.accountCache)
    (hstores : ∀ key, a.stores key = none) : Sourced (tr ++ [⟨s, a, s'⟩]) s' := by
  refine ⟨fun key hit hhit => ?_, fun key hnone => ?_⟩
  · rw [hcache] at hhit
    obtain ⟨source, hstored, hkey, hb, hts, hfetched⟩ := h.entry key hit hhit
    rw [stored_snoc, hstores]
    exact ⟨source, hstored, hkey, hb, hts.trans hclock, hfetched.append _⟩
  · rw [hcache] at hnone
    rw [stored_snoc, hstores]
    exact h.empty key hnone

/-- STEP LEMMA: what an answer does to the cache is what it stores. -/
theorem settle_cache (cache : Cache) (now : ℕ) (u : Upstream) (r : Reply) (key : String) :
    (settle cache now u.body r).2 key = cache key ∧ (Action.reply now u r).stores key = none ∨
      ∃ status contentType text, r = .response status contentType text ∧
        (settle cache now u.body r).2 key = some ⟨now, text⟩ ∧ isBatch u.body = false ∧
        cacheKey u.body = some key ∧ (Action.reply now u r).stores key = some (now, u.body) := by
  cases r with
  | failure detail => exact .inl ⟨rfl, rfl⟩
  | response status contentType text =>
    by_cases hstore : isBatch u.body = false ∧ (200 ≤ status ∧ status ≤ 299) ∧
        cacheKey u.body = some key
    · obtain ⟨hb, hs, hk⟩ := hstore
      refine .inr ⟨status, contentType, text, rfl, ?_, hb, hk, if_pos ⟨hb, hs, hk⟩⟩
      simp [settle, hk, hb, hs]
    · refine .inl ⟨?_, if_neg hstore⟩
      rw [settle]
      cases hk : cacheKey u.body with
      | none => rfl
      | some key' =>
        dsimp only
        split_ifs with hok
        · have hne : key ≠ key' := by
            rintro rfl
            exact hstore ⟨hok.1, hok.2, hk⟩
          exact Function.update_of_ne hne _ _
        · rfl

/-- RUN LEMMA. -/
theorem sourced_run {tr : List (Taken Server Action)} {s : Server}
    (h : Run Step Server.init tr s) : Sourced tr s := by
  refine h.inv Sourced ⟨fun key hit hhit => (by cases hhit), fun _ _ => rfl⟩ ?_
  intro tr s a s' _ ih hst
  cases hst with
  | @post now hc req =>
    obtain ⟨hclock, hcache, -⟩ := post_frame s now req
    exact ih.wait (hc.trans hclock.ge) hcache fun _ => rfl
  | @readBody now p before after hc hr =>
    obtain ⟨hclock, hcache⟩ := readBody_frame { s with reading := before ++ after } now p
    exact ih.wait (hc.trans hclock.ge) hcache fun _ => rfl
  | @reply now u before after hc hw r =>
    refine ⟨fun key hit hhit => ?_, fun key hnone => ?_⟩
    all_goals rw [stored_snoc]
    all_goals rcases settle_cache s.accountCache now u r key with
      ⟨hsame, hstores⟩ | ⟨status, contentType, text, rfl, hnew, hb, hkey, hstores⟩
    all_goals rw [hstores]
    · obtain ⟨source, hstored, hkey, hb, hts, hfetched⟩ := ih.entry key hit (hsame ▸ hhit)
      exact ⟨source, hstored, hkey, hb, hts.trans hc, hfetched.append _⟩
    · obtain rfl := Option.some.inj (hhit.symm.trans hnew)
      exact ⟨u.body, rfl, hkey, hb, le_rfl, _, List.mem_append_right _ (List.mem_singleton_self _),
        u, status, contentType, rfl, rfl⟩
    · exact ih.empty key (hsame ▸ hnone)
    · cases hnew.symm.trans hnone

/-- What is stored was answered. -/
theorem stored_mem {tr : List (Taken Server Action)} {key : String} {ts : ℕ} {source : Json}
    (h : stored tr key = some (ts, source)) :
    ∃ t ∈ tr, ∃ u r, t.label = .reply ts u r ∧ u.body = source := by
  obtain ⟨t, ht, hs⟩ := List.exists_of_findSome?_eq_some h
  refine ⟨t, List.mem_reverse.mp ht, ?_⟩
  cases hlabel : t.label with
  | post now req =>
    rw [hlabel] at hs
    cases hs
  | readBody now p =>
    rw [hlabel] at hs
    cases hs
  | reply now u r =>
    cases r with
    | failure detail =>
      rw [hlabel] at hs
      cases hs
    | response status contentType text =>
      simp only [hlabel, Action.stores, Option.ite_none_right_eq_some, Option.some.injEq,
        Prod.mk.injEq] at hs
      obtain ⟨-, rfl, hbody⟩ := hs
      exact ⟨u, _, rfl, hbody⟩

/-- An entry's text carries the id of the call it was fetched for. -/
theorem UpstreamIds.of_fetched {carriedId : String → Option Json}
    {tr : List (Taken Server Action)} (h : UpstreamIds carriedId tr) {ts : ℕ} {body : Json}
    {text : String} (hf : Fetched tr ts body text) (hb : isBatch body = false) :
    carriedId text = body.id := by
  obtain ⟨t, ht, u, status, contentType, hlabel, rfl⟩ := hf
  exact h t ht ts u status contentType text hlabel hb

/-! ### Transparency -/

/-- An answer from upstream is that answer, just fetched. -/
theorem settle_ok {cache : Cache} {now : ℕ} {body : Json} {r : Reply} {res : Response}
    (h : (settle cache now body r).1 = res) (hr : res.status = 200) :
    ∃ status contentType, r = .response status contentType res.body := by
  subst h
  cases r with
  | failure detail => cases hr
  | response status contentType text => exact ⟨status, contentType, rfl⟩

theorem Step.clock_le {s s' : Server} {a : Action} (h : Step s a s') {now : ℕ} {p : Admitted}
    (ha : a = .readBody now p) : s.clock ≤ now := by
  cases h with
  | readBody hc hr =>
    cases ha
    exact hc
  | post hc req => cases ha
  | reply hc hw r => cases ha

section
variable {tr : List (Taken Server Action)} {s : Server} (h : Run Step Server.init tr s)
  (hup : UpstreamIds carriedId tr)
include h hup

/-- A fresh entry is served, so it must have been fetched with the id of the call. -/
theorem sameIds_of_transparent (htr : Transparent carriedId tr) : SameIds tr := by
  intro tr₁ t tr₂ heq now p body key ts source hlabel hbody hkey hstored hfresh
  have hrun : Run Step Server.init (tr₁ ++ t :: tr₂) s := heq ▸ h
  have hsourced := sourced_run hrun.before
  have hpos : 0 < cacheTtlMs := by decide
  cases hhit : t.pre.accountCache key with
  | none =>
    rw [hsourced.empty key hhit] at hstored
    cases hstored
  | some hit =>
    obtain ⟨source', hstored', -, hsb, -, hfetched⟩ := hsourced.entry key hit hhit
    obtain ⟨rfl, rfl⟩ := Prod.mk.inj (Option.some.inj (hstored.symm.trans hstored'))
    have hage : now - hit.ts < cacheTtlMs := by omega
    have hserve := readBody_of_hit hbody hkey hhit hage
    have hans : answered t = some (body, now,
        ⟨200, [("content-type", "application/json"), ("x-cache", "HIT")], hit.body⟩) := by
      simp [answered, hlabel, hbody, hserve]
    have hown := (htr tr₁ t tr₂ heq body now _ hans (cacheKey_single hkey).1 rfl).1
    have hid := hup.of_fetched (heq ▸ hfetched.append (t :: tr₂)) hsb
    exact hid.symm.trans hown

/-- What is served from an entry that was fetched with the caller's id. -/
theorem served_transparent (hsame : SameIds tr) {tr₁ tr₂ : List (Taken Server Action)}
    {t : Taken Server Action} (heq : tr = tr₁ ++ t :: tr₂) {now : ℕ} {p : Admitted} {body : Json}
    {r : Response} (hlabel : t.label = .readBody now p) (hbody : p.req.body = some body)
    (hr : (readBody t.pre now p).1 = some r) (hstatus : r.status = 200) :
    carriedId r.body = body.id ∧ ∃ ts source, Fetched (tr₁ ++ [t]) ts source r.body ∧
      SameCall source body ∧ ts ≤ now ∧ now < ts + cacheTtlMs := by
  have hrun : Run Step Server.init (tr₁ ++ t :: tr₂) s := heq ▸ h
  have hpos : 0 < cacheTtlMs := by decide
  obtain ⟨body', key, hit, hbody', hkey, hhit, hfresh, htext⟩ := readBody_hit hr hstatus
  obtain rfl := Option.some.inj (hbody.symm.trans hbody')
  obtain ⟨source, hstored, hskey, hsb, hts, hfetched⟩ :=
    (sourced_run hrun.before).entry key hit hhit
  have hclock := hrun.cut.1.clock_le hlabel
  have hid := hup.of_fetched (heq ▸ hfetched.append (t :: tr₂)) hsb
  refine ⟨?_, hit.ts, source, ?_, sameCall_of_key hskey hkey, hts.trans hclock, by omega⟩
  · rw [htext, hid]
    exact hsame tr₁ t tr₂ heq _ p _ key hit.ts source hlabel hbody hkey hstored (by omega)
  · exact htext ▸ hfetched.append _

end

/-- TRANSPARENT: when the upstream answers each call with its id, the proxy's 200 answers are upstream
    answers to the same call with the caller's id exactly when no caller is served from an entry that
    was fetched with another id. -/
theorem transparent_iff {tr : List (Taken Server Action)} {s : Server}
    (h : Run Step Server.init tr s) (hup : UpstreamIds carriedId tr) :
    Transparent carriedId tr ↔ SameIds tr := by
  refine ⟨sameIds_of_transparent carriedId h hup, ?_⟩
  intro hsame tr₁ t tr₂ heq body now r hans hsingle hstatus
  cases hlabel : t.label with
  | post now' req =>
    simp only [answered, hlabel, Option.bind_eq_bind, Option.bind_eq_some_iff, Option.pure_def,
      Option.some.injEq, Prod.mk.injEq] at hans
    obtain ⟨-, -, r', hr', rfl, rfl, rfl⟩ := hans
    cases (post_answer hr').symm.trans hstatus
  | readBody now' p =>
    simp only [answered, hlabel, Option.bind_eq_bind, Option.bind_eq_some_iff, Option.pure_def,
      Option.some.injEq, Prod.mk.injEq] at hans
    obtain ⟨body', hbody', r', hr', rfl, rfl, rfl⟩ := hans
    exact served_transparent carriedId h hup hsame heq hlabel hbody' hr' hstatus
  | reply now' u rep =>
    have hpos : 0 < cacheTtlMs := by decide
    simp only [answered, hlabel, Option.some.injEq, Prod.mk.injEq] at hans
    obtain ⟨rfl, rfl, hr⟩ := hans
    obtain ⟨status, contentType, rfl⟩ := settle_ok hr hstatus
    refine ⟨hup t (by simp [heq]) _ _ _ _ _ hlabel hsingle, now', u.body, ?_, ⟨rfl, rfl⟩,
      le_rfl, by omega⟩
    exact ⟨t, by simp, u, status, contentType, hlabel, rfl⟩

end

/-! Two callers of one account, ten milliseconds apart. -/

namespace Demo

def accountCall (id : String) : Json :=
  .object [("jsonrpc", .string "2.0"), ("id", .number id), ("method", .string "getAccountInfo"),
    ("params", .array [.string "ZKGM"])]

def accountPost (id : String) : Post := ⟨none, none, some (accountCall id)⟩

/-- The upstream's answer to call 1. -/
def accountText : String :=
  (Json.object [("jsonrpc", .string "2.0"), ("result", .null), ("id", .number "1")]).stringify

/-- The id in the only text there is. -/
def carriedId (text : String) : Option Json :=
  if text = accountText then some (.number "1") else none

def accountKey : String := "getAccountInfo" ++ ":" ++ (Json.array [.string "ZKGM"]).stringify

theorem accountCall_key (id : String) : cacheKey (accountCall id) = some accountKey := rfl

/-- The first call has passed the limiter. -/
def passed : Server :=
  { Server.init with
    ipBuckets := Function.update (fun _ => []) "unknown" [0]
    reading := [⟨accountPost "1", 0⟩] }

/-- It goes upstream. -/
def asked : Server :=
  { passed with
    reading := []
    sent := [⟨"unknown", 0, 0, accountCall "1"⟩]
    waiting := [⟨"unknown", 0, 0, accountCall "1"⟩] }

/-- Its answer is stored. -/
def filled : Server :=
  { asked with
    clock := 5
    accountCache := (settle asked.accountCache 5 (accountCall "1") (.response 200 none accountText)).2
    waiting := [] }

/-- The second call has passed the limiter. -/
def second (id : String) : Server :=
  { filled with
    clock := 10
    ipBuckets := Function.update (fun _ => []) "unknown" [0, 10]
    reading := [⟨accountPost id, 10⟩] }

theorem passed_eq : (post Server.init 0 (accountPost "1")).2 = passed := by
  simp [post, rateLimit, slide, fresh, show getClientIp (accountPost "1") = "unknown" from rfl,
    passed, Server.init]

theorem asked_eq : (readBody { passed with reading := [] ++ [] } 0 ⟨accountPost "1", 0⟩).2 = asked := by
  have hforward : handleBody (fun _ => none) 0 (accountPost "1").body =
      .forward (accountCall "1") := by
    simp [accountPost, handleBody, (cacheKey_single (accountCall_key "1")).2, cacheHit,
      accountCall_key]
  simp [readBody, passed, Server.init, hforward, asked, Admitted.ip,
    show getClientIp (accountPost "1") = "unknown" from rfl]

theorem second_eq (id : String) : (post filled 10 (accountPost id)).2 = second id := by
  have hslide : slide rateWindowMs rateMaxReqs [0] 10 = (true, [0, 10]) := by decide
  simp [post, rateLimit, show getClientIp (accountPost id) = "unknown" from rfl, filled, asked,
    passed, second, Server.init, hslide]

theorem filled_hit : filled.accountCache accountKey = some ⟨5, accountText⟩ := by
  simp [filled, settle, accountCall_key, show isBatch (accountCall "1") = false from rfl]

/-- The proxy after the second call. -/
def served (id : String) : Server :=
  (readBody { second id with reading := [] ++ [] } 10 ⟨accountPost id, 10⟩).2

/-- Call 1, its answer, and a second call with the given id. -/
def record (id : String) : List (Taken Server Action) :=
  [⟨Server.init, .post 0 (accountPost "1"), passed⟩,
   ⟨passed, .readBody 0 ⟨accountPost "1", 0⟩, asked⟩,
   ⟨asked, .reply 5 ⟨"unknown", 0, 0, accountCall "1"⟩ (.response 200 none accountText), filled⟩,
   ⟨filled, .post 10 (accountPost id), second id⟩,
   ⟨second id, .readBody 10 ⟨accountPost id, 10⟩, served id⟩]

theorem record_run (id : String) : Run Step Server.init (record id) (served id) := by
  have h₁ : Run Step Server.init _ passed :=
    Run.nil.snoc (passed_eq ▸ Step.post (Nat.le_refl 0) (accountPost "1"))
  have h₂ : Run Step Server.init _ asked := h₁.snoc
    (asked_eq ▸ @Step.readBody passed 0 ⟨accountPost "1", 0⟩ [] [] (Nat.le_refl 0) rfl)
  have h₃ : Run Step Server.init _ filled := h₂.snoc
    (@Step.reply asked 5 _ [] [] (Nat.zero_le 5) rfl (.response 200 none accountText))
  have h₄ : Run Step Server.init _ (second id) := h₃.snoc
    (second_eq id ▸ Step.post (by decide : filled.clock ≤ 10) (accountPost id))
  exact h₄.snoc (@Step.readBody (second id) 10 ⟨accountPost id, 10⟩ [] [] (Nat.le_refl 10) rfl)

theorem record_upstreamIds (id : String) : UpstreamIds carriedId (record id) := by
  intro t ht ts u status contentType text hlabel _
  simp only [record, List.mem_cons, List.not_mem_nil, or_false] at ht
  rcases ht with rfl | rfl | rfl | rfl | rfl <;> cases hlabel
  exact if_pos rfl

end Demo

/-- The second caller reads the first caller's id. -/
theorem stale_id_served : UpstreamIds Demo.carriedId (Demo.record "2") ∧
    Run Step Server.init (Demo.record "2") (Demo.served "2") ∧
    ¬ Transparent Demo.carriedId (Demo.record "2") := by
  refine ⟨Demo.record_upstreamIds "2", Demo.record_run "2", fun htr => ?_⟩
  have hserve := @readBody_of_hit (Demo.second "2") 10 ⟨Demo.accountPost "2", 10⟩ _ _ _ rfl
    (Demo.accountCall_key "2") Demo.filled_hit (by decide)
  have hown := (htr (Demo.record "2").dropLast _ [] rfl (Demo.accountCall "2") 10 _
    (by rw [answered]; simp only [hserve]; rfl) rfl rfl).1
  have hid : (Demo.accountCall "2").id = some (.number "2") := rfl
  rw [Demo.carriedId, if_pos rfl, hid, Option.some.injEq, Json.number.injEq] at hown
  exact absurd hown (by decide)

theorem transparent_demo : Transparent Demo.carriedId (Demo.record "1") := by
  refine (transparent_iff _ (Demo.record_run "1") (Demo.record_upstreamIds "1")).mpr ?_
  intro tr₁ t tr₂ heq now p body key ts source hlabel hbody _ hstored _
  have hbodies : ∀ t ∈ Demo.record "1", ∀ now p, t.label = .readBody now p →
      p.req.body = some (Demo.accountCall "1") := by
    intro t ht now p h
    simp only [Demo.record, List.mem_cons, List.not_mem_nil, or_false] at ht
    rcases ht with rfl | rfl | rfl | rfl | rfl <;> cases h <;> rfl
  have hreplies : ∀ t ∈ Demo.record "1", ∀ now u r, t.label = .reply now u r →
      u.body = Demo.accountCall "1" := by
    intro t ht now u r h
    simp only [Demo.record, List.mem_cons, List.not_mem_nil, or_false] at ht
    rcases ht with rfl | rfl | rfl | rfl | rfl <;> cases h
    rfl
  obtain ⟨t', ht', u, r, hreply, rfl⟩ := stored_mem hstored
  have hsource := hreplies t' (heq ▸ List.mem_append_left _ ht') _ _ _ hreply
  have hread := hbodies t (heq ▸ by simp) _ _ hlabel
  rw [hsource, Option.some.inj (hbody.symm.trans hread)]

end Equium.Proxy
