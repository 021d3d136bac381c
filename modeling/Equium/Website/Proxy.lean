import Mathlib.Logic.Function.Basic
import Equium.Schemes.Run
import Equium.Schemes.Window

/-! @src clients/website/src/app/api/rpc/route.ts | name:RPC proxy | scheme:run-invariant

    A POST passes the limiter of its address as soon as its headers are there. Its body is read later:
    only then come the checks of every call, the cache and the request to the upstream, and later still
    the upstream's answer. The three parts of a POST are steps of their own, and those of other POSTs
    come in between. -/

namespace Equium.Proxy
open Schemes

/-! ### JSON -/

/-- A parsed JSON value. A number is kept as the text `JSON.stringify` prints for it. -/
inductive Json where
  | null
  | bool (b : Bool)
  | number (text : String)
  | string (s : String)
  | array (items : List Json)
  | object (fields : List (String × Json))

/-- One character of a quoted string. -/
def escape (c : Char) : String :=
  match c.toNat with
  | 8 => "\\b"
  | 9 => "\\t"
  | 10 => "\\n"
  | 12 => "\\f"
  | 13 => "\\r"
  | 34 => "\\\""
  | 92 => "\\\\"
  | n => if n < 32 then "\\u00" ++ String.ofList [Nat.digitChar (n / 16), Nat.digitChar (n % 16)]
    else c.toString

def quote (s : String) : String := "\"" ++ String.join (s.toList.map escape) ++ "\""

mutual

/-- `JSON.stringify`. -/
def Json.stringify : Json → String
  | .null => "null"
  | .bool b => if b then "true" else "false"
  | .number text => text
  | .string s => quote s
  | .array items => "[" ++ ",".intercalate (stringifyItems items) ++ "]"
  | .object fields => "\x7b" ++ ",".intercalate (stringifyFields fields) ++ "\x7d"

def stringifyItems : List Json → List String
  | [] => []
  | item :: items => item.stringify :: stringifyItems items

def stringifyFields : List (String × Json) → List String
  | [] => []
  | (name, value) :: fields => (quote name ++ ":" ++ value.stringify) :: stringifyFields fields

end

/-- A property of an object; `none` for `undefined`. -/
def Json.get : Json → String → Option Json
  | .object fields, name => (fields.find? fun field => field.1 = name).map (·.2)
  | _, _ => none

/-- `r.method`, where it is a string. -/
def Json.method (r : Json) : Option String :=
  match r.get "method" with
  | some (.string method) => some method
  | _ => none

/-! ### Limits -/

def allowedMethods : List String :=
  ["getAccountInfo", "getBalance", "getBlockHeight", "getLatestBlockhash",
    "getMinimumBalanceForRentExemption", "getMultipleAccounts", "getProgramAccounts",
    "getRecentBlockhash", "getRecentPrioritizationFees", "getSignaturesForAddress",
    "getSignatureStatuses", "getSlot", "getTokenAccountBalance", "getTokenAccountsByOwner",
    "getTransaction", "getVersion", "isBlockhashValid", "sendTransaction", "simulateTransaction"]

abbrev rateWindowMs : ℕ := 60000

abbrev rateMaxReqs : ℕ := 1200

abbrev Buckets := String → List ℕ

/-- `rateLimit`: whether the request passes, and `ipBuckets` afterwards. -/
def rateLimit (ipBuckets : Buckets) (ip : String) (now : ℕ) : Bool × Buckets :=
  let r := slide rateWindowMs rateMaxReqs (ipBuckets ip) now
  (r.1, Function.update ipBuckets ip r.2)

/-! ### Cache -/

abbrev cacheTtlMs : ℕ := 2000

structure CacheEntry where
  ts : ℕ
  body : String

abbrev Cache := String → Option CacheEntry

def cacheableMethods : List String := ["getAccountInfo", "getMultipleAccounts"]

/-- `req.params ?? []`. -/
def params (req : Json) : Json :=
  match req.get "params" with
  | none => .array []
  | some .null => .array []
  | some params => params

def cacheKey (req : Json) : Option String :=
  match req.method with
  | some method =>
    if method ∈ cacheableMethods then some (method ++ ":" ++ (params req).stringify) else none
  | none => none

/-! ### The handler -/

/-- What the handler reads of a request; no body stands for one that is not JSON. -/
structure Post where
  xForwardedFor : Option String
  xRealIp : Option String
  body : Option Json

/-- The characters `trim` removes. -/
def isSpace (c : Char) : Bool :=
  c.toNat ∈ [9, 10, 11, 12, 13, 32, 160, 5760, 8232, 8233, 8239, 8287, 12288, 65279] ∨
    8192 ≤ c.toNat ∧ c.toNat ≤ 8202

def trim (s : List Char) : List Char :=
  ((s.dropWhile isSpace).reverse.dropWhile isSpace).reverse

/-- A string that counts as true. -/
def nonempty (s : Option String) : Option String := s.filter (· ≠ "")

def getClientIp (req : Post) : String :=
  match nonempty req.xForwardedFor with
  | some xff => String.ofList (trim (xff.toList.takeWhile (· ≠ ',')))
  | none => (nonempty req.xRealIp).getD "unknown"

structure Response where
  status : ℕ
  headers : List (String × String)
  body : String
  deriving DecidableEq

/-- `NextResponse.json`. -/
def jsonResponse (status : ℕ) (fields : List (String × Json)) : Response :=
  ⟨status, [("content-type", "application/json")], (Json.object fields).stringify⟩

/-- The calls of a body: a batch, or a single request. -/
def requests : Json → List Json
  | .array items => items
  | body => [body]

def isBatch : Json → Bool
  | .array _ => true
  | _ => false

/-- The checks of one call. -/
def checkRequest (r : Json) : Option Response :=
  match r.method with
  | none => some (jsonResponse 400 [("error", .string "invalid JSON-RPC envelope")])
  | some method =>
    if method ∈ allowedMethods then none
    else some (jsonResponse 403 [("error", .string ("method \"" ++ method ++ "\" is not allowed")),
      ("allowed", .array (allowedMethods.map .string))])

/-- The shortcut for a single request. -/
def cacheHit (accountCache : Cache) (now : ℕ) (body : Json) : Option String :=
  if isBatch body then none
  else match cacheKey body with
    | none => none
    | some key => match accountCache key with
      | some hit => if now - hit.ts < cacheTtlMs then some hit.body else none
      | none => none

/-- How a POST leaves the handler's first part. -/
inductive Outcome where
  | answer (r : Response)
  | forward (body : Json)

/-- The handler from the parsed body on, up to its `fetch`. -/
def handleBody (accountCache : Cache) (now : ℕ) : Option Json → Outcome
  | none => .answer (jsonResponse 400 [("error", .string "invalid JSON body")])
  | some body =>
    match (requests body).findSome? checkRequest with
    | some r => .answer r
    | none => match cacheHit accountCache now body with
      | some text => .answer ⟨200, [("content-type", "application/json"), ("x-cache", "HIT")], text⟩
      | none => .forward body

/-- A POST that has passed the limiter, and when. Its body is still to be read. -/
structure Admitted where
  req : Post
  time : ℕ

def Admitted.ip (p : Admitted) : String := getClientIp p.req

/-- A body sent upstream, and when; the address of its POST, and when that passed the limiter. -/
structure Upstream where
  ip : String
  admitted : ℕ
  time : ℕ
  body : Json

/-- The proxy, and what it has sent upstream. -/
structure Server where
  clock : ℕ
  ipBuckets : Buckets
  accountCache : Cache
  /-- in `await req.json()` -/
  reading : List Admitted
  sent : List Upstream
  /-- sent, and not answered yet -/
  waiting : List Upstream

def Server.init : Server := ⟨0, fun _ => [], fun _ => none, [], [], []⟩

/-- `POST` up to `await req.json()`, and its response if the limiter refuses it. -/
def post (s : Server) (now : ℕ) (req : Post) : Option Response × Server :=
  let ip := getClientIp req
  let limited := rateLimit s.ipBuckets ip now
  let s := { s with clock := now, ipBuckets := limited.2 }
  if limited.1 = false then
    (some (jsonResponse 429
      [("error", .string "rate limit exceeded"), ("retry_after_sec", .number "60")]), s)
  else (none, { s with reading := s.reading ++ [⟨req, now⟩] })

/-- `POST` from `await req.json()` up to its `fetch`, and its response if it has one by then. -/
def readBody (s : Server) (now : ℕ) (p : Admitted) : Option Response × Server :=
  let s := { s with clock := now }
  match handleBody s.accountCache now p.req.body with
  | .answer r => (some r, s)
  | .forward body =>
    let u : Upstream := ⟨p.ip, p.time, now, body⟩
    (none, { s with sent := s.sent ++ [u], waiting := s.waiting ++ [u] })

/-- What comes back from upstream. -/
inductive Reply where
  | response (status : ℕ) (contentType : Option String) (text : String)
  | failure (detail : String)

/-- `POST` from the upstream's answer on: its response, and the cache. -/
def settle (accountCache : Cache) (now : ℕ) (body : Json) : Reply → Response × Cache
  | .response status contentType text =>
    let ok := 200 ≤ status ∧ status ≤ 299
    let stored := match cacheKey body with
      | some key =>
        if isBatch body = false ∧ ok then Function.update accountCache key (some ⟨now, text⟩)
        else accountCache
      | none => accountCache
    (⟨status, [("content-type", (nonempty contentType).getD "application/json"),
      ("cache-control", "no-store")], text⟩, stored)
  | .failure detail =>
    (jsonResponse 502 [("error", .string "upstream failure"), ("detail", .string detail)], accountCache)

inductive Action where
  | post (now : ℕ) (req : Post)
  | readBody (now : ℕ) (p : Admitted)
  | reply (now : ℕ) (u : Upstream) (r : Reply)

/-- POSTs, their bodies and the answers from upstream, at times that do not decrease. -/
inductive Step : Server → Action → Server → Prop
  | post {s : Server} {now : ℕ} (hc : s.clock ≤ now) (req : Post) :
      Step s (.post now req) (post s now req).2
  | readBody {s : Server} {now : ℕ} {p : Admitted} {before after : List Admitted}
      (hc : s.clock ≤ now) (hr : s.reading = before ++ p :: after) :
      Step s (.readBody now p) (readBody { s with reading := before ++ after } now p).2
  | reply {s : Server} {now : ℕ} {u : Upstream} {before after : List Upstream} (hc : s.clock ≤ now)
      (hw : s.waiting = before ++ u :: after) (r : Reply) :
      Step s (.reply now u r) { s with
        clock := now
        accountCache := (settle s.accountCache now u.body r).2
        waiting := before ++ after }

end Equium.Proxy
