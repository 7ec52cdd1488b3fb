import Mathlib.Algebra.Order.Ring.Rat
import Mathlib.Data.List.Infix
import RoomBackend.Answering
import RoomBackend.Protocol
import RoomBackend.Utf16

/-! # HTTP (`http/routes.ts`)

`handleHttp` as a program over what has been written of the response. What it awaits of the store,
the backplane and the metrics is given by its outcome, `none` where the promise rejects; the URL
constructor and `JSON.parse` are functions that may fail. A second head throws, and so does a header
with a character that no header may have. -/

namespace RoomBackend.Http

open Answering Day Utf16

def MAX_BODY : ℕ := 4096

/-! ### Values -/

/-- A number of the language. -/
inductive Number where
  | nan
  | infinite (negative : Bool)
  | finite (q : ℚ)

/-- What `JSON.parse` returns. -/
inductive Json where
  | null
  | bool (b : Bool)
  | number (n : Number)
  | string (s : String)
  | array (xs : List Json)
  | object (fields : List (String × Json))

/-- The body of a response; `none` is `undefined`. -/
inductive Payload where
  | none
  | ok (b : Bool)
  | error (code : String)
  | invalid (details : List String)
  | stats (online day dayEndsAt serverTime : ℤ)
  | events (events : List AbuseEvent)
  | instance_ (instanceId : InstanceId) (room : DailyRoom) (online : ℤ) (connectionsHere : ℕ)
  | blocked (session : String) (minutes : ℤ)
  | metrics (text : String)
deriving DecidableEq

/-- What is written of a response. -/
inductive Write where
  | head (status : ℕ) (headers : List (String × String))
  | body (payload : Payload)
deriving DecidableEq

def Write.isHead : Write → Bool
  | .head _ _ => true
  | .body _ => false

/-- What is thrown: an `HttpError`, or anything else. -/
inductive Fault where
  | http (status : ℕ) (code : String)
  | other
deriving DecidableEq

/-- A program over the response. -/
abbrev Act (α : Type) := Prog Fault (List Write) α

/-- `await` of a promise that is fulfilled or rejects. -/
def settled {α : Type} (x : Option α) : Act α := await (x.elim (.error .other) .ok)

/-- A request: its head, the chunks of its body, and whether the body breaks off after them. -/
structure Request where
  method : Option String
  url : Option String
  authorization : Option String
  contentType : Option String
  origin : Option String
  chunks : List (List UInt8)
  aborted : Bool

/-- What the handler uses of a URL. -/
structure Url where
  pathname : String
  limit : Option String

/-- `blockSchema`, read. -/
structure BlockBody where
  publicName : Option String
  messageId : Option String
  minutes : ℤ
  reason : String
deriving DecidableEq

/-- The server around the handler: its fields, the functions of the language and of `zod`, and what
comes of the operations. The room may change during an await, so it is given for each of the places
at which it is read. -/
structure Site where
  adminToken : String
  metricsToken : String
  shuttingDown : Bool
  online : ℤ
  now : ℤ
  room : ℕ → DailyRoom
  instanceId : InstanceId
  connectionCount : ℕ
  historyLimit : ℕ
  contentType : String
  isOriginAllowed : String → Bool
  logTag : Sid → String
  idText : MsgId → String
  newUrl : String → Option Url
  toNumber : String → Number
  parse : List UInt8 → Option Json
  issues : Json → List String
  ping : Option Bool
  metrics : Option String
  listAbuseEvents : ℚ → Option (List AbuseEvent)
  nameOwner : String → String → Option (Option Sid)
  recentMessages : String → ℕ → Option (List StoredMessage)
  setBlock : Sid → ℤ → String → Option Unit
  publish : BusEvent → Option Unit
  addAbuseEvent : AbuseEvent → ℤ → Option Unit
  deleteBlock : Sid → Option Unit

/-! ### The response -/

/-- The characters a header may have. -/
def isHeaderChar (c : Char) : Bool :=
  c = '\t' || (0x20 ≤ c.toNat && c.toNat ≤ 0x7e) || (0x80 ≤ c.toNat && c.toNat ≤ 0xff)

def validHeaders (headers : List (String × String)) : Bool :=
  headers.all fun h => h.2.toList.all isHeaderChar

/-- `res.writeHead`. -/
def writeHead (status : ℕ) (headers : List (String × String)) : Act Unit := do
  let res ← get
  if res.any Write.isHead || !validHeaders headers then throw .other
  else set (res ++ [.head status headers])

/-- `res.end`. -/
def writeEnd (payload : Payload) : Act Unit := modify (· ++ [.body payload])

/-- The headers of every JSON response. -/
def HEADERS : List (String × String) :=
  [("content-type", "application/json; charset=utf-8"), ("cache-control", "no-store"),
    ("x-content-type-options", "nosniff"), ("referrer-policy", "no-referrer"),
    ("content-security-policy", "default-src 'none'; frame-ancestors 'none'")]

/-- `{ ...base, ...headers }`. -/
def spread (base headers : List (String × String)) : List (String × String) :=
  headers.foldl (fun hs h =>
    if hs.any (·.1 = h.1) then hs.map fun x => if x.1 = h.1 then h else x else hs ++ [h]) base

/-- `send`. -/
def send (status : ℕ) (payload : Payload) (headers : List (String × String)) : Act Unit := do
  writeHead status (spread HEADERS headers)
  writeEnd payload

/-- `send` of an error. -/
def fail (status : ℕ) (code : String) : Act Unit := send status (.error code) []

/-! ### The request -/

def bearer (req : Request) : String :=
  let h := (req.authorization.getD "").toList
  if "Bearer ".toList.isPrefixOf h then String.ofList (h.drop 7) else ""

def safeEqual (a b : String) : Bool := a = b

/-- The loop of `readJson` over the chunks: `size` bytes have been read, which are `bytes`. -/
def readChunks (aborted : Bool) (size : ℕ) (bytes : List UInt8) :
    List (List UInt8) → Act (List UInt8)
  | [] => if aborted then throw .other else pure bytes
  | chunk :: chunks =>
      if size + chunk.length > MAX_BODY then throw (.http 413 "too_large")
      else readChunks aborted (size + chunk.length) (bytes ++ chunk) chunks

def readJson (site : Site) (req : Request) : Act Json :=
  if ¬ "application/json".toList <:+: (req.contentType.getD "").toList then
    throw (.http 415 "json_required")
  else do
    let bytes ← readChunks req.aborted 0 [] req.chunks
    match site.parse bytes with
    | some j => pure j
    | none => throw (.http 400 "bad_json")

/-! ### The schemas -/

/-- `PUBLIC_NAME_RE`. -/
def isPublicName (s : String) : Bool :=
  let word := fun (cs : List Char) =>
    match cs with
    | c :: cs => if c.isUpper && cs.head?.any Char.isLower then some (cs.dropWhile Char.isLower)
        else none
    | [] => none
  match (word s.toList).bind word with
  | some ('_' :: digits) => digits.length = 4 && digits.all Char.isDigit
  | _ => false

/-- The length of a text of the language. -/
def units (s : String) : ℕ := (encodeText s.toList).length

/-- An optional string that passes a check. -/
def optional (check : String → Bool) : Option Json → Option (Option String)
  | none => some none
  | some (.string s) => if check s then some (some s) else none
  | some _ => none

/-- `minutes`. -/
def readMinutes : Option Json → Option ℤ
  | none => some 60
  | some (.number (.finite q)) =>
      if q.den = 1 ∧ 1 ≤ q.num ∧ q.num ≤ 7 * 24 * 60 then some q.num else none
  | some _ => none

/-- The fields of a strict object that has no others. -/
def strict (keys : List String) : Json → Option (String → Option Json)
  | .object fields =>
      if fields.all fun f => f.1 ∈ keys then
        some fun key => (fields.find? fun f => f.1 = key).map Prod.snd
      else none
  | _ => none

/-- A string that is not empty. -/
def truthy (s : Option String) : Option String := s.filter (· ≠ "")

/-- `blockSchema`: what is read of the fields, then the refinement. -/
def blockSchema (site : Site) (j : Json) : Except (List String) BlockBody :=
  let read := do
    let field ← strict ["publicName", "messageId", "minutes", "reason"] j
    let publicName ← optional isPublicName (field "publicName")
    let messageId ← optional (fun s => units s ≤ 64) (field "messageId")
    let minutes ← readMinutes (field "minutes")
    let reason ← optional (fun s => units s ≤ 200) (field "reason")
    return { publicName := publicName, messageId := messageId, minutes := minutes
             reason := reason.getD "admin" : BlockBody }
  match read with
  | none => .error (site.issues j)
  | some b =>
      if (truthy b.publicName).isSome || (truthy b.messageId).isSome then .ok b
      else .error ["publicName or messageId required"]

def unblockSchema (j : Json) : Option String := do
  let field ← strict ["publicName"] j
  let publicName ← optional isPublicName (field "publicName")
  publicName

/-! ### The routes -/

/-- `Math.min(500, Math.max(1, Number(limit) || 50))`. -/
def clampLimit (site : Site) (limit : Option String) : ℚ :=
  match limit.elim (.finite 0) site.toNumber with
  | .nan => 50
  | .infinite negative => if negative then 1 else 500
  | .finite q => min 500 (max 1 (if q = 0 then 50 else q))

/-- `/admin/block`: the session with the name, else the author of the message. -/
def target (site : Site) (b : BlockBody) : Act (Option Sid) := do
  let owner ← match truthy b.publicName with
    | some name => settled (site.nameOwner (site.room 1).roomId name)
    | none => pure none
  match owner, truthy b.messageId with
  | none, some id => do
      let recent ← settled (site.recentMessages (site.room 2).roomId site.historyLimit)
      return (recent.find? fun m => site.idText m.id = id).map StoredMessage.sid
  | _, _ => pure owner

/-- `/admin/block` on a session. -/
def block (site : Site) (b : BlockBody) (sid : Sid) : Act Unit := do
  settled (site.setBlock sid (b.minutes * 60000) ("admin:" ++ b.reason))
  settled (site.publish (.kick site.instanceId sid b.reason))
  settled (site.addAbuseEvent (.adminBlock (site.logTag sid) b.minutes b.reason) (30 * 86400000))
  send 200 (.blocked (site.logTag sid) b.minutes) []

def admin (site : Site) (req : Request) (path method : String) (url : Url) : Act Unit :=
  if path = "/admin/reports" ∧ method = "GET" then do
    let events ← settled (site.listAbuseEvents (clampLimit site url.limit))
    send 200 (.events events) []
  else if path = "/admin/stats" ∧ method = "GET" then
    send 200 (.instance_ site.instanceId (site.room 0) site.online site.connectionCount) []
  else if path = "/admin/block" ∧ method = "POST" then do
    let j ← readJson site req
    match blockSchema site j with
    | .error details => send 400 (.invalid details) []
    | .ok b => do
        match ← target site b with
        | none => fail 404 "session_not_found"
        | some sid => block site b sid
  else if path = "/admin/unblock" ∧ method = "POST" then do
    let j ← readJson site req
    match unblockSchema j with
    | none => fail 400 "invalid"
    | some name => do
        match ← settled (site.nameOwner (site.room 1).roomId name) with
        | none => fail 404 "session_not_found"
        | some sid => do
            settled (site.deleteBlock sid)
            send 200 (.ok true) []
  else fail 404 "not_found"

/-- `/stats`. -/
def stats (site : Site) (req : Request) (method : String) : Act Unit :=
  let cors := match truthy req.origin with
    | some origin =>
        if site.isOriginAllowed origin then
          [("vary", "Origin"), ("access-control-allow-origin", origin)]
        else [("vary", "Origin")]
    | none => [("vary", "Origin")]
  if method = "OPTIONS" then send 204 .none (spread cors [("access-control-allow-methods", "GET")])
  else if method ≠ "GET" then fail 405 "method_not_allowed"
  else
    send 200 (.stats site.online (site.room 0).day (site.room 0).endsAt site.now)
      (spread cors [("cache-control", "public, max-age=5")])

/-- What `handleHttp` tries. -/
def route (site : Site) (req : Request) (path method : String) (url : Url) : Act Unit :=
  if path = "/healthz" ∧ method = "GET" then send 200 (.ok true) []
  else if path = "/readyz" ∧ method = "GET" then do
    let ok ← if site.shuttingDown then pure false else settled site.ping
    send (if ok then 200 else 503) (.ok ok) []
  else if path = "/stats" then stats site req method
  else if path = "/metrics" ∧ method = "GET" then
    if site.metricsToken ≠ "" ∧ safeEqual (bearer req) site.metricsToken = false then
      fail 401 "unauthorized"
    else do
      let text ← settled site.metrics
      writeHead 200 [("content-type", site.contentType), ("cache-control", "no-store")]
      writeEnd (.metrics text)
  else if "/admin/".toList.isPrefixOf path.toList then
    if site.adminToken = "" then fail 404 "not_found"
    else if safeEqual (bearer req) site.adminToken = false then fail 401 "unauthorized"
    else admin site req path method url
  else fail 404 "not_found"

/-- `handleHttp`. The URL is made before the `try`. -/
def handleHttp (site : Site) (req : Request) : Act Unit :=
  match site.newUrl (req.url.getD "/") with
  | none => throw .other
  | some url =>
      tryCatch (route site req url.pathname (req.method.getD "GET") url) fun err =>
        match err with
        | .http status code => fail status code
        | .other => fail 500 "internal"

/-! ### One response -/

/-- A complete response: one head, then one body. -/
def Complete (res : List Write) : Prop :=
  ∃ status headers payload, res = [.head status headers, .body payload]

/-- The handler has returned, and its response is complete. -/
def Answered (r : Except Fault Unit × List Write) : Prop := r.1 = .ok () ∧ Complete r.2

theorem keeps_settled {α : Type} (x : Option α) : Keeps (settled x) := .await _

/-- The first head is written if its headers are valid; else nothing is. -/
theorem outcome_writeHead (status : ℕ) (headers : List (String × String)) :
    (writeHead status headers).outcome [] =
      if validHeaders headers then (.ok (), [.head status headers]) else (.error .other, []) := by
  have hget : (get : Act (List Write)).outcome [] = (.ok [], []) := rfl
  unfold writeHead
  rw [outcome_bind, hget]
  cases validHeaders headers <;> rfl

theorem returns_response {status : ℕ} {headers : List (String × String)} (payload : Payload)
    (h : validHeaders headers = true) :
    Returns [] Complete (do writeHead status headers; writeEnd payload) := by
  refine ⟨(), [.head status headers, .body payload], ?_, _, _, _, rfl⟩
  rw [outcome_bind, outcome_writeHead, if_pos h]
  rfl

theorem answers_response (status : ℕ) (headers : List (String × String)) (payload : Payload) :
    Answers [] Complete (do writeHead status headers; writeEnd payload) := by
  cases h : validHeaders headers with
  | true => exact (returns_response payload h).answers
  | false =>
      refine Or.inr ⟨.other, ?_⟩
      rw [outcome_bind, outcome_writeHead, if_neg (ne_true_of_eq_false h)]

theorem answers_send (status : ℕ) (payload : Payload) (headers : List (String × String)) :
    Answers [] Complete (send status payload headers) := answers_response _ _ _

theorem returns_fail (status : ℕ) (code : String) : Returns [] Complete (fail status code) :=
  returns_response _ (by decide)

/-! ### What comes before the response -/

theorem keeps_readChunks (aborted : Bool) (chunks : List (List UInt8)) (size : ℕ)
    (bytes : List UInt8) : Keeps (readChunks aborted size bytes chunks) := by
  induction chunks generalizing size bytes with
  | nil =>
      unfold readChunks
      split
      · exact .throw _
      · exact .pure _
  | cons chunk chunks ih =>
      unfold readChunks
      split
      · exact .throw _
      · exact ih _ _

theorem keeps_readJson (site : Site) (req : Request) : Keeps (readJson site req) := by
  unfold readJson
  split
  · exact .throw _
  · refine .bind (keeps_readChunks _ _ _ _) fun bytes => ?_
    split
    · exact .pure _
    · exact .throw _

theorem keeps_target (site : Site) (b : BlockBody) : Keeps (target site b) := by
  have hrest : ∀ owner : Option Sid, Keeps (match owner, truthy b.messageId with
      | none, some id => do
          let recent ← settled (site.recentMessages (site.room 2).roomId site.historyLimit)
          return (recent.find? fun m => site.idText m.id = id).map StoredMessage.sid
      | _, _ => (pure owner : Act (Option Sid))) := by
    intro owner
    split
    · exact .bind (keeps_settled _) fun _ => .pure _
    · exact .pure _
  unfold target
  split
  · exact .bind (keeps_settled _) hrest
  · exact .bind (.pure _) hrest

/-! ### The routes answer -/

theorem answers_fail (status : ℕ) (code : String) : Answers [] Complete (fail status code) :=
  (returns_fail status code).answers

theorem answers_block (site : Site) (b : BlockBody) (sid : Sid) :
    Answers [] Complete (block site b sid) := by
  refine .bind (keeps_settled _) fun _ => .bind (keeps_settled _) fun _ => ?_
  exact .bind (keeps_settled _) fun _ => answers_send _ _ _

theorem answers_admin (site : Site) (req : Request) (path method : String) (url : Url) :
    Answers [] Complete (admin site req path method url) := by
  unfold admin
  split_ifs
  · exact .bind (keeps_settled _) fun _ => answers_send _ _ _
  · exact answers_send _ _ _
  · refine .bind (keeps_readJson site req) fun j => ?_
    split
    · exact answers_send _ _ _
    · refine .bind (keeps_target _ _) fun sid => ?_
      split
      · exact answers_fail _ _
      · exact answers_block _ _ _
  · refine .bind (keeps_readJson site req) fun j => ?_
    split
    · exact answers_fail _ _
    · refine .bind (keeps_settled _) fun sid => ?_
      split
      · exact answers_fail _ _
      · exact .bind (keeps_settled _) fun _ => answers_send _ _ _
  · exact answers_fail _ _

theorem answers_stats (site : Site) (req : Request) (method : String) :
    Answers [] Complete (stats site req method) := by
  unfold stats
  dsimp only
  split_ifs
  all_goals exact answers_send _ _ _

theorem answers_route (site : Site) (req : Request) (path method : String) (url : Url) :
    Answers [] Complete (route site req path method url) := by
  unfold route
  split_ifs
  · exact answers_send _ _ _
  · exact .bind (.pure _) fun _ => answers_send _ _ _
  · exact .bind (keeps_settled _) fun _ => answers_send _ _ _
  · exact answers_stats _ _ _
  · exact answers_fail _ _
  · exact .bind (keeps_settled _) fun _ => answers_response _ _ _
  · exact answers_fail _ _
  · exact answers_fail _ _
  · exact answers_admin _ _ _ _ _
  · exact answers_fail _ _

/-- What is thrown on a route is answered. -/
theorem returns_handled (site : Site) (req : Request) (path method : String) (url : Url) :
    Returns [] Complete (tryCatch (route site req path method url) fun err =>
      match err with
      | .http status code => fail status code
      | .other => fail 500 "internal") := by
  refine (answers_route site req path method url).tryCatch fun err => ?_
  cases err with
  | http status code => exact returns_fail status code
  | other => exact returns_fail 500 "internal"

/-- **Every request is answered**, whatever its method, headers and body are and whatever fails,
exactly if the URL constructor takes its target. -/
theorem handleHttp_answers_iff (site : Site) (req : Request) :
    Answered ((handleHttp site req).outcome []) ↔
      (site.newUrl (req.url.getD "/")).isSome = true := by
  unfold handleHttp
  cases site.newUrl (req.url.getD "/") with
  | none =>
      refine iff_of_false (fun h => ?_) Bool.false_ne_true
      cases h.1
  | some url =>
      refine iff_of_true ?_ rfl
      obtain ⟨⟨⟩, res, hout, hres⟩ :=
        returns_handled site req url.pathname (req.method.getD "GET") url
      unfold Answered
      dsimp only
      rw [hout]
      exact ⟨rfl, hres⟩

/-! ### Chunks -/

/-- The loop over the chunks reads the body as a whole. -/
theorem readChunks_eq {aborted : Bool} {size : ℕ} {bytes : List UInt8} (h : size ≤ MAX_BODY)
    (chunks : List (List UInt8)) : readChunks aborted size bytes chunks =
      if size + chunks.flatten.length > MAX_BODY then throw (.http 413 "too_large")
      else if aborted then throw .other else pure (bytes ++ chunks.flatten) := by
  induction chunks generalizing size bytes with
  | nil =>
      unfold readChunks
      rw [List.flatten_nil, List.append_nil, List.length_nil, Nat.add_zero, if_neg (not_lt.mpr h)]
  | cons chunk chunks ih =>
      unfold readChunks
      rw [List.flatten_cons, List.length_append, ← Nat.add_assoc, ← List.append_assoc]
      by_cases hbig : size + chunk.length > MAX_BODY
      · rw [if_pos hbig, if_pos (lt_of_lt_of_le hbig (Nat.le_add_right _ _))]
      · rw [if_neg hbig, ih (not_lt.mp hbig)]

theorem readJson_rechunk (site : Site) (req : Request) :
    readJson site req = readJson site { req with chunks := [req.chunks.flatten] } := by
  have hflat : [req.chunks.flatten].flatten = req.chunks.flatten := List.append_nil _
  unfold readJson
  dsimp only
  rw [readChunks_eq (Nat.zero_le _), readChunks_eq (Nat.zero_le _), hflat]

theorem admin_rechunk (site : Site) (req : Request) (path method : String) (url : Url) :
    admin site req path method url =
      admin site { req with chunks := [req.chunks.flatten] } path method url := by
  unfold admin
  rw [← readJson_rechunk]

/-- How the body is cut into chunks does not matter. -/
theorem handleHttp_rechunk (site : Site) (req : Request) :
    handleHttp site req = handleHttp site { req with chunks := [req.chunks.flatten] } := by
  unfold handleHttp route
  simp only [← admin_rechunk]
  rfl

/-! ### A target that is no URL -/

namespace Demo

/-- The URL constructor on targets of slashes and plain characters: two slashes begin a host, which
may not be empty. -/
def newUrl (target : String) : Option Url :=
  let ends := fun c => c = '/' || c = '?' || c = '#'
  let path := fun (cs : List Char) =>
    let p := cs.takeWhile fun c => c ≠ '?' && c ≠ '#'
    some { pathname := if p = [] then "/" else String.ofList p, limit := none : Url }
  match target.toList with
  | '/' :: '/' :: rest =>
      let rest := rest.dropWhile (· = '/')
      if rest.takeWhile (fun c => !ends c) = [] then none
      else path (rest.dropWhile fun c => !ends c)
  | cs => path cs

/-- A server whose store answers everything. -/
def site : Site :=
  { adminToken := "", metricsToken := "", shuttingDown := false, online := 1, now := 0
    room := fun _ => ⟨"2026-09-11", 185, 0, 0⟩
    instanceId := 0, connectionCount := 1, historyLimit := 50, contentType := "text/plain"
    isOriginAllowed := fun _ => true
    logTag := toString
    idText := toString
    newUrl := newUrl
    toNumber := fun _ => .nan
    parse := fun _ => none
    issues := fun _ => []
    ping := some true
    metrics := some ""
    listAbuseEvents := fun _ => some []
    nameOwner := fun _ _ => some none
    recentMessages := fun _ _ => some []
    setBlock := fun _ _ _ => some ()
    publish := fun _ => some ()
    addAbuseEvent := fun _ _ => some ()
    deleteBlock := fun _ => some () }

def get (url : String) : Request :=
  { method := some "GET", url := some url, authorization := none, contentType := none
    origin := none, chunks := [], aborted := false }

end Demo

/-- The target of `GET // HTTP/1.1` has an empty host. The promise rejects, and nothing is sent. -/
theorem unanswered_slashes :
    (handleHttp Demo.site (Demo.get "//")).outcome [] = (.error .other, []) ∧
    ¬ Answered ((handleHttp Demo.site (Demo.get "//")).outcome []) := by
  have hout : (handleHttp Demo.site (Demo.get "//")).outcome [] = (.error .other, []) := rfl
  refine ⟨hout, fun h => ?_⟩
  cases h.1

end RoomBackend.Http
