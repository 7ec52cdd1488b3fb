import Mathlib.Data.Rat.Defs
import RoomBackend.Day

/-! # Wire protocol and stored data (`protocol.ts`, `store/types.ts`)

Random identifiers (session ids, resume tokens, message ids) are opaque numbers. A client
frame is what `JSON.parse` and `clientEventSchema` make of it (`Raw`): binary, not JSON, not
an event, or an event whose fields meet the schema. -/

namespace RoomBackend

/-! ### Identifiers -/

/-- Internal session id. -/
abbrev Sid := ℕ
/-- Resume token. -/
abbrev Token := ℕ
/-- Public message id. -/
abbrev MsgId := ℕ
/-- Server instance. -/
abbrev InstanceId := ℕ

/-- `Connection.key`: the instance and the number of the connection on it. -/
structure ConnKey where
  inst : InstanceId
  seq : ℕ
deriving DecidableEq, Repr

/-- `hashToken(token)`; distinct tokens have distinct hashes. -/
structure TokenHash where
  token : Token
deriving DecidableEq, Repr

def hashToken (t : Token) : TokenHash := ⟨t⟩

/-! ### Events -/

/-- `Identity`. -/
structure Identity where
  name : String
  country : Option String
deriving DecidableEq, Repr

/-- `ChatMessage`. -/
structure ChatMessage where
  id : MsgId
  author : String
  text : String
  ts : ℤ
  country : Option String
deriving DecidableEq, Repr

/-- `StoredMessage`. -/
structure StoredMessage extends ChatMessage where
  sid : Sid
deriving DecidableEq, Repr

/-- `toPublic`. -/
def toPublic (m : StoredMessage) : ChatMessage := m.toChatMessage

/-- `RejectReason`. -/
inductive RejectReason where
  | rateLimited
  | challengeRequired
  | tooLong
  | invalid
  | staleRoom
  | blocked
deriving DecidableEq, Repr

/-- `ChallengeVerifier.provider`, when there is one. -/
inductive Provider where
  | turnstile
  | mock
deriving DecidableEq, Repr

/-- `ServerEvent`. -/
inductive ServerEvent where
  | welcome (identity : Identity) (day dayEndsAt serverTime online : ℤ)
      (history : List ChatMessage) (resume : Token) (maxLength : ℕ)
  | message (message : ChatMessage)
  | messages (messages : List ChatMessage)
  | ack (clientId : String) (message : ChatMessage)
  | reject (clientId : String) (reason : RejectReason) (retryAfterMs : Option ℤ)
  | presence (online : ℤ)
  | reset (day dayEndsAt : ℤ) (identity : Identity) (resume : Token)
  | challenge (provider : Provider) (siteKey : Option String)
  | challengeResult (ok : Bool)
  | reported (messageId : MsgId)
  | error (code message : String)
  | pong (t : ℤ)
deriving DecidableEq, Repr

/-- A `send` event. -/
structure SendEvent where
  clientId : String
  text : String
  day : Option ℤ
deriving DecidableEq, Repr

/-- `ClientEvent`. -/
inductive ClientEvent where
  | join (resume : Option Token) (verification : Option String)
  | send (e : SendEvent)
  | challengeResponse (token : String)
  | ping (t : ℤ)
  | report (messageId : MsgId) (reason : String)
deriving DecidableEq, Repr

/-- An inbound frame, as far as it parses. -/
inductive Raw where
  | binary
  | notJson
  | notEvent
  | event (e : ClientEvent)
deriving DecidableEq, Repr

/-! `Close`: the close codes. -/

namespace Close

def policy : ℕ := 1008
def restart : ℕ := 1012
def tryLater : ℕ := 1013
def blocked : ℕ := 4403

end Close

/-! ### Sessions -/

/-- The fields of a `SessionRecord` that are never assigned after it was made. -/
structure SessionIdent where
  sid : Sid
  roomId : String
  name : String
  country : Option String
  ipHash : String
  createdAt : ℤ
deriving DecidableEq, Repr

/-- The score fields of a `SessionRecord`, assigned when the record is saved. -/
structure Rating where
  suspicion : ℚ
  suspicionAt : ℤ
deriving DecidableEq, Repr

/-- The enforcement fields of a `SessionRecord`. Two history variables: `base`, the revision
of the stored record this copy was read from, and `flagged`, the length of the journal when
`challengePending` was last assigned (`0` in a new record). -/
structure Standing where
  challengePending : Bool
  challengeFails : ℕ
  trustedUntil : ℤ
  blocks : ℕ
  base : ℕ
  flagged : ℕ
deriving DecidableEq, Repr

/-- `SessionRecord`. -/
structure SessionRecord extends SessionIdent, Rating, Standing
deriving DecidableEq, Repr

/-- `NetworkIdentity`: the daily and the stable pseudonym of a network. -/
structure NetworkIdentity where
  dailyHash : String
  blockHash : String
deriving DecidableEq, Repr

/-! ### Backplane -/

/-- A `BusEvent` of kind `message`; `exclude` is the key of the sending connection. -/
structure BusMessage where
  origin : InstanceId
  roomId : String
  message : ChatMessage
  exclude : Option ConnKey
deriving DecidableEq, Repr

/-- `BusEvent`. -/
inductive BusEvent where
  | message (m : BusMessage)
  | kick (origin : InstanceId) (sid : Sid) (reason : String)
deriving DecidableEq, Repr

/-- The fields of an abuse event. -/
inductive AbuseEvent where
  | challengeIssued (session : String) (score : ℤ)
  | block (reason session : String) (ttlMs : ℤ) (blocks : ℕ)
  | report (reason roomId : String) (messageId : MsgId) (author text : String)
      (reportedSid : Sid) (reporter : String)
  | roomReset (from_ to_ : String)
  | adminBlock (session : String) (minutes : ℤ) (reason : String)
deriving DecidableEq, Repr

end RoomBackend
