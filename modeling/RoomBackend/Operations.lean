import RoomBackend.Gateway

/-! # The operations suspended functions wait for

For every suspension point, the operation behind its promise: which store or backplane call
it is and with which arguments (`settle`). The operation takes effect on the shared world
when it is settled, not when it was issued. -/

namespace RoomBackend

open Async Day

def PRESENCE_STALE_MS : ℤ := 20000

/-! ### The world -/

namespace World

variable (w : World)

/-- Lift a store operation. -/
def onStore {α : Type} (f : Store → α × Store) (w : World) : α × World :=
  ((f w.store).1, { w with store := (f w.store).2 })

def record (o : Obs) (w : World) : World := { w with journal := w.journal ++ [o] }

/-- A save leaves the enforcement fields of the stored record as they are: the blocks, the challenge
flag, and which verdict (a challenge issued or passed) was the last to assign the flag. -/
def sameStanding (r : SessionRecord) : Bool :=
  match w.store.sess r.sid with
  | none => false
  | some e =>
      e.v.blocks = r.blocks && e.v.challengePending = r.challengePending && e.v.flagged = r.flagged

/-- The stamp after a save: a new one when the enforcement fields change. -/
def stamp (k : ConnKey) (r : SessionRecord) : SaveStamp :=
  let fresh : SaveStamp := { author := k, rev := w.journal.length + 1 }
  if w.sameStanding r then (w.lastSave r.sid).getD fresh else fresh

/-- The stored record of a session and its stamp. -/
def stored (sid : Sid) : Option (SessionRecord × SaveStamp) :=
  (w.store.sess sid).bind fun e => (w.lastSave sid).map fun st => (e.v, st)

/-- `saveSession`, by connection `k`. -/
def save (k : ConnKey) (req : SaveReq) (w : World) : Unit × World :=
  ((), record (.saved k req.record (w.stored req.record.sid)) { w with
    store := (w.store.saveSession req.record req.expireAt).2
    lastSave := Function.update w.lastSave req.record.sid (some (w.stamp k req.record)) })

/-- The revision of the stored record of a session. -/
def rev (sid : Sid) : ℕ := ((w.lastSave sid).map SaveStamp.rev).getD 0

/-- `getSession`: the copy remembers the revision it was read from. -/
def load (now : ℤ) (sid : Sid) (w : World) : Option SessionRecord × World :=
  ((w.store.getSession now sid).1.map (fun r => { r with base := w.rev sid }),
    { w with store := (w.store.getSession now sid).2 })

/-- `setResume`: the token is linked to the session. -/
def link (token : Token) (sid : Sid) (expireAt : ℤ) (w : World) : Unit × World :=
  ((), record (.linked token sid)
    (onStore (fun s => s.setResume (hashToken token) sid expireAt) w).2)

/-- `appendMessage` of an accepted send. -/
def append (now : ℤ) (keep : ℕ) (k : ConnKey) (n : ℕ) (l : SendLocals) (room : DailyRoom)
    (m : StoredMessage) (w : World) : Unit × World :=
  ((), record (.appended k n l room.roomId m)
    (onStore (fun s => s.appendMessage now room.roomId m keep room.endsAt) w).2)

/-- `bus.publish`: one delivery for each subscribed instance. -/
def publish (e : BusEvent) (w : World) : Unit × World :=
  ((), { w with inFlight := w.inFlight ++ w.subscribers.map (fun i => (i, e)) })

/-- `bus.publish` of an accepted send. -/
def publishSend (k : ConnKey) (n : ℕ) (l : SendLocals) (m : BusMessage) (w : World) :
    Unit × World :=
  ((), record (.published k n l m w.subscribers) (publish (.message m) w).2)

end World

/-! ### Sessions -/

/-- The operation `SessionService.create` waits for. -/
def CreatePc.settle (now : ℤ) (k : ConnKey) (o : Outcome) :
    CreatePc → World → Option (CreatePc × World)
  | claim room input sid i candidate p, w =>
      (p.settle (World.onStore fun s => s.claimName now room.roomId candidate sid room.endsAt)
        o w).map fun r => (claim room input sid i candidate r.1, r.2)
  | save room record token p, w =>
      (p.settle (World.save k ⟨record, room.endsAt⟩) o w).map fun r =>
        (save room record token r.1, r.2)
  | link room record token saved p, w =>
      (p.settle (World.link token record.sid room.endsAt) o w).map fun r =>
        (link room record token saved r.1, r.2)

/-- The operation `SessionService.resume` waits for. -/
def ResumePc.settle (now : ℤ) (o : Outcome) : ResumePc → World → Option (ResumePc × World)
  | resolve room token p, w =>
      (p.settle (World.onStore fun s => s.resolveResume now (hashToken token)) o w).map fun r =>
        (resolve room token r.1, r.2)
  | load room sid p, w =>
      (p.settle (World.load now sid) o w).map fun r => (load room sid r.1, r.2)

/-! ### Frame handlers -/

section handlers

variable (env : Env) (now : ℤ) (verdict : Bool) (k : ConnKey) (n : ℕ) (info : AdmitInfo)
  (o : Outcome)

/-- The operation `join` waits for. -/
def JoinPc.settle : JoinPc → World → Option (JoinPc × World)
  | resume j token r, w => (r.settle now o w).map fun r => (resume j token r.1, r.2)
  | rejoin j record token p, w =>
      (p.settle (World.onStore fun s => s.hit now (.rejoin record.sid) 300000) o w).map fun r =>
        (rejoin j record token r.1, r.2)
  | newsess j room p, w =>
      (p.settle (World.onStore fun s => s.hit now (.newsess info.net.dailyHash) 3600000)
        o w).map fun r => (newsess j room r.1, r.2)
  | create j c, w => (c.settle now k o w).map fun r => (create j r.1, r.2)
  | block j record token p, w =>
      (p.settle (World.onStore fun s => s.blockTtl now (.sess record.sid)) o w).map fun r =>
        (block j record token r.1, r.2)
  | history j record token room p, w =>
      (p.settle (World.onStore fun s => s.recentMessages now room.roomId env.config.historyLimit)
        o w).map fun r => (history j record token room r.1, r.2)

/-- The save `persist` issued, if it issued one. -/
def settleSave (req : Option SaveReq) (p : Promise Unit) (w : World) :
    Option (Promise Unit × World) :=
  match req with
  | none => none
  | some q => p.settle (World.save k q) o w

/-- The operation `tempBlock` waits for. -/
def BlockPc.settle : BlockPc → World → Option (BlockPc × World)
  | sess b p, w =>
      (p.settle (World.onStore fun s => s.setBlock now (.sess b.record.sid) b.ttl b.reason)
        o w).map fun r => (sess b r.1, r.2)
  | net b netTtl p, w =>
      (p.settle (World.onStore fun s => s.setBlock now (.net info.net.blockHash) netTtl b.reason)
        o w).map fun r => (net b netTtl r.1, r.2)
  | save b req p, w => (settleSave k o req p w).map fun r => (save b req r.1, r.2)

/-- The operation `escalate` waits for. -/
def EscalatePc.settle : EscalatePc → World → Option (EscalatePc × World)
  | returned _, _ => none
  | challenge req p, w => (settleSave k o req p w).map fun r => (challenge req r.1, r.2)
  | block b, w => (b.settle now k info o w).map fun r => (block r.1, r.2)

/-- The bus event of an accepted message. -/
def busMessage (room : DailyRoom) (m : StoredMessage) : BusMessage :=
  { origin := k.inst, roomId := room.roomId, message := toPublic m, exclude := some k }

/-- The operation `decide` waits for. -/
def SendPc.settle : SendPc → World → Option (SendPc × World)
  | hit l p, w =>
      (p.settle (World.onStore fun s => s.hit now (.ipmsg info.net.dailyHash) 10000) o w).map
        fun r => (hit l r.1, r.2)
  | dup l p, w =>
      (p.settle (World.onStore fun s => s.addToSet now
        (l.record.roomId, env.textHash (env.fingerprint l.text)) l.record.sid 30000) o w).map
        fun r => (dup l r.1, r.2)
  | escalate l site e, w =>
      (e.settle now k info o w).map fun r => (escalate l site r.1, r.2)
  | append l room m p, w =>
      (p.settle (World.append now env.config.historyLimit k n l room m) o w).map fun r =>
        (append l room m r.1, r.2)
  | publish l room m p, w =>
      (p.settle (World.publishSend k n l (busMessage k room m)) o w).map fun r =>
        (publish l room m r.1, r.2)
  | reply _ _, _ => none

/-- The operation `challengeResponse` waits for; the verifier's answer is `verdict`. -/
def ChallengePc.settle : ChallengePc → World → Option (ChallengePc × World)
  | verify token record t p, w =>
      (p.settle (fun w => (verdict, w)) o w).map fun r => (verify token record t r.1, r.2)
  | passed req p, w => (settleSave k o req p w).map fun r => (passed req r.1, r.2)
  | failed req p, w => (settleSave k o req p w).map fun r => (failed req r.1, r.2)
  | block b, w => (b.settle now k info o w).map fun r => (block r.1, r.2)

/-- The operation `report` waits for. -/
def ReportPc.settle : ReportPc → World → Option (ReportPc × World)
  | hit record id reason p, w =>
      (p.settle (World.onStore fun s => s.hit now (.report record.sid) 3600000) o w).map fun r =>
        (hit record id reason r.1, r.2)
  | recent record id reason roomId p, w =>
      (p.settle (World.onStore fun s => s.recentMessages now roomId env.config.historyLimit)
        o w).map fun r => (recent record id reason roomId r.1, r.2)
  | event id e p, w =>
      (p.settle (World.onStore fun s => s.addAbuseEvent now e (30 * dayMs)) o w).map fun r =>
        (event id e r.1, r.2)

/-- The operation a frame handler waits for. -/
def Handler.settle : Handler → World → Option (Handler × World)
  | join p, w => (p.settle env now k info o w).map fun r => (join r.1, r.2)
  | send p, w => (p.settle env now k n info o w).map fun r => (send r.1, r.2)
  | challenge p, w => (p.settle now verdict k info o w).map fun r => (challenge r.1, r.2)
  | report p, w => (p.settle env now o w).map fun r => (report r.1, r.2)

end handlers

/-! ### Rollovers, upgrades, detached work -/

/-- The operation `Connection.rollover` waits for. -/
def RolloverPc.settle (now : ℤ) (k : ConnKey) (o : Outcome) (r : RolloverPc) (w : World) :
    Option (RolloverPc × World) :=
  (r.create.settle now k o w).map fun c => ({ r with create := c.1 }, c.2)

/-- The operation `RoomServer.rollover` waits for. -/
def RollingPc.settle (now : ℤ) (o : Outcome) : RollingPc → World → Option (RollingPc × World)
  | acquire prev next p, w =>
      (p.settle (World.onStore fun s => s.acquireOnce now ("reset:" ++ prev.roomId) 3600000)
        o w).map fun r => (acquire prev next r.1, r.2)
  | cleanup prev next p, w =>
      (p.settle (World.onStore fun s => s.deleteRoom prev.roomId) o w).map fun r =>
        (cleanup prev next r.1, r.2)
  | log prev next p, w =>
      (p.settle (World.onStore fun s =>
        s.addAbuseEvent now (.roomReset prev.roomId next.roomId) (7 * dayMs)) o w).map fun r =>
        (log prev next r.1, r.2)
  | batch _ _ _ _, _ => none
  | breathe _ _ _, _ => none

/-- The operation `admit` waits for. -/
def UpgradePc.settle (now : ℤ) (info : AdmitInfo) (o : Outcome) :
    UpgradePc → World → Option (UpgradePc × World)
  | netBlock p, w =>
      (p.settle (World.onStore fun s => s.blockTtl now (.net info.net.blockHash)) o w).map
        fun r => (netBlock r.1, r.2)
  | backoff b p, w =>
      (p.settle (World.onStore fun s => s.blockTtl now (.cbo info.net.dailyHash)) o w).map
        fun r => (backoff b r.1, r.2)
  | attempts p, w =>
      (p.settle (World.onStore fun s => s.hit now (.conn info.net.dailyHash) 60000) o w).map
        fun r => (attempts r.1, r.2)
  | floods p, w =>
      (p.settle (World.onStore fun s => s.hit now (.connx info.net.dailyHash) 3600000) o w).map
        fun r => (floods r.1, r.2)
  | penalty n p, w =>
      (p.settle (World.onStore fun s => s.setBlock now (.cbo info.net.dailyHash)
        (min 600000 (1000 * 2 ^ min n 10)) "connect_flood") o w).map fun r =>
        (penalty n r.1, r.2)
  | _, _ => none

/-- The operation an admin handler waits for. -/
def AdminPc.settle (env : Env) (now : ℤ) (i : InstanceId) (o : Outcome) :
    AdminPc → World → Option (AdminPc × World)
  | owner b name roomId p, w =>
      (p.settle (World.onStore fun s => s.nameOwner now roomId name) o w).map fun r =>
        (owner b name roomId r.1, r.2)
  | recent b roomId p, w =>
      (p.settle (World.onStore fun s => s.recentMessages now roomId env.config.historyLimit)
        o w).map fun r => (recent b roomId r.1, r.2)
  | block b sid p, w =>
      (p.settle (World.onStore fun s => s.setBlock now (.sess sid) (b.minutes * 60000)
        ("admin:" ++ b.reason)) o w).map fun r => (block b sid r.1, r.2)
  | kick b sid p, w =>
      (p.settle (World.publish (.kick i sid b.reason)) o w).map fun r => (kick b sid r.1, r.2)
  | log b sid p, w =>
      (p.settle (World.onStore fun s => s.addAbuseEvent now
        (.adminBlock (env.logTag sid) b.minutes b.reason) (30 * dayMs)) o w).map fun r =>
        (log b sid r.1, r.2)
  | unblockOwner name roomId p, w =>
      (p.settle (World.onStore fun s => s.nameOwner now roomId name) o w).map fun r =>
        (unblockOwner name roomId r.1, r.2)
  | unblock sid p, w =>
      (p.settle (World.onStore fun s => s.deleteBlock (.sess sid)) o w).map fun r =>
        (unblock sid r.1, r.2)

/-- The operation a detached task waits for. -/
def Task.settle (env : Env) (now : ℤ) (o : Outcome) : Task → World → Option (Task × World)
  | persist k req p, w => (p.settle (World.save k req) o w).map fun r => (persist k req r.1, r.2)
  | admin i a, w => (a.settle env now i o w).map fun r => (admin i r.1, r.2)

/-- The operation a chore waits for; the verifier's answer is `verdict`. -/
def Chore.settle (now : ℤ) (verdict : Bool) (o : Outcome) :
    Chore → World → Option (Chore × World)
  | verify k token p, w =>
      (p.settle (fun w => (verdict, w)) o w).map fun r => (verify k token r.1, r.2)
  | abuse e retentionMs p, w =>
      (p.settle (World.onStore fun s => s.addAbuseEvent now e retentionMs) o w).map fun r =>
        (abuse e retentionMs r.1, r.2)
  | reportPresence i ts count p, w =>
      (p.settle (World.onStore fun s => s.reportPresence i count ts) o w).map fun r =>
        (reportPresence i ts count r.1, r.2)
  | totalPresence i ts p, w =>
      (p.settle (World.onStore fun s => s.totalPresence ts PRESENCE_STALE_MS) o w).map fun r =>
        (totalPresence i ts r.1, r.2)
  | removePresence i p, w =>
      (p.settle (World.onStore fun s => s.removePresence i) o w).map fun r =>
        (removePresence i r.1, r.2)

end RoomBackend
