import RoomBackend.Operations

/-! # Anonymous sessions (`identity/sessions.ts`)

`SessionService.create` claims a name (at most ten proposals), then writes the record and the
resume token; `SessionService.resume` resolves a token and reads the record. Each is cut at
its awaits. `draws` counts the random draws made so far. -/

namespace RoomBackend

open Async Day

variable (env : Env) (draws : ℕ)

/-- What becomes of `create` after an await. -/
inductive CreateRes where
  | wait (c : CreatePc)
  | done (record : SessionRecord) (token : Token)
  | threw
deriving DecidableEq

/-- The record of a new session. -/
def newRecord (room : DailyRoom) (input : NewSessionInput) (sid : Sid) (name : String) :
    SessionRecord :=
  { sid := sid
    roomId := room.roomId
    name := name
    country := input.country
    ipHash := input.ipHash
    createdAt := input.now
    suspicion := input.suspicion
    suspicionAt := input.now
    challengePending := input.challengePending
    challengeFails := 0
    trustedUntil := 0
    blocks := 0
    base := 0
    flagged := 0 }

/-- `create`, up to its first await: a fresh id and a first proposal (one draw). -/
def createSession (room : DailyRoom) (input : NewSessionInput) : CreatePc :=
  .claim room input (env.newSessionId draws) 0 (env.generatePublicName draws) .pending

/-- `create` after an await, and the number of draws after it. -/
def CreatePc.resume : CreatePc → Option (CreateRes × ℕ)
  | .claim room input sid i candidate p =>
      match p with
      | .pending => none
      | .rejected => some (.threw, draws)
      | .fulfilled true =>
          some (.wait (.save room (newRecord room input sid candidate)
            (env.newResumeToken draws) .pending), draws + 1)
      | .fulfilled false =>
          if i + 1 < 10 then
            some (.wait (.claim room input sid (i + 1) (env.generatePublicName draws) .pending),
              draws + 1)
          else some (.threw, draws)
  | .save room record token p =>
      match p with
      | .pending => none
      | .rejected => some (.wait (.link room record token false .pending), draws)
      | .fulfilled _ => some (.wait (.link room record token true .pending), draws)
  | .link _ record token saved p =>
      match p with
      | .pending => none
      | .rejected => some (.threw, draws)
      | .fulfilled _ => some (if saved then .done record token else .threw, draws)

/-- What becomes of `resume(room, token).catch(() => null)` after an await. -/
inductive ResumeRes where
  | wait (r : ResumePc)
  | done (record : Option SessionRecord)
deriving DecidableEq

/-- The room `resume` was called with. -/
def ResumePc.room : ResumePc → DailyRoom
  | resolve room _ _ => room
  | load room _ _ => room

/-- `resume`, up to its first await. -/
def resumeSession (room : DailyRoom) (token : Token) : ResumePc := .resolve room token .pending

/-- `resume` after an await: only a record of this very room is returned. -/
def ResumePc.resume : ResumePc → Option ResumeRes
  | .resolve room _ p =>
      (p.orElse none).map fun sid =>
        match sid with
        | none => .done none
        | some sid => .wait (.load room sid .pending)
  | .load room _ p =>
      (p.orElse none).map fun r => .done (r.filter fun r => r.roomId = room.roomId)

end RoomBackend
