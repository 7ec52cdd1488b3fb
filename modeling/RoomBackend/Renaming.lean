import RoomBackend.System

/-! # Renamed session ids

A renaming of session ids is carried through everything the system keeps: records and messages,
the keys and the values of the store, suspended functions, the journal. What the operators are
shown of a session, its log tag, is left out (`AbuseEvent.rename`). The store and the operations
of the suspended functions commute with the renaming. -/

namespace RoomBackend

open Async Day Lts Expiring

/-! ### Stored data -/

section data

variable (π : Sid ↪ Sid)

def SessionIdent.rename (r : SessionIdent) : SessionIdent := { r with sid := π r.sid }

def SessionRecord.rename (r : SessionRecord) : SessionRecord :=
  ⟨r.toSessionIdent.rename π, r.toRating, r.toStanding⟩

def StoredMessage.rename (m : StoredMessage) : StoredMessage := { m with sid := π m.sid }

/-- The event without its log tags. -/
def AbuseEvent.rename : AbuseEvent → AbuseEvent
  | challengeIssued _ score => challengeIssued "" score
  | block reason _ ttlMs blocks => block reason "" ttlMs blocks
  | report reason roomId id author text sid _ => report reason roomId id author text (π sid) ""
  | roomReset a b => roomReset a b
  | adminBlock _ minutes reason => adminBlock "" minutes reason

def BusEvent.rename : BusEvent → BusEvent
  | message m => message m
  | kick origin sid reason => kick origin (π sid) reason

def CounterKey.rename : CounterKey → CounterKey
  | rejoin sid => rejoin (π sid)
  | report sid => report (π sid)
  | newsess h => newsess h
  | conn h => conn h
  | connx h => connx h
  | ipmsg h => ipmsg h

def BlockKey.rename : BlockKey → BlockKey
  | sess sid => sess (π sid)
  | net h => net h
  | cbo h => cbo h

theorem CounterKey.rename_injective : Function.Injective (CounterKey.rename π) := by
  intro a b h
  cases a <;> cases b <;> simp_all [rename]

theorem BlockKey.rename_injective : Function.Injective (BlockKey.rename π) := by
  intro a b h
  cases a <;> cases b <;> simp_all [rename]

/-- The counters of a window, under renamed keys. -/
def counterKeys : CounterKey × ℤ ↪ CounterKey × ℤ :=
  ⟨Prod.map (CounterKey.rename π) id,
    (CounterKey.rename_injective π).prodMap Function.injective_id⟩

def blockKeys : BlockKey ↪ BlockKey := ⟨BlockKey.rename π, BlockKey.rename_injective π⟩

/-- The keys that hold no session id. -/
abbrev same (α : Type) : α ↪ α := Function.Embedding.refl α

noncomputable def Store.rename (s : Store) : Store :=
  { names := s.names.rename (same _) π
    sess := s.sess.rename π (SessionRecord.rename π)
    resume := s.resume.rename (same _) π
    counters := s.counters.rename (counterKeys π) id
    sets := s.sets.rename (same _) (List.map π)
    blocks := s.blocks.rename (blockKeys π) id
    locks := s.locks
    lists := s.lists.rename (same _) (List.map (StoredMessage.rename π))
    presence := s.presence
    abuse := s.abuse.map (Prod.map id (AbuseEvent.rename π)) }

end data

/-! ### Suspended functions -/

/-- The answer, renamed. -/
def Async.Promise.map {α β : Type} (φ : α → β) : Promise α → Promise β
  | pending => pending
  | fulfilled a => fulfilled (φ a)
  | rejected => rejected

section data

variable (π : Sid ↪ Sid)

def SaveReq.rename (q : SaveReq) : SaveReq := { q with record := q.record.rename π }

def CreatePc.rename : CreatePc → CreatePc
  | claim room input sid i candidate p => claim room input (π sid) i candidate p
  | save room record token p => save room (record.rename π) token p
  | link room record token saved p => link room (record.rename π) token saved p

def ResumePc.rename : ResumePc → ResumePc
  | resolve room token p => resolve room token (p.map (Option.map π))
  | load room sid p => load room (π sid) (p.map (Option.map (SessionRecord.rename π)))

def JoinPc.rename : JoinPc → JoinPc
  | resume j token r => resume j token (r.rename π)
  | rejoin j record token p => rejoin j (record.rename π) token p
  | newsess j room p => newsess j room p
  | create j c => create j (c.rename π)
  | block j record token p => block j (record.rename π) token p
  | history j record token room p =>
      history j (record.rename π) token room (p.map (List.map (StoredMessage.rename π)))

def SendLocals.rename (l : SendLocals) : SendLocals := { l with record := l.record.rename π }

def BlockLocals.rename (b : BlockLocals) : BlockLocals := { b with record := b.record.rename π }

def BlockPc.rename : BlockPc → BlockPc
  | sess b p => sess (b.rename π) p
  | net b netTtl p => net (b.rename π) netTtl p
  | save b req p => save (b.rename π) (req.map (SaveReq.rename π)) p

def EscalatePc.rename : EscalatePc → EscalatePc
  | returned reason => returned reason
  | challenge req p => challenge (req.map (SaveReq.rename π)) p
  | block b => block (b.rename π)

def SendPc.rename : SendPc → SendPc
  | hit l p => hit (l.rename π) p
  | dup l p => dup (l.rename π) p
  | escalate l site e => escalate (l.rename π) site (e.rename π)
  | append l room m p => append (l.rename π) room (m.rename π) p
  | publish l room m p => publish (l.rename π) room (m.rename π) p
  | reply e r => reply e r

def ChallengePc.rename : ChallengePc → ChallengePc
  | verify token record now p => verify token (record.rename π) now p
  | passed req p => passed (req.map (SaveReq.rename π)) p
  | failed req p => failed (req.map (SaveReq.rename π)) p
  | block b => block (b.rename π)

def ReportPc.rename : ReportPc → ReportPc
  | hit record id reason p => hit (record.rename π) id reason p
  | recent record id reason roomId p =>
      recent (record.rename π) id reason roomId (p.map (List.map (StoredMessage.rename π)))
  | event id e p => event id (e.rename π) p

def Handler.rename : Handler → Handler
  | join p => join (p.rename π)
  | send p => send (p.rename π)
  | challenge p => challenge (p.rename π)
  | report p => report (p.rename π)

def RolloverPc.rename (p : RolloverPc) : RolloverPc := { p with create := p.create.rename π }

def AdminPc.rename : AdminPc → AdminPc
  | owner b name roomId p => owner b name roomId (p.map (Option.map π))
  | recent b roomId p => recent b roomId (p.map (List.map (StoredMessage.rename π)))
  | block b sid p => block b (π sid) p
  | kick b sid p => kick b (π sid) p
  | log b sid p => log b (π sid) p
  | unblockOwner name roomId p => unblockOwner name roomId (p.map (Option.map π))
  | unblock sid p => unblock (π sid) p

def Task.rename : Task → Task
  | persist k req p => persist k (req.rename π) p
  | admin i a => admin i (a.rename π)

def Chore.rename : Chore → Chore
  | abuse e retentionMs p => abuse (e.rename π) retentionMs p
  | verify k token p => verify k token p
  | reportPresence i now count p => reportPresence i now count p
  | totalPresence i now p => totalPresence i now p
  | removePresence i p => removePresence i p

/-! ### The state -/

def Announcement.rename : Announcement → Announcement
  | welcome record token room history =>
      welcome (record.rename π) token room (history.map (StoredMessage.rename π))
  | reset record token room => reset (record.rename π) token room

def Obs.rename : Obs → Obs
  | deciding k n e => deciding k n e
  | appended k n l roomId m => appended k n (l.rename π) roomId (m.rename π)
  | published k n l m to_ => published k n (l.rename π) m to_
  | replied k n reply => replied k n reply
  | blocked k b => blocked k (b.rename π)
  | issued k sid => issued k (π sid)
  | passed k sid => passed k (π sid)
  | linked token sid => linked token (π sid)
  | saved k record prior => saved k (record.rename π) (prior.map (Prod.map (·.rename π) id))
  | rolled k resets prev old new => rolled k resets prev (old.rename π) (new.rename π)
  | dropped i m roomId => dropped i m roomId
  | flushed i batch => flushed i batch

noncomputable def World.rename (w : World) : World :=
  { store := w.store.rename π
    subscribers := w.subscribers
    inFlight := w.inFlight.map (Prod.map id (BusEvent.rename π))
    journal := w.journal.map (Obs.rename π)
    lastSave := Function.extend π w.lastSave fun _ => none }

noncomputable def Conn.rename (x : Conn) : Conn :=
  { x with
    record := x.record.map (SessionIdent.rename π)
    standing := Function.extend π x.standing fun _ => Standing.fresh
    handler := x.handler.map (Handler.rename π)
    rolling := x.rolling.map (RolloverPc.rename π)
    held := x.held.map (SessionIdent.rename π)
    announced := x.announced.map (Announcement.rename π) }

noncomputable def Side.rename (d : Side) : Side :=
  { d with rating := Function.extend π d.rating fun _ => ⟨0, 0⟩ }

noncomputable def Core.rename (c : Core) : Core :=
  { c with
    world := c.world.rename π
    conn := fun k => (c.conn k).rename π
    task := fun n => (c.task n).map (Task.rename π) }

noncomputable def Sys.rename (s : Sys) : Sys :=
  { toCore := s.toCore.rename π
    side := fun k => (s.side k).rename π
    desk := s.desk
    chore := fun n => (s.chore n).map (Chore.rename π)
    chores := s.chores }

/-- The environment with session ids renamed and without log tags. -/
def Env.rename (env : Env) : Env :=
  { env with
    newSessionId := fun d => π (env.newSessionId d)
    newSessionId_injective := π.injective.comp env.newSessionId_injective
    logTag := fun _ => "" }

end data

/-! ### The store -/

namespace Expiring.Map

variable {κ α β : Type} [DecidableEq κ] (φ : α → β) (m : Map κ α)

theorem read_same (now : ℤ) (k : κ) : (m.rename (same κ) φ).read now k =
    ((m.read now k).1.map φ, (m.read now k).2.rename (same κ) φ) :=
  m.read_rename (same κ) φ now k

theorem write_same_key (k : κ) (v : α) (exp : ℤ) :
    (m.rename (same κ) φ).write k (φ v) exp = (m.write k v exp).rename (same κ) φ :=
  m.write_rename (same κ) φ k v exp

omit [DecidableEq κ] in
theorem lookup_same (now : ℤ) (k : κ) :
    (m.rename (same κ) φ).lookup now k = (m.lookup now k).map φ :=
  m.lookup_rename (same κ) φ now k

end Expiring.Map

namespace Store

variable (π : Sid ↪ Sid) (s : Store) (now : ℤ)

theorem rename_empty : Store.empty.rename π = Store.empty := by
  unfold rename empty
  simp only [Map.rename_empty, List.map_nil]

theorem claimName_rename (roomId name : String) (sid : Sid) (expireAt : ℤ) :
    (s.rename π).claimName now roomId name (π sid) expireAt =
      ((s.claimName now roomId name sid expireAt).1,
        (s.claimName now roomId name sid expireAt).2.rename π) := by
  unfold claimName
  rw [show (s.rename π).names.read now (roomId, name) = _ from Map.read_same π s.names now _]
  dsimp only
  cases (s.names.read now (roomId, name)).1 with
  | none =>
      simp only [Option.map_none, Option.isSome_none, Bool.false_eq_true, if_false]
      rw [Map.write_same_key]
      rfl
  | some _ => rfl

theorem nameOwner_rename (roomId name : String) : (s.rename π).nameOwner now roomId name =
    ((s.nameOwner now roomId name).1.map π, (s.nameOwner now roomId name).2.rename π) := by
  unfold nameOwner
  rw [show (s.rename π).names.read now (roomId, name) = _ from Map.read_same π s.names now _]
  rfl

theorem saveSession_rename (r : SessionRecord) (expireAt : ℤ) :
    (s.rename π).saveSession (r.rename π) expireAt =
      ((), (s.saveSession r expireAt).2.rename π) := by
  unfold saveSession
  rw [show (s.rename π).sess.write (r.rename π).sid (r.rename π) expireAt = _ from
    s.sess.write_rename π (SessionRecord.rename π) r.sid r expireAt]
  rfl

theorem getSession_rename (sid : Sid) : (s.rename π).getSession now (π sid) =
    ((s.getSession now sid).1.map (SessionRecord.rename π),
      (s.getSession now sid).2.rename π) := by
  unfold getSession
  rw [show (s.rename π).sess.read now (π sid) = _ from
    s.sess.read_rename π (SessionRecord.rename π) now sid]
  rfl

theorem setResume_rename (hash : TokenHash) (sid : Sid) (expireAt : ℤ) :
    (s.rename π).setResume hash (π sid) expireAt = ((), (s.setResume hash sid expireAt).2.rename π)
    := by
  unfold setResume
  rw [show (s.rename π).resume.write hash (π sid) expireAt = _ from
    Map.write_same_key π s.resume hash sid expireAt]
  rfl

theorem resolveResume_rename (hash : TokenHash) : (s.rename π).resolveResume now hash =
    ((s.resolveResume now hash).1.map π, (s.resolveResume now hash).2.rename π) := by
  unfold resolveResume
  rw [show (s.rename π).resume.read now hash = _ from Map.read_same π s.resume now hash]
  rfl

/-- The messages of a room, renamed. -/
theorem lookup_lists_rename (roomId : String) :
    ((s.rename π).lists.lookup now roomId).getD [] =
      ((s.lists.lookup now roomId).getD []).map (StoredMessage.rename π) := by
  rw [show (s.rename π).lists.lookup now roomId = _ from
    Map.lookup_same (List.map (StoredMessage.rename π)) s.lists now roomId]
  cases s.lists.lookup now roomId <;> rfl

theorem appendMessage_rename (roomId : String) (m : StoredMessage) (keep : ℕ) (expireAt : ℤ) :
    (s.rename π).appendMessage now roomId (m.rename π) keep expireAt =
      ((), (s.appendMessage now roomId m keep expireAt).2.rename π) := by
  unfold appendMessage
  dsimp only
  have hv : ((s.rename π).lists.lookup now roomId).getD [] ++ [m.rename π] =
      ((s.lists.lookup now roomId).getD [] ++ [m]).map (StoredMessage.rename π) := by
    rw [lookup_lists_rename, List.map_append]
    rfl
  rw [hv, List.length_map, ← List.map_drop]
  rw [show (s.rename π).lists.write roomId _ expireAt = _ from
    Map.write_same_key (List.map (StoredMessage.rename π)) s.lists roomId _ expireAt]
  rfl

theorem recentMessages_rename (roomId : String) (limit : ℕ) :
    (s.rename π).recentMessages now roomId limit =
      ((s.recentMessages now roomId limit).1.map (StoredMessage.rename π),
        (s.recentMessages now roomId limit).2.rename π) := by
  unfold recentMessages
  dsimp only
  rw [lookup_lists_rename]
  split
  · rfl
  · rw [List.length_map, ← List.map_drop]

theorem deleteRoom_rename (roomId : String) :
    (s.rename π).deleteRoom roomId = ((), (s.deleteRoom roomId).2.rename π) := by
  unfold deleteRoom
  have hn : (fun k : String × String => if k.1 = roomId then none else (s.rename π).names k) =
      Map.rename (same _) π fun k => if k.1 = roomId then none else s.names k := by
    funext k
    have hk := Map.rename_apply (same (String × String)) π
      (fun k => if k.1 = roomId then none else s.names k) k
    rw [show (Map.rename (same (String × String)) π
      fun k => if k.1 = roomId then none else s.names k) k = _ from hk]
    split
    · rfl
    · exact Map.rename_apply (same (String × String)) π s.names k
  rw [hn, show (s.rename π).lists.erase roomId = _ from
    s.lists.erase_rename (same _) (List.map (StoredMessage.rename π)) roomId]
  rfl

theorem hit_rename (key : CounterKey) (windowMs : ℤ) :
    (s.rename π).hit now (key.rename π) windowMs =
      ((s.hit now key windowMs).1, (s.hit now key windowMs).2.rename π) := by
  unfold hit
  dsimp only
  rw [show (s.rename π).counters.read now (key.rename π, now / windowMs) = _ from
    s.counters.read_rename (counterKeys π) id now (key, now / windowMs)]
  have hw : ∀ n exp, (Map.rename (counterKeys π) id
      (s.counters.read now (key, now / windowMs)).2).write (key.rename π, now / windowMs) n exp =
      Map.rename (counterKeys π) id
        ((s.counters.read now (key, now / windowMs)).2.write (key, now / windowMs) n exp) :=
    fun n exp => Map.write_rename (counterKeys π) id _ (key, now / windowMs) n exp
  dsimp only
  rw [Option.map_id, hw]
  rfl

theorem addToSet_rename (key : String × String) (member : Sid) (ttlMs : ℤ) :
    (s.rename π).addToSet now key (π member) ttlMs =
      ((s.addToSet now key member ttlMs).1, (s.addToSet now key member ttlMs).2.rename π) := by
  unfold addToSet
  dsimp only
  rw [show (s.rename π).sets.read now key = _ from
    Map.read_same (List.map π) s.sets now key]
  dsimp only
  have hv : (((s.sets.read now key).1.map (List.map π)).getD []).insert (π member) =
      (((s.sets.read now key).1.getD []).insert member).map π := by
    cases (s.sets.read now key).1 with
    | none => rfl
    | some xs =>
        show (xs.map π).insert (π member) = (xs.insert member).map π
        by_cases hm : member ∈ xs
        · rw [List.insert_of_mem hm, List.insert_of_mem (List.mem_map_of_mem hm)]
        · rw [List.insert_of_not_mem hm, List.insert_of_not_mem, List.map_cons]
          intro h
          obtain ⟨x, hx, he⟩ := List.mem_map.mp h
          rw [π.injective he] at hx
          exact hm hx
  rw [hv, List.length_map, Map.write_same_key]
  rfl

theorem setBlock_rename (key : BlockKey) (ttlMs : ℤ) (reason : String) :
    (s.rename π).setBlock now (key.rename π) ttlMs reason =
      ((), (s.setBlock now key ttlMs reason).2.rename π) := by
  unfold setBlock
  rw [show (s.rename π).blocks.write (key.rename π) reason (now + ttlMs) = _ from
    s.blocks.write_rename (blockKeys π) id key reason (now + ttlMs)]
  rfl

theorem blockTtl_rename (key : BlockKey) : (s.rename π).blockTtl now (key.rename π) =
    ((s.blockTtl now key).1, (s.blockTtl now key).2.rename π) := by
  unfold blockTtl
  rw [show (s.rename π).blocks (key.rename π) = _ from
    s.blocks.rename_apply (blockKeys π) id key]
  cases s.blocks key <;> rfl

theorem deleteBlock_rename (key : BlockKey) : (s.rename π).deleteBlock (key.rename π) =
    ((), (s.deleteBlock key).2.rename π) := by
  unfold deleteBlock
  rw [show (s.rename π).blocks.erase (key.rename π) = _ from
    s.blocks.erase_rename (blockKeys π) id key]
  rfl

theorem acquireOnce_rename (key : String) (ttlMs : ℤ) : (s.rename π).acquireOnce now key ttlMs =
    ((s.acquireOnce now key ttlMs).1, (s.acquireOnce now key ttlMs).2.rename π) := by
  unfold acquireOnce
  rw [show (s.rename π).locks = s.locks from rfl]
  dsimp only
  by_cases h : (s.locks.read now key).1.isSome = true
  · simp only [h, if_true]
    rfl
  · simp only [h, if_false, Bool.false_eq_true]
    rfl

theorem addAbuseEvent_rename (e : AbuseEvent) (retentionMs : ℤ) :
    (s.rename π).addAbuseEvent now (e.rename π) retentionMs =
      ((), (s.addAbuseEvent now e retentionMs).2.rename π) := by
  have hf : (s.rename π).abuse.filter (fun a => now - a.1 < retentionMs) =
      (s.abuse.filter fun a => now - a.1 < retentionMs).map (Prod.map id (AbuseEvent.rename π)) :=
    List.filter_map
  unfold addAbuseEvent
  dsimp only
  rw [hf, List.length_map, ← List.map_drop, show [(now, e.rename π)] =
    List.map (Prod.map id (AbuseEvent.rename π)) [(now, e)] from rfl, ← List.map_append]
  rfl

end Store

/-! ### Settled promises -/

namespace Async.Promise

variable {α β γ γ' ω ω' : Type} {p : Promise α} {f : ω → α × ω} {φ : α → β} {ψ : ω → ω'}
  {o : Outcome} {w : ω}

theorem map_id (p : Promise α) : p.map id = p := by cases p <;> rfl

theorem orElse_map (p : Promise α) (a : α) : (p.map φ).orElse (φ a) = (p.orElse a).map φ := by
  cases p <;> rfl

/-- An operation on the renamed world that answers and does what another does, renamed. -/
theorem settle_map {g : ω' → β × ω'} (h : g (ψ w) = (φ (f w).1, ψ (f w).2)) :
    (p.map φ).settle g o (ψ w) = (p.settle f o w).map (Prod.map (Promise.map φ) ψ) := by
  cases p with
  | pending =>
      cases o with
      | answered =>
          show some (fulfilled (g (ψ w)).1, (g (ψ w)).2) = _
          rw [h]
          rfl
      | refused => rfl
      | timedOut =>
          show some (rejected, (g (ψ w)).2) = _
          rw [h]
          rfl
  | fulfilled => rfl
  | rejected => rfl

/-- The same for a suspended function that holds the promise. -/
theorem settle_hold {g : ω' → β × ω'} {hold : Promise α → γ} {hold' : Promise β → γ'}
    {ρ : γ → γ'} (h : g (ψ w) = (φ (f w).1, ψ (f w).2))
    (hh : ∀ q, hold' (q.map φ) = ρ (hold q)) :
    ((p.map φ).settle g o (ψ w)).map (fun r => (hold' r.1, r.2)) =
      ((p.settle f o w).map fun r => (hold r.1, r.2)).map (Prod.map ρ ψ) := by
  rw [settle_map h, Option.map_map, Option.map_map]
  congr 1
  funext r
  exact Prod.ext (hh r.1) rfl

/-- The same for a promise whose answer is left as it is. -/
theorem settle_keep {g : ω' → α × ω'} {hold : Promise α → γ} {hold' : Promise α → γ'}
    {ρ : γ → γ'} (h : g (ψ w) = ((f w).1, ψ (f w).2)) (hh : ∀ q, hold' q = ρ (hold q)) :
    (p.settle g o (ψ w)).map (fun r => (hold' r.1, r.2)) =
      ((p.settle f o w).map fun r => (hold r.1, r.2)).map (Prod.map ρ ψ) := by
  have hs : ((p.map id).settle g o (ψ w)).map (fun r => (hold' r.1, r.2)) = _ :=
    settle_hold h fun q => (congrArg hold' (map_id q)).trans (hh q)
  rwa [map_id] at hs

end Async.Promise

/-! ### The operations of suspended functions -/

section operations

variable (π : Sid ↪ Sid)

namespace World

variable (w : World)

theorem onStore_rename {α β : Type} {f : Store → α × Store} {g : Store → β × Store} {φ : α → β}
    (h : g (w.store.rename π) = (φ (f w.store).1, (f w.store).2.rename π)) :
    onStore g (w.rename π) = (φ (onStore f w).1, (onStore f w).2.rename π) := by
  unfold onStore
  rw [show (w.rename π).store = w.store.rename π from rfl, h]
  rfl

theorem onStore_same {α : Type} {f g : Store → α × Store}
    (h : g (w.store.rename π) = ((f w.store).1, (f w.store).2.rename π)) :
    onStore g (w.rename π) = ((onStore f w).1, (onStore f w).2.rename π) :=
  onStore_rename π w (φ := id) h

theorem record_rename (o : Obs) : record (o.rename π) (w.rename π) = (record o w).rename π := by
  unfold record rename
  rw [List.map_append]
  rfl

theorem lastSave_rename (sid : Sid) : (w.rename π).lastSave (π sid) = w.lastSave sid :=
  π.injective.extend_apply w.lastSave (fun _ => none) sid

theorem sess_rename (sid : Sid) : (w.rename π).store.sess (π sid) =
    (w.store.sess sid).map (Entry.map (SessionRecord.rename π)) :=
  w.store.sess.rename_apply π (SessionRecord.rename π) sid

theorem sameStanding_rename (r : SessionRecord) :
    (w.rename π).sameStanding (r.rename π) = w.sameStanding r := by
  unfold sameStanding
  rw [show (w.rename π).store.sess (r.rename π).sid = _ from w.sess_rename π r.sid]
  cases w.store.sess r.sid <;> rfl

theorem stamp_rename (k : ConnKey) (r : SessionRecord) :
    (w.rename π).stamp k (r.rename π) = w.stamp k r := by
  unfold stamp
  rw [sameStanding_rename, show (w.rename π).lastSave (r.rename π).sid = _ from
    w.lastSave_rename π r.sid, show (w.rename π).journal = w.journal.map (Obs.rename π) from rfl,
    List.length_map]

theorem stored_rename (sid : Sid) : (w.rename π).stored (π sid) =
    (w.stored sid).map (Prod.map (SessionRecord.rename π) id) := by
  unfold stored
  rw [sess_rename, lastSave_rename]
  cases w.store.sess sid with
  | none => rfl
  | some e => cases w.lastSave sid <;> rfl

theorem save_rename (k : ConnKey) (req : SaveReq) : save k (req.rename π) (w.rename π) =
    ((), (save k req w).2.rename π) := by
  have hw : ({ w.rename π with
      store := ((w.rename π).store.saveSession (req.rename π).record req.expireAt).2
      lastSave := Function.update (w.rename π).lastSave (π req.record.sid)
        (some ((w.rename π).stamp k (req.rename π).record)) } : World) =
      World.rename π { w with
        store := (w.store.saveSession req.record req.expireAt).2
        lastSave := Function.update w.lastSave req.record.sid
          (some (w.stamp k req.record)) } := by
    rw [show (w.rename π).store.saveSession (req.rename π).record req.expireAt = _ from
      w.store.saveSession_rename π req.record req.expireAt,
      show (w.rename π).stamp k (req.rename π).record = _ from w.stamp_rename π k req.record,
      show (w.rename π).lastSave = Function.extend π w.lastSave fun _ => none from rfl,
      ← extend_update]
    rfl
  unfold save
  rw [show ({ w.rename π with
      store := ((w.rename π).store.saveSession (req.rename π).record (req.rename π).expireAt).2
      lastSave := Function.update (w.rename π).lastSave (req.rename π).record.sid
        (some ((w.rename π).stamp k (req.rename π).record)) } : World) = _ from hw,
    show (w.rename π).stored (req.rename π).record.sid = _ from w.stored_rename π req.record.sid]
  exact congrArg (Prod.mk ())
    (record_rename π _ (.saved k req.record (w.stored req.record.sid)))

theorem rev_rename (sid : Sid) : (w.rename π).rev (π sid) = w.rev sid := by
  unfold rev
  rw [lastSave_rename]

theorem load_rename (now : ℤ) (sid : Sid) : load now (π sid) (w.rename π) =
    ((load now sid w).1.map (SessionRecord.rename π), (load now sid w).2.rename π) := by
  unfold load
  rw [show (w.rename π).store = w.store.rename π from rfl, Store.getSession_rename, rev_rename]
  dsimp only
  rw [Option.map_map, Option.map_map]
  rfl

theorem link_rename (token : Token) (sid : Sid) (expireAt : ℤ) :
    link token (π sid) expireAt (w.rename π) = ((), (link token sid expireAt w).2.rename π) := by
  unfold link
  rw [onStore_same π w (f := fun s => s.setResume (hashToken token) sid expireAt)
    (w.store.setResume_rename π (hashToken token) sid expireAt)]
  exact congrArg (Prod.mk ()) (record_rename π _ (.linked token sid))

theorem append_rename (now : ℤ) (keep : ℕ) (k : ConnKey) (n : ℕ) (l : SendLocals)
    (room : DailyRoom) (m : StoredMessage) :
    append now keep k n (l.rename π) room (m.rename π) (w.rename π) =
      ((), (append now keep k n l room m w).2.rename π) := by
  unfold append
  rw [onStore_same π w (f := fun s => s.appendMessage now room.roomId m keep room.endsAt)
    (w.store.appendMessage_rename π now room.roomId m keep room.endsAt)]
  exact congrArg (Prod.mk ()) (record_rename π _ (.appended k n l room.roomId m))

theorem publish_rename (e : BusEvent) :
    publish (e.rename π) (w.rename π) = ((), (publish e w).2.rename π) := by
  unfold publish rename
  rw [List.map_append, List.map_map]
  rfl

theorem publishSend_rename (k : ConnKey) (n : ℕ) (l : SendLocals) (m : BusMessage) :
    publishSend k n (l.rename π) m (w.rename π) = ((), (publishSend k n l m w).2.rename π) := by
  unfold publishSend
  rw [show publish (.message m) (w.rename π) = _ from publish_rename π w (.message m)]
  exact congrArg (Prod.mk ()) (record_rename π _ (.published k n l m w.subscribers))

end World

variable {now : ℤ} {v : Bool} {k : ConnKey} {n : ℕ} {info : AdmitInfo} {o : Outcome} {w : World}

theorem CreatePc.settle_rename (p : CreatePc) : (p.rename π).settle now k o (w.rename π) =
    (p.settle now k o w).map (Prod.map (CreatePc.rename π) (World.rename π)) := by
  cases p with
  | claim room input sid i candidate p =>
      exact Promise.settle_keep (World.onStore_same π w
        (w.store.claimName_rename π now room.roomId candidate sid room.endsAt)) fun _ => rfl
  | save room record token p =>
      exact Promise.settle_keep (World.save_rename π w k ⟨record, room.endsAt⟩) fun _ => rfl
  | link room record token saved p =>
      exact Promise.settle_keep (World.link_rename π w token record.sid room.endsAt) fun _ => rfl

theorem ResumePc.settle_rename (p : ResumePc) : (p.rename π).settle now o (w.rename π) =
    (p.settle now o w).map (Prod.map (ResumePc.rename π) (World.rename π)) := by
  cases p with
  | resolve room token p =>
      exact Promise.settle_hold (World.onStore_rename π w
        (w.store.resolveResume_rename π now (hashToken token))) fun _ => rfl
  | load room sid p => exact Promise.settle_hold (World.load_rename π w now sid) fun _ => rfl

/-- A function that waits for another one. -/
theorem settle_within {α β γ δ : Type} {r : Option (α × World)} {r' : Option (β × World)}
    {ρ : α → β} {hold : α → γ} {hold' : β → δ} {ρ' : γ → δ} {W : World → World}
    (h : r' = r.map (Prod.map ρ W)) (hh : ∀ q, hold' (ρ q) = ρ' (hold q)) :
    r'.map (fun r => (hold' r.1, r.2)) = (r.map fun r => (hold r.1, r.2)).map (Prod.map ρ' W) := by
  rw [h, Option.map_map, Option.map_map]
  congr 1
  funext x
  exact Prod.ext (hh x.1) rfl

variable {env : Env}

theorem JoinPc.settle_rename (p : JoinPc) :
    (p.rename π).settle (env.rename π) now k info o (w.rename π) =
      (p.settle env now k info o w).map (Prod.map (JoinPc.rename π) (World.rename π)) := by
  cases p with
  | resume j token r => exact settle_within (r.settle_rename π) fun _ => rfl
  | rejoin j record token p =>
      exact Promise.settle_keep (World.onStore_same π w
        (w.store.hit_rename π now (.rejoin record.sid) 300000)) fun _ => rfl
  | newsess j room p =>
      exact Promise.settle_keep (World.onStore_same π w
        (w.store.hit_rename π now (.newsess info.net.dailyHash) 3600000)) fun _ => rfl
  | create j c => exact settle_within (c.settle_rename π) fun _ => rfl
  | block j record token p =>
      exact Promise.settle_keep (World.onStore_same π w
        (w.store.blockTtl_rename π now (.sess record.sid))) fun _ => rfl
  | history j record token room p =>
      exact Promise.settle_hold (World.onStore_rename π w
        (w.store.recentMessages_rename π now room.roomId env.config.historyLimit)) fun _ => rfl

theorem settleSave_rename (req : Option SaveReq) (p : Promise Unit) :
    settleSave k o (req.map (SaveReq.rename π)) p (w.rename π) =
      (settleSave k o req p w).map (Prod.map id (World.rename π)) := by
  cases req with
  | none => rfl
  | some q =>
      have h := Promise.settle_map (p := p) (o := o) (φ := id) (World.save_rename π w k q)
      rwa [Promise.map_id, show (Promise.map id : Promise Unit → Promise Unit) = id from
        funext Promise.map_id] at h

theorem BlockPc.settle_rename (b : BlockPc) : (b.rename π).settle now k info o (w.rename π) =
    (b.settle now k info o w).map (Prod.map (BlockPc.rename π) (World.rename π)) := by
  cases b with
  | sess b p =>
      exact Promise.settle_keep (World.onStore_same π w
        (w.store.setBlock_rename π now (.sess b.record.sid) b.ttl b.reason)) fun _ => rfl
  | net b netTtl p =>
      exact Promise.settle_keep (World.onStore_same π w
        (w.store.setBlock_rename π now (.net info.net.blockHash) netTtl b.reason)) fun _ => rfl
  | save b req p => exact settle_within (settleSave_rename π req p) fun _ => rfl

theorem EscalatePc.settle_rename (e : EscalatePc) :
    (e.rename π).settle now k info o (w.rename π) =
      (e.settle now k info o w).map (Prod.map (EscalatePc.rename π) (World.rename π)) := by
  cases e with
  | returned => rfl
  | challenge req p => exact settle_within (settleSave_rename π req p) fun _ => rfl
  | block b => exact settle_within (b.settle_rename π) fun _ => rfl

theorem SendPc.settle_rename (p : SendPc) :
    (p.rename π).settle (env.rename π) now k n info o (w.rename π) =
      (p.settle env now k n info o w).map (Prod.map (SendPc.rename π) (World.rename π)) := by
  cases p with
  | hit l p =>
      exact Promise.settle_keep (World.onStore_same π w
        (w.store.hit_rename π now (.ipmsg info.net.dailyHash) 10000)) fun _ => rfl
  | dup l p =>
      exact Promise.settle_keep (World.onStore_same π w
        (w.store.addToSet_rename π now _ l.record.sid 30000)) fun _ => rfl
  | escalate l site e => exact settle_within (e.settle_rename π) fun _ => rfl
  | append l room m p =>
      exact Promise.settle_keep
        (World.append_rename π w now env.config.historyLimit k n l room m) fun _ => rfl
  | publish l room m p =>
      exact Promise.settle_keep
        (World.publishSend_rename π w k n l (busMessage k room m)) fun _ => rfl
  | reply => rfl

theorem ChallengePc.settle_rename (p : ChallengePc) :
    (p.rename π).settle now v k info o (w.rename π) =
      (p.settle now v k info o w).map (Prod.map (ChallengePc.rename π) (World.rename π)) := by
  cases p with
  | verify token record t p => exact Promise.settle_keep rfl fun _ => rfl
  | passed req p => exact settle_within (settleSave_rename π req p) fun _ => rfl
  | failed req p => exact settle_within (settleSave_rename π req p) fun _ => rfl
  | block b => exact settle_within (b.settle_rename π) fun _ => rfl

theorem ReportPc.settle_rename (p : ReportPc) :
    (p.rename π).settle (env.rename π) now o (w.rename π) =
      (p.settle env now o w).map (Prod.map (ReportPc.rename π) (World.rename π)) := by
  cases p with
  | hit record id reason p =>
      exact Promise.settle_keep (World.onStore_same π w
        (w.store.hit_rename π now (.report record.sid) 3600000)) fun _ => rfl
  | recent record id reason roomId p =>
      exact Promise.settle_hold (World.onStore_rename π w
        (w.store.recentMessages_rename π now roomId env.config.historyLimit)) fun _ => rfl
  | event id e p =>
      exact Promise.settle_keep (World.onStore_same π w
        (w.store.addAbuseEvent_rename π now e (30 * dayMs))) fun _ => rfl

theorem Handler.settle_rename (h : Handler) :
    (h.rename π).settle (env.rename π) now v k n info o (w.rename π) =
      (h.settle env now v k n info o w).map (Prod.map (Handler.rename π) (World.rename π)) := by
  cases h with
  | join p => exact settle_within (p.settle_rename π) fun _ => rfl
  | send p => exact settle_within (p.settle_rename π) fun _ => rfl
  | challenge p => exact settle_within (p.settle_rename π) fun _ => rfl
  | report p => exact settle_within (p.settle_rename π) fun _ => rfl

theorem RolloverPc.settle_rename (p : RolloverPc) : (p.rename π).settle now k o (w.rename π) =
    (p.settle now k o w).map (Prod.map (RolloverPc.rename π) (World.rename π)) :=
  settle_within (p.create.settle_rename π) fun _ => rfl

theorem RollingPc.settle_rename (p : RollingPc) : p.settle now o (w.rename π) =
    (p.settle now o w).map (Prod.map id (World.rename π)) := by
  cases p with
  | acquire prev next p =>
      exact Promise.settle_keep (World.onStore_same π w
        (w.store.acquireOnce_rename π now _ 3600000)) fun _ => rfl
  | cleanup prev next p =>
      exact Promise.settle_keep (World.onStore_same π w
        (w.store.deleteRoom_rename π prev.roomId)) fun _ => rfl
  | log prev next p =>
      exact Promise.settle_keep (World.onStore_same π w
        (w.store.addAbuseEvent_rename π now (.roomReset prev.roomId next.roomId) (7 * dayMs)))
        fun _ => rfl
  | batch => rfl
  | breathe => rfl

theorem UpgradePc.settle_rename (p : UpgradePc) : p.settle now info o (w.rename π) =
    (p.settle now info o w).map (Prod.map id (World.rename π)) := by
  cases p with
  | netBlock p =>
      exact Promise.settle_keep (World.onStore_same π w
        (w.store.blockTtl_rename π now (.net info.net.blockHash))) fun _ => rfl
  | backoff b p =>
      exact Promise.settle_keep (World.onStore_same π w
        (w.store.blockTtl_rename π now (.cbo info.net.dailyHash))) fun _ => rfl
  | attempts p =>
      exact Promise.settle_keep (World.onStore_same π w
        (w.store.hit_rename π now (.conn info.net.dailyHash) 60000)) fun _ => rfl
  | floods p =>
      exact Promise.settle_keep (World.onStore_same π w
        (w.store.hit_rename π now (.connx info.net.dailyHash) 3600000)) fun _ => rfl
  | penalty n p =>
      exact Promise.settle_keep (World.onStore_same π w
        (w.store.setBlock_rename π now (.cbo info.net.dailyHash) _ "connect_flood")) fun _ => rfl
  | _ => rfl

theorem AdminPc.settle_rename {i : InstanceId} (a : AdminPc) :
    (a.rename π).settle (env.rename π) now i o (w.rename π) =
      (a.settle env now i o w).map (Prod.map (AdminPc.rename π) (World.rename π)) := by
  cases a with
  | owner b name roomId p =>
      exact Promise.settle_hold (World.onStore_rename π w
        (w.store.nameOwner_rename π now roomId name)) fun _ => rfl
  | recent b roomId p =>
      exact Promise.settle_hold (World.onStore_rename π w
        (w.store.recentMessages_rename π now roomId env.config.historyLimit)) fun _ => rfl
  | block b sid p =>
      exact Promise.settle_keep (World.onStore_same π w
        (w.store.setBlock_rename π now (.sess sid) _ _)) fun _ => rfl
  | kick b sid p =>
      exact Promise.settle_keep (World.publish_rename π w (.kick i sid b.reason)) fun _ => rfl
  | log b sid p =>
      exact Promise.settle_keep (World.onStore_same π w
        (w.store.addAbuseEvent_rename π now (.adminBlock (env.logTag sid) b.minutes b.reason)
          (30 * dayMs))) fun _ => rfl
  | unblockOwner name roomId p =>
      exact Promise.settle_hold (World.onStore_rename π w
        (w.store.nameOwner_rename π now roomId name)) fun _ => rfl
  | unblock sid p =>
      exact Promise.settle_keep (World.onStore_same π w
        (w.store.deleteBlock_rename π (.sess sid))) fun _ => rfl

theorem Task.settle_rename (b : Task) :
    (b.rename π).settle (env.rename π) now o (w.rename π) =
      (b.settle env now o w).map (Prod.map (Task.rename π) (World.rename π)) := by
  cases b with
  | persist k req p => exact Promise.settle_keep (World.save_rename π w k req) fun _ => rfl
  | admin i a => exact settle_within (a.settle_rename π) fun _ => rfl

theorem Chore.settle_rename (b : Chore) : (b.rename π).settle now v o (w.rename π) =
    (b.settle now v o w).map (Prod.map (Chore.rename π) (World.rename π)) := by
  cases b with
  | verify k token p => exact Promise.settle_keep rfl fun _ => rfl
  | abuse e retentionMs p =>
      exact Promise.settle_keep (World.onStore_same π w
        (w.store.addAbuseEvent_rename π now e retentionMs)) fun _ => rfl
  | reportPresence i ts count p =>
      exact Promise.settle_keep (World.onStore_same π w rfl) fun _ => rfl
  | totalPresence i ts p => exact Promise.settle_keep (World.onStore_same π w rfl) fun _ => rfl
  | removePresence i p => exact Promise.settle_keep (World.onStore_same π w rfl) fun _ => rfl

end operations

end RoomBackend
