import RoomBackend.Quiet

/-! # Frames handed to the sockets

`Talks P L s t`: between `s` and `t` every connection `k` was handed frames that satisfy `P k`, and
its socket was closed or left alone; its limiter was changed by changes that `L k` allows. Frames
about one client's own requests are private; the others (welcome, reset, messages, presence) are
frames of the room, and the hypotheses below say where each of them comes from. Only private
frames are cached as replies. -/

namespace RoomBackend

open Async Day RateLimit Suspicion Lts

/-! ### What a connection does to its limiter -/

namespace Limiter

variable (env : Env) (now : ℤ) (x : Limiter)

/-- A token is taken, if there is one. -/
def take : Limiter := { x with bucket := (x.bucket.take env.round now 1).2 }

/-- A refusal is a strike. -/
def strike (wait : ℤ) : Limiter :=
  let strikes := (if now - x.lastStrikeAt > 60000 then 0 else x.strikes) + 1
  { x with
    strikes := strikes
    lastStrikeAt := now
    cooldownUntil := now + max wait (violationCooldownMs strikes) }

/-- The score of a connection that takes up a session with the suspicion it carries. -/
def carry (r : SessionRecord) : SuspicionScore :=
  let stored := SuspicionScore.value env.halfPow ⟨r.suspicion, r.suspicionAt⟩ now
  let v := x.score.value env.halfPow now
  if stored > v then x.score.add env.halfPow (stored - v) now false else x.score

/-- A session is taken up. -/
def enter (r : SessionRecord) : Limiter := applyTier env now { x with score := x.carry env now r }

/-- A challenge is passed. -/
def pass : Limiter :=
  let y := applyTier env now
    { x with score := SuspicionScore.reset now, strikes := 0, cooldownUntil := 0 }
  { y with bucket := TokenBucket.new y.tier.capacity y.tier.refillPerSec now }

/-- A verification in the background succeeds. -/
def verify : Limiter := { x with score := x.score.add env.halfPow (-15) now false }

end Limiter

/-- What `joinEnter` does to the conduct of a connection. -/
theorem Conduct.limiter_enter (env : Env) (c : Conduct) (now : ℤ) (r : SessionRecord) :
    (({ (if SuspicionScore.value env.halfPow ⟨r.suspicion, r.suspicionAt⟩ now >
          c.score.value env.halfPow now then
        { c with score := c.score.add env.halfPow (SuspicionScore.value env.halfPow
          ⟨r.suspicion, r.suspicionAt⟩ now - c.score.value env.halfPow now) now false }
        else c : Conduct) with joinedAt := now, joinTimer := false } : Conduct).applyTier env
      now).limiter = c.limiter.enter env now r := by
  rw [limiter_applyTier]
  unfold Limiter.enter Limiter.carry
  congr 1
  by_cases hv : SuspicionScore.value env.halfPow ⟨r.suspicion, r.suspicionAt⟩ now >
      c.score.value env.halfPow now
  · rw [if_pos hv]
    exact congrArg (fun z => { c.limiter with score := z }) (if_pos hv).symm
  · rw [if_neg hv]
    exact congrArg (fun z => { c.limiter with score := z }) (if_neg hv).symm

/-! ### Frames -/

/-- The messages a frame delivers live. -/
def ServerEvent.live : ServerEvent → List ChatMessage
  | .message m => [m]
  | .messages ms => ms
  | _ => []

theorem ServerEvent.live_of_private {e : ServerEvent} (h : e.shared = false) : e.live = [] := by
  cases e with
  | message m => cases h
  | messages ms => cases h
  | _ => rfl

/-- `y` comes from `x` by handing the socket frames that satisfy `P`, by closing the socket, by
changes of the limiter that satisfy `L`, and by changes that leave both alone and cache private
replies only. -/
inductive Side.Moves (P : ServerEvent → Prop) (L : Limiter → Limiter → Prop) (x : Side) :
    Side → Prop
  | refl : Moves P L x x
  | send {y : Side} {e : ServerEvent} (h : Moves P L x y) (he : P e) :
      Moves P L x { y with socket := y.socket.sendRaw e }
  | shut {y : Side} {z : Socket} (h : Moves P L x y) (hs : z.sent = y.socket.sent)
      (ho : z.state = .opened → y.socket.state = .opened) : Moves P L x { y with socket := z }
  | other {y z : Side} (h : Moves P L x y) (hs : z.socket = y.socket)
      (hr : ∀ p ∈ z.conduct.replies, p ∈ y.conduct.replies ∨ p.2.shared = false)
      (hl : z.conduct.limiter = y.conduct.limiter ∨ L y.conduct.limiter z.conduct.limiter) :
      Moves P L x z

/-- Every cached reply is private. -/
def Side.Plain (x : Side) : Prop := ∀ p ∈ x.conduct.replies, p.2.shared = false

theorem Side.Moves.plain {P : ServerEvent → Prop} {L : Limiter → Limiter → Prop} {x y : Side}
    (h : Moves P L x y) (hx : x.Plain) : y.Plain := by
  induction h with
  | refl => exact hx
  | send h he ih => exact ih
  | shut h hs ho ih => exact ih
  | other h hs hr hl ih =>
      intro p hp
      rcases hr p hp with hm | hm
      · exact ih p hm
      · exact hm

/-- Between `s` and `t` the sockets were handed frames that satisfy `P`, private ones included. -/
structure Sys.Talks (P : ConnKey → ServerEvent → Prop) (L : ConnKey → Limiter → Limiter → Prop)
    (s t : Sys) : Prop where
  own : ∀ k e, e.shared = false → P k e
  moves : ∀ k, Side.Moves (P k) (L k) (s.side k) (t.side k)

/-! ### Cached replies -/

theorem Conduct.applyTier_replies {env : Env} {c : Conduct} {now : ℤ} :
    (c.applyTier env now).replies = c.replies := by
  unfold applyTier
  dsimp only
  split_ifs <;> rfl

theorem Conduct.signal_replies {env : Env} {c : Conduct} {now : ℤ} {trusted hasRecord : Bool}
    {name : Signal} : (c.signal env now trusted hasRecord name).replies = c.replies := by
  unfold signal
  dsimp only
  rw [(spares_persistSoon _ _).replies, applyTier_replies]

/-- What a cached reply is: an old one, or the new one. -/
theorem Sys.mem_cacheReply {replies : List (String × ServerEvent)} {clientId : String}
    {r : ServerEvent} {p : String × ServerEvent}
    (h : p ∈ Sys.cacheReply replies clientId r) : p ∈ replies ∨ p = (clientId, r) := by
  have hm : p ∈ (if replies.any (fun p => p.1 = clientId) then
      replies.map fun p => if p.1 = clientId then (clientId, r) else p
      else replies ++ [(clientId, r)]) := by
    unfold Sys.cacheReply at h
    generalize (if replies.any (fun p => p.1 = clientId) then
      replies.map fun p => if p.1 = clientId then (clientId, r) else p
      else replies ++ [(clientId, r)]) = l at h ⊢
    dsimp only at h
    by_cases hl : l.length > 64
    · rw [if_pos hl] at h
      exact List.mem_of_mem_tail h
    · rwa [if_neg hl] at h
  split at hm
  · obtain ⟨q, hq, rfl⟩ := List.mem_map.mp hm
    split
    · exact Or.inr rfl
    · exact Or.inl hq
  · rcases List.mem_append.mp hm with hm | hm
    · exact Or.inl hm
    · exact Or.inr (List.mem_singleton.mp hm)

/-- Who receives a flush does not depend on the outbox. -/
theorem Core.receives_flushOutbox (c : Core) (i : InstanceId) (k : ConnKey) :
    (c.flushOutbox i).receives i k = c.receives i k := by
  have hroom : ((c.flushOutbox i).srv i).room = (c.srv i).room := by
    unfold Core.flushOutbox Core.updSrv
    dsimp only
    rw [Function.update_self]
  unfold Core.receives
  simp only [hroom]
  rfl

namespace Sys.Talks

variable {P : ConnKey → ServerEvent → Prop} {L : ConnKey → Limiter → Limiter → Prop}
variable {s t u : Sys} {k : ConnKey} {env : Env}

theorem refl (hP : ∀ k e, e.shared = false → P k e) (s : Sys) : Talks P L s s :=
  ⟨hP, fun _ => .refl⟩

/-- A change of anything but the sides. -/
theorem of_side (h : Talks P L s t) (hu : u.side = t.side) : Talks P L s u := by
  refine ⟨h.own, fun k => ?_⟩
  rw [hu]
  exact h.moves k

theorem updSide (h : Talks P L s t) {f : Side → Side}
    (hf : Side.Moves (P k) (L k) (s.side k) (t.side k) →
      Side.Moves (P k) (L k) (s.side k) (f (t.side k))) : Talks P L s (t.updSide k f) := by
  refine ⟨h.own, fun j => ?_⟩
  unfold Sys.updSide
  dsimp only
  by_cases hj : j = k
  · subst hj
    rw [Function.update_self]
    exact hf (h.moves j)
  · rw [Function.update_of_ne hj]
    exact h.moves j

/-- A change of a side that leaves its socket and the cached replies alone. -/
theorem tune (h : Talks P L s t) {f : Side → Side} (hf : ∀ d, (f d).socket = d.socket)
    (hr : ∀ d, (f d).conduct.replies = d.conduct.replies)
    (hl : (f (t.side k)).conduct.limiter = (t.side k).conduct.limiter ∨
      L k (t.side k).conduct.limiter (f (t.side k)).conduct.limiter) :
    Talks P L s (t.updSide k f) :=
  h.updSide fun hm => hm.other (hf _) (fun p hp => Or.inl (by rwa [hr] at hp)) hl

/-- A change of a side that leaves its socket, its limiter and the cached replies alone. -/
theorem updOther (h : Talks P L s t) {f : Side → Side} (hf : ∀ d, (f d).socket = d.socket)
    (hr : ∀ d, ∀ p ∈ (f d).conduct.replies, p ∈ d.conduct.replies)
    (hl : ∀ d, (f d).conduct.limiter = d.conduct.limiter) : Talks P L s (t.updSide k f) :=
  h.updSide fun hm => hm.other (hf _) (fun p hp => Or.inl (hr _ p hp)) (Or.inl (hl _))

/-- Quiet changes, the suspicion points of one connection among them. -/
theorem moved {j : Option (Env × ConnKey)} (h : Talks P L s t) (hq : Quiet j t u)
    (hL : ∀ env k, j = some (env, k) → ∀ x trusted name,
      L k x (x.signal env t.clock trusted name)) : Talks P L s u := by
  induction hq with
  | refl => exact h
  | state _ hc hu ih => exact ih.of_side hu
  | updSide _ hf ih =>
      refine ih.updOther (fun d => (hf d).socket) ?_ fun d => (hf d).conduct.limiter
      exact fun d p hp => by rwa [(hf d).conduct.replies] at hp
  | @signal env u k hj hu name ih =>
      refine ih.tune (f := fun d => { d with
        conduct := d.conduct.signal env u.clock ((u.conn k).trusted u.clock)
          (u.conn k).record.isSome name }) (fun _ => rfl) ?_ ?_
      · exact fun d => Conduct.signal_replies
      · refine Or.inr ?_
        dsimp only
        rw [Conduct.limiter_signal, hu.clock]
        exact hL env k hj _ _ _
  | send _ e he ih =>
      exact ih.updSide (f := fun d => { d with socket := d.socket.sendRaw e })
        fun hm => hm.send (h.own _ e he)
  | cache _ hr ih =>
      refine ih.updSide fun hm => hm.other rfl (fun p hp => ?_) (Or.inl rfl)
      rcases Sys.mem_cacheReply hp with hm | rfl
      · exact Or.inl hm
      · exact Or.inr hr
  | shut _ hg ih => exact ih.updSide fun hm => hm.shut (hg _).sent (hg _).opened

/-- The methods that do no more than quiet changes. -/
theorem quiet (h : Talks P L s t) (hq : Quiet none t u) : Talks P L s u :=
  h.moved hq fun _ _ hj => by cases hj

/-- Those that signal. -/
theorem tuned (h : Talks P L s t) (hq : Quiet (some (env, k)) t u)
    (hL : ∀ x trusted name, L k x (x.signal env t.clock trusted name)) : Talks P L s u :=
  h.moved hq fun _ _ hj => by
    cases hj
    exact hL

section basic

variable (h : Talks P L s t)
include h

theorem onCore (f : Core → Core) : Talks P L s (t.onCore f) := h.of_side rfl

/-- A frame that satisfies `P` is handed to the socket. -/
theorem hand (e : ServerEvent) (he : P k e) : Talks P L s (t.send k e) :=
  h.updSide (f := fun d => { d with socket := d.socket.sendRaw e }) fun hm => hm.send he

theorem announce (a : Announcement) (ha : P k (t.announcementFrame env k a)) :
    Talks P L s (t.announce env k a) := (h.onCore _).hand _ ha

/-! ### Joining and midnight -/

theorem joinEnter (j : JoinCtx) (r : SessionRecord) (token : Token)
    (hL : ∀ x, L k x (x.enter env j.now r)) : Talks P L s (t.joinEnter env k j r token) := by
  refine ((h.tune ?_ ?_ ?_).onCore _).quiet (Quiet.refl.suspend _)
  · exact fun _ => rfl
  · intro d
    dsimp only
    rw [Conduct.applyTier_replies]
    dsimp only
    split <;> rfl
  · refine Or.inr (cast ?_ (hL (t.side k).conduct.limiter))
    exact congrArg _ (Conduct.limiter_enter env (t.side k).conduct j.now r).symm

theorem joinWelcome (j : JoinCtx) (r : SessionIdent) (token : Token) (room : DailyRoom)
    (history : List StoredMessage)
    (hw : P k (t.announcementFrame env k (.welcome r token room history)))
    (hL : ∀ x trusted name, L k x (x.signal env t.clock trusted name)) :
    Talks P L s (t.joinWelcome env k j r token room history) :=
  (h.announce _ hw).tuned (.joinWelcome j r token room history) hL

theorem rolloverEnter (p : RolloverPc) (prev : DailyRoom) (r : SessionRecord) (token : Token)
    (hr : P k (t.announcementFrame env k (.reset r.toSessionIdent token p.next))) :
    Talks P L s (t.rolloverEnter env k p prev r token) := by
  unfold Sys.rolloverEnter
  dsimp only
  split
  · refine (((h.updOther ?_ ?_ ?_).onCore _).hand _ hr).quiet (Quiet.refl.sendChallenge true)
    · exact fun _ => rfl
    · exact fun _ p hp => absurd hp List.not_mem_nil
    · exact fun _ => rfl
  · refine ((h.updOther ?_ ?_ ?_).onCore _).hand _ hr
    · exact fun _ => rfl
    · exact fun _ p hp => absurd hp List.not_mem_nil
    · exact fun _ => rfl

/-! ### Sending -/

theorem decideRate (l : SendLocals)
    (hL : ∀ x trusted name, L k x (x.signal env t.clock trusted name))
    (ht : ∀ x, L k x (x.take env l.now)) (hs : ∀ x wait, L k x (x.strike l.now wait)) :
    Talks P L s (t.decideRate env k l) := by
  unfold Sys.decideRate
  dsimp only
  split
  · split
    · have hc := Quiet.refl.updConduct (j := some (env, k)) (t := t) (k := k)
        (fun c => { c with lastIgnoredSignal := l.now }) fun _ => ⟨rfl, rfl⟩
      exact h.tuned ((hc.signal rfl _).decideEscalate _ _) hL
    · exact h.quiet (Quiet.refl.decided _ _)
  · have htake : Talks P L s (t.updConduct k fun c =>
        { c with bucket := ((t.side k).conduct.bucket.take env.round l.now 1).2 }) :=
      h.tune (fun _ => rfl) (fun _ => rfl) (Or.inr (ht (t.side k).conduct.limiter))
    split
    · have hside : (t.updConduct k fun c =>
          { c with bucket := ((t.side k).conduct.bucket.take env.round l.now 1).2 }).side k =
          { t.side k with conduct := { (t.side k).conduct with
            bucket := ((t.side k).conduct.bucket.take env.round l.now 1).2 } } :=
        Function.update_self _ _ _
      refine Talks.tuned (k := k) (htake.tune ?_ ?_ (Or.inr ?_))
        ((Quiet.refl.signal rfl _).decideEscalate _ _) hL
      · exact fun _ => rfl
      · exact fun _ => rfl
      · rw [hside]
        exact hs ((t.side k).conduct.limiter.take env l.now) _
    · exact htake.quiet (Quiet.refl.suspend _)

section frame

variable (hL : ∀ x trusted name, L k x (x.signal env t.clock trusted name))
variable (ht : ∀ x, L k x (x.take env t.clock)) (hs : ∀ x wait, L k x (x.strike t.clock wait))
include hL ht hs

theorem decideSend (e : SendEvent) (r : SessionIdent) :
    Talks P L s (t.decideSend env k e r) := by
  unfold Sys.decideSend
  dsimp only
  split
  · exact (h.onCore _).quiet (Quiet.refl.decided _ _)
  · split
    · exact h.quiet (Quiet.refl.decided _ _)
    · split
      · exact h.quiet (Quiet.refl.decided _ _)
      · split
        · exact h.quiet (Quiet.refl.decided _ _)
        · split
          · exact h.quiet (Quiet.refl.decided _ _)
          · split
            · exact h.quiet ((Quiet.refl.sendChallenge false).decided _ _)
            · split
              · exact h.quiet (Quiet.refl.decided _ _)
              · exact h.decideRate _ hL ht hs

theorem handleSend (hp : (t.side k).Plain) (e : SendEvent) :
    Talks P L s (t.handleSend env k e) := by
  unfold Sys.handleSend
  dsimp only
  split
  · exact h.tuned ((Quiet.refl.signal rfl _).send _ (by rfl)).finish hL
  · split
    · exact h.tuned ((Quiet.refl.signal rfl _).send _ (by rfl)).finish hL
    · split
      · rename_i prior hprior
        exact h.quiet (Quiet.refl.send _ (hp prior (List.mem_of_find?_eq_some hprior))).finish
      · refine Talks.decideSend (h.onCore _) ?_ ?_ ?_ _ _
        · exact hL
        · exact ht
        · exact hs

/-! ### The other frames -/

theorem handle (hp : (t.side k).Plain) (raw : Raw) : Talks P L s (t.handle env k raw) := by
  unfold Sys.handle
  split
  · exact h.quiet Quiet.refl.finish
  · cases raw with
    | binary => exact h.tuned (Quiet.refl.invalid true).finish hL
    | notJson => exact h.tuned (Quiet.refl.invalid false).finish hL
    | notEvent => exact h.tuned (Quiet.refl.invalid false).finish hL
    | event e =>
        cases e with
        | join resume verification => exact h.onCore _
        | send e => exact h.handleSend hL ht hs hp e
        | challengeResponse token => exact h.quiet (Quiet.refl.challengeResponse token)
        | ping ts => exact h.tuned (Quiet.refl.ping ts) hL
        | report id reason => exact h.quiet (Quiet.refl.report id reason)

end frame

theorem challengePassed (r : SessionIdent) (now : ℤ) (hL : ∀ x, L k x (x.pass env now)) :
    Talks P L s (t.challengePassed env k r now) := by
  refine ((h.onCore _).tune ?_ ?_ ?_).quiet (Quiet.refl.persist.suspend _)
  · exact fun _ => rfl
  · exact fun _ => Conduct.applyTier_replies
  · refine Or.inr (cast ?_ (hL (t.side k).conduct.limiter))
    have ht := Conduct.limiter_applyTier env ({ (t.side k).conduct with
      score := SuspicionScore.reset now, strikes := 0, cooldownUntil := 0 } : Conduct) now
    unfold Limiter.pass
    congr 1
    exact congrArg (fun y : Limiter =>
      { y with bucket := TokenBucket.new y.tier.capacity y.tier.refillPerSec now }) ht.symm

/-! ### After an await -/

theorem joinResume {p : JoinPc} (hu : t.joinResume env k p = some u)
    (hw : ∀ j r token room q history, p = .history j r token room q → q.orElse [] = some history →
      P k (t.announcementFrame env k (.welcome r token room history)))
    (hL : ∀ x trusted name, L k x (x.signal env t.clock trusted name))
    (he : ∀ j record token q, p = .block j record token q → ∀ x, L k x (x.enter env j.now record)) :
    Talks P L s u := by
  cases p with
  | resume j token r =>
      obtain ⟨a, -, rfl⟩ := Option.map_eq_some_iff.mp hu
      exact h.onCore _
  | rejoin j record token p =>
      obtain ⟨a, -, rfl⟩ := Option.map_eq_some_iff.mp hu
      exact (h.tuned (Quiet.refl.signalIf _ _) hL).onCore _
  | newsess j room p =>
      obtain ⟨a, -, rfl⟩ := Option.map_eq_some_iff.mp hu
      split
      · exact h.quiet ((Quiet.refl.send _ (by rfl)).close _ _).finish
      · exact (h.tuned (Quiet.refl.signalIf _ _) hL).onCore _
  | create j c =>
      obtain ⟨a, -, rfl⟩ := Option.map_eq_some_iff.mp hu
      exact h.onCore _
  | block j record token p =>
      obtain ⟨a, -, rfl⟩ := Option.map_eq_some_iff.mp hu
      split
      · exact h.quiet (Quiet.refl.blocked _ _).finish
      · exact h.joinEnter _ _ _ (he j record token p rfl)
  | history j record token room p =>
      obtain ⟨a, ha, rfl⟩ := Option.map_eq_some_iff.mp hu
      exact h.joinWelcome _ _ _ _ _ (hw j record token room p a rfl ha) hL

theorem rolloverResume {prev : DailyRoom} {p : RolloverPc}
    (hu : t.rolloverResume env k prev p = some u)
    (hr : ∀ r token, P k (t.announcementFrame env k (.reset r token p.next))) : Talks P L s u := by
  obtain ⟨⟨r, d⟩, -, rfl⟩ := Option.map_eq_some_iff.mp hu
  have hd : Talks P L s { t with draws := d } := h.of_side rfl
  cases r with
  | wait c => exact hd.onCore _
  | done record token =>
      dsimp only
      split
      · exact hd.onCore _
      · exact hd.rolloverEnter _ _ _ _ (hr _ _)
  | threw => exact (hd.onCore _).quiet (Quiet.refl.close _ _)

theorem challengeResume {p : ChallengePc} (hu : t.challengeResume env k p = some u)
    (hL : ∀ token r now q, p = .verify token r now q → ∀ x, L k x (x.pass env now)) :
    Talks P L s u := by
  cases p with
  | verify token r now p =>
      obtain ⟨a, -, rfl⟩ := Option.map_eq_some_iff.mp hu
      split
      · exact h.quiet Quiet.refl.finish
      · split
        · exact h.challengePassed _ _ (hL token r now p rfl)
        · exact h.quiet (Quiet.refl.challengeFailed _)
  | passed req p =>
      obtain ⟨a, -, rfl⟩ := Option.map_eq_some_iff.mp hu
      exact h.quiet (Quiet.refl.send _ (by rfl)).finish
  | failed req p =>
      obtain ⟨a, -, rfl⟩ := Option.map_eq_some_iff.mp hu
      exact h.quiet Quiet.refl.finish
  | block b =>
      obtain ⟨r, hr, rfl⟩ := Option.map_eq_some_iff.mp hu
      have hb := h.quiet (Quiet.refl.tempBlockResume hr)
      split
      · exact hb.quiet (Quiet.refl.suspend _)
      · exact hb.quiet (Quiet.refl.tempBlockEnd _).finish

/-- What a handler may hand to its socket besides private frames: the welcome. -/
theorem handlerResume {x : Handler} (hu : t.handlerResume env k x = some u)
    (hw : ∀ j r token room q history, x = .join (.history j r token room q) →
      q.orElse [] = some history →
      P k (t.announcementFrame env k (.welcome r token room history)))
    (hr : ∀ e reply, x = .send (.reply e reply) → reply.shared = false)
    (hL : x.signals = true → ∀ y trusted name, L k y (y.signal env t.clock trusted name))
    (he : ∀ j record token q, x = .join (.block j record token q) →
      ∀ y, L k y (y.enter env j.now record))
    (hc : ∀ token r now q, x = .challenge (.verify token r now q) →
      ∀ y, L k y (y.pass env now)) : Talks P L s u := by
  cases x with
  | join p =>
      exact h.joinResume hu (fun j r token room q history hp => hw _ _ _ _ _ _ (by rw [hp]))
        (hL rfl) fun j record token q hp => he _ _ _ _ (by rw [hp])
  | send p =>
      have hreply : ∀ e reply, p = .reply e reply → reply.shared = false :=
        fun e reply hp => hr e reply (by rw [hp])
      by_cases hp : p.signals = true
      · exact h.tuned (Quiet.refl.sendResume hu hreply) (hL hp)
      · exact h.quiet (Quiet.refl.sendLater (Bool.not_eq_true _ ▸ hp) hu hreply)
  | challenge p =>
      exact h.challengeResume hu fun token r now q hp => hc _ _ _ _ (by rw [hp])
  | report p => exact h.quiet (Quiet.refl.reportResume hu)

end basic

/-! ### The room server -/

/-- A loop that leaves the shared state alone. -/
theorem forConns_core {i : InstanceId} {f : ConnKey → Sys → Sys} (c : Core)
    (hf : ∀ n {u : Sys}, u.toCore = c → Talks P L s u →
      Talks P L s (f ⟨i, n⟩ u) ∧ (f ⟨i, n⟩ u).toCore = c) :
    ∀ ns : List ℕ, ∀ {t : Sys}, t.toCore = c → Talks P L s t → Talks P L s (t.forConns i f ns)
  | [], _, _, h => h
  | n :: ns, _, ht, h => by
      obtain ⟨h', ht'⟩ := hf n ht h
      exact forConns_core c hf ns ht' h'

section server

variable (h : Talks P L s t) (i : InstanceId)
include h

theorem broadcastLocal (e : ServerEvent) (hp : ∀ k, (t.conn k).joined = true → P k e) :
    Talks P L s (t.broadcastLocal i e) := by
  refine forConns_core t.toCore (fun n u hu hT => ?_) _ rfl h
  split
  · rename_i hj
    rw [show u.conn = t.conn from congrArg Core.conn hu] at hj
    exact ⟨hT.hand e (hp _ hj), hu⟩
  · exact ⟨hT, hu⟩

theorem presenceTotal (total : ℤ)
    (hp : ∀ k, (t.conn k).joined = true → P k (.presence total)) :
    Talks P L s (t.presenceTotal i total) := by
  unfold Sys.presenceTotal
  split
  · refine broadcastLocal ?_ i _ ?_
    · exact h.of_side rfl
    · exact hp
  · exact h

theorem flushOutbox (hf : ∀ n e, t.batch i ≠ [] → t.receives i ⟨i, n⟩ = true →
    flushFrame (t.batch i) ⟨i, n⟩ = some e → P ⟨i, n⟩ e) : Talks P L s (t.flushOutbox i) := by
  unfold Sys.flushOutbox
  dsimp only
  split
  · exact h.onCore _
  · rename_i hb
    refine forConns_core (t.toCore.flushOutbox i) (fun n u hu hT => ?_) _ rfl (h.onCore _)
    have hrec : u.receives i ⟨i, n⟩ = t.receives i ⟨i, n⟩ := by
      rw [hu]
      exact t.toCore.receives_flushOutbox i ⟨i, n⟩
    split
    · rename_i hr
      split
      · exact ⟨hT, hu⟩
      · rename_i e he
        exact ⟨hT.hand e (hf n e hb (hrec.symm.trans hr) he), hu⟩
    · exact ⟨hT, hu⟩

theorem choreResume {n : ℕ} {b : Chore} (hu : t.choreResume env n b = some u)
    (hp : ∀ k total, (t.conn k).joined = true → P k (.presence total))
    (hL : ∀ k token, b = .verify k token (.fulfilled false) →
      ∀ x trusted name, L k x (x.signal env t.clock trusted name))
    (hv : ∀ k token, b = .verify k token (.fulfilled true) → ∀ x, L k x (x.verify env t.clock)) :
    Talks P L s u := by
  have hdone : Talks P L s (t.choreDone n) := h.of_side rfl
  cases b with
  | verify k token p =>
      cases p with
      | pending => cases hu
      | rejected =>
          cases hu
          exact hdone
      | fulfilled ok =>
          cases ok with
          | true =>
              cases hu
              exact hdone.tune (fun _ => rfl) (fun _ => rfl)
                (Or.inr (hv k token rfl (t.side k).conduct.limiter))
          | false =>
              cases hu
              exact hdone.tuned (Quiet.refl.signal rfl _) (hL k token rfl)
  | abuse e retentionMs p =>
      obtain ⟨a, -, rfl⟩ := Option.map_eq_some_iff.mp hu
      exact hdone
  | reportPresence i now count p =>
      cases p with
      | pending => cases hu
      | rejected =>
          cases hu
          exact hdone
      | fulfilled a =>
          cases hu
          exact h.of_side rfl
  | totalPresence i now p =>
      cases p with
      | pending => cases hu
      | rejected =>
          cases hu
          exact hdone
      | fulfilled total =>
          cases hu
          exact hdone.presenceTotal _ _ fun k => hp k total
  | removePresence i p =>
      obtain ⟨a, -, rfl⟩ := Option.map_eq_some_iff.mp hu
      exact hdone.of_side rfl

theorem taskResume {n : ℕ} {b : Task} (hu : t.taskResume n b = some u) : Talks P L s u := by
  cases b with
  | persist k req p =>
      obtain ⟨a, -, rfl⟩ := Option.map_eq_some_iff.mp hu
      exact h.onCore _
  | admin i a =>
      obtain ⟨a, -, rfl⟩ := Option.map_eq_some_iff.mp hu
      exact h.onCore _

theorem settle {o : Outcome} {v : Bool} {th : Thread} (hu : t.settle env o v th = some u) :
    Talks P L s u := by
  cases th with
  | chore n =>
      obtain ⟨b, -, hu⟩ := Option.bind_eq_some_iff.mp hu
      obtain ⟨r, -, rfl⟩ := Option.map_eq_some_iff.mp hu
      exact h.of_side rfl
  | _ =>
      obtain ⟨c, -, rfl⟩ := Option.map_eq_some_iff.mp hu
      exact h.of_side rfl

end server

end Sys.Talks

/-! ### Steps -/

namespace Sys

variable {env : Env} {s t : Sys} {l : Label}

/-- The frames a step may hand to connection `k`: private ones, and frames of the room. -/
inductive Hands (env : Env) (s : Sys) (l : Label) (k : ConnKey) (e : ServerEvent) : Prop
  | own (h : e.shared = false)
  | welcome {j : JoinCtx} {r : SessionIdent} {token : Token} {room : DailyRoom}
      {q : Promise (List StoredMessage)} {history : List StoredMessage}
      (hl : l = .resume (.handler k))
      (hh : (s.conn k).handler = some (.join (.history j r token room q)))
      (hq : q.orElse [] = some history)
      (he : e = s.announcementFrame env k (.welcome r token room history))
  | reset {p : RolloverPc} {r : SessionIdent} {token : Token} (hl : l = .resume (.rollover k))
      (hp : (s.conn k).rolling = some p)
      (he : e = s.announcementFrame env k (.reset r token p.next))
  | presence {n : ℕ} {total : ℤ} (hl : l = .resume (.chore n))
      (hj : (s.conn k).joined = true) (he : e = .presence total)
  | flush (hl : l = .flush k.inst) (hb : s.batch k.inst ≠ []) (hr : s.receives k.inst k = true)
      (he : flushFrame (s.batch k.inst) k = some e)

/-- Replies are private frames, those that are cached and those about to be sent. -/
structure Polite (s : Sys) : Prop where
  plain : ∀ k, (s.side k).Plain
  reply : ∀ k e reply, (s.conn k).handler = some (.send (.reply e reply)) →
    reply.shared = false

/-- The steps that may add suspicion points to connection `k`: its frames are handled, or dropped
on arrival, a handler goes on that may do so, or a verification in the background fails. -/
inductive Marks (s : Sys) (l : Label) (k : ConnKey) : Prop
  | handle (hl : l = .handle k)
  | frame {raw : Raw} (hl : l = .frame k raw)
      (hq : raw = .binary ∨ MAX_QUEUED_FRAMES ≤ s.queued k)
  | resume {x : Handler} (hl : l = .resume (.handler k)) (hh : (s.conn k).handler = some x)
      (hx : x.signals = true)
  | failed {n : ℕ} {token : String} (hl : l = .resume (.chore n))
      (hb : s.chore n = some (.verify k token (.fulfilled false)))

/-- What a step may do to the limiter of connection `k`. -/
inductive Tunes (env : Env) (s : Sys) (l : Label) (k : ConnKey) (x : Limiter) : Limiter → Prop
  | signal (h : s.Marks l k) (trusted : Bool) (name : Signal) :
      Tunes env s l k x (x.signal env s.clock trusted name)
  | take (hl : l = .handle k) : Tunes env s l k x (x.take env s.clock)
  | strike (hl : l = .handle k) (wait : ℤ) : Tunes env s l k x (x.strike s.clock wait)
  | enter {j : JoinCtx} {r : SessionRecord} {token : Token} {p : Promise ℤ}
      (hl : l = .resume (.handler k))
      (hh : (s.conn k).handler = some (.join (.block j r token p))) :
      Tunes env s l k x (x.enter env j.now r)
  | pass {token : String} {r : SessionIdent} {now : ℤ} {p : Promise Bool}
      (hl : l = .resume (.handler k))
      (hh : (s.conn k).handler = some (.challenge (.verify token r now p))) :
      Tunes env s l k x (x.pass env now)
  | verify {n : ℕ} {token : String} (hl : l = .resume (.chore n))
      (hb : s.chore n = some (.verify k token (.fulfilled true))) :
      Tunes env s l k x (x.verify env s.clock)

/-- A connection's side is handed what the step hands to it and tuned as the step may tune it, or
the connection is new. -/
def SideStep (env : Env) (s : Sys) (l : Label) (t : Sys) (k : ConnKey) : Prop :=
  Side.Moves (s.Hands env l k) (s.Tunes env l k) (s.side k) (t.side k) ∨
    ∃ (n : ℕ) (u : Upgrade), l = .resume (.upgrade n) ∧ k = ⟨u.inst, (s.srv u.inst).seq + 1⟩ ∧
      t.conn k = Conn.new u.info ∧
      Side.Moves (fun e => e.shared = false)
        (fun x y => ∃ trusted name, y = x.signal env s.clock trusted name)
        (Side.new s.clock) (t.side k)

theorem resume_sides (hs : s.Polite) {th : Thread} (h : s.resume env th = some t)
    (k : ConnKey) : s.SideStep env (.resume th) t k := by
  have hT : Talks (s.Hands env (.resume th)) (s.Tunes env (.resume th)) s s :=
    .refl (fun _ _ => .own) s
  cases th with
  | handler j =>
      obtain ⟨x, hx, hu⟩ := Option.bind_eq_some_iff.mp h
      refine Or.inl ((hT.handlerResume hu ?_ ?_ ?_ ?_ ?_).moves k)
      · rintro j' r token room q history rfl hq
        exact .welcome rfl hx hq rfl
      · rintro e reply rfl
        exact hs.reply j e reply hx
      · exact fun hsig _ _ _ => .signal (.resume rfl hx hsig) _ _
      · rintro c record token q rfl y
        exact .enter rfl hx
      · rintro token r now q rfl y
        exact .pass rfl hx
  | rollover j =>
      obtain ⟨p, hp, hu⟩ := Option.bind_eq_some_iff.mp h
      exact Or.inl ((hT.rolloverResume hu fun r token => .reset rfl hp rfl).moves k)
  | reset i =>
      obtain ⟨p, -, hu⟩ := Option.bind_eq_some_iff.mp h
      exact Or.inl ((hT.quiet (Quiet.refl.resetResume i hu)).moves k)
  | upgrade n =>
      obtain ⟨u, -, hu⟩ := Option.bind_eq_some_iff.mp h
      obtain ⟨pc, -, rfl⟩ := Option.map_eq_some_iff.mp hu
      dsimp only
      split
      · by_cases hk : k = ⟨u.inst, (s.srv u.inst).seq + 1⟩
        · have hconn : ((s.onCore (·.setUpgrade n { u with pc := pc })).accept env u.inst
              u.info).conn k = Conn.new u.info := by
            rw [show ((s.onCore (·.setUpgrade n { u with pc := pc })).accept env u.inst
              u.info).conn = Core.conn ((s.onCore (·.setUpgrade n { u with pc := pc })).accept env
                u.inst u.info).toCore from rfl, toCore_accept, hk]
            exact Function.update_self _ _ _
          refine Or.inr ⟨n, u, rfl, hk, hconn, ?_⟩
          have hN : Talks (fun _ e => e.shared = false)
              (fun _ x y => ∃ trusted name, y = x.signal env s.clock trusted name)
              (((s.onCore (·.setUpgrade n { u with pc := pc })).onCore
                (·.accept u.inst u.info)).updSide ⟨u.inst, (s.srv u.inst).seq + 1⟩
                fun _ => Side.new s.clock)
              ((s.onCore (·.setUpgrade n { u with pc := pc })).accept env u.inst u.info) :=
            (Talks.refl (fun _ _ he => he) _).tuned ((Quiet.refl.signalIf _ _).signalIf _ _)
              fun _ trusted name => ⟨trusted, name, rfl⟩
          have hm := hN.moves k
          rw [show ((((s.onCore (·.setUpgrade n { u with pc := pc })).onCore
              (·.accept u.inst u.info)).updSide ⟨u.inst, (s.srv u.inst).seq + 1⟩
              fun _ => Side.new s.clock)).side k = Side.new s.clock by
            rw [hk]; exact Function.update_self _ _ _] at hm
          exact hm
        · have hN : Talks (s.Hands env (.resume (.upgrade n)))
              (fun j => if j = ⟨u.inst, (s.srv u.inst).seq + 1⟩ then fun _ _ => True
                else s.Tunes env (.resume (.upgrade n)) j)
              (((s.onCore (·.setUpgrade n { u with pc := pc })).onCore
                (·.accept u.inst u.info)).updSide ⟨u.inst, (s.srv u.inst).seq + 1⟩
                fun _ => Side.new s.clock)
              ((s.onCore (·.setUpgrade n { u with pc := pc })).accept env u.inst u.info) :=
            (Talks.refl (fun _ _ => .own) _).tuned ((Quiet.refl.signalIf _ _).signalIf _ _)
              fun _ _ _ => by rw [if_pos (by rfl)]; trivial
          have hm := hN.moves k
          rw [if_neg hk] at hm
          rw [show ((((s.onCore (·.setUpgrade n { u with pc := pc })).onCore
              (·.accept u.inst u.info)).updSide ⟨u.inst, (s.srv u.inst).seq + 1⟩
              fun _ => Side.new s.clock)).side k = s.side k from
            Function.update_of_ne hk _ _] at hm
          exact Or.inl hm
      · exact Or.inl .refl
  | task n =>
      obtain ⟨b, -, hu⟩ := Option.bind_eq_some_iff.mp h
      exact Or.inl ((hT.taskResume hu).moves k)
  | chore n =>
      obtain ⟨b, hb, hu⟩ := Option.bind_eq_some_iff.mp h
      refine Or.inl ((hT.choreResume hu ?_ ?_ ?_).moves k)
      · exact fun j total hj => .presence rfl hj rfl
      · rintro j token rfl x trusted name
        exact .signal (.failed rfl hb) trusted name
      · rintro j token rfl x
        exact .verify rfl hb

/-- What a step does to the sides. -/
theorem step_sides (hs : s.Polite) (h : s.step env l = some t) (k : ConnKey) :
    s.SideStep env l t k := by
  have hT : Talks (s.Hands env l) (s.Tunes env l) s s := .refl (fun _ _ => .own) s
  cases l with
  | resume th => exact resume_sides hs h k
  | settle th o v => exact Or.inl ((hT.settle h).moves k)
  | destroyed n =>
      obtain ⟨u, -, rfl⟩ := Option.map_eq_some_iff.mp h
      exact Or.inl .refl
  | deliver n =>
      obtain ⟨e, -, rfl⟩ := Option.map_eq_some_iff.mp h
      exact Or.inl (((hT.onCore _).quiet (Quiet.refl.onBus _ _)).moves k)
  | slow j b =>
      cases h
      have hq : Quiet none s (s.updSocket j fun x => { x with slow := b }) :=
        Quiet.refl.shut fun _ => ⟨rfl, id⟩
      exact Or.inl ((hT.quiet hq).moves k)
  | adminBlock i b =>
      obtain ⟨-, h⟩ := Option.ite_none_right_eq_some.mp h
      obtain ⟨a, -, rfl⟩ := Option.map_eq_some_iff.mp h
      exact Or.inl .refl
  | handle j =>
      obtain ⟨-, h⟩ := Option.ite_none_right_eq_some.mp h
      unfold handleNext at h
      split at h
      · cases h
        refine Or.inl ((Talks.handle ?_ ?_ ?_ ?_ ?_ _).moves k)
        · refine (hT.onCore _).updOther ?_ ?_ ?_
          · exact fun _ => rfl
          · exact fun _ _ hp => hp
          · exact fun _ => rfl
        · exact fun _ _ _ => .signal (.handle rfl) _ _
        · exact fun _ => .take rfl
        · exact fun _ _ => .strike rfl _
        · rw [show ((s.onCore (·.take j)).updSide j _).side j = _ from
            Function.update_self _ _ _]
          exact hs.plain j
      · cases h
  | peerClosing j =>
      obtain ⟨-, he⟩ := Option.ite_none_right_eq_some.mp h
      cases he
      have hq : Quiet none s (s.updSocket j fun x => { x with state := .closing }) :=
        Quiet.refl.shut fun _ => ⟨rfl, fun ho => by cases ho⟩
      exact Or.inl ((hT.quiet hq).moves k)
  | clock ts => cases (Option.ite_none_right_eq_some.mp h).2; exact Or.inl .refl
  | upgrade i req => cases (Option.ite_none_right_eq_some.mp h).2; exact Or.inl .refl
  | adminUnblock i name => cases (Option.ite_none_right_eq_some.mp h).2; exact Or.inl .refl
  | start i => cases (Option.ite_none_left_eq_some.mp h).2; exact Or.inl .refl
  | presence i => cases (Option.ite_none_right_eq_some.mp h).2; exact Or.inl .refl
  | tick i => cases (Option.ite_none_right_eq_some.mp h).2; exact Or.inl .refl
  | frame j raw =>
      cases (Option.ite_none_left_eq_some.mp h).2
      by_cases hq : raw = .binary ∨ MAX_QUEUED_FRAMES ≤ s.queued j
      · refine Or.inl ((hT.tuned (Quiet.refl.onFrame raw) ?_).moves k)
        exact fun _ _ _ => .signal (.frame rfl hq) _ _
      · obtain ⟨hb, hl⟩ := not_or.mp hq
        exact Or.inl ((hT.quiet (Quiet.refl.onFrame_queued raw hb (not_le.mp hl))).moves k)
  | pong j =>
      cases (Option.ite_none_left_eq_some.mp h).2
      exact Or.inl ((hT.quiet (Quiet.refl.updConduct _ (by exact fun _ => ⟨rfl, rfl⟩))).moves k)
  | closeEvent j =>
      cases (Option.ite_none_left_eq_some.mp h).2
      have hc : Quiet none s (s.updSocket j fun x => { x with state := .closed }) :=
        Quiet.refl.shut fun _ => ⟨rfl, fun ho => by cases ho⟩
      exact Or.inl ((hT.quiet hc.onClose).moves k)
  | joinTimeout j =>
      cases (Option.ite_none_right_eq_some.mp h).2
      exact Or.inl ((hT.quiet Quiet.refl.joinTimeout).moves k)
  | persistTimeout j =>
      cases (Option.ite_none_right_eq_some.mp h).2
      have hc : Quiet none s (s.updConduct j fun c => { c with persistTimer := false }) :=
        Quiet.refl.updConduct _ fun _ => ⟨rfl, rfl⟩
      exact Or.inl ((hT.quiet hc.persistDetached).moves k)
  | heartbeat i =>
      cases (Option.ite_none_right_eq_some.mp h).2
      exact Or.inl ((hT.quiet (Quiet.refl.heartbeats i)).moves k)
  | flush i =>
      cases (Option.ite_none_right_eq_some.mp h).2
      exact Or.inl ((hT.flushOutbox i fun n e hb hr he => .flush rfl hb hr he).moves k)
  | stop i =>
      cases (Option.ite_none_right_eq_some.mp h).2
      exact Or.inl ((hT.quiet (Quiet.refl.stop i)).moves k)
  | drain j =>
      cases (Option.ite_none_right_eq_some.mp h).2
      exact Or.inl ((hT.quiet Quiet.refl.drain).moves k)
  | stopEnd i =>
      cases (Option.ite_none_right_eq_some.mp h).2
      exact Or.inl ((hT.quiet (Quiet.refl.stopEnd i)).moves k)

/-! ### Replies are private -/

end Sys

/-! ### Replies are private -/

theorem Act.private {env : Env} {k : ConnKey} {up : Bool} {c c₁ : Core} {h h' : Option Handler}
    (ha : Act env k up c h c₁ h') {e : SendEvent} {reply : ServerEvent}
    (hh : h' = some (.send (.reply e reply))) : reply.shared = false := by
  cases ha with
  | sendReject => cases hh; rfl
  | sendSwitch => cases hh; rfl
  | sendFlood => cases hh; rfl
  | sendRefused => cases hh; rfl
  | _ => cases hh <;> rfl

theorem Handler.settle_not_reply {env : Env} {now : ℤ} {v : Bool} {k : ConnKey} {n : ℕ}
    {info : AdmitInfo} {o : Outcome} {h : Handler} {w w' : World} {e : SendEvent}
    {reply : ServerEvent} :
    h.settle env now v k n info o w ≠ some (.send (.reply e reply), w') := by
  intro hs
  cases h with
  | send p =>
      obtain ⟨⟨p', w₁⟩, hp, he⟩ := Option.map_eq_some_iff.mp hs
      obtain ⟨hp', -⟩ := Prod.mk.inj he
      obtain rfl := Handler.send.inj hp'
      cases p with
      | reply => cases hp
      | _ =>
          obtain ⟨r, -, he⟩ := Option.map_eq_some_iff.mp hp
          cases (Prod.mk.inj he).1
  | _ =>
      obtain ⟨r, -, he⟩ := Option.map_eq_some_iff.mp hs
      cases (Prod.mk.inj he).1

namespace Sys

variable {env : Env} {s t : Sys} {l : Label}

theorem Polite.step (hs : s.Polite) (h : s.step env l = some t) : t.Polite := by
  constructor
  · intro k
    rcases step_sides hs h k with hm | ⟨n, u, -, -, -, hm⟩
    · exact hm.plain (hs.plain k)
    · exact hm.plain fun p hp => absurd hp List.not_mem_nil
  · intro k e reply hh
    have hc := (coreStep h).conn k
    generalize hx : t.conn k = x at hc hh
    cases hc with
    | act hl hh' ha => exact ha.private hh
    | handle hl hk hh' ha => exact ha.private hh
    | settled hl hh' hset =>
        obtain rfl := Option.some.inj hh
        exact absurd hset Handler.settle_not_reply
    | accepted => cases hh
    | _ => exact hs.reply k e reply hh

theorem polite_of_reaches {C : Sys → Label → Prop} (h : (system env).Reaches C s) : s.Polite := by
  refine h.invariant (I := Polite) ?_ fun _ _ _ hI _ hs => hI.step hs
  rintro s ⟨t, rfl⟩
  exact ⟨fun k p hp => absurd hp List.not_mem_nil, fun k e reply hh => by cases hh⟩

end Sys

/-! ### What was sent -/

/-- The messages a connection was sent live. -/
def Side.lives (d : Side) : List ChatMessage := d.socket.sent.flatMap ServerEvent.live

namespace Side.Moves

variable {P : ServerEvent → Prop} {L : Limiter → Limiter → Prop} {x y : Side}

/-- What the changes of the limiter keep. -/
theorem limiter_induct {I : Limiter → Prop} (h : Side.Moves P L x y)
    (hI : ∀ a b, L a b → I a → I b) (hx : I x.conduct.limiter) : I y.conduct.limiter := by
  induction h with
  | refl => exact hx
  | send h he ih => exact ih
  | shut h hs hz ih => exact ih
  | other h hs hr hl ih =>
      rcases hl with hl | hl
      · rwa [hl]
      · exact hI _ _ hl ih

theorem opened (h : Side.Moves P L x y) (ho : y.socket.state = .opened) :
    x.socket.state = .opened := by
  induction h with
  | refl => exact ho
  | send h he ih => exact ih (Socket.sendRaw_opened ho)
  | shut h hs hz ih => exact ih (hz ho)
  | other h hs hr hl ih =>
      rw [hs] at ho
      exact ih ho

/-- Frames are only added, and those satisfy `P`. -/
theorem sent (h : Side.Moves P L x y) :
    ∃ es, y.socket.sent = x.socket.sent ++ es ∧ ∀ e ∈ es, P e := by
  induction h with
  | refl => exact ⟨[], (List.append_nil _).symm, fun e he => absurd he List.not_mem_nil⟩
  | @send y e h he ih =>
      obtain ⟨es, hes, hP⟩ := ih
      have hone : (y.socket.sendRaw e).sent = y.socket.sent ∨
          (y.socket.sendRaw e).sent = y.socket.sent ++ [e] := by
        unfold Socket.sendRaw
        split
        · exact Or.inl rfl
        · split
          · exact Or.inl Socket.terminate_sent
          · exact Or.inr rfl
      rcases hone with hone | hone
      · exact ⟨es, hone.trans hes, hP⟩
      · refine ⟨es ++ [e], by rw [hone, hes, List.append_assoc], ?_⟩
        intro e' he'
        rcases List.mem_append.mp he' with he' | he'
        · exact hP e' he'
        · rw [List.mem_singleton.mp he']
          exact he
  | shut h hs ho ih =>
      obtain ⟨es, hes, hP⟩ := ih
      exact ⟨es, hs.trans hes, hP⟩
  | other h hs hr hl ih =>
      obtain ⟨es, hes, hP⟩ := ih
      exact ⟨es, (congrArg Socket.sent hs).trans hes, hP⟩

/-- Frames without messages deliver none. -/
theorem lives (h : Side.Moves P L x y) (hP : ∀ e, P e → e.live = []) : y.lives = x.lives := by
  obtain ⟨es, hes, hall⟩ := h.sent
  have hnil : es.flatMap ServerEvent.live = [] :=
    List.flatMap_eq_nil_iff.mpr fun e he => hP e (hall e he)
  rw [Side.lives, hes, List.flatMap_append, hnil, List.append_nil, Side.lives]

end Side.Moves

namespace Sys

/-- The limiter of a connection. -/
def limiter (s : Sys) (k : ConnKey) : Limiter := (s.side k).conduct.limiter

/-- Quiet changes without points leave the limiters alone. -/
theorem Quiet.limiter {s t : Sys} (h : Quiet none s t) (k : ConnKey) :
    t.limiter k = s.limiter k := by
  have hT : Talks (fun _ _ => True) (fun _ _ _ => False) s t :=
    (Talks.refl (fun _ _ _ => trivial) s).quiet h
  exact (hT.moves k).limiter_induct (I := fun x => x = s.limiter k) (fun _ _ hf => hf.elim) rfl

end Sys

end RoomBackend
