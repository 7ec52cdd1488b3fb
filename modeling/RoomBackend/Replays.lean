import Mathlib.Data.Finset.Card
import RoomBackend.Filing
import RoomBackend.Frames
import RoomBackend.Joining
import RoomBackend.Vitals

/-! # Replayed sends

A send that a connection has decided is answered from its cache of replies when it comes again. The
cache changes in three places only (`cached_step`): a decision is over, a rollover clears it, a new
connection has none. -/

namespace RoomBackend

open Async Day Lts

/-- The send a handler has decided, with its reply. -/
def Handler.decision : Handler → Option (SendEvent × ServerEvent)
  | .send (.reply e reply) => some (e, reply)
  | _ => none

/-! ### Methods that leave the caches alone -/

/-- The cached replies of the connections. -/
def Sys.cached (s : Sys) (k : ConnKey) : List (String × ServerEvent) := (s.side k).conduct.replies

namespace Sys

section methods

variable {env : Env} {s t : Sys} {k : ConnKey}

theorem cached_of_vitals (h : t.vitals = s.vitals) : t.cached = s.cached := by
  funext j
  exact congrArg Vitals.replies (congrFun h j)

/-! ### What a step does to the caches -/

/-- The end of a rollover that clears the cache of a connection. -/
def clears (env : Env) (s : Sys) (k : ConnKey) : Label → Bool
  | .resume (.rollover j) =>
      decide (j = k) && (s.conn k).rolling.any fun p =>
        (p.create.resume env s.draws).any fun r =>
          match r.1 with
          | .done _ _ => !(s.conn k).closed
          | _ => false
  | _ => false

/-- The send whose decision is cached with its reply. -/
def caches (s : Sys) (k : ConnKey) : Label → Option (SendEvent × ServerEvent)
  | .resume (.handler j) => if j = k then (s.conn k).handler.bind Handler.decision else none
  | _ => none

theorem caches_self :
    s.caches k (.resume (.handler k)) = (s.conn k).handler.bind Handler.decision :=
  if_pos rfl

theorem of_caches {l : Label} {d : SendEvent × ServerEvent} (h : s.caches k l = some d) :
    l = .resume (.handler k) ∧ (s.conn k).handler = some (.send (.reply d.1 d.2)) := by
  unfold caches at h
  split at h
  · obtain ⟨hj, h⟩ := Option.ite_none_right_eq_some.mp h
    obtain ⟨x, hx, hd⟩ := Option.bind_eq_some_iff.mp h
    unfold Handler.decision at hd
    split at hd
    · obtain rfl := Option.some.inj hd
      exact ⟨by rw [hj], hx⟩
    · cases hd
  · cases h

/-- What a step makes of the cache of a connection. -/
inductive CacheStep (env : Env) (s : Sys) (k : ConnKey) (l : Label) :
    List (String × ServerEvent) → Prop
  | same (hl : s.caches k l = none) : CacheStep env s k l (s.cached k)
  | cached {e : SendEvent} {reply : ServerEvent} (hl : s.caches k l = some (e, reply)) :
      CacheStep env s k l (cacheReply (s.cached k) e.clientId reply)
  | cleared (hl : s.clears env k l = true) (hc : s.caches k l = none) : CacheStep env s k l []
  | accepted (hk : k ∉ s.accepted) (hl : s.caches k l = none) : CacheStep env s k l []

/-- A step changes a cache only where a decision is over, a rollover ends or a connection is
made. -/
theorem cached_step {l : Label} (hB : Born s.toCore) (h : s.step env l = some t) :
    CacheStep env s k l (t.cached k) := by
  have hv := @vitals_step env s t k l hB h
  show CacheStep env s k l (t.vitals k).replies
  cases hd : s.caches k l with
  | some d =>
      obtain ⟨rfl, hh⟩ := of_caches hd
      obtain ⟨x, hx, hu⟩ := Option.bind_eq_some_iff.mp h
      rw [hh] at hx
      obtain rfl := Option.some.inj hx
      cases Option.some.inj hu
      rw [vitals_handleSendReply, Function.update_self]
      exact .cached hd
  | none =>
      generalize t.vitals k = v at hv
      cases hv with
      | same => exact .same hd
      | replied hl hh =>
          rw [hl, caches_self, hh] at hd
          cases hd
      | rolled hl hp hr hc =>
          refine .cleared ?_ hd
          simp [hl, clears, hp, hr, hc]
      | accepted hk => exact .accepted hk hd
      | heard hl => exact .same hd
      | pinged hl => exact .same hd

end methods

end Sys

/-! ### Sends under way -/

/-- The send whose decision a `decide` is about. -/
def SendPc.sent : SendPc → SendEvent
  | .hit l _ => l.event
  | .dup l _ => l.event
  | .escalate l _ _ => l.event
  | .append l _ _ _ => l.event
  | .publish l _ _ _ => l.event
  | .reply e _ => e

/-- The send a handler has under way. -/
def Handler.sending : Handler → Option SendEvent
  | .send p => some p.sent
  | _ => none

theorem Handler.settle_sending {env : Env} {now : ℤ} {v : Bool} {k : ConnKey} {n : ℕ}
    {info : AdmitInfo} {o : Outcome} {h h' : Handler} {w w' : World}
    (hs : h.settle env now v k n info o w = some (h', w')) : h'.sending = h.sending := by
  cases h with
  | send p =>
      obtain ⟨⟨q, w₁⟩, hq, he⟩ := Option.map_eq_some_iff.mp hs
      obtain ⟨rfl, -⟩ := Prod.mk.inj he
      cases p with
      | reply => cases hq
      | _ =>
          obtain ⟨r, -, he'⟩ := Option.map_eq_some_iff.mp hq
          obtain ⟨rfl, -⟩ := Prod.mk.inj he'
          rfl
  | _ =>
      obtain ⟨r, -, he⟩ := Option.map_eq_some_iff.mp hs
      obtain ⟨rfl, -⟩ := Prod.mk.inj he
      rfl

theorem Act.sending {env : Env} {k : ConnKey} {up : Bool} {c c₁ : Core} {h : Handler}
    {h' : Option Handler} (ha : Act env k up c (some h) c₁ h') {e : SendEvent}
    (he : h'.bind Handler.sending = some e) : h.sending = some e := by
  cases ha with
  | sendEscalate hs _ =>
      cases he
      rcases hs with ⟨p, rfl⟩ | ⟨p, rfl⟩ <;> rfl
  | sendFlood => exact he
  | sendDup => exact he
  | sendRefused => exact he
  | sendAccept => exact he
  | sendEscalating => exact he
  | appendFailed => exact he
  | appendDone => exact he
  | publishFailed => exact he
  | publishDone => exact he
  | _ => cases he

namespace Sys

section sending

variable {env : Env} {s t : Sys} {k : ConnKey}

/-- The send a connection has under way. -/
def sending (s : Sys) (k : ConnKey) : Option SendEvent := (s.conn k).handler.bind Handler.sending

theorem sending_suspend (x : Handler) : (s.suspend k x).sending k = x.sending := by
  show ((s.toCore.setHandler k (some x)).conn k).handler.bind _ = _
  rw [Core.setHandler_conn]
  rfl

theorem sending_finish : (s.finish k).sending k = none := by
  show ((s.toCore.setHandler k none).conn k).handler.bind _ = _
  rw [Core.setHandler_conn]
  rfl

theorem sending_decideRate (l : SendLocals) : (s.decideRate env k l).sending k = some l.event := by
  unfold decideRate decideEscalate decided
  dsimp only
  split_ifs <;> exact sending_suspend _

theorem sending_decideSend (e : SendEvent) (r : SessionIdent) :
    (s.decideSend env k e r).sending k = some e := by
  unfold decideSend decided
  dsimp only
  split_ifs <;> try exact sending_suspend _
  split
  · exact sending_suspend _
  · exact sending_decideRate _

/-- A frame starts a decision only if it is a send that is not answered from the cache. -/
theorem handle_sends {raw : Raw} {p : SendPc}
    (h : ((s.handle env k raw).conn k).handler = some (.send p)) :
    ∃ e r, raw = .event (.send e) ∧ (∀ q ∈ s.cached k, q.1 ≠ e.clientId) ∧
      s.handle env k raw =
        (s.onCore (·.observe (.deciding k (s.conn k).handled e))).decideSend env k e r := by
  have hnone : ∀ u : Sys, ((u.finish k).conn k).handler ≠ some (.send p) := by
    intro u hu
    rw [show (u.finish k).conn k = _ from Core.setHandler_conn ..] at hu
    cases hu
  have hother : ∀ (u : Core) (x : Handler), ((u.setHandler k (some x)).conn k).handler =
      some (.send p) → x = .send p := by
    intro u x hu
    rw [Core.setHandler_conn] at hu
    exact Option.some.inj hu
  unfold handle at h ⊢
  split_ifs at h ⊢ with hcl
  · exact absurd h (hnone _)
  · cases raw with
    | event x =>
        cases x with
        | join resume verification =>
            dsimp only at h
            exfalso
            unfold onCore Core.join Core.joinAttempt at h
            dsimp only at h
            split at h
            · exact hnone _ h
            · split at h
              · exact nomatch hother _ _ h
              · exact nomatch hother _ _ h
        | send e =>
            dsimp only at h ⊢
            unfold handleSend at h ⊢
            dsimp only at h ⊢
            split at h
            · exact absurd h (hnone _)
            · rename_i r hr
              split at h
              · exact absurd h (hnone _)
              · rename_i hj
                split at h
                · exact absurd h (hnone _)
                · rename_i hfind
                  refine ⟨e, r, rfl, fun q hq he => ?_, ?_⟩
                  · exact List.find?_eq_none.mp hfind q hq (decide_eq_true he)
                  · exact if_neg hj
        | challengeResponse token =>
            dsimp only at h
            exfalso
            unfold challengeResponse at h
            dsimp only at h
            split at h
            · exact hnone _ h
            · split_ifs at h
              · exact hnone _ h
              · exact hnone _ h
              · exact nomatch hother _ _ h
        | ping n => exact absurd h (hnone _)
        | report id reason =>
            dsimp only at h
            exfalso
            unfold report at h
            split at h
            · exact hnone _ h
            · exact nomatch hother _ _ h
    | _ => exact absurd h (hnone _)

theorem sending_handle {raw : Raw} {e : SendEvent} (h : (s.handle env k raw).sending k = some e) :
    raw = .event (.send e) ∧ ∀ p ∈ s.cached k, p.1 ≠ e.clientId := by
  obtain ⟨x, hx, hxe⟩ := Option.bind_eq_some_iff.mp h
  cases x with
  | send p =>
      obtain ⟨e', r, rfl, hfresh, hu⟩ := handle_sends hx
      rw [hu, sending_decideSend] at h
      cases h
      exact ⟨rfl, hfresh⟩
  | _ => cases hxe

/-! ### The caches of a run -/

/-- A cache has one reply for each send, none for the one that is being decided, and 64 at most. -/
structure Caching (replies : List (String × ServerEvent)) (deciding : Option SendEvent) : Prop where
  nodup : (replies.map Prod.fst).Nodup
  fresh : ∀ e, deciding = some e → ∀ p ∈ replies, p.1 ≠ e.clientId
  size : replies.length ≤ 64

theorem Caching.nil (deciding : Option SendEvent) : Caching [] deciding :=
  ⟨List.nodup_nil, fun _ _ _ hp => absurd hp List.not_mem_nil, Nat.zero_le _⟩

/-- A reply that is cached for a send the cache does not have. -/
theorem cacheReply_fresh {replies : List (String × ServerEvent)} {id : String} (r : ServerEvent)
    (h : ∀ p ∈ replies, p.1 ≠ id) :
    cacheReply replies id r =
      if (replies ++ [(id, r)]).length > 64 then (replies ++ [(id, r)]).tail
      else replies ++ [(id, r)] := by
  have hany : ¬ replies.any (fun p => p.1 = id) = true := by
    intro ha
    obtain ⟨p, hp, he⟩ := List.any_eq_true.mp ha
    exact h p hp (of_decide_eq_true he)
  unfold cacheReply
  dsimp only
  rw [if_neg hany]

theorem sending_of_caches {l : Label} {e : SendEvent} {reply : ServerEvent}
    (h : s.caches k l = some (e, reply)) :
    l = .resume (.handler k) ∧ (s.conn k).handler = some (.send (.reply e reply)) := by
  unfold caches at h
  split at h
  · split_ifs at h with hj
    obtain ⟨x, hx, hd⟩ := Option.bind_eq_some_iff.mp h
    unfold Handler.decision at hd
    split at hd
    · cases hd
      exact ⟨by rw [hj], hx⟩
    · cases hd
  · cases h

/-- A connection has a send under way as before, or has started on one that is not cached. -/
theorem sending_step {l : Label} {e : SendEvent} (h : s.step env l = some t)
    (he : t.sending k = some e) : s.sending k = some e ∨ ∀ p ∈ s.cached k, p.1 ≠ e.clientId := by
  have hx := (Sys.coreStep h).conn k
  have hnew := he
  have he : (t.conn k).handler.bind Handler.sending = some e := he
  generalize t.conn k = y at hx he
  cases hx with
  | act hl hh ha =>
      refine Or.inl ?_
      unfold sending
      rw [hh]
      exact ha.sending he
  | handle hl hk hh ha =>
      subst hl
      refine Or.inr ?_
      obtain ⟨-, hn⟩ := Option.ite_none_right_eq_some.mp h
      unfold handleNext at hn
      split at hn
      · rename_i raw rest hh' hq
        cases hn
        have hu := (sending_handle hnew).2
        have hc : ((s.onCore (·.take k)).updSide k fun d => { d with queue := rest }).cached =
            s.cached := cached_of_vitals (vitals_updSide fun _ => rfl)
        rwa [hc] at hu
      · cases hn
  | settled hl hh hset =>
      refine Or.inl ?_
      unfold sending
      rw [hh]
      exact (Handler.settle_sending hset).symm.trans he
  | accepted => cases he
  | _ => exact Or.inl he

/-- A connection whose decision is cached has no send under way any more. -/
theorem sending_replied {e : SendEvent} {reply : ServerEvent}
    (hh : (s.conn k).handler = some (.send (.reply e reply)))
    (h : s.step env (.resume (.handler k)) = some t) : t.sending k = none := by
  obtain ⟨x, hx, hu⟩ := Option.bind_eq_some_iff.mp h
  cases hh.symm.trans hx
  cases Option.some.inj hu
  exact sending_finish

/-- A cache that takes one more reply. -/
theorem Caching.reply {replies : List (String × ServerEvent)} {e : SendEvent}
    (hI : Caching replies (some e)) (r : ServerEvent) :
    Caching (cacheReply replies e.clientId r) none := by
  have hfresh := hI.fresh e rfl
  have hnodup : ((replies ++ [(e.clientId, r)]).map Prod.fst).Nodup := by
    rw [List.map_append, List.nodup_append]
    refine ⟨hI.nodup, by simp, ?_⟩
    rintro x hx y hy rfl
    obtain ⟨p, hp, rfl⟩ := List.mem_map.mp hx
    exact hfresh p hp (by simpa using hy)
  have hsize := hI.size
  rw [cacheReply_fresh r hfresh]
  refine ⟨?_, fun _ he => (by cases he), ?_⟩
  · split
    · rw [List.map_tail]
      exact hnodup.tail
    · exact hnodup
  · split
    · rw [List.length_tail, List.length_append, List.length_singleton]
      omega
    · omega

theorem Caching.step {l : Label} (hI : Caching (s.cached k) (s.sending k)) (hB : Born s.toCore)
    (h : s.step env l = some t) : Caching (t.cached k) (t.sending k) := by
  have hc := cached_step (k := k) hB h
  generalize t.cached k = replies at hc
  cases hc with
  | same =>
      refine ⟨hI.nodup, fun e he => ?_, hI.size⟩
      rcases sending_step h he with hold | hnew
      · exact hI.fresh e hold
      · exact hnew
  | @cached e reply hl =>
      obtain ⟨rfl, hh⟩ := sending_of_caches hl
      have hs : s.sending k = some e := by
        unfold sending
        rw [hh]
        rfl
      rw [hs] at hI
      rw [sending_replied hh h]
      exact hI.reply reply
  | cleared => exact Caching.nil _
  | accepted => exact Caching.nil _

theorem caching_of_reaches {C : Sys → Label → Prop} (h : (system env).Reaches C s) (k : ConnKey) :
    Caching (s.cached k) (s.sending k) := by
  refine Machine.Reaches.invariant_of (J := fun s => Born s.toCore)
    (I := fun s => Caching (s.cached k) (s.sending k)) (fun s hs => born_of_reaches hs) ?_ ?_ h
  · rintro s ⟨t, rfl⟩
    exact Caching.nil _
  · intro s l t hB hI _ hs
    exact hI.step hB hs

/-! ### A reply that is kept -/

/-- The reply is cached, and what came after it are the replies to sends of `F`. -/
def Retains (s : Sys) (k : ConnKey) (id : String) (reply : ServerEvent) (F : Finset String) : Prop :=
  ∃ before after, s.cached k = before ++ (id, reply) :: after ∧ ∀ p ∈ after, p.1 ∈ F

/-- A step that keeps the cache and decides a send of `F` only. -/
def Spares (env : Env) (k : ConnKey) (id : String) (F : Finset String) (s : Sys) (l : Label) :
    Prop :=
  s.clears env k l = false ∧ ∀ e r, s.caches k l = some (e, r) → e.clientId ≠ id → e.clientId ∈ F

/-- While fewer than 64 other sends are decided, a reply stays in the cache. -/
theorem Retains.reply {before after : List (String × ServerEvent)} {id : String}
    {r : ServerEvent} {F : Finset String} {e : SendEvent} (hF : F.card < 64) (x : ServerEvent)
    (hI : Caching (before ++ (id, r) :: after) (some e)) (ha : ∀ p ∈ after, p.1 ∈ F)
    (he : e.clientId ∈ F) :
    ∃ before' after', cacheReply (before ++ (id, r) :: after) e.clientId x =
      before' ++ (id, r) :: after' ∧ ∀ p ∈ after', p.1 ∈ F := by
  have hfresh := hI.fresh e rfl
  have hmem : ∀ p ∈ after ++ [(e.clientId, x)], p.1 ∈ F := by
    intro p hp
    rcases List.mem_append.mp hp with hp | hp
    · exact ha p hp
    · rw [List.mem_singleton.mp hp]
      exact he
  have hlen : (after ++ [(e.clientId, x)]).length < 64 := by
    have hnodup : ((after ++ [(e.clientId, x)]).map Prod.fst).Nodup := by
      have hall := hI.nodup
      rw [List.map_append, List.map_cons, List.nodup_append, List.nodup_cons] at hall
      rw [List.map_append, List.nodup_append]
      refine ⟨hall.2.1.2, by simp, ?_⟩
      rintro y hy z hz rfl
      obtain ⟨p, hp, rfl⟩ := List.mem_map.mp hy
      exact hfresh p (List.mem_append_right _ (List.mem_cons_of_mem _ hp)) (by simpa using hz)
    have hsub : ((after ++ [(e.clientId, x)]).map Prod.fst).toFinset ⊆ F := by
      intro y hy
      obtain ⟨p, hp, rfl⟩ := List.mem_map.mp (List.mem_toFinset.mp hy)
      exact hmem p hp
    have hcard := Finset.card_le_card hsub
    rw [List.toFinset_card_of_nodup hnodup, List.length_map] at hcard
    exact lt_of_le_of_lt hcard hF
  have hassoc : before ++ (id, r) :: after ++ [(e.clientId, x)] =
      before ++ (id, r) :: (after ++ [(e.clientId, x)]) := by simp
  rw [cacheReply_fresh x hfresh, hassoc]
  split
  · rename_i hlong
    -- what is evicted stands before the reply
    cases before with
    | nil =>
        rw [List.nil_append, List.length_cons] at hlong
        omega
    | cons p before => exact ⟨before, _, rfl, hmem⟩
  · exact ⟨before, _, rfl, hmem⟩

theorem Retains.step {l : Label} {id : String} {reply : ServerEvent} {F : Finset String}
    (hK : s.Retains k id reply F) (hF : F.card < 64) (hI : Caching (s.cached k) (s.sending k))
    (hB : Born s.toCore) (hk : k ∈ s.accepted) (hl : s.Spares env k id F l)
    (h : s.step env l = some t) : t.Retains k id reply F := by
  obtain ⟨before, after, hs, ha⟩ := hK
  have hc := cached_step (k := k) hB h
  unfold Retains
  generalize t.cached k = replies at hc
  cases hc with
  | same => exact ⟨before, after, hs, ha⟩
  | @cached e r hcache =>
      obtain ⟨rfl, hh⟩ := sending_of_caches hcache
      have hsend : s.sending k = some e := by
        unfold sending
        rw [hh]
        rfl
      rw [hsend, hs] at hI
      have hne : e.clientId ≠ id := by
        have := hI.fresh e rfl (id, reply) (List.mem_append_right _ (List.mem_cons_self ..))
        exact Ne.symm this
      rw [hs]
      exact Retains.reply hF r hI ha (hl.2 e r hcache hne)
  | cleared hclear => rw [hl.1] at hclear; cases hclear
  | accepted hk' => exact absurd hk hk'

/-- While the cache is kept and fewer than 64 other sends are decided, so is the reply. -/
theorem Retains.run {ls : List Label} {id : String} {reply : ServerEvent} {F : Finset String}
    (hF : F.card < 64) (hrun : (system env).Run (Spares env k id F) s ls t)
    (hreach : (system env).Reaches Free s) (hk : k ∈ s.accepted) (hj : (s.conn k).joined = true)
    (hK : s.Retains k id reply F) : (system env).Reaches Free t ∧ k ∈ t.accepted ∧
      (t.conn k).joined = true ∧ t.Retains k id reply F := by
  induction hrun with
  | nil => exact ⟨hreach, hk, hj, hK⟩
  | cons hl hs _ ih =>
      have hB := born_of_reaches hreach
      refine ih (hreach.step trivial hs) ((Sys.coreStep hs).mem_accepted hk) ?_
        (hK.step hF (caching_of_reaches hreach k) hB hk hl hs)
      by_contra hun
      rw [(Sys.coreStep hs).unjoined hB (Bool.not_eq_true _ ▸ hun)] at hj
      cases hj

/-! ### Replays -/

/-- The send is answered with the reply, and nothing else happens: nothing is appended or published,
no token is taken, and the scores, strikes, cooldowns, challenges and blocks stay as they are. -/
structure Replays (s : Sys) (k : ConnKey) (reply : ServerEvent) (t : Sys) : Prop where
  socket : (t.side k).socket = (s.side k).socket.sendRaw reply
  conduct : (t.side k).conduct = (s.side k).conduct
  rating : (t.side k).rating = (s.side k).rating
  conn : t.conn k = { s.conn k with handled := (s.conn k).handled + 1, handler := none }
  sides : ∀ j, j ≠ k → t.side j = s.side j
  conns : ∀ j, j ≠ k → t.conn j = s.conn j
  world : t.world = s.world
  servers : t.srv = s.srv
  tasks : t.task = s.task
  chores : t.chore = s.chore

/-- The first entry of a cache for a send is its only one. -/
theorem find_reply {before after : List (String × ServerEvent)} {id : String} {r : ServerEvent}
    (h : ((before ++ (id, r) :: after).map Prod.fst).Nodup) :
    (before ++ (id, r) :: after).find? (fun p => p.1 = id) = some (id, r) := by
  rw [List.map_append, List.nodup_append] at h
  have hnone : before.find? (fun p => p.1 = id) = none := by
    refine List.find?_eq_none.mpr fun p hp he => ?_
    exact h.2.2 p.1 (List.mem_map_of_mem hp) id (by simp) (of_decide_eq_true he)
  rw [List.find?_append, hnone, Option.none_or, List.find?_cons_of_pos (by simp)]

theorem replays_of_retains {id : String} {reply : ServerEvent} {F : Finset String} {e : SendEvent}
    {rest : List Raw} (hreach : (system env).Reaches Free s) (hk : k ∈ s.accepted)
    (hj : (s.conn k).joined = true) (hK : s.Retains k id reply F)
    (hopen : (s.conn k).closed = false) (hidle : (s.conn k).handler = none)
    (hq : (s.side k).queue = .event (.send e) :: rest) (he : e.clientId = id) :
    ∃ t, s.step env (.handle k) = some t ∧ Replays s k reply t := by
  obtain ⟨before, after, hs, -⟩ := hK
  obtain ⟨r, hr⟩ := (holds_of_reaches hreach k).record_eq hj
  have hr : (s.conn k).record = some r := hr
  have hfind : (s.side k).conduct.replies.find? (fun p => p.1 = e.clientId) = some (id, reply) := by
    have hnodup := (caching_of_reaches hreach k).nodup
    rw [hs] at hnodup
    rw [he, show (s.side k).conduct.replies = _ from hs]
    exact find_reply hnodup
  have hconn : (s.toCore.take k).conn k = { s.conn k with handled := (s.conn k).handled + 1 } :=
    Core.updConn_conn ..
  obtain ⟨u, hu⟩ : ∃ u, u = (s.onCore (·.take k)).updSide k fun d => { d with queue := rest } :=
    ⟨_, rfl⟩
  have hside : u.side k = { s.side k with queue := rest } := by
    rw [hu]
    exact Function.update_self ..
  have hucore : u.toCore = s.toCore.take k := by rw [hu]; rfl
  have huconn : u.conn k = { s.conn k with handled := (s.conn k).handled + 1 } := by
    rw [← hconn, ← hucore]
  have hstep : s.step env (.handle k) = some ((u.send k reply).finish k) := by
    show (if k ∈ s.accepted then s.handleNext env k else none) = _
    have hnext : s.handleNext env k = some (u.handle env k (.event (.send e))) := by
      unfold handleNext
      rw [hidle, hq, hu]
    rw [if_pos hk, hnext]
    congr 1
    unfold handle handleSend
    rw [if_neg (by rw [huconn]; simpa using hopen)]
    dsimp only
    rw [huconn]
    dsimp only
    rw [hr]
    dsimp only
    rw [hj, if_neg (by decide), hside]
    dsimp only
    rw [hfind]
  refine ⟨_, hstep, ?_⟩
  have hfin : ∀ j, j ≠ k → ((u.send k reply).finish k).conn j = s.conn j := fun j hjk => by
    show ((u.toCore.setHandler k none).conn j) = _
    rw [Core.setHandler_conn_ne _ hjk, hucore]
    exact Core.updConn_conn_ne _ hjk _
  have hself : ((u.send k reply).finish k).conn k =
      { s.conn k with handled := (s.conn k).handled + 1, handler := none } := by
    show (u.toCore.setHandler k none).conn k = _
    rw [Core.setHandler_conn, huconn]
  have hsock : ((u.send k reply).finish k).side k =
      { u.side k with socket := (u.side k).socket.sendRaw reply } := Function.update_self ..
  have hother : ∀ j, j ≠ k → ((u.send k reply).finish k).side j = s.side j := fun j hjk => by
    refine (Function.update_of_ne hjk _ _).trans ?_
    rw [hu]
    exact Function.update_of_ne hjk _ _
  refine ⟨?_, ?_, ?_, hself, hother, hfin, ?_, ?_, ?_, ?_⟩
  · rw [hsock, hside]
  · rw [hsock, hside]
  · rw [hsock, hside]
  · rw [hu]
    rfl
  · rw [hu]
    rfl
  · rw [hu]
    rfl
  · rw [hu]
    rfl

/-- The reply to a decided send is sent, and cached last. -/
theorem retains_replied {e : SendEvent} {reply : ServerEvent} {F : Finset String}
    (hI : Caching (s.cached k) (s.sending k))
    (hh : (s.conn k).handler = some (.send (.reply e reply)))
    (h : s.step env (.resume (.handler k)) = some t) :
    (t.side k).socket = (s.side k).socket.sendRaw reply ∧ t.Retains k e.clientId reply F := by
  obtain ⟨x, hx, hu⟩ := Option.bind_eq_some_iff.mp h
  cases hh.symm.trans hx
  cases Option.some.inj hu
  constructor
  · have hupd : ∀ (u : Sys) f, ((u.updConduct k f).side k).socket = (u.side k).socket := by
      intro u f
      show (Function.update u.side k _ k).socket = _
      rw [Function.update_self]
    have hsent : ∀ u : Sys, (((u.send k reply).finish k).side k).socket =
        (u.side k).socket.sendRaw reply := by
      intro u
      show (Function.update u.side k _ k).socket = _
      rw [Function.update_self]
    unfold handleSendReply
    dsimp only
    rw [hsent, hupd]
    split <;> rfl
  · have hs : s.sending k = some e := by
      unfold sending
      rw [hh]
      rfl
    have hcached : (s.handleSendReply k e reply).cached k =
        cacheReply (s.cached k) e.clientId reply := by
      show ((s.handleSendReply k e reply).vitals k).replies = _
      rw [vitals_handleSendReply, Function.update_self]
      rfl
    unfold Retains
    rw [hcached, cacheReply_fresh _ (hI.fresh e hs)]
    split
    · rename_i hlong
      -- the entry that is evicted is an older one
      cases hc : s.cached k with
      | nil =>
          rw [hc] at hlong
          simp at hlong
      | cons p old => exact ⟨old, [], rfl, by simp⟩
    · exact ⟨s.cached k, [], rfl, by simp⟩

end sending

end Sys

open Sys in
/-- A cache never holds more than 64 replies. A send that is handled after the decision of a send
with its client id, with no rollover of the connection in between and fewer than 64 other client
ids decided, is a replay. -/
theorem replays_idempotent (env : Env) :
    (∀ s, (system env).Reaches Free s → ∀ k, (s.cached k).length ≤ 64) ∧
    ∀ (s₀ s₁ s₂ : Sys) (k : ConnKey) (e e' : SendEvent) (reply : ServerEvent) (F : Finset String)
      (ls : List Label) (rest : List Raw), (system env).Reaches Free s₀ →
      (s₀.conn k).joined = true → (s₀.conn k).handler = some (.send (.reply e reply)) →
      s₀.step env (.resume (.handler k)) = some s₁ →
      F.card < 64 → (system env).Run (Spares env k e.clientId F) s₁ ls s₂ →
      (s₂.conn k).closed = false → (s₂.conn k).handler = none →
      (s₂.side k).queue = .event (.send e') :: rest → e'.clientId = e.clientId →
      (s₁.side k).socket = (s₀.side k).socket.sendRaw reply ∧
        ∃ t, s₂.step env (.handle k) = some t ∧ Replays s₂ k reply t := by
  refine ⟨fun s hs k => (caching_of_reaches hs k).size, ?_⟩
  intro s₀ s₁ s₂ k e e' reply F ls rest h₀ hj hh h₁ hF hrun hopen hidle hq he
  have hB := born_of_reaches h₀
  have hk : k ∈ s₀.accepted := by
    by_contra hn
    rw [hB.unborn k hn] at hh
    cases hh
  have hj₁ : (s₁.conn k).joined = true := by
    by_contra hun
    rw [(Sys.coreStep h₁).unjoined hB (Bool.not_eq_true _ ▸ hun)] at hj
    cases hj
  have hstep : (system env).step s₀ (.resume (.handler k)) = some s₁ := h₁
  obtain ⟨hsent, hretains⟩ := retains_replied (F := F) (caching_of_reaches h₀ k) hh h₁
  obtain ⟨h₂, hk₂, hj₂, hretains⟩ := hretains.run hF hrun (h₀.step trivial hstep)
    ((Sys.coreStep h₁).mem_accepted hk) hj₁
  exact ⟨hsent, replays_of_retains h₂ hk₂ hj₂ hretains hopen hidle hq he⟩

namespace Demo

/-- The text of the first client is decided, and its reply not yet sent. -/
def deciding : List Label := oneJoined ++ sending (conn 1) "hello" ++ turns (conn 1) 2

/-- Another text with the same client id, on another day. -/
def again : SendEvent := { clientId := "c", text := "other", day := some 3 }

/-- The connection is about to cache the reply to its first text. -/
def replying (s : Sys) : Bool :=
  (s.conn (conn 1)).joined &&
    ((s.conn (conn 1)).handler.bind Handler.decision).any fun p => decide (p.1.clientId = "c")

/-- The other text is the next frame of an open and idle connection. -/
def asking (s : Sys) : Bool :=
  !(s.conn (conn 1)).closed && (s.conn (conn 1)).handler.isNone &&
    match (s.side (conn 1)).queue with
    | .event (.send e) :: _ => decide (e.clientId = "c")
    | _ => false

end Demo

theorem Handler.eq_of_decision {x : Handler} {e : SendEvent} {reply : ServerEvent}
    (h : x.decision = some (e, reply)) : x = .send (.reply e reply) := by
  unfold Handler.decision at h
  split at h
  · cases h
    rfl
  · cases h

open Sys in
/-- Another text with the client id of the first one gets the reply to the first. -/
theorem replays_hello : ∃ (s t : Sys) (reply : ServerEvent),
    (system (Demo.env none)).Reaches Free s ∧ Replays s (Demo.conn 1) reply t := by
  obtain ⟨s₀, h₀, hP⟩ := exists_reached_free (Demo.env none)
    (fun s => Demo.replying s &&
      (s.step (Demo.env none) (.resume (.handler (Demo.conn 1)))).any fun t =>
        (t.step (Demo.env none) (.frame (Demo.conn 1) (.event (.send Demo.again)))).any Demo.asking)
    Demo.noon Demo.deciding (by decide +kernel)
  simp only [Bool.and_eq_true, Option.any_eq_true] at hP
  obtain ⟨hr, s₁, h₁, s₂, h₂, ha⟩ := hP
  obtain ⟨hj, hd⟩ := (Bool.and_eq_true _ _).mp hr
  obtain ⟨⟨e, reply⟩, hd, he⟩ := (Option.any_eq_true _ _).mp hd
  obtain ⟨x, hx, hd⟩ := Option.bind_eq_some_iff.mp hd
  rw [Handler.eq_of_decision hd] at hx
  unfold Demo.asking at ha
  simp only [Bool.and_eq_true, Bool.not_eq_true', Option.isNone_iff_eq_none] at ha
  obtain ⟨⟨hopen, hidle⟩, hq⟩ := ha
  split at hq
  · rename_i e' rest hqueue
    have hspares : Spares (Demo.env none) (Demo.conn 1) e.clientId ∅ s₁
        (.frame (Demo.conn 1) (.event (.send Demo.again))) := ⟨rfl, fun _ _ h => by cases h⟩
    have hrun : (system (Demo.env none)).Run (Spares (Demo.env none) (Demo.conn 1) e.clientId ∅) s₁
        [.frame (Demo.conn 1) (.event (.send Demo.again))] s₂ := .cons hspares h₂ (.nil _)
    have hstep₁ : (system (Demo.env none)).step s₀ (.resume (.handler (Demo.conn 1))) = some s₁ :=
      h₁
    have hstep₂ : (system (Demo.env none)).step s₁
        (.frame (Demo.conn 1) (.event (.send Demo.again))) = some s₂ := h₂
    have hreach := (h₀.step trivial hstep₁).step trivial hstep₂
    have hid : e'.clientId = e.clientId := (of_decide_eq_true hq).trans (of_decide_eq_true he).symm
    obtain ⟨-, t, -, ht⟩ := (replays_idempotent (Demo.env none)).2 s₀ s₁ s₂ (Demo.conn 1) e e' reply
      ∅ _ rest h₀ hj hx h₁ (by decide) hrun hopen hidle hqueue hid
    exact ⟨s₂, t, reply, hreach, ht⟩
  · cases hq

end RoomBackend
