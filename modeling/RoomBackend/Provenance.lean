import RoomBackend.Renewal

/-! # Where tokens, records and histories come from

The journal accounts for what the store holds: a resume token was linked to its session, a
record lies under its own id, a message of a room's history was appended to that room. So what
a suspended `join` or `rollover` has been answered is accounted for as well, and with it what
the welcomes and resets say: the token they name was linked to the session they name, and the
history of a welcome was appended to the room it names. -/

namespace RoomBackend

open Async Day Lts Expiring

/-! ### The store -/

/-- The token was linked to the session. -/
def World.Links (w : World) (token : Token) (sid : Sid) : Prop := .linked token sid ∈ w.journal

/-- The message was appended to the room. -/
def World.Posted (w : World) (roomId : String) (m : StoredMessage) : Prop :=
  ∃ k n l, .appended k n l roomId m ∈ w.journal

theorem World.Links.mono {w w' : World} {token : Token} {sid : Sid} (h : w.Links token sid)
    (hw : w.journal ⊆ w'.journal) : w'.Links token sid := hw h

theorem World.Posted.mono {w w' : World} {roomId : String} {m : StoredMessage}
    (h : w.Posted roomId m) (hw : w.journal ⊆ w'.journal) : w'.Posted roomId m := by
  obtain ⟨k, n, l, ho⟩ := h
  exact ⟨k, n, l, hw ho⟩

/-- The journal accounts for the store. -/
structure Accounted (w : World) : Prop where
  tokens : ∀ token e, w.store.resume (hashToken token) = some e → w.Links token e.v
  sids : ∀ sid e, w.store.sess sid = some e → e.v.sid = sid
  lists : ∀ roomId e, w.store.lists roomId = some e → ∀ m ∈ e.v, w.Posted roomId m

/-- The entries of the three maps were there before, and the journal has grown. -/
theorem Accounted.mono {w w' : World} (h : Accounted w) (hw : w.journal ⊆ w'.journal)
    (ht : ∀ hash e, w'.store.resume hash = some e → w.store.resume hash = some e)
    (hs : ∀ sid e, w'.store.sess sid = some e → w.store.sess sid = some e)
    (hl : ∀ roomId e, w'.store.lists roomId = some e → w.store.lists roomId = some e) :
    Accounted w' :=
  ⟨fun token e he => (h.tokens token e (ht _ e he)).mono hw,
    fun sid e he => h.sids sid e (hs _ e he),
    fun roomId e he m hm => (h.lists roomId e (hl _ e he) m hm).mono hw⟩

theorem Accounted.save {w : World} (h : Accounted w) (k : ConnKey) (req : SaveReq) :
    Accounted (World.save k req w).2 := by
  have hw : w.journal ⊆ (World.save k req w).2.journal := List.subset_append_left _ _
  refine ⟨fun token e he => (h.tokens token e he).mono hw, fun sid e he => ?_,
    fun roomId e he m hm => (h.lists roomId e he m hm).mono hw⟩
  replace he : w.store.sess.write req.record.sid req.record req.expireAt sid = some e := he
  by_cases hs : sid = req.record.sid
  · subst hs
    rw [Map.write_same] at he
    cases he
    rfl
  · rw [Map.write_ne _ _ _ hs] at he
    exact h.sids sid e he

theorem Accounted.link {w : World} (h : Accounted w) (token : Token) (sid : Sid) (expireAt : ℤ) :
    Accounted (World.link token sid expireAt w).2 := by
  have hw : w.journal ⊆ (World.link token sid expireAt w).2.journal := List.subset_append_left _ _
  refine ⟨fun t e he => ?_, h.sids, fun roomId e he m hm => (h.lists roomId e he m hm).mono hw⟩
  replace he : w.store.resume.write (hashToken token) sid expireAt (hashToken t) = some e := he
  by_cases ht : hashToken t = hashToken token
  · rw [ht, Map.write_same] at he
    cases he
    cases ht
    exact List.mem_append_right _ (List.mem_singleton_self _)
  · rw [Map.write_ne _ _ _ ht] at he
    exact (h.tokens t e he).mono hw

theorem Accounted.append {w : World} (h : Accounted w) (now : ℤ) (keep : ℕ) (k : ConnKey) (n : ℕ)
    (l : SendLocals) (room : DailyRoom) (m : StoredMessage) :
    Accounted (World.append now keep k n l room m w).2 := by
  have hw : w.journal ⊆ (World.append now keep k n l room m w).2.journal :=
    List.subset_append_left _ _
  refine ⟨fun t e he => (h.tokens t e he).mono hw, h.sids, fun roomId e he x hx => ?_⟩
  replace he : (w.store.appendMessage now room.roomId m keep room.endsAt).2.lists roomId =
      some e := he
  unfold Store.appendMessage at he
  dsimp only at he
  by_cases hr : roomId = room.roomId
  · subst hr
    rw [Map.write_same] at he
    cases he
    rcases List.mem_append.mp (List.mem_of_mem_drop hx) with hx | hx
    · -- an older message of the room
      cases hv : w.store.lists.lookup now room.roomId with
      | none =>
          rw [hv] at hx
          cases hx
      | some v =>
          rw [hv] at hx
          obtain ⟨e, he, -, rfl⟩ := Map.lookup_eq_some.mp hv
          exact (h.lists _ e he x hx).mono hw
    · rw [List.mem_singleton.mp hx]
      exact ⟨k, n, l, List.mem_append_right _ (List.mem_singleton_self _)⟩
  · rw [Map.write_ne _ _ _ hr] at he
    exact (h.lists roomId e he x hx).mono hw

/-- What a room's history answers was appended to it. -/
theorem Accounted.recent {w : World} (h : Accounted w) {now : ℤ} {roomId : String} {limit : ℕ}
    {m : StoredMessage} (hm : m ∈ (w.store.recentMessages now roomId limit).1) :
    w.Posted roomId m := by
  unfold Store.recentMessages at hm
  dsimp only at hm
  split at hm
  · cases hm
  · have hm := List.mem_of_mem_drop hm
    cases hv : w.store.lists.lookup now roomId with
    | none =>
        rw [hv] at hm
        cases hm
    | some v =>
        rw [hv] at hm
        obtain ⟨e, he, -, rfl⟩ := Map.lookup_eq_some.mp hv
        exact h.lists _ e he m hm

theorem Effect.accounted {env : Env} {c : Core} {th : Thread} {w : World}
    (he : Effect env c th w) (h : Accounted c.world) : Accounted w := by
  have quiet : ∀ {w : World}, w.journal = c.world.journal → w.store.Keeps c.world.store →
      Accounted w := by
    intro w hj hk
    refine h.mono (fun o ho => by rw [hj]; exact ho) (fun hash e he => ?_) (fun sid e he => ?_)
      fun roomId e he => ?_
    · rwa [hk.resume] at he
    · rwa [hk.sess] at he
    · rwa [hk.lists] at he
  cases he with
  | save hs => exact h.save _ _
  | load sid =>
      exact h.mono (fun _ ho => ho) (fun _ _ he => he) (fun _ _ he => Map.read_snd_eq_some he)
        fun _ _ he => he
  | append ht hh => exact h.append _ _ _ _ _ _ _
  | publish ht hh =>
      exact h.mono (List.subset_append_left _ _) (fun _ _ he => he) (fun _ _ he => he)
        fun _ _ he => he
  | link => exact h.link _ _ _
  | resolve hash =>
      exact h.mono (fun _ ho => ho) (fun _ _ he => Map.read_snd_eq_some he) (fun _ _ he => he)
        fun _ _ he => he
  | deleteRoom roomId =>
      refine h.mono (fun _ ho => ho) (fun _ _ he => he) (fun _ _ he => he) fun roomId' e he => ?_
      replace he : c.world.store.lists.erase roomId roomId' = some e := he
      by_cases hr : roomId' = roomId
      · rw [hr, Map.erase_same] at he
        cases he
      · rwa [Map.erase_ne _ hr] at he
  | other hk => exact quiet rfl hk
  | _ => exact ⟨h.tokens, h.sids, h.lists⟩

theorem WorldStep.accounted {env : Env} {up : ConnKey → Bool} {c : Core} {l : Label} {w : World}
    (hw : WorldStep env up c l w) (h : Accounted c.world) : Accounted w := by
  have noted : ∀ (log : List Obs) {d : World}, d.journal = c.world.journal →
      d.store = c.world.store → Accounted (d.note log) := by
    intro log d hj hs
    refine h.mono ?_ (fun _ _ he => hs ▸ he) (fun _ _ he => hs ▸ he) fun _ _ he => hs ▸ he
    rw [World.note, hj]
    exact List.subset_append_left _ _
  cases hw with
  | same => exact h
  | act => exact noted _ rfl rfl
  | handle => exact noted _ rfl rfl
  | settled hl ho he => exact he.accounted h
  | rolled => exact noted _ rfl rfl
  | received => exact noted _ rfl rfl
  | flushed => exact noted _ rfl rfl
  | subscribers => exact ⟨h.tokens, h.sids, h.lists⟩

/-! ### Suspended functions -/

/-- A finished `create` has linked its token. -/
def CreatePc.Sourced (w : World) : CreatePc → Prop
  | link _ record token _ p => p = .fulfilled () → w.Links token record.sid
  | _ => True

/-- `resume` of a token goes on with the session the token was linked to. -/
def ResumePc.Sourced (w : World) (token : Token) : ResumePc → Prop
  | resolve _ token' p => token' = token ∧ ∀ sid, p = .fulfilled (some sid) → w.Links token sid
  | load _ sid p => w.Links token sid ∧ ∀ r, p = .fulfilled (some r) → r.sid = sid

/-- `join` goes on with a session and a token linked to it, and with messages of its room. -/
def JoinPc.Sourced (w : World) : JoinPc → Prop
  | resume _ token r => r.Sourced w token
  | rejoin _ record token _ => w.Links token record.sid
  | newsess _ _ _ => True
  | create _ c => c.Sourced w
  | block _ record token _ => w.Links token record.sid
  | history _ r token room p =>
      w.Links token r.sid ∧ ∀ ms, p = .fulfilled ms → ∀ m ∈ ms, w.Posted room.roomId m

def Handler.Sourced (w : World) : Handler → Prop
  | join p => p.Sourced w
  | _ => True

/-- A frame names a session and a token linked to it; its history is of its room. -/
def Announcement.Sourced (w : World) : Announcement → Prop
  | welcome r token room history => w.Links token r.sid ∧ ∀ m ∈ history, w.Posted room.roomId m
  | reset r token _ => w.Links token r.sid

section mono

variable {w w' : World} (hw : w.journal ⊆ w'.journal)
include hw

theorem CreatePc.Sourced.mono {p : CreatePc} (h : p.Sourced w) : p.Sourced w' := by
  cases p with
  | link room record token saved p => exact fun hp => (h hp).mono hw
  | _ => trivial

theorem ResumePc.Sourced.mono {token : Token} {p : ResumePc} (h : p.Sourced w token) :
    p.Sourced w' token := by
  cases p with
  | resolve room token' p => exact ⟨h.1, fun sid hp => (h.2 sid hp).mono hw⟩
  | load room sid p => exact ⟨h.1.mono hw, h.2⟩

theorem JoinPc.Sourced.mono {p : JoinPc} (h : p.Sourced w) : p.Sourced w' := by
  cases p with
  | resume j token r => exact ResumePc.Sourced.mono hw h
  | rejoin j record token p => exact World.Links.mono h hw
  | newsess j room p => trivial
  | create j c => exact CreatePc.Sourced.mono hw h
  | block j record token p => exact World.Links.mono h hw
  | history j r token room p => exact ⟨h.1.mono hw, fun ms hp m hm => (h.2 ms hp m hm).mono hw⟩

theorem Handler.Sourced.mono {h : Handler} (hs : h.Sourced w) : h.Sourced w' := by
  cases h with
  | join p => exact JoinPc.Sourced.mono hw hs
  | _ => trivial

theorem Announcement.Sourced.mono {a : Announcement} (h : a.Sourced w) : a.Sourced w' := by
  cases a with
  | welcome r token room history => exact ⟨h.1.mono hw, fun m hm => (h.2 m hm).mono hw⟩
  | reset r token room => exact World.Links.mono h hw

end mono

/-! ### Operations that are answered -/

section settle

variable {env : Env} {now : ℤ} {k : ConnKey} {n : ℕ} {info : AdmitInfo} {o : Outcome}
  {w w' : World}

theorem CreatePc.settle_sourced {p p' : CreatePc} (hs : p.settle now k o w = some (p', w')) :
    p'.Sourced w' := by
  cases p with
  | claim room input sid i candidate p =>
      obtain ⟨r, hr, he⟩ := Option.map_eq_some_iff.mp hs
      rw [← (Prod.mk.inj he).1]
      trivial
  | save room record token p =>
      obtain ⟨r, hr, he⟩ := Option.map_eq_some_iff.mp hs
      rw [← (Prod.mk.inj he).1]
      trivial
  | link room record token saved p =>
      obtain ⟨⟨p₁, w₁⟩, hr, he⟩ := Option.map_eq_some_iff.mp hs
      obtain ⟨rfl, rfl⟩ := Prod.mk.inj he
      rintro rfl
      rw [(Promise.settle_fulfilled hr).2]
      exact List.mem_append_right _ (List.mem_singleton_self _)

theorem ResumePc.settle_sourced {token : Token} {p p' : ResumePc}
    (hs : p.settle now o w = some (p', w')) (hA : Accounted w) (hw : w.journal ⊆ w'.journal)
    (h : p.Sourced w token) : p'.Sourced w' token := by
  cases p with
  | resolve room token' p =>
      obtain ⟨⟨p₁, w₁⟩, hr, he⟩ := Option.map_eq_some_iff.mp hs
      obtain ⟨rfl, rfl⟩ := Prod.mk.inj he
      obtain ⟨rfl, -⟩ := h
      refine ⟨rfl, ?_⟩
      rintro sid rfl
      have ha := (Promise.settle_fulfilled hr).1
      replace ha : some sid = (w.store.resume.read now (hashToken token')).1 := ha
      rw [Map.read_fst] at ha
      obtain ⟨e, hent, -, rfl⟩ := Map.lookup_eq_some.mp ha.symm
      exact (hA.tokens _ e hent).mono hw
  | load room sid p =>
      obtain ⟨⟨p₁, w₁⟩, hr, he⟩ := Option.map_eq_some_iff.mp hs
      obtain ⟨rfl, rfl⟩ := Prod.mk.inj he
      refine ⟨h.1.mono hw, ?_⟩
      rintro r rfl
      have ha := (Promise.settle_fulfilled hr).1
      replace ha : some r =
          (w.store.sess.read now sid).1.map fun r => { r with base := w.rev sid } :=
        ha
      rw [Map.read_fst] at ha
      obtain ⟨r₀, hl, rfl⟩ := Option.map_eq_some_iff.mp ha.symm
      obtain ⟨e, hent, -, rfl⟩ := Map.lookup_eq_some.mp hl
      exact hA.sids sid e hent

theorem JoinPc.settle_sourced {p p' : JoinPc} (hs : p.settle env now k info o w = some (p', w'))
    (hA : Accounted w) (hw : w.journal ⊆ w'.journal) (h : p.Sourced w) : p'.Sourced w' := by
  cases p with
  | resume j token r =>
      obtain ⟨⟨r₁, w₁⟩, hr, he⟩ := Option.map_eq_some_iff.mp hs
      obtain ⟨rfl, rfl⟩ := Prod.mk.inj he
      exact ResumePc.settle_sourced hr hA hw h
  | rejoin j record token p =>
      obtain ⟨r, hr, he⟩ := Option.map_eq_some_iff.mp hs
      rw [← (Prod.mk.inj he).1]
      exact World.Links.mono h hw
  | newsess j room p =>
      obtain ⟨r, hr, he⟩ := Option.map_eq_some_iff.mp hs
      rw [← (Prod.mk.inj he).1]
      trivial
  | create j c =>
      obtain ⟨⟨c₁, w₁⟩, hr, he⟩ := Option.map_eq_some_iff.mp hs
      obtain ⟨rfl, rfl⟩ := Prod.mk.inj he
      exact CreatePc.settle_sourced hr
  | block j record token p =>
      obtain ⟨r, hr, he⟩ := Option.map_eq_some_iff.mp hs
      rw [← (Prod.mk.inj he).1]
      exact World.Links.mono h hw
  | history j r token room p =>
      obtain ⟨⟨p₁, w₁⟩, hr, he⟩ := Option.map_eq_some_iff.mp hs
      obtain ⟨rfl, rfl⟩ := Prod.mk.inj he
      refine ⟨h.1.mono hw, ?_⟩
      rintro ms rfl m hm
      have ha := (Promise.settle_fulfilled hr).1
      replace ha : ms = (w.store.recentMessages now room.roomId env.config.historyLimit).1 := ha
      rw [ha] at hm
      exact (hA.recent hm).mono hw

end settle

/-! ### Stretches of a handler -/

section resume

variable {env : Env} {w : World}

theorem CreatePc.wait_sourced {d d' : ℕ} {p p' : CreatePc}
    (hr : p.resume env d = some (.wait p', d')) : p'.Sourced w := by
  unfold CreatePc.resume at hr
  split at hr
  · split at hr
    · cases hr
    · cases hr
    · cases hr
      trivial
    · split at hr
      · cases hr
        trivial
      · cases hr
  · split at hr
    · cases hr
    · cases hr
      intro he
      cases he
    · cases hr
      intro he
      cases he
  · split at hr
    · cases hr
    · cases hr
    · split at hr <;> cases hr

theorem CreatePc.done_sourced {d d' : ℕ} {p : CreatePc} {r : SessionRecord} {token : Token}
    (hr : p.resume env d = some (.done r token, d')) (h : p.Sourced w) : w.Links token r.sid := by
  unfold CreatePc.resume at hr
  split at hr
  · split at hr
    · cases hr
    · cases hr
    · cases hr
    · split at hr <;> cases hr
  · split at hr <;> cases hr
  · split at hr
    · cases hr
    · cases hr
    · split at hr
      · cases hr
        exact h rfl
      · cases hr

theorem ResumePc.wait_sourced {token : Token} {p p' : ResumePc}
    (hr : p.resume = some (.wait p')) (h : p.Sourced w token) : p'.Sourced w token := by
  cases p with
  | resolve room token' p =>
      obtain ⟨sid, hp, he⟩ := Option.map_eq_some_iff.mp hr
      cases sid with
      | none => cases he
      | some sid =>
          cases he
          rcases Promise.orElse_eq_some.mp hp with hp | ⟨-, hn⟩
          · refine ⟨h.2 sid hp, fun r hq => ?_⟩
            cases hq
          · cases hn
  | load room sid p =>
      obtain ⟨r, hp, he⟩ := Option.map_eq_some_iff.mp hr
      cases he

theorem ResumePc.done_sourced {token : Token} {p : ResumePc} {r : SessionRecord}
    (hr : p.resume = some (.done (some r))) (h : p.Sourced w token) : w.Links token r.sid := by
  cases p with
  | resolve room token' p =>
      obtain ⟨sid, hp, he⟩ := Option.map_eq_some_iff.mp hr
      cases sid <;> cases he
  | load room sid p =>
      obtain ⟨x, hp, he⟩ := Option.map_eq_some_iff.mp hr
      cases x with
      | none => cases he
      | some x =>
          have hx : (some x).filter (fun r => r.roomId = room.roomId) = some r := by
            simpa using he
          obtain ⟨hx, -⟩ := Option.filter_eq_some_iff.mp hx
          cases hx
          rcases Promise.orElse_eq_some.mp hp with hp | ⟨-, hn⟩
          · rw [h.2 r hp]
            exact h.1
          · cases hn

theorem JoinMove.sourced {c : Core} {k : ConnKey} {p p' : JoinPc} {d : ℕ}
    (hm : JoinMove env c k p p' d) (h : p.Sourced w) : p'.Sourced w := by
  cases hm with
  | resume hr => exact ResumePc.wait_sourced hr h
  | unknown hr => trivial
  | found hr => exact ResumePc.done_sourced hr h
  | create input hp hi => trivial
  | creating hp => exact CreatePc.wait_sourced hp
  | created hp hroom hc => exact CreatePc.done_sourced hp h
  | rejoined hp hroom hc => exact h
  | retryCreated hp => trivial
  | retryRejoined => trivial

/-- A stretch of a handler goes on with what it was answered. -/
theorem Act.sourced {k : ConnKey} {up : Bool} {c c₁ : Core} {h h' : Option Handler}
    (ha : Act env k up c h c₁ h') (hh : ∀ x, h = some x → x.Sourced w) :
    ∀ x, h' = some x → x.Sourced w := by
  intro x hx
  cases ha with
  | idle => cases hx
  | joinStart hj =>
      cases hx
      refine ⟨rfl, fun sid hp => ?_⟩
      cases hp
  | joinFresh hj =>
      cases hx
      trivial
  | joinMove hp =>
      cases hx
      exact hp.sourced (hh _ rfl)
  | joinEnter hp ht =>
      cases hx
      refine ⟨hh _ rfl, fun ms hq => ?_⟩
      cases hq
  | _ =>
      cases hx
      try trivial

end resume

/-! ### Runs -/

/-- The journal accounts for the store, for what was answered, and for what was announced. -/
structure Sourced (c : Core) : Prop where
  world : Accounted c.world
  handler : ∀ k h, (c.conn k).handler = some h → h.Sourced c.world
  rolling : ∀ k p, (c.conn k).rolling = some p → p.create.Sourced c.world
  told : ∀ k, ∀ a ∈ (c.conn k).announced, a.Sourced c.world

theorem CoreStep.journal {env : Env} {up : ConnKey → Bool} {c c' : Core} {l : Label}
    (hs : CoreStep env up c l c') : c.world.journal ⊆ c'.world.journal := by
  obtain ⟨log, -, hw⟩ := hs.world.log
  rw [hw]
  exact List.subset_append_left _ _

/-- A handler whose operation is settled, and the world with it. -/
theorem CoreStep.settledHandler {env : Env} {up : ConnKey → Bool} {c c' : Core} {k : ConnKey}
    {o : Outcome} {v : Bool} (hs : CoreStep env up c (.settle (.handler k) o v) c') :
    c' = c ∨ ∃ h h', (c.conn k).handler = some h ∧ (c'.conn k).handler = some h' ∧
      h.settle env c.clock v k (c.conn k).handled (c.conn k).info o c.world =
        some (h', c'.world) := by
  cases hs with
  | same => exact Or.inl rfl
  | settle hs =>
      obtain ⟨h, hh, hs⟩ := Option.bind_eq_some_iff.mp hs
      obtain ⟨⟨h', w⟩, hr, rfl⟩ := Option.map_eq_some_iff.mp hs
      exact Or.inr ⟨h, h', hh, by rw [Core.suspend, Core.setHandler_conn], hr⟩

/-- A renewal whose operation is settled, and the world with it. -/
theorem CoreStep.settledRollover {env : Env} {up : ConnKey → Bool} {c c' : Core} {k : ConnKey}
    {o : Outcome} {v : Bool} (hs : CoreStep env up c (.settle (.rollover k) o v) c') :
    c' = c ∨ ∃ p p', (c.conn k).rolling = some p ∧ (c'.conn k).rolling = some p' ∧
      p.create.settle c.clock k o c.world = some (p'.create, c'.world) := by
  cases hs with
  | same => exact Or.inl rfl
  | settle hs =>
      obtain ⟨p, hp, hs⟩ := Option.bind_eq_some_iff.mp hs
      obtain ⟨⟨p', w⟩, hr, rfl⟩ := Option.map_eq_some_iff.mp hs
      obtain ⟨⟨q, w'⟩, hq, he⟩ := Option.map_eq_some_iff.mp hr
      obtain ⟨rfl, rfl⟩ := Prod.mk.inj he
      exact Or.inr ⟨p, _, hp, by rw [Core.setRolling, Core.updConn_conn], hq⟩

theorem Handler.settle_sourced {env : Env} {now : ℤ} {v : Bool} {k : ConnKey} {n : ℕ}
    {info : AdmitInfo} {o : Outcome} {w w' : World} {h h' : Handler}
    (hs : h.settle env now v k n info o w = some (h', w')) (hA : Accounted w)
    (hw : w.journal ⊆ w'.journal) (hh : h.Sourced w) : h'.Sourced w' := by
  cases h with
  | join p =>
      obtain ⟨⟨p', w₁⟩, hr, he⟩ := Option.map_eq_some_iff.mp hs
      obtain ⟨rfl, rfl⟩ := Prod.mk.inj he
      exact JoinPc.settle_sourced hr hA hw hh
  | send p =>
      obtain ⟨r, hr, he⟩ := Option.map_eq_some_iff.mp hs
      rw [← (Prod.mk.inj he).1]
      trivial
  | challenge p =>
      obtain ⟨r, hr, he⟩ := Option.map_eq_some_iff.mp hs
      rw [← (Prod.mk.inj he).1]
      trivial
  | report p =>
      obtain ⟨r, hr, he⟩ := Option.map_eq_some_iff.mp hs
      rw [← (Prod.mk.inj he).1]
      trivial

theorem Sourced.handler_step {env : Env} {up : ConnKey → Bool} {c c' : Core} {l : Label}
    (hs : CoreStep env up c l c') (h : Sourced c) (k : ConnKey) :
    ∀ x, (c'.conn k).handler = some x → x.Sourced c'.world := by
  intro x hx
  have hw := hs.journal
  by_cases hl : ∃ o v, l = .settle (.handler k) o v
  · obtain ⟨o, v, rfl⟩ := hl
    rcases hs.settledHandler with rfl | ⟨h₀, h', hh, hh', hr⟩
    · exact h.handler k x hx
    · obtain rfl : h' = x := Option.some.inj (hh'.symm.trans hx)
      exact Handler.settle_sourced hr h.world hw (h.handler k h₀ hh)
  · have hc := hs.conn k
    generalize hck : c'.conn k = y at hc hx
    cases hc with
    | act hl' hh ha =>
        refine Handler.Sourced.mono hw (ha.sourced (fun z hz => ?_) x hx)
        cases hz
        exact h.handler k _ hh
    | handle hl' hk hh ha =>
        exact Handler.Sourced.mono hw (ha.sourced (fun z hz => by cases hz) x hx)
    | settled hl' => exact absurd ⟨_, _, hl'⟩ hl
    | accepted => cases hx
    | _ => exact (h.handler k x hx).mono hw

theorem Sourced.rolling_step {env : Env} {up : ConnKey → Bool} {c c' : Core} {l : Label}
    (hs : CoreStep env up c l c') (h : Sourced c) (k : ConnKey) :
    ∀ p, (c'.conn k).rolling = some p → p.create.Sourced c'.world := by
  intro p hp
  have hw := hs.journal
  by_cases hl : ∃ o v, l = .settle (.rollover k) o v
  · obtain ⟨o, v, rfl⟩ := hl
    rcases hs.settledRollover with rfl | ⟨q, q', hq, hq', hr⟩
    · exact h.rolling k p hp
    · obtain rfl : q' = p := Option.some.inj (hq'.symm.trans hp)
      exact CreatePc.settle_sourced hr
  · have hc := hs.conn k
    generalize hck : c'.conn k = y at hc hp
    cases hc with
    | act hl' hh ha =>
        rw [show _ = (c.conn k).rolling from ha.kept.rolling] at hp
        exact (h.rolling k p hp).mono hw
    | handle hl' hk hh ha =>
        rw [show _ = ((c.take k).conn k).rolling from ha.kept.rolling, Core.take_conn] at hp
        exact (h.rolling k p hp).mono hw
    | accepted => cases hp
    | begins => cases hp; trivial
    | rolling hl' => exact absurd ⟨_, _, hl'⟩ hl
    | creating hp' hr => cases hp; exact CreatePc.wait_sourced hr
    | rolled => cases hp
    | renewed => cases hp
    | _ => exact (h.rolling k p hp).mono hw

theorem Sourced.told_step {env : Env} {up : ConnKey → Bool} {c c' : Core} {l : Label}
    (hs : CoreStep env up c l c') (h : Sourced c) (k : ConnKey) :
    ∀ a ∈ (c'.conn k).announced, a.Sourced c'.world := by
  intro a ha
  have hw := hs.journal
  have hx := (hs.conn k).announces
  generalize (c'.conn k).announced = x at hx ha
  cases hx with
  | same => exact (h.told k a ha).mono hw
  | accepted => cases ha
  | welcome hl hh hp hup =>
      rcases List.mem_append.mp ha with ha | ha
      · exact (h.told k a ha).mono hw
      · rw [List.mem_singleton.mp ha]
        obtain ⟨hlink, hms⟩ := h.handler k _ hh
        refine Announcement.Sourced.mono hw ⟨hlink, fun m hm => ?_⟩
        rcases Promise.orElse_eq_some.mp hp with hp | ⟨-, rfl⟩
        · exact hms _ hp m hm
        · cases hm
  | reset hl hp hr hup =>
      rcases List.mem_append.mp ha with ha | ha
      · exact (h.told k a ha).mono hw
      · rw [List.mem_singleton.mp ha]
        exact (CreatePc.done_sourced hr (h.rolling k _ hp)).mono hw

theorem Sourced.step {env : Env} {up : ConnKey → Bool} {c c' : Core} {l : Label}
    (hs : CoreStep env up c l c') (h : Sourced c) : Sourced c' :=
  ⟨hs.world.accounted h.world, h.handler_step hs, h.rolling_step hs, h.told_step hs⟩

theorem sourced_of_reaches {env : Env} {C : Sys → Label → Prop} {s : Sys}
    (h : (system env).Reaches C s) : Sourced s.toCore := by
  refine Machine.Reaches.invariant (I := fun s => Sourced s.toCore) ?_ ?_ h
  · rintro s ⟨t, rfl⟩
    refine ⟨⟨fun token e he => ?_, fun sid e he => ?_, fun roomId e he => ?_⟩, fun k h hh => ?_,
      fun k p hp => ?_, fun k a ha => ?_⟩
    · cases he
    · cases he
    · cases he
    · cases hh
    · cases hp
    · cases ha
  · intro s l t hI _ hs
    exact hI.step (Sys.coreStep hs)

end RoomBackend
