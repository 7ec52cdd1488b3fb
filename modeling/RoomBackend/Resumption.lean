import RoomBackend.Naming

/-! # A resume token opens its own session

The store keeps two maps with expiries of their own: token to session, session to record. Both
are written by the one call of `create` that drew the id and the token, and the record is
overwritten by saves of the same session. What the maps hold is described by the calls, and an
answer of `resume` by what its two reads found. -/

namespace RoomBackend

open Async Day Lts Expiring

/-! ### What a call of `create` has drawn and written -/

namespace CreateCall

def sid : CreateCall → Option Sid
  | .running (.claim _ _ sid _ _ _) => some sid
  | .running (.save _ r _ _) | .running (.link _ r _ _ _) | .returned r _ => some r.sid
  | .failed => none

def record : CreateCall → Option SessionRecord
  | .running (.save _ r _ _) | .running (.link _ r _ _ _) | .returned r _ => some r
  | _ => none

def token : CreateCall → Option Token
  | .running (.save _ _ token _) | .running (.link _ _ token _ _) | .returned _ token =>
      some token
  | _ => none

/-- The record has been saved. -/
def saved : CreateCall → Bool
  | .running (.save _ _ _ p) => decide (p = .fulfilled ())
  | .running (.link _ _ _ b _) => b
  | .returned _ _ => true
  | _ => false

/-- The token has been linked. -/
def linked : CreateCall → Bool
  | .running (.link _ _ _ _ p) => decide (p = .fulfilled ())
  | .returned _ _ => true
  | _ => false

/-- No operation of the call has failed, and it is about its own room. -/
def Sound (cal : Calendar) : CreateCall → Prop
  | .running (.claim room _ _ _ _ _) => room = cal.room room.roomId
  | .running (.save room r _ p) => room = cal.room r.roomId ∧ p ≠ .rejected
  | .running (.link room r _ b p) => room = cal.room r.roomId ∧ b = true ∧ p ≠ .rejected
  | _ => True

end CreateCall

/-- The operations a step performs are answered. -/
def Call.answered : Call → Bool
  | .createOp _ o | .resumeOp _ o | .saveOp _ o => decide (o = .answered)
  | _ => true

/-- What a step does to one call of `create`, with `d` draws made before. -/
inductive CreateCall.Moves (env : Env) (cal : Calendar) (d : ℕ) :
    Option CreateCall → Option CreateCall → ℕ → Prop
  | stays (c : Option CreateCall) : Moves env cal d c c d
  | starts (roomId : String) (input : NewSessionInput) :
      Moves env cal d none (some (.running (createSession env d (cal.room roomId) input))) (d + 1)
  | claims (room : DailyRoom) (input : NewSessionInput) (sid : Sid) (i : ℕ) (name : String)
      (b : Bool) :
      Moves env cal d (some (.running (.claim room input sid i name .pending)))
        (some (.running (.claim room input sid i name (.fulfilled b)))) d
  | saves (room : DailyRoom) (r : SessionRecord) (token : Token) :
      Moves env cal d (some (.running (.save room r token .pending)))
        (some (.running (.save room r token (.fulfilled ())))) d
  | links (room : DailyRoom) (r : SessionRecord) (token : Token) (b : Bool) :
      Moves env cal d (some (.running (.link room r token b .pending)))
        (some (.running (.link room r token b (.fulfilled ())))) d
  | goes {p : CreatePc} {c : CreateCall} {d' : ℕ} (h : p.Goes env d c d') :
      Moves env cal d (some (.running p)) (some c) d'

namespace CreateCall.Moves

variable {env : Env} {cal : Calendar} {d d' : ℕ} {c c' : CreateCall}
  {x y : Option CreateCall}

theorem draws_le (h : Moves env cal d x y d') : d ≤ d' := by
  cases h with
  | goes h => cases h <;> omega
  | _ => omega

theorem sound (h : Moves env cal d x y d') (hs : ∀ c, x = some c → c.Sound cal) :
    ∀ c, y = some c → c.Sound cal := by
  intro c hc
  cases h with
  | stays => exact hs c hc
  | starts roomId input =>
      obtain rfl := Option.some.inj hc
      change cal.room roomId = cal.room (cal.room roomId).roomId
      rw [cal.roomId_room]
  | claims room input sid i name b =>
      obtain rfl := Option.some.inj hc
      exact hs (.running (.claim room input sid i name .pending)) rfl
  | saves room r token =>
      obtain rfl := Option.some.inj hc
      exact ⟨(hs _ rfl).1, by simp⟩
  | links room r token b =>
      obtain rfl := Option.some.inj hc
      exact ⟨(hs _ rfl).1, (hs _ rfl).2.1, by simp⟩
  | goes h =>
      obtain rfl := Option.some.inj hc
      have hp := hs _ rfl
      cases h with
      | claimed => exact ⟨hp, by simp⟩
      | again => exact hp
      | saved => exact ⟨hp.1, rfl, by simp⟩
      | unsaved => exact absurd rfl hp.2
      | _ => trivial

/-- A call with a record keeps it, its token, and what it has written. -/
theorem keeps (h : Moves env cal d (some c) y d') (hs : c.Sound cal) {r : SessionRecord}
    (hr : c.record = some r) : ∃ c', y = some c' ∧ c'.record = some r ∧ c'.token = c.token ∧
      (c.saved = true → c'.saved = true) ∧ (c.linked = true → c'.linked = true) ∧
      (∀ r token, c = .returned r token → c' = c) := by
  cases h with
  | stays => exact ⟨c, rfl, hr, rfl, id, id, fun _ _ _ => rfl⟩
  | claims => cases hr
  | saves => exact ⟨_, rfl, hr, rfl, fun _ => rfl, id, fun _ _ h => by cases h⟩
  | links => exact ⟨_, rfl, hr, rfl, id, fun _ => rfl, fun _ _ h => by cases h⟩
  | goes h =>
      cases h with
      | claimed => cases hr
      | again => cases hr
      | saved =>
          refine ⟨_, rfl, hr, rfl, fun _ => rfl, ?_, ?_⟩
          · intro h
            cases h
          · intro r token h
            cases h
      | unsaved => exact absurd rfl hs.2
      | returned => exact ⟨_, rfl, hr, rfl, fun _ => rfl, fun _ => rfl, fun _ _ h => by cases h⟩
      | unclaimed => cases hr
      | unlinked room r token b p h =>
          obtain rfl | rfl := h
          · exact absurd hs.2.1 (by simp)
          · exact absurd rfl hs.2.2

/-- The session of a call was its session before, or its id has just been drawn. -/
theorem sid_from (h : Moves env cal d x (some c') d') {sid : Sid} (hx : c'.sid = some sid) :
    (∃ c, x = some c ∧ c.sid = some sid) ∨ (d < d' ∧ sid = env.newSessionId d) := by
  cases h with
  | stays => exact .inl ⟨c', rfl, hx⟩
  | starts => exact .inr ⟨Nat.lt_succ_self d, (Option.some.inj hx).symm⟩
  | goes h => cases h <;> first | exact .inl ⟨_, rfl, hx⟩ | cases hx
  | _ => exact .inl ⟨_, rfl, hx⟩

theorem token_from (h : Moves env cal d x (some c') d') {token : Token}
    (hx : c'.token = some token) :
    (∃ c, x = some c ∧ c.token = some token) ∨ (d < d' ∧ token = env.newResumeToken d) := by
  cases h with
  | stays => exact .inl ⟨c', rfl, hx⟩
  | starts => cases hx
  | goes h =>
      cases h with
      | claimed => exact .inr ⟨Nat.lt_succ_self d, (Option.some.inj hx).symm⟩
      | _ => first | exact .inl ⟨_, rfl, hx⟩ | cases hx
  | _ => exact .inl ⟨_, rfl, hx⟩

end CreateCall.Moves

namespace Service

variable {env : Env} {cal : Calendar} {s t : Service} {l : Call} {n : ℕ}

/-- The slots of calls not yet made are free. -/
structure Slots (s : Service) : Prop where
  create : ∀ n, s.creates ≤ n → s.create n = none
  resume : ∀ n, s.resumes ≤ n → s.resume n = none

/-- A step moves one call of `create` at most. -/
theorem create_moves (hf : s.Slots) (ha : l.answered = true) (h : s.step env cal l = some t) :
    ∃ n, (∀ m, m ≠ n → t.create m = s.create m) ∧
      CreateCall.Moves env cal s.draws (s.create n) (t.create n) t.draws := by
  have other : t.create = s.create → t.draws = s.draws → ∃ n,
      (∀ m, m ≠ n → t.create m = s.create m) ∧
        CreateCall.Moves env cal s.draws (s.create n) (t.create n) t.draws := by
    intro hc hd
    refine ⟨0, fun m _ => by rw [hc], ?_⟩
    rw [hc, hd]
    exact .stays _
  cases l with
  | clock now =>
      simp only [step] at h
      split at h
      · obtain rfl := Option.some.inj h
        exact other rfl rfl
      · cases h
  | create roomId input =>
      obtain rfl := Option.some.inj h
      refine ⟨s.creates, fun m hm => Function.update_of_ne hm _ _, ?_⟩
      rw [hf.create _ (le_refl _)]
      simp only [startCreate, Function.update_self]
      exact .starts roomId input
  | createOp n o =>
      obtain rfl : o = .answered := of_decide_eq_true ha
      obtain ⟨room, input, sid, i, name, hc, rfl⟩ | ⟨room, r, token, hc, rfl⟩ |
        ⟨room, r, token, b, hc, rfl⟩ := createOp_inv h
      · refine ⟨n, fun m hm => Function.update_of_ne hm _ _, ?_⟩
        rw [hc]
        simp only [Function.update_self]
        exact .claims room input sid i name _
      · refine ⟨n, fun m hm => Function.update_of_ne hm _ _, ?_⟩
        rw [hc]
        simp only [Function.update_self]
        exact .saves room r token
      · refine ⟨n, fun m hm => Function.update_of_ne hm _ _, ?_⟩
        rw [hc]
        simp only [Function.update_self]
        exact .links room r token b
  | createNext n =>
      obtain ⟨p, c, d, hc, hg, rfl⟩ := createNext_inv h
      refine ⟨n, fun m hm => Function.update_of_ne hm _ _, ?_⟩
      rw [hc]
      simp only [Function.update_self]
      exact .goes hg
  | resumeOp n o =>
      obtain ⟨q, -, ⟨room, token, -, rfl⟩ | ⟨room, sid, -, rfl⟩⟩ := resumeOp_inv h <;>
        exact other rfl rfl
  | resumeNext n =>
      obtain ⟨q, p, r, -, -, -, rfl⟩ := resumeNext_inv h
      exact other rfl rfl
  | saveOp n o =>
      obtain ⟨q, -, rfl⟩ := saveOp_inv h
      exact other rfl rfl
  | _ =>
      obtain rfl := Option.some.inj h
      exact other rfl rfl

/-! ### What a step does to the stored sessions -/

/-- What the store tells about sessions is unchanged, lapsed entries aside. -/
structure Quiet (s t : Service) : Prop where
  sess : ∀ sid e, t.world.store.sess sid = some e → s.world.store.sess sid = some e
  sessLive : ∀ sid e, s.world.store.sess sid = some e → s.clock < e.exp →
    t.world.store.sess sid = some e
  resume : ∀ hash e, t.world.store.resume hash = some e → s.world.store.resume hash = some e
  resumeLive : ∀ hash e, s.world.store.resume hash = some e → s.clock < e.exp →
    t.world.store.resume hash = some e
  latest : ∀ sid, t.world.latest sid = s.world.latest sid

/-- A step leaves the stored sessions alone, saves a record, or links a token. -/
inductive Stores (s t : Service) : Prop
  | quiet (h : s.Quiet t)
  | saves (q : SaveReq)
      (hq : (∃ n room r token, s.create n = some (.running (.save room r token .pending)) ∧
          t.create n = some (.running (.save room r token (.fulfilled ()))) ∧
          q = ⟨r, room.endsAt⟩) ∨
        (t.create = s.create ∧ ∃ n, s.save n = some (q, .pending)))
      (sess : t.world.store.sess = s.world.store.sess.write q.record.sid q.record q.expireAt)
      (resume : t.world.store.resume = s.world.store.resume)
      (latest : ∀ sid, t.world.latest sid =
        if q.record.sid = sid then some q.record else s.world.latest sid)
  | links (n : ℕ) (room : DailyRoom) (r : SessionRecord) (token : Token) (b : Bool)
      (hc : s.create n = some (.running (.link room r token b .pending)))
      (hc' : t.create n = some (.running (.link room r token b (.fulfilled ()))))
      (sess : t.world.store.sess = s.world.store.sess)
      (resume : t.world.store.resume =
        s.world.store.resume.write (hashToken token) r.sid room.endsAt)
      (latest : ∀ sid, t.world.latest sid = s.world.latest sid)

theorem Quiet.of_eq (hs : t.world.store.sess = s.world.store.sess)
    (hr : t.world.store.resume = s.world.store.resume)
    (hj : t.world.journal = s.world.journal) : s.Quiet t := by
  refine ⟨fun sid e h => ?_, fun sid e h _ => ?_, fun hash e h => ?_, fun hash e h _ => ?_,
    fun sid => ?_⟩
  · rwa [hs] at h
  · rwa [hs]
  · rwa [hr] at h
  · rwa [hr]
  · rw [World.latest, hj, ← World.latest]

theorem latest_save (k : ConnKey) (q : SaveReq) (w : World) (sid : Sid) :
    (World.save k q w).2.latest sid =
      if q.record.sid = sid then some q.record else w.latest sid := by
  simp [World.save, World.record, World.latest, Obs.lastSaved]

theorem latest_link (token : Token) (sid' : Sid) (exp : ℤ) (w : World) (sid : Sid) :
    (World.link token sid' exp w).2.latest sid = w.latest sid := by
  simp [World.link, World.record, World.onStore, World.latest, Obs.lastSaved]

theorem stores (ha : l.answered = true) (h : s.step env cal l = some t) : s.Stores t := by
  cases l with
  | clock now =>
      simp only [step] at h
      split at h
      · obtain rfl := Option.some.inj h
        exact .quiet (.of_eq rfl rfl rfl)
      · cases h
  | createOp n o =>
      obtain rfl : o = .answered := of_decide_eq_true ha
      obtain ⟨room, input, sid, i, name, hc, rfl⟩ | ⟨room, r, token, hc, rfl⟩ |
        ⟨room, r, token, b, hc, rfl⟩ := createOp_inv h
      · obtain ⟨names, he, -⟩ :=
          s.world.store.claimName_names s.clock room.roomId name sid room.endsAt
        have hs : (s.world.store.claimName s.clock room.roomId name sid room.endsAt).2.sess =
            s.world.store.sess := by rw [he]
        have hr : (s.world.store.claimName s.clock room.roomId name sid room.endsAt).2.resume =
            s.world.store.resume := by rw [he]
        exact .quiet (.of_eq hs hr rfl)
      · exact .saves ⟨r, room.endsAt⟩
          (.inl ⟨n, room, r, token, hc, Function.update_self _ _ _, rfl⟩) rfl rfl
          (latest_save ⟨0, n⟩ ⟨r, room.endsAt⟩ s.world)
      · exact .links n room r token b hc (Function.update_self _ _ _) rfl rfl
          (latest_link token r.sid room.endsAt s.world)
  | createNext n =>
      obtain ⟨p, c, d, -, -, rfl⟩ := createNext_inv h
      exact .quiet (.of_eq rfl rfl rfl)
  | resumeOp n o =>
      obtain rfl : o = .answered := of_decide_eq_true ha
      obtain ⟨q, -, ⟨room, token, -, rfl⟩ | ⟨room, sid, -, rfl⟩⟩ := resumeOp_inv h
      · exact .quiet ⟨fun _ _ h => h, fun _ _ h _ => h, fun _ _ h => Map.read_snd_eq_some h,
          fun _ _ h hl => Map.read_snd_of_live h hl, fun _ => rfl⟩
      · exact .quiet ⟨fun _ _ h => Map.read_snd_eq_some h,
          fun _ _ h hl => Map.read_snd_of_live h hl, fun _ _ h => h, fun _ _ h _ => h,
          fun _ => rfl⟩
  | resumeNext n =>
      obtain ⟨q, p, r, -, -, -, rfl⟩ := resumeNext_inv h
      exact .quiet (.of_eq rfl rfl rfl)
  | saveOp n o =>
      obtain rfl : o = .answered := of_decide_eq_true ha
      obtain ⟨q, hq, rfl⟩ := saveOp_inv h
      exact .saves q (.inr ⟨rfl, n, hq⟩) rfl rfl (latest_save ⟨0, n⟩ q s.world)
  | _ =>
      obtain rfl := Option.some.inj h
      exact .quiet (.of_eq rfl rfl rfl)

/-! ### The sessions in the store -/

/-- Values drawn for the calls, by `gen`, differ from call to call. -/
structure Apart {κ : Type} (gen : ℕ → κ) (key : CreateCall → Option κ) (s : Service) : Prop where
  drawn : ∀ n c x, s.create n = some c → key c = some x → ∃ d < s.draws, x = gen d
  one : ∀ n m c c' x, s.create n = some c → s.create m = some c' → key c = some x →
    key c' = some x → n = m

theorem Apart.step {κ : Type} {gen : ℕ → κ} {key : CreateCall → Option κ}
    (hg : Function.Injective gen) (hi : s.Apart gen key) (hd : s.draws ≤ t.draws) {n : ℕ}
    (hne : ∀ m, m ≠ n → t.create m = s.create m)
    (hn : ∀ c x, t.create n = some c → key c = some x →
      (∃ c₀, s.create n = some c₀ ∧ key c₀ = some x) ∨ (s.draws < t.draws ∧ x = gen s.draws)) :
    t.Apart gen key := by
  -- a call has the value it had, or the value is new
  have back : ∀ m c x, t.create m = some c → key c = some x →
      (∃ c₀, s.create m = some c₀ ∧ key c₀ = some x) ∨
        (m = n ∧ s.draws < t.draws ∧ x = gen s.draws) := by
    intro m c x hc hx
    by_cases hm : m = n
    · subst hm
      exact (hn c x hc hx).imp id fun h => ⟨rfl, h⟩
    · rw [hne m hm] at hc
      exact .inl ⟨c, hc, hx⟩
  have fresh : ∀ m c, s.create m = some c → key c ≠ some (gen s.draws) := by
    intro m c hc hx
    obtain ⟨d, hd, he⟩ := hi.drawn m c _ hc hx
    have := hg he
    omega
  constructor
  · intro m c x hc hx
    obtain ⟨c₀, hc₀, hx₀⟩ | ⟨-, hlt, he⟩ := back m c x hc hx
    · obtain ⟨d, hd', he⟩ := hi.drawn m c₀ x hc₀ hx₀
      exact ⟨d, by omega, he⟩
    · exact ⟨s.draws, hlt, he⟩
  · intro m m' c c' x hc hc' hx hx'
    obtain ⟨c₀, hc₀, hx₀⟩ | ⟨rfl, -, rfl⟩ := back m c x hc hx
    · obtain ⟨c₁, hc₁, hx₁⟩ | ⟨rfl, -, rfl⟩ := back m' c' x hc' hx'
      · exact hi.one m m' c₀ c₁ x hc₀ hc₁ hx₀ hx₁
      · exact absurd hx₀ (fresh m c₀ hc₀)
    · obtain ⟨c₁, hc₁, hx₁⟩ | ⟨rfl, -, -⟩ := back m' c' _ hc' hx'
      · exact absurd hx₁ (fresh m' c₁ hc₁)
      · rfl

/-- The calls of `create`: ids and tokens are apart, and nothing has failed. -/
structure Calls (env : Env) (cal : Calendar) (s : Service) : Prop where
  slots : s.Slots
  sids : s.Apart env.newSessionId CreateCall.sid
  tokens : s.Apart env.newResumeToken CreateCall.token
  sound : ∀ n c, s.create n = some c → c.Sound cal

theorem Slots.step (hi : s.Slots) (h : s.step env cal l = some t) : t.Slots := by
  have same : t.create = s.create → t.creates = s.creates → t.resume = s.resume →
      t.resumes = s.resumes → t.Slots := by
    intro h₁ h₂ h₃ h₄
    constructor
    · intro n hn
      rw [h₁]
      exact hi.create n (by omega)
    · intro n hn
      rw [h₃]
      exact hi.resume n (by omega)
  -- a call that is under way has a slot in use
  have used : ∀ {α : Type} {f : ℕ → Option α} {k n m : ℕ} {x y : α},
      (∀ n, k ≤ n → f n = none) → f n = some x → k ≤ m →
      Function.update f n (some y) m = none := by
    intro α f k n m x y hf hx hm
    have hne : m ≠ n := by
      rintro rfl
      rw [hf m hm] at hx
      cases hx
    rw [Function.update_of_ne hne]
    exact hf m hm
  cases l with
  | clock now =>
      simp only [Service.step] at h
      split at h
      · obtain rfl := Option.some.inj h
        exact same rfl rfl rfl rfl
      · cases h
  | create roomId input =>
      obtain rfl := Option.some.inj h
      refine ⟨fun n hn => ?_, hi.resume⟩
      replace hn : s.creates + 1 ≤ n := hn
      exact (Function.update_of_ne (by omega) _ _).trans (hi.create n (by omega))
  | createOp n o =>
      obtain ⟨room, input, sid, i, name, hc, rfl⟩ | ⟨room, r, token, hc, rfl⟩ |
        ⟨room, r, token, b, hc, rfl⟩ := createOp_inv h <;>
        exact ⟨fun m hm => used hi.create hc hm, hi.resume⟩
  | createNext n =>
      obtain ⟨p, c, d, hc, -, rfl⟩ := createNext_inv h
      exact ⟨fun m hm => used hi.create hc hm, hi.resume⟩
  | resume roomId token =>
      obtain rfl := Option.some.inj h
      refine ⟨hi.create, fun n hn => ?_⟩
      replace hn : s.resumes + 1 ≤ n := hn
      exact (Function.update_of_ne (by omega) _ _).trans (hi.resume n (by omega))
  | resumeOp n o =>
      obtain ⟨q, hq, ⟨room, token, -, rfl⟩ | ⟨room, sid, -, rfl⟩⟩ := resumeOp_inv h <;>
        exact ⟨hi.create, fun m hm => used hi.resume hq hm⟩
  | resumeNext n =>
      obtain ⟨q, p, r, hq, -, -, rfl⟩ := resumeNext_inv h
      exact ⟨hi.create, fun m hm => used hi.resume hq hm⟩
  | saveOp n o =>
      obtain ⟨q, -, rfl⟩ := saveOp_inv h
      exact same rfl rfl rfl rfl
  | _ =>
      obtain rfl := Option.some.inj h
      exact same rfl rfl rfl rfl

theorem Calls.step (hi : s.Calls env cal) (ha : l.answered = true)
    (h : s.step env cal l = some t) : t.Calls env cal := by
  obtain ⟨n, hne, hm⟩ := create_moves hi.slots ha h
  refine ⟨hi.slots.step h, ?_, ?_, ?_⟩
  · refine hi.sids.step env.newSessionId_injective hm.draws_le hne fun c x hc hx => ?_
    rw [hc] at hm
    exact hm.sid_from hx
  · refine hi.tokens.step env.newResumeToken_injective hm.draws_le hne fun c x hc hx => ?_
    rw [hc] at hm
    exact hm.token_from hx
  · intro m c hc
    by_cases hmn : m = n
    · subst hmn
      exact hm.sound (fun c hc => hi.sound m c hc) c hc
    · rw [hne m hmn] at hc
      exact hi.sound m c hc

/-- A call with a record keeps it, its token, and what it has written. -/
theorem Calls.keeps (hi : s.Calls env cal) (ha : l.answered = true)
    (h : s.step env cal l = some t) {c : CreateCall} {r : SessionRecord}
    (hc : s.create n = some c) (hr : c.record = some r) :
    ∃ c', t.create n = some c' ∧ c'.record = some r ∧ c'.token = c.token ∧
      (c.saved = true → c'.saved = true) ∧ (c.linked = true → c'.linked = true) ∧
      (∀ r token, c = .returned r token → c' = c) := by
  obtain ⟨m, hne, hm⟩ := create_moves hi.slots ha h
  by_cases hmn : n = m
  · subst hmn
    rw [hc] at hm
    exact hm.keeps (hi.sound n c hc) hr
  · exact ⟨c, (hne n hmn).trans hc, hr, rfl, id, id, fun _ _ _ => rfl⟩

theorem Calls.returned (hi : s.Calls env cal) (ha : l.answered = true)
    (h : s.step env cal l = some t) {r : SessionRecord} {token : Token}
    (hc : s.create n = some (.returned r token)) : t.create n = some (.returned r token) := by
  obtain ⟨c', hc', -, -, -, -, he⟩ := hi.keeps ha h hc rfl
  rw [hc', he r token rfl]

/-- A record that has been saved was so before the step, or the step has written it. -/
theorem saved_from (ha : l.answered = true) (h : s.step env cal l = some t) {c' : CreateCall}
    {r : SessionRecord} (hc : t.create n = some c') (hr : c'.record = some r)
    (hs : c'.saved = true) :
    (∃ c, s.create n = some c ∧ c.record = some r ∧ c.saved = true) ∨
      ∃ e, t.world.store.sess r.sid = some e := by
  -- the call that the step moves is the only one to look at
  have other : ∀ {m : ℕ} {d : CreateCall}, t.create = Function.update s.create m (some d) →
      (d.record = some r → d.saved = true → n = m →
        (∃ c, s.create n = some c ∧ c.record = some r ∧ c.saved = true) ∨
          ∃ e, t.world.store.sess r.sid = some e) →
      (∃ c, s.create n = some c ∧ c.record = some r ∧ c.saved = true) ∨
        ∃ e, t.world.store.sess r.sid = some e := by
    intro m d hu hd
    rw [hu] at hc
    by_cases hm : n = m
    · rw [hm, Function.update_self] at hc
      obtain rfl := Option.some.inj hc
      exact hd hr hs hm
    · rw [Function.update_of_ne hm] at hc
      exact .inl ⟨c', hc, hr, hs⟩
  cases l with
  | clock now =>
      simp only [step] at h
      split at h
      · obtain rfl := Option.some.inj h
        exact .inl ⟨c', hc, hr, hs⟩
      · cases h
  | create roomId input =>
      obtain rfl := Option.some.inj h
      refine other (m := s.creates) rfl fun hd => ?_
      cases hd
  | createOp m o =>
      obtain rfl : o = .answered := of_decide_eq_true ha
      obtain ⟨room, input, sid, i, name, hp, rfl⟩ | ⟨room, r', token, hp, rfl⟩ |
        ⟨room, r', token, b, hp, rfl⟩ := createOp_inv h
      · refine other rfl fun hd => ?_
        cases hd
      · refine other rfl fun hd _ _ => .inr ⟨⟨r', room.endsAt⟩, ?_⟩
        obtain rfl := Option.some.inj hd
        exact Map.write_same _ _ _ _
      · refine other rfl fun hd hs hm =>
          .inl ⟨.running (.link room r' token b .pending), by rw [hm]; exact hp, hd, hs⟩
  | createNext m =>
      obtain ⟨p, c, d, hp, hg, rfl⟩ := createNext_inv h
      refine other rfl fun hd hs hm => .inl ⟨_, by rw [hm]; exact hp, ?_⟩
      cases hg with
      | claimed => cases hs
      | again => cases hd
      | saved => exact ⟨hd, rfl⟩
      | unsaved => cases hs
      | returned => exact ⟨hd, rfl⟩
      | _ => cases hd
  | resumeOp m o =>
      obtain ⟨q, -, ⟨room, token, -, rfl⟩ | ⟨room, sid, -, rfl⟩⟩ := resumeOp_inv h <;>
        exact .inl ⟨c', hc, hr, hs⟩
  | resumeNext m =>
      obtain ⟨q, p, x, -, -, -, rfl⟩ := resumeNext_inv h
      exact .inl ⟨c', hc, hr, hs⟩
  | saveOp m o =>
      obtain ⟨q, -, rfl⟩ := saveOp_inv h
      exact .inl ⟨c', hc, hr, hs⟩
  | _ =>
      obtain rfl := Option.some.inj h
      exact .inl ⟨c', hc, hr, hs⟩

theorem linked_from (ha : l.answered = true) (h : s.step env cal l = some t) {c' : CreateCall}
    {r : SessionRecord} {token : Token} (hc : t.create n = some c') (hr : c'.record = some r)
    (ht : c'.token = some token) (hs : c'.linked = true) :
    (∃ c, s.create n = some c ∧ c.record = some r ∧ c.token = some token ∧ c.linked = true) ∨
      ∃ e, t.world.store.resume (hashToken token) = some e := by
  have other : ∀ {m : ℕ} {d : CreateCall}, t.create = Function.update s.create m (some d) →
      (d.record = some r → d.token = some token → d.linked = true → n = m →
        (∃ c, s.create n = some c ∧ c.record = some r ∧ c.token = some token ∧
          c.linked = true) ∨ ∃ e, t.world.store.resume (hashToken token) = some e) →
      (∃ c, s.create n = some c ∧ c.record = some r ∧ c.token = some token ∧
        c.linked = true) ∨ ∃ e, t.world.store.resume (hashToken token) = some e := by
    intro m d hu hd
    rw [hu] at hc
    by_cases hm : n = m
    · rw [hm, Function.update_self] at hc
      obtain rfl := Option.some.inj hc
      exact hd hr ht hs hm
    · rw [Function.update_of_ne hm] at hc
      exact .inl ⟨c', hc, hr, ht, hs⟩
  cases l with
  | clock now =>
      simp only [step] at h
      split at h
      · obtain rfl := Option.some.inj h
        exact .inl ⟨c', hc, hr, ht, hs⟩
      · cases h
  | create roomId input =>
      obtain rfl := Option.some.inj h
      refine other (m := s.creates) rfl fun hd => ?_
      cases hd
  | createOp m o =>
      obtain rfl : o = .answered := of_decide_eq_true ha
      obtain ⟨room, input, sid, i, name, hp, rfl⟩ | ⟨room, r', token', hp, rfl⟩ |
        ⟨room, r', token', b, hp, rfl⟩ := createOp_inv h
      · refine other rfl fun hd => ?_
        cases hd
      · refine other rfl fun _ _ hs => ?_
        cases hs
      · refine other rfl fun _ hd _ _ => .inr ⟨⟨r'.sid, room.endsAt⟩, ?_⟩
        obtain rfl := Option.some.inj hd
        exact Map.write_same _ _ _ _
  | createNext m =>
      obtain ⟨p, c, d, hp, hg, rfl⟩ := createNext_inv h
      refine other rfl fun hd hd' hs hm => .inl ⟨_, by rw [hm]; exact hp, ?_⟩
      cases hg with
      | returned => exact ⟨hd, hd', rfl⟩
      | claimed => cases hs
      | saved => cases hs
      | unsaved => cases hs
      | _ => cases hd
  | resumeOp m o =>
      obtain ⟨q, -, ⟨room, token', -, rfl⟩ | ⟨room, sid, -, rfl⟩⟩ := resumeOp_inv h <;>
        exact .inl ⟨c', hc, hr, ht, hs⟩
  | resumeNext m =>
      obtain ⟨q, p, x, -, -, -, rfl⟩ := resumeNext_inv h
      exact .inl ⟨c', hc, hr, ht, hs⟩
  | saveOp m o =>
      obtain ⟨q, -, rfl⟩ := saveOp_inv h
      exact .inl ⟨c', hc, hr, ht, hs⟩
  | _ =>
      obtain rfl := Option.some.inj h
      exact .inl ⟨c', hc, hr, ht, hs⟩

/-- The record is of a session that a call has returned, and of its room. -/
def owns (s : Service) (r : SessionRecord) : Prop :=
  ∃ m r₀ token, s.create m = some (.returned r₀ token) ∧ r₀.sid = r.sid ∧ r₀.roomId = r.roomId

/-- What the store holds of sessions was written for the calls of `create`, and is there while
the room lasts. -/
structure Stored (cal : Calendar) (s : Service) : Prop where
  sess : ∀ sid e, s.world.store.sess sid = some e → ∃ n c r, s.create n = some c ∧
    c.record = some r ∧ r.sid = sid ∧ e.v.sid = sid ∧ e.v.roomId = r.roomId ∧
    e.exp = (cal.room r.roomId).endsAt ∧ s.world.latest sid = some e.v
  sessLive : ∀ n c r, s.create n = some c → c.record = some r → c.saved = true →
    s.clock < (cal.room r.roomId).endsAt → ∃ e, s.world.store.sess r.sid = some e
  resume : ∀ token e, s.world.store.resume (hashToken token) = some e → ∃ n c r,
    s.create n = some c ∧ c.record = some r ∧ c.token = some token ∧ r.sid = e.v ∧
    e.exp = (cal.room r.roomId).endsAt
  resumeLive : ∀ n c r token, s.create n = some c → c.record = some r →
    c.token = some token → c.linked = true → s.clock < (cal.room r.roomId).endsAt →
    ∃ e, s.world.store.resume (hashToken token) = some e
  save : ∀ n q, s.save n = some (q, .pending) →
    s.owns q.record ∧ q.expireAt = (cal.room q.record.roomId).endsAt

theorem sid_of_record {c : CreateCall} {r : SessionRecord} (h : c.record = some r) :
    c.sid = some r.sid := by
  cases c with
  | running p =>
      cases p with
      | claim => cases h
      | _ => exact congrArg (Option.map fun r : SessionRecord => r.sid) h
  | returned => exact congrArg (Option.map fun r : SessionRecord => r.sid) h
  | failed => cases h

/-- A session has one call, and one record from it. -/
theorem Calls.record_unique (hi : s.Calls env cal) {n m : ℕ} {c c' : CreateCall}
    {r r' : SessionRecord} (hc : s.create n = some c) (hc' : s.create m = some c')
    (hr : c.record = some r) (hr' : c'.record = some r') (he : r.sid = r'.sid) :
    n = m ∧ c = c' ∧ r = r' := by
  have hx := sid_of_record hr
  have hx' := sid_of_record hr'
  rw [← he] at hx'
  obtain rfl := hi.sids.one n m c c' r.sid hc hc' hx hx'
  obtain rfl := Option.some.inj (hc.symm.trans hc')
  exact ⟨rfl, rfl, Option.some.inj (hr.symm.trans hr')⟩

/-- The entry of a session lapses with the room of its call. -/
theorem Stored.sess_exp (hs : s.Stored cal) (hi : s.Calls env cal) {c : CreateCall}
    {r : SessionRecord} {e : Entry SessionRecord} (hc : s.create n = some c)
    (hr : c.record = some r) (he : s.world.store.sess r.sid = some e) :
    e.exp = (cal.room r.roomId).endsAt ∧ e.v.sid = r.sid ∧ e.v.roomId = r.roomId ∧
      s.world.latest r.sid = some e.v := by
  obtain ⟨m, c', r', hc', hr', hsid, hv, hroom, hexp, hl⟩ := hs.sess r.sid e he
  obtain ⟨-, -, rfl⟩ := hi.record_unique hc hc' hr hr' hsid.symm
  exact ⟨hexp, hv, hroom, hl⟩

theorem Stored.resume_exp (hs : s.Stored cal) (hi : s.Calls env cal) {c : CreateCall}
    {r : SessionRecord} {token : Token} {e : Entry Sid} (hc : s.create n = some c)
    (hr : c.record = some r) (ht : c.token = some token)
    (he : s.world.store.resume (hashToken token) = some e) :
    e.exp = (cal.room r.roomId).endsAt ∧ e.v = r.sid := by
  obtain ⟨m, c', r', hc', hr', ht', hv, hexp⟩ := hs.resume token e he
  obtain rfl := hi.tokens.one n m c c' token hc hc' ht ht'
  obtain rfl := Option.some.inj (hc.symm.trans hc')
  obtain rfl := Option.some.inj (hr.symm.trans hr')
  exact ⟨hexp, hv.symm⟩

theorem owns_step (hi : s.Calls env cal) (ha : l.answered = true)
    (h : s.step env cal l = some t) {r : SessionRecord} (ho : s.owns r) : t.owns r := by
  obtain ⟨m, r₀, token, hc, hr⟩ := ho
  exact ⟨m, r₀, token, hi.returned ha h hc, hr⟩

/-- Saves under way were under way, or have just been called. -/
theorem save_from (h : s.step env cal l = some t) {q : SaveReq}
    (hq : t.save n = some (q, .pending)) :
    s.save n = some (q, .pending) ∨
      ∃ r, l = .save r ∧ q = ⟨r, (cal.room r.roomId).endsAt⟩ := by
  cases l with
  | clock now =>
      simp only [step] at h
      split at h
      · obtain rfl := Option.some.inj h
        exact .inl hq
      · cases h
  | createOp m o =>
      obtain ⟨room, input, sid, i, name, -, rfl⟩ | ⟨room, r, token, -, rfl⟩ |
        ⟨room, r, token, b, -, rfl⟩ := createOp_inv h <;> exact .inl hq
  | createNext m =>
      obtain ⟨p, c, d, -, -, rfl⟩ := createNext_inv h
      exact .inl hq
  | resumeOp m o =>
      obtain ⟨q, -, ⟨room, token, -, rfl⟩ | ⟨room, sid, -, rfl⟩⟩ := resumeOp_inv h <;>
        exact .inl hq
  | resumeNext m =>
      obtain ⟨q, p, x, -, -, -, rfl⟩ := resumeNext_inv h
      exact .inl hq
  | save r =>
      obtain rfl := Option.some.inj h
      by_cases hn : n = s.saves
      · subst hn
        replace hq := (Function.update_self (f := s.save) _ _).symm.trans hq
        exact .inr ⟨r, rfl, (Prod.mk.inj (Option.some.inj hq)).1.symm⟩
      · exact .inl ((Function.update_of_ne hn _ _).symm.trans hq)
  | saveOp m o =>
      obtain ⟨q', -, rfl⟩ := saveOp_inv h
      by_cases hn : n = m
      · subst hn
        replace hq := (Function.update_self (f := s.save) _ _).symm.trans hq
        have hp := (Prod.mk.inj (Option.some.inj hq)).2
        cases o <;> cases hp
      · exact .inl ((Function.update_of_ne hn _ _).symm.trans hq)
  | _ =>
      obtain rfl := Option.some.inj h
      exact .inl hq

theorem Stored.step (hs : s.Stored cal) (hi : s.Calls env cal) (ha : l.answered = true)
    (ho : ∀ r, l = .save r → s.owns r) (h : s.step env cal l = some t) : t.Stored cal := by
  have ht := hi.step ha h
  have hle := clock_le h
  have hst := stores ha h
  constructor
  · intro sid e he
    -- an entry that was there before the step
    have old : s.world.store.sess sid = some e → t.world.latest sid = s.world.latest sid →
        ∃ n c r, t.create n = some c ∧ c.record = some r ∧ r.sid = sid ∧ e.v.sid = sid ∧
          e.v.roomId = r.roomId ∧ e.exp = (cal.room r.roomId).endsAt ∧
          t.world.latest sid = some e.v := by
      intro he hl
      obtain ⟨n, c, r, hc, hr, hsid, hv, hroom, hexp, hlat⟩ := hs.sess sid e he
      obtain ⟨c', hc', hr', -⟩ := hi.keeps ha h hc hr
      exact ⟨n, c', r, hc', hr', hsid, hv, hroom, hexp, hl.trans hlat⟩
    cases hst with
    | quiet hq => exact old (hq.sess sid e he) (hq.latest sid)
    | saves q hq hsess hres hlat =>
        rw [hsess] at he
        by_cases hsid : sid = q.record.sid
        · subst hsid
          rw [Map.write_same] at he
          obtain rfl := Option.some.inj he
          have hl := hlat q.record.sid
          rw [if_pos rfl] at hl
          obtain ⟨n, room, r, token, -, hc', rfl⟩ | ⟨hsame, n, hn⟩ := hq
          · refine ⟨n, _, r, hc', rfl, rfl, rfl, rfl, ?_, hl⟩
            exact congrArg DailyRoom.endsAt (ht.sound n _ hc').1
          · obtain ⟨⟨m, r₀, token, hm, h₁, h₂⟩, hexp⟩ := hs.save n q hn
            refine ⟨m, .returned r₀ token, r₀, ?_, rfl, h₁, rfl, h₂.symm, ?_, hl⟩
            · rw [hsame]
              exact hm
            · rw [h₂]
              exact hexp
        · rw [Map.write_ne _ _ _ hsid] at he
          have hl := hlat sid
          rw [if_neg fun h => hsid h.symm] at hl
          exact old he hl
    | links n room r token b hc hc' hsess hres hlat =>
        rw [hsess] at he
        exact old he (hlat sid)
  · intro n c r hc hr hsv hlt
    obtain ⟨c₀, hc₀, hr₀, hs₀⟩ | he := saved_from ha h hc hr hsv
    · have hlt₀ : s.clock < (cal.room r.roomId).endsAt := lt_of_le_of_lt hle hlt
      obtain ⟨e, he⟩ := hs.sessLive n c₀ r hc₀ hr₀ hs₀ hlt₀
      have hexp := (hs.sess_exp hi hc₀ hr₀ he).1
      cases hst with
      | quiet hq => exact ⟨e, hq.sessLive _ e he (by rwa [hexp])⟩
      | saves q hq hsess hres hlat =>
          rw [hsess]
          by_cases hsid : r.sid = q.record.sid
          · exact ⟨_, by rw [hsid]; exact Map.write_same _ _ _ _⟩
          · exact ⟨e, by rw [Map.write_ne _ _ _ hsid]; exact he⟩
      | links n room r' token b hc hc' hsess hres hlat =>
          rw [hsess]
          exact ⟨e, he⟩
    · exact he
  · intro token e he
    have old : s.world.store.resume (hashToken token) = some e → ∃ n c r,
        t.create n = some c ∧ c.record = some r ∧ c.token = some token ∧ r.sid = e.v ∧
          e.exp = (cal.room r.roomId).endsAt := by
      intro he
      obtain ⟨n, c, r, hc, hr, htok, hrest⟩ := hs.resume token e he
      obtain ⟨c', hc', hr', htok', -⟩ := hi.keeps ha h hc hr
      exact ⟨n, c', r, hc', hr', htok'.trans htok, hrest⟩
    cases hst with
    | quiet hq => exact old (hq.resume _ e he)
    | saves q hq hsess hres hlat =>
        rw [hres] at he
        exact old he
    | links n room r tok b hc hc' hsess hres hlat =>
        rw [hres] at he
        by_cases hh : hashToken token = hashToken tok
        · rw [hh, Map.write_same] at he
          obtain rfl := Option.some.inj he
          obtain rfl : token = tok := TokenHash.mk.inj hh
          exact ⟨n, _, r, hc', rfl, rfl, rfl, congrArg DailyRoom.endsAt (ht.sound n _ hc').1⟩
        · rw [Map.write_ne _ _ _ hh] at he
          exact old he
  · intro n c r token hc hr htok hlk hlt
    obtain ⟨c₀, hc₀, hr₀, ht₀, hl₀⟩ | he := linked_from ha h hc hr htok hlk
    · have hlt₀ : s.clock < (cal.room r.roomId).endsAt := lt_of_le_of_lt hle hlt
      obtain ⟨e, he⟩ := hs.resumeLive n c₀ r token hc₀ hr₀ ht₀ hl₀ hlt₀
      have hexp := (hs.resume_exp hi hc₀ hr₀ ht₀ he).1
      cases hst with
      | quiet hq => exact ⟨e, hq.resumeLive _ e he (by rwa [hexp])⟩
      | saves q hq hsess hres hlat =>
          rw [hres]
          exact ⟨e, he⟩
      | links n room r' tok b hc hc' hsess hres hlat =>
          rw [hres]
          by_cases hh : hashToken token = hashToken tok
          · exact ⟨_, by rw [hh]; exact Map.write_same _ _ _ _⟩
          · exact ⟨e, by rw [Map.write_ne _ _ _ hh]; exact he⟩
    · exact he
  · intro n q hq
    obtain hq | ⟨r, hl, rfl⟩ := save_from h hq
    · obtain ⟨hown, hexp⟩ := hs.save n q hq
      exact ⟨owns_step hi ha h hown, hexp⟩
    · exact ⟨owns_step hi ha h (ho r hl), rfl⟩

end Service

/-! ### What the reads of `resume` have found -/

section reads

variable (cal : Calendar) (I : ℕ → SessionRecord → Prop) (q : ResumeCall)

/-- A read came too late for every session of the token. -/
def ResumeCall.Missed : Prop :=
  ∀ n r, I n r → ∃ t ∈ q.reads, (cal.room r.roomId).endsAt ≤ t

/-- The reads so far were in time, and the token is of this session. -/
def ResumeCall.Found (sid : Sid) : Prop :=
  ∃ n r, I n r ∧ r.sid = sid ∧ ∀ t ∈ q.reads, t < (cal.room r.roomId).endsAt

/-- The reads were in time, and the record is what was last saved for the token's session. -/
def ResumeCall.Got (x : SessionRecord) : Prop :=
  ∃ n r, I n r ∧ x.sid = r.sid ∧ x.roomId = r.roomId ∧
    (∀ t ∈ q.reads, t < (cal.room r.roomId).endsAt) ∧
    ∃ z, q.latest = some z ∧ x = { z with base := x.base }

/-- What a call of `resume` knows, where `I` tells the calls that returned its token. -/
def ResumeCall.Sound : Prop :=
  match q.state with
  | .running (.resolve room token .pending) => room = q.room ∧ token = q.token ∧ q.reads = []
  | .running (.resolve _ _ (.fulfilled none)) => q.Missed cal I
  | .running (.resolve room _ (.fulfilled (some sid))) => room = q.room ∧ q.Found cal I sid
  | .running (.load room sid .pending) => room = q.room ∧ q.Found cal I sid
  | .running (.load _ _ (.fulfilled none)) => q.Missed cal I
  | .running (.load room _ (.fulfilled (some x))) => room = q.room ∧ q.Got cal I x
  | .running (.resolve _ _ .rejected) | .running (.load _ _ .rejected) => False
  | .answered none =>
      ∀ n r, I n r → r.roomId = q.room.roomId → ∃ t ∈ q.reads, q.room.endsAt ≤ t
  | .answered (some x) => q.Got cal I x ∧ x.roomId = q.room.roomId

end reads

namespace Service

variable {env : Env} {cal : Calendar} {s t : Service} {l : Call} {n : ℕ}

/-- The call has returned this record with the token. -/
def Issued (s : Service) (token : Token) (n : ℕ) (r : SessionRecord) : Prop :=
  s.create n = some (.returned r token)

/-- The token of a call of `resume` is not one that a call of `create` has yet to return. -/
structure Presented (cal : Calendar) (s : Service) (q : ResumeCall) : Prop where
  room : q.room = cal.room q.room.roomId
  token : ∀ n c, s.create n = some c → c.token = some q.token →
    ∃ r, c = .returned r q.token

structure Resumed (cal : Calendar) (s : Service) : Prop where
  presented : ∀ m q, s.resume m = some q → s.Presented cal q
  sound : ∀ m q, s.resume m = some q → q.Sound cal (s.Issued q.token)

/-! ### Which tokens are presented -/

/-- The call has drawn the token and not returned it yet. -/
def holds (token : Token) : CreateCall → Bool
  | .returned _ _ => false
  | c => decide (c.token = some token)

/-- The call has returned the session of the record. -/
def ofRecord (r : SessionRecord) : CreateCall → Bool
  | .returned r₀ _ => decide (r₀.sid = r.sid ∧ r₀.roomId = r.roomId)
  | _ => false

/-- Operations are answered; a token is presented by nobody before it is returned; a save is of
a session and its room. -/
def keepsSessions (env : Env) (s : Service) : Call → Bool
  | .createOp _ o | .resumeOp _ o | .saveOp _ o => decide (o = .answered)
  | .createNext n =>
      match s.create n with
      | some (.running (.claim _ _ _ _ _ (.fulfilled true))) =>
          (List.range s.resumes).all fun m =>
            (s.resume m).all fun q => decide (q.token ≠ env.newResumeToken s.draws)
      | _ => true
  | .resume _ token =>
      (List.range s.creates).all fun n => (s.create n).all fun c => !holds token c
  | .save r => (List.range s.creates).any fun n => (s.create n).any (ofRecord r)
  | _ => true

theorem answered_of_keeps (h : s.keepsSessions env l = true) : l.answered = true := by
  cases l with
  | createOp => exact h
  | resumeOp => exact h
  | saveOp => exact h
  | _ => rfl

theorem owns_of_keeps (h : s.keepsSessions env l = true) :
    ∀ r, l = .save r → s.owns r := by
  rintro r rfl
  obtain ⟨n, -, hn⟩ := List.any_eq_true.mp h
  obtain ⟨c, hc, hm⟩ := (Option.any_eq_true _ _).mp hn
  cases c with
  | returned r₀ token =>
      obtain ⟨h₁, h₂⟩ := of_decide_eq_true hm
      exact ⟨n, r₀, token, hc, h₁, h₂⟩
  | _ => cases hm

/-- A call of `create` had its token before, or has just drawn it. -/
theorem token_drawn (hf : s.Slots) (ha : l.answered = true) (h : s.step env cal l = some t)
    {c' : CreateCall} {token : Token} (hc : t.create n = some c') (hx : c'.token = some token) :
    (∃ c, s.create n = some c ∧ c.token = some token) ∨
      (token = env.newResumeToken s.draws ∧ ∃ room input sid i name, l = .createNext n ∧
        s.create n = some (.running (.claim room input sid i name (.fulfilled true)))) := by
  by_cases hl : ∃ m, l = .createNext m
  · obtain ⟨m, rfl⟩ := hl
    obtain ⟨p, c, d, hp, hg, rfl⟩ := createNext_inv h
    by_cases hm : n = m
    · subst hm
      dsimp only at hc
      rw [Function.update_self] at hc
      obtain rfl := Option.some.inj hc
      cases hg with
      | claimed room input sid i name =>
          exact .inr ⟨(Option.some.inj hx).symm, room, input, sid, i, name, rfl, hp⟩
      | again => cases hx
      | unclaimed => cases hx
      | unlinked => cases hx
      | _ => exact .inl ⟨_, hp, hx⟩
    · exact .inl ⟨c', (Function.update_of_ne hm _ _).symm.trans hc, hx⟩
  · obtain ⟨m, hne, hm⟩ := create_moves hf ha h
    by_cases hnm : n = m
    · subst hnm
      rw [hc] at hm
      obtain hold | ⟨hlt, -⟩ := hm.token_from hx
      · exact .inl hold
      · -- only a new call of `create` draws besides, and it has no token
        cases l with
        | create roomId input =>
            obtain rfl := Option.some.inj h
            by_cases hn : n = s.creates
            · subst hn
              have hq := (Function.update_self (f := s.create) _ _).symm.trans hc
              obtain rfl := Option.some.inj hq
              cases hx
            · exact .inl ⟨c', (Function.update_of_ne hn _ _).symm.trans hc, hx⟩
        | createNext k => exact absurd ⟨k, rfl⟩ hl
        | clock now =>
            simp only [step] at h
            split at h
            · obtain rfl := Option.some.inj h
              exact absurd hlt (lt_irrefl _)
            · cases h
        | createOp k o =>
            obtain ⟨room, input, sid, i, name, -, rfl⟩ | ⟨room, r, token, -, rfl⟩ |
              ⟨room, r, token, b, -, rfl⟩ := createOp_inv h <;> exact absurd hlt (lt_irrefl _)
        | resumeOp k o =>
            obtain ⟨q, -, ⟨room, token', -, rfl⟩ | ⟨room, sid, -, rfl⟩⟩ := resumeOp_inv h <;>
              exact absurd hlt (lt_irrefl _)
        | resumeNext k =>
            obtain ⟨q, p, x, -, -, -, rfl⟩ := resumeNext_inv h
            exact absurd hlt (lt_irrefl _)
        | saveOp k o =>
            obtain ⟨q, -, rfl⟩ := saveOp_inv h
            exact absurd hlt (lt_irrefl _)
        | _ =>
            obtain rfl := Option.some.inj h
            exact absurd hlt (lt_irrefl _)
    · rw [hne n hnm] at hc
      exact .inl ⟨c', hc, hx⟩

/-- A presented token stays with the calls that have returned it. -/
theorem Presented.step {q : ResumeCall} {m : ℕ} (hp : s.Presented cal q)
    (hi : s.Calls env cal) (hc : s.keepsSessions env l = true) (h : s.step env cal l = some t)
    (hq : s.resume m = some q) :
    t.Presented cal q ∧ t.Issued q.token = s.Issued q.token := by
  have ha := answered_of_keeps hc
  have back : ∀ n c', t.create n = some c' → c'.token = some q.token →
      ∃ r, s.create n = some (.returned r q.token) ∧ c' = .returned r q.token := by
    intro n c' hc' hx
    obtain ⟨c, hcn, hxn⟩ | ⟨he, room, input, sid, i, name, rfl, hn⟩ :=
      token_drawn hi.slots ha h hc' hx
    · obtain ⟨r, rfl⟩ := hp.token n c hcn hxn
      have hret := hi.returned ha h hcn
      exact ⟨r, hcn, Option.some.inj (hc'.symm.trans hret)⟩
    · have hm : m < s.resumes := by
        by_contra hm
        rw [hi.slots.resume m (by omega)] at hq
        cases hq
      simp only [keepsSessions, hn] at hc
      have hall := List.all_eq_true.mp hc m (List.mem_range.mpr hm)
      rw [hq] at hall
      exact absurd he (of_decide_eq_true hall)
  refine ⟨⟨hp.room, fun n c hcn hx => ?_⟩, ?_⟩
  · obtain ⟨r, -, rfl⟩ := back n c hcn hx
    exact ⟨r, rfl⟩
  · funext n r
    refine propext ⟨fun hr => ?_, fun hr => hi.returned ha h hr⟩
    obtain ⟨r', hs, he⟩ := back n _ hr rfl
    obtain ⟨rfl, -⟩ := CreateCall.returned.inj he
    exact hs

/-- A live token resolves to its session, and one that is too late to none. -/
theorem resolve_sound (hs : s.Stored cal) (hi : s.Calls env cal) {q : ResumeCall}
    (hp : s.Presented cal q) (hr : q.reads = []) (st : Option Sid → ResumeState)
    (hst : ∀ x, st x = .running (.resolve q.room q.token (.fulfilled x))) :
    ({ q with
        reads := q.reads ++ [s.clock]
        state := st (s.world.store.resolveResume s.clock (hashToken q.token)).1 } :
      ResumeCall).Sound cal (s.Issued q.token) := by
  have hlk : (s.world.store.resolveResume s.clock (hashToken q.token)).1 =
      s.world.store.resume.lookup s.clock (hashToken q.token) := Map.read_fst _ _ _
  rw [hlk, hr]
  cases hx : s.world.store.resume.lookup s.clock (hashToken q.token) with
  | none =>
      simp only [ResumeCall.Sound, hst]
      intro n r hn
      refine ⟨s.clock, by simp, ?_⟩
      by_contra hlt
      obtain ⟨e, he⟩ := hs.resumeLive n _ r q.token hn rfl rfl rfl (lt_of_not_ge hlt)
      have hexp := (hs.resume_exp hi hn rfl rfl he).1
      rw [Map.lookup_eq_some.mpr ⟨e, he, by rw [hexp]; exact lt_of_not_ge hlt, rfl⟩] at hx
      cases hx
  | some sid =>
      obtain ⟨e, he, hlt, rfl⟩ := Map.lookup_eq_some.mp hx
      obtain ⟨n, c, r, hc, hrec, htok, hv, hexp⟩ := hs.resume q.token e he
      obtain ⟨r', rfl⟩ := hp.token n c hc htok
      obtain rfl := Option.some.inj hrec
      simp only [ResumeCall.Sound, hst]
      refine ⟨trivial, n, r', hc, hv, fun t ht => ?_⟩
      simp only [List.nil_append, List.mem_singleton] at ht
      subst ht
      rwa [← hexp]

/-- A live record is what was last saved for the session, and one that is too late is gone. -/
theorem load_sound (hs : s.Stored cal) (hi : s.Calls env cal) {q : ResumeCall} {sid : Sid}
    (hf : q.Found cal (s.Issued q.token) sid) (st : Option SessionRecord → ResumeState)
    (hst : ∀ x, st x = .running (.load q.room sid (.fulfilled x))) :
    ({ q with
        reads := q.reads ++ [s.clock]
        latest := s.world.latest sid
        state := st (World.load s.clock sid s.world).1 } :
      ResumeCall).Sound cal (s.Issued q.token) := by
  have hlk : (World.load s.clock sid s.world).1 =
      (s.world.store.sess.lookup s.clock sid).map fun r => { r with base := s.world.rev sid } :=
    congrArg (Option.map _) (Map.read_fst _ _ _)
  obtain ⟨n, r, hn, rfl, hreads⟩ := hf
  rw [hlk]
  cases hx : s.world.store.sess.lookup s.clock r.sid with
  | none =>
      simp only [ResumeCall.Sound, hst, Option.map_none]
      intro n' r' hn'
      obtain rfl := hi.tokens.one n n' _ _ q.token hn hn' rfl rfl
      obtain ⟨rfl, -⟩ := CreateCall.returned.inj (Option.some.inj (hn.symm.trans hn'))
      refine ⟨s.clock, by simp, ?_⟩
      by_contra hlt
      obtain ⟨e, he⟩ := hs.sessLive n _ r hn rfl rfl (lt_of_not_ge hlt)
      have hexp := (hs.sess_exp hi hn rfl he).1
      rw [Map.lookup_eq_some.mpr ⟨e, he, by rw [hexp]; exact lt_of_not_ge hlt, rfl⟩] at hx
      cases hx
  | some y =>
      obtain ⟨e, he, hlt, rfl⟩ := Map.lookup_eq_some.mp hx
      obtain ⟨hexp, hsid, hroom, hlat⟩ := hs.sess_exp hi hn rfl he
      simp only [ResumeCall.Sound, hst, Option.map_some]
      refine ⟨trivial, n, r, hn, hsid, hroom, fun t ht => ?_, e.v, hlat, rfl⟩
      rcases List.mem_append.mp ht with ht | ht
      · exact hreads t ht
      · obtain rfl := List.mem_singleton.mp ht
        rwa [← hexp]

/-- What a call of `resume` knows, it makes use of. -/
theorem next_sound (hi : s.Calls env cal) {q : ResumeCall} {p : ResumePc} {r : ResumeRes}
    (hp : s.Presented cal q) (hq : q.Sound cal (s.Issued q.token)) (hst : q.state = .running p)
    (hr : p.resume = some r) :
    ({ q with state := r.state } : ResumeCall).Sound cal (s.Issued q.token) := by
  -- a token that met no live entry opens nothing in its own room
  have missed : q.Missed cal (s.Issued q.token) → ∀ n r, s.Issued q.token n r →
      r.roomId = q.room.roomId → ∃ t ∈ q.reads, q.room.endsAt ≤ t := by
    intro hm n r hn hroom
    obtain ⟨t, ht, hle⟩ := hm n r hn
    refine ⟨t, ht, ?_⟩
    rw [hp.room, ← hroom]
    exact hle
  cases p with
  | resolve room token p =>
      simp only [ResumeCall.Sound, hst] at hq
      cases p with
      | pending => cases hr
      | rejected => exact hq.elim
      | fulfilled x =>
          obtain rfl := Option.some.inj hr
          cases x with
          | none => exact missed hq
          | some sid => exact hq
  | load room sid p =>
      simp only [ResumeCall.Sound, hst] at hq
      cases p with
      | pending => cases hr
      | rejected => exact hq.elim
      | fulfilled x =>
          obtain rfl := Option.some.inj hr
          cases x with
          | none => exact missed hq
          | some y =>
              obtain ⟨rfl, hgot⟩ := hq
              by_cases hy : y.roomId = q.room.roomId
              · simp only [ResumeCall.Sound, ResumeRes.state, Option.filter, hy, decide_true,
                  if_true]
                exact ⟨hgot, trivial⟩
              · simp only [ResumeCall.Sound, ResumeRes.state, Option.filter, hy, decide_false,
                  Bool.false_eq_true, if_false]
                intro n r' hn hroom
                obtain ⟨m, r, hm, -, hyr, -⟩ := hgot
                obtain rfl := hi.tokens.one m n _ _ q.token hm hn rfl rfl
                obtain ⟨rfl, -⟩ := CreateCall.returned.inj (Option.some.inj (hm.symm.trans hn))
                exact absurd (hyr.trans hroom) hy

theorem Resumed.step (hR : s.Resumed cal) (hs : s.Stored cal) (hi : s.Calls env cal)
    (hc : s.keepsSessions env l = true) (h : s.step env cal l = some t) : t.Resumed cal := by
  have ha := answered_of_keeps hc
  -- a call of `resume` that was there before the step
  have old : ∀ m q, s.resume m = some q → t.Presented cal q ∧
      q.Sound cal (t.Issued q.token) := by
    intro m q hq
    obtain ⟨hp, he⟩ := (hR.presented m q hq).step hi hc h hq
    refine ⟨hp, ?_⟩
    rw [he]
    exact hR.sound m q hq
  have same : t.resume = s.resume → t.Resumed cal := by
    intro he
    constructor
    · intro m q hq
      rw [he] at hq
      exact (old m q hq).1
    · intro m q hq
      rw [he] at hq
      exact (old m q hq).2
  -- a call of `resume` that the step has moved
  have moved : ∀ m q q', s.resume m = some q →
      t.resume = Function.update s.resume m (some q') →
      q'.room = q.room → q'.token = q.token →
      q'.Sound cal (s.Issued q.token) → t.Resumed cal := by
    intro m q q' hq hu hroom htok hsound
    obtain ⟨hp, he⟩ := (hR.presented m q hq).step hi hc h hq
    constructor
    · intro m' x hx
      rw [hu] at hx
      by_cases hm : m' = m
      · subst hm
        rw [Function.update_self] at hx
        obtain rfl := Option.some.inj hx
        exact ⟨by rw [hroom]; exact hp.room, by rw [htok]; exact hp.token⟩
      · rw [Function.update_of_ne hm] at hx
        exact (old m' x hx).1
    · intro m' x hx
      rw [hu] at hx
      by_cases hm : m' = m
      · subst hm
        rw [Function.update_self] at hx
        obtain rfl := Option.some.inj hx
        rw [htok, he]
        exact hsound
      · rw [Function.update_of_ne hm] at hx
        exact (old m' x hx).2
  cases l with
  | clock now =>
      simp only [Service.step] at h
      split at h
      · obtain rfl := Option.some.inj h
        exact same rfl
      · cases h
  | createOp n o =>
      obtain ⟨room, input, sid, i, name, -, rfl⟩ | ⟨room, r, token, -, rfl⟩ |
        ⟨room, r, token, b, -, rfl⟩ := createOp_inv h <;> exact same rfl
  | createNext n =>
      obtain ⟨p, c, d, -, -, rfl⟩ := createNext_inv h
      exact same rfl
  | resume roomId token =>
      obtain rfl := Option.some.inj h
      have hall := List.all_eq_true.mp hc
      constructor
      · intro m q hq
        by_cases hm : m = s.resumes
        · subst hm
          replace hq := (Function.update_self (f := s.resume) _ _).symm.trans hq
          obtain rfl := Option.some.inj hq
          refine ⟨by rw [cal.roomId_room], fun n c hn htok => ?_⟩
          replace hn : s.create n = some c := hn
          have hlt : n < s.creates := by
            by_contra hlt
            rw [hi.slots.create n (by omega)] at hn
            cases hn
          have hx := hall n (List.mem_range.mpr hlt)
          rw [hn] at hx
          cases c with
          | returned r token' =>
              obtain rfl := Option.some.inj htok
              exact ⟨r, rfl⟩
          | running p =>
              simp only [Option.all_some, holds, htok] at hx
              simp at hx
          | failed => cases htok
        · exact (old m q ((Function.update_of_ne hm _ _).symm.trans hq)).1
      · intro m q hq
        by_cases hm : m = s.resumes
        · subst hm
          replace hq := (Function.update_self (f := s.resume) _ _).symm.trans hq
          obtain rfl := Option.some.inj hq
          exact ⟨rfl, rfl, rfl⟩
        · exact (old m q ((Function.update_of_ne hm _ _).symm.trans hq)).2
  | resumeOp n o =>
      obtain rfl : o = .answered := of_decide_eq_true ha
      obtain ⟨q, hq, ⟨room, token, hst, rfl⟩ | ⟨room, sid, hst, rfl⟩⟩ := resumeOp_inv h
      · have hsound := hR.sound n q hq
        simp only [ResumeCall.Sound, hst] at hsound
        obtain ⟨rfl, rfl, hr⟩ := hsound
        exact moved n q _ hq rfl rfl rfl (resolve_sound hs hi (hR.presented n q hq) hr
          (fun x => .running (.resolve q.room q.token (.fulfilled x))) fun _ => rfl)
      · have hsound := hR.sound n q hq
        simp only [ResumeCall.Sound, hst] at hsound
        obtain ⟨rfl, hf⟩ := hsound
        exact moved n q _ hq rfl rfl rfl (load_sound hs hi hf
          (fun x => .running (.load q.room sid (.fulfilled x))) fun _ => rfl)
  | resumeNext n =>
      obtain ⟨q, p, r, hq, hst, hr, rfl⟩ := resumeNext_inv h
      exact moved n q _ hq rfl rfl rfl
        (next_sound hi (hR.presented n q hq) (hR.sound n q hq) hst hr)
  | saveOp n o =>
      obtain ⟨q, -, rfl⟩ := saveOp_inv h
      exact same rfl
  | _ =>
      obtain rfl := Option.some.inj h
      exact same rfl

/-! ### Reached states -/

theorem fresh_calls (h : s.Fresh) : s.Calls env cal := by
  refine ⟨⟨fun n _ => h.create n, fun n _ => h.resume n⟩, ⟨?_, ?_⟩, ⟨?_, ?_⟩, ?_⟩
  all_goals
    intro n
    intros
    simp_all only [h.create, reduceCtorEq]

theorem fresh_stored (h : s.Fresh) : s.Stored cal := by
  refine ⟨fun sid e he => ?_, fun n c r hc => ?_, fun token e he => ?_,
    fun n c r token hc => ?_, fun n q hq => ?_⟩
  · rw [h.store] at he
    cases he
  · rw [h.create n] at hc
    cases hc
  · rw [h.store] at he
    cases he
  · rw [h.create n] at hc
    cases hc
  · rw [h.save n] at hq
    cases hq

theorem fresh_resumed (h : s.Fresh) : s.Resumed cal := by
  refine ⟨fun m q hq => ?_, fun m q hq => ?_⟩
  · rw [h.resume m] at hq
    cases hq
  · rw [h.resume m] at hq
    cases hq

theorem resumed_of_reaches
    (h : (service env cal).Reaches (fun s l => s.keepsSessions env l = true) s) :
    s.Calls env cal ∧ s.Stored cal ∧ s.Resumed cal := by
  refine h.invariant (I := fun s => s.Calls env cal ∧ s.Stored cal ∧ s.Resumed cal)
    (fun s h₀ => ⟨fresh_calls h₀, fresh_stored h₀, fresh_resumed h₀⟩) ?_
  rintro s l t ⟨hi, hs, hR⟩ hc hstep
  have ha := answered_of_keeps hc
  exact ⟨hi.step ha hstep, hs.step hi ha (owns_of_keeps hc) hstep, hR.step hs hi hc hstep⟩

end Service

/-- **Resume**: a call of `resume` answers with a record exactly when a call of `create` for
that room has returned the token and both reads were made before the room's end; the record is
then what was last saved for the session of the token, and of no other session. -/
theorem resumes_of_reaches {env : Env} {cal : Calendar} {s : Service} {m : ℕ} {q : ResumeCall}
    {x : Option SessionRecord}
    (h : (service env cal).Reaches (fun s l => s.keepsSessions env l = true) s)
    (hq : s.resume m = some q) (hx : q.state = .answered x) :
    (x.isSome = true ↔
      (∃ n r, s.create n = some (.returned r q.token) ∧ r.roomId = q.room.roomId) ∧
        ∀ t ∈ q.reads, t < q.room.endsAt) ∧
    ∀ y, x = some y → y.roomId = q.room.roomId ∧
      (∃ z, q.latest = some z ∧ y = { z with base := y.base }) ∧
      ∀ n r token, s.create n = some (.returned r token) → (r.sid = y.sid ↔ token = q.token) := by
  obtain ⟨hi, hs, hR⟩ := Service.resumed_of_reaches h
  have hp := hR.presented m q hq
  have hsound := hR.sound m q hq
  simp only [ResumeCall.Sound, hx] at hsound
  cases x with
  | none =>
      refine ⟨⟨?_, ?_⟩, ?_⟩
      · intro hf
        cases hf
      · rintro ⟨⟨n, r, hn, hr⟩, hreads⟩
        obtain ⟨t, ht, hle⟩ := hsound n r hn hr
        exact absurd (hreads t ht) (not_lt.mpr hle)
      · intro y hy
        cases hy
  | some y =>
      obtain ⟨⟨n, r, hn, hsid, hroom, hreads, z, hz, hy⟩, hyroom⟩ := hsound
      have hends : (cal.room r.roomId).endsAt = q.room.endsAt := by
        rw [← hroom, hyroom, ← hp.room]
      refine ⟨⟨fun _ => ⟨⟨n, r, hn, hroom.symm.trans hyroom⟩, ?_⟩, fun _ => rfl⟩, ?_⟩
      · intro t ht
        rw [← hends]
        exact hreads t ht
      · rintro y' hy'
        obtain rfl := Option.some.inj hy'
        refine ⟨hyroom, ⟨z, hz, hy⟩, fun n' r' token hn' => ⟨fun he => ?_, ?_⟩⟩
        · obtain ⟨-, hc, -⟩ := hi.record_unique hn' hn rfl rfl (he.trans hsid)
          exact (CreateCall.returned.inj hc).2
        · rintro rfl
          obtain rfl := hi.tokens.one n n' _ _ q.token hn hn' rfl rfl
          obtain ⟨rfl, -⟩ := CreateCall.returned.inj (Option.some.inj (hn.symm.trans hn'))
          exact hsid.symm

/-- A call of `resume` that has found a record. -/
def ResumeState.found : ResumeState → Bool
  | .answered (some _) => true
  | _ => false

theorem ResumeState.found_iff {x : ResumeState} :
    x.found = true ↔ ∃ y, x = .answered (some y) := by
  cases x with
  | running p => simp [found]
  | answered r => cases r <;> simp [found]

namespace Demo

/-- A call of `resume` makes both its reads. -/
def resumeTurns (n : ℕ) : List Call :=
  [.resumeOp n .answered, .resumeNext n, .resumeOp n .answered, .resumeNext n]

end Demo

/-- A session is created; its token resumes it. -/
theorem resumed_created : ∃ (s : Service) (q : ResumeCall) (y : SessionRecord),
    s.resume 0 = some q ∧ q.state = .answered (some y) ∧
    (∃ n r, s.create n = some (.returned r q.token) ∧ r.roomId = q.room.roomId) ∧
    y.roomId = q.room.roomId := by
  obtain ⟨s, hs, hP⟩ := exists_called (Demo.env none) Demo.calendar
    (fun s l => s.keepsSessions (Demo.env none) l)
    (fun s => (s.resume 0).any fun q => q.state.found) Demo.noon
    ([.create "day-160" Demo.visitor] ++ Demo.createTurn 0 ++ Demo.createTurn 0 ++
      Demo.createTurn 0 ++ [.resume "day-160" 1] ++ Demo.resumeTurns 0) (by decide +kernel)
  obtain ⟨q, hq, hf⟩ := (Option.any_eq_true _ _).mp hP
  obtain ⟨y, hy⟩ := ResumeState.found_iff.mp hf
  obtain ⟨hiff, hrec⟩ := resumes_of_reaches hs hq hy
  exact ⟨s, q, y, hq, hy, (hiff.mp rfl).1, (hrec y rfl).1⟩

end RoomBackend
