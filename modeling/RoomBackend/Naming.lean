import RoomBackend.Service

/-! # Public names are unique

A name of a room is claimed by one call of `create` at a time: a claim is granted only where no
live entry is in the way, and what is claimed stays claimed until the room ends, whatever the
other calls propose. So two sessions of a room never bear one name, and the owner of a name is
the session that shows it. -/

namespace RoomBackend

open Async Day Lts Expiring

/-! ### Claims in the store -/

section store

variable {s : Store} {now : ℤ} {roomId name : String} {sid : Sid} {exp : ℤ}

/-- A claim takes nobody's name. -/
theorem Store.claimName_keeps {k : String × String} {e : Entry Sid} (h : s.names k = some e)
    (hl : now < e.exp) : (s.claimName now roomId name sid exp).2.names k = some e := by
  unfold Store.claimName
  dsimp only
  split
  · exact Map.read_snd_of_live h hl
  · rename_i hn
    have hk : k ≠ (roomId, name) := by
      rintro rfl
      rw [Map.read_fst, Map.lookup_eq_some.mpr ⟨e, h, hl, rfl⟩] at hn
      exact hn rfl
    dsimp only
    rw [Map.write_ne _ _ _ hk]
    exact Map.read_snd_of_live h hl

/-- A claim is granted where no live entry is in the way. -/
theorem Store.claimName_true (h : (s.claimName now roomId name sid exp).1 = true) :
    s.names.lookup now (roomId, name) = none ∧
      (s.claimName now roomId name sid exp).2.names (roomId, name) = some ⟨sid, exp⟩ := by
  unfold Store.claimName at h ⊢
  dsimp only at h ⊢
  split at h
  · cases h
  · rename_i hn
    rw [Map.read_fst] at hn
    rw [if_neg (by rwa [Map.read_fst])]
    exact ⟨Option.not_isSome_iff_eq_none.mp hn, Map.write_same _ _ _ _⟩

theorem Store.nameOwner_eq_some : (s.nameOwner now roomId name).1 = some sid ↔
    ∃ e, s.names (roomId, name) = some e ∧ now < e.exp ∧ e.v = sid := by
  unfold Store.nameOwner
  dsimp only
  rw [Map.read_fst, Map.lookup_eq_some]

end store

/-! ### Names under way -/

def CreatePc.room : CreatePc → DailyRoom
  | claim room _ _ _ _ _ | save room _ _ _ | link room _ _ _ _ => room

/-- The room, the name and the session of a granted claim. -/
def CreateCall.claim : CreateCall → Option (String × String × Sid)
  | .running (.claim room _ sid _ name (.fulfilled true)) => some (room.roomId, name, sid)
  | .running (.save _ r _ _) | .running (.link _ r _ _ _) | .returned r _ =>
      some (r.roomId, r.name, r.sid)
  | _ => none

/-- A call that goes on keeps the claim it was granted, and gets no other. -/
theorem CreatePc.Goes.claim {env : Env} {d d' : ℕ} {p : CreatePc} {c : CreateCall}
    (h : p.Goes env d c d') {x : String × String × Sid} (hx : c.claim = some x) :
    (CreateCall.running p).claim = some x := by
  cases h with
  | claimed => exact hx
  | again => cases hx
  | saved => exact hx
  | unsaved => exact hx
  | returned => exact hx
  | unclaimed => cases hx
  | unlinked => cases hx

theorem CreatePc.Goes.room {env : Env} {d d' : ℕ} {p q : CreatePc}
    (h : p.Goes env d (.running q) d') : q.room = p.room := by
  cases h <;> rfl

namespace Service

variable {env : Env} {cal : Calendar} {s t : Service} {l : Call} {n : ℕ}

theorem clock_le (h : s.step env cal l = some t) : s.clock ≤ t.clock := by
  cases l with
  | clock now =>
      simp only [step] at h
      split at h
      · rename_i hc
        obtain rfl := Option.some.inj h
        exact hc
      · cases h
  | createOp n o =>
      obtain ⟨room, input, sid, i, name, -, rfl⟩ | ⟨room, r, token, -, rfl⟩ |
        ⟨room, r, token, b, -, rfl⟩ := createOp_inv h <;> exact le_refl _
  | createNext n =>
      obtain ⟨p, c, d, -, -, rfl⟩ := createNext_inv h
      exact le_refl _
  | resumeOp n o =>
      obtain ⟨q, -, ⟨room, token, -, rfl⟩ | ⟨room, sid, -, rfl⟩⟩ := resumeOp_inv h <;>
        exact le_refl _
  | resumeNext n =>
      obtain ⟨q, p, r, -, -, -, rfl⟩ := resumeNext_inv h
      exact le_refl _
  | saveOp n o =>
      obtain ⟨q, -, rfl⟩ := saveOp_inv h
      exact le_refl _
  | _ =>
      obtain rfl := Option.some.inj h
      exact le_refl _

/-- Operations that leave the names alone leave them alone, whatever becomes of them. -/
theorem names_effect {α : Type*} {op : World → α × World} {o : Outcome} {w : World}
    (h : (op w).2.store.names = w.store.names) :
    (Promise.effect op o w).store.names = w.store.names := by
  unfold Promise.effect
  split
  · exact h
  · rfl

/-- What is claimed stays claimed until it lapses, unless the room is removed. -/
theorem names_kept (h : s.step env cal l = some t) {roomId name : String} {e : Entry Sid}
    (hl : l ≠ .deleteRoom roomId) (he : s.world.store.names (roomId, name) = some e)
    (hlive : s.clock < e.exp) : t.world.store.names (roomId, name) = some e := by
  cases l with
  | clock now =>
      simp only [step] at h
      split at h
      · obtain rfl := Option.some.inj h
        exact he
      · cases h
  | createOp n o =>
      obtain ⟨room, input, sid, i, name', -, rfl⟩ | ⟨room, r, token, -, rfl⟩ |
        ⟨room, r, token, b, -, rfl⟩ := createOp_inv h
      · dsimp only [Promise.effect]
        split
        · exact Store.claimName_keeps he hlive
        · exact he
      · dsimp only
        rw [names_effect rfl]
        exact he
      · dsimp only
        rw [names_effect rfl]
        exact he
  | createNext n =>
      obtain ⟨p, c, d, -, -, rfl⟩ := createNext_inv h
      exact he
  | resumeOp n o =>
      obtain ⟨q, -, ⟨room, token, -, rfl⟩ | ⟨room, sid, -, rfl⟩⟩ := resumeOp_inv h
      · dsimp only
        rw [names_effect rfl]
        exact he
      · dsimp only
        rw [names_effect rfl]
        exact he
  | resumeNext n =>
      obtain ⟨q, p, r, -, -, -, rfl⟩ := resumeNext_inv h
      exact he
  | saveOp n o =>
      obtain ⟨q, -, rfl⟩ := saveOp_inv h
      dsimp only
      rw [names_effect rfl]
      exact he
  | nameOwner roomId' name' =>
      obtain rfl := Option.some.inj h
      exact Map.read_snd_of_live he hlive
  | deleteRoom roomId' =>
      obtain rfl := Option.some.inj h
      have hne : roomId ≠ roomId' := fun hr => hl (by rw [hr])
      have hd : (s.world.store.deleteRoom roomId').2.names (roomId, name) =
          s.world.store.names (roomId, name) := if_neg hne
      exact hd.trans he
  | _ =>
      obtain rfl := Option.some.inj h
      exact he

/-- Calls of `create` go on in the room they were called with. -/
def InRoom (cal : Calendar) (s : Service) : Prop :=
  ∀ n p, s.create n = some (.running p) → p.room = cal.room p.room.roomId

theorem InRoom.update {p : CreatePc} {c : CreateCall} (h : s.InRoom cal)
    (hp : s.create n = some (.running p)) (hc : ∀ q, c = .running q → q.room = p.room) :
    ∀ m q, Function.update s.create n (some c) m = some (.running q) →
      q.room = cal.room q.room.roomId := by
  intro m q hq
  by_cases hm : m = n
  · subst hm
    rw [Function.update_self] at hq
    rw [hc q (Option.some.inj hq)]
    exact h m p hp
  · rw [Function.update_of_ne hm] at hq
    exact h m q hq

theorem InRoom.step (hi : s.InRoom cal) (h : s.step env cal l = some t) : t.InRoom cal := by
  cases l with
  | clock now =>
      simp only [Service.step] at h
      split at h
      · obtain rfl := Option.some.inj h
        exact hi
      · cases h
  | create roomId input =>
      obtain rfl := Option.some.inj h
      intro m q hq
      by_cases hm : m = s.creates
      · subst hm
        have hq' := CreateCall.running.inj (Option.some.inj
          ((Function.update_self (f := s.create) _ _).symm.trans hq))
        rw [← hq']
        change cal.room roomId = cal.room (cal.room roomId).roomId
        rw [cal.roomId_room]
      · exact hi m q ((Function.update_of_ne hm _ _).symm.trans hq)
  | createOp n o =>
      obtain ⟨room, input, sid, i, name, hc, rfl⟩ | ⟨room, r, token, hc, rfl⟩ |
        ⟨room, r, token, b, hc, rfl⟩ := createOp_inv h
      · exact hi.update hc fun q hq => by cases hq; rfl
      · exact hi.update hc fun q hq => by cases hq; rfl
      · exact hi.update hc fun q hq => by cases hq; rfl
  | createNext n =>
      obtain ⟨p, c, d, hc, hg, rfl⟩ := createNext_inv h
      exact hi.update hc fun q hq => by subst hq; exact hg.room
  | resumeOp n o =>
      obtain ⟨q, -, ⟨room, token, -, rfl⟩ | ⟨room, sid, -, rfl⟩⟩ := resumeOp_inv h <;> exact hi
  | resumeNext n =>
      obtain ⟨q, p, r, -, -, -, rfl⟩ := resumeNext_inv h
      exact hi
  | saveOp n o =>
      obtain ⟨q, -, rfl⟩ := saveOp_inv h
      exact hi
  | _ =>
      obtain rfl := Option.some.inj h
      exact hi

/-- A claim is old, or has just been granted where no live entry was in the way. -/
theorem claim_step (hi : s.InRoom cal) (h : s.step env cal l = some t) {c : CreateCall}
    {roomId name : String} {sid : Sid} (hc : t.create n = some c)
    (hx : c.claim = some (roomId, name, sid)) :
    (∃ c₀, s.create n = some c₀ ∧ c₀.claim = some (roomId, name, sid)) ∨
      ((∃ o room input i p, l = .createOp n o ∧ room.roomId = roomId ∧
          s.create n = some (.running (.claim room input sid i name p))) ∧
        s.world.store.names.lookup s.clock (roomId, name) = none ∧
        t.world.store.names (roomId, name) = some ⟨sid, (cal.room roomId).endsAt⟩ ∧
        ∀ m, m ≠ n → t.create m = s.create m) := by
  -- a call that the step leaves alone, or whose claim it leaves alone
  have other : ∀ {m : ℕ} {d : CreateCall},
      t.create = Function.update s.create m (some d) →
      (∀ x, d.claim = some x → ∃ c₀, s.create m = some c₀ ∧ c₀.claim = some x) →
      ∃ c₀, s.create n = some c₀ ∧ c₀.claim = some (roomId, name, sid) := by
    intro m d hu hd
    by_cases hm : n = m
    · subst hm
      rw [hu, Function.update_self] at hc
      obtain rfl := Option.some.inj hc
      exact hd _ hx
    · rw [hu, Function.update_of_ne hm] at hc
      exact ⟨c, hc, hx⟩
  cases l with
  | clock now =>
      simp only [step] at h
      split at h
      · obtain rfl := Option.some.inj h
        exact .inl ⟨c, hc, hx⟩
      · cases h
  | create roomId' input =>
      obtain rfl := Option.some.inj h
      refine .inl (other (m := s.creates) rfl fun x hx => ?_)
      cases hx
  | createOp m o =>
      obtain ⟨room, input, sid', i, name', hp, rfl⟩ | ⟨room, r, token, hp, rfl⟩ |
        ⟨room, r, token, b, hp, rfl⟩ := createOp_inv h
      · by_cases hm : n = m
        · subst hm
          dsimp only at hc
          rw [Function.update_self] at hc
          obtain rfl := Option.some.inj hc
          cases o with
          | answered =>
              rw [show (Promise.answer (World.onStore fun x =>
                x.claimName s.clock room.roomId name' sid' room.endsAt) .answered s.world) =
                .fulfilled (s.world.store.claimName s.clock room.roomId name' sid'
                  room.endsAt).1 from rfl] at hx
              cases hb : (s.world.store.claimName s.clock room.roomId name' sid'
                room.endsAt).1 with
              | false =>
                  rw [hb] at hx
                  cases hx
              | true =>
                  rw [hb] at hx
                  cases hx
                  obtain ⟨h₁, h₂⟩ := Store.claimName_true hb
                  have hroom : cal.room room.roomId = room := (hi n _ hp).symm
                  refine .inr ⟨⟨_, room, input, i, _, rfl, rfl, hp⟩, h₁, ?_, fun m hm =>
                    Function.update_of_ne hm _ _⟩
                  rw [hroom]
                  exact h₂
          | refused => cases hx
          | timedOut => cases hx
        · dsimp only at hc
          rw [Function.update_of_ne hm] at hc
          exact .inl ⟨c, hc, hx⟩
      · exact .inl (other rfl fun x hx => ⟨_, hp, hx⟩)
      · exact .inl (other rfl fun x hx => ⟨_, hp, hx⟩)
  | createNext m =>
      obtain ⟨p, d, k, hp, hg, rfl⟩ := createNext_inv h
      exact .inl (other rfl fun x hx => ⟨_, hp, hg.claim hx⟩)
  | resumeOp m o =>
      obtain ⟨q, -, ⟨room, token, -, rfl⟩ | ⟨room, sid', -, rfl⟩⟩ := resumeOp_inv h <;>
        exact .inl ⟨c, hc, hx⟩
  | resumeNext m =>
      obtain ⟨q, p, r, -, -, -, rfl⟩ := resumeNext_inv h
      exact .inl ⟨c, hc, hx⟩
  | saveOp m o =>
      obtain ⟨q, -, rfl⟩ := saveOp_inv h
      exact .inl ⟨c, hc, hx⟩
  | _ =>
      obtain rfl := Option.some.inj h
      exact .inl ⟨c, hc, hx⟩

/-! ### One claim for each name -/

/-- Names of this room are claimed before the room ends, and the room is not removed. -/
def keepsNames (cal : Calendar) (roomId : String) (s : Service) : Call → Bool
  | .createOp n _ =>
      match s.create n with
      | some (.running (.claim room _ _ _ _ _)) =>
          decide (room.roomId = roomId → s.clock < (cal.room roomId).endsAt)
      | _ => true
  | .deleteRoom roomId' => decide (roomId' ≠ roomId)
  | _ => true

/-- Until the room ends, each granted claim is in the store; no name is claimed twice. -/
structure Named (cal : Calendar) (roomId : String) (s : Service) : Prop where
  live : ∀ n c name sid, s.create n = some c → c.claim = some (roomId, name, sid) →
    s.clock < (cal.room roomId).endsAt →
    s.world.store.names (roomId, name) = some ⟨sid, (cal.room roomId).endsAt⟩
  one : ∀ n m c c' name sid sid', s.create n = some c → s.create m = some c' →
    c.claim = some (roomId, name, sid) → c'.claim = some (roomId, name, sid') → n = m

theorem Named.step {roomId : String} (hi : s.InRoom cal) (hn : s.Named cal roomId)
    (hc : s.keepsNames cal roomId l = true) (h : s.step env cal l = some t) :
    t.Named cal roomId := by
  have hd : l ≠ .deleteRoom roomId := by
    rintro rfl
    exact absurd rfl (of_decide_eq_true hc)
  -- a claim that has just been granted met no other claim of the name
  have new : ∀ {m : ℕ} {c : CreateCall} {name : String} {sid : Sid} {o : Outcome}
      {room : DailyRoom} {input : NewSessionInput} {i : ℕ} {p : Promise Bool} {n : ℕ}
      {sid' : Sid}, l = .createOp n o → room.roomId = roomId →
      s.create n = some (.running (.claim room input sid' i name p)) →
      s.world.store.names.lookup s.clock (roomId, name) = none →
      s.create m = some c → c.claim = some (roomId, name, sid) → False := by
    intro m c name sid o room input i p n sid' hl hr hp hnone hm hx
    subst hl
    have ht : s.clock < (cal.room roomId).endsAt := by
      simp only [keepsNames, hp] at hc
      exact of_decide_eq_true hc hr
    have hlive := hn.live m c name sid hm hx ht
    rw [Map.lookup_eq_some.mpr ⟨_, hlive, ht, rfl⟩] at hnone
    cases hnone
  constructor
  · intro n c name sid hcr hx ht
    obtain ⟨c₀, hc₀, hx₀⟩ | ⟨-, -, he, -⟩ := claim_step hi h hcr hx
    · have hlt : s.clock < (cal.room roomId).endsAt := lt_of_le_of_lt (clock_le h) ht
      exact names_kept h hd (hn.live n c₀ name sid hc₀ hx₀ hlt) hlt
    · exact he
  · intro n m c c' name sid sid' hcr hcr' hx hx'
    obtain ⟨c₀, hc₀, hx₀⟩ | ⟨⟨o, room, input, i, p, hl, hr, hp⟩, hnone, -, hne⟩ :=
      claim_step hi h hcr hx
    · obtain ⟨c₁, hc₁, hx₁⟩ | ⟨⟨o, room, input, i, p, hl, hr, hp⟩, hnone, -, hne⟩ :=
        claim_step hi h hcr' hx'
      · exact hn.one n m c₀ c₁ name sid sid' hc₀ hc₁ hx₀ hx₁
      · exact absurd hx₀ fun hx₀ => new hl hr hp hnone hc₀ hx₀
    · by_cases hm : m = n
      · exact hm.symm
      · rw [hne m hm] at hcr'
        exact absurd hx' fun hx' => new hl hr hp hnone hcr' hx'

theorem fresh_inRoom (h : s.Fresh) : s.InRoom cal := by
  intro n p hp
  rw [h.create n] at hp
  cases hp

theorem fresh_named {roomId : String} (h : s.Fresh) : s.Named cal roomId := by
  constructor
  · intro n c name sid hc
    rw [h.create n] at hc
    cases hc
  · intro n m c c' name sid sid' hc
    rw [h.create n] at hc
    cases hc

theorem inRoom_of_reaches {C : Service → Call → Prop} (h : (service env cal).Reaches C s) :
    s.InRoom cal :=
  h.invariant (fun _ => fresh_inRoom) fun _ _ _ hi _ hs => hi.step hs

theorem named_of_reaches {roomId : String}
    (h : (service env cal).Reaches (fun s l => s.keepsNames cal roomId l = true) s) :
    s.Named cal roomId :=
  h.invariant_of (fun _ => inRoom_of_reaches) (fun _ => fresh_named)
    fun _ _ _ hi hn hc hs => hn.step hi hc hs

/-- A claim lapses when its room ends. -/
def Lapses (cal : Calendar) (s : Service) : Prop :=
  ∀ k e, s.world.store.names k = some e → e.exp = (cal.room k.1).endsAt

theorem Lapses.step (hi : s.InRoom cal) (hl : s.Lapses cal) (h : s.step env cal l = some t) :
    t.Lapses cal := by
  intro k e he
  cases l with
  | clock now =>
      simp only [Service.step] at h
      split at h
      · obtain rfl := Option.some.inj h
        exact hl k e he
      · cases h
  | createOp n o =>
      obtain ⟨room, input, sid, i, name, hp, rfl⟩ | ⟨room, r, token, -, rfl⟩ |
        ⟨room, r, token, b, -, rfl⟩ := createOp_inv h
      · dsimp only [Promise.effect] at he
        split at he
        · obtain ⟨names, hst, hn⟩ :=
            s.world.store.claimName_names s.clock room.roomId name sid room.endsAt
          replace he : (s.world.store.claimName s.clock room.roomId name sid
            room.endsAt).2.names k = some e := he
          rw [hst] at he
          obtain he | ⟨rfl, rfl⟩ := hn k e he
          · exact hl k e he
          · exact congrArg DailyRoom.endsAt (hi n _ hp)
        · exact hl k e he
      · dsimp only at he
        rw [names_effect rfl] at he
        exact hl k e he
      · dsimp only at he
        rw [names_effect rfl] at he
        exact hl k e he
  | createNext n =>
      obtain ⟨p, c, d, -, -, rfl⟩ := createNext_inv h
      exact hl k e he
  | resumeOp n o =>
      obtain ⟨q, -, ⟨room, token, -, rfl⟩ | ⟨room, sid, -, rfl⟩⟩ := resumeOp_inv h
      · dsimp only at he
        rw [names_effect rfl] at he
        exact hl k e he
      · dsimp only at he
        rw [names_effect rfl] at he
        exact hl k e he
  | resumeNext n =>
      obtain ⟨q, p, r, -, -, -, rfl⟩ := resumeNext_inv h
      exact hl k e he
  | saveOp n o =>
      obtain ⟨q, -, rfl⟩ := saveOp_inv h
      dsimp only at he
      rw [names_effect rfl] at he
      exact hl k e he
  | nameOwner roomId name =>
      obtain rfl := Option.some.inj h
      exact hl k e (Map.read_snd_eq_some he)
  | deleteRoom roomId =>
      obtain rfl := Option.some.inj h
      replace he : (if k.1 = roomId then none else s.world.store.names k) = some e := he
      split at he
      · cases he
      · exact hl k e he
  | _ =>
      obtain rfl := Option.some.inj h
      exact hl k e he

theorem lapses_of_reaches {C : Service → Call → Prop} (h : (service env cal).Reaches C s) :
    s.Lapses cal := by
  refine h.invariant_of (fun _ => inRoom_of_reaches) (fun s₀ h₀ k e he => ?_)
    fun _ _ _ hi hl _ hs => hl.step hi hs
  rw [h₀.store] at he
  cases he

theorem nameOwner_eq_some {roomId name : String} {sid : Sid} :
    s.nameOwner roomId name = some sid ↔
      ∃ e, s.world.store.names (roomId, name) = some e ∧ s.clock < e.exp ∧ e.v = sid :=
  Store.nameOwner_eq_some

/-- While the room lasts, the owners of its names stay what they are. -/
theorem owner_kept {roomId name : String} {sid : Sid} {ls : List Call} {u : Service}
    (hl : s.Lapses cal)
    (h : (service env cal).Run (fun s l => s.keepsNames cal roomId l = true) s ls u)
    (ht : u.clock < (cal.room roomId).endsAt) (ho : s.nameOwner roomId name = some sid) :
    u.nameOwner roomId name = some sid := by
  obtain ⟨e, he, -, hv⟩ := nameOwner_eq_some.mp ho
  have hexp : e.exp = (cal.room roomId).endsAt := hl _ e he
  have key : s.clock ≤ u.clock ∧ (u.clock < e.exp →
      s.world.store.names (roomId, name) = some e →
      u.world.store.names (roomId, name) = some e) := by
    refine h.rel (R := fun s u : Service => s.clock ≤ u.clock ∧ (u.clock < e.exp →
      s.world.store.names (roomId, name) = some e →
      u.world.store.names (roomId, name) = some e)) ?_ ?_ ?_
    · exact fun s => ⟨le_refl _, fun _ he => he⟩
    · rintro s t u ⟨hst, h₁⟩ ⟨htu, h₂⟩
      exact ⟨hst.trans htu, fun ht he => h₂ ht (h₁ (lt_of_le_of_lt htu ht) he)⟩
    · intro s l t hc hs
      refine ⟨clock_le hs, fun ht he => names_kept hs ?_ he (lt_of_le_of_lt (clock_le hs) ht)⟩
      rintro rfl
      exact absurd rfl (of_decide_eq_true hc)
  have hlive : u.clock < e.exp := by rwa [hexp]
  exact nameOwner_eq_some.mpr ⟨e, key.2 hlive he, hlive, hv⟩

end Service

/-- **Names**: whatever names are proposed and in whatever order the calls go on, sessions of one
room have different names; until the room ends the owner of a name is the session created under
it, also for the lookup of an admin block; and no call, failing ones included, takes a name from
its owner. -/
theorem names_of_reaches {env : Env} {cal : Calendar} (roomId : String) {s : Service}
    (h : (service env cal).Reaches (fun s l => s.keepsNames cal roomId l = true) s) :
    (∀ n m r r' token token', s.create n = some (.returned r token) →
      s.create m = some (.returned r' token') → r.roomId = roomId → r'.roomId = roomId →
      n ≠ m → r.name ≠ r'.name) ∧
    (∀ n r token, s.create n = some (.returned r token) → r.roomId = roomId →
      s.clock < (cal.room roomId).endsAt →
      s.nameOwner roomId r.name = some r.sid ∧
      ∀ (i : InstanceId) (b : BlockReq), ∃ w,
        (AdminPc.owner b r.name roomId .pending).settle env s.clock i .answered s.world =
          some (.owner b r.name roomId (.fulfilled (some r.sid)), w)) ∧
    (∀ u ls name sid,
      (service env cal).Run (fun s l => s.keepsNames cal roomId l = true) s ls u →
      u.clock < (cal.room roomId).endsAt → s.nameOwner roomId name = some sid →
      u.nameOwner roomId name = some sid) := by
  have hn := Service.named_of_reaches h
  refine ⟨?_, ?_, ?_⟩
  · rintro n m r r' token token' hc hc' rfl hr' hne hname
    refine hne (hn.one n m _ _ r.name r.sid r'.sid hc hc' rfl ?_)
    change some (r'.roomId, r'.name, r'.sid) = _
    rw [hr', hname]
  · rintro n r token hc rfl ht
    have he := hn.live n _ r.name r.sid hc rfl ht
    have ho : s.nameOwner r.roomId r.name = some r.sid :=
      Service.nameOwner_eq_some.mpr ⟨_, he, ht, rfl⟩
    refine ⟨ho, fun i b =>
      ⟨(World.onStore (fun x => x.nameOwner s.clock r.roomId r.name) s.world).2, ?_⟩⟩
    rw [← ho]
    rfl
  · intro u ls name sid hr ht ho
    exact Service.owner_kept (Service.lapses_of_reaches h) hr ht ho

/-- Two calls that are proposed the same name: the second one takes its next proposal. -/
theorem names_differ : ∃ (s : Service) (r r' : SessionRecord) (token token' : Token),
    s.create 0 = some (.returned r token) ∧ s.create 1 = some (.returned r' token') ∧
    r.name ≠ r'.name ∧ s.nameOwner "day-160" r.name = some r.sid := by
  obtain ⟨s, hs, hP⟩ := exists_called Demo.twice Demo.calendar
    (fun s l => s.keepsNames Demo.calendar "day-160" l)
    (fun s => (s.create 0).any (CreateCall.made "day-160") &&
      (s.create 1).any (CreateCall.made "day-160") && decide (s.clock < Demo.midnight))
    Demo.noon
    ([.create "day-160" Demo.visitor, .create "day-160" Demo.visitor] ++ Demo.createTurn 0 ++
      Demo.createTurn 1 ++ Demo.createTurn 1 ++ Demo.createTurn 0 ++ Demo.createTurn 0 ++
      Demo.createTurn 1 ++ Demo.createTurn 1) (by decide +kernel)
  simp only [Bool.and_eq_true, decide_eq_true_eq] at hP
  obtain ⟨⟨h₀, h₁⟩, ht⟩ := hP
  obtain ⟨c, hc, hm⟩ := (Option.any_eq_true _ _).mp h₀
  obtain ⟨c', hc', hm'⟩ := (Option.any_eq_true _ _).mp h₁
  obtain ⟨r, token, rfl, hr⟩ := CreateCall.made_iff.mp hm
  obtain ⟨r', token', rfl, hr'⟩ := CreateCall.made_iff.mp hm'
  obtain ⟨hne, howner, -⟩ := names_of_reaches "day-160" hs
  exact ⟨s, r, r', token, token', hc, hc', hne 0 1 r r' token token' hc hc' hr hr' (by decide),
    (howner 0 r token hc hr ht).1⟩

end RoomBackend
