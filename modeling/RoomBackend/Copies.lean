import RoomBackend.Provenance

/-! # Copies of session records

Every connection keeps a copy of the record of its session and saves it over the stored one.
A copy remembers the revision it was read from. What a revision stored is found in the
journal, so that a copy can be compared with it whatever the store holds by now: every copy, of
a connection, of a suspended function or of a save under way, has only grown since the revision
it was read from (`World.Copy`). -/

namespace RoomBackend

open Async Day Lts Expiring

/-! ### Standings -/

/-- No block is lost, and the challenge flag is the same or was assigned later. -/
structure Standing.Precedes (s t : Standing) : Prop where
  blocks : s.blocks ≤ t.blocks
  flag : (t.challengePending = s.challengePending ∧ t.flagged = s.flagged) ∨ s.flagged < t.flagged

/-- The enforcement fields are the same. -/
structure Standing.Same (s t : Standing) : Prop where
  blocks : t.blocks = s.blocks
  pending : t.challengePending = s.challengePending
  flagged : t.flagged = s.flagged

theorem Standing.same_refl (s : Standing) : s.Same s := ⟨rfl, rfl, rfl⟩

theorem Standing.Same.symm {s t : Standing} (h : s.Same t) : t.Same s :=
  ⟨h.blocks.symm, h.pending.symm, h.flagged.symm⟩

theorem Standing.Same.trans {s t u : Standing} (h : s.Same t) (h' : t.Same u) : s.Same u :=
  ⟨h'.blocks.trans h.blocks, h'.pending.trans h.pending, h'.flagged.trans h.flagged⟩

theorem Standing.Same.precedes {s t : Standing} (h : s.Same t) : s.Precedes t :=
  ⟨h.blocks.ge, Or.inl ⟨h.pending, h.flagged⟩⟩

theorem Standing.Precedes.trans {s t u : Standing} (h : s.Precedes t) (h' : t.Precedes u) :
    s.Precedes u := by
  refine ⟨h.blocks.trans h'.blocks, ?_⟩
  rcases h.flag with ⟨hp, hf⟩ | hlt
  · rcases h'.flag with ⟨hp', hf'⟩ | hlt'
    · exact Or.inl ⟨hp'.trans hp, hf'.trans hf⟩
    · exact Or.inr (hf ▸ hlt')
  · rcases h'.flag with ⟨-, hf'⟩ | hlt'
    · exact Or.inr (hf' ▸ hlt)
    · exact Or.inr (hlt.trans hlt')

/-! ### The store -/

namespace World

variable (w : World)

/-- The journal holds the verdict that last assigned the challenge flag. -/
def Flags (sid : Sid) (t : Standing) : Prop :=
  ∀ n, t.flagged = n + 1 → ∃ k,
    w.journal[n]? = some (if t.challengePending then .issued k sid else .passed k sid)

/-- Revision `n + 1` of the session, made by connection `k`, stored this. -/
def Revision (sid : Sid) (n : ℕ) (k : ConnKey) (t : Standing) : Prop :=
  ∃ r prior, w.journal[n]? = some (.saved k r prior) ∧ r.sid = sid ∧ r.toStanding.Same t

/-- A copy of the record of the session: it has only grown since the revision it was read from. -/
structure Copy (sid : Sid) (t : Standing) : Prop where
  flags : w.Flags sid t
  since : ∀ n, t.base = n + 1 → ∃ k old, w.Revision sid n k old ∧ old.Precedes t

/-- The stored record of a session is what its last revision stored, up to score fields. -/
def Stamped : Prop :=
  ∀ sid e, w.store.sess sid = some e → w.Flags sid e.v.toStanding ∧
    ∃ st n, w.lastSave sid = some st ∧ st.rev = n + 1 ∧
      w.Revision sid n st.author e.v.toStanding

end World

section copies

variable {w w' : World} {sid : Sid} {s t : Standing} {log : List Obs}

theorem World.getElem?_of_append {n : ℕ} {o : Obs} (hw : w'.journal = w.journal ++ log)
    (h : w.journal[n]? = some o) : w'.journal[n]? = some o := by
  obtain ⟨hn, -⟩ := List.getElem?_eq_some_iff.mp h
  rw [hw, List.getElem?_append_left hn]
  exact h

theorem World.Flags.mono (h : w.Flags sid t) (hw : w'.journal = w.journal ++ log) :
    w'.Flags sid t := by
  intro n hn
  obtain ⟨k, hk⟩ := h n hn
  exact ⟨k, World.getElem?_of_append hw hk⟩

/-- The flag was assigned before now. -/
theorem World.Flags.le (h : w.Flags sid t) : t.flagged ≤ w.journal.length := by
  cases hf : t.flagged with
  | zero => exact Nat.zero_le _
  | succ n =>
      obtain ⟨k, hk⟩ := h n hf
      obtain ⟨hn, -⟩ := List.getElem?_eq_some_iff.mp hk
      exact hn

theorem World.Revision.mono {n : ℕ} {k : ConnKey} (h : w.Revision sid n k t)
    (hw : w'.journal = w.journal ++ log) : w'.Revision sid n k t := by
  obtain ⟨r, prior, hj, hr⟩ := h
  exact ⟨r, prior, World.getElem?_of_append hw hj, hr⟩

theorem World.Revision.of_same {n : ℕ} {k : ConnKey} (h : w.Revision sid n k s)
    (hs : s.Same t) : w.Revision sid n k t := by
  obtain ⟨r, prior, hj, hr, hsame⟩ := h
  exact ⟨r, prior, hj, hr, hsame.trans hs⟩

/-- A revision has one author and stored one thing. -/
theorem World.Revision.same {n : ℕ} {k k' : ConnKey} (h : w.Revision sid n k s)
    (h' : w.Revision sid n k' t) : s.Same t := by
  obtain ⟨r, prior, hj, -, hs⟩ := h
  obtain ⟨r', prior', hj', -, hs'⟩ := h'
  rw [hj] at hj'
  cases hj'
  exact hs.symm.trans hs'

theorem World.Copy.mono (h : w.Copy sid t) (hw : w'.journal = w.journal ++ log) :
    w'.Copy sid t := by
  refine ⟨h.flags.mono hw, fun n hn => ?_⟩
  obtain ⟨k, old, hrev, hp⟩ := h.since n hn
  exact ⟨k, old, hrev.mono hw, hp⟩

/-- The copy changes: nothing is lost, and the journal tells of the challenge flag. -/
theorem World.Copy.grow (h : w.Copy sid s) (hb : t.base = s.base) (hp : s.Precedes t)
    (hf : w.Flags sid t) : w.Copy sid t := by
  refine ⟨hf, fun n hn => ?_⟩
  obtain ⟨k, old, hrev, hold⟩ := h.since n (hb ▸ hn)
  exact ⟨k, old, hrev, hold.trans hp⟩

/-- A copy whose challenge flag stays as it is. -/
theorem World.Copy.grow_blocks (h : w.Copy sid s) (hb : t.base = s.base)
    (hn : s.blocks ≤ t.blocks) (hp : t.challengePending = s.challengePending)
    (hf : t.flagged = s.flagged) : w.Copy sid t := by
  refine h.grow hb ⟨hn, Or.inl ⟨hp, hf⟩⟩ fun n hn => ?_
  rw [hp]
  exact h.flags n (hf ▸ hn)

/-- A copy whose challenge flag has just been assigned. -/
theorem World.Copy.flag {k : ConnKey} {o : Obs} (h : w.Copy sid s) (hb : t.base = s.base)
    (hn : s.blocks ≤ t.blocks) (hf : t.flagged = w.journal.length + 1)
    (ho : o = if t.challengePending then .issued k sid else .passed k sid) :
    (w.note [o]).Copy sid t := by
  have hw : (w.note [o]).journal = w.journal ++ [o] := rfl
  refine (h.mono hw).grow hb ⟨hn, Or.inr ?_⟩ fun n hn => ?_
  · rw [hf]
    exact Nat.lt_succ_of_le h.flags.le
  · obtain rfl : n = w.journal.length := Nat.succ.inj (hn.symm.trans hf)
    refine ⟨k, ?_⟩
    rw [hw, List.getElem?_concat_length, ho]

/-- A record that was never stored. -/
theorem World.Copy.fresh (w : World) (sid : Sid) (hb : t.base = 0) (hf : t.flagged = 0) :
    w.Copy sid t := by
  refine ⟨fun n hn => ?_, fun n hn => ?_⟩
  · rw [hf] at hn
    cases hn
  · rw [hb] at hn
    cases hn

/-! ### Loads and saves -/

/-- A record read from the store. -/
theorem World.Stamped.load {now : ℤ} {r : SessionRecord} (h : w.Stamped) (hA : Accounted w)
    (hr : (World.load now sid w).1 = some r) : w.Copy r.sid r.toStanding := by
  obtain ⟨r₀, hl, rfl⟩ := Option.map_eq_some_iff.mp hr
  replace hl : (w.store.sess.read now sid).1 = some r₀ := hl
  rw [Map.read_fst] at hl
  obtain ⟨e, he, -, rfl⟩ := Map.lookup_eq_some.mp hl
  obtain ⟨hf, st, n, hst, hrev, hR⟩ := h sid e he
  have hsid : e.v.sid = sid := hA.sids sid e he
  show w.Copy e.v.sid { e.v.toStanding with base := w.rev sid }
  rw [hsid]
  refine ⟨hf, fun m hm => ?_⟩
  have hm : w.rev sid = m + 1 := hm
  rw [World.rev, hst] at hm
  obtain rfl : n = m := Nat.succ.inj (hrev.symm.trans hm)
  exact ⟨st.author, e.v.toStanding, hR, ⟨le_refl _, Or.inl ⟨rfl, rfl⟩⟩⟩

theorem World.sameStanding_spec {r : SessionRecord} (h : w.sameStanding r = true) :
    ∃ e, w.store.sess r.sid = some e ∧ e.v.toStanding.Same r.toStanding := by
  unfold World.sameStanding at h
  cases he : w.store.sess r.sid with
  | none =>
      rw [he] at h
      cases h
  | some e =>
      rw [he] at h
      simp only [Bool.and_eq_true, decide_eq_true_eq] at h
      obtain ⟨⟨hb, hp⟩, hf⟩ := h
      exact ⟨e, rfl, hb.symm, hp.symm, hf.symm⟩

theorem World.Stamped.save (h : w.Stamped) (k : ConnKey) {req : SaveReq}
    (hc : w.Copy req.record.sid req.record.toStanding) : (World.save k req w).2.Stamped := by
  have hw : (World.save k req w).2.journal =
      w.journal ++ [.saved k req.record (w.stored req.record.sid)] := rfl
  intro sid e he
  replace he : w.store.sess.write req.record.sid req.record req.expireAt sid = some e := he
  by_cases hs : sid = req.record.sid
  · subst hs
    rw [Map.write_same] at he
    cases he
    refine ⟨hc.flags.mono hw, ?_⟩
    have hlast : (World.save k req w).2.lastSave req.record.sid = some (w.stamp k req.record) :=
      Function.update_self ..
    cases hsame : w.sameStanding req.record with
    | true =>
        -- the revision stays
        obtain ⟨e, he, hsm⟩ := World.sameStanding_spec hsame
        obtain ⟨-, st, n, hst, hrev, hR⟩ := h req.record.sid e he
        rw [World.stamp, hsame, if_pos rfl, hst] at hlast
        exact ⟨st, n, hlast, hrev, (hR.mono hw).of_same hsm⟩
    | false =>
        rw [World.stamp, hsame] at hlast
        refine ⟨_, w.journal.length, hlast, rfl, req.record, w.stored req.record.sid, ?_, rfl,
          Standing.same_refl _⟩
        rw [hw]
        exact List.getElem?_concat_length
  · rw [Map.write_ne _ _ _ hs] at he
    obtain ⟨hf, st, n, hst, hrev, hR⟩ := h sid e he
    have hlast : (World.save k req w).2.lastSave sid = w.lastSave sid := Function.update_of_ne hs ..
    exact ⟨hf.mono hw, st, n, hlast.trans hst, hrev, hR.mono hw⟩

/-- The stored records were stored before, and the journal has grown. -/
theorem World.Stamped.mono (h : w.Stamped) (hw : w'.journal = w.journal ++ log)
    (hs : ∀ sid e, w'.store.sess sid = some e → w.store.sess sid = some e)
    (hl : w'.lastSave = w.lastSave) : w'.Stamped := by
  intro sid e he
  obtain ⟨hf, st, n, hst, hrev, hR⟩ := h sid e (hs sid e he)
  refine ⟨hf.mono hw, st, n, ?_, hrev, hR.mono hw⟩
  rw [hl]
  exact hst

end copies

/-! ### The copies a suspended function carries -/

/-- The record of a save. -/
def savedCopies (req : Option SaveReq) : List SessionRecord := (req.map SaveReq.record).toList

def CreatePc.copies : CreatePc → List SessionRecord
  | claim _ _ _ _ _ _ => []
  | save _ record _ _ | link _ record _ _ _ => [record]

def ResumePc.copies : ResumePc → List SessionRecord
  | load _ _ (.fulfilled (some r)) => [r]
  | _ => []

def JoinPc.copies : JoinPc → List SessionRecord
  | resume _ _ r => r.copies
  | rejoin _ record _ _ | block _ record _ _ => [record]
  | create _ c => c.copies
  | newsess _ _ _ | history _ _ _ _ _ => []

def BlockPc.copies : BlockPc → List SessionRecord
  | save _ req _ => savedCopies req
  | _ => []

def EscalatePc.copies : EscalatePc → List SessionRecord
  | returned _ => []
  | challenge req _ => savedCopies req
  | block b => b.copies

def Handler.copies : Handler → List SessionRecord
  | join p => p.copies
  | send (.escalate _ _ e) => e.copies
  | challenge (.passed req _) | challenge (.failed req _) => savedCopies req
  | challenge (.block b) => b.copies
  | _ => []

def Task.copies : Task → List SessionRecord
  | persist _ req _ => [req.record]
  | admin _ _ => []

/-- The copies of a handler in progress, if there is one. -/
def handlerCopies (h : Option Handler) : List SessionRecord := (h.map Handler.copies).getD []

theorem mem_savedCopies_of_unsaved {req : Option SaveReq} {p : Promise Unit} {q : SaveReq}
    (h : unsaved req p = some q) : q.record ∈ savedCopies req := by
  cases p with
  | pending =>
      rw [show req = some q from h]
      exact List.mem_singleton_self _
  | _ => cases h

theorem CreatePc.mem_copies {p : CreatePc} {q : SaveReq} (h : p.saving = some q) :
    q.record ∈ p.copies := by
  cases p with
  | save room record token p =>
      have hq := mem_savedCopies_of_unsaved h
      exact hq
  | _ => cases h

theorem BlockPc.mem_copies {b : BlockPc} {q : SaveReq} (h : b.saving = some q) :
    q.record ∈ b.copies := by
  cases b with
  | save b req p => exact mem_savedCopies_of_unsaved h
  | _ => cases h

theorem EscalatePc.mem_copies {e : EscalatePc} {q : SaveReq} (h : e.saving = some q) :
    q.record ∈ e.copies := by
  cases e with
  | returned reason => cases h
  | challenge req p => exact mem_savedCopies_of_unsaved h
  | block b => exact BlockPc.mem_copies h

/-- A save under way is one of the copies of its function. -/
theorem Handler.mem_copies {h : Handler} {q : SaveReq} (hq : h.saving = some q) :
    q.record ∈ h.copies := by
  unfold Handler.saving at hq
  split at hq
  · exact CreatePc.mem_copies hq
  · exact EscalatePc.mem_copies hq
  · exact mem_savedCopies_of_unsaved hq
  · exact mem_savedCopies_of_unsaved hq
  · exact BlockPc.mem_copies hq
  · cases hq

/-! ### Operations that are answered -/

section settle

variable {env : Env} {now : ℤ} {v : Bool} {k : ConnKey} {n : ℕ} {info : AdmitInfo} {o : Outcome}
  {w w' : World} {r : SessionRecord}

theorem CreatePc.settle_copies {p p' : CreatePc} (hs : p.settle now k o w = some (p', w')) :
    p'.copies = p.copies := by
  cases p with
  | _ =>
      obtain ⟨q, -, he⟩ := Option.map_eq_some_iff.mp hs
      rw [← (Prod.mk.inj he).1]
      rfl

theorem ResumePc.settle_room {p p' : ResumePc} (hs : p.settle now o w = some (p', w')) :
    p'.room = p.room := by
  cases p with
  | _ =>
      obtain ⟨q, -, he⟩ := Option.map_eq_some_iff.mp hs
      rw [← (Prod.mk.inj he).1]
      rfl

/-- The answer of the load that `resume` waits for. -/
theorem ResumePc.settle_copies {p p' : ResumePc} (hs : p.settle now o w = some (p', w'))
    (hr : r ∈ p'.copies) : ∃ sid, (World.load now sid w).1 = some r := by
  cases p with
  | resolve room token p =>
      obtain ⟨q, -, he⟩ := Option.map_eq_some_iff.mp hs
      rw [← (Prod.mk.inj he).1] at hr
      cases hr
  | load room sid p =>
      obtain ⟨⟨q, w₁⟩, hq, he⟩ := Option.map_eq_some_iff.mp hs
      obtain ⟨rfl, rfl⟩ := Prod.mk.inj he
      cases q with
      | fulfilled a =>
          cases a with
          | none => cases hr
          | some r' =>
              cases List.mem_singleton.mp hr
              exact ⟨sid, (Promise.settle_fulfilled hq).1.symm⟩
      | _ => cases hr

theorem BlockPc.settle_copies {b b' : BlockPc} (hs : b.settle now k info o w = some (b', w')) :
    b'.copies = b.copies := by
  cases b with
  | _ =>
      obtain ⟨q, -, he⟩ := Option.map_eq_some_iff.mp hs
      rw [← (Prod.mk.inj he).1]
      rfl

theorem EscalatePc.settle_copies {e e' : EscalatePc}
    (hs : e.settle now k info o w = some (e', w')) : e'.copies = e.copies := by
  cases e with
  | returned reason => cases hs
  | challenge req p =>
      obtain ⟨q, -, he⟩ := Option.map_eq_some_iff.mp hs
      rw [← (Prod.mk.inj he).1]
      rfl
  | block b =>
      obtain ⟨⟨b₁, w₁⟩, hb, he⟩ := Option.map_eq_some_iff.mp hs
      rw [← (Prod.mk.inj he).1]
      exact BlockPc.settle_copies hb

/-- An operation that is answered adds no copy but the record that was loaded. -/
theorem Handler.settle_copies {h h' : Handler}
    (hs : h.settle env now v k n info o w = some (h', w')) (hr : r ∈ h'.copies) :
    r ∈ h.copies ∨ ∃ sid, (World.load now sid w).1 = some r := by
  cases h with
  | join p =>
      obtain ⟨⟨q, w₁⟩, hq, he⟩ := Option.map_eq_some_iff.mp hs
      rw [← (Prod.mk.inj he).1] at hr
      cases p with
      | resume j token p =>
          obtain ⟨⟨x, w₂⟩, hx, he⟩ := Option.map_eq_some_iff.mp hq
          rw [← (Prod.mk.inj he).1] at hr
          exact Or.inr (ResumePc.settle_copies hx hr)
      | create j p =>
          obtain ⟨⟨x, w₂⟩, hx, he⟩ := Option.map_eq_some_iff.mp hq
          rw [← (Prod.mk.inj he).1] at hr
          refine Or.inl ?_
          show r ∈ p.copies
          rw [← CreatePc.settle_copies hx]
          exact hr
      | _ =>
          obtain ⟨x, -, he⟩ := Option.map_eq_some_iff.mp hq
          rw [← (Prod.mk.inj he).1] at hr
          exact Or.inl hr
  | send p =>
      obtain ⟨⟨q, w₁⟩, hq, he⟩ := Option.map_eq_some_iff.mp hs
      rw [← (Prod.mk.inj he).1] at hr
      cases p with
      | escalate l site e =>
          obtain ⟨⟨x, w₂⟩, hx, he⟩ := Option.map_eq_some_iff.mp hq
          rw [← (Prod.mk.inj he).1] at hr
          refine Or.inl ?_
          show r ∈ e.copies
          rw [← EscalatePc.settle_copies hx]
          exact hr
      | reply e reply => cases hq
      | _ =>
          obtain ⟨x, -, he⟩ := Option.map_eq_some_iff.mp hq
          rw [← (Prod.mk.inj he).1] at hr
          cases hr
  | challenge p =>
      obtain ⟨⟨q, w₁⟩, hq, he⟩ := Option.map_eq_some_iff.mp hs
      rw [← (Prod.mk.inj he).1] at hr
      cases p with
      | block b =>
          obtain ⟨⟨x, w₂⟩, hx, he⟩ := Option.map_eq_some_iff.mp hq
          rw [← (Prod.mk.inj he).1] at hr
          refine Or.inl ?_
          show r ∈ b.copies
          rw [← BlockPc.settle_copies hx]
          exact hr
      | _ =>
          obtain ⟨x, -, he⟩ := Option.map_eq_some_iff.mp hq
          rw [← (Prod.mk.inj he).1] at hr
          exact Or.inl hr
  | report p =>
      obtain ⟨q, -, he⟩ := Option.map_eq_some_iff.mp hs
      rw [← (Prod.mk.inj he).1] at hr
      cases hr

theorem Task.settle_copies {b b' : Task} (hs : b.settle env now o w = some (b', w')) :
    b'.copies = b.copies := by
  cases b with
  | _ =>
      obtain ⟨q, -, he⟩ := Option.map_eq_some_iff.mp hs
      rw [← (Prod.mk.inj he).1]
      rfl

end settle

/-! ### Stretches of a function -/

/-- The listed records are copies. -/
def World.Copies (w : World) (rs : List SessionRecord) : Prop :=
  ∀ r ∈ rs, w.Copy r.sid r.toStanding

/-- The records a connection holds are copies. -/
def Core.Held (c : Core) (k : ConnKey) : Prop :=
  ∀ sid, c.world.Copy sid ((c.conn k).standing sid)

theorem World.copies_nil (w : World) : w.Copies [] := fun _ hr => absurd hr List.not_mem_nil

theorem World.Copies.mono {w w' : World} {rs : List SessionRecord} {log : List Obs}
    (h : w.Copies rs) (hw : w'.journal = w.journal ++ log) : w'.Copies rs :=
  fun r hr => (h r hr).mono hw

theorem World.copies_singleton {w : World} {r : SessionRecord} (h : w.Copy r.sid r.toStanding) :
    w.Copies [r] := by
  intro r' hr
  rw [List.mem_singleton.mp hr]
  exact h

section resume

variable {env : Env} {w : World}

/-- `create` makes a record that was never stored. -/
theorem CreatePc.wait_copies {d d' : ℕ} {p p' : CreatePc}
    (hr : p.resume env d = some (.wait p', d')) (h : w.Copies p.copies) : w.Copies p'.copies := by
  unfold CreatePc.resume at hr
  split at hr
  · split at hr
    · cases hr
    · cases hr
    · cases hr
      exact World.copies_singleton (World.Copy.fresh w _ rfl rfl)
    · split at hr
      · cases hr
        exact w.copies_nil
      · cases hr
  · split at hr
    · cases hr
    · cases hr
      exact h
    · cases hr
      exact h
  · split at hr
    · cases hr
    · cases hr
    · split at hr <;> cases hr

theorem CreatePc.done_copies {d d' : ℕ} {p : CreatePc} {r : SessionRecord} {token : Token}
    (hr : p.resume env d = some (.done r token, d')) : r ∈ p.copies := by
  unfold CreatePc.resume at hr
  split at hr
  · split at hr
    · cases hr
    · cases hr
    · cases hr
    · split at hr <;> cases hr
  · split at hr <;> cases hr
  · split at hr
    · cases hr
    · cases hr
    · split at hr
      · cases hr
        exact List.mem_singleton_self _
      · cases hr

theorem ResumePc.wait_copies {p p' : ResumePc} (hr : p.resume = some (.wait p')) :
    p'.copies = [] := by
  cases p with
  | resolve room token p =>
      obtain ⟨sid, -, he⟩ := Option.map_eq_some_iff.mp hr
      cases sid <;> cases he
      rfl
  | load room sid p =>
      obtain ⟨r, -, he⟩ := Option.map_eq_some_iff.mp hr
      cases he

/-- `resume` goes on with the room it was called with. -/
theorem ResumePc.wait_room {p p' : ResumePc} (hr : p.resume = some (.wait p')) :
    p'.room = p.room := by
  cases p with
  | resolve room token p =>
      obtain ⟨sid, -, he⟩ := Option.map_eq_some_iff.mp hr
      cases sid <;> cases he
      rfl
  | load room sid p =>
      obtain ⟨r, -, he⟩ := Option.map_eq_some_iff.mp hr
      cases he

theorem ResumePc.done_copies {p : ResumePc} {r : SessionRecord}
    (hr : p.resume = some (.done (some r))) : r ∈ p.copies := by
  cases p with
  | resolve room token p =>
      obtain ⟨sid, -, he⟩ := Option.map_eq_some_iff.mp hr
      cases sid <;> cases he
  | load room sid p =>
      obtain ⟨x, hp, he⟩ := Option.map_eq_some_iff.mp hr
      have hx : x.filter (fun r => r.roomId = room.roomId) = some r := by simpa using he
      obtain ⟨rfl, -⟩ := Option.filter_eq_some_iff.mp hx
      rcases Promise.orElse_eq_some.mp hp with rfl | ⟨-, hn⟩
      · exact List.mem_singleton_self _
      · cases hn

theorem JoinMove.copies {c : Core} {k : ConnKey} {p p' : JoinPc} {d : ℕ}
    (hm : JoinMove env c k p p' d) (h : w.Copies p.copies) : w.Copies p'.copies := by
  cases hm with
  | @resume j token r r' hr =>
      show w.Copies r'.copies
      rw [ResumePc.wait_copies hr]
      exact w.copies_nil
  | unknown => exact w.copies_nil
  | found hr => exact World.copies_singleton (h _ (ResumePc.done_copies hr))
  | create => exact w.copies_nil
  | creating hp => exact CreatePc.wait_copies hp h
  | created hp => exact World.copies_singleton (h _ (CreatePc.done_copies hp))
  | rejoined => exact h
  | retryCreated => exact w.copies_nil
  | retryRejoined => exact w.copies_nil

end resume

namespace Core.Held

variable {c : Core} {k : ConnKey}

/-- What `persist` saves is a copy the connection holds. -/
theorem saveReq (h : c.Held k) (q : Rating) : c.world.Copies (savedCopies (c.saveReq k q)) := by
  intro r hr
  unfold Core.saveReq at hr
  split at hr
  · cases hr
  · rename_i r' _
    split at hr
    · cases hr
    · cases List.mem_singleton.mp hr
      exact h r'.sid

theorem of_eq {d : Core} {L : List Obs} (h : c.Held k)
    (hw : d.world.journal = c.world.journal ++ L)
    (hs : (d.conn k).standing = (c.conn k).standing) : d.Held k := by
  intro sid
  rw [hs]
  exact (h sid).mono hw

/-- One record is assigned, and its copy stays a copy. -/
theorem update {d : Core} {L : List Obs} {sid : Sid} {t : Standing} (h : c.Held k)
    (hw : d.world.journal = c.world.journal ++ L)
    (hs : (d.conn k).standing = Function.update (c.conn k).standing sid t)
    (ht : d.world.Copy sid t) : d.Held k := by
  intro sid'
  rw [hs]
  by_cases hne : sid' = sid
  · subst hne
    rw [Function.update_self]
    exact ht
  · rw [Function.update_of_ne hne]
    exact (h sid').mono hw

theorem issue (h : c.Held k) (r : SessionIdent) : (c.issue k r).Held k := by
  refine h.update (L := [.issued k r.sid]) rfl (congrArg Conn.standing (c.issue_conn k r)) ?_
  exact (h r.sid).flag rfl (le_refl _) rfl rfl

theorem pass (h : c.Held k) (r : SessionIdent) (until_ : ℤ) : (c.pass k r until_).Held k := by
  refine h.update (L := [.passed k r.sid]) rfl (congrArg Conn.standing (c.pass_conn k r until_)) ?_
  exact (h r.sid).flag rfl (le_refl _) rfl rfl

theorem fail (h : c.Held k) (r : SessionIdent) : (c.fail k r).Held k := by
  refine h.update (List.append_nil _).symm (congrArg Conn.standing (c.fail_conn k r)) ?_
  exact (h r.sid).grow_blocks rfl (le_refl _) rfl rfl

theorem tempBlock (h : c.Held k) (r : SessionIdent) (reason : String) :
    (c.tempBlock k r reason).1.Held k := by
  refine h.update (List.append_nil _).symm (congrArg Conn.standing (c.tempBlock_conn k r reason)) ?_
  exact (h r.sid).grow_blocks rfl (Nat.le_succ _) rfl rfl

theorem enter (h : c.Held k) {r : SessionRecord} (token : Token)
    (hr : c.world.Copy r.sid r.toStanding) : (c.enter k r token).Held k :=
  h.update (List.append_nil _).symm (congrArg Conn.standing (c.enter_conn k r token)) hr

end Core.Held

theorem BlockMove.copies {c : Core} {k : ConnKey} {b b' : BlockPc} (hb : BlockMove c k b b')
    (h : c.Held k) : c.world.Copies b'.copies := by
  cases hb with
  | net => exact c.world.copies_nil
  | save q hp => exact h.saveReq q
  | saveNet q hp => exact h.saveReq q

theorem Escalates.copies {c c' : Core} {k : ConnKey} {e : EscalatePc} (he : Escalates c k c' e)
    (h : c.Held k) : c'.Held k ∧ c'.world.Copies e.copies := by
  cases he with
  | quiet => exact ⟨h, c.world.copies_nil⟩
  | challenge q hr => exact ⟨h.issue _, (h.issue _).saveReq q⟩
  | block reason hr => exact ⟨h.tempBlock _ _, World.copies_nil _⟩

theorem EscalateMove.copies {c c' : Core} {k : ConnKey} {e e' : EscalatePc}
    (he : EscalateMove c k e c' e') (h : c.Held k) : c'.Held k ∧ c'.world.Copies e'.copies := by
  cases he with
  | challenged => exact ⟨h, c.world.copies_nil⟩
  | block hb => exact ⟨h, hb.copies h⟩
  | blocked =>
      refine ⟨h.of_eq (L := [.blocked k _]) rfl ?_, World.copies_nil _⟩
      rw [Core.blockEnd_conn]

/-- A stretch of a handler leaves copies behind: those its connection holds, and those it
carries on. -/
theorem Act.copies {env : Env} {k : ConnKey} {up : Bool} {c c₁ : Core} {h h' : Option Handler}
    (ha : Act env k up c h c₁ h') (hc : c.Held k) (hh : c.world.Copies (handlerCopies h)) :
    c₁.Held k ∧ c₁.world.Copies (handlerCopies h') := by
  -- nothing that is held changes, and no copy is carried on
  have quiet : ∀ {L : List Obs}, c₁.world.journal = c.world.journal ++ L →
      (c₁.conn k).standing = (c.conn k).standing → handlerCopies h' = [] →
      c₁.Held k ∧ c₁.world.Copies (handlerCopies h') := by
    intro L hw hs hn
    rw [hn]
    exact ⟨hc.of_eq hw hs, World.copies_nil _⟩
  have same : c.world.journal = c.world.journal ++ [] := (List.append_nil _).symm
  have deciding : ∀ e, (c.observe (.deciding k (c.conn k).handled e)).Held k :=
    fun e => hc.of_eq (L := [.deciding k (c.conn k).handled e]) rfl rfl
  cases ha with
  | joinMove hp => exact ⟨hc, hp.copies hh⟩
  | joinBlocked =>
      refine quiet same ?_ rfl
      rw [Core.mute_conn]
  | joinEnter hp ht => exact ⟨hc.enter _ (hh _ (List.mem_singleton_self _)), World.copies_nil _⟩
  | joinWelcome hp =>
      refine quiet same ?_ rfl
      rw [Core.announce_conn]
  | sendReject => exact ⟨deciding _, World.copies_nil _⟩
  | @sendSwitch r e hr hj =>
      refine ⟨(deciding e).of_eq (L := []) ?_ ?_, World.copies_nil _⟩
      · rw [Core.checkRoom_frame, List.append_nil]
      · rw [Core.checkRoom_conn]
  | sendOpen => exact ⟨deciding _, World.copies_nil _⟩
  | sendLimited hl he => exact he.copies (deciding _)
  | sendEscalate hh' he => exact he.copies hc
  | sendEscalating he => exact he.copies hc
  | sendReply =>
      split
      · exact ⟨hc.of_eq (L := [.replied k (c.conn k).handled _]) rfl rfl, World.copies_nil _⟩
      · exact ⟨hc, World.copies_nil _⟩
  | passed q => exact ⟨hc.pass _ _, (hc.pass _ _).saveReq q⟩
  | failed q => exact ⟨hc.fail _, (hc.fail _).saveReq q⟩
  | failedOver => exact ⟨hc.fail _, World.copies_nil _⟩
  | failedBlock reason hr => exact ⟨(hc.fail _).tempBlock _ _, World.copies_nil _⟩
  | challengeBlock hb => exact ⟨hc, hb.copies hc⟩
  | challengeBlocked =>
      refine ⟨hc.of_eq (L := [.blocked k _]) rfl ?_, World.copies_nil _⟩
      rw [Core.blockEnd_conn]
  | _ => exact quiet same rfl rfl

/-! ### Steps -/

/-- What a step makes of the task `n`. -/
inductive TaskStep (env : Env) (c : Core) (l : Label) (n : ℕ) : Option Task → Prop
  | same : TaskStep env c l n (c.task n)
  | settled {o : Outcome} {v : Bool} {b b' : Task} {w : World} (hl : l = .settle (.task n) o v)
      (hb : c.task n = some b) (hs : b.settle env c.clock o c.world = some (b', w)) :
      TaskStep env c l n (some b')
  | ended {b : Task} (hl : l = .resume (.task n)) (hb : c.task n = some b) : TaskStep env c l n none
  | admin {i : InstanceId} {a : AdminPc} : TaskStep env c l n (some (.admin i a))
  | save {k : ConnKey} {q : Rating} {req : SaveReq} (hq : c.saveReq k q = some req) :
      TaskStep env c l n (some (.persist k req .pending))

theorem Core.spawn_task (c : Core) (b : Task) (n : ℕ) :
    (c.spawn b).task n = c.task n ∨ (c.spawn b).task n = some b := by
  by_cases hn : n = c.tasks
  · subst hn
    exact Or.inr (Function.update_self ..)
  · exact Or.inl (Function.update_of_ne hn ..)

theorem Core.shut_saveReq (c : Core) (k : ConnKey) (q : Rating) :
    (c.shut k).saveReq k q = c.saveReq k q := by
  unfold Core.saveReq Core.copy Core.shut
  rw [Core.updConn_conn]
  rfl

theorem CoreStep.task_step {env : Env} {up : ConnKey → Bool} {c c' : Core} {l : Label}
    (hs : CoreStep env up c l c') (n : ℕ) : TaskStep env c l n (c'.task n) := by
  have same : ∀ {d : Core}, d.task = c.task → TaskStep env c l n (d.task n) := by
    intro d hd
    rw [hd]
    exact TaskStep.same
  have spawn : ∀ {b : Task}, TaskStep env c l n (some b) →
      TaskStep env c l n ((c.spawn b).task n) := by
    intro b hb
    rcases c.spawn_task b n with h | h
    · rw [h]
      exact TaskStep.same
    · rw [h]
      exact hb
  cases hs with
  | act hh ha =>
      refine same ?_
      rw [Core.setHandler, Core.updConn, ha.frame]
  | handle hk hh ha =>
      refine same ?_
      rw [Core.setHandler, Core.updConn, ha.frame]
      rfl
  | rollover hp hprev hm => exact same (by rw [hm.frame])
  | reset hp hm => exact same (by rw [hm.frame])
  | tick => exact same (by rw [Core.checkRoom_frame])
  | message => exact same (by rw [Core.onMessage_frame]; rfl)
  | @task m b b' hb h =>
      dsimp only
      by_cases hn : n = m
      · subst hn
        rw [Function.update_self]
        rcases h with rfl | ⟨i, a, a', rfl, rfl⟩
        · exact TaskStep.ended rfl hb
        · exact TaskStep.admin
      · rw [Function.update_of_ne hn]
        exact TaskStep.same
  | @settle th o v c' h =>
      cases th with
      | task m =>
          obtain ⟨b, hb, h⟩ := Option.bind_eq_some_iff.mp h
          obtain ⟨⟨b', w⟩, hr, rfl⟩ := Option.map_eq_some_iff.mp h
          dsimp only
          by_cases hn : n = m
          · subst hn
            rw [Function.update_self]
            exact TaskStep.settled rfl hb hr
          · rw [Function.update_of_ne hn]
            exact TaskStep.same
      | handler k =>
          obtain ⟨x, -, h⟩ := Option.bind_eq_some_iff.mp h
          obtain ⟨r, -, rfl⟩ := Option.map_eq_some_iff.mp h
          exact TaskStep.same
      | rollover k =>
          obtain ⟨x, -, h⟩ := Option.bind_eq_some_iff.mp h
          obtain ⟨r, -, rfl⟩ := Option.map_eq_some_iff.mp h
          exact TaskStep.same
      | reset i =>
          obtain ⟨x, -, h⟩ := Option.bind_eq_some_iff.mp h
          obtain ⟨r, -, rfl⟩ := Option.map_eq_some_iff.mp h
          exact TaskStep.same
      | upgrade m =>
          obtain ⟨x, -, h⟩ := Option.bind_eq_some_iff.mp h
          obtain ⟨r, -, rfl⟩ := Option.map_eq_some_iff.mp h
          exact TaskStep.same
      | chore m => cases h
  | @closeSave k q req hc hq =>
      rw [Core.shut_saveReq] at hq
      have hsave : TaskStep env c (.closeEvent k) n (some (.persist k req .pending)) :=
        TaskStep.save hq
      exact spawn hsave
  | persist hq => exact spawn (TaskStep.save hq)
  | adminBlock => exact spawn TaskStep.admin
  | adminUnblock => exact spawn TaskStep.admin
  | _ => exact TaskStep.same

/-- A stretch of a handler of `k`, from the state it starts in. -/
theorem CoreStep.stretch {env : Env} {up : ConnKey → Bool} {c c' : Core} {l : Label} {k : ConnKey}
    (hs : CoreStep env up c l c') (hl : l = .resume (.handler k) ∨ l = .handle k) :
    c' = c ∨ ∃ d c₁ h', ((l = .resume (.handler k) ∧ d = c) ∨
        ((c.conn k).handler = none ∧ d = c.take k)) ∧
      Act env k (up k) d (c.conn k).handler c₁ h' ∧ c' = c₁.setHandler k h' := by
  rcases hl with rfl | rfl
  · cases hs with
    | same => exact Or.inl rfl
    | act hh ha => exact Or.inr ⟨c, _, _, Or.inl ⟨rfl, rfl⟩, hh ▸ ha, rfl⟩
  · cases hs with
    | same => exact Or.inl rfl
    | handle hk hh ha => exact Or.inr ⟨c.take k, _, _, Or.inr ⟨hh, rfl⟩, hh ▸ ha, rfl⟩

/-- The state a stretch starts in: its world and its records are those of the step. -/
theorem Core.Held.of_start {c d : Core} {l : Label} {k : ConnKey} (h : c.Held k)
    (hd : (l = .resume (.handler k) ∧ d = c) ∨ ((c.conn k).handler = none ∧ d = c.take k)) :
    d.world = c.world ∧ d.Held k := by
  rcases hd with ⟨-, rfl⟩ | ⟨-, rfl⟩
  · exact ⟨rfl, h⟩
  · refine ⟨rfl, h.of_eq (L := []) (List.append_nil _).symm ?_⟩
    rw [Core.take_conn]

/-- Every copy of a session record has only grown since the revision it was read from, and the
store holds what the last revisions stored. -/
structure Copied (c : Core) : Prop where
  stamped : c.world.Stamped
  held : ∀ k, c.Held k
  handler : ∀ k, c.world.Copies (handlerCopies (c.conn k).handler)
  rolling : ∀ k p, (c.conn k).rolling = some p → c.world.Copies p.create.copies
  task : ∀ n b, c.task n = some b → c.world.Copies b.copies

/-- A save under way is that of a copy. -/
theorem Copied.saving {c : Core} (h : Copied c) {th : Thread} {k : ConnKey} {q : SaveReq}
    (hs : c.saving th = some (k, q)) : c.world.Copy q.record.sid q.record.toStanding := by
  cases th with
  | handler j =>
      obtain ⟨q', hq, he⟩ := Option.map_eq_some_iff.mp hs
      obtain ⟨rfl, rfl⟩ := Prod.mk.inj he
      obtain ⟨x, hx, hq⟩ := Option.bind_eq_some_iff.mp hq
      refine h.handler j _ ?_
      rw [hx]
      exact Handler.mem_copies hq
  | rollover j =>
      obtain ⟨q', hq, he⟩ := Option.map_eq_some_iff.mp hs
      obtain ⟨rfl, rfl⟩ := Prod.mk.inj he
      obtain ⟨p, hp, hq⟩ := Option.bind_eq_some_iff.mp hq
      exact h.rolling _ p hp _ (CreatePc.mem_copies hq)
  | task n =>
      simp only [Core.saving] at hs
      split at hs
      · rename_i j req p hb
        obtain ⟨q', hq, he⟩ := Option.map_eq_some_iff.mp hs
        obtain ⟨rfl, rfl⟩ := Prod.mk.inj he
        refine h.task n _ hb _ ?_
        have hm := mem_savedCopies_of_unsaved hq
        exact hm
      · cases hs
  | reset i => cases hs
  | upgrade n => cases hs
  | chore n => cases hs

theorem Copied.stamped_step {env : Env} {up : ConnKey → Bool} {c c' : Core} {l : Label}
    (hs : CoreStep env up c l c') (h : Copied c) : c'.world.Stamped := by
  obtain ⟨log, -, hj⟩ := hs.world.log
  have quiet : (∀ sid e, c'.world.store.sess sid = some e → c.world.store.sess sid = some e) →
      c'.world.lastSave = c.world.lastSave → c'.world.Stamped :=
    fun hs' hl => h.stamped.mono hj hs' hl
  have hw := hs.world
  generalize c'.world = w at hw quiet
  cases hw with
  | settled hl ho he =>
      cases he with
      | save hsv => exact h.stamped.save _ (h.saving hsv)
      | load sid => exact quiet (fun _ _ he => Map.read_snd_eq_some he) rfl
      | other hk => exact quiet (fun sid e he => by rw [← hk.sess]; exact he) rfl
      | _ => exact quiet (fun _ _ he => he) rfl
  | _ => exact quiet (fun _ _ he => he) rfl

theorem Copied.held_step {env : Env} {up : ConnKey → Bool} {c c' : Core} {l : Label}
    (hs : CoreStep env up c l c') (h : Copied c) (k : ConnKey) : c'.Held k := by
  obtain ⟨log, -, hj⟩ := hs.world.log
  by_cases hl : l = .resume (.handler k) ∨ l = .handle k
  · rcases hs.stretch hl with rfl | ⟨d, c₁, h', hstart, ha, rfl⟩
    · exact h.held k
    · obtain ⟨hw, hd⟩ := (h.held k).of_start hstart
      have hc := (ha.copies hd (by rw [hw]; exact h.handler k)).1
      refine hc.of_eq (L := []) (List.append_nil _).symm ?_
      rw [Core.setHandler_conn]
  · have hx := hs.conn k
    have hc : c'.Held k ↔ ∀ sid, c'.world.Copy sid ((c'.conn k).standing sid) := Iff.rfl
    rw [hc]
    generalize c'.conn k = x at hx
    have same : ∀ sid, c'.world.Copy sid ((c.conn k).standing sid) :=
      fun sid => (h.held k sid).mono hj
    cases hx with
    | act hl' => exact absurd (Or.inl hl') hl
    | handle hl' => exact absurd (Or.inr hl') hl
    | accepted => exact fun sid => World.Copy.fresh _ sid rfl rfl
    | @renewed p r token d hl' hp hr hc =>
        exact forall_update (P := fun sid t => c'.world.Copy sid t) same
          ((h.rolling k p hp r (CreatePc.done_copies hr)).mono hj)
    | _ => exact same

theorem Copied.handler_step {env : Env} {up : ConnKey → Bool} {c c' : Core} {l : Label}
    (hs : CoreStep env up c l c') (hA : Accounted c.world) (h : Copied c) (k : ConnKey) :
    c'.world.Copies (handlerCopies (c'.conn k).handler) := by
  obtain ⟨log, -, hj⟩ := hs.world.log
  by_cases hl : l = .resume (.handler k) ∨ l = .handle k
  · rcases hs.stretch hl with rfl | ⟨d, c₁, h', hstart, ha, rfl⟩
    · exact h.handler k
    · obtain ⟨hw, hd⟩ := (h.held k).of_start hstart
      have hc := (ha.copies hd (by rw [hw]; exact h.handler k)).2
      rw [Core.setHandler_conn]
      exact hc
  · by_cases hset : ∃ o v, l = .settle (.handler k) o v
    · obtain ⟨o, v, rfl⟩ := hset
      rcases hs.settledHandler with rfl | ⟨x, x', hx, hx', hr⟩
      · exact h.handler k
      · intro r hm
        rw [hx'] at hm
        rcases Handler.settle_copies hr hm with hm | ⟨sid, hload⟩
        · refine (h.handler k r ?_).mono hj
          rw [hx]
          exact hm
        · exact (h.stamped.load hA hload).mono hj
    · have hx := hs.conn k
      generalize c'.conn k = x at hx
      cases hx with
      | act hl' => exact absurd (Or.inl hl') hl
      | handle hl' => exact absurd (Or.inr hl') hl
      | settled hl' => exact absurd ⟨_, _, hl'⟩ hset
      | accepted => exact World.copies_nil _
      | _ => exact (h.handler k).mono hj

theorem Copied.rolling_step {env : Env} {up : ConnKey → Bool} {c c' : Core} {l : Label}
    (hs : CoreStep env up c l c') (h : Copied c) (k : ConnKey) (p : RolloverPc)
    (hp : (c'.conn k).rolling = some p) : c'.world.Copies p.create.copies := by
  obtain ⟨log, -, hj⟩ := hs.world.log
  have hx := hs.conn k
  generalize hck : c'.conn k = x at hx hp
  cases hx with
  | act hl' hh ha =>
      rw [show _ = (c.conn k).rolling from ha.kept.rolling] at hp
      exact (h.rolling k p hp).mono hj
  | handle hl' hk hh ha =>
      rw [show _ = ((c.take k).conn k).rolling from ha.kept.rolling, Core.take_conn] at hp
      exact (h.rolling k p hp).mono hj
  | accepted => cases hp
  | begins =>
      cases hp
      exact World.copies_nil _
  | @rolling q q' o v w hl' hq hset =>
      cases hp
      obtain ⟨⟨x, w'⟩, hr, he⟩ := Option.map_eq_some_iff.mp hset
      rw [← (Prod.mk.inj he).1]
      show c'.world.Copies x.copies
      rw [CreatePc.settle_copies hr]
      exact (h.rolling k q hq).mono hj
  | creating hq hr =>
      cases hp
      exact CreatePc.wait_copies hr ((h.rolling k _ hq).mono hj)
  | rolled => cases hp
  | renewed => cases hp
  | _ => exact (h.rolling k p hp).mono hj

theorem Copied.task_step {env : Env} {up : ConnKey → Bool} {c c' : Core} {l : Label}
    (hs : CoreStep env up c l c') (h : Copied c) (n : ℕ) (b : Task) (hb : c'.task n = some b) :
    c'.world.Copies b.copies := by
  obtain ⟨log, -, hj⟩ := hs.world.log
  have hx := hs.task_step n
  rw [hb] at hx
  generalize hob : some b = ob at hx
  cases hx with
  | same => exact (h.task n b hob.symm).mono hj
  | settled hl' hb' hset =>
      cases hob
      rw [Task.settle_copies hset]
      exact (h.task n _ hb').mono hj
  | ended => cases hob
  | admin =>
      cases hob
      exact World.copies_nil _
  | @save k q req hq =>
      cases hob
      refine World.Copies.mono (fun r hr => (h.held k).saveReq q r ?_) hj
      rw [hq]
      exact hr

theorem Copied.step {env : Env} {up : ConnKey → Bool} {c c' : Core} {l : Label}
    (hs : CoreStep env up c l c') (hA : Accounted c.world) (h : Copied c) : Copied c' :=
  ⟨h.stamped_step hs, h.held_step hs, h.handler_step hs hA, h.rolling_step hs, h.task_step hs⟩

theorem copied_of_reaches {env : Env} {C : Sys → Label → Prop} {s : Sys}
    (h : (system env).Reaches C s) : Copied s.toCore := by
  refine Machine.Reaches.invariant_of (J := fun s => Sourced s.toCore)
    (I := fun s => Copied s.toCore) (fun s hs => sourced_of_reaches hs) ?_ ?_ h
  · rintro s ⟨t, rfl⟩
    refine ⟨fun sid e he => ?_, fun k sid => World.Copy.fresh _ sid rfl rfl,
      fun k => World.copies_nil _, fun k p hp => ?_, fun n b hb => ?_⟩
    · cases he
    · cases hp
    · cases hb
  · intro s l t hS hI _ hs
    exact hI.step (Sys.coreStep hs) hS.world

end RoomBackend
