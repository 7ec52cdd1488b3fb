import RoomBackend.Canonical
import RoomBackend.Provenance
import RoomBackend.Replays

/-! # What is shown

`decide` normalizes the text of a send before the message is made of it. So every message that is
stored, published or told to a client carries a normalized text, and can be shown. -/

namespace RoomBackend

open Async Lts Texts Utf16 Normalizing

/-- The text of the send is what `normalizeText` made of the frame's. -/
def Env.Normal (env : Env) (l : SendLocals) : Prop :=
  env.normalizeText l.event.text env.config.maxMessageLength env.config.maxMessageLines = .ok l.text

/-- The message carries a normalized text. -/
def Env.Words (env : Env) (m : StoredMessage) : Prop :=
  ∃ raw, env.normalizeText raw env.config.maxMessageLength env.config.maxMessageLines = .ok m.text

/-- What the journal says about the texts of messages. -/
def Obs.Worded (env : Env) : Obs → Prop
  | .appended _ _ _ _ m => env.Words m
  | .published _ _ _ bm _ => ∃ k room m, bm = busMessage k room m ∧ env.Words m
  | _ => True

structure Worded (env : Env) (c : Core) : Prop where
  locals : ∀ k l, (c.conn k).handler.bind Handler.locals = some l → env.Normal l
  filing : ∀ k l room m, (c.conn k).handler.bind Handler.filing = some (l, room, m) → env.Words m
  journal : ∀ o ∈ c.world.journal, o.Worded env

variable {env : Env} {s t : Sys} {k : ConnKey}

/-! ### The text of a send -/

namespace Sys

theorem locals_suspend (x : Handler) :
    ((s.suspend k x).conn k).handler.bind Handler.locals = x.locals := by
  show ((s.toCore.setHandler k (some x)).conn k).handler.bind _ = _
  rw [Core.setHandler_conn]
  rfl

theorem locals_decideRate {l l' : SendLocals}
    (h : ((s.decideRate env k l).conn k).handler.bind Handler.locals = some l') : l' = l := by
  unfold decideRate decideEscalate decided at h
  dsimp only at h
  split_ifs at h <;> rw [locals_suspend] at h <;> cases h <;> rfl

theorem locals_decideSend {e : SendEvent} {r : SessionIdent} {l : SendLocals}
    (h : ((s.decideSend env k e r).conn k).handler.bind Handler.locals = some l) : env.Normal l := by
  have hdecided : ∀ (u : Sys) (reply : ServerEvent),
      ((u.decided k e reply).conn k).handler.bind Handler.locals ≠ some l := by
    intro u reply hu
    unfold decided at hu
    rw [locals_suspend] at hu
    cases hu
  unfold decideSend at h
  dsimp only at h
  split_ifs at h <;> try exact absurd h (hdecided _ _)
  split at h
  · exact absurd h (hdecided _ _)
  · rename_i text htext
    rw [locals_decideRate h]
    exact htext

/-- A send that a connection has begun has passed `normalizeText`. -/
theorem locals_handle {l : SendLocals} (h : s.step env (.handle k) = some t)
    (hl : (t.conn k).handler.bind Handler.locals = some l) : env.Normal l := by
  obtain ⟨-, hn⟩ := Option.ite_none_right_eq_some.mp h
  unfold handleNext at hn
  split at hn
  · cases hn
    obtain ⟨x, hx, hxl⟩ := Option.bind_eq_some_iff.mp hl
    cases x with
    | send p =>
        obtain ⟨e, r, -, -, hu⟩ := handle_sends hx
        rw [hu] at hl
        exact locals_decideSend hl
    | _ => cases hxl
  · cases hn

end Sys

/-! ### The texts of a run -/

theorem Worded.step {l : Label} (h : Worded env s.toCore) (hs : s.step env l = some t) :
    Worded env t.toCore := by
  have hcore := Sys.coreStep hs
  refine ⟨fun k l' hl => ?_, fun k l' room m hf => ?_, fun o ho => ?_⟩
  · have hnew := hl
    have hx := hcore.conn k
    generalize t.conn k = y at hx hl
    cases hx with
    | act hl' hh ha =>
        rcases ha.locals hl with he | ⟨he, -⟩
        · exact h.locals k l' (hh ▸ he)
        · cases he
    | handle hl' =>
        subst hl'
        exact Sys.locals_handle hs hnew
    | settled hl' hh hset =>
        refine h.locals k l' ?_
        rw [hh]
        exact (Handler.settle_locals hset).1.symm.trans hl
    | accepted => cases hl
    | _ => exact h.locals k l' hl
  · have hx := hcore.conn k
    generalize t.conn k = y at hx hf
    cases hx with
    | act hl' hh ha =>
        rcases ha.filing hf with he | ⟨he, -, rfl⟩
        · exact h.filing k l' room m (hh ▸ he)
        · exact ⟨_, h.locals k l' (by rw [hh, he]; rfl)⟩
    | handle hl' hk hh ha =>
        rcases ha.filing hf with he | ⟨he, -, -⟩
        · cases he
        · cases he
    | settled hl' hh hset =>
        refine h.filing k l' room m ?_
        rw [hh]
        exact (Handler.settle_locals hset).2.symm.trans hf
    | accepted => cases hf
    | _ => exact h.filing k l' room m hf
  · rcases hcore.world.filed o ho with ho | ho | ⟨k, l', room, m, hf, rfl | ⟨to_, rfl⟩⟩
    · exact h.journal o ho
    · cases o with
      | appended => cases ho
      | published => cases ho
      | _ => trivial
    · exact h.filing k l' room m hf
    · exact ⟨k, room, m, rfl, h.filing k l' room m hf⟩

theorem worded_of_reaches {C : Sys → Label → Prop} (h : (system env).Reaches C s) :
    Worded env s.toCore := by
  refine Machine.Reaches.invariant (I := fun s => Worded env s.toCore) ?_ ?_ h
  · rintro s ⟨t, rfl⟩
    exact ⟨fun k l hl => (Option.some_ne_none l hl.symm).elim,
      fun k l room m hf => (Option.some_ne_none _ hf.symm).elim,
      fun o ho => absurd ho List.not_mem_nil⟩
  · intro s l t hI _ hs
    exact hI.step hs

/-! ### Texts that can be shown -/

/-- The text rules of the server are those of the source. -/
def Env.Reads (env : Env) (u : Unicode) : Prop :=
  ∀ (raw : String) (limits : TextLimits),
    env.normalizeText raw limits.maxLength limits.maxLines =
      (Normalizing.normalizeText u (encodeText raw.toList) limits).map fun text =>
        String.ofList (decodeText text)

/-- A server with these rules. No configuration has a limit below one. -/
def Env.reading (env : Env) (u : Unicode) : Env :=
  { env with
    normalizeText := fun raw maxLength maxLines =>
      if h : 1 ≤ maxLength ∧ 1 ≤ maxLines then
        (Normalizing.normalizeText u (encodeText raw.toList) ⟨maxLength, maxLines, h.1, h.2⟩).map
          fun text => String.ofList (decodeText text)
      else .error .invalid }

theorem Env.reads_reading (env : Env) (u : Unicode) : (env.reading u).Reads u :=
  fun _ limits => dif_pos ⟨limits.length_pos, limits.lines_pos⟩

/-- The limits of the configuration. -/
structure Env.Limits (env : Env) (limits : TextLimits) : Prop where
  length : limits.maxLength = env.config.maxMessageLength
  lines : limits.maxLines = env.config.maxMessageLines

theorem Env.Words.clean {u : Unicode} (hu : env.Reads u) {limits : TextLimits}
    (hl : env.Limits limits) {m : StoredMessage} (h : env.Words m) :
    Clean u limits m.text.toList := by
  obtain ⟨raw, h⟩ := h
  rw [← hl.length, ← hl.lines, hu raw limits] at h
  cases hn : Normalizing.normalizeText u (encodeText raw.toList) limits with
  | error reason =>
      rw [hn] at h
      cases h
  | ok text =>
      rw [hn] at h
      rw [← Except.ok.inj h, String.toList_ofList]
      obtain ⟨t, -, rfl, hclean⟩ := clean_of_normalizeText hn
      rwa [decodeText_encodeText]

/-- **What is shown.** Every message that was appended to a room or published to the instances, and
every message of a history that a client was welcomed with, has a text that can be shown. -/
theorem shown_of_reaches {u : Unicode} (hu : env.Reads u) {limits : TextLimits}
    (hl : env.Limits limits) {C : Sys → Label → Prop} (h : (system env).Reaches C s) :
    (∀ roomId m, s.world.Posted roomId m → Clean u limits m.text.toList) ∧
      (∀ k n l bm to_, .published k n l bm to_ ∈ s.world.journal →
        Clean u limits bm.message.text.toList) ∧
      ∀ k r token room history, .welcome r token room history ∈ (s.conn k).announced →
        ∀ m ∈ history, Clean u limits m.text.toList := by
  have hw := worded_of_reaches h
  have posted : ∀ roomId m, s.world.Posted roomId m → Clean u limits m.text.toList := by
    rintro roomId m ⟨k, n, l, ho⟩
    exact (show env.Words m from hw.journal _ ho).clean hu hl
  refine ⟨posted, fun k n l bm to_ ho => ?_, fun k r token room history ha m hm => ?_⟩
  · obtain ⟨k, room, m, rfl, hm⟩ := hw.journal _ ho
    exact hm.clean hu hl
  · exact posted _ m (((sourced_of_reaches h).told k _ ha).2 m hm)

/-- A run of the theorem: a message was appended, and its text can be shown. -/
theorem shown_hello : ∃ s, (system ((Demo.env none).reading latin)).Reaches Free s ∧
    ∃ roomId m, s.world.Posted roomId m ∧
      Clean latin ⟨500, 10, by decide, by decide⟩ m.text.toList := by
  obtain ⟨s, hs, hP⟩ := exists_reached_free ((Demo.env none).reading latin)
    (fun s => s.world.journal.any Obs.isAppended) Demo.noon
    (Demo.oneJoined ++ Demo.sent (Demo.conn 1) "hello") (by decide +kernel)
  obtain ⟨o, ho, hP⟩ := List.any_eq_true.mp hP
  unfold Obs.isAppended at hP
  split at hP
  · rename_i k n l roomId m
    exact ⟨s, hs, roomId, m, ⟨k, n, l, ho⟩, (shown_of_reaches ((Demo.env none).reads_reading latin)
      ⟨rfl, rfl⟩ hs).1 roomId m ⟨k, n, l, ho⟩⟩
  · cases hP

end RoomBackend
