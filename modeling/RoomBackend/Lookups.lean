import RoomBackend.Asks
import RoomBackend.Histories

/-! # Lookups behind a stored block

A `join` takes its session up when the lookup of the block has told it that none is left. While a
block is stored, and neither lifted nor overwritten by one that ends earlier, every lookup that is
answered turns its `join` away. -/

namespace RoomBackend

open Async Day Lts Expiring

/-! ### Blocks in the store -/

namespace Store

variable {s : Store} {now exp : ℤ} {key : BlockKey}

theorem blockTtl_pos {e : Entry String} (h : s.blocks key = some e) (hlt : now < e.exp) :
    0 < (s.blockTtl now key).1 := by
  unfold blockTtl
  rw [h]
  exact lt_max_of_lt_right (sub_pos.mpr hlt)

/-- The key is blocked until `exp` at least. -/
def Blocks (s : Store) (key : BlockKey) (exp : ℤ) : Prop :=
  ∃ e, s.blocks key = some e ∧ exp ≤ e.exp

theorem Blocks.ttl_pos (h : s.Blocks key exp) (hlt : now < exp) : 0 < (s.blockTtl now key).1 := by
  obtain ⟨e, he, hle⟩ := h
  exact blockTtl_pos he (hlt.trans_le hle)

end Store

/-- The operation does not lift the block, or write one over it that ends before `exp`. -/
def StoreOp.spares (key : BlockKey) (exp now : ℤ) : StoreOp → Bool
  | setBlock key' ttlMs _ => decide (key' ≠ key) || decide (exp ≤ now + ttlMs)
  | deleteBlock key' => decide (key' ≠ key)
  | _ => true

theorem StoreOp.blocks_effect {s : Store} {key : BlockKey} {exp now : ℤ} {op : StoreOp}
    (h : s.Blocks key exp) (hop : op.spares key exp now = true) :
    (op.effect now s).Blocks key exp := by
  obtain ⟨e, he, hle⟩ := h
  cases op with
  | setBlock key' ttlMs reason =>
      simp only [spares, Bool.or_eq_true, decide_eq_true_eq] at hop
      by_cases hk : key = key'
      · subst hk
        exact ⟨_, Map.write_same _ _ _ _, hop.resolve_left fun hne => hne rfl⟩
      · exact ⟨e, (Map.write_ne _ _ _ hk).trans he, hle⟩
  | deleteBlock key' =>
      have hk : key ≠ key' := fun hk => of_decide_eq_true hop hk.symm
      exact ⟨e, (Map.erase_ne _ hk).trans he, hle⟩
  | blockTtl key' =>
      refine ⟨e, ?_, hle⟩
      show (s.blockTtl now key').2.blocks key = some e
      rw [blockTtl_store]
      exact he
  | claimName roomId name sid expireAt =>
      refine ⟨e, ?_, hle⟩
      show (s.claimName now roomId name sid expireAt).2.blocks key = some e
      unfold Store.claimName
      dsimp only
      split <;> exact he
  | acquireOnce lock ttlMs =>
      refine ⟨e, ?_, hle⟩
      show (s.acquireOnce now lock ttlMs).2.blocks key = some e
      unfold Store.acquireOnce
      dsimp only
      split <;> exact he
  | _ => exact ⟨e, he, hle⟩

def Ask.spares (key : BlockKey) (exp now : ℤ) : Ask → Bool
  | store op => op.spares key exp now
  | _ => true

theorem Ask.blocks_effect {s : Store} {key : BlockKey} {exp now : ℤ} {a : Ask}
    (h : s.Blocks key exp) (ha : a.spares key exp now = true) :
    (a.effect now s).Blocks key exp := by
  cases a with
  | store op => exact StoreOp.blocks_effect h ha
  | _ =>
      obtain ⟨e, he, hle⟩ := h
      exact ⟨e, he, hle⟩

/-! ### The lookup of a `join` -/

/-- The session a `join` goes on with: its lookup has failed, or found no block. -/
def Handler.letIn : Handler → Option SessionRecord
  | .join (.block _ r _ p) => (p.orElse 0).bind fun ttl => if ttl ≤ 0 then some r else none
  | _ => none

theorem Core.entering_eq_letIn (c : Core) (k : ConnKey) :
    c.entering k = (c.conn k).handler.bind Handler.letIn := by
  unfold Core.entering
  split
  · rename_i j r token p hh
    rw [hh, Option.bind_some, Handler.letIn]
    cases p.orElse 0 with
    | none => rfl
    | some ttl => rfl
  · rename_i hh
    cases hx : (c.conn k).handler with
    | none => rfl
    | some x =>
        rw [Option.bind_some]
        unfold Handler.letIn
        split
        · exact absurd hx (hh _ _ _ _)
        · rfl

/-- The `join` has asked for the block of the session. -/
def Handler.looksUp (sid : Sid) : Handler → Bool
  | .join (.block _ r _ _) => decide (r.sid = sid)
  | _ => false

/-- A stretch of a handler comes to an end before the lookup. -/
theorem Act.letIn {env : Env} {k : ConnKey} {up : Bool} {c c₁ : Core} {h h' : Option Handler}
    (ha : Act env k up c h c₁ h') : h'.bind Handler.letIn = none := by
  cases ha with
  | joinMove hp => cases hp <;> rfl
  | _ => rfl

/-- A lookup that lets its `join` go on is not answered, or there is no block. -/
theorem Handler.settle_letIn {env : Env} {now : ℤ} {v : Bool} {k : ConnKey} {n : ℕ}
    {info : AdmitInfo} {o : Outcome} {h h' : Handler} {w w' : World} {r : SessionRecord}
    (hs : h.settle env now v k n info o w = some (h', w')) (hr : h'.letIn = some r) :
    h.looksUp r.sid = true ∧
      (o = .answered → (w.store.blockTtl now (.sess r.sid)).1 ≤ 0) := by
  cases h with
  | join p =>
      obtain ⟨⟨x, w₁⟩, hx, he⟩ := Option.map_eq_some_iff.mp hs
      obtain ⟨rfl, rfl⟩ := Prod.mk.inj he
      cases p with
      | block j record token p =>
          obtain ⟨⟨q, w₂⟩, hq, he'⟩ := Option.map_eq_some_iff.mp hx
          obtain ⟨rfl, rfl⟩ := Prod.mk.inj he'
          obtain ⟨ttl, hp, hif⟩ := Option.bind_eq_some_iff.mp hr
          obtain ⟨hle, hrec⟩ := Option.ite_none_right_eq_some.mp hif
          obtain rfl := Option.some.inj hrec
          refine ⟨decide_eq_true rfl, ?_⟩
          rintro rfl
          obtain ⟨-, rfl, -⟩ := Promise.settle_eq_some.mp hq
          obtain rfl := Option.some.inj hp
          exact hle
      | _ =>
          obtain ⟨y, -, he'⟩ := Option.map_eq_some_iff.mp hx
          rw [← (Prod.mk.inj he').1] at hr
          cases hr
  | send p =>
      obtain ⟨x, -, he⟩ := Option.map_eq_some_iff.mp hs
      rw [← (Prod.mk.inj he).1] at hr
      cases hr
  | challenge p =>
      obtain ⟨x, -, he⟩ := Option.map_eq_some_iff.mp hs
      rw [← (Prod.mk.inj he).1] at hr
      cases hr
  | report p =>
      obtain ⟨x, -, he⟩ := Option.map_eq_some_iff.mp hs
      rw [← (Prod.mk.inj he).1] at hr
      cases hr

namespace Sys

variable {env : Env} {s t u : Sys} {l : Label} {k : ConnKey} {sid : Sid} {exp : ℤ}

/-! ### A block that stays -/

/-- The session has a block in the store that has not run out before `exp`. -/
def Stored (sid : Sid) (exp : ℤ) (s : Sys) : Prop :=
  s.clock < exp → s.world.store.Blocks (.sess sid) exp

/-- Before `exp` the block is not lifted, nor is one written over it that ends earlier. -/
def keepsBlock (env : Env) (sid : Sid) (exp : ℤ) (s : Sys) : Label → Bool
  | .settle th o _ => decide (exp ≤ s.clock) || !o.applied ||
      (s.ask env th).all fun a => a.spares (.sess sid) exp s.clock
  | _ => true

/-- A block that is set is stored up to its end. -/
theorem stored_of_setBlock {th : Thread} {o : Outcome} {v : Bool} {ttlMs : ℤ} {reason : String}
    (h : s.step env (.settle th o v) = some t) (ho : o.applied = true)
    (ha : s.ask env th = some (.store (.setBlock (.sess sid) ttlMs reason))) :
    t.Stored sid (s.clock + ttlMs) := by
  intro _
  have hstore : t.world.store = landed s.clock o s.world.store (s.ask env th) := settle_store h
  rw [hstore, ha, landed, Option.elim_some, if_pos ho]
  exact ⟨_, Map.write_same _ _ _ _, le_rfl⟩

theorem Stored.step (hI : s.Stored sid exp) (h : s.step env l = some t)
    (hl : s.keepsBlock env sid exp l = true) : t.Stored sid exp := by
  intro hc
  have hcl : s.clock < exp := lt_of_le_of_lt (clock_mono h) hc
  by_cases hset : ∃ th o v, l = .settle th o v
  · obtain ⟨th, o, v, rfl⟩ := hset
    have hstore : t.world.store = landed s.clock o s.world.store (s.ask env th) := settle_store h
    rw [hstore, landed]
    simp only [keepsBlock, Bool.or_eq_true, decide_eq_true_eq, Bool.not_eq_true'] at hl
    cases ha : s.ask env th with
    | none => exact hI hcl
    | some a =>
        rw [Option.elim_some]
        rw [ha, Option.all_some] at hl
        split
        · rename_i ho
          rcases hl with (hl | hl) | hl
          · omega
          · rw [ho] at hl
            cases hl
          · exact Ask.blocks_effect (hI hcl) hl
        · exact hI hcl
  · rw [store_kept h fun th o v he => hset ⟨th, o, v, he⟩]
    exact hI hcl

theorem Stored.run {ls : List Label} (hI : s.Stored sid exp)
    (hr : (system env).Run (fun s l => s.keepsBlock env sid exp l = true) s ls t) :
    t.Stored sid exp :=
  hr.preserves (I := fun s : Sys => s.Stored sid exp) (fun _ _ _ hI hl h => hI.step h hl) hI

/-! ### Joins that are turned away -/

/-- No `join` of the connection goes on with the session. -/
def Outside (sid : Sid) (s : Sys) (k : ConnKey) : Prop :=
  ∀ r, s.entering k = some r → r.sid ≠ sid

/-- A lookup of the connection for the session is answered, and before `exp`. -/
def answers (sid : Sid) (exp : ℤ) (k : ConnKey) (s : Sys) : Label → Bool
  | .settle (.handler j) o _ => decide (j ≠ k) || !((s.conn k).handler.any (Handler.looksUp sid)) ||
      decide (o = .answered) && decide (s.clock < exp)
  | _ => true

/-- A lookup that is answered behind a stored block turns its `join` away. -/
theorem Outside.step (hI : s.Outside sid k) (hS : s.Stored sid exp) (h : s.step env l = some t)
    (hl : s.answers sid exp k l = true) : t.Outside sid k := by
  intro r hr hsid
  have hold : ∀ {x : Option Handler}, (s.conn k).handler = x → x.bind Handler.letIn ≠ some r := by
    rintro x rfl hx
    exact hI r ((Core.entering_eq_letIn _ _).trans hx) hsid
  rw [Core.entering_eq_letIn] at hr
  have hx := (coreStep h).conn k
  generalize t.conn k = x at hx hr
  cases hx with
  | act hl' hh ha =>
      rw [ha.letIn] at hr
      cases hr
  | handle hl' hk hh ha =>
      rw [ha.letIn] at hr
      cases hr
  | settled hl' hh hs =>
      obtain ⟨hup, hle⟩ := Handler.settle_letIn hs hr
      subst hl'
      simp only [answers, hh, Option.any_some, ← hsid, hup, Bool.not_true, Bool.or_false,
        Bool.or_eq_true, Bool.and_eq_true, decide_eq_true_eq, ne_eq, not_true_eq_false,
        false_or] at hl
      have hpos := (hS hl.2).ttl_pos hl.2
      rw [← hsid] at hpos
      exact absurd (hle hl.1) (not_le.mpr hpos)
  | accepted => cases hr
  | _ => exact hold rfl hr

end Sys

end RoomBackend
