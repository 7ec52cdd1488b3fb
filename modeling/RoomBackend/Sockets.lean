import RoomBackend.Frames

/-! # Sockets close and stay closed

`Shrinks s t`: every socket that is open in `t` was open in `s`. Handing frames to sockets and
closing them shrinks the set of open sockets, and a step does nothing else to them, apart from
`accept`, whose new connection has not joined. A connection whose renewal fails is left with a
socket that is not open. -/

namespace RoomBackend

open Async Day Suspicion Lts

namespace Sys

/-- The socket of a connection is open. -/
def Opened (s : Sys) (k : ConnKey) : Prop := (s.side k).socket.state = .opened

/-- No socket of `t` is open that was not open in `s`. -/
def Shrinks (s t : Sys) : Prop := ∀ k, t.Opened k → s.Opened k

theorem Talks.shrinks {P : ConnKey → ServerEvent → Prop}
    {L : ConnKey → Limiter → Limiter → Prop} {s t : Sys} (h : Talks P L s t) : Shrinks s t :=
  fun k => (h.moves k).opened

end Sys

theorem Socket.not_opened_of_close {x : Socket} {code : ℕ} {reason : String} :
    (x.close code reason).state ≠ .opened := by
  unfold close
  split
  · intro h
    cases h
  · rename_i hx
    exact hx

namespace Sys

variable {env : Env} {s t : Sys}

/-- A socket that is open after a step was open before it, or its connection is new. -/
theorem step_opened {l : Label} (hs : s.Polite) (h : s.step env l = some t) {k : ConnKey}
    (hk : t.Opened k) : s.Opened k ∨ (t.conn k).joined = false := by
  rcases step_sides hs h k with hm | ⟨n, u, -, -, hc, -⟩
  · exact Or.inl (hm.opened hk)
  · rw [hc]
    exact Or.inr rfl

/-! ### Connections that are dropped -/

/-- A renewal that fails leaves the connection with a socket that is not open. -/
theorem rollover_threw {k : ConnKey} {p : RolloverPc} {d : ℕ}
    (h : s.resume env (.rollover k) = some t) (hp : (s.conn k).rolling = some p)
    (hr : p.create.resume env s.draws = some (.threw, d)) : ¬ t.Opened k := by
  obtain ⟨q, hq, hu⟩ := Option.bind_eq_some_iff.mp h
  obtain rfl : p = q := Option.some.inj (hp.symm.trans hq)
  unfold rolloverResume at hu
  rw [hr] at hu
  cases hu
  unfold Opened close updSocket updSide
  dsimp only
  rw [Function.update_self]
  exact Socket.not_opened_of_close

end Sys

end RoomBackend
