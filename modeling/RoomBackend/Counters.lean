import RoomBackend.Redis

/-! # Counting together

The instances of a cluster count in one Redis. The window a call is counted in is that of its
host's clock, and a counter lives for one window after the latest call on it, to the last instant
of it. `offset` tells how far the clock of a host is ahead of that of Redis. The counts are those
of the windows of Redis exactly if two calls are in one window there whenever they are in one
window on their hosts and no more than a window apart (`hits_exact_iff`). Calls are listed latest
first. -/

namespace RoomBackend

open Expiring

/-- A call of `hit` that Redis serves at `time`. -/
structure HitCall where
  inst : InstanceId
  key : CounterKey
  time : ℤ
deriving DecidableEq

section counting

variable (offset : InstanceId → ℤ) (windowMs : CounterKey → ℤ)

namespace HitCall

variable (c d : HitCall)

/-- `Date.now()` of the caller. -/
def host : ℤ := c.time + offset c.inst

/-- The window the call is counted in. -/
def hostWindow : ℤ := c.host offset / windowMs c.key

/-- The window of the store's clock. -/
def window : ℤ := c.time / windowMs c.key

/-- The calls are on one key and in one window of the store's clock. -/
def Together : Prop := d.key = c.key ∧ d.window windowMs = c.window windowMs

instance : DecidablePred (c.Together windowMs) := fun _ => inferInstanceAs (Decidable (_ ∧ _))

/-- For the later call `c` the counter of the call `d` is the one to count on, and still there. -/
def Counted : Prop :=
  d.key = c.key ∧ d.hostWindow offset windowMs = c.hostWindow offset windowMs ∧
    c.time ≤ d.time + windowMs c.key

instance : DecidablePred (c.Counted offset windowMs) :=
  fun _ => inferInstanceAs (Decidable (_ ∧ _ ∧ _))

end HitCall

/-- The store after the calls. -/
def hits : List HitCall → RedisStore
  | [] => RedisStore.empty
  | c :: past => ((hits past).hit c.time (c.host offset) c.key (windowMs c.key)).2

/-- What a call is answered. -/
def answer (past : List HitCall) (c : HitCall) : ℕ :=
  ((hits offset windowMs past).hit c.time (c.host offset) c.key (windowMs c.key)).1

/-- Every call is answered how many calls on its key there have been in its window, and was
counted where the others of its window were. -/
def Exact : List HitCall → Prop
  | [] => True
  | c :: past =>
      answer offset windowMs past c = past.countP (fun d => c.Together windowMs d) + 1 ∧
        (∀ d ∈ past, c.Together windowMs d →
          d.hostWindow offset windowMs = c.hostWindow offset windowMs) ∧
        Exact past

/-- Two calls are in one window of the store's clock exactly if the later one counts on. -/
def Aligned (calls : List HitCall) : Prop :=
  calls.Pairwise fun c d => c.Together windowMs d ↔ c.Counted offset windowMs d

instance : DecidablePred (Aligned offset windowMs) :=
  fun _ => inferInstanceAs (Decidable (List.Pairwise _ _))

instance decidableExact : DecidablePred (Exact offset windowMs)
  | [] => isTrue trivial
  | _ :: past =>
      have := decidableExact past
      inferInstanceAs (Decidable (_ ∧ _ ∧ _))

end counting

variable {offset : InstanceId → ℤ} {windowMs : CounterKey → ℤ} {c d : HitCall}
  {past calls : List HitCall}

/-! ### What a counter shows -/

/-- The counter of a window at an instant, by the latest call on it. -/
def running (offset : InstanceId → ℤ) (windowMs : CounterKey → ℤ) (key : CounterKey) (i : ℤ) :
    ℤ → List HitCall → ℕ
  | _, [] => 0
  | now, c :: past =>
      if c.key = key ∧ c.hostWindow offset windowMs = i then
        if c.time + windowMs key < now then 0
        else running offset windowMs key i c.time past + 1
      else running offset windowMs key i now past

theorem lookup_hits (key : CounterKey) (i now : ℤ) (past : List HitCall) :
    (Redis.get (hits offset windowMs past).counters now (key, i)).getD 0 =
      running offset windowMs key i now past := by
  induction past generalizing now with
  | nil => rfl
  | cons c past ih =>
      unfold running
      split
      · rename_i h
        obtain ⟨rfl, rfl⟩ := h
        have hw : (hits offset windowMs (c :: past)).counters
            (c.key, c.hostWindow offset windowMs) =
              some ⟨running offset windowMs c.key (c.hostWindow offset windowMs) c.time past + 1,
                c.time + windowMs c.key⟩ := by
          rw [← ih]
          exact Map.write_same ..
        unfold Redis.get Map.lookup
        rw [hw]
        dsimp only
        simp only [Int.le_sub_one_iff]
        split
        · rfl
        · rfl
      · rename_i h
        have hne : (key, i) ≠ (c.key, c.hostWindow offset windowMs) := by
          intro he
          obtain ⟨rfl, rfl⟩ := Prod.mk.inj he
          exact h ⟨rfl, rfl⟩
        have hw : (hits offset windowMs (c :: past)).counters (key, i) =
            (hits offset windowMs past).counters (key, i) := Map.write_ne _ _ _ hne
        rw [← ih]
        unfold Redis.get Map.lookup
        rw [hw]

theorem answer_eq (past : List HitCall) (c : HitCall) :
    answer offset windowMs past c =
      running offset windowMs c.key (c.hostWindow offset windowMs) c.time past + 1 := by
  rw [← lookup_hits]
  rfl

/-! ### Times -/

theorem HitCall.Together.time_lt (hW : 0 < windowMs c.key) (h : c.Together windowMs d) :
    c.time < d.time + windowMs c.key := by
  obtain ⟨hk, hw⟩ := h
  unfold HitCall.window at hw
  rw [hk] at hw
  have hd := Int.mul_ediv_self_le (x := d.time) hW.ne'
  have hc := Int.lt_mul_ediv_self_add (x := c.time) hW
  rw [hw] at hd
  omega

/-- Calls on one counter that were no more than a window ago all count. -/
theorem countP_counted_le {key : CounterKey} {i now : ℤ}
    (hs : past.Pairwise fun c d => d.time ≤ c.time) (hn : ∀ d ∈ past, d.time ≤ now) :
    past.countP (fun d => decide (d.key = key ∧ d.hostWindow offset windowMs = i ∧
      now ≤ d.time + windowMs key)) ≤ running offset windowMs key i now past := by
  induction past generalizing now with
  | nil => exact Nat.zero_le _
  | cons c past ih =>
      obtain ⟨hc, hs⟩ := List.pairwise_cons.mp hs
      have hcn := hn c List.mem_cons_self
      unfold running
      split
      · rename_i h
        split
        · -- the counter has expired: so has what came before
          rename_i hexp
          refine (List.countP_eq_zero.mpr fun d hd => ?_).le
          have hdc : d.time ≤ c.time := by
            rcases List.mem_cons.mp hd with rfl | hd
            · exact le_rfl
            · exact hc d hd
          simp only [decide_eq_true_eq, not_and]
          intro _ _
          omega
        · refine (List.countP_cons.trans_le (Nat.add_le_add ?_ ?_))
          · refine le_trans (List.countP_mono_left fun d _ hd => ?_) (ih hs hc)
            simp only [decide_eq_true_eq] at hd ⊢
            exact ⟨hd.1, hd.2.1, by omega⟩
          · split <;> omega
      · rename_i h
        have hno : ¬ (c.key = key ∧ c.hostWindow offset windowMs = i ∧
            now ≤ c.time + windowMs key) := fun hyes => h ⟨hyes.1, hyes.2.1⟩
        rw [List.countP_cons_of_neg (by simpa using hno)]
        exact ih hs fun d hd => hn d (List.mem_cons_of_mem _ hd)

/-- Where the calls before are aligned with this one, the counter shows how many of them are in
its window. -/
theorem running_eq (hal : Aligned offset windowMs (c :: past))
    (hs : (c :: past).Pairwise fun c d => d.time ≤ c.time) :
    running offset windowMs c.key (c.hostWindow offset windowMs) c.time past =
      past.countP fun d => c.Together windowMs d := by
  induction past generalizing c with
  | nil => rfl
  | cons d past ih =>
      obtain ⟨hc, htail⟩ := List.pairwise_cons.mp hal
      obtain ⟨hsc, hstail⟩ := List.pairwise_cons.mp hs
      have hd := hc d List.mem_cons_self
      unfold running
      split
      · rename_i h
        split
        · -- the counter has expired: no call before is in the window
          rename_i hexp
          refine (List.countP_eq_zero.mpr fun e he => ?_).symm
          have htime : e.time ≤ d.time := by
            rcases List.mem_cons.mp he with rfl | he'
            · exact le_rfl
            · exact (List.pairwise_cons.mp hstail).1 e he'
          rw [decide_eq_true_eq, hc e he]
          rintro ⟨-, -, hlt⟩
          omega
        · rename_i hexp
          have htog : c.Together windowMs d := hd.mpr ⟨h.1, h.2, by omega⟩
          have hsame : ∀ e, d.Together windowMs e ↔ c.Together windowMs e := by
            intro e
            unfold HitCall.Together
            rw [htog.1, htog.2]
          rw [List.countP_cons, if_pos (decide_eq_true htog), ← h.1, ← h.2, ih htail hstail]
          simp only [hsame]
      · rename_i h
        have hno : ¬ c.Together windowMs d := fun htog => h ⟨htog.1, (hd.mp htog).2.1⟩
        rw [List.countP_cons_of_neg (by simpa using hno)]
        apply ih
        · exact List.pairwise_cons.mpr ⟨fun e he => hc e (List.mem_cons_of_mem _ he),
            (List.pairwise_cons.mp htail).2⟩
        · exact List.pairwise_cons.mpr ⟨fun e he => hsc e (List.mem_cons_of_mem _ he),
            (List.pairwise_cons.mp hstail).2⟩

/-- If as many elements satisfy the weaker of two conditions, the same ones do. -/
theorem imp_of_countP_le {α : Type*} {p q : α → Bool} {l : List α}
    (h : ∀ x ∈ l, p x = true → q x = true) (hle : l.countP q ≤ l.countP p) :
    ∀ x ∈ l, q x = true → p x = true := by
  induction l with
  | nil => exact fun x hx => absurd hx List.not_mem_nil
  | cons a l ih =>
      have hmono := List.countP_mono_left fun x hx => h x (List.mem_cons_of_mem _ hx)
      have ha := h a List.mem_cons_self
      rw [List.countP_cons, List.countP_cons] at hle
      intro x hx hq
      rcases List.mem_cons.mp hx with rfl | hx
      · by_contra hp
        rw [if_pos hq, if_neg hp] at hle
        omega
      · refine ih (fun y hy => h y (List.mem_cons_of_mem _ hy)) ?_ x hx hq
        by_cases hp : p a = true
        · rw [if_pos hp, if_pos (ha hp)] at hle
          omega
        · rw [if_neg hp] at hle
          omega

/-- **Counting together.** However the clocks of the hosts differ from that of Redis, the calls
of any instances on any keys are answered the counts of the windows of Redis, and no call is
counted apart from the others of its window, if and only if they are aligned. -/
theorem hits_exact_iff (offset : InstanceId → ℤ) (hW : ∀ key, 0 < windowMs key)
    (hs : calls.Pairwise fun c d => d.time ≤ c.time) :
    Exact offset windowMs calls ↔ Aligned offset windowMs calls := by
  induction calls with
  | nil => exact ⟨fun _ => List.Pairwise.nil, fun _ => trivial⟩
  | cons c past ih =>
      obtain ⟨hc, hpast⟩ := List.pairwise_cons.mp hs
      constructor
      · rintro ⟨hans, hwin, hex⟩
        refine List.pairwise_cons.mpr ⟨?_, (ih hpast).mp hex⟩
        rw [answer_eq, Nat.add_right_cancel_iff] at hans
        have hto : ∀ d ∈ past, c.Together windowMs d → c.Counted offset windowMs d :=
          fun d hd htog => ⟨htog.1, hwin d hd htog, (htog.time_lt (hW _)).le⟩
        have hle : past.countP (fun d => c.Counted offset windowMs d) ≤
            running offset windowMs c.key (c.hostWindow offset windowMs) c.time past :=
          countP_counted_le hpast hc
        rw [hans] at hle
        have hback := imp_of_countP_le (fun d hd htog => decide_eq_true
          (hto d hd (of_decide_eq_true htog))) hle
        intro d hd
        exact ⟨hto d hd, fun hcount => of_decide_eq_true (hback d hd (decide_eq_true hcount))⟩
      · intro hal
        obtain ⟨hhead, htail⟩ := List.pairwise_cons.mp hal
        refine ⟨?_, fun d hd htog => ((hhead d hd).mp htog).2.1, (ih hpast).mpr htail⟩
        rw [answer_eq, running_eq hal hs]

namespace Demo

/-- A message from a network, at an instance. -/
def counted (inst : InstanceId) (time : ℤ) : HitCall := { inst, key := .ipmsg "n", time }

end Demo

/-- Two instances with clocks three and six windows ahead of Redis. -/
theorem hits_exact_ahead : Exact (fun i => 10000 * (3 * i + 3)) (fun _ => 10000)
    [Demo.counted 0 12000, Demo.counted 0 9999, Demo.counted 0 2000] := by
  apply (hits_exact_iff _ _ _).mpr
  · decide
  · intro _
    decide
  · decide

/-- The clock of the second instance is five seconds ahead: it counts apart. -/
theorem hits_apart :
    answer (fun i => 5000 * i) (fun _ => 10000) [Demo.counted 0 6000] (Demo.counted 1 6000) = 1 ∧
      ¬ Exact (fun i => 5000 * i) (fun _ => 10000)
        [Demo.counted 1 6000, Demo.counted 0 6000] := by
  decide

end RoomBackend
