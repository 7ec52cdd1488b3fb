import RoomBackend.Redis

/-! # How long an abuse event is kept

All events share one log, and each call trims the whole log with its own retention. The log is
always a run of the latest events (`Log`), so an event is in it as long as it is among the ten
thousand latest and no call since has trimmed it away (`listed_iff`). -/

namespace RoomBackend

/-- A call of `addAbuseEvent`. -/
structure AbuseCall where
  time : ℤ
  event : AbuseEvent
  retentionMs : ℤ

variable (calls : ℕ → AbuseCall)

/-- What call number `i` adds. -/
def entry (i : ℕ) : ℤ × AbuseEvent := ((calls i).time, (calls i).event)

/-- What the calls from number `i` on, before number `n`, add. -/
def entries (i n : ℕ) : List (ℤ × AbuseEvent) := (List.range' i (n - i)).map (entry calls)

/-- `MemoryStore` after `n` calls. -/
def memory : ℕ → Store
  | 0 => Store.empty
  | n + 1 => ((memory n).addAbuseEvent (calls n).time (calls n).event (calls n).retentionMs).2

/-- `RedisStore` after `n` calls. -/
def redis : ℕ → RedisStore
  | 0 => RedisStore.empty
  | n + 1 =>
      (redis n).addAbuseEvent (calls n).time (calls n).time (calls n).event (calls n).retentionMs

/-- Call number `j` leaves the event of call number `i` in memory. -/
def InMemory (i j : ℕ) : Prop :=
  i = j ∨ (calls j).time - (calls i).time < (calls j).retentionMs

/-- The same in Redis, where an event of just that age stays. -/
def InRedis (i j : ℕ) : Prop := (calls j).time - (calls i).time ≤ (calls j).retentionMs

/-- In the log of the first `n` calls every event is listed until its own retention has elapsed
or ten thousand newer ones have been added, and is gone with the next call after that. -/
def Retained (log : ℕ → List (ℤ × AbuseEvent)) (n : ℕ) : Prop :=
  ∀ i j, i ≤ j → j < n →
    ((calls j).time - (calls i).time < (calls i).retentionMs → j < i + 10000 →
      entries calls i (j + 1) <:+ log (j + 1)) ∧
    (i < j → (calls i).retentionMs < (calls j).time - (calls i).time →
      ¬ entries calls i (j + 1) <:+ log (j + 1))

/-- While an event is among the ten thousand latest, no call trims it away before its own
retention has elapsed, and one has when it has. -/
def Consistent (leaves : ℕ → ℕ → Prop) (n : ℕ) : Prop :=
  ∀ i j, i ≤ j → j < n → j < i + 10000 →
    ((calls j).time - (calls i).time < (calls i).retentionMs → leaves i j) ∧
    (i < j → (calls i).retentionMs < (calls j).time - (calls i).time →
      ∃ m, i ≤ m ∧ m ≤ j ∧ ¬ leaves i m)

variable {calls} {leaves : ℕ → ℕ → Prop} {log : ℕ → List (ℤ × AbuseEvent)} {i m n : ℕ}

/-! ### Runs of entries -/

theorem length_entries : (entries calls i n).length = n - i := by
  rw [entries, List.length_map, List.length_range']

theorem entries_cons (h : i < n) :
    entries calls i n = entry calls i :: entries calls (i + 1) n := by
  unfold entries
  rw [show n - i = n - (i + 1) + 1 by omega, List.range'_succ, List.map_cons]

theorem entries_append (h : i ≤ n) :
    entries calls i n ++ [entry calls n] = entries calls i (n + 1) := by
  unfold entries
  rw [show n + 1 - i = n - i + 1 by omega, List.range'_1_concat, List.map_append]
  congr 2
  rw [show i + (n - i) = n by omega]

theorem drop_entries (k : ℕ) : (entries calls i n).drop k = entries calls (i + k) n := by
  unfold entries
  rw [← List.map_drop, List.drop_range']
  congr 2
  · omega
  · omega

/-- The latest entries are those from some call on. -/
theorem entries_suffix_iff (hm : m ≤ n) (h : i < n) :
    entries calls i n <:+ entries calls m n ↔ m ≤ i := by
  constructor
  · intro hsuf
    have hlen := hsuf.length_le
    rw [length_entries, length_entries] at hlen
    omega
  · intro hle
    rw [show i = m + (i - m) by omega, ← drop_entries]
    exact List.drop_suffix _ _

/-- Trimming by age leaves the entries from some call on. -/
theorem filter_entries {p : ℤ × AbuseEvent → Bool} (hm : m ≤ n)
    (hp : ∀ i j, i ≤ j → p (entry calls i) = true → p (entry calls j) = true) :
    ∃ m', m ≤ m' ∧ m' ≤ n ∧ (entries calls m n).filter p = entries calls m' n ∧
      ∀ i < n, m ≤ i → (m' ≤ i ↔ p (entry calls i) = true) := by
  obtain ⟨k, rfl⟩ : ∃ k, n = m + k := ⟨n - m, by omega⟩
  induction k generalizing m with
  | zero =>
      refine ⟨m, le_rfl, le_rfl, ?_, fun i hi hle => by omega⟩
      rw [List.eq_nil_of_length_eq_zero (length_entries.trans (by omega)), List.filter_nil]
  | succ k ih =>
      by_cases hpm : p (entry calls m) = true
      · refine ⟨m, le_rfl, hm, List.filter_eq_self.mpr fun a ha => ?_, fun i _ hle =>
          ⟨fun _ => hp m i hle hpm, fun _ => hle⟩⟩
        obtain ⟨j, hj, rfl⟩ := List.mem_map.mp ha
        exact hp m j (List.mem_range'_1.mp hj).1 hpm
      · obtain ⟨m', hle, hm', hf, hiff⟩ := ih (m := m + 1) (by omega)
        rw [show m + 1 + k = m + (k + 1) by omega] at hm' hf hiff
        refine ⟨m', by omega, hm', ?_, fun i hi hmi => ?_⟩
        · rw [entries_cons (by omega), List.filter_cons_of_neg hpm, hf]
        · rcases Nat.eq_or_lt_of_le hmi with rfl | hlt
          · exact ⟨fun h => by omega, fun h => absurd h hpm⟩
          · exact hiff i hi hlt

/-! ### The log -/

/-- The log holds the entries that no call has trimmed away, of the ten thousand latest. -/
def Log (calls : ℕ → AbuseCall) (leaves : ℕ → ℕ → Prop) (log : ℕ → List (ℤ × AbuseEvent))
    (n : ℕ) : Prop :=
  ∃ m ≤ n, log n = entries calls m n ∧
    ∀ i < n, m ≤ i ↔ n ≤ i + 10000 ∧ ∀ j, i ≤ j → j < n → leaves i j

/-- One call more. -/
theorem Log.succ (h : Log calls leaves log n)
    (hs : ∀ m ≤ n, log n = entries calls m n → ∃ m' ≤ n + 1,
      log (n + 1) = entries calls m' (n + 1) ∧
      ∀ i < n + 1, m' ≤ i ↔ (m ≤ i ∧ n + 1 ≤ i + 10000) ∧ leaves i n) :
    Log calls leaves log (n + 1) := by
  obtain ⟨m, hm, he, hiff⟩ := h
  obtain ⟨m', hm', he', hiff'⟩ := hs m hm he
  refine ⟨m', hm', he', fun i hi => ?_⟩
  rw [hiff' i hi]
  constructor
  · rintro ⟨⟨hmi, hlen⟩, hl⟩
    refine ⟨hlen, fun j hij hj => ?_⟩
    rcases Nat.eq_or_lt_of_le (Nat.lt_succ_iff.mp hj) with rfl | hlt
    · exact hl
    · exact ((hiff i (by omega)).mp hmi).2 j hij hlt
  · rintro ⟨hlen, hall⟩
    refine ⟨⟨?_, hlen⟩, hall n (by omega) (by omega)⟩
    rcases Nat.eq_or_lt_of_le (Nat.lt_succ_iff.mp hi) with rfl | hlt
    · exact hm
    · exact (hiff i hlt).mpr ⟨by omega, fun j hij hj => hall j hij (by omega)⟩

theorem listed_iff (h : Log calls leaves log n) (hi : i < n) :
    entries calls i n <:+ log n ↔ n ≤ i + 10000 ∧ ∀ j, i ≤ j → j < n → leaves i j := by
  obtain ⟨m, hm, he, hiff⟩ := h
  rw [he, entries_suffix_iff hm hi, hiff i hi]

theorem memory_abuse (n : ℕ) :
    (memory calls (n + 1)).abuse =
      ((memory calls n).abuse.filter fun a =>
        (calls n).time - a.1 < (calls n).retentionMs).drop
        (((memory calls n).abuse.filter fun a =>
          (calls n).time - a.1 < (calls n).retentionMs).length - 9999) ++ [entry calls n] := by
  simp only [memory, Store.addAbuseEvent, entry]

theorem redis_abuse (n : ℕ) :
    (redis calls (n + 1)).abuse =
      (((redis calls n).abuse ++ [entry calls n]).drop
        (((redis calls n).abuse ++ [entry calls n]).length - 10000)).filter fun a =>
          (calls n).time - (calls n).retentionMs ≤ a.1 := by
  simp only [redis, RedisStore.addAbuseEvent, entry]

theorem memory_log (ht : ∀ i j, i ≤ j → (calls i).time ≤ (calls j).time) (n : ℕ) :
    Log calls (InMemory calls) (fun n => (memory calls n).abuse) n := by
  induction n with
  | zero => exact ⟨0, le_rfl, rfl, fun i hi => absurd hi (Nat.not_lt_zero i)⟩
  | succ n ih =>
      refine ih.succ fun m hm he => ?_
      have hp : ∀ i j, i ≤ j →
          decide ((calls n).time - (entry calls i).1 < (calls n).retentionMs) = true →
          decide ((calls n).time - (entry calls j).1 < (calls n).retentionMs) = true := by
        intro i j hij hpi
        have hle : (calls i).time ≤ (calls j).time := ht i j hij
        rw [decide_eq_true_eq] at hpi ⊢
        exact lt_of_le_of_lt (Int.sub_le_sub_left hle _) hpi
      obtain ⟨m', hle, hm', hf, hiff⟩ := filter_entries
        (p := fun a => decide ((calls n).time - a.1 < (calls n).retentionMs)) hm hp
      refine ⟨m' + (n - m' - 9999), by omega, ?_, fun i hi => ?_⟩
      · rw [memory_abuse, he, hf, length_entries, drop_entries, entries_append (by omega)]
      · rcases Nat.eq_or_lt_of_le (Nat.lt_succ_iff.mp hi) with rfl | hlt
        · exact ⟨fun _ => ⟨⟨hm, by omega⟩, Or.inl rfl⟩, fun _ => by omega⟩
        · by_cases hmi : m ≤ i
          · have hage : m' ≤ i ↔ InMemory calls i n := by
              rw [hiff i hlt hmi]
              constructor
              · intro hpi
                exact Or.inr (of_decide_eq_true hpi)
              · rintro (rfl | hpi)
                · omega
                · exact decide_eq_true hpi
            rw [← hage]
            omega
          · omega

theorem redis_log (ht : ∀ i j, i ≤ j → (calls i).time ≤ (calls j).time) (n : ℕ) :
    Log calls (InRedis calls) (fun n => (redis calls n).abuse) n := by
  induction n with
  | zero => exact ⟨0, le_rfl, rfl, fun i hi => absurd hi (Nat.not_lt_zero i)⟩
  | succ n ih =>
      refine ih.succ fun m hm he => ?_
      have hp : ∀ i j, i ≤ j →
          decide ((calls n).time - (calls n).retentionMs ≤ (entry calls i).1) = true →
          decide ((calls n).time - (calls n).retentionMs ≤ (entry calls j).1) = true := by
        intro i j hij hpi
        rw [decide_eq_true_eq] at hpi ⊢
        exact hpi.trans (ht i j hij)
      have hcut : m + (n + 1 - m - 10000) ≤ n + 1 := by omega
      obtain ⟨m', hle, hm', hf, hiff⟩ := filter_entries
        (p := fun a => decide ((calls n).time - (calls n).retentionMs ≤ a.1)) hcut hp
      refine ⟨m', hm', ?_, fun i hi => ?_⟩
      · rw [redis_abuse, he, entries_append hm, length_entries, drop_entries, hf]
      · by_cases hmi : m + (n + 1 - m - 10000) ≤ i
        · have hage : m' ≤ i ↔ InRedis calls i n := by
            rw [hiff i hi hmi, decide_eq_true_eq]
            show (calls n).time - (calls n).retentionMs ≤ (calls i).time ↔
              (calls n).time - (calls i).time ≤ (calls n).retentionMs
            omega
          rw [← hage]
          omega
        · omega

/-- A log that its calls trim consistently is one that retains its events as it should. -/
theorem retained_iff (ht : ∀ i j, i ≤ j → (calls i).time ≤ (calls j).time)
    (h : ∀ n, Log calls leaves log n) :
    Retained calls log n ↔ Consistent calls leaves n := by
  constructor
  · intro hr i j hij hj hlen
    refine ⟨fun hage => ?_, fun hlt hage => ?_⟩
    · have hin := (hr i j hij hj).1 hage hlen
      exact ((listed_iff (h _) (by omega)).mp hin).2 j hij (by omega)
    · have hout := (hr i j hij hj).2 hlt hage
      rw [listed_iff (h _) (by omega)] at hout
      by_contra hall
      push Not at hall
      exact hout ⟨by omega, fun m him hm => hall m him (by omega)⟩
  · intro hc i j hij hj
    refine ⟨fun hage hlen => ?_, fun hlt hage hin => ?_⟩
    · refine (listed_iff (h _) (by omega)).mpr ⟨by omega, fun m him hm => ?_⟩
      have hle : (calls m).time ≤ (calls j).time := ht m j (by omega)
      exact (hc i m him (by omega) (by omega)).1 (by omega)
    · obtain ⟨hlen, hall⟩ := (listed_iff (h _) (by omega)).mp hin
      obtain ⟨m, him, hm, hno⟩ := (hc i j hij hj (by omega)).2 hlt hage
      exact hno (hall m him (by omega))

/-- **Retention.** For any calls at times that do not decrease, an event is listed in memory and
in Redis for as long as its own retention says, if and only if the calls trim consistently. -/
theorem retained_memory_redis (ht : ∀ i j, i ≤ j → (calls i).time ≤ (calls j).time) (n : ℕ) :
    (Retained calls (fun n => (memory calls n).abuse) n ↔ Consistent calls (InMemory calls) n) ∧
    (Retained calls (fun n => (redis calls n).abuse) n ↔ Consistent calls (InRedis calls) n) :=
  ⟨retained_iff ht (memory_log ht), retained_iff ht (redis_log ht)⟩

/-- Calls that all have one retention are consistent. -/
theorem consistent_of_eq {ret : ℤ} (h : ∀ i, (calls i).retentionMs = ret) (n : ℕ) :
    Consistent calls (InMemory calls) n ∧ Consistent calls (InRedis calls) n := by
  constructor
  · intro i j hij _ _
    rw [h i]
    refine ⟨fun hage => Or.inr (by rwa [h j]), fun hlt hage => ⟨j, hij, le_rfl, ?_⟩⟩
    rintro (rfl | hin)
    · exact lt_irrefl _ hlt
    · rw [h j] at hin
      omega
  · intro i j hij _ _
    unfold InRedis
    rw [h i]
    refine ⟨fun hage => ?_, fun hlt hage => ⟨j, hij, le_rfl, ?_⟩⟩
    · rw [h j]
      exact hage.le
    · rw [h j]
      exact not_le.mpr hage

namespace Demo

/-- A report number. -/
def report (i : ℕ) : AbuseEvent := .report "spam" "2026-09-11" i "Quiet Fox" "hello" 0 "s"

/-- Reports, a day apart. -/
def reports (i : ℕ) : AbuseCall :=
  { time := 86400000 * i, event := report i, retentionMs := 30 * 86400000 }

/-- A report, and eight days later a block. -/
def reported : ℕ → AbuseCall
  | 0 => { time := 0, event := report 0, retentionMs := 30 * 86400000 }
  | i + 1 =>
      { time := 8 * 86400000 + i, event := .block "challenge_failed" "t" 600000 1
        retentionMs := 7 * 86400000 }

end Demo

/-- Forty reports are kept for thirty days. -/
theorem retained_reports :
    Retained Demo.reports (fun n => (memory Demo.reports n).abuse) 40 ∧
      Retained Demo.reports (fun n => (redis Demo.reports n).abuse) 40 := by
  have ht : ∀ i j, i ≤ j → (Demo.reports i).time ≤ (Demo.reports j).time := by
    intro i j hij
    show (86400000 * i : ℤ) ≤ 86400000 * j
    omega
  have hret : ∀ i, (Demo.reports i).retentionMs = 30 * 86400000 := fun _ => rfl
  obtain ⟨hm, hr⟩ := consistent_of_eq hret 40
  exact ⟨(retained_memory_redis ht 40).1.mpr hm, (retained_memory_redis ht 40).2.mpr hr⟩

/-- The block removes the report after eight days. -/
theorem retained_shortened :
    (∀ i j, i ≤ j → (Demo.reported i).time ≤ (Demo.reported j).time) ∧
      ¬ Retained Demo.reported (fun n => (memory Demo.reported n).abuse) 2 ∧
      ¬ Retained Demo.reported (fun n => (redis Demo.reported n).abuse) 2 := by
  refine ⟨fun i j hij => ?_, fun h => ?_, fun h => ?_⟩
  · cases i with
    | zero =>
        cases j with
        | zero => exact le_rfl
        | succ j =>
            show (0 : ℤ) ≤ 8 * 86400000 + j
            omega
    | succ i =>
        obtain ⟨j, rfl⟩ : ∃ k, j = k + 1 := ⟨j - 1, by omega⟩
        show (8 * 86400000 + i : ℤ) ≤ 8 * 86400000 + j
        omega
  · exact absurd ((h 0 1 (by decide) (by decide)).1 (by decide) (by decide)) (by decide)
  · exact absurd ((h 0 1 (by decide) (by decide)).1 (by decide) (by decide)) (by decide)

end RoomBackend
