import Mathlib.Data.Int.Init
import RoomBackend.Day

/-! # Where the days begin

A zone whose offset from UTC is a step function of the instant (`Zone.OfOffset`), with clock
changes that are rare and small (`Steady`) and dates that never run backwards. A day then begins
at the first instant whose local time has reached its midnight (`Starts`), and `roomAt` is right
about a day if `midnightUtc` is right about that day's midnight and about the next one's. -/

namespace RoomBackend.Day

/-! ### The Gregorian calendar -/

theorem doy_bounds {doe yoe : ℤ} (h0 : 0 ≤ doe) (h1 : doe ≤ 146096)
    (hy : yoe = (doe - doe / 1460 + doe / 36524 - doe / 146096) / 365) :
    0 ≤ doe - (365 * yoe + yoe / 4 - yoe / 100) ∧
      doe - (365 * yoe + yoe / 4 - yoe / 100) ≤ 365 := by
  have hd : doe / 36524 = 0 ∨ doe / 36524 = 1 ∨ doe / 36524 = 2 ∨ doe / 36524 = 3 ∨
    doe / 36524 = 4 := by omega
  have hc : yoe / 100 = 0 ∨ yoe / 100 = 1 ∨ yoe / 100 = 2 ∨ yoe / 100 = 3 := by omega
  have he : doe / 146096 = 0 ∨ doe / 146096 = 1 := by omega
  rcases he with he | he
  · -- century by century
    rcases hd with hd | hd | hd | hd | hd <;> rcases hc with hc | hc | hc | hc <;>
      rw [he, hd] at hy <;> rw [hc] <;> omega
  · obtain rfl : doe = 146096 := by omega
    obtain rfl : yoe = 399 := hy
    decide

theorem civilFromDays_of {z era doe yoe doy mp : ℤ} (hera : era = (z + 719468) / 146097)
    (hdoe : doe = z + 719468 - era * 146097)
    (hyoe : yoe = (doe - doe / 1460 + doe / 36524 - doe / 146096) / 365)
    (hdoy : doy = doe - (365 * yoe + yoe / 4 - yoe / 100)) (hmp : mp = (5 * doy + 2) / 153) :
    civilFromDays z =
      (if (if mp < 10 then mp + 3 else mp - 9) ≤ 2 then yoe + era * 400 + 1 else yoe + era * 400,
        if mp < 10 then mp + 3 else mp - 9, doy - (153 * mp + 2) / 5 + 1) := by
  subst hmp hdoy hyoe hdoe hera
  rfl

/-- The year from March on, the month and the day that a date is made of. -/
theorem exists_civilFromDays (z : ℤ) : ∃ y m d, 1 ≤ m ∧ m ≤ 12 ∧ 1 ≤ d ∧ d ≤ 31 ∧
    civilFromDays z = (y, m, d) ∧ daysFromCivil y m d = z := by
  obtain ⟨era, hera⟩ : ∃ era, era = (z + 719468) / 146097 := ⟨_, rfl⟩
  obtain ⟨doe, hdoe⟩ : ∃ doe, doe = z + 719468 - era * 146097 := ⟨_, rfl⟩
  obtain ⟨yoe, hyoe⟩ : ∃ yoe, yoe = (doe - doe / 1460 + doe / 36524 - doe / 146096) / 365 :=
    ⟨_, rfl⟩
  obtain ⟨doy, hdoy⟩ : ∃ doy, doy = doe - (365 * yoe + yoe / 4 - yoe / 100) := ⟨_, rfl⟩
  obtain ⟨mp, hmp⟩ : ∃ mp, mp = (5 * doy + 2) / 153 := ⟨_, rfl⟩
  have h0 : 0 ≤ doe := by omega
  have h1 : doe ≤ 146096 := by omega
  obtain ⟨hd0, hd1⟩ := doy_bounds h0 h1 hyoe
  rw [← hdoy] at hd0 hd1
  have hy0 : 0 ≤ yoe := by omega
  have hy1 : yoe ≤ 399 := by omega
  have hm0 : 0 ≤ mp := by omega
  have hm1 : mp ≤ 11 := by omega
  have hera' : (yoe + era * 400) / 400 = era := by omega
  have hciv := civilFromDays_of hera hdoe hyoe hdoy hmp
  by_cases hm : mp < 10
  · have hm2 : ¬ mp + 3 ≤ 2 := by omega
    have hm3 : mp + 3 > 2 := by omega
    rw [if_pos hm, if_neg hm2] at hciv
    refine ⟨_, _, _, ?_, ?_, ?_, ?_, hciv, ?_⟩
    · omega
    · omega
    · omega
    · omega
    · unfold daysFromCivil
      dsimp only
      rw [if_neg hm2, if_pos hm3, hera', show yoe + era * 400 - era * 400 = yoe by omega,
        show mp + 3 - 3 = mp by omega]
      omega
  · have hm2 : mp - 9 ≤ 2 := by omega
    have hm3 : ¬ mp - 9 > 2 := by omega
    rw [if_neg hm, if_pos hm2] at hciv
    refine ⟨_, _, _, ?_, ?_, ?_, ?_, hciv, ?_⟩
    · omega
    · omega
    · omega
    · omega
    · unfold daysFromCivil
      dsimp only
      rw [if_pos hm2, if_neg hm3, show yoe + era * 400 + 1 - 1 = yoe + era * 400 by omega, hera',
        show yoe + era * 400 - era * 400 = yoe by omega, show mp - 9 + 9 = mp by omega]
      omega

theorem daysFromCivil_add (y m d : ℤ) : daysFromCivil y m d = daysFromCivil y m 1 + (d - 1) := by
  unfold daysFromCivil
  dsimp only
  omega

/-- The first of January is that many leap days on. -/
theorem daysFromCivil_january (y : ℤ) : daysFromCivil y 1 1 =
    365 * y + (y - 1) / 4 - (y - 1) / 100 + (y - 1) / 400 - 719527 := by
  have h1 : (1 : ℤ) ≤ 2 := by decide
  have h2 : ¬ (1 : ℤ) > 2 := by decide
  unfold daysFromCivil
  dsimp only
  rw [if_pos h1, if_neg h2]
  omega

/-- A date is in its year. -/
theorem daysFromCivil_year {y m d : ℤ} (hm : 1 ≤ m) (hm' : m ≤ 12) (hd : 1 ≤ d) (hd' : d ≤ 31) :
    daysFromCivil y 1 1 ≤ daysFromCivil y m d ∧
      daysFromCivil y m d < daysFromCivil (y + 1) 1 1 := by
  rw [daysFromCivil_january, daysFromCivil_january]
  unfold daysFromCivil
  dsimp only
  by_cases h2 : m ≤ 2
  · have h3 : ¬ m > 2 := by omega
    rw [if_pos h2, if_neg h3]
    omega
  · have h3 : m > 2 := by omega
    rw [if_neg h2, if_pos h3]
    omega

/-- The date is one of the years that `Date.UTC` takes for those of the 20th century. -/
def Early (z : ℤ) : Prop := 0 ≤ (civilFromDays z).1 ∧ (civilFromDays z).1 ≤ 99

theorem early_iff (z : ℤ) : Early z ↔ -719528 ≤ z ∧ z < -683003 := by
  obtain ⟨y, m, d, hm, hm', hd, hd', hciv, hz⟩ := exists_civilFromDays z
  have hy : (civilFromDays z).1 = y := by rw [hciv]
  obtain ⟨hlo, hhi⟩ := daysFromCivil_year (y := y) hm hm' hd hd'
  rw [hz, daysFromCivil_january] at hlo hhi
  rw [show y + 1 - 1 = y by omega] at hhi
  unfold Early
  rw [hy]
  constructor
  · rintro ⟨h0, h1⟩
    constructor
    · omega
    · omega
  · rintro ⟨h0, h1⟩
    constructor
    · omega
    · -- after the year 99 it is later than that
      by_contra hy99
      rcases Int.lt_or_eq_of_le (show (100 : ℤ) ≤ y by omega) with hlt | rfl
      · omega
      · omega

/-! ### Zones given by their offset -/

/-- The zone whose offset from UTC is `off`: what a formatter of this zone reports. -/
def zoneOf (off : ℤ → ℤ) : Zone := fun ts => utc (ts + off ts)

/-- The local date of an instant, as a day number. -/
def dayAt (off : ℤ → ℤ) (ts : ℤ) : ℤ := (ts + off ts) / dayMs

/-- Offsets of whole seconds and at most 14 hours, changed by at most two hours, at most once in
48 hours, and never so that the date runs backwards. -/
structure Steady (off : ℤ → ℤ) : Prop where
  whole : ∀ t, off t % 1000 = 0
  le : ∀ t, -(14 * 3600000) ≤ off t ∧ off t ≤ 14 * 3600000
  change : ∀ t, -(2 * 3600000) ≤ off t - off (t - 1) ∧ off t - off (t - 1) ≤ 2 * 3600000
  rare : ∀ t u, t < u → off t ≠ off (t - 1) → off u ≠ off (u - 1) → 48 * 3600000 ≤ u - t
  forward : ∀ t u, t ≤ u → dayAt off t ≤ dayAt off u

/-- The day begins at `start`. -/
def Starts (off : ℤ → ℤ) (z start : ℤ) : Prop := ∀ t, z ≤ dayAt off t ↔ start ≤ t

/-- No clock change spoils the midnight at which the day begins: if clocks are put forward over
it, then from midnight itself and in a zone that was not west of Greenwich; if they are put back
over it, then the zone is west of Greenwich afterwards. -/
def Clear (off : ℤ → ℤ) (z : ℤ) : Prop :=
  ∀ t, (t + off (t - 1) ≤ z * dayMs → z * dayMs < t + off t →
      t + off (t - 1) = z * dayMs ∧ 0 ≤ off (t - 1)) ∧
    (t + off t ≤ z * dayMs → z * dayMs < t + off (t - 1) → off t < 0)

variable {off : ℤ → ℤ} {z start : ℤ}

/-- No change, one offset. -/
theorem eq_of_unchanged {lo hi : ℤ} (h : ∀ u, lo < u → u ≤ hi → off u = off (u - 1)) (t : ℤ)
    (ht : lo ≤ t) (hhi : t ≤ hi) : off t = off lo := by
  induction t, ht using Int.leInduction with
  | base => rfl
  | succ t hle ih =>
      have hstep := h (t + 1) (by omega) hhi
      rw [show t + 1 - 1 = t by omega] at hstep
      rw [hstep, ih (by omega)]

/-- In less than 48 hours there is one offset, or two with the change between them. -/
theorem Steady.window (h : Steady off) {lo hi : ℤ} (hlen : hi - lo < 48 * 3600000) :
    (∃ o, ∀ t, lo ≤ t → t ≤ hi → off t = o) ∨
      ∃ u, lo < u ∧ u ≤ hi ∧ (∀ t, lo ≤ t → t < u → off t = off (u - 1)) ∧
        ∀ t, u ≤ t → t ≤ hi → off t = off u := by
  by_cases hex : ∃ u, lo < u ∧ u ≤ hi ∧ off u ≠ off (u - 1)
  · obtain ⟨u, hlo, hhi, hne⟩ := hex
    have hother : ∀ v, lo < v → v ≤ hi → v ≠ u → off v = off (v - 1) := by
      intro v hv hv' hvu
      by_contra hv''
      rcases Int.lt_or_gt_of_ne hvu with hlt | hgt
      · have := h.rare v u hlt hv'' hne
        omega
      · have := h.rare u v hgt hne hv''
        omega
    refine Or.inr ⟨u, hlo, hhi, fun t ht htu => ?_, fun t ht hthi => ?_⟩
    · have hbefore : ∀ v, lo ≤ v → v ≤ u - 1 → off v = off lo := fun v hv hv' =>
        eq_of_unchanged (fun w hw hw' => hother w hw (by omega) (by omega)) v hv hv'
      rw [hbefore t ht (by omega), hbefore (u - 1) (by omega) le_rfl]
    · exact eq_of_unchanged (fun w hw hw' => hother w (by omega) hw' (by omega)) t ht hthi
  · push Not at hex
    exact Or.inl ⟨off lo, fun t ht hthi => eq_of_unchanged hex t ht hthi⟩

theorem Steady.near (h : Steady off) (lo hi : ℤ) (hle : lo ≤ hi) (hlen : hi - lo < 48 * 3600000) :
    -(2 * 3600000) ≤ off hi - off lo ∧ off hi - off lo ≤ 2 * 3600000 := by
  rcases h.window hlen with ⟨o, ho⟩ | ⟨u, hlo, hhi, hbefore, hafter⟩
  · rw [ho lo le_rfl hle, ho hi hle le_rfl]
    omega
  · rw [hbefore lo le_rfl hlo, hafter hi hhi le_rfl]
    exact h.change u

theorem le_dayAt_iff {t : ℤ} : z ≤ dayAt off t ↔ z * dayMs ≤ t + off t :=
  Int.le_ediv_iff_mul_le (by decide)

/-- Where a day begins, and when the offset at the offset at its UTC midnight tells that. -/
theorem Steady.exists_starts (h : Steady off) (z : ℤ) : ∃ start, Starts off z start ∧
    (z * dayMs - off (z * dayMs - off (z * dayMs)) = start ↔ Clear off z) := by
  generalize hn : z * dayMs = n
  have hlen : n + 16 * 3600000 - (n - 16 * 3600000) < 48 * 3600000 := by omega
  have hb := h.le
  have hbn := hb n
  -- far from midnight the offset does not matter
  have hfar : ∀ t, t < n - 16 * 3600000 ∨ n + 16 * 3600000 < t →
      (z ≤ dayAt off t ↔ n < t) := by
    intro t ht
    rw [le_dayAt_iff, hn]
    have := hb t
    omega
  rcases h.window hlen with ⟨o, ho⟩ | ⟨u, hlo, hhi, hbefore, hafter⟩
  · have hon := ho n (by omega) (by omega)
    rw [hon] at hbn
    refine ⟨n - o, fun t => ?_, ?_⟩
    · by_cases ht : t < n - 16 * 3600000 ∨ n + 16 * 3600000 < t
      · rw [hfar t ht]
        omega
      · rw [le_dayAt_iff, hn, ho t (by omega) (by omega)]
        omega
    · rw [hon, ho (n - o) (by omega) (by omega)]
      refine iff_of_true rfl fun t => ?_
      have h1 := hb t
      have h2 := hb (t - 1)
      rw [hn]
      by_cases ht : t ≤ n - 16 * 3600000 ∨ n + 16 * 3600000 < t
      · omega
      · rw [ho t (by omega) (by omega), ho (t - 1) (by omega) (by omega)]
        omega
  · have hb1 := hb (u - 1)
    have hb2 := hb u
    have hmono := h.forward (u - 1) u (by omega)
    -- the date does not run backwards over the change
    have hkeep : n ≤ u - 1 + off (u - 1) → n ≤ u + off u := by
      intro hle
      rw [← hn, ← le_dayAt_iff] at hle ⊢
      exact Int.le_trans hle hmono
    have hclear : Clear off z ↔ (u + off (u - 1) ≤ n → n < u + off u →
        u + off (u - 1) = n ∧ 0 ≤ off (u - 1)) ∧
        (u + off u ≤ n → n < u + off (u - 1) → off u < 0) := by
      unfold Clear
      rw [hn]
      refine ⟨fun hall => hall u, fun hu t => ?_⟩
      by_cases htu : t = u
      · rw [htu]
        exact hu
      · have h1 := hb t
        have h2 := hb (t - 1)
        by_cases ht : t ≤ n - 16 * 3600000 ∨ n + 16 * 3600000 < t
        · omega
        · rcases Int.lt_or_gt_of_ne htu with hlt | hgt
          · rw [hbefore t (by omega) hlt, hbefore (t - 1) (by omega) (by omega)]
            omega
          · rw [hafter t (by omega) (by omega), hafter (t - 1) (by omega) (by omega)]
            omega
    rw [hclear]
    generalize ho1 : off (u - 1) = o1 at *
    generalize ho2 : off u = o2 at *
    have hstart : Starts off z (if n - o1 < u then n - o1 else max u (n - o2)) := by
      intro t
      by_cases ht : t < n - 16 * 3600000 ∨ n + 16 * 3600000 < t
      · rw [hfar t ht]
        split <;> omega
      · rw [le_dayAt_iff, hn]
        rcases lt_or_ge t u with hlt | hge
        · rw [hbefore t (by omega) hlt]
          split <;> omega
        · rw [hafter t hge (by omega)]
          split <;> omega
    refine ⟨_, hstart, ?_⟩
    have hoff : ∀ t, n - 16 * 3600000 ≤ t → t ≤ n + 16 * 3600000 →
        (t < u → off t = o1) ∧ (u ≤ t → off t = o2) :=
      fun t ht hthi => ⟨fun hlt => hbefore t ht hlt, fun hge => hafter t hge hthi⟩
    have h1 := hoff n (by omega) (by omega)
    have h2 := hoff (n - off n) (by omega) (by omega)
    rcases lt_or_ge n u with hn1 | hn1
    · rw [h1.1 hn1] at h2 ⊢
      rcases lt_or_ge (n - o1) u with hn2 | hn2
      · rw [h2.1 hn2, if_pos hn2]
        omega
      · rw [h2.2 hn2, if_neg (not_lt.mpr hn2)]
        omega
    · rw [h1.2 hn1] at h2 ⊢
      rcases lt_or_ge (n - o2) u with hn2 | hn2
      · rw [h2.1 hn2]
        split <;> omega
      · rw [h2.2 hn2]
        split <;> omega

/-! ### What the code computes -/

/-- The fields of a date are those of its day, where the year is taken as it is. -/
theorem dateUTC_civil {y m d : ℤ} (hm : 1 ≤ m) (hm' : m ≤ 12) (k hh mm ss : ℤ)
    (hy : ¬ (0 ≤ y ∧ y ≤ 99)) : dateUTC y (m - 1) (d + k) hh mm ss =
      (daysFromCivil y m d + k) * dayMs + hh * 3600000 + mm * 60000 + ss * 1000 := by
  unfold dateUTC dayMs
  dsimp only
  rw [if_neg hy, show (m - 1) / 12 = 0 by omega, show (m - 1) % 12 + 1 = m by omega, Int.add_zero,
    daysFromCivil_add y m d]
  omega

/-- An early date is taken for one of the 20th century. -/
theorem dateUTC_early {y m d : ℤ} (hm : 1 ≤ m) (hm' : m ≤ 12) (hy : 0 ≤ y ∧ y ≤ 99) :
    dateUTC y (m - 1) d 0 0 0 = daysFromCivil (1900 + y) m d * dayMs := by
  unfold dateUTC dayMs
  dsimp only
  rw [if_pos hy, show (m - 1) / 12 = 0 by omega, show (m - 1) % 12 + 1 = m by omega, Int.add_zero,
    daysFromCivil_add (1900 + y) m d]
  omega

theorem partsAt_zoneOf (ts : ℤ) : partsAt ts (zoneOf off) = utc (ts + off ts) := by
  have h : (utc (ts + off ts)).hh = (ts + off ts) % dayMs / 1000 / 3600 := rfl
  have hne : (ts + off ts) % dayMs / 1000 / 3600 ≠ 24 := by
    unfold dayMs
    omega
  unfold partsAt zoneOf
  dsimp only
  rw [h, if_neg hne]
  rfl

/-- The offset that is read off the local time. -/
theorem Steady.offsetAt (h : Steady off) {ts : ℤ} (hl : ¬ Early (dayAt off ts)) :
    Day.offsetAt ts (zoneOf off) = off ts := by
  obtain ⟨y, m, d, hm, hm', -, -, hciv, hz⟩ := exists_civilFromDays (dayAt off ts)
  have hy : ¬ (0 ≤ y ∧ y ≤ 99) := by
    unfold Early at hl
    rwa [hciv] at hl
  have hwhole := h.whole ts
  have hdate := dateUTC_civil (d := d) hm hm' 0 ((ts + off ts) % dayMs / 1000 / 3600)
    ((ts + off ts) % dayMs / 1000 / 60 % 60) ((ts + off ts) % dayMs / 1000 % 60) hy
  rw [Int.add_zero, hz, Int.add_zero] at hdate
  unfold Day.offsetAt
  rw [partsAt_zoneOf]
  show dateUTC (civilFromDays (dayAt off ts)).1 ((civilFromDays (dayAt off ts)).2.1 - 1)
    (civilFromDays (dayAt off ts)).2.2 _ _ _ - _ = _
  rw [hciv]
  refine (congrArg (· - ts / 1000 * 1000) hdate).trans ?_
  unfold dayAt dayMs
  omega

/-- The last day of the year 99 is taken for that of 1999. -/
theorem Steady.offsetAt_eve (h : Steady off) {ts : ℤ} (hd : dayAt off ts = daysFromCivil 99 12 31) :
    Day.offsetAt ts (zoneOf off) = off ts + 693960 * dayMs := by
  have hwhole := h.whole ts
  have hciv : civilFromDays (dayAt off ts) = (99, 12, 31) := by
    rw [hd]
    decide
  have hdate : ∀ hh mm ss : ℤ, dateUTC 99 (12 - 1) 31 hh mm ss =
      10956 * dayMs + hh * 3600000 + mm * 60000 + ss * 1000 := by
    intro hh mm ss
    unfold dateUTC
    dsimp only
    rw [if_pos (by decide), show daysFromCivil (1900 + 99 + (12 - 1) / 12) ((12 - 1) % 12 + 1) 1 =
      10926 by decide]
    unfold dayMs
    omega
  have hz : dayAt off ts = -683004 := hd.trans (by decide)
  unfold Day.offsetAt
  rw [partsAt_zoneOf]
  show dateUTC (civilFromDays (dayAt off ts)).1 ((civilFromDays (dayAt off ts)).2.1 - 1)
    (civilFromDays (dayAt off ts)).2.2 _ _ _ - _ = _
  rw [hciv]
  refine (congrArg (· - ts / 1000 * 1000) (hdate _ _ _)).trans ?_
  show 10956 * dayMs + (ts + off ts) % dayMs / 1000 / 3600 * 3600000 +
    (ts + off ts) % dayMs / 1000 / 60 % 60 * 60000 + (ts + off ts) % dayMs / 1000 % 60 * 1000
      - ts / 1000 * 1000 = _
  unfold dayAt dayMs at *
  omega

/-- Both times at which `midnightUtc` looks at the offset are read as they are. -/
def Sampled (off : ℤ → ℤ) (z : ℤ) : Prop :=
  ¬ Early (dayAt off (z * dayMs)) ∧ ¬ Early (dayAt off (z * dayMs - off (z * dayMs)))

/-- `midnightUtc` of a day. -/
def midnight (off : ℤ → ℤ) (z : ℤ) : ℤ :=
  midnightUtc (civilFromDays z).1 (civilFromDays z).2.1 (civilFromDays z).2.2 (zoneOf off)

theorem Steady.midnight_eq (h : Steady off) (hz : ¬ Early z) (hs : Sampled off z) :
    midnight off z = z * dayMs - off (z * dayMs - off (z * dayMs)) := by
  obtain ⟨y, m, d, hm, hm', -, -, hciv, he⟩ := exists_civilFromDays z
  have hy : ¬ (0 ≤ y ∧ y ≤ 99) := by
    unfold Early at hz
    rwa [hciv] at hz
  have hdate := dateUTC_civil (d := d) hm hm' 0 0 0 0 hy
  rw [Int.add_zero, he, Int.add_zero] at hdate
  replace hdate : dateUTC y (m - 1) d 0 0 0 = z * dayMs := by omega
  unfold midnight midnightUtc
  rw [hciv]
  dsimp only
  rw [hdate, h.offsetAt hs.1, h.offsetAt hs.2]

/-- The offsets at the midnight of a day are those of that day or the one before. -/
theorem Steady.sampled (h : Steady off) (hz : ¬ Early z) (hz' : ¬ Early (z - 1)) :
    Sampled off z := by
  have hnear : ∀ t, z * dayMs - dayMs ≤ t + off t → t + off t < z * dayMs + dayMs →
      ¬ Early (dayAt off t) := by
    intro t hlo hhi
    have hday : dayAt off t = z - 1 ∨ dayAt off t = z := by
      unfold dayAt dayMs at *
      omega
    rcases hday with hday | hday
    · rwa [hday]
    · rwa [hday]
  unfold Sampled
  generalize z * dayMs = n at hnear ⊢
  have hb := h.le n
  have hsmall : -(2 * 3600000) ≤ off (n - off n) - off n ∧
      off (n - off n) - off n ≤ 2 * 3600000 := by
    rcases le_or_gt 0 (off n) with hsign | hsign
    · have := h.near (n - off n) n (by omega) (by omega)
      omega
    · exact h.near n (n - off n) (by omega) (by omega)
  constructor
  · apply hnear
    · unfold dayMs
      omega
    · unfold dayMs
      omega
  · apply hnear
    · unfold dayMs
      omega
    · unfold dayMs
      omega

/-- An early day seems to begin in the 20th century. -/
theorem Steady.midnight_early (h : Steady off) (hz : Early z) :
    -25568 * dayMs ≤ midnight off z := by
  obtain ⟨y, m, d, hm, hm', hd, hd', hciv, -⟩ := exists_civilFromDays z
  have hy : 0 ≤ y ∧ y ≤ 99 := by
    unfold Early at hz
    rwa [hciv] at hz
  have hyear := (daysFromCivil_year (y := 1900 + y) hm hm' hd hd').1
  rw [daysFromCivil_january] at hyear
  have hdate := dateUTC_early (d := d) hm hm' hy
  generalize daysFromCivil (1900 + y) m d = z' at hyear hdate
  have hz' : -25567 ≤ z' := by omega
  have hlate : ∀ t, (z' - 2) * dayMs ≤ t + off t → ¬ Early (dayAt off t) := by
    intro t ht hearly
    have hlow : z' - 2 ≤ dayAt off t := le_dayAt_iff.mpr ht
    have := ((early_iff _).mp hearly).2
    omega
  have hb := h.le (z' * dayMs)
  have hb' := h.le (z' * dayMs - off (z' * dayMs))
  have h1 : ¬ Early (dayAt off (z' * dayMs)) := by
    apply hlate
    unfold dayMs at *
    omega
  have h2 : ¬ Early (dayAt off (z' * dayMs - off (z' * dayMs))) := by
    apply hlate
    unfold dayMs at *
    omega
  unfold midnight midnightUtc
  rw [hciv]
  dsimp only
  rw [hdate, h.offsetAt h1, h.offsetAt h2]
  unfold dayMs at *
  omega

/-! ### The room of an instant -/

section room

variable (off) (e : EpochDate) (ts : ℤ)

theorem startsAt_zoneOf :
    (roomAt ts (zoneOf off) e).startsAt = midnight off (dayAt off ts) := by
  unfold roomAt
  rw [partsAt_zoneOf]
  rfl

theorem endsAt_zoneOf (hz : ¬ Early (dayAt off ts)) :
    (roomAt ts (zoneOf off) e).endsAt = midnight off (dayAt off ts + 1) := by
  obtain ⟨y, m, d, hm, hm', -, -, hciv, he⟩ := exists_civilFromDays (dayAt off ts)
  have hy : ¬ (0 ≤ y ∧ y ≤ 99) := by
    unfold Early at hz
    rwa [hciv] at hz
  have hdate := dateUTC_civil (d := d) hm hm' 1 0 0 0 hy
  rw [he] at hdate
  have hnext : dateUTC (civilFromDays (dayAt off ts)).1 ((civilFromDays (dayAt off ts)).2.1 - 1)
      ((civilFromDays (dayAt off ts)).2.2 + 1) 0 0 0 / dayMs = dayAt off ts + 1 := by
    rw [hciv]
    dsimp only
    rw [hdate]
    unfold dayMs
    omega
  unfold roomAt
  rw [partsAt_zoneOf]
  show midnightUtc (civilFromDays (_ / dayMs)).1 (civilFromDays (_ / dayMs)).2.1
    (civilFromDays (_ / dayMs)).2.2 _ = _
  rw [show dateUTC (utc (ts + off ts)).y ((utc (ts + off ts)).m - 1) ((utc (ts + off ts)).d + 1)
    0 0 0 / dayMs = dayAt off ts + 1 from hnext]
  rfl

/-- The number of a day, counted from the epoch date. -/
theorem day_zoneOf : ∃ z', (roomAt ts (zoneOf off) e).day =
      (2 * (z' * dayMs - dateUTC e.y (e.m - 1) e.d 0 0 0) + dayMs) / (2 * dayMs) + 1 ∧
    (¬ Early (dayAt off ts) → z' = dayAt off ts) ∧ (Early (dayAt off ts) → -25567 ≤ z') := by
  obtain ⟨y, m, d, hm, hm', hd, hd', hciv, he⟩ := exists_civilFromDays (dayAt off ts)
  have hday : (roomAt ts (zoneOf off) e).day = (2 * (dateUTC y (m - 1) d 0 0 0 -
      dateUTC e.y (e.m - 1) e.d 0 0 0) + dayMs) / (2 * dayMs) + 1 := by
    have hy : (civilFromDays (dayAt off ts)).1 = y := by rw [hciv]
    have hmo : (civilFromDays (dayAt off ts)).2.1 = m := by rw [hciv]
    have hda : (civilFromDays (dayAt off ts)).2.2 = d := by rw [hciv]
    unfold roomAt
    rw [partsAt_zoneOf, ← hy, ← hmo, ← hda]
    rfl
  have hearly : Early (dayAt off ts) ↔ 0 ≤ y ∧ y ≤ 99 := by
    unfold Early
    rw [hciv]
  rw [hearly]
  by_cases hy : 0 ≤ y ∧ y ≤ 99
  · rw [dateUTC_early hm hm' hy] at hday
    refine ⟨_, hday, fun hn => absurd hy hn, fun _ => ?_⟩
    have hyear := (daysFromCivil_year (y := 1900 + y) hm hm' hd hd').1
    rw [daysFromCivil_january] at hyear
    omega
  · have hdate := dateUTC_civil (d := d) hm hm' 0 0 0 0 hy
    rw [Int.add_zero, he, Int.add_zero] at hdate
    rw [show dateUTC y (m - 1) d 0 0 0 = dayAt off ts * dayMs by omega] at hday
    exact ⟨_, hday, fun _ => rfl, fun h => absurd h hy⟩

/-- The room id tells the day. -/
theorem roomId_zoneOf_iff (t : ℤ) :
    (roomAt t (zoneOf off) e).roomId = (roomAt ts (zoneOf off) e).roomId ↔
      dayAt off t = dayAt off ts := by
  constructor
  · intro h
    obtain ⟨hy, hm, hd⟩ := parts_of_roomDateAt h
    rw [partsAt_zoneOf, partsAt_zoneOf] at hy hm hd
    have hciv : civilFromDays (dayAt off t) = civilFromDays (dayAt off ts) :=
      Prod.ext hy (Prod.ext hm hd)
    obtain ⟨y, m, d, -, -, -, -, hc, he⟩ := exists_civilFromDays (dayAt off t)
    obtain ⟨y', m', d', -, -, -, -, hc', he'⟩ := exists_civilFromDays (dayAt off ts)
    rw [hc, hc'] at hciv
    cases hciv
    exact he.symm.trans he'
  · intro h
    show roomDateAt t (zoneOf off) = roomDateAt ts (zoneOf off)
    have hy : (utc (t + off t)).y = (civilFromDays (dayAt off t)).1 := rfl
    have hm : (utc (t + off t)).m = (civilFromDays (dayAt off t)).2.1 := rfl
    have hd : (utc (t + off t)).d = (civilFromDays (dayAt off t)).2.2 := rfl
    unfold roomDateAt
    rw [partsAt_zoneOf, partsAt_zoneOf]
    dsimp only
    rw [hy, hm, hd, h]
    rfl

/-- The room has the instant, lasts as long as its id and its number, and no longer. -/
structure Spans (room : DailyRoom) : Prop where
  starts : room.startsAt ≤ ts
  ends : ts < room.endsAt
  inside : ∀ t, room.startsAt ≤ t → t < room.endsAt →
    (roomAt t (zoneOf off) e).roomId = room.roomId ∧ (roomAt t (zoneOf off) e).day = room.day
  before : (roomAt (room.startsAt - 1) (zoneOf off) e).roomId ≠ room.roomId ∧
    (roomAt (room.startsAt - 1) (zoneOf off) e).day ≠ room.day
  after : (roomAt room.endsAt (zoneOf off) e).roomId ≠ room.roomId ∧
    (roomAt room.endsAt (zoneOf off) e).day ≠ room.day

/-- Neither the day nor the next is early, and no clock change spoils the midnight at which the
day begins or ends. -/
structure Regular : Prop where
  late : ¬ Early (dayAt off ts)
  late_next : ¬ Early (dayAt off ts + 1)
  sampled : Sampled off (dayAt off ts)
  clear : Clear off (dayAt off ts)
  clear_next : Clear off (dayAt off ts + 1)

/-- On the first day of the year 100, in a zone west of Greenwich, `midnightUtc` looks at the
offset some 1900 years too early. It is the one with which the day begins, and no clock change
spoils the midnight at which it ends. -/
structure Fluke : Prop where
  first : dayAt off ts = daysFromCivil 100 1 1
  west : off (dayAt off ts * dayMs) < 0
  begins : Starts off (dayAt off ts) (dayAt off ts * dayMs -
    off (dayAt off ts * dayMs - off (dayAt off ts * dayMs) - 693960 * dayMs))
  clear_next : Clear off (dayAt off ts + 1)

variable {off e ts}

/-- Between its first instant and that of the next day it is that day. -/
theorem Starts.dayAt_iff {stop : ℤ} (hs : Starts off z start) (he : Starts off (z + 1) stop)
    (t : ℤ) : dayAt off t = z ↔ start ≤ t ∧ t < stop := by
  have h1 := hs t
  have h2 := he t
  omega

/-- The instant before a day is of the day before. -/
theorem Steady.dayAt_before (h : Steady off) (hs : Starts off z start) :
    dayAt off (start - 1) = z - 1 := by
  have h1 := le_dayAt_iff.mp ((hs start).mpr le_rfl)
  have h2 := h.change start
  have h3 := hs (start - 1)
  have h4 : z - 1 ≤ dayAt off (start - 1) := by
    apply le_dayAt_iff.mpr
    unfold dayMs at *
    omega
  omega

/-- A day begins with itself. -/
theorem Steady.dayAt_start (h : Steady off) (hs : Starts off z start) : dayAt off start = z := by
  have h1 := le_dayAt_iff.mp ((hs start).mpr le_rfl)
  have h2 := h.change start
  have h3 : ¬ z ≤ dayAt off (start - 1) := fun hle => by
    have := (hs (start - 1)).mp hle
    omega
  have h4 : ¬ z + 1 ≤ dayAt off start := by
    rw [le_dayAt_iff] at h3 ⊢
    unfold dayMs at *
    omega
  have h5 := (hs start).mpr le_rfl
  omega

/-- Different days have different numbers, unless an early one is taken for a later one. -/
theorem day_ne {t : ℤ} (hl : ¬ Early (dayAt off ts)) (hne : dayAt off t ≠ dayAt off ts)
    (hearly : Early (dayAt off t) → dayAt off ts < -25567) :
    (roomAt t (zoneOf off) e).day ≠ (roomAt ts (zoneOf off) e).day := by
  obtain ⟨z₁, hd₁, hz₁, -⟩ := day_zoneOf off e ts
  obtain ⟨z₂, hd₂, hz₂, hz₂'⟩ := day_zoneOf off e t
  have hz : z₂ ≠ z₁ := by
    rw [hz₁ hl]
    by_cases ht : Early (dayAt off t)
    · have := hearly ht
      have := hz₂' ht
      omega
    · rwa [hz₂ ht]
  rw [hd₁, hd₂]
  unfold dayMs
  omega

/-- A room that starts and ends with its day spans it. -/
theorem Steady.spans (h : Steady off) {room : DailyRoom} (hroom : room = roomAt ts (zoneOf off) e)
    (hs : Starts off (dayAt off ts) room.startsAt)
    (he : Starts off (dayAt off ts + 1) room.endsAt) (hl : ¬ Early (dayAt off ts))
    (hl' : ¬ Early (dayAt off ts + 1)) : Spans off e ts room := by
  have hin := hs.dayAt_iff he
  have hid : room.roomId = (roomAt ts (zoneOf off) e).roomId := by rw [hroom]
  have hnum : room.day = (roomAt ts (zoneOf off) e).day := by rw [hroom]
  obtain ⟨hts, hts'⟩ := (hin ts).mp rfl
  refine ⟨hts, hts', fun t ht ht' => ?_, ?_, ?_⟩
  · have hday := (hin t).mpr ⟨ht, ht'⟩
    have hroomId := (roomId_zoneOf_iff off e ts t).mpr hday
    refine ⟨hroomId.trans hid.symm, ?_⟩
    rw [hnum, roomAt_eq_of_roomId hroomId]
  · have hday := h.dayAt_before hs
    rw [hid, hnum, ne_eq, roomId_zoneOf_iff]
    refine ⟨by omega, day_ne hl (by omega) fun hearly => ?_⟩
    rw [hday] at hearly
    rw [early_iff] at hearly hl
    omega
  · have hday := h.dayAt_start he
    rw [hid, hnum, ne_eq, roomId_zoneOf_iff]
    refine ⟨by omega, day_ne hl (by omega) fun hearly => ?_⟩
    rw [hday] at hearly
    exact absurd hearly hl'

/-- A room that spans its day starts and ends with it. -/
theorem Spans.eq {room : DailyRoom} (h : Spans off e ts room)
    (hroom : room = roomAt ts (zoneOf off) e) {stop : ℤ} (hs : Starts off (dayAt off ts) start)
    (he : Starts off (dayAt off ts + 1) stop) : room.startsAt = start ∧ room.endsAt = stop := by
  have hin := hs.dayAt_iff he
  have hid : ∀ t, (roomAt t (zoneOf off) e).roomId = room.roomId ↔ start ≤ t ∧ t < stop := by
    intro t
    rw [hroom, roomId_zoneOf_iff, hin]
  obtain ⟨hts, hts'⟩ := (hin ts).mp rfl
  have h1 := h.starts
  have h2 := h.ends
  have hfirst := (hid _).mp (h.inside room.startsAt le_rfl (by omega)).1
  have hlast := (hid _).mp (h.inside (room.endsAt - 1) (by omega) (by omega)).1
  have hbefore := mt (hid _).mpr h.before.1
  have hafter := mt (hid _).mpr h.after.1
  omega

theorem Spans.dayAt_eq {room : DailyRoom} (h : Spans off e ts room)
    (hroom : room = roomAt ts (zoneOf off) e) {t : ℤ} (h1 : room.startsAt ≤ t)
    (h2 : t < room.endsAt) : dayAt off t = dayAt off ts := by
  have hin := (h.inside t h1 h2).1
  rwa [hroom, roomId_zoneOf_iff] at hin

/-- A room is not right about an early day. -/
theorem Spans.late (hoff : Steady off) (h : Spans off e ts (roomAt ts (zoneOf off) e)) :
    ¬ Early (dayAt off ts) := by
  intro hearly
  have hmid := hoff.midnight_early hearly
  have hstarts := h.starts
  rw [startsAt_zoneOf] at hstarts
  have hhigh := ((early_iff _).mp hearly).2
  have hb := hoff.le ts
  unfold dayAt dayMs at *
  omega

/-- Nor about the day before one. -/
theorem Spans.late_next (hoff : Steady off) (h : Spans off e ts (roomAt ts (zoneOf off) e)) :
    ¬ Early (dayAt off ts + 1) := by
  intro hearly
  have hmid := hoff.midnight_early hearly
  have hends := endsAt_zoneOf off e ts (h.late hoff)
  rw [← hends] at hmid
  have hhigh := ((early_iff _).mp hearly).2
  have hb := hoff.le ts
  have hb' := hoff.le (ts + 3 * dayMs)
  have hstarts := h.starts
  -- three days later it is another day, and still the same room
  have hsame := h.dayAt_eq rfl (t := ts + 3 * dayMs)
    (by unfold dayMs; omega) (by unfold dayAt dayMs at *; omega)
  unfold dayAt dayMs at hsame
  unfold dayMs at hb'
  omega

/-- The first day of the year 100, by the two times at which `midnightUtc` looks. -/
theorem midnight_first (hz : z = daysFromCivil 100 1 1) : midnight off z = z * dayMs -
    Day.offsetAt (z * dayMs - Day.offsetAt (z * dayMs) (zoneOf off)) (zoneOf off) := by
  have hz' : z = -683003 := hz.trans (by decide)
  have hciv : civilFromDays z = (100, 1, 1) := by
    rw [hz']
    decide
  have hdate : dateUTC 100 (1 - 1) 1 0 0 0 = z * dayMs := by
    rw [hz']
    decide
  unfold midnight midnightUtc
  rw [hciv]
  dsimp only
  rw [hdate]

/-- West of Greenwich the first time is of the eve. -/
theorem Steady.midnight_west (h : Steady off) (hz : z = daysFromCivil 100 1 1)
    (hwest : off (z * dayMs) < 0) : midnight off z =
      z * dayMs - off (z * dayMs - off (z * dayMs) - 693960 * dayMs) := by
  have hz' : z = -683003 := hz.trans (by decide)
  have hb := h.le (z * dayMs)
  have hb' := h.le (z * dayMs - off (z * dayMs) - 693960 * dayMs)
  have hday : dayAt off (z * dayMs) = daysFromCivil 99 12 31 := by
    rw [show daysFromCivil 99 12 31 = -683004 by decide]
    unfold dayAt dayMs at *
    omega
  have hlate : ¬ Early (dayAt off (z * dayMs - off (z * dayMs) - 693960 * dayMs)) := by
    rw [early_iff]
    unfold dayAt dayMs at *
    omega
  rw [midnight_first hz, h.offsetAt_eve hday, ← Int.sub_sub, h.offsetAt hlate]

/-- East of it the second one may be, and then the day seems to begin long before. -/
theorem Steady.midnight_east (h : Steady off) (hz : z = daysFromCivil 100 1 1)
    (heast : 0 ≤ off (z * dayMs)) (hsam : ¬ Sampled off z) : midnight off z < (z - 2) * dayMs := by
  have hz' : z = -683003 := hz.trans (by decide)
  have hb := h.le (z * dayMs)
  have hb' := h.le (z * dayMs - off (z * dayMs))
  have hlate : ¬ Early (dayAt off (z * dayMs)) := by
    rw [early_iff]
    unfold dayAt dayMs at *
    omega
  have hearly : Early (dayAt off (z * dayMs - off (z * dayMs))) := by
    by_contra hn
    exact hsam ⟨hlate, hn⟩
  have hday : dayAt off (z * dayMs - off (z * dayMs)) = daysFromCivil 99 12 31 := by
    rw [show daysFromCivil 99 12 31 = -683004 by decide]
    rw [early_iff] at hearly
    have hnear := h.near (z * dayMs - off (z * dayMs)) (z * dayMs) (by omega) (by omega)
    unfold dayAt dayMs at *
    omega
  rw [midnight_first hz, h.offsetAt hlate, h.offsetAt_eve hday]
  unfold dayMs at *
  omega

/-- **Days.** In a zone of steady offsets the room of an instant spans its day if and only if no
clock change spoils the midnights at which the day begins and ends and `Date.UTC` takes the years
as they are, or it is right by a fluke about the first day of the year 100. -/
theorem roomAt_spans_iff (h : Steady off) (ts : ℤ) (e : EpochDate) :
    Spans off e ts (roomAt ts (zoneOf off) e) ↔ Regular off ts ∨ Fluke off ts := by
  obtain ⟨start, hs, hclear⟩ := h.exists_starts (dayAt off ts)
  obtain ⟨stop, he, hclear'⟩ := h.exists_starts (dayAt off ts + 1)
  have hstarts := startsAt_zoneOf off e ts
  -- the next midnight is read as it is: the day before it is not early
  have hnext : ¬ Early (dayAt off ts) → ¬ Early (dayAt off ts + 1) →
      (roomAt ts (zoneOf off) e).endsAt = (dayAt off ts + 1) * dayMs -
        off ((dayAt off ts + 1) * dayMs - off ((dayAt off ts + 1) * dayMs)) := by
    intro hl hl'
    rw [endsAt_zoneOf off e ts hl]
    refine h.midnight_eq hl' (h.sampled hl' ?_)
    rwa [show dayAt off ts + 1 - 1 = dayAt off ts by omega]
  constructor
  · intro hspans
    have hl := hspans.late h
    have hl' := hspans.late_next h
    obtain ⟨h1, h2⟩ := hspans.eq rfl hs he
    rw [hnext hl hl'] at h2
    by_cases hsam : Sampled off (dayAt off ts)
    · rw [hstarts, h.midnight_eq hl hsam] at h1
      exact Or.inl ⟨hl, hl', hsam, hclear.mp h1, hclear'.mp h2⟩
    · -- only the day after an early one is not read as it is
      have hprev : Early (dayAt off ts - 1) := by
        by_contra hprev
        exact hsam (h.sampled hl hprev)
      have hfirst : dayAt off ts = daysFromCivil 100 1 1 := by
        rw [early_iff] at hprev hl
        rw [show daysFromCivil 100 1 1 = -683003 by decide]
        omega
      rcases lt_or_ge (off (dayAt off ts * dayMs)) 0 with hwest | heast
      · rw [hstarts, h.midnight_west hfirst hwest] at h1
        rw [← h1] at hs
        exact Or.inr ⟨hfirst, hwest, hs, hclear'.mp h2⟩
      · have hmid := h.midnight_east hfirst heast hsam
        have hfrom := le_dayAt_iff.mp ((hs start).mpr le_rfl)
        have hb := h.le start
        rw [← hstarts, h1] at hmid
        unfold dayMs at *
        omega
  · rintro (hreg | hfl)
    · rw [h.midnight_eq hreg.late hreg.sampled, hclear.mpr hreg.clear] at hstarts
      have hends := (hnext hreg.late hreg.late_next).trans (hclear'.mpr hreg.clear_next)
      rw [← hstarts] at hs
      rw [← hends] at he
      exact h.spans rfl hs he hreg.late hreg.late_next
    · have hz : dayAt off ts = -683003 := hfl.first.trans (by decide)
      have hl : ¬ Early (dayAt off ts) := by
        rw [early_iff]
        omega
      have hl' : ¬ Early (dayAt off ts + 1) := by
        rw [early_iff]
        omega
      have hbegins := hfl.begins
      rw [← h.midnight_west hfl.first hfl.west, ← hstarts] at hbegins
      have hends := (hnext hl hl').trans (hclear'.mpr hfl.clear_next)
      rw [← hends] at he
      exact h.spans rfl hbegins he hl hl'

end room

/-! ### Zones with one clock change -/

/-- Clocks are changed at `u`. -/
def changed (u o₁ o₂ t : ℤ) : ℤ := if t < u then o₁ else o₂

theorem steady_changed {u o₁ o₂ : ℤ} (h₁ : o₁ % 1000 = 0) (h₂ : o₂ % 1000 = 0)
    (hb₁ : -(14 * 3600000) ≤ o₁ ∧ o₁ ≤ 14 * 3600000)
    (hb₂ : -(14 * 3600000) ≤ o₂ ∧ o₂ ≤ 14 * 3600000)
    (hc : -(2 * 3600000) ≤ o₂ - o₁ ∧ o₂ - o₁ ≤ 2 * 3600000)
    (hf : (u - 1 + o₁) / 86400000 ≤ (u + o₂) / 86400000) : Steady (changed u o₁ o₂) := by
  have hlt : ∀ t, t < u → changed u o₁ o₂ t = o₁ := fun t ht => if_pos ht
  have hge : ∀ t, u ≤ t → changed u o₁ o₂ t = o₂ := fun t ht => if_neg (not_lt.mpr ht)
  have hat : ∀ t, changed u o₁ o₂ t ≠ changed u o₁ o₂ (t - 1) → t = u := by
    intro t hne
    by_contra htu
    rcases lt_or_ge t u with h | h
    · rw [hlt t h, hlt (t - 1) (by omega)] at hne
      exact hne rfl
    · rw [hge t h, hge (t - 1) (by omega)] at hne
      exact hne rfl
  refine ⟨fun t => ?_, fun t => ?_, fun t => ?_, fun t t' hlt' ht ht' => ?_, fun t t' hle => ?_⟩
  · unfold changed
    split
    · exact h₁
    · exact h₂
  · unfold changed
    split
    · exact hb₁
    · exact hb₂
  · unfold changed
    split <;> split <;> omega
  · have := hat t ht
    have := hat t' ht'
    omega
  · unfold dayAt dayMs
    rcases lt_or_ge t u with h | h
    · rcases lt_or_ge t' u with h' | h'
      · rw [hlt t h, hlt t' h']
        omega
      · rw [hlt t h, hge t' h']
        omega
    · rw [hge t h, hge t' (by omega)]
      omega

namespace Demo

/-- Clocks are put forward at one in the morning, from one hour ahead of Greenwich to two. -/
def east : ℤ → ℤ := changed (20000 * 86400000) 3600000 7200000

/-- Clocks are put forward at midnight, from three hours behind Greenwich to two. -/
def west : ℤ → ℤ := changed (20000 * 86400000 + 10800000) (-10800000) (-7200000)

end Demo

/-- A day of 23 hours. -/
theorem roomAt_spans_east :
    Spans Demo.east ⟨2026, 3, 11⟩ (20000 * 86400000 + 43200000)
      (roomAt (20000 * 86400000 + 43200000) (zoneOf Demo.east) ⟨2026, 3, 11⟩) := by
  have hsteady : Steady Demo.east := steady_changed (by decide) (by decide) (by decide)
    (by decide) (by decide) (by decide)
  have hclear : ∀ z, z = 20000 ∨ z = 20001 → Clear Demo.east z := by
    intro z hz t
    unfold Demo.east changed dayMs
    constructor
    · split <;> split <;> omega
    · split <;> split <;> omega
  have hday : dayAt Demo.east (20000 * 86400000 + 43200000) = 20000 := by decide
  have hlate : ∀ z, 0 ≤ z → ¬ Early z := by
    intro z hz hearly
    have := ((early_iff z).mp hearly).2
    omega
  refine (roomAt_spans_iff hsteady _ _).mpr (Or.inl ⟨?_, ?_, ?_, ?_, ?_⟩)
  · rw [hday]
    exact hlate _ (by decide)
  · rw [hday]
    exact hlate _ (by decide)
  · rw [hday]
    exact ⟨hlate _ (by decide), hlate _ (by decide)⟩
  · rw [hday]
    exact hclear _ (Or.inl rfl)
  · rw [hday]
    exact hclear _ (Or.inr rfl)

/-- The room of a day without a midnight begins an hour too early. -/
theorem roomAt_spans_not_west : Steady Demo.west ∧
    (roomAt (20000 * 86400000 + 43200000) (zoneOf Demo.west) ⟨2026, 3, 11⟩).startsAt =
      20000 * 86400000 + 7200000 ∧
    (roomAt (20000 * 86400000 + 7200000) (zoneOf Demo.west) ⟨2026, 3, 11⟩).roomId =
      "2024-10-03" ∧
    ¬ Spans Demo.west ⟨2026, 3, 11⟩ (20000 * 86400000 + 43200000)
      (roomAt (20000 * 86400000 + 43200000) (zoneOf Demo.west) ⟨2026, 3, 11⟩) := by
  refine ⟨steady_changed (by decide) (by decide) (by decide) (by decide) (by decide) (by decide),
    by decide +kernel, by decide +kernel, fun h => ?_⟩
  have hday := h.dayAt_eq rfl (t := 20000 * 86400000 + 7200000) (by decide +kernel)
    (by decide +kernel)
  revert hday
  decide

end RoomBackend.Day
