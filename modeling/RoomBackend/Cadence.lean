import RoomBackend.Suspicion
import Mathlib.Algebra.BigOperators.Intervals
import Mathlib.Analysis.SpecialFunctions.Pow.Real
import Mathlib.Data.List.Intervals

/-! # The cadence of messages (`abuse/suspicion.ts`)

The class `TimingAnalyzer` over real times, with the square root of the source, against its
specification over the whole history: the last gaps are regular, and enough of them have ended since
the last answer of true. -/

namespace RoomBackend.Suspicion

open Finset

/-- `TimingAnalyzer`, with real times. -/
structure Analyzer where
  window : ℕ
  gaps : List ℝ
  last : ℝ

namespace Analyzer

/-- `new TimingAnalyzer(window)`. -/
def new (window : ℕ) : Analyzer := { window := window, gaps := [], last := 0 }

open Classical in
/-- `record`. -/
noncomputable def record (a : Analyzer) (now : ℝ) : Bool × Analyzer :=
  let gaps :=
    if a.last ≠ 0 then
      let g := a.gaps ++ [now - a.last]
      if g.length > a.window then g.tail else g
    else a.gaps
  let a := { a with gaps := gaps, last := now }
  if gaps.length < a.window then (false, a)
  else
    let mean : ℝ := gaps.sum / gaps.length
    if mean > 20000 then (false, a)
    else
      let variance : ℝ := (gaps.map fun g => (g - mean) ^ 2).sum / gaps.length
      let cv : ℝ := √variance / max 1 mean
      if cv < 8 / 100 then (true, { a with gaps := [] }) else (false, a)

/-- The answer to the `i`-th time of a sequence, and the analyzer after it. -/
noncomputable def run (n : ℕ) (t : ℕ → ℝ) : ℕ → Bool × Analyzer
  | 0 => (new n).record (t 0)
  | i + 1 => (run n t i).2.record (t (i + 1))

/-- The answer to the `i`-th time. -/
noncomputable def answered (n : ℕ) (t : ℕ → ℝ) (i : ℕ) : Bool := (run n t i).1

end Analyzer

/-! ### The specification -/

/-- The `k`-th gap, which ends at the time after the `k`-th. -/
def gap (t : ℕ → ℝ) (k : ℕ) : ℝ := t (k + 1) - t k

/-- The mean of the last `n` gaps at the `i`-th time. -/
noncomputable def mean (n : ℕ) (t : ℕ → ℝ) (i : ℕ) : ℝ := (∑ k ∈ Ico (i - n) i, gap t k) / n

/-- Their variance. -/
noncomputable def variance (n : ℕ) (t : ℕ → ℝ) (i : ℕ) : ℝ :=
  (∑ k ∈ Ico (i - n) i, (gap t k - mean n t i) ^ 2) / n

/-- The last `n` gaps are near-identical, at conversational speed. -/
def Regular (n : ℕ) (t : ℕ → ℝ) (i : ℕ) : Prop :=
  mean n t i ≤ 20000 ∧ variance n t i < (8 / 100 * max 1 (mean n t i)) ^ 2

namespace Analyzer

/-! ### One message -/

/-- The gaps with the one that ends now. -/
noncomputable def advance (a : Analyzer) (now : ℝ) : List ℝ :=
  if a.last ≠ 0 then
    let g := a.gaps ++ [now - a.last]
    if g.length > a.window then g.tail else g
  else a.gaps

/-- The test of `record`, with the square root gone. -/
def RegularGaps (gs : List ℝ) : Prop :=
  gs.sum / gs.length ≤ 20000 ∧
    (gs.map fun g => (g - gs.sum / gs.length) ^ 2).sum / gs.length <
      (8 / 100 * max 1 (gs.sum / gs.length)) ^ 2

theorem cv_lt_iff {v m : ℝ} : √v / max 1 m < 8 / 100 ↔ v < (8 / 100 * max 1 m) ^ 2 := by
  have hm : 0 < max 1 m := lt_max_of_lt_left one_pos
  rw [div_lt_iff₀ hm, Real.sqrt_lt' (by positivity)]

theorem record_true {a : Analyzer} {now : ℝ} (hl : a.window ≤ (a.advance now).length)
    (hr : RegularGaps (a.advance now)) :
    a.record now = (true, { a with gaps := [], last := now }) := by
  have hl' : ¬ (a.advance now).length < a.window := Nat.not_lt.mpr hl
  have hm : ¬ (a.advance now).sum / (a.advance now).length > 20000 := not_lt.mpr hr.1
  unfold record
  dsimp only
  exact (if_neg hl').trans ((if_neg hm).trans (if_pos (cv_lt_iff.mpr hr.2)))

theorem record_false {a : Analyzer} {now : ℝ}
    (h : ¬ (a.window ≤ (a.advance now).length ∧ RegularGaps (a.advance now))) :
    a.record now = (false, { a with gaps := a.advance now, last := now }) := by
  unfold record
  dsimp only
  by_cases hl : (a.advance now).length < a.window
  · exact if_pos hl
  · by_cases hm : (a.advance now).sum / (a.advance now).length > 20000
    · exact (if_neg hl).trans (if_pos hm)
    · refine (if_neg hl).trans ((if_neg hm).trans (if_neg fun hcv => ?_))
      exact h ⟨not_lt.mp hl, not_lt.mp hm, cv_lt_iff.mp hcv⟩

/-! ### The window -/

/-- The gaps from the `a`-th on that have ended at the `i`-th time. -/
def gapsFrom (t : ℕ → ℝ) (a i : ℕ) : List ℝ := (List.Ico a i).map (gap t)

theorem sum_gapsFrom (t : ℕ → ℝ) (a i : ℕ) (f : ℝ → ℝ) :
    ((gapsFrom t a i).map f).sum = ∑ k ∈ Ico a i, f (gap t k) := by
  rw [gapsFrom, List.map_map]
  rfl

theorem length_gapsFrom (t : ℕ → ℝ) (a i : ℕ) : (gapsFrom t a i).length = i - a := by
  rw [gapsFrom, List.length_map, List.Ico.length]

/-- A full window is tested as the specification has it. -/
theorem regularGaps_iff {n : ℕ} {t : ℕ → ℝ} {a i : ℕ} (ha : i = a + n) :
    RegularGaps (gapsFrom t a i) ↔ Regular n t i := by
  have hlen : (gapsFrom t a i).length = n := by
    rw [length_gapsFrom]
    omega
  have hstart : i - n = a := by omega
  have hsum : (gapsFrom t a i).sum = ∑ k ∈ Ico a i, gap t k := by
    rw [← sum_gapsFrom t a i fun g => g, List.map_id']
  unfold RegularGaps Regular variance mean
  rw [hlen, hstart, sum_gapsFrom, hsum]

/-- What an analyzer holds at the `i`-th time: the gaps from `start` on, where `start` lies behind
every answer of true and no more than the window back; if it is nearer, it is the start or the last
answer. -/
structure Holds (n : ℕ) (t : ℕ → ℝ) (i start : ℕ) (x : Analyzer) : Prop where
  window : x.window = n
  last : x.last = t i
  gaps : x.gaps = gapsFrom t start i
  start_le : start ≤ i
  within : i ≤ start + n
  answers : ∀ j ≤ i, answered n t j = true → j ≤ start
  short : i < start + n → start = 0 ∨ answered n t start = true

/-- The window is full if and only if enough gaps have ended since the last answer of true. -/
theorem Holds.full_iff {n : ℕ} {t : ℕ → ℝ} {i start : ℕ} {x : Analyzer} (h : Holds n t i start x)
    {start' : ℕ} (hs : start' = start ∨ start' = start + 1 ∧ i + 1 = start' + n)
    (hle : i + 1 ≤ start' + n) :
    i + 1 = start' + n ↔
      n ≤ i + 1 ∧ ∀ j < i + 1, answered n t j = true → j + n ≤ i + 1 := by
  constructor
  · intro he
    refine ⟨by omega, fun j hj ha => ?_⟩
    have := h.answers j (Nat.lt_succ_iff.mp hj) ha
    omega
  · rintro ⟨hn, hj⟩
    by_contra hne
    obtain rfl : start' = start := hs.resolve_right fun hs => hne hs.2
    rcases h.short (by omega) with h0 | ha
    · omega
    · have := hj start' (by have := h.start_le; omega) ha
      omega

theorem Holds.advance {n : ℕ} {t : ℕ → ℝ} {i start : ℕ} {x : Analyzer} (h : Holds n t i start x)
    (ht : t i ≠ 0) : ∃ start', x.advance (t (i + 1)) = gapsFrom t start' (i + 1) ∧
      (start' = start ∨ start' = start + 1 ∧ i + 1 = start' + n) ∧ start' ≤ i + 1 ∧
      i + 1 ≤ start' + n := by
  have hlen : x.gaps.length = i - start := by rw [h.gaps, length_gapsFrom]
  have hle := h.start_le
  have hw := h.within
  have hsnoc : x.gaps ++ [t (i + 1) - x.last] = gapsFrom t start (i + 1) := by
    rw [h.gaps, h.last, gapsFrom, gapsFrom, List.Ico.succ_top hle, List.map_append]
    rfl
  unfold Analyzer.advance
  rw [h.last, if_pos ht]
  dsimp only
  rw [← h.last, hsnoc, length_gapsFrom, h.window]
  by_cases hfull : i + 1 - start > n
  · refine ⟨start + 1, ?_, Or.inr ⟨rfl, by omega⟩, by omega, by omega⟩
    rw [if_pos hfull, gapsFrom, List.Ico.eq_cons (by omega)]
    rfl
  · exact ⟨start, if_neg hfull, Or.inl rfl, by omega, by omega⟩

theorem holds_zero {n : ℕ} (hn : 1 ≤ n) (t : ℕ → ℝ) :
    answered n t 0 = false ∧ Holds n t 0 0 (run n t 0).2 := by
  have hadv : (new n).advance (t 0) = [] := if_neg fun h => h rfl
  have hrec := @record_false (new n) (t 0) fun h => by
    rw [hadv] at h
    exact absurd (hn.trans h.1) (by decide)
  have hrun : run n t 0 = (false, { new n with gaps := [], last := t 0 }) := by
    rw [← hadv]
    exact hrec
  have hans : answered n t 0 = false := congrArg Prod.fst hrun
  refine ⟨hans, ?_⟩
  rw [hrun]
  exact {
    window := rfl
    last := rfl
    gaps := rfl
    start_le := le_rfl
    within := Nat.zero_le _
    answers := fun j hj _ => hj
    short := fun _ => Or.inl rfl }

/-- One message: it is answered by the specification, and the window moves on. -/
theorem Holds.step {n : ℕ} {t : ℕ → ℝ} {i start : ℕ}
    (h : Holds n t i start (run n t i).2) (ht : t i ≠ 0) :
    (answered n t (i + 1) = true ↔
        (n ≤ i + 1 ∧ ∀ j < i + 1, answered n t j = true → j + n ≤ i + 1) ∧ Regular n t (i + 1)) ∧
      ∃ start', Holds n t (i + 1) start' (run n t (i + 1)).2 := by
  obtain ⟨start', hadv, hs, hle, hwithin⟩ := h.advance ht
  have hrun : run n t (i + 1) = (run n t i).2.record (t (i + 1)) := rfl
  have hfull := h.full_iff hs hwithin
  have htest : ((run n t i).2.window ≤ ((run n t i).2.advance (t (i + 1))).length ∧
      RegularGaps ((run n t i).2.advance (t (i + 1)))) ↔
        i + 1 = start' + n ∧ Regular n t (i + 1) := by
    rw [hadv, length_gapsFrom, h.window]
    constructor
    · rintro ⟨hl, hr⟩
      have he : i + 1 = start' + n := by omega
      exact ⟨he, (regularGaps_iff he).mp hr⟩
    · rintro ⟨he, hr⟩
      exact ⟨by omega, (regularGaps_iff he).mpr hr⟩
  -- the answers up to now lie behind the window
  have hbehind : ∀ j ≤ i, answered n t j = true → j ≤ start' := by
    intro j hj ha
    have := h.answers j hj ha
    omega
  by_cases hfire : i + 1 = start' + n ∧ Regular n t (i + 1)
  · obtain ⟨hl, hr⟩ := htest.mpr hfire
    have hrec := hrun.trans (record_true hl hr)
    have hans : answered n t (i + 1) = true := congrArg Prod.fst hrec
    refine ⟨⟨fun _ => ⟨hfull.mp hfire.1, hfire.2⟩, fun _ => hans⟩, i + 1, ?_⟩
    rw [hrec]
    exact {
      window := h.window
      last := rfl
      gaps := by
        show ([] : List ℝ) = gapsFrom t (i + 1) (i + 1)
        rw [gapsFrom, List.Ico.self_empty]
        rfl
      start_le := le_rfl
      within := Nat.le_add_right _ _
      answers := fun j hj _ => hj
      short := fun _ => Or.inr hans }
  · have hrec := hrun.trans (record_false fun hc => hfire (htest.mp hc))
    have hans : answered n t (i + 1) = false := congrArg Prod.fst hrec
    refine ⟨?_, start', ?_⟩
    · rw [hans]
      exact ⟨Bool.noConfusion, fun hc => absurd ⟨hfull.mpr hc.1, hc.2⟩ hfire⟩
    · rw [hrec]
      exact {
        window := h.window
        last := rfl
        gaps := hadv
        start_le := hle
        within := hwithin
        answers := fun j hj ha => by
          rcases Nat.lt_or_eq_of_le hj with hj | rfl
          · exact hbehind j (Nat.lt_succ_iff.mp hj) ha
          · rw [hans] at ha
            cases ha
        short := fun hlt => by
          obtain rfl : start' = start := hs.resolve_right fun hs => by omega
          exact h.short (by omega) }

theorem exists_holds {n : ℕ} (hn : 1 ≤ n) {t : ℕ → ℝ} (ht : ∀ i, 0 < t i) (i : ℕ) :
    ∃ start, Holds n t i start (run n t i).2 := by
  induction i with
  | zero => exact ⟨0, (holds_zero hn t).2⟩
  | succ i ih =>
      obtain ⟨start, h⟩ := ih
      exact (h.step (ht i).ne').2

/-! ### A whole sequence -/

theorem answered_spec {n : ℕ} (hn : 1 ≤ n) {t : ℕ → ℝ} (ht : ∀ i, 0 < t i) (i : ℕ) :
    answered n t i = true ↔
      (n ≤ i ∧ ∀ j < i, answered n t j = true → j + n ≤ i) ∧ Regular n t i := by
  cases i with
  | zero =>
      rw [(holds_zero hn t).1]
      exact ⟨Bool.noConfusion, fun h => absurd (hn.trans h.1.1) (by decide)⟩
  | succ i =>
      obtain ⟨start, h⟩ := exists_holds hn ht i
      exact (h.step (ht i).ne').1

/-- Evenly spaced messages are regular. -/
theorem regular_of_even {n : ℕ} (hn : 1 ≤ n) {t : ℕ → ℝ} {a : ℕ} {d : ℝ} (hd : d ≤ 20000)
    (h : ∀ k < n, gap t (a + k) = d) : Regular n t (a + n) := by
  have hgap : ∀ k ∈ Ico (a + n - n) (a + n), gap t k = d := by
    intro k hk
    rw [Nat.add_sub_cancel, mem_Ico] at hk
    obtain ⟨j, rfl⟩ := Nat.exists_eq_add_of_le hk.1
    exact h j (by omega)
  have hn0 : (n : ℝ) ≠ 0 := Nat.cast_ne_zero.mpr (by omega)
  have hcard : ((Ico (a + n - n) (a + n)).card : ℝ) = n := by
    rw [Nat.card_Ico]
    congr 1
    omega
  have hmean : mean n t (a + n) = d := by
    rw [mean, sum_congr rfl hgap, sum_const, nsmul_eq_mul, hcard]
    field_simp
  have hvar : variance n t (a + n) = 0 := by
    have hzero : ∀ k ∈ Ico (a + n - n) (a + n), (gap t k - mean n t (a + n)) ^ 2 = 0 := by
      intro k hk
      rw [hgap k hk, hmean, sub_self]
      exact zero_pow two_ne_zero
    rw [variance, sum_eq_zero hzero, zero_div]
  refine ⟨hmean.le.trans hd, ?_⟩
  rw [hvar]
  have hm : 0 < max 1 (mean n t (a + n)) := lt_max_of_lt_left one_pos
  positivity

/-- **The cadence.** `record` answers true exactly if at least `n` gaps have ended since its last
such answer (or since the start) and the last `n` of them are regular. So two such answers are at
least `n` messages apart, and every evenly spaced run of `n + 1` messages, at most 20 seconds apart,
has one. -/
theorem answered_iff (n : ℕ) (hn : 1 ≤ n) (t : ℕ → ℝ) (ht : ∀ i, 0 < t i) :
    (∀ i, answered n t i = true ↔
      (n ≤ i ∧ ∀ j < i, answered n t j = true → j + n ≤ i) ∧ Regular n t i) ∧
    (∀ i j, i < j → answered n t i = true → answered n t j = true → i + n ≤ j) ∧
    ∀ a d, d ≤ 20000 → (∀ k < n, gap t (a + k) = d) → ∃ k ≤ n, answered n t (a + k) = true := by
  have hspec := answered_spec hn ht
  refine ⟨hspec, fun i j hij hi hj => ((hspec j).mp hj).1.2 i hij hi, fun a d hd heven => ?_⟩
  by_contra hno
  refine hno ⟨n, le_rfl, (hspec (a + n)).mpr ⟨⟨by omega, fun j hj ha => ?_⟩,
    regular_of_even hn hd heven⟩⟩
  by_contra hlt
  obtain ⟨k, rfl⟩ := Nat.exists_eq_add_of_le (show a ≤ j by omega)
  exact hno ⟨k, by omega, ha⟩

/-- A message each second: the third one ends two equal gaps. -/
theorem answered_iff_steady : answered 2 (fun i => 1000 * (i + 1)) 2 = true ∧
    answered 2 (fun i => 1000 * (i + 1)) 3 = false := by
  have h := answered_iff 2 (by decide) (fun i => 1000 * ((i : ℝ) + 1)) fun i => by positivity
  have hgap : ∀ k, gap (fun i => 1000 * ((i : ℝ) + 1)) k = 1000 := by
    intro k
    unfold gap
    push_cast
    ring
  have hno : ∀ i, i < 2 → answered 2 (fun i => 1000 * ((i : ℝ) + 1)) i = false := by
    intro i hi
    rw [← Bool.not_eq_true]
    intro ha
    have := ((h.1 i).mp ha).1.1
    omega
  obtain ⟨k, hk, ha⟩ := h.2.2 0 1000 (by norm_num) fun k _ => hgap _
  rw [Nat.zero_add] at ha
  obtain rfl : k = 2 := by
    by_contra hne
    rw [hno k (by omega)] at ha
    cases ha
  refine ⟨ha, ?_⟩
  rw [← Bool.not_eq_true]
  intro h3
  have := h.2.1 2 3 (by decide) ha h3
  omega

end Analyzer

/-! ### The server's analyzer -/

namespace TimingAnalyzer

/-- The analyzer of a connection, whose times are whole milliseconds. -/
def toAnalyzer (a : TimingAnalyzer) : Analyzer :=
  { window := a.window, gaps := a.gaps.map fun g : ℤ => (g : ℝ), last := a.last }

theorem advance_toAnalyzer (a : TimingAnalyzer) (now : ℤ) :
    a.toAnalyzer.advance now = (if a.last ≠ 0 then
      let g := a.gaps ++ [now - a.last]
      if g.length > a.window then g.tail else g
    else a.gaps).map fun g : ℤ => (g : ℝ) := by
  have happ : (a.gaps.map fun g : ℤ => (g : ℝ)) ++ [(now : ℝ) - (a.last : ℝ)] =
      (a.gaps ++ [now - a.last]).map fun g : ℤ => (g : ℝ) := by
    rw [List.map_append]
    simp
  unfold Analyzer.advance toAnalyzer
  dsimp only
  rw [happ, List.length_map, ← List.map_tail]
  by_cases hl : a.last = 0
  · rw [if_neg (fun h => h (by rw [hl, Int.cast_zero])), if_neg (fun h => h hl)]
  · rw [if_pos (by exact_mod_cast hl), if_pos hl]
    split_ifs <;> rfl

theorem regularGaps_cast (gs : List ℤ) :
    Analyzer.RegularGaps (gs.map fun g : ℤ => (g : ℝ)) ↔
      ¬ (gs.map fun g : ℤ => (g : ℚ)).sum / gs.length > 20000 ∧
        (gs.map fun g : ℤ => ((g : ℚ) - (gs.map fun g : ℤ => (g : ℚ)).sum / gs.length) ^ 2).sum /
          gs.length < (8 / 100 * max 1 ((gs.map fun g : ℤ => (g : ℚ)).sum / gs.length)) ^ 2 := by
  have hsum : ∀ f : ℤ → ℚ,
      (((gs.map f).sum : ℚ) : ℝ) = (gs.map fun g : ℤ => ((f g : ℚ) : ℝ)).sum := by
    intro f
    induction gs with
    | nil => simp
    | cons g gs ih => rw [List.map_cons, List.sum_cons, Rat.cast_add, ih]; rfl
  have hmean : (((gs.map fun g : ℤ => (g : ℚ)).sum / gs.length : ℚ) : ℝ) =
      (gs.map fun g : ℤ => (g : ℝ)).sum / gs.length := by
    rw [Rat.cast_div, hsum]
    simp
  unfold Analyzer.RegularGaps
  rw [List.length_map, List.map_map, ← hmean, not_lt]
  generalize (gs.map fun g : ℤ => (g : ℚ)).sum / gs.length = m
  refine and_congr (by exact_mod_cast Iff.rfl) ?_
  have hvar : (((gs.map fun g : ℤ => ((g : ℚ) - m) ^ 2).sum / gs.length : ℚ) : ℝ) =
      (gs.map ((fun g => (g - (m : ℝ)) ^ 2) ∘ fun g : ℤ => (g : ℝ))).sum / gs.length := by
    rw [Rat.cast_div, hsum, Rat.cast_natCast]
    refine congrArg (· / (gs.length : ℝ)) (congrArg List.sum (List.map_congr_left fun g _ => ?_))
    rw [Rat.cast_pow, Rat.cast_sub, Rat.cast_intCast]
    rfl
  have hbound : (8 / 100 * max 1 (m : ℝ)) ^ 2 = (((8 / 100 * max 1 m) ^ 2 : ℚ) : ℝ) := by
    push_cast
    rfl
  rw [← hvar, hbound, Rat.cast_lt]

/-- On whole milliseconds the analyzer of the model, which squares the comparison, answers as the
one of the source does. -/
theorem record_toAnalyzer (a : TimingAnalyzer) (now : ℤ) :
    a.toAnalyzer.record now = ((a.record now).1, (a.record now).2.toAnalyzer) := by
  have hadv := a.advance_toAnalyzer now
  have hreg := regularGaps_cast (if a.last ≠ 0 then
      let g := a.gaps ++ [now - a.last]
      if g.length > a.window then g.tail else g
    else a.gaps)
  rw [← hadv] at hreg
  unfold TimingAnalyzer.record
  dsimp only at hadv hreg ⊢
  generalize (if a.last ≠ 0 then
      if (a.gaps ++ [now - a.last]).length > a.window then (a.gaps ++ [now - a.last]).tail
      else a.gaps ++ [now - a.last]
    else a.gaps) = gs at hadv hreg ⊢
  have hcast : (do let g ← gs; pure (g : ℚ)) = gs.map fun g : ℤ => (g : ℚ) := bind_pure_comp _ _
  simp only [hcast, List.map_map, Function.comp_def]
  have hlen : (a.toAnalyzer.advance now).length = gs.length := by rw [hadv, List.length_map]
  by_cases hl : gs.length < a.window
  · rw [if_pos hl, Analyzer.record_false fun h => ?_, hadv]
    · rfl
    · rw [hlen] at h
      exact absurd h.1 (Nat.not_le.mpr hl)
  · rw [if_neg hl]
    by_cases hm : (gs.map fun g : ℤ => (g : ℚ)).sum / gs.length > 20000
    · rw [if_pos hm, Analyzer.record_false fun h => (hreg.mp h.2).1 hm, hadv]
      rfl
    · rw [if_neg hm]
      split_ifs with hv
      · rw [Analyzer.record_true (by rw [hlen]; exact Nat.not_lt.mp hl) (hreg.mpr ⟨hm, hv⟩)]
        rfl
      · rw [Analyzer.record_false fun h => hv (hreg.mp h.2).2, hadv]
        rfl

end TimingAnalyzer

end RoomBackend.Suspicion
