import Mathlib.Algebra.Order.Floor.Ring
import Mathlib.Data.Int.Log
import Mathlib.Data.Rat.Floor
import Mathlib.Tactic.FieldSimp
import Mathlib.Tactic.Linarith
import Mathlib.Tactic.Positivity
import Mathlib.Tactic.Ring

/-! # Rounded arithmetic

A machine computes with numbers of which only some are representable: it rounds the exact result
of every operation to one of them. `Rounding` is what is used of such an arithmetic, for numbers
that are not negative. Exact arithmetic is one, and so are the doubles of IEEE 754 (`binary64`,
without a bound on the exponents). -/

namespace RoomBackend

/-- A way to round the results of operations; `grow` bounds the part by which it changes them. -/
structure Rounding where
  fl : ℚ → ℚ
  grow : ℚ
  mono : ∀ x y, 0 ≤ x → x ≤ y → fl x ≤ fl y
  idem : ∀ x, 0 ≤ x → fl (fl x) = fl x
  pos : ∀ x, 0 < x → 0 < fl x
  natCast : ∀ n : ℕ, n < 2 ^ 53 → fl n = n
  one_le_grow : 1 ≤ grow
  le_grow : ∀ x, 0 ≤ x → fl x ≤ x * grow
  le_mul_grow : ∀ x, 0 ≤ x → x ≤ fl x * grow
  sub_one : ∀ x, 1 ≤ x → x < 2 ^ 53 → fl x = x → fl (x - 1) = x - 1

namespace Rounding

instance : CoeFun Rounding fun _ => ℚ → ℚ := ⟨fl⟩

section laws

variable (r : Rounding) {x : ℚ}

@[simp] theorem zero : r 0 = 0 := by
  have h := r.natCast 0 (by norm_num)
  rwa [Nat.cast_zero] at h

theorem nonneg (hx : 0 ≤ x) : 0 ≤ r x := by
  have h := r.mono 0 x le_rfl hx
  rwa [zero] at h

end laws

/-! ### Errors -/

/-- Neither of two numbers is more than `g` times the other. -/
structure Near (g x y : ℚ) : Prop where
  one_le : 1 ≤ g
  left : 0 ≤ x
  right : 0 ≤ y
  le : y ≤ x * g
  ge : x ≤ y * g

section near

variable {g g' x y x' y' : ℚ}

theorem near_self (hg : 1 ≤ g) (hx : 0 ≤ x) : Near g x x :=
  ⟨hg, hx, hx, le_mul_of_one_le_right hx hg, le_mul_of_one_le_right hx hg⟩

theorem near_round (r : Rounding) (hx : 0 ≤ x) : Near r.grow x (r x) :=
  ⟨r.one_le_grow, hx, r.nonneg hx, r.le_grow x hx, r.le_mul_grow x hx⟩

theorem Near.trans {z : ℚ} (h : Near g x y) (h' : Near g' y z) : Near (g * g') x z := by
  have hg : 0 ≤ g := zero_le_one.trans h.one_le
  have hg' : 0 ≤ g' := zero_le_one.trans h'.one_le
  refine ⟨one_le_mul_of_one_le_of_one_le h.one_le h'.one_le, h.left, h'.right, ?_, ?_⟩
  · calc z ≤ y * g' := h'.le
      _ ≤ x * g * g' := mul_le_mul_of_nonneg_right h.le hg'
      _ = x * (g * g') := mul_assoc x g g'
  · calc x ≤ y * g := h.ge
      _ ≤ z * g' * g := mul_le_mul_of_nonneg_right h'.ge hg
      _ = z * (g * g') := by ring

/-- An operation that is rounded. -/
theorem Near.round (h : Near g x y) (r : Rounding) : Near (g * r.grow) x (r y) :=
  h.trans (near_round r h.right)

theorem Near.mul (h : Near g x y) (h' : Near g' x' y') : Near (g * g') (x * x') (y * y') := by
  have hg : 0 ≤ g := zero_le_one.trans h.one_le
  refine ⟨one_le_mul_of_one_le_of_one_le h.one_le h'.one_le, mul_nonneg h.left h'.left,
    mul_nonneg h.right h'.right, ?_, ?_⟩
  · calc y * y' ≤ x * g * (x' * g') :=
          mul_le_mul h.le h'.le h'.right (mul_nonneg h.left hg)
      _ = x * x' * (g * g') := by ring
  · calc x * x' ≤ y * g * (y' * g') :=
          mul_le_mul h.ge h'.ge h'.left (mul_nonneg h.right hg)
      _ = y * y' * (g * g') := by ring

theorem Near.add (h : Near g x y) (h' : Near g x' y') : Near g (x + x') (y + y') := by
  refine ⟨h.one_le, add_nonneg h.left h'.left, add_nonneg h.right h'.right, ?_, ?_⟩
  · rw [add_mul]
    exact add_le_add h.le h'.le
  · rw [add_mul]
    exact add_le_add h.ge h'.ge

theorem Near.min (h : Near g x y) (h' : Near g x' y') : Near g (min x x') (min y y') := by
  have hg : 0 ≤ g := zero_le_one.trans h.one_le
  refine ⟨h.one_le, le_min h.left h'.left, le_min h.right h'.right, ?_, ?_⟩
  · rw [min_mul_of_nonneg _ _ hg]
    exact min_le_min h.le h'.le
  · rw [min_mul_of_nonneg _ _ hg]
    exact min_le_min h.ge h'.ge

end near

/-- Nothing is rounded. -/
def exact : Rounding :=
  { fl := id
    grow := 1
    mono := fun _ _ _ h => h
    idem := fun _ _ => rfl
    pos := fun _ h => h
    natCast := fun _ _ => rfl
    one_le_grow := le_rfl
    le_grow := fun x _ => (mul_one x).ge
    le_mul_grow := fun x _ => (mul_one x).ge
    sub_one := fun _ _ _ _ => rfl }

@[simp] theorem exact_apply (x : ℚ) : exact x = x := rfl

@[simp] theorem grow_exact : exact.grow = 1 := rfl

/-! ### Doubles -/

/-- The nearest integer; of two, the even one. -/
def nearest (x : ℚ) : ℤ :=
  let n := ⌊x⌋
  if x - n < 1 / 2 then n
  else if 1 / 2 < x - n then n + 1
  else if n % 2 = 0 then n
  else n + 1

theorem floor_le_nearest (x : ℚ) : ⌊x⌋ ≤ nearest x := by
  unfold nearest
  dsimp only
  split_ifs <;> omega

theorem nearest_le_floor (x : ℚ) : nearest x ≤ ⌊x⌋ + 1 := by
  unfold nearest
  dsimp only
  split_ifs <;> omega

theorem nearest_intCast (n : ℤ) : nearest n = n := by
  unfold nearest
  dsimp only
  rw [Int.floor_intCast, sub_self, if_pos (by norm_num)]

theorem nearest_mono {x y : ℚ} (h : x ≤ y) : nearest x ≤ nearest y := by
  rcases (Int.floor_mono h).lt_or_eq with hlt | heq
  · -- there is an integer between them
    have hx := nearest_le_floor x
    have hy := floor_le_nearest y
    omega
  · unfold nearest
    dsimp only
    rw [heq]
    split_ifs <;> first | omega | linarith

/-- The distance of the doubles next to a number: their significands have 53 binary digits. -/
def spacing (x : ℚ) : ℚ := 2 ^ (Int.log 2 |x| - 52)

/-- The nearest double. -/
def toDouble (x : ℚ) : ℚ := nearest (x / spacing x) * spacing x

theorem spacing_pos (x : ℚ) : 0 < spacing x := zpow_pos two_pos _

theorem toDouble_zero : toDouble 0 = 0 := by
  have h := nearest_intCast 0
  rw [Int.cast_zero] at h
  rw [toDouble, zero_div, h, Int.cast_zero, zero_mul]

section positive

variable {x y : ℚ}

/-- The doubles next to a number have a significand of 53 binary digits. -/
theorem spacing_mul_le (hx : 0 < x) : 2 ^ 52 * spacing x ≤ x := by
  have h := Int.zpow_log_le_self (b := 2) one_lt_two hx
  push_cast at h
  have he : (2 : ℚ) ^ (52 : ℤ) * 2 ^ (Int.log 2 x - 52) = 2 ^ Int.log 2 x := by
    rw [← zpow_add₀ two_ne_zero, add_sub_cancel]
  rw [spacing, abs_of_pos hx]
  exact_mod_cast he.le.trans h

theorem lt_spacing_mul (hx : 0 < x) : x < 2 ^ 53 * spacing x := by
  have h := Int.lt_zpow_succ_log_self (b := 2) one_lt_two x
  push_cast at h
  have he : (2 : ℚ) ^ (53 : ℤ) * 2 ^ (Int.log 2 x - 52) = 2 ^ (Int.log 2 x + 1) := by
    rw [← zpow_add₀ two_ne_zero]
    congr 1
    omega
  rw [spacing, abs_of_pos hx]
  exact_mod_cast h.trans_eq he.symm

/-- Of two numbers of the same magnitude the distance is the same, else that of the greater one is
at least twice as large. -/
theorem spacing_cases (hx : 0 < x) (h : x ≤ y) :
    spacing y = spacing x ∨ 2 * spacing x ≤ spacing y := by
  have hy : 0 < y := hx.trans_le h
  have hlog : Int.log 2 x ≤ Int.log 2 y := Int.log_mono_right hx h
  rw [spacing, spacing, abs_of_pos hx, abs_of_pos hy]
  rcases hlog.eq_or_lt with he | hlt
  · exact Or.inl (by rw [he])
  · refine Or.inr ?_
    rw [← zpow_one_add₀ two_ne_zero]
    exact zpow_le_zpow_right₀ one_le_two (by omega)

theorem le_nearest (hx : 0 < x) : 2 ^ 52 ≤ nearest (x / spacing x) := by
  have h : ((2 ^ 52 : ℤ) : ℚ) ≤ x / spacing x := by
    rw [le_div_iff₀ (spacing_pos x)]
    exact_mod_cast spacing_mul_le hx
  rw [← nearest_intCast (2 ^ 52)]
  exact nearest_mono h

theorem nearest_le (hx : 0 < x) : nearest (x / spacing x) ≤ 2 ^ 53 := by
  have h : x / spacing x ≤ ((2 ^ 53 : ℤ) : ℚ) := by
    rw [div_le_iff₀ (spacing_pos x)]
    exact_mod_cast (lt_spacing_mul hx).le
  rw [← nearest_intCast (2 ^ 53)]
  exact nearest_mono h

theorem le_toDouble (hx : 0 < x) : 2 ^ 52 * spacing x ≤ toDouble x := by
  have h : ((2 ^ 52 : ℤ) : ℚ) ≤ nearest (x / spacing x) := Int.cast_le.mpr (le_nearest hx)
  exact mul_le_mul_of_nonneg_right (by exact_mod_cast h) (spacing_pos x).le

theorem toDouble_le (hx : 0 < x) : toDouble x ≤ 2 ^ 53 * spacing x := by
  have h : (nearest (x / spacing x) : ℚ) ≤ (2 ^ 53 : ℤ) := Int.cast_le.mpr (nearest_le hx)
  exact mul_le_mul_of_nonneg_right (by exact_mod_cast h) (spacing_pos x).le

theorem toDouble_pos (hx : 0 < x) : 0 < toDouble x :=
  lt_of_lt_of_le (mul_pos (by norm_num) (spacing_pos x)) (le_toDouble hx)

theorem toDouble_le_grow (hx : 0 < x) : toDouble x ≤ x * (1 + 1 / 2 ^ 52) := by
  have hn : (nearest (x / spacing x) : ℚ) ≤ x / spacing x + 1 := by
    have h : (nearest (x / spacing x) : ℚ) ≤ ⌊x / spacing x⌋ + 1 := by
      exact_mod_cast nearest_le_floor (x / spacing x)
    exact h.trans (add_le_add_left (Int.floor_le _) 1)
  have hs := spacing_pos x
  calc toDouble x ≤ (x / spacing x + 1) * spacing x := mul_le_mul_of_nonneg_right hn hs.le
    _ = x + spacing x := by rw [add_mul, div_mul_cancel₀ _ hs.ne', one_mul]
    _ ≤ x * (1 + 1 / 2 ^ 52) := by
      have := spacing_mul_le hx
      linarith

theorem le_toDouble_grow (hx : 0 < x) : x ≤ toDouble x * (1 + 1 / 2 ^ 52) := by
  have hn : x / spacing x - 1 ≤ nearest (x / spacing x) := by
    have h : (⌊x / spacing x⌋ : ℚ) ≤ nearest (x / spacing x) := by
      exact_mod_cast floor_le_nearest (x / spacing x)
    exact (Int.sub_one_lt_floor _).le.trans h
  have hs := spacing_pos x
  have hx' : x - spacing x ≤ toDouble x := by
    calc x - spacing x = (x / spacing x - 1) * spacing x := by
          rw [sub_mul, div_mul_cancel₀ _ hs.ne', one_mul]
      _ ≤ toDouble x := mul_le_mul_of_nonneg_right hn hs.le
  have hle := le_toDouble hx
  linarith

theorem toDouble_mono (hx : 0 < x) (h : x ≤ y) : toDouble x ≤ toDouble y := by
  rcases spacing_cases hx h with he | hle
  · -- the two are rounded to multiples of the same distance
    have hn : nearest (x / spacing x) ≤ nearest (y / spacing x) :=
      nearest_mono (div_le_div_of_nonneg_right h (spacing_pos x).le)
    rw [toDouble, toDouble, he]
    exact mul_le_mul_of_nonneg_right (Int.cast_le.mpr hn) (spacing_pos x).le
  · -- there is a power of two between them
    have hx' := toDouble_le hx
    have hy' := le_toDouble (hx.trans_le h)
    linarith

/-- A multiple of the distance at it is a double. -/
theorem toDouble_eq_self {m : ℤ} (h : x = m * spacing x) : toDouble x = x := by
  have hd : x / spacing x = m := (div_eq_iff (spacing_pos x).ne').mpr h
  rw [toDouble, hd, nearest_intCast]
  exact h.symm

/-- A larger double is a multiple of the distance at a smaller number. -/
theorem exists_mul_spacing (hy : 0 < y) (h : y ≤ x) (hx : toDouble x = x) :
    ∃ m : ℤ, x = m * spacing y := by
  have hlog : Int.log 2 y ≤ Int.log 2 x := Int.log_mono_right hy h
  have hs : spacing x = 2 ^ (Int.log 2 x - Int.log 2 y).toNat * spacing y := by
    rw [spacing, spacing, abs_of_pos hy, abs_of_pos (hy.trans_le h), ← zpow_natCast,
      ← zpow_add₀ two_ne_zero]
    congr 1
    omega
  refine ⟨nearest (x / spacing x) * 2 ^ (Int.log 2 x - Int.log 2 y).toNat, ?_⟩
  push_cast
  rw [mul_assoc, ← hs]
  exact hx.symm

/-- One is a multiple of the distance at a number that is not too large. -/
theorem exists_mul_spacing_one (hy : 0 < y) (h : y < 2 ^ 53) : ∃ m : ℤ, 1 = m * spacing y := by
  have hlog : Int.log 2 y < 53 := by
    refine (Int.lt_zpow_iff_log_lt one_lt_two hy).mp ?_
    exact_mod_cast h
  refine ⟨2 ^ (52 - Int.log 2 y).toNat, ?_⟩
  push_cast
  rw [spacing, abs_of_pos hy, ← zpow_natCast, ← zpow_add₀ two_ne_zero]
  rw [show ((52 - Int.log 2 y).toNat : ℤ) + (Int.log 2 y - 52) = 0 by omega, zpow_zero]

theorem toDouble_sub_one (hx : 1 ≤ x) (hlt : x < 2 ^ 53) (h : toDouble x = x) :
    toDouble (x - 1) = x - 1 := by
  rcases hx.eq_or_lt with rfl | hx
  · rw [sub_self, toDouble_zero]
  · have hpos : 0 < x - 1 := sub_pos.mpr hx
    have hle : x - 1 ≤ x := sub_le_self x zero_le_one
    obtain ⟨m, hm⟩ := exists_mul_spacing hpos hle h
    obtain ⟨n, hn⟩ := exists_mul_spacing_one hpos (hle.trans_lt hlt)
    refine toDouble_eq_self (m := m - n) ?_
    push_cast
    rw [sub_mul, ← hm, ← hn]

theorem spacing_eq {e : ℤ} (hx : 0 < x) (hl : 2 ^ 52 * 2 ^ e ≤ x) (hu : x < 2 ^ 53 * 2 ^ e) :
    spacing x = 2 ^ e := by
  have hlog : Int.log 2 x = e + 52 := by
    refine le_antisymm ?_ ?_
    · refine Int.lt_add_one_iff.mp ((Int.lt_zpow_iff_log_lt one_lt_two hx).mp ?_)
      push_cast
      rw [show (e + 52 + 1 : ℤ) = 53 + e by ring, zpow_add₀ two_ne_zero]
      exact_mod_cast hu
    · refine (Int.zpow_le_iff_le_log one_lt_two hx).mp ?_
      push_cast
      rw [show (e + 52 : ℤ) = 52 + e by ring, zpow_add₀ two_ne_zero]
      exact_mod_cast hl
  rw [spacing, abs_of_pos hx, hlog, add_sub_cancel_right]

theorem toDouble_toDouble (hx : 0 < x) : toDouble (toDouble x) = toDouble x := by
  have hpos := toDouble_pos hx
  rcases (toDouble_le hx).lt_or_eq with hlt | heq
  · have hs : spacing (toDouble x) = spacing x := spacing_eq hpos (le_toDouble hx) hlt
    refine toDouble_eq_self (m := nearest (x / spacing x)) ?_
    rw [hs]
    rfl
  · -- it is rounded up to a power of two
    have hs : spacing (toDouble x) = 2 ^ (Int.log 2 |x| - 52 + 1) := by
      refine spacing_eq hpos ?_ ?_
      · rw [heq, zpow_add_one₀ two_ne_zero, spacing]
        exact le_of_eq (by ring)
      · rw [heq, zpow_add_one₀ two_ne_zero, spacing]
        have hp : (0 : ℚ) < 2 ^ (Int.log 2 |x| - 52) := spacing_pos x
        linarith
    refine toDouble_eq_self (m := 2 ^ 52) ?_
    rw [hs, heq, zpow_add_one₀ two_ne_zero, spacing]
    push_cast
    ring

end positive

theorem toDouble_natCast {n : ℕ} (hn : n < 2 ^ 53) : toDouble n = n := by
  rcases n.eq_zero_or_pos with rfl | hpos
  · rw [Nat.cast_zero, toDouble_zero]
  · have hle : Nat.log 2 n ≤ 52 := Nat.lt_succ_iff.mp (Nat.log_lt_of_lt_pow hpos.ne' hn)
    refine toDouble_eq_self (m := n * 2 ^ (52 - Nat.log 2 n)) ?_
    have hs : spacing (n : ℚ) = (2 ^ (52 - Nat.log 2 n))⁻¹ := by
      rw [spacing, Nat.abs_cast, Int.log_natCast, ← zpow_natCast, ← zpow_neg]
      congr 1
      omega
    rw [hs]
    push_cast
    rw [mul_assoc, mul_inv_cancel₀ (by positivity), mul_one]

/-- The doubles. -/
def binary64 : Rounding :=
  { fl := toDouble
    grow := 1 + 1 / 2 ^ 52
    mono := by
      intro x y hx h
      rcases hx.eq_or_lt with rfl | hx
      · rw [toDouble_zero]
        rcases h.eq_or_lt with rfl | hy
        · exact toDouble_zero.ge
        · exact (toDouble_pos hy).le
      · exact toDouble_mono hx h
    idem := by
      intro x hx
      rcases hx.eq_or_lt with rfl | hx
      · rw [toDouble_zero, toDouble_zero]
      · exact toDouble_toDouble hx
    pos := fun x => toDouble_pos
    natCast := fun n => toDouble_natCast
    one_le_grow := by norm_num
    le_grow := by
      intro x hx
      rcases hx.eq_or_lt with rfl | hx
      · rw [toDouble_zero, zero_mul]
      · exact toDouble_le_grow hx
    le_mul_grow := by
      intro x hx
      rcases hx.eq_or_lt with rfl | hx
      · rw [toDouble_zero, zero_mul]
      · exact le_toDouble_grow hx
    sub_one := fun _ => toDouble_sub_one }

/-- The sum of the doubles next to a tenth and to two tenths is more than three tenths. -/
example : 3 / 10 < binary64 (binary64 (1 / 10) + binary64 (2 / 10)) := by decide +kernel

end Rounding

end RoomBackend
