import Mathlib.Logic.Function.Basic
import Mathlib.Data.Int.Order.Basic
import RoomBackend.Numerals

/-! # Calendar of the daily room (`room/day.ts`)

The room of an instant is the calendar date of that instant in the room's timezone.
Instants are milliseconds since the Unix epoch. What `Intl.DateTimeFormat` reports for a
timezone is a parameter (`Zone`): the local calendar date and wall-clock time of an instant.
`Date.UTC` and the `Date` getters are the proleptic Gregorian calendar. -/

namespace RoomBackend.Day

open Numerals

/-- `DAY_MS`. -/
def dayMs : ℤ := 86400000

/-- The numeric parts of a formatted instant (`Parts`). -/
structure Parts where
  y : ℤ
  m : ℤ
  d : ℤ
  hh : ℤ
  mm : ℤ
  ss : ℤ
deriving DecidableEq, Repr

/-- What `Intl.DateTimeFormat(tz).formatToParts` reports at an instant. -/
abbrev Zone := ℤ → Parts

/-! ### The Gregorian calendar -/

/-- Days from 1970-01-01 to the date `y-m-d` (`m` from `1`; any `d`). -/
def daysFromCivil (y m d : ℤ) : ℤ :=
  let y := if m ≤ 2 then y - 1 else y
  let era := y / 400
  let yoe := y - era * 400
  let doy := (153 * (if m > 2 then m - 3 else m + 9) + 2) / 5 + d - 1
  let doe := yoe * 365 + yoe / 4 - yoe / 100 + doy
  era * 146097 + doe - 719468

/-- The date `(y, m, d)` that lies `z` days after 1970-01-01. -/
def civilFromDays (z : ℤ) : ℤ × ℤ × ℤ :=
  let z := z + 719468
  let era := z / 146097
  let doe := z - era * 146097
  let yoe := (doe - doe / 1460 + doe / 36524 - doe / 146096) / 365
  let doy := doe - (365 * yoe + yoe / 4 - yoe / 100)
  let mp := (5 * doy + 2) / 153
  let d := doy - (153 * mp + 2) / 5 + 1
  let m := if mp < 10 then mp + 3 else mp - 9
  (if m ≤ 2 then yoe + era * 400 + 1 else yoe + era * 400, m, d)

/-- `Date.UTC(y, monthIndex, d, hh, mm, ss)`: two-digit years are years of the 20th century,
month and day may overflow. -/
def dateUTC (y monthIndex d hh mm ss : ℤ) : ℤ :=
  let y := if 0 ≤ y ∧ y ≤ 99 then 1900 + y else y
  daysFromCivil (y + monthIndex / 12) (monthIndex % 12 + 1) 1 * dayMs + (d - 1) * dayMs
    + hh * 3600000 + mm * 60000 + ss * 1000

/-! ### `day.ts` -/

/-- `partsAt`: an hour reported as 24 is midnight. -/
def partsAt (ts : ℤ) (tz : Zone) : Parts :=
  let p := tz ts
  { p with hh := if p.hh = 24 then 0 else p.hh }

/-- `offsetAt`: offset of the timezone from UTC at an instant. -/
def offsetAt (ts : ℤ) (tz : Zone) : ℤ :=
  let p := partsAt ts tz
  dateUTC p.y (p.m - 1) p.d p.hh p.mm p.ss - ts / 1000 * 1000

/-- `midnightUtc`: UTC instant of the local midnight that starts a calendar date. -/
def midnightUtc (y m d : ℤ) (tz : Zone) : ℤ :=
  let naive := dateUTC y (m - 1) d 0 0 0
  let guess := naive - offsetAt naive tz
  naive - offsetAt guess tz

/-- `String(n).padStart(2, "0")`. -/
def pad2 (n : ℤ) : String :=
  let s := toString n
  if s.length < 2 then "0" ++ s else s

/-- `roomDateAt`. -/
def roomDateAt (ts : ℤ) (tz : Zone) : String :=
  let p := partsAt ts tz
  toString p.y ++ "-" ++ pad2 p.m ++ "-" ++ pad2 p.d

/-- `DailyRoom`: `day` counts from `ROOM_EPOCH_DATE`, which is day 1. -/
structure DailyRoom where
  roomId : String
  day : ℤ
  startsAt : ℤ
  endsAt : ℤ
deriving DecidableEq, Repr

/-- `ROOM_EPOCH_DATE`, split at its dashes. -/
structure EpochDate where
  y : ℤ
  m : ℤ
  d : ℤ
deriving DecidableEq, Repr

/-- `roomAt`: the room of an instant. -/
def roomAt (ts : ℤ) (tz : Zone) (epochDate : EpochDate) : DailyRoom :=
  let p := partsAt ts tz
  let startsAt := midnightUtc p.y p.m p.d tz
  let next := civilFromDays (dateUTC p.y (p.m - 1) (p.d + 1) 0 0 0 / dayMs)
  let endsAt := midnightUtc next.1 next.2.1 next.2.2 tz
  let span := dateUTC p.y (p.m - 1) p.d 0 0 0
    - dateUTC epochDate.y (epochDate.m - 1) epochDate.d 0 0 0
  { roomId := roomDateAt ts tz
    day := (2 * span + dayMs) / (2 * dayMs) + 1
    startsAt := startsAt
    endsAt := endsAt }

/-- The zone `UTC`. -/
def utc : Zone := fun ts =>
  let z := civilFromDays (ts / dayMs)
  let t := ts % dayMs / 1000
  { y := z.1, m := z.2.1, d := z.2.2, hh := t / 3600, mm := t / 60 % 60, ss := t % 60 }

/-- Day 185 of the epoch 2026-03-11 is 2026-09-11, from midnight to midnight. -/
example : roomAt 1789084800000 utc ⟨2026, 3, 11⟩ =
    { roomId := "2026-09-11", day := 185, startsAt := 1789084800000, endsAt := 1789171200000 } := by
  decide +kernel

/-! ### A room is known by its id -/

theorem numeral_pad2 (n : ℤ) : Numeral n (pad2 n).toList := by
  unfold pad2
  dsimp only
  split
  · rename_i hlen
    rw [String.toList_append]
    rcases numeral_toString n with ⟨m, hn, hd⟩ | ⟨m, ds, hn, hm, hl, hd⟩
    · refine Or.inl ⟨m, hn, ⟨by simp, fun c hc => ?_, ?_⟩⟩
      · rcases List.mem_append.mp hc with hc | hc
        · have : c = '0' := by simpa using hc
          rw [this]
          rfl
        · exact hd.digit c hc
      · rw [Nat.ofDigitChars_append]
        exact hd.value
    · -- a negative numeral has two characters at least
      have h2 : (toString n).toList.length < 2 := by rw [String.length_toList]; exact hlen
      rw [hl, List.length_cons] at h2
      have := List.length_pos_iff.mpr hd.ne_nil
      omega
  · exact numeral_toString n

/-- The date is read off the room id. -/
theorem parts_of_roomDateAt {ts ts' : ℤ} {tz : Zone} (h : roomDateAt ts tz = roomDateAt ts' tz) :
    (partsAt ts tz).y = (partsAt ts' tz).y ∧ (partsAt ts tz).m = (partsAt ts' tz).m ∧
      (partsAt ts tz).d = (partsAt ts' tz).d := by
  have hl := congrArg String.toList h
  simp only [roomDateAt, String.toList_append, List.append_assoc] at hl
  have dash : ∀ (xs : List Char), ∀ c ∈ ("-".toList ++ xs).head?, c.isDigit = false := by
    intro xs c hc
    have : '-' = c := by simpa using hc
    rw [← this]
    rfl
  obtain ⟨hy, hl⟩ := numeral_append_inj (numeral_toString _) (numeral_toString _) (dash _) (dash _)
    hl
  obtain ⟨hm, hl⟩ := numeral_append_inj (numeral_pad2 _) (numeral_pad2 _) (dash _) (dash _)
    (List.append_cancel_left hl)
  have hd := List.append_cancel_left hl
  rw [← List.append_nil (pad2 (partsAt ts tz).d).toList,
    ← List.append_nil (pad2 (partsAt ts' tz).d).toList] at hd
  obtain ⟨hd, -⟩ := numeral_append_inj (numeral_pad2 _) (numeral_pad2 _) (by simp) (by simp) hd
  exact ⟨hy, hm, hd⟩

/-- A room is known by its id. -/
theorem roomAt_eq_of_roomId {ts ts' : ℤ} {tz : Zone} {e : EpochDate}
    (h : (roomAt ts tz e).roomId = (roomAt ts' tz e).roomId) :
    roomAt ts tz e = roomAt ts' tz e := by
  obtain ⟨hy, hm, hd⟩ := parts_of_roomDateAt h
  have hid : roomDateAt ts tz = roomDateAt ts' tz := h
  simp only [roomAt, hy, hm, hd, hid]

end RoomBackend.Day
