import Mathlib.Data.List.GetD
import Mathlib.Tactic.IntervalCases
import RoomBackend.Addresses

/-! # Networks

What an address denotes: an IPv4 address, or the upper half of an IPv6 address. `networkKey` is
right about the spellings it was written for (`Plain`). It takes an IPv4-mapped address for an
IPv6 one unless it is spelled `::ffff:d.d.d.d`, and it miscounts the groups behind a double colon
where they are not one for each colon. -/

namespace RoomBackend.Ip

open Texts

/-! ### Numerals -/

def hexValue (c : Char) : ℕ :=
  if c.isDigit then c.toNat - 48 else if digitIn 'a' 'f' c then c.toNat - 87 else c.toNat - 55

/-- The number a group spells. -/
def groupValue (p : List Char) : ℕ := p.foldl (fun n c => 16 * n + hexValue c) 0

/-- The number an octet spells. -/
def octetValue (p : List Char) : ℕ := p.foldl (fun n c => 10 * n + hexValue c) 0

def hexDigit (n : ℕ) : Char := Char.ofNat (if n < 10 then 48 + n else 87 + n)

/-- Four hexadecimal digits. -/
def hex4 (n : ℕ) : List Char :=
  [hexDigit (n / 4096 % 16), hexDigit (n / 256 % 16), hexDigit (n / 16 % 16), hexDigit (n % 16)]

/-- The decimal numeral of an octet. -/
def decimal (n : ℕ) : List Char :=
  if n < 10 then [hexDigit n]
  else if n < 100 then [hexDigit (n / 10), hexDigit (n % 10)]
  else [hexDigit (n / 100), hexDigit (n / 10 % 10), hexDigit (n % 10)]

theorem eq_of_digitIn {a b c : Char} (h : digitIn a b c = true) :
    ∃ n, a.toNat ≤ n ∧ n ≤ b.toNat ∧ c = Char.ofNat n := by
  unfold digitIn at h
  simp only [Bool.and_eq_true, decide_eq_true_eq] at h
  exact ⟨c.toNat, h.1, h.2, (Char.ofNat_toNat c).symm⟩

theorem mem_of_isHex {c : Char} (h : isHex c = true) : c ∈ "0123456789abcdefABCDEF".toList := by
  have hrange : ∀ {a b : Char} {l : List Char}, digitIn a b c = true →
      (∀ n, n ≤ b.toNat → a.toNat ≤ n → Char.ofNat n ∈ l) → c ∈ l := by
    intro a b l h hl
    obtain ⟨n, h₁, h₂, rfl⟩ := eq_of_digitIn h
    exact hl n h₂ h₁
  unfold isHex at h
  simp only [Bool.or_eq_true, isDigit_iff] at h
  rcases h with (h | h) | h
  · exact hrange h (by decide)
  · exact hrange h (by decide)
  · exact hrange h (by decide)

theorem hexDigit_hexValue {c : Char} (h : isHex c = true) : hexDigit (hexValue c) = c.toLower := by
  have hall : ("0123456789abcdefABCDEF".toList.all
      fun c => hexDigit (hexValue c) = c.toLower) = true := by decide +kernel
  exact of_decide_eq_true (List.all_eq_true.mp hall c (mem_of_isHex h))

theorem hexValue_lt {c : Char} (h : isHex c = true) : hexValue c < 16 := by
  have hall : ("0123456789abcdefABCDEF".toList.all fun c => hexValue c < 16) = true := by
    decide +kernel
  exact of_decide_eq_true (List.all_eq_true.mp hall c (mem_of_isHex h))

theorem hexValue_hexDigit : ∀ n < 16, hexValue (hexDigit n) = n := by decide +kernel

theorem isHex_hexDigit : ∀ n < 16, isHex (hexDigit n) = true := by decide +kernel

theorem groupValue_hex4 {n : ℕ} (h : n < 65536) : groupValue (hex4 n) = n := by
  have hd : ∀ m, hexValue (hexDigit (m % 16)) = m % 16 :=
    fun m => hexValue_hexDigit _ (Nat.mod_lt m (by decide))
  unfold groupValue hex4
  simp only [List.foldl_cons, List.foldl_nil, hd]
  omega

theorem hex4_inj {m n : ℕ} (hm : m < 65536) (hn : n < 65536) (h : hex4 m = hex4 n) : m = n := by
  rw [← groupValue_hex4 hm, h, groupValue_hex4 hn]

theorem hex4_digits {a b c d : ℕ} (ha : a < 16) (hb : b < 16) (hc : c < 16) (hd : d < 16) :
    hex4 (16 * (16 * (16 * (16 * 0 + a) + b) + c) + d) =
      [hexDigit a, hexDigit b, hexDigit c, hexDigit d] := by
  have h₁ : (16 * (16 * (16 * (16 * 0 + a) + b) + c) + d) / 4096 % 16 = a := by omega
  have h₂ : (16 * (16 * (16 * (16 * 0 + a) + b) + c) + d) / 256 % 16 = b := by omega
  have h₃ : (16 * (16 * (16 * (16 * 0 + a) + b) + c) + d) / 16 % 16 = c := by omega
  have h₄ : (16 * (16 * (16 * (16 * 0 + a) + b) + c) + d) % 16 = d := by omega
  unfold hex4
  rw [h₁, h₂, h₃, h₄]

theorem groupValue_leftpad (p : List Char) (n : ℕ) :
    groupValue (p.leftpad n '0') = groupValue p := by
  have hzero : ∀ k, (List.replicate k '0').foldl (fun n c => 16 * n + hexValue c) 0 = 0 := by
    intro k
    induction k with
    | zero => rfl
    | succ k ih => exact ih
  unfold groupValue List.leftpad
  rw [List.foldl_append, hzero]

/-- A padded group is four digits. -/
theorem leftpad_of_isSeg {p : List Char} (h : isSeg p = true) : ∃ a b c d,
    p.leftpad 4 '0' = [a, b, c, d] ∧ isHex a = true ∧ isHex b = true ∧ isHex c = true ∧
      isHex d = true := by
  have hhex : ∀ c ∈ p.leftpad 4 '0', isHex c = true := by
    intro c hc
    rcases List.mem_append.mp hc with hc | hc
    · rw [List.eq_of_mem_replicate hc]
      decide
    · exact isSeg_hex h c hc
  have hlen : (p.leftpad 4 '0').length = 4 := by
    unfold isSeg at h
    simp only [Bool.and_eq_true, decide_eq_true_eq] at h
    rw [List.length_leftpad]
    omega
  generalize p.leftpad 4 '0' = q at hhex hlen
  match q, hlen with
  | [a, b, c, d], _ =>
      exact ⟨a, b, c, d, rfl, hhex a (by simp), hhex b (by simp), hhex c (by simp),
        hhex d (by simp)⟩

theorem groupValue_of_isSeg {p : List Char} {a b c d : Char} (h : p.leftpad 4 '0' = [a, b, c, d]) :
    groupValue p =
      16 * (16 * (16 * (16 * 0 + hexValue a) + hexValue b) + hexValue c) + hexValue d := by
  rw [← groupValue_leftpad p 4, h]
  rfl

/-- Padded to four digits, groups of one value look the same. -/
theorem canonical_of_isSeg {p : List Char} (h : isSeg p = true) :
    canonical p = hex4 (groupValue p) := by
  obtain ⟨a, b, c, d, hp, ha, hb, hc, hd⟩ := leftpad_of_isSeg h
  rw [groupValue_of_isSeg hp,
    hex4_digits (hexValue_lt ha) (hexValue_lt hb) (hexValue_lt hc) (hexValue_lt hd)]
  unfold canonical
  rw [hp]
  simp only [List.map_cons, List.map_nil, hexDigit_hexValue, ha, hb, hc, hd]

theorem groupValue_lt {p : List Char} (h : isSeg p = true) : groupValue p < 65536 := by
  obtain ⟨a, b, c, d, hp, ha, hb, hc, hd⟩ := leftpad_of_isSeg h
  rw [groupValue_of_isSeg hp]
  have ha := hexValue_lt ha
  have hb := hexValue_lt hb
  have hc := hexValue_lt hc
  have hd := hexValue_lt hd
  omega

theorem decimal_spec : ∀ n < 256, isOctet (decimal n) = true ∧ octetValue (decimal n) = n := by
  decide +kernel

theorem digit_spec {c : Char} (h : c.isDigit = true) :
    hexDigit (hexValue c) = c ∧ hexValue c = c.toNat - 48 ∧ 48 ≤ c.toNat ∧ c.toNat ≤ 57 := by
  have hin := isDigit_iff.mp h
  unfold digitIn at hin
  simp only [Bool.and_eq_true, decide_eq_true_eq] at hin
  have hv : hexValue c = c.toNat - 48 := if_pos h
  have hlt : c.toNat - 48 < 10 := by
    have h57 : c.toNat ≤ 57 := hin.2
    omega
  refine ⟨?_, hv, hin⟩
  rw [hv]
  unfold hexDigit
  have h48 : 48 ≤ c.toNat := hin.1
  rw [if_pos hlt, Nat.add_sub_cancel' h48, Char.ofNat_toNat]

/-- The numeral of a number with one, two or three digits. -/
theorem decimal_one {a : ℕ} (ha : a < 10) : decimal (10 * 0 + a) = [hexDigit a] := by
  rw [Nat.mul_zero, Nat.zero_add]
  exact if_pos ha

theorem decimal_two {a b : ℕ} (h₀ : 0 < a) (ha : a < 10) (hb : b < 10) :
    decimal (10 * (10 * 0 + a) + b) = [hexDigit a, hexDigit b] := by
  have h₁ : (10 * (10 * 0 + a) + b) / 10 = a := by omega
  have h₂ : (10 * (10 * 0 + a) + b) % 10 = b := by omega
  unfold decimal
  rw [if_neg (by omega), if_pos (by omega), h₁, h₂]

theorem decimal_three {a b c : ℕ} (h₀ : 0 < a) (ha : a < 10) (hb : b < 10) (hc : c < 10) :
    decimal (10 * (10 * (10 * 0 + a) + b) + c) = [hexDigit a, hexDigit b, hexDigit c] := by
  have h₁ : (10 * (10 * (10 * 0 + a) + b) + c) / 100 = a := by omega
  have h₂ : (10 * (10 * (10 * 0 + a) + b) + c) / 10 % 10 = b := by omega
  have h₃ : (10 * (10 * (10 * 0 + a) + b) + c) % 10 = c := by omega
  unfold decimal
  rw [if_neg (by omega), if_neg (by omega), h₁, h₂, h₃]

/-- An octet is the decimal numeral of its value. -/
theorem octetValue_spec {p : List Char} (h : isOctet p = true) :
    decimal (octetValue p) = p ∧ octetValue p < 256 := by
  have hdig := isOctet_digits h
  unfold isOctet at h
  split at h
  · rename_i a
    obtain ⟨ha, hva, ha₁, ha₂⟩ := digit_spec (hdig a (by simp))
    have hlt : hexValue a < 10 := by omega
    refine ⟨(decimal_one hlt).trans (by rw [ha]), ?_⟩
    show 10 * 0 + hexValue a < 256
    omega
  · rename_i a b
    obtain ⟨ha, hva, ha₁, ha₂⟩ := digit_spec (hdig a (by simp))
    obtain ⟨hb, hvb, hb₁, hb₂⟩ := digit_spec (hdig b (by simp))
    have hpos : 49 ≤ a.toNat := by
      simp only [digitIn, Bool.and_eq_true, decide_eq_true_eq] at h
      exact h.1.1
    refine ⟨(decimal_two (a := hexValue a) (b := hexValue b) (by omega) (by omega)
      (by omega)).trans (by rw [ha, hb]), ?_⟩
    show 10 * (10 * 0 + hexValue a) + hexValue b < 256
    omega
  · rename_i a b c
    obtain ⟨ha, hva, ha₁, ha₂⟩ := digit_spec (hdig a (by simp))
    obtain ⟨hb, hvb, hb₁, hb₂⟩ := digit_spec (hdig b (by simp))
    obtain ⟨hc, hvc, hc₁, hc₂⟩ := digit_spec (hdig c (by simp))
    have hval : 49 ≤ a.toNat ∧ (a.toNat = 49 ∨ a.toNat = 50 ∧ b.toNat ≤ 52 ∨
        a.toNat = 50 ∧ b.toNat = 53 ∧ c.toNat ≤ 53) := by
      simp only [digitIn, Bool.or_eq_true, Bool.and_eq_true, decide_eq_true_eq] at h
      rcases h with (⟨⟨rfl, -⟩, -⟩ | ⟨⟨rfl, -, hb'⟩, -⟩) | ⟨⟨rfl, rfl⟩, -, hc'⟩
      · exact ⟨by decide, Or.inl (by decide)⟩
      · exact ⟨by decide, Or.inr (Or.inl ⟨by decide, hb'⟩)⟩
      · exact ⟨by decide, Or.inr (Or.inr ⟨by decide, by decide, hc'⟩)⟩
    refine ⟨(decimal_three (a := hexValue a) (b := hexValue b) (c := hexValue c) (by omega)
      (by omega) (by omega) (by omega)).trans (by rw [ha, hb, hc]), ?_⟩
    show 10 * (10 * (10 * 0 + hexValue a) + hexValue b) + hexValue c < 256
    omega
  · cases h

/-! ### Zero groups -/

/-- Nothing but zeros, at most four. -/
def IsZero (p : List Char) : Prop := p.length ≤ 4 ∧ ∀ c ∈ p, c = '0'

/-- What is no lower case letter comes from itself alone. -/
theorem toLower_eq {c d : Char} (h : c.toLower = d) : c = d ∨ digitIn 'a' 'z' d = true := by
  unfold Char.toLower at h
  split at h
  · rename_i hc
    refine Or.inr ?_
    subst h
    obtain ⟨h₁, h₂⟩ := hc
    rw [ge_iff_le, UInt32.le_iff_toNat_le] at h₁
    rw [UInt32.le_iff_toNat_le] at h₂
    have h65 : 65 ≤ c.val.toNat := h₁
    have h90 : c.val.toNat ≤ 90 := h₂
    have hsum : (c.val + ('a'.val - 'A'.val)).toNat = c.val.toNat + 32 := by
      rw [UInt32.toNat_add]
      show (c.val.toNat + 32) % 2 ^ 32 = _
      omega
    unfold digitIn
    simp only [Bool.and_eq_true, decide_eq_true_eq]
    show 97 ≤ (c.val + ('a'.val - 'A'.val)).toNat ∧ (c.val + ('a'.val - 'A'.val)).toNat ≤ 122
    omega
  · exact Or.inl h

theorem toLower_eq_zero {c : Char} : c.toLower = '0' ↔ c = '0' := by
  refine ⟨fun h => ?_, fun h => by rw [h]; decide⟩
  rcases toLower_eq h with h | h
  · exact h
  · exact absurd h (by decide)

theorem canonical_eq_zero {p : List Char} : canonical p = hex4 0 ↔ IsZero p := by
  have hzero : hex4 0 = List.replicate 4 '0' := by decide
  rw [hzero, List.eq_replicate_iff]
  unfold canonical IsZero
  rw [List.length_map, List.length_leftpad]
  simp only [List.mem_map, forall_exists_index, and_imp, forall_apply_eq_imp_iff₂, toLower_eq_zero]
  refine and_congr (by omega) ⟨fun h c hc => ?_, fun h c hc => ?_⟩
  · exact h c (List.mem_append_right _ hc)
  · rcases List.mem_append.mp hc with hc | hc
    · exact List.eq_of_mem_replicate hc
    · exact h c hc

/-! ### What an address denotes -/

/-- The numbers of the octets of an IPv4 address. -/
def octets (s : List Char) : List ℕ := (s.splitOn '.').map octetValue

/-- Two octets to a group. -/
def pairs : List ℕ → List ℕ
  | a :: b :: rest => (256 * a + b) :: pairs rest
  | _ => []

/-- The groups that the pieces of an address stand for. -/
def words (ps : List (List Char)) : List ℕ :=
  ps.flatMap fun p => if isIPv4 p then pairs (octets p) else [groupValue p]

/-- The eight groups of an IPv6 address without its zone; the double colon stands for the zeros
that are missing. -/
def groups (s : List Char) : List ℕ :=
  match splitPair ':' s with
  | [h, t] =>
      words (pieces h) ++
        List.replicate (8 - (words (pieces h)).length - (words (pieces t)).length) 0 ++
          words (pieces t)
  | parts => words (pieces (parts.headD []))

/-- An IPv4 address, by its octets, or the upper half of an IPv6 address, by its groups. -/
inductive Network where
  | v4 (address : List ℕ)
  | v6 (upper : List ℕ)
deriving DecidableEq

/-- The groups are those of an IPv4-mapped address. -/
def IsMapped (gs : List ℕ) : Prop := gs.take 6 = [0, 0, 0, 0, 0, 65535]

instance (gs : List ℕ) : Decidable (IsMapped gs) := inferInstanceAs (Decidable (_ = _))

/-- The network of an address that `net.isIP` accepts. -/
def network (ip : List Char) : Network :=
  if isIPv4 ip then .v4 (octets ip)
  else if IsMapped (groups (groupsText ip)) then
    .v4 (((groups (groupsText ip)).drop 6).flatMap fun g => [g / 256, g % 256])
  else .v6 ((groups (groupsText ip)).take 4)

/-- The pieces after the double colon, as they are counted, are as many as the groups they stand
for; or four groups stand before it; or those among the first four groups that do not are zero, and
so are the pieces that come to stand there. -/
def Aligned (ip : List Char) : Prop :=
  ∀ h t, splitPair ':' (groupsText ip) = [h, t] →
    4 ≤ (pieces h).length ∨ (pieces (tailText ip)).length = (words (pieces t)).length ∨
      (∀ g ∈ ((groups (groupsText ip)).take 4).drop (pieces h).length, g = 0) ∧
        ∀ p ∈ (pieces (tailText ip)).take
          (min (4 - (pieces h).length) ((pieces (tailText ip)).length - 4)), IsZero p

/-- The spellings `networkKey` was written for: an IPv4 address; an IPv4-mapped address spelled
`::ffff:d.d.d.d`; any other IPv6 address whose groups are not shifted. -/
def Plain (ip : List Char) : Prop :=
  isIPv4 ip = true ∨ v4mapped ip ≠ none ∨
    (isIPv4 ip = false ∧ ¬ IsMapped (groups (groupsText ip))) ∧ Aligned ip

/-- The key of a network. -/
def key : Network → List Char
  | .v4 bs => join '.' (bs.map decimal)
  | .v6 gs => join ':' (gs.map hex4) ++ [':', ':', '/', '6', '4']

/-- The numbers are in range. -/
def Network.Valid : Network → Prop
  | .v4 bs => bs.length = 4 ∧ ∀ b ∈ bs, b < 256
  | .v6 gs => gs.length = 4 ∧ ∀ g ∈ gs, g < 65536

/-! ### IPv4 addresses -/

theorem map_map_of_inverse {α β : Type*} {f : α → β} {g : β → α} {l : List α}
    (h : ∀ x ∈ l, g (f x) = x) : (l.map f).map g = l := by
  rw [List.map_map]
  exact (List.map_congr_left (g := id) h).trans (List.map_id l)

theorem octets_spec {s : List Char} (h : isIPv4 s = true) :
    join '.' ((octets s).map decimal) = s ∧ (octets s).length = 4 ∧ ∀ b ∈ octets s, b < 256 := by
  obtain ⟨hlen, hall⟩ := Bool.and_eq_true_iff.mp h
  have hspec : ∀ p ∈ s.splitOn '.', decimal (octetValue p) = p ∧ octetValue p < 256 :=
    fun p hp => octetValue_spec (List.all_eq_true.mp hall p hp)
  refine ⟨?_, ?_, fun b hb => ?_⟩
  · unfold octets
    rw [map_map_of_inverse fun p hp => (hspec p hp).1, join_splitOn]
  · unfold octets
    rw [List.length_map]
    exact of_decide_eq_true hlen
  · obtain ⟨p, hp, rfl⟩ := List.mem_map.mp hb
    exact (hspec p hp).2

theorem not_mem_decimal {c : Char} (hc : c.isDigit = false) {n : ℕ} (hn : n < 256) :
    c ∉ decimal n := by
  intro hm
  rw [isOctet_digits (decimal_spec n hn).1 c hm] at hc
  cases hc

/-- The text of an IPv4 address. -/
theorem octets_join {bs : List ℕ} (h : (Network.v4 bs).Valid) :
    isIPv4 (join '.' (bs.map decimal)) = true ∧ octets (join '.' (bs.map decimal)) = bs := by
  obtain ⟨hlen, hlt⟩ := h
  have hsplit : (join '.' (bs.map decimal)).splitOn '.' = bs.map decimal := by
    refine splitOn_join (fun p hp => ?_) ?_
    · obtain ⟨b, hb, rfl⟩ := List.mem_map.mp hp
      exact not_mem_decimal (by decide) (hlt b hb)
    · intro hn
      rw [List.map_eq_nil_iff.mp hn] at hlen
      cases hlen
  refine ⟨?_, ?_⟩
  · unfold isIPv4
    rw [hsplit, List.length_map, hlen, List.all_map]
    simp only [decide_true, Bool.true_and, List.all_eq_true]
    exact fun b hb => (decimal_spec b (hlt b hb)).1
  · unfold octets
    rw [hsplit, map_map_of_inverse fun b hb => (decimal_spec b (hlt b hb)).2]

theorem v4mapped_eq_none {s : List Char} (h : isIPv4 s = true) : v4mapped s = none := by
  unfold v4mapped
  refine if_neg ?_
  rintro ⟨htake, -⟩
  cases s with
  | nil => cases htake
  | cons c s =>
      have hc : c.toLower = ':' := (List.cons.inj htake).1
      have hcolon : c = ':' := (toLower_eq hc).resolve_right (by decide)
      rcases isIPv4_chars h c List.mem_cons_self with hd | hd
      · rw [hcolon] at hd
        exact absurd hd (by decide)
      · rw [hcolon] at hd
        exact absurd hd (by decide)

theorem networkKey_of_isIPv4 {s : List Char} (h : isIPv4 s = true) :
    networkKey s = key (network s) := by
  unfold networkKey network isIP
  rw [v4mapped_eq_none h, if_pos h, if_pos h]
  exact (octets_spec h).1.symm

/-! ### Keys -/

theorem not_mem_hex4 {c : Char} (hc : isHex c = false) (n : ℕ) : c ∉ hex4 n := by
  have hd : ∀ m, isHex (hexDigit (m % 16)) = true :=
    fun m => isHex_hexDigit _ (Nat.mod_lt m (by decide))
  intro hm
  unfold hex4 at hm
  simp only [List.mem_cons, List.not_mem_nil, or_false] at hm
  rcases hm with rfl | rfl | rfl | rfl <;> rw [hd] at hc <;> cases hc

/-- Texts without colons that are joined by them can be told apart. -/
theorem join_colon_inj {ps qs : List (List Char)} (hp : ∀ p ∈ ps, ':' ∉ p) (hq : ∀ q ∈ qs, ':' ∉ q)
    (hne : ps ≠ []) (hne' : qs ≠ []) (h : join ':' ps = join ':' qs) : ps = qs := by
  rw [← splitOn_join hp hne, h, splitOn_join hq hne']

theorem key_inj {M N : Network} (hM : M.Valid) (hN : N.Valid) (h : key M = key N) : M = N := by
  have hcross : ∀ {bs gs : List ℕ}, (Network.v4 bs).Valid → key (.v4 bs) ≠ key (.v6 gs) := by
    intro bs gs hb he
    have hslash : '/' ∈ key (.v4 bs) := by
      rw [he]
      exact List.mem_append_right _ (by decide)
    rcases isIPv4_chars (octets_join hb).1 _ hslash with hd | hd
    · exact absurd hd (by decide)
    · exact absurd hd (by decide)
  cases M with
  | v4 bs =>
      cases N with
      | v4 bs' =>
          have he : join '.' (bs.map decimal) = join '.' (bs'.map decimal) := h
          rw [← (octets_join hM).2, he, (octets_join hN).2]
      | v6 gs => exact absurd h (hcross hM)
  | v6 gs =>
      cases N with
      | v4 bs => exact absurd h.symm (hcross hN)
      | v6 gs' =>
          have hread : ∀ {gs : List ℕ}, (∀ g ∈ gs, g < 65536) →
              (gs.map hex4).map groupValue = gs :=
            fun hlt => map_map_of_inverse fun g hg => groupValue_hex4 (hlt g hg)
          have hcolon : ∀ {gs : List ℕ}, ∀ p ∈ gs.map hex4, ':' ∉ p := by
            intro gs p hp
            obtain ⟨g, -, rfl⟩ := List.mem_map.mp hp
            exact not_mem_hex4 (by decide) g
          have hne : ∀ {gs : List ℕ}, gs.length = 4 → gs.map hex4 ≠ [] := by
            intro gs hlen hn
            rw [List.map_eq_nil_iff.mp hn] at hlen
            cases hlen
          have he := join_colon_inj hcolon hcolon (hne hM.1) (hne hN.1) (List.append_cancel_right h)
          rw [← hread hM.2, he, hread hN.2]

/-! ### The groups of an IPv6 address -/

theorem isIPv4_dot {p : List Char} (h : isIPv4 p = true) : '.' ∈ p := by
  by_contra hn
  have hlen := of_decide_eq_true (Bool.and_eq_true_iff.mp h).1
  rw [List.splitOn_eq_singleton hn] at hlen
  cases hlen

theorem not_isIPv4_of_isSeg {p : List Char} (h : isSeg p = true) : isIPv4 p = false := by
  by_contra hn
  have hdot := isSeg_hex h _ (isIPv4_dot (Bool.eq_true_of_not_eq_false hn))
  exact absurd hdot (by decide)

theorem words_cons {p : List Char} (ps : List (List Char)) (h : isSeg p = true) :
    words (p :: ps) = groupValue p :: words ps := by
  unfold words
  rw [List.flatMap_cons, if_neg (by rw [not_isIPv4_of_isSeg h]; exact Bool.false_ne_true)]
  rfl

theorem words_of_isSeg {ps : List (List Char)} (h : ∀ p ∈ ps, isSeg p = true) :
    words ps = ps.map groupValue := by
  induction ps with
  | nil => rfl
  | cons p ps ih =>
      rw [words_cons ps (h p List.mem_cons_self), ih fun q hq => h q (List.mem_cons_of_mem _ hq)]
      rfl

theorem words_append (ps qs : List (List Char)) : words (ps ++ qs) = words ps ++ words qs :=
  List.flatMap_append

/-- The octets of an IPv4 address are two groups. -/
theorem words_isIPv4 {p : List Char} (h : isIPv4 p = true) :
    ∃ a b c d, octets p = [a, b, c, d] ∧ words [p] = [256 * a + b, 256 * c + d] := by
  have hlen := (octets_spec h).2.1
  match ho : octets p, hlen with
  | [a, b, c, d], _ =>
      refine ⟨a, b, c, d, rfl, ?_⟩
      unfold words
      rw [List.flatMap_singleton, if_pos h, ho]
      rfl

/-- All pieces but the last are groups; the last is one group or two. -/
theorem width_spec {ps : List (List Char)} {m : ℕ} (h : width ps = some m) (hne : ps ≠ []) :
    ∃ init l, ps = init ++ [l] ∧ (∀ p ∈ init, isSeg p = true) ∧
      (isSeg l = true ∨ isIPv4 l = true) ∧ m = init.length + (words [l]).length := by
  induction ps generalizing m with
  | nil => exact absurd rfl hne
  | cons p ps ih =>
      cases ps with
      | nil =>
          refine ⟨[], p, rfl, fun q hq => absurd hq List.not_mem_nil, ?_⟩
          unfold width at h
          split_ifs at h with h₁ h₂
          · refine ⟨Or.inl h₁, ?_⟩
            rw [words_cons [] h₁]
            exact (Option.some.inj h).symm
          · refine ⟨Or.inr h₂, ?_⟩
            obtain ⟨a, b, c, d, -, hw⟩ := words_isIPv4 h₂
            rw [hw]
            exact (Option.some.inj h).symm
      | cons q ps =>
          unfold width at h
          split_ifs at h with h₁
          obtain ⟨m', hm, rfl⟩ := Option.map_eq_some_iff.mp h
          obtain ⟨init, l, hps, hinit, hl, rfl⟩ := ih hm (List.cons_ne_nil _ _)
          refine ⟨p :: init, l, by rw [hps]; rfl, fun x hx => ?_, hl, ?_⟩
          · rcases List.mem_cons.mp hx with rfl | hx
            · exact h₁
            · exact hinit x hx
          · rw [List.length_cons]
            omega

theorem length_words_last {l : List Char} (h : isSeg l = true ∨ isIPv4 l = true) :
    1 ≤ (words [l]).length ∧ (words [l]).length ≤ 2 := by
  rcases h with h | h
  · rw [words_cons [] h]
    exact ⟨Nat.le_refl 1, Nat.le_succ 1⟩
  · obtain ⟨a, b, c, d, -, hw⟩ := words_isIPv4 h
    rw [hw]
    exact ⟨Nat.le_succ 1, Nat.le_refl 2⟩

theorem length_words {ps : List (List Char)} {m : ℕ} (h : width ps = some m) :
    (words ps).length = m := by
  cases ps with
  | nil => exact Option.some.inj h
  | cons p ps =>
      obtain ⟨init, l, hps, hinit, hl, rfl⟩ := width_spec h (List.cons_ne_nil _ _)
      rw [hps, words_append, words_of_isSeg hinit, List.length_append, List.length_map]

theorem words_lt {ps : List (List Char)} {m : ℕ} (h : width ps = some m) :
    ∀ g ∈ words ps, g < 65536 := by
  intro g hg
  obtain ⟨p, hp, hgp⟩ := List.mem_flatMap.mp hg
  split_ifs at hgp with h4
  · obtain ⟨a, b, c, d, ho, -⟩ := words_isIPv4 h4
    have hlt := (octets_spec h4).2.2
    rw [ho] at hgp hlt
    have ha := hlt a (by simp)
    have hb := hlt b (by simp)
    have hc := hlt c (by simp)
    have hd := hlt d (by simp)
    have hg' : g = 256 * a + b ∨ g = 256 * c + d := by simpa [pairs] using hgp
    omega
  · obtain rfl := List.mem_singleton.mp hgp
    exact groupValue_lt ((width_piece h p hp).resolve_right h4)

/-- Pieces stand where the groups do that they spell, up to the fourth place: `k` pieces are counted
for `m` groups behind the double colon, with `n` groups before it. -/
theorem shift_iff {α : Type*} {M : α → ℕ → Prop} {z : α} {c t : ℕ → α} {v w : ℕ → ℕ} {n m k : ℕ}
    (hM : ∀ p a b, M p a → M p b → a = b) (hz : M z 0) (hnm : n + m ≤ 7) (hk : m ≤ k + 1)
    (hc : ∀ i < n, M (c i) (v i)) (hc0 : ∀ i, n ≤ i → i < max n (8 - k) → c i = z)
    (hct : ∀ j < k, c (max n (8 - k) + j) = t j) (hv0 : ∀ i, n ≤ i → i < 8 - m → v i = 0)
    (hvw : ∀ j < m, v (8 - m + j) = w j) (htw : ∀ j, j + 4 < m → M (t j) (w j)) :
    (∀ i < 4, M (c i) (v i)) ↔ 4 ≤ n ∨ k = m ∨
      (∀ i, n ≤ i → i < 4 → v i = 0) ∧ ∀ j < min (4 - n) (k - 4), M (t j) 0 := by
  constructor
  · intro h
    by_cases hn : 4 ≤ n
    · exact Or.inl hn
    by_cases hkm : k = m
    · exact Or.inr (Or.inl hkm)
    -- a group that is not where it is counted was found zero one shift earlier
    have hzero : ∀ i, n ≤ i → i < 4 → v i = 0 := by
      intro i
      induction i using Nat.strong_induction_on with
      | _ i ih =>
          intro hni hi
          by_cases him : i < 8 - m
          · exact hv0 i hni him
          obtain ⟨j, rfl⟩ : ∃ j, i = 8 - m + j := ⟨i - (8 - m), by omega⟩
          have hj := htw j (by omega)
          rcases Nat.lt_or_gt_of_ne hkm with hlt | hgt
          · -- one piece too few: the groups come one place too late
            cases j with
            | zero =>
                have hci := hc0 (8 - m) (by omega) (by omega)
                have := h (8 - m) (by omega)
                rw [hci] at this
                exact hM z _ _ this hz
            | succ j =>
                have hci := hct j (by omega)
                have hpos : max n (8 - k) + j = 8 - m + (j + 1) := by omega
                rw [hpos] at hci
                have hi' := h _ hi
                rw [hci] at hi'
                have hw := hM _ _ _ hi' (htw j (by omega))
                rw [hw, ← hvw j (by omega)]
                exact ih (8 - m + j) (by omega) (by omega) (by omega)
          · -- too many pieces: the groups come too early
            have hci := hct j (by omega)
            have hi' := h (max n (8 - k) + j) (by omega)
            rw [hci, ih (max n (8 - k) + j) (by omega) (by omega) (by omega)] at hi'
            rw [hvw j (by omega)]
            exact hM _ _ _ hj hi'
    refine Or.inr (Or.inr ⟨hzero, fun j hj => ?_⟩)
    have hci := hct j (by omega)
    have hi := h (max n (8 - k) + j) (by omega)
    rwa [hci, hzero _ (by omega) (by omega)] at hi
  · rintro (hn | rfl | ⟨hv, ht⟩) i hi
    · exact hc i (by omega)
    · by_cases hin : i < n
      · exact hc i hin
      by_cases him : i < 8 - k
      · rw [hc0 i (by omega) (by omega), hv0 i (by omega) him]
        exact hz
      · obtain ⟨j, rfl⟩ : ∃ j, i = 8 - k + j := ⟨i - (8 - k), by omega⟩
        have hpos : max n (8 - k) = 8 - k := by omega
        have hci := hct j (by omega)
        rw [hpos] at hci
        rw [hci, hvw j (by omega)]
        exact htw j (by omega)
    · by_cases hin : i < n
      · exact hc i hin
      rw [hv i (by omega) hi]
      by_cases him : i < max n (8 - k)
      · rw [hc0 i (by omega) him]
        exact hz
      · obtain ⟨j, rfl⟩ : ∃ j, i = max n (8 - k) + j := ⟨i - max n (8 - k), by omega⟩
        rw [hct j (by omega)]
        exact ht j (by omega)

/-! ### Spellings of an IPv6 address -/

theorem isGroups_cases {g : List Char} (h : isGroups g = true) :
    (∃ a, splitPair ':' g = [a] ∧ width (pieces a) = some 8) ∨
      ∃ a t m, splitPair ':' g = [a, t] ∧ (∀ p ∈ pieces a, isSeg p = true) ∧
        width (pieces t) = some m ∧ (pieces a).length + m ≤ 7 := by
  unfold isGroups at h
  split at h
  · rename_i a ha
    exact Or.inl ⟨a, ha, of_decide_eq_true h⟩
  · rename_i a t ha
    obtain ⟨h₁, h₂⟩ := Bool.and_eq_true_iff.mp h
    obtain ⟨m, hm, hle⟩ := (Option.any_eq_true _ _).mp h₂
    exact Or.inr ⟨a, t, m, ha, List.all_eq_true.mp h₁, hm, of_decide_eq_true hle⟩
  · cases h

theorem groups_single {g a : List Char} (h : splitPair ':' g = [a]) :
    groups g = words (pieces a) := by
  unfold groups
  rw [h]
  rfl

theorem groups_pair {g a t : List Char} {m : ℕ} (h : splitPair ':' g = [a, t])
    (ha : ∀ p ∈ pieces a, isSeg p = true) (hm : width (pieces t) = some m) :
    groups g = (pieces a).map groupValue ++
      List.replicate (8 - (pieces a).length - m) 0 ++ words (pieces t) := by
  unfold groups
  rw [h]
  dsimp only
  rw [length_words hm, words_of_isSeg ha, List.length_map]

theorem groups_spec {g : List Char} (h : isGroups g = true) :
    (groups g).length = 8 ∧ ∀ x ∈ groups g, x < 65536 := by
  rcases isGroups_cases h with ⟨a, ha, hw⟩ | ⟨a, t, m, ha, hs, hm, hle⟩
  · rw [groups_single ha]
    exact ⟨length_words hw, words_lt hw⟩
  · rw [groups_pair ha hs hm]
    refine ⟨?_, fun x hx => ?_⟩
    · rw [List.length_append, List.length_append, List.length_map, List.length_replicate,
        length_words hm]
      omega
    · rcases List.mem_append.mp hx with hx | hx
      · rcases List.mem_append.mp hx with hx | hx
        · obtain ⟨p, hp, rfl⟩ := List.mem_map.mp hx
          exact groupValue_lt (hs p hp)
        · rw [List.eq_of_mem_replicate hx]
          decide
      · exact words_lt hm x hx

/-- The zone stands behind the last part. -/
theorem splitPair_zone {ip l : List Char} (init : List (List Char))
    (h : splitPair ':' (groupsText ip) = init ++ [l]) :
    ∃ z rest, splitPair ':' ip = init ++ (l ++ z) :: rest := by
  obtain ⟨z, rest, hz⟩ := List.exists_cons_of_ne_nil (splitPair_ne_nil ':' (zoneText ip))
  refine ⟨z, rest, ?_⟩
  rw [← List.takeWhile_append_dropWhile (p := (· ≠ '%')) (l := ip)]
  refine splitPair_append (fun c hc => ?_) h hz
  rw [zoneText_head c hc]
  decide

/-- A text behind the pieces changes the last one only. -/
theorem pieces_append {a l : List Char} {init : List (List Char)} (z : List Char)
    (h : pieces a = init ++ [l]) : ∃ l' rest, pieces (a ++ z) = init ++ l' :: rest := by
  obtain ⟨b, rest, hb⟩ := List.exists_cons_of_ne_nil (List.splitOn_ne_nil ':' z)
  have hne : a ≠ [] := by
    rintro rfl
    cases init <;> cases h
  unfold pieces at h ⊢
  rw [if_neg hne] at h
  rw [if_neg fun hn => hne (List.append_eq_nil_iff.mp hn).1]
  exact ⟨l ++ b, rest, splitOn_append h hb⟩

theorem take_four_iff {α β γ : Type*} {f : α → γ} {g : β → γ} {C : List α} {V : List β} (a : α)
    (b : β) (hC : 4 ≤ C.length) (hV : 4 ≤ V.length) :
    (C.take 4).map f = (V.take 4).map g ↔ ∀ i < 4, f (C.getD i a) = g (V.getD i b) := by
  match C, hC, V, hV with
  | c₀ :: c₁ :: c₂ :: c₃ :: C, _, v₀ :: v₁ :: v₂ :: v₃ :: V, _ =>
      constructor
      · intro h i hi
        obtain ⟨h₀, h₁, h₂, h₃⟩ : f c₀ = g v₀ ∧ f c₁ = g v₁ ∧ f c₂ = g v₂ ∧ f c₃ = g v₃ := by
          simpa using h
        interval_cases i
        exacts [h₀, h₁, h₂, h₃]
      · intro h
        have h₀ : f c₀ = g v₀ := h 0 (by decide)
        have h₁ : f c₁ = g v₁ := h 1 (by decide)
        have h₂ : f c₂ = g v₂ := h 2 (by decide)
        have h₃ : f c₃ = g v₃ := h 3 (by decide)
        simp [h₀, h₁, h₂, h₃]

theorem forall_mem_take_iff {α : Type*} {P : α → Prop} {l : List α} (d : α) {q : ℕ}
    (hq : q ≤ l.length) : (∀ x ∈ l.take q, P x) ↔ ∀ j < q, P (l.getD j d) := by
  constructor
  · intro h j hj
    rw [List.getD_eq_getElem _ _ (hj.trans_le hq)]
    exact h _ (List.mem_take_iff_getElem.mpr ⟨j, by omega, rfl⟩)
  · intro h x hx
    obtain ⟨j, hj, rfl⟩ := List.mem_take_iff_getElem.mp hx
    have := h j (by omega)
    rwa [List.getD_eq_getElem _ _ (by omega)] at this

theorem forall_mem_drop_take_iff {α : Type*} {P : α → Prop} {l : List α} (d : α) {n q : ℕ}
    (hq : q ≤ l.length) :
    (∀ x ∈ (l.take q).drop n, P x) ↔ ∀ i, n ≤ i → i < q → P (l.getD i d) := by
  constructor
  · intro h i hn hi
    refine h _ (List.mem_drop_iff_getElem.mpr ⟨i - n, ?_, ?_⟩)
    · rw [List.length_take]
      omega
    · rw [List.getD_eq_getElem _ _ (hi.trans_le hq), List.getElem_take]
      congr 1
      omega
  · intro h x hx
    obtain ⟨j, hj, rfl⟩ := List.mem_drop_iff_getElem.mp hx
    rw [List.length_take] at hj
    have := h (n + j) (by omega) (by omega)
    rwa [List.getD_eq_getElem _ _ (by omega), ← List.getElem_take] at this

section filled

variable {α : Type*} (A B : List α) (z d : α) (f : ℕ)

theorem getD_before {i : ℕ} (h : i < A.length) :
    (A ++ List.replicate f z ++ B).getD i d = A.getD i d := by
  rw [List.append_assoc, List.getD_append _ _ _ _ h]

theorem getD_between {i : ℕ} (h : A.length ≤ i) (h' : i < A.length + f) :
    (A ++ List.replicate f z ++ B).getD i d = z := by
  rw [List.getD_append _ _ _ _ (by rw [List.length_append, List.length_replicate]; exact h'),
    List.getD_append_right _ _ _ _ h]
  exact List.getD_replicate _ (by omega)

theorem getD_behind (j : ℕ) :
    (A ++ List.replicate f z ++ B).getD (A.length + f + j) d = B.getD j d := by
  have hlen : (A ++ List.replicate f z).length = A.length + f := by
    rw [List.length_append, List.length_replicate]
  rw [List.getD_append_right _ _ _ _ (by omega), hlen, Nat.add_sub_cancel_left]

end filled

theorem expanded_length (ip : List Char) : 8 ≤ (expanded ip).length := by
  unfold expanded
  dsimp only
  rw [List.length_append, List.length_append, List.length_replicate]
  omega

/-- Without a double colon the first four pieces are the first four groups. -/
theorem expanded_single {ip a : List Char} (ha : splitPair ':' (groupsText ip) = [a])
    (hw : width (pieces a) = some 8) :
    ((expanded ip).take 4).map canonical = ((groups (groupsText ip)).take 4).map hex4 := by
  have hne : pieces a ≠ [] := by
    intro hn
    rw [hn] at hw
    cases hw
  obtain ⟨init, l, hp, hinit, hl, hlen⟩ := width_spec hw hne
  have hfour : 4 ≤ init.length := by
    have := (length_words_last hl).2
    omega
  obtain ⟨z, rest, hz⟩ := splitPair_zone [] ha
  obtain ⟨l', rest', hl'⟩ := pieces_append z hp
  have hhead : headText ip = a ++ z := by
    unfold headText
    rw [hz]
    rfl
  have hexp : (expanded ip).take 4 = init.take 4 := by
    unfold expanded
    dsimp only
    rw [hhead, hl', List.append_assoc, List.append_assoc, List.take_append_of_le_length hfour]
  rw [hexp, groups_single ha, hp, words_append, words_of_isSeg hinit,
    List.take_append_of_le_length (by rw [List.length_map]; exact hfour), ← List.map_take,
    List.map_map]
  exact List.map_congr_left fun p hpm => canonical_of_isSeg (hinit p (List.mem_of_mem_take hpm))

/-- An address with a double colon: `a` before it and `t` behind it, which stands for `m` groups; `z`
is the part of the zone that is counted with `t`. -/
structure Gap (ip a t z : List Char) (m : ℕ) : Prop where
  split : splitPair ':' (groupsText ip) = [a, t]
  segs : ∀ p ∈ pieces a, isSeg p = true
  behind : width (pieces t) = some m
  fits : (pieces a).length + m ≤ 7
  head : headText ip = a
  tail : tailText ip = t ++ z

theorem gap_of_split {ip a t : List Char} {m : ℕ} (ha : splitPair ':' (groupsText ip) = [a, t])
    (hs : ∀ p ∈ pieces a, isSeg p = true) (hm : width (pieces t) = some m)
    (hle : (pieces a).length + m ≤ 7) : ∃ z, Gap ip a t z m := by
  obtain ⟨z, rest, hz⟩ := splitPair_zone [a] ha
  refine ⟨z, ha, hs, hm, hle, ?_, ?_⟩
  · unfold headText
    rw [hz]
    rfl
  · unfold tailText
    rw [hz]
    rfl

namespace Gap

variable {ip a t z : List Char} {m : ℕ} (h : Gap ip a t z m)

include h

theorem expanded_eq : expanded ip = pieces a ++
    List.replicate (8 - (pieces a).length - (pieces (t ++ z)).length) ['0'] ++ pieces (t ++ z) := by
  unfold expanded
  rw [h.head, h.tail]

theorem groups_eq : groups (groupsText ip) = (pieces a).map groupValue ++
    List.replicate (8 - (pieces a).length - m) 0 ++ words (pieces t) :=
  groups_pair h.split h.segs h.behind

/-- The pieces of the tail that are not the last are groups, and are counted as they are. -/
theorem counted : m ≤ (pieces (t ++ z)).length + 1 ∧ ∀ j, j + 4 < m →
    canonical ((pieces (t ++ z)).getD j ['0']) = hex4 ((words (pieces t)).getD j 0) := by
  have hm := h.behind
  cases hpt : pieces t with
  | nil =>
      rw [hpt] at hm
      cases hm
      exact ⟨Nat.zero_le _, fun j hj => absurd hj (by omega)⟩
  | cons p ps =>
      obtain ⟨init, l, hp, hsi, hl, rfl⟩ := width_spec hm (by rw [hpt]; exact List.cons_ne_nil _ _)
      have hl2 := (length_words_last hl).2
      obtain ⟨l', rest', hl'⟩ := pieces_append z hp
      rw [← hpt, hl', hp]
      refine ⟨?_, fun j hj => ?_⟩
      · rw [List.length_append, List.length_cons]
        omega
      · have hj' : j < init.length := by omega
        rw [words_append, words_of_isSeg hsi, List.getD_append _ _ _ _ hj',
          List.getD_append _ _ _ _ (by rw [List.length_map]; exact hj'),
          List.getD_eq_getElem _ _ hj',
          List.getD_eq_getElem _ _ (by rw [List.length_map]; exact hj'), List.getElem_map]
        exact canonical_of_isSeg (hsi _ (List.getElem_mem hj'))

theorem before : ∀ i < (pieces a).length,
    canonical ((expanded ip).getD i ['0']) = hex4 ((groups (groupsText ip)).getD i 0) := by
  intro i hi
  have hi' : i < ((pieces a).map groupValue).length := by
    rw [List.length_map]
    exact hi
  rw [h.expanded_eq, h.groups_eq, getD_before _ _ _ _ _ hi, getD_before _ _ _ _ _ hi',
    List.getD_eq_getElem _ _ hi', List.getElem_map, List.getD_eq_getElem _ _ hi]
  exact canonical_of_isSeg (h.segs _ (List.getElem_mem hi))

/-- The places of the pieces. -/
theorem places : (∀ i, (pieces a).length ≤ i →
      i < max (pieces a).length (8 - (pieces (t ++ z)).length) →
      (expanded ip).getD i ['0'] = ['0']) ∧
    ∀ j, (expanded ip).getD (max (pieces a).length (8 - (pieces (t ++ z)).length) + j) ['0'] =
      (pieces (t ++ z)).getD j ['0'] := by
  rw [h.expanded_eq]
  refine ⟨fun i hi hi' => getD_between _ _ _ _ _ hi (by omega), fun j => ?_⟩
  have hpos : max (pieces a).length (8 - (pieces (t ++ z)).length) =
      (pieces a).length + (8 - (pieces a).length - (pieces (t ++ z)).length) := by omega
  rw [hpos]
  exact getD_behind _ _ _ _ _ j

/-- The places of the groups. -/
theorem groups_places : (∀ i, (pieces a).length ≤ i → i < 8 - m →
      (groups (groupsText ip)).getD i 0 = 0) ∧
    ∀ j, (groups (groupsText ip)).getD (8 - m + j) 0 = (words (pieces t)).getD j 0 := by
  have hfits := h.fits
  have hlen : ((pieces a).map groupValue).length = (pieces a).length := List.length_map _
  rw [h.groups_eq]
  refine ⟨fun i hi hi' => getD_between _ _ _ _ _ (by omega) (by omega), fun j => ?_⟩
  have hpos : 8 - m =
      ((pieces a).map groupValue).length + (8 - (pieces a).length - m) := by omega
  rw [hpos, ← getD_behind ((pieces a).map groupValue) (words (pieces t)) 0 0
    (8 - (pieces a).length - m) j]

theorem aligned_iff : Aligned ip ↔ 4 ≤ (pieces a).length ∨ (pieces (t ++ z)).length = m ∨
    (∀ g ∈ ((groups (groupsText ip)).take 4).drop (pieces a).length, g = 0) ∧
      ∀ p ∈ (pieces (t ++ z)).take
        (min (4 - (pieces a).length) ((pieces (t ++ z)).length - 4)), IsZero p := by
  rw [← length_words h.behind, ← h.tail]
  refine ⟨fun hA => hA a t h.split, fun hA a' t' he => ?_⟩
  rw [h.split] at he
  cases he
  exact hA

theorem expanded_iff (hglen : (groups (groupsText ip)).length = 8)
    (hglt : ∀ x ∈ groups (groupsText ip), x < 65536) :
    ((expanded ip).take 4).map canonical = ((groups (groupsText ip)).take 4).map hex4 ↔
      Aligned ip := by
  have hlt : ∀ i, (groups (groupsText ip)).getD i 0 < 65536 := by
    intro i
    by_cases hi : i < (groups (groupsText ip)).length
    · rw [List.getD_eq_getElem _ _ hi]
      exact hglt _ (List.getElem_mem hi)
    · rw [List.getD_eq_default _ _ (by omega)]
      decide
  obtain ⟨hk, htw⟩ := h.counted
  obtain ⟨hc0, hct⟩ := h.places
  obtain ⟨hv0, hvw⟩ := h.groups_places
  have hshift := shift_iff (M := fun p g => canonical p = hex4 g ∧ g < 65536) (z := ['0'])
    (c := fun i => (expanded ip).getD i ['0']) (v := fun i => (groups (groupsText ip)).getD i 0)
    (t := fun j => (pieces (t ++ z)).getD j ['0']) (w := fun j => (words (pieces t)).getD j 0)
    (fun p x y hx hy => hex4_inj hx.2 hy.2 (hx.1.symm.trans hy.1)) ⟨by decide, by decide⟩ h.fits hk
    (fun i hi => ⟨h.before i hi, hlt i⟩) hc0 (fun j _ => hct j) hv0 (fun j _ => hvw j)
    (fun j hj => ⟨htw j hj, hvw j ▸ hlt _⟩)
  have hlen := expanded_length ip
  rw [take_four_iff ['0'] 0 (by omega) (by omega), h.aligned_iff,
    forall_mem_drop_take_iff 0 (by omega), forall_mem_take_iff ['0'] (by omega)]
  refine (forall₂_congr fun i hi => (and_iff_left (hlt i)).symm).trans (hshift.trans ?_)
  refine or_congr_right (or_congr_right (and_congr_right fun _ => forall₂_congr fun j hj => ?_))
  exact (and_iff_left (by decide)).trans canonical_eq_zero

end Gap

/-- The first four pieces are the first four groups if and only if the groups are aligned. -/
theorem expanded_iff {ip : List Char} (h : isGroups (groupsText ip) = true) :
    ((expanded ip).take 4).map canonical = ((groups (groupsText ip)).take 4).map hex4 ↔
      Aligned ip := by
  obtain ⟨hglen, hglt⟩ := groups_spec h
  rcases isGroups_cases h with ⟨a, ha, hw⟩ | ⟨a, t, m, ha, hs, hm, hle⟩
  · refine iff_of_true (expanded_single ha hw) fun a' t' he => ?_
    rw [ha] at he
    cases he
  · obtain ⟨z, hgap⟩ := gap_of_split ha hs hm hle
    exact hgap.expanded_iff hglen hglt

/-! ### Keys of IPv6 addresses -/

theorem not_colon_canonical {p : List Char} (hp : ':' ∉ p) : ':' ∉ canonical p := by
  intro h
  obtain ⟨c, hc, he⟩ := List.mem_map.mp h
  obtain rfl := (toLower_eq he).resolve_right (by decide)
  rcases List.mem_append.mp hc with hc | hc
  · exact absurd (List.eq_of_mem_replicate hc) (by decide)
  · exact hp hc

theorem not_colon_pieces {s p : List Char} (h : p ∈ pieces s) : ':' ∉ p := by
  unfold pieces at h
  split_ifs at h with hs
  · cases h
  · exact not_mem_of_mem_splitOn h

theorem not_colon_expanded {ip : List Char} : ∀ p ∈ (expanded ip).map canonical, ':' ∉ p := by
  intro p hp
  obtain ⟨q, hq, rfl⟩ := List.mem_map.mp hp
  refine not_colon_canonical ?_
  unfold expanded at hq
  rcases List.mem_append.mp hq with hq | hq
  · rcases List.mem_append.mp hq with hq | hq
    · exact not_colon_pieces hq
    · rw [List.eq_of_mem_replicate hq]
      decide
  · exact not_colon_pieces hq

theorem networkKey_v6 {ip : List Char} (h4 : isIPv4 ip = false) (h6 : isIPv6 ip = true)
    (hm : v4mapped ip = none) :
    networkKey ip = join ':' (((expanded ip).take 4).map canonical) ++ [':', ':', '/', '6', '4'] := by
  have hip : isIP ip = 6 := by
    unfold isIP
    rw [h4, h6]
    rfl
  have hne : (expanded ip).map canonical ≠ [] := by
    intro hn
    have hlen := expanded_length ip
    rw [List.map_eq_nil_iff.mp hn] at hlen
    cases hlen
  unfold networkKey expandV6
  rw [hm]
  dsimp only
  rw [if_pos hip, splitOn_join not_colon_expanded hne, ← List.map_take]

/-- What `v4mapped` captures: the prefix, and four decimal numerals. -/
theorem v4mapped_spec {ip q : List Char} (h : v4mapped ip = some q) :
    ∃ f, ip = ':' :: ':' :: (f ++ ':' :: q) ∧ canonical f = ['f', 'f', 'f', 'f'] ∧
      (∀ c ∈ f, c ≠ ':' ∧ c ≠ '%') ∧ (∀ c ∈ q, c.isDigit = true ∨ c = '.') ∧ '.' ∈ q := by
  unfold v4mapped at h
  split_ifs at h with hc
  obtain ⟨hpre, hlen, hall⟩ := hc
  obtain rfl := Option.some.inj h
  have hchars : ∀ c ∈ ip.drop 7, c.isDigit = true ∨ c = '.' := by
    intro c hc
    rcases mem_splitOn '.' hc with rfl | ⟨p, hp, hcp⟩
    · exact Or.inr rfl
    · have hp' := List.all_eq_true.mp hall p hp
      exact Or.inl (List.all_eq_true.mp (Bool.and_eq_true_iff.mp hp').2 c hcp)
  have hdot : '.' ∈ ip.drop 7 := by
    by_contra hn
    rw [List.splitOn_eq_singleton hn] at hlen
    cases hlen
  match ip, hpre with
  | c₁ :: c₂ :: c₃ :: c₄ :: c₅ :: c₆ :: c₇ :: q, hpre =>
      simp only [List.take_succ_cons, List.take_zero, List.map_cons, List.map_nil,
        List.cons.injEq, and_true] at hpre
      obtain ⟨h₁, h₂, h₃, h₄, h₅, h₆, h₇⟩ := hpre
      obtain rfl := (toLower_eq h₁).resolve_right (by decide)
      obtain rfl := (toLower_eq h₂).resolve_right (by decide)
      obtain rfl := (toLower_eq h₇).resolve_right (by decide)
      refine ⟨[c₃, c₄, c₅, c₆], rfl, ?_, fun c hc => ?_, hchars, hdot⟩
      · show [c₃.toLower, c₄.toLower, c₅.toLower, c₆.toLower] = _
        rw [h₃, h₄, h₅, h₆]
      · have hf : c.toLower = 'f' := by
          simp only [List.mem_cons, List.not_mem_nil, or_false] at hc
          rcases hc with rfl | rfl | rfl | rfl <;> assumption
        constructor
        · rintro rfl
          exact absurd hf (by decide)
        · rintro rfl
          exact absurd hf (by decide)

/-- A mapped address in its plain spelling. -/
theorem network_of_v4mapped {ip q : List Char} (h4 : isIPv4 ip = false) (h6 : isIPv6 ip = true)
    (hq : v4mapped ip = some q) : isIPv4 q = true ∧ network ip = .v4 (octets q) := by
  obtain ⟨f, rfl, hf, hfc, hqc, hdot⟩ := v4mapped_spec hq
  have hg : groupsText (':' :: ':' :: (f ++ ':' :: q)) = ':' :: ':' :: (f ++ ':' :: q) := by
    refine List.takeWhile_eq_self_iff.mpr fun c hc => ?_
    have hne : c ≠ '%' := by
      simp only [List.mem_cons, List.mem_append] at hc
      rcases hc with rfl | rfl | hc | rfl | hc
      · decide
      · decide
      · exact (hfc c hc).2
      · decide
      · rintro rfl
        rcases hqc _ hc with hd | hd <;> exact absurd hd (by decide)
    exact decide_eq_true hne
  have hgr := (Bool.and_eq_true_iff.mp h6).1
  unfold network
  rw [hg] at hgr ⊢
  have hsplit : splitPair ':' (':' :: ':' :: (f ++ ':' :: q)) =
      [] :: splitPair ':' (f ++ ':' :: q) := by
    rw [splitPair, if_pos ⟨rfl, rfl⟩]
  rcases isGroups_cases hgr with ⟨a, ha, -⟩ | ⟨a, t, m, ha, hs, hm, hle⟩
  · rw [hsplit] at ha
    exact absurd (List.cons.inj ha).2 (splitPair_ne_nil _ _)
  · have ha' := hsplit.symm.trans ha
    obtain ⟨rfl, ht⟩ := List.cons.inj ha'
    obtain rfl := eq_of_splitPair ht
    have hpieces : pieces (f ++ ':' :: q) = [f, q] := by
      have hqcolon : ':' ∉ q := by
        intro hc
        rcases hqc _ hc with hd | hd <;> exact absurd hd (by decide)
      unfold pieces
      rw [if_neg (by simp), List.splitOn_append_cons_self_of_not_mem fun hc => (hfc _ hc).1 rfl,
        List.splitOn_eq_singleton hqcolon]
    have hqseg : isSeg q ≠ true := by
      intro hseg
      exact absurd (isSeg_hex hseg _ hdot) (by decide)
    have hwidth : isSeg f = true ∧ isIPv4 q = true := by
      rw [hpieces] at hm
      have hp := width_piece hm
      unfold width at hm
      split_ifs at hm with hfs
      exact ⟨hfs, (hp q (by simp)).resolve_left hqseg⟩
    obtain ⟨hfs, hq4⟩ := hwidth
    obtain ⟨b₁, b₂, b₃, b₄, hoct, hwords⟩ := words_isIPv4 hq4
    have hval : groupValue f = 65535 := by
      refine hex4_inj (groupValue_lt hfs) (by decide) ?_
      rw [← canonical_of_isSeg hfs, hf]
      decide
    have hlen := length_words hm
    have hw : words (pieces (f ++ ':' :: q)) = [65535, 256 * b₁ + b₂, 256 * b₃ + b₄] := by
      rw [hpieces, words_cons [q] hfs, hwords, hval]
    rw [hw] at hlen
    obtain rfl : m = 3 := hlen.symm
    have hgroups : groups (':' :: ':' :: (f ++ ':' :: q)) =
        [0, 0, 0, 0, 0, 65535, 256 * b₁ + b₂, 256 * b₃ + b₄] := by
      rw [groups_pair ha hs hm, hw]
      rfl
    have hlt := (octets_spec hq4).2.2
    rw [hoct] at hlt
    have h₂ := hlt b₂ (by simp)
    have h₄ := hlt b₄ (by simp)
    refine ⟨hq4, ?_⟩
    have hmap : IsMapped [0, 0, 0, 0, 0, 65535, 256 * b₁ + b₂, 256 * b₃ + b₄] := rfl
    rw [if_neg (by rw [h4]; exact Bool.false_ne_true), hgroups, if_pos hmap, hoct]
    show Network.v4 [(256 * b₁ + b₂) / 256, (256 * b₁ + b₂) % 256, (256 * b₃ + b₄) / 256,
      (256 * b₃ + b₄) % 256] = _
    have e₁ : (256 * b₁ + b₂) / 256 = b₁ := by omega
    have e₂ : (256 * b₁ + b₂) % 256 = b₂ := by omega
    have e₃ : (256 * b₃ + b₄) / 256 = b₃ := by omega
    have e₄ : (256 * b₃ + b₄) % 256 = b₄ := by omega
    rw [e₁, e₂, e₃, e₄]

theorem isIPv6_of_isIP {ip : List Char} (h : isIP ip ≠ 0) (h4 : isIPv4 ip = false) :
    isIPv6 ip = true := by
  unfold isIP at h
  rw [h4, if_neg Bool.false_ne_true] at h
  by_contra hn
  exact h (if_neg hn)

theorem network_valid {ip : List Char} (h : isIP ip ≠ 0) : (network ip).Valid := by
  unfold network
  split_ifs with h4 hm
  · exact ⟨(octets_spec h4).2.1, (octets_spec h4).2.2⟩
  · have h6 := isIPv6_of_isIP h (Bool.eq_false_of_not_eq_true h4)
    obtain ⟨hlen, hlt⟩ := groups_spec (Bool.and_eq_true_iff.mp h6).1
    have hdrop : ((groups (groupsText ip)).drop 6).length = 2 := by
      rw [List.length_drop]
      omega
    match hd : (groups (groupsText ip)).drop 6, hdrop with
    | [x, y], _ =>
        have hx : x < 65536 := hlt x (List.mem_of_mem_drop (by rw [hd]; simp))
        have hy : y < 65536 := hlt y (List.mem_of_mem_drop (by rw [hd]; simp))
        refine ⟨rfl, fun b hb => ?_⟩
        have hb' : b = x / 256 ∨ b = x % 256 ∨ b = y / 256 ∨ b = y % 256 := by simpa using hb
        omega
  · have h6 := isIPv6_of_isIP h (Bool.eq_false_of_not_eq_true h4)
    obtain ⟨hlen, hlt⟩ := groups_spec (Bool.and_eq_true_iff.mp h6).1
    refine ⟨?_, fun g hg => hlt g (List.mem_of_mem_take hg)⟩
    rw [List.length_take]
    omega

/-- An accepted address has the key of its network if and only if it is spelled plainly. -/
theorem networkKey_eq_key_iff {ip : List Char} (h : isIP ip ≠ 0) :
    networkKey ip = key (network ip) ↔ Plain ip := by
  cases h4 : isIPv4 ip with
  | true => exact iff_of_true (networkKey_of_isIPv4 h4) (Or.inl h4)
  | false =>
      have h6 := isIPv6_of_isIP h h4
      have hg := (Bool.and_eq_true_iff.mp h6).1
      cases hm : v4mapped ip with
      | some q =>
          obtain ⟨hq, hn⟩ := network_of_v4mapped h4 h6 hm
          refine iff_of_true ?_ (Or.inr (Or.inl (by rw [hm]; simp)))
          unfold networkKey
          rw [hm, hn]
          exact (octets_spec hq).1.symm
      | none =>
          have hplain : Plain ip ↔ ¬ IsMapped (groups (groupsText ip)) ∧ Aligned ip := by
            unfold Plain
            rw [h4, hm]
            simp
          have hvalid := network_valid h
          rw [networkKey_v6 h4 h6 hm, hplain]
          by_cases hmap : IsMapped (groups (groupsText ip))
          · refine iff_of_false (fun he => ?_) fun hp => hp.1 hmap
            unfold network at he hvalid
            rw [if_neg (by rw [h4]; exact Bool.false_ne_true), if_pos hmap] at he hvalid
            have hslash : '/' ∈ key (.v4 (((groups (groupsText ip)).drop 6).flatMap
                fun g => [g / 256, g % 256])) := by
              rw [← he]
              exact List.mem_append_right _ (by decide)
            rcases isIPv4_chars (octets_join hvalid).1 _ hslash with hd | hd
            · exact absurd hd (by decide)
            · exact absurd hd (by decide)
          · rw [and_iff_right hmap, ← expanded_iff hg]
            unfold network
            rw [if_neg (by rw [h4]; exact Bool.false_ne_true), if_neg hmap]
            refine ⟨fun he => ?_, fun he => by rw [he]; rfl⟩
            have he := List.append_cancel_right he
            have hlen := expanded_length ip
            have hglen := (groups_spec hg).1
            refine join_colon_inj (fun p hp => ?_) (fun p hp => ?_) ?_ ?_ he
            · rw [List.map_take] at hp
              exact not_colon_expanded p (List.mem_of_mem_take hp)
            · obtain ⟨g, -, rfl⟩ := List.mem_map.mp hp
              exact not_mem_hex4 (by decide) g
            · intro hn
              have := congrArg List.length hn
              rw [List.length_map, List.length_take] at this
              simp only [List.length_nil] at this
              omega
            · intro hn
              have := congrArg List.length hn
              rw [List.length_map, List.length_take] at this
              simp only [List.length_nil] at this
              omega

/-! ### A plain spelling for every network -/

/-- An IPv4 address, or all eight groups with zeros in the lower half. -/
def spell : Network → List Char
  | .v4 bs => join '.' (bs.map decimal)
  | .v6 gs => join ':' ((gs ++ [0, 0, 0, 0]).map hex4)

theorem isSeg_hex4 (n : ℕ) : isSeg (hex4 n) = true := by
  have hd : ∀ m, isHex (hexDigit (m % 16)) = true :=
    fun m => isHex_hexDigit _ (Nat.mod_lt m (by decide))
  unfold isSeg hex4
  simp [hd]

theorem width_of_isSeg {ps : List (List Char)} (h : ∀ p ∈ ps, isSeg p = true) :
    width ps = some ps.length := by
  induction ps with
  | nil => rfl
  | cons p ps ih =>
      have ih := ih fun q hq => h q (List.mem_cons_of_mem _ hq)
      cases ps with
      | nil => exact if_pos (h p List.mem_cons_self)
      | cons q ps =>
          unfold width
          rw [if_pos (h p List.mem_cons_self), ih]
          rfl

theorem spell_v6 {gs : List ℕ} (h : (Network.v6 gs).Valid) :
    isIPv4 (spell (.v6 gs)) = false ∧ isIPv6 (spell (.v6 gs)) = true ∧
      splitPair ':' (groupsText (spell (.v6 gs))) = [spell (.v6 gs)] ∧
        groups (groupsText (spell (.v6 gs))) = gs ++ [0, 0, 0, 0] := by
  obtain ⟨parts, hparts⟩ : ∃ parts, parts = (gs ++ [0, 0, 0, 0]).map hex4 := ⟨_, rfl⟩
  obtain ⟨s, hs⟩ : ∃ s, s = join ':' parts := ⟨_, rfl⟩
  have hspell : spell (.v6 gs) = s := by
    rw [hs, hparts]
    rfl
  have hlen : parts.length = 8 := by
    rw [hparts, List.length_map, List.length_append, h.1]
    rfl
  have hne : parts ≠ [] := by
    rintro rfl
    cases hlen
  have hseg : ∀ p ∈ parts, isSeg p = true := by
    intro p hp
    rw [hparts] at hp
    obtain ⟨g, -, rfl⟩ := List.mem_map.mp hp
    exact isSeg_hex4 g
  have hcolon : ∀ p ∈ parts, ':' ∉ p := fun p hp hc =>
    absurd (isSeg_hex (hseg p hp) _ hc) (by decide)
  have hsplit : s.splitOn ':' = parts := hs ▸ splitOn_join hcolon hne
  have hchars : ∀ c ∈ s, c = ':' ∨ isHex c = true := by
    intro c hc
    rcases mem_splitOn ':' hc with rfl | ⟨p, hp, hcp⟩
    · exact Or.inl rfl
    · rw [hsplit] at hp
      exact Or.inr (isSeg_hex (hseg p hp) c hcp)
  have hnot : ∀ c, c ≠ ':' → isHex c = false → c ∉ s := by
    intro c hc hx hm
    rcases hchars c hm with he | he
    · exact hc he
    · rw [hx] at he
      cases he
  have hpercent : ∀ c ∈ s, decide (c ≠ '%') = true := by
    intro c hc
    refine decide_eq_true ?_
    rintro rfl
    exact hnot '%' (by decide) (by decide) hc
  have hgt : groupsText s = s := List.takeWhile_eq_self_iff.mpr hpercent
  have hzt : zoneText s = [] := List.dropWhile_eq_nil_iff.mpr hpercent
  have hpair : splitPair ':' s = [s] := by
    rw [hs]
    refine splitPair_join (fun p hp => ⟨hcolon p hp, ?_⟩) hne
    rintro rfl
    exact absurd (hseg _ hp) (by decide)
  have hpieces : pieces s = parts := by
    unfold pieces
    rw [if_neg, hsplit]
    rintro rfl
    rw [List.splitOn_nil] at hsplit
    rw [← hsplit] at hlen
    cases hlen
  have hwidth : width (pieces s) = some 8 := by
    rw [hpieces, width_of_isSeg hseg, hlen]
  rw [hspell, hgt]
  refine ⟨?_, ?_, hpair, ?_⟩
  · by_contra hn
    exact hnot '.' (by decide) (by decide) (isIPv4_dot (Bool.eq_true_of_not_eq_false hn))
  · unfold isIPv6 isGroups
    rw [hgt, hzt, hpair]
    dsimp only
    rw [hwidth]
    rfl
  · rw [groups_single hpair, hpieces, words_of_isSeg hseg, hparts]
    refine map_map_of_inverse fun g hg => groupValue_hex4 ?_
    rcases List.mem_append.mp hg with hg | hg
    · exact h.2 g hg
    · rw [List.eq_of_mem_replicate (n := 4) (a := 0) hg]
      decide

/-- Every network has an accepted, plain spelling. -/
theorem spell_spec {N : Network} (h : N.Valid) :
    isIP (spell N) ≠ 0 ∧ Plain (spell N) ∧ network (spell N) = N := by
  cases N with
  | v4 bs =>
      obtain ⟨h4, ho⟩ := octets_join h
      have h4 : isIPv4 (spell (.v4 bs)) = true := h4
      refine ⟨?_, Or.inl h4, ?_⟩
      · unfold isIP
        rw [if_pos h4]
        decide
      · unfold network
        rw [if_pos h4]
        exact congrArg Network.v4 ho
  | v6 gs =>
      obtain ⟨h4, h6, hsplit, hgr⟩ := spell_v6 h
      have hmap : ¬ IsMapped (groups (groupsText (spell (.v6 gs)))) := by
        rw [hgr]
        match gs, h.1 with
        | [a, b, c, d], _ =>
            intro hm
            have : [a, b, c, d, 0, 0] = [0, 0, 0, 0, 0, 65535] := hm
            simp at this
      have h4' : ¬ isIPv4 (spell (.v6 gs)) = true := by
        rw [h4]
        exact Bool.false_ne_true
      refine ⟨?_, Or.inr (Or.inr ⟨⟨h4, hmap⟩, fun a t he => ?_⟩), ?_⟩
      · unfold isIP
        rw [if_neg h4', if_pos h6]
        decide
      · rw [hsplit] at he
        cases he
      · unfold network
        rw [if_neg h4', if_neg hmap, hgr, List.take_append_of_le_length h.1.ge,
          List.take_of_length_le h.1.le]

/-- **Network keys.** Among plainly spelled addresses two have the same key if and only if they are
the same IPv4 address, mapped or not, or have the same upper half; an address that is spelled in
another way has the wrong key beside some plainly spelled one. -/
theorem networkKey_iff {a : List Char} (ha : isIP a ≠ 0) :
    (∀ b, isIP b ≠ 0 → Plain b → (networkKey a = networkKey b ↔ network a = network b)) ↔
      Plain a := by
  constructor
  · intro h
    obtain ⟨hip, hplain, hn⟩ := spell_spec (network_valid ha)
    have hkey := (networkKey_eq_key_iff hip).mpr hplain
    rw [← networkKey_eq_key_iff ha, (h _ hip hplain).mpr hn.symm, hkey, hn]
  · intro hp b hb hpb
    rw [(networkKey_eq_key_iff ha).mpr hp, (networkKey_eq_key_iff hb).mpr hpb]
    exact ⟨fun h => key_inj (network_valid ha) (network_valid hb) h, fun h => by rw [h]⟩

/-- A mapped address in its plain spelling beside the IPv4 address. -/
theorem networkKey_iff_mapped :
    networkKey "::ffff:10.0.0.1".toList = networkKey "10.0.0.1".toList ↔
      network "::ffff:10.0.0.1".toList = network "10.0.0.1".toList := by
  have h₁ : isIP "::ffff:10.0.0.1".toList ≠ 0 := by decide
  have h₂ : isIP "10.0.0.1".toList ≠ 0 := by decide
  have hp₁ : Plain "::ffff:10.0.0.1".toList := Or.inr (Or.inl (by decide))
  have hp₂ : Plain "10.0.0.1".toList := Or.inl (by decide)
  exact (networkKey_iff h₁).mpr hp₁ _ h₂ hp₂

/-- Spelled in hexadecimal, a mapped address gets the key of the loopback network `::/64`; and an
embedded quad moves the fourth group. -/
theorem networkKey_hexadecimal :
    (isIP "::ffff:a00:1".toList = 6 ∧ isIP "::1".toList = 6 ∧
      networkKey "::ffff:a00:1".toList = networkKey "::1".toList ∧
      network "::ffff:a00:1".toList ≠ network "::1".toList) ∧
    isIP "2001:db8::3:4:5:1.2.3.4".toList = 6 ∧ isIP "2001:db8:0:3:4:5:102:304".toList = 6 ∧
      networkKey "2001:db8::3:4:5:1.2.3.4".toList ≠
        networkKey "2001:db8:0:3:4:5:102:304".toList ∧
      network "2001:db8::3:4:5:1.2.3.4".toList = network "2001:db8:0:3:4:5:102:304".toList := by
  decide +kernel

end RoomBackend.Ip
