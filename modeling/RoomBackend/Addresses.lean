import RoomBackend.Texts

/-! # Addresses

`net/ip.ts`, and `net.isIP`, the grammar of the addresses it accepts. Texts are lists of
characters. -/

namespace RoomBackend.Ip

open Texts

/-! ### What `net.isIP` accepts -/

/-- A digit from `a` to `b`. -/
def digitIn (a b c : Char) : Bool := a.toNat ≤ c.toNat && c.toNat ≤ b.toNat

/-- `25[0-5]|2[0-4]\d|1\d\d|[1-9]\d|\d`. -/
def isOctet : List Char → Bool
  | [a] => a.isDigit
  | [a, b] => digitIn '1' '9' a && b.isDigit
  | [a, b, c] =>
      (a = '1' && b.isDigit && c.isDigit) || (a = '2' && digitIn '0' '4' b && c.isDigit) ||
        (a = '2' && b = '5' && digitIn '0' '5' c)
  | _ => false

/-- `net.isIPv4`: four octets. -/
def isIPv4 (s : List Char) : Bool := (s.splitOn '.').length = 4 && (s.splitOn '.').all isOctet

def isHex (c : Char) : Bool := c.isDigit || digitIn 'a' 'f' c || digitIn 'A' 'F' c

/-- `[0-9a-fA-F]{1,4}`. -/
def isSeg (s : List Char) : Bool := 1 ≤ s.length && s.length ≤ 4 && s.all isHex

/-- The parts of a text between colons; the empty text has none. -/
def pieces (s : List Char) : List (List Char) := if s = [] then [] else s.splitOn ':'

/-- The groups that pieces of an address stand for: each is one group, but the last may be an IPv4
address, which is two. -/
def width : List (List Char) → Option ℕ
  | [] => some 0
  | [p] => if isSeg p then some 1 else if isIPv4 p then some 2 else none
  | p :: ps => if isSeg p then (width ps).map (· + 1) else none

/-- Eight groups, or fewer around one double colon, which stands for at least one group. -/
def isGroups (s : List Char) : Bool :=
  match splitPair ':' s with
  | [h] => width (pieces h) = some 8
  | [h, t] => (pieces h).all isSeg && (width (pieces t)).any fun m => (pieces h).length + m ≤ 7
  | _ => false

def isZoneChar (c : Char) : Bool := c.isAlphanum || c = '-' || c = '.' || c = ':'

/-- `(?:%[0-9a-zA-Z-.:]{1,})?`. -/
def isZone : List Char → Bool
  | [] => true
  | _ :: z => z ≠ [] && z.all isZoneChar

/-- An IPv6 address without its zone. -/
def groupsText (s : List Char) : List Char := s.takeWhile (· ≠ '%')

/-- The zone of an IPv6 address, with its `%`. -/
def zoneText (s : List Char) : List Char := s.dropWhile (· ≠ '%')

/-- `net.isIPv6`. -/
def isIPv6 (s : List Char) : Bool := isGroups (groupsText s) && isZone (zoneText s)

/-- `net.isIP`. -/
def isIP (s : List Char) : ℕ := if isIPv4 s then 4 else if isIPv6 s then 6 else 0

/-! ### `networkKey` -/

/-- `/^::ffff:(\d+\.\d+\.\d+\.\d+)$/i`, what it captures. -/
def v4mapped (ip : List Char) : Option (List Char) :=
  if (ip.take 7).map Char.toLower = [':', ':', 'f', 'f', 'f', 'f', ':'] ∧
      ((ip.drop 7).splitOn '.').length = 4 ∧
      ((ip.drop 7).splitOn '.').all (fun p => p ≠ [] && p.all Char.isDigit) = true then
    some (ip.drop 7)
  else none

/-- `x.padStart(4, "0").toLowerCase()`. -/
def canonical (x : List Char) : List Char := (x.leftpad 4 '0').map Char.toLower

/-- What stands before the first `::`. -/
def headText (ip : List Char) : List Char := (splitPair ':' ip).headD []

/-- What stands between the first `::` and the next one. -/
def tailText (ip : List Char) : List Char := (splitPair ':' ip).getD 1 []

/-- The groups that `expandV6` lists: `[...h, ...fill, ...t]`. -/
def expanded (ip : List Char) : List (List Char) :=
  let h := pieces (headText ip)
  let t := pieces (tailText ip)
  h ++ List.replicate (8 - h.length - t.length) ['0'] ++ t

def expandV6 (ip : List Char) : List Char := join ':' ((expanded ip).map canonical)

/-- `networkKey`. -/
def networkKey (ip : List Char) : List Char :=
  match v4mapped ip with
  | some q => q
  | none =>
      if isIP ip = 6 then join ':' (((expandV6 ip).splitOn ':').take 4) ++ [':', ':', '/', '6', '4']
      else ip

/-! ### `clientIp` -/

/-- A header as Node hands it over. -/
inductive HeaderValue where
  | text (v : List Char)
  | lines (vs : List (List Char))

/-- What `clientIp` reads of a request. -/
structure IncomingMessage where
  cfConnectingIp : Option HeaderValue
  xForwardedFor : Option HeaderValue
  remoteAddress : Option (List Char)

/-- `raw`: the text of `X-Forwarded-For`. -/
def HeaderValue.raw : HeaderValue → List Char
  | text v => v
  | lines vs => join ',' vs

/-- The last element of a list of addresses that is not blank. -/
def lastPart (raw : List Char) : Option (List Char) :=
  (((raw.splitOn ',').map trim).filter (· ≠ [])).getLast?

/-- The address `X-Forwarded-For` gives. -/
def forwarded (req : IncomingMessage) : Option (List Char) :=
  (req.xForwardedFor.bind fun xff => lastPart xff.raw).filter fun last => isIP last ≠ 0

/-- The address `CF-Connecting-IP` gives. -/
def connecting (req : IncomingMessage) : Option (List Char) :=
  match req.cfConnectingIp with
  | some (.text cf) => if isIP (trim cf) ≠ 0 then some (trim cf) else none
  | _ => none

/-- `req.socket.remoteAddress ?? "0.0.0.0"`. -/
def socketAddress (req : IncomingMessage) : List Char :=
  req.remoteAddress.getD ['0', '.', '0', '.', '0', '.', '0']

/-- `clientIp`. -/
def clientIp (req : IncomingMessage) (trustProxy : Bool) : List Char :=
  if trustProxy then ((connecting req).or (forwarded req)).getD (socketAddress req)
  else socketAddress req

/-! ### The characters of an address -/

def isAddressChar (c : Char) : Bool := isZoneChar c || c = '%'

theorem isAddressChar_of_isDigit {c : Char} (h : c.isDigit = true) : isAddressChar c = true := by
  simp [isAddressChar, isZoneChar, Char.isAlphanum, h]

theorem isDigit_iff {c : Char} : c.isDigit = true ↔ digitIn '0' '9' c = true := by
  unfold Char.isDigit digitIn
  simp only [Bool.and_eq_true, decide_eq_true_eq, ge_iff_le, UInt32.le_iff_toNat_le]
  exact Iff.rfl

theorem isAlpha_iff {c : Char} :
    c.isAlpha = true ↔ digitIn 'A' 'Z' c = true ∨ digitIn 'a' 'z' c = true := by
  unfold Char.isAlpha Char.isUpper Char.isLower digitIn
  simp only [Bool.or_eq_true, Bool.and_eq_true, decide_eq_true_eq, ge_iff_le,
    UInt32.le_iff_toNat_le]
  exact Iff.rfl

theorem digitIn_mono {a b a' b' c : Char} (ha : a'.toNat ≤ a.toNat) (hb : b.toNat ≤ b'.toNat)
    (h : digitIn a b c = true) : digitIn a' b' c = true := by
  unfold digitIn at h ⊢
  simp only [Bool.and_eq_true, decide_eq_true_eq] at h ⊢
  exact ⟨ha.trans h.1, h.2.trans hb⟩

theorem isOctet_digits {p : List Char} (h : isOctet p = true) : ∀ c ∈ p, c.isDigit = true := by
  have hdigit : ∀ {a b c : Char}, digitIn a b c = true → '0'.toNat ≤ a.toNat →
      b.toNat ≤ '9'.toNat → c.isDigit = true :=
    fun h ha hb => isDigit_iff.mpr (digitIn_mono ha hb h)
  have htwo : '1'.isDigit = true ∧ '2'.isDigit = true ∧ '5'.isDigit = true := by decide
  intro x hx
  unfold isOctet at h
  split at h
  · obtain rfl := List.mem_singleton.mp hx
    exact h
  · simp only [Bool.and_eq_true] at h
    simp only [List.mem_cons, List.not_mem_nil, or_false] at hx
    rcases hx with rfl | rfl
    · exact hdigit h.1 (by decide) (by decide)
    · exact h.2
  · simp only [Bool.or_eq_true, Bool.and_eq_true, decide_eq_true_eq] at h
    simp only [List.mem_cons, List.not_mem_nil, or_false] at hx
    rcases h with (⟨⟨rfl, hb⟩, hc⟩ | ⟨⟨rfl, hb⟩, hc⟩) | ⟨⟨rfl, rfl⟩, hc⟩
    · rcases hx with rfl | rfl | rfl
      exacts [htwo.1, hb, hc]
    · rcases hx with rfl | rfl | rfl
      exacts [htwo.2.1, hdigit hb (by decide) (by decide), hc]
    · rcases hx with rfl | rfl | rfl
      exacts [htwo.2.1, htwo.2.2, hdigit hc (by decide) (by decide)]
  · cases h

theorem isIPv4_chars {s : List Char} (h : isIPv4 s = true) :
    ∀ c ∈ s, c.isDigit = true ∨ c = '.' := by
  intro c hc
  rcases mem_splitOn '.' hc with rfl | ⟨p, hp, hcp⟩
  · exact Or.inr rfl
  · obtain ⟨-, hall⟩ := Bool.and_eq_true_iff.mp h
    exact Or.inl (isOctet_digits (List.all_eq_true.mp hall p hp) c hcp)

theorem isSeg_hex {p : List Char} (h : isSeg p = true) : ∀ c ∈ p, isHex c = true := by
  unfold isSeg at h
  simp only [Bool.and_eq_true] at h
  exact List.all_eq_true.mp h.2

theorem isAlpha_of_digitIn {c : Char} (h : digitIn 'a' 'f' c = true ∨ digitIn 'A' 'F' c = true) :
    c.isAlpha = true := by
  refine isAlpha_iff.mpr ?_
  rcases h with h | h
  · exact Or.inr (digitIn_mono (le_refl _) (by decide) h)
  · exact Or.inl (digitIn_mono (le_refl _) (by decide) h)

theorem isAddressChar_of_isHex {c : Char} (h : isHex c = true) : isAddressChar c = true := by
  unfold isHex at h
  simp only [Bool.or_eq_true] at h
  unfold isAddressChar isZoneChar Char.isAlphanum
  rcases h with (h | h) | h
  · simp [h]
  · simp [isAlpha_of_digitIn (Or.inl h)]
  · simp [isAlpha_of_digitIn (Or.inr h)]

theorem isAddressChar_of_isIPv4 {s : List Char} (h : isIPv4 s = true) :
    ∀ c ∈ s, isAddressChar c = true := by
  intro c hc
  rcases isIPv4_chars h c hc with hd | rfl
  · exact isAddressChar_of_isDigit hd
  · decide

/-- The pieces of an address: groups, and an IPv4 address at the end. -/
theorem width_piece {ps : List (List Char)} {m : ℕ} (h : width ps = some m) :
    ∀ p ∈ ps, isSeg p = true ∨ isIPv4 p = true := by
  induction ps generalizing m with
  | nil => exact fun p hp => absurd hp List.not_mem_nil
  | cons q ps ih =>
      intro p hp
      cases ps with
      | nil =>
          obtain rfl := List.mem_singleton.mp hp
          unfold width at h
          split_ifs at h with h₁ h₂
          · exact Or.inl h₁
          · exact Or.inr h₂
      | cons q' ps =>
          unfold width at h
          split_ifs at h with h₁
          obtain ⟨m', hm, -⟩ := Option.map_eq_some_iff.mp h
          rcases List.mem_cons.mp hp with rfl | hp
          · exact Or.inl h₁
          · exact ih hm p hp

theorem isAddressChar_of_width {s : List Char} {m : ℕ} (h : width (pieces s) = some m) :
    ∀ c ∈ s, isAddressChar c = true := by
  intro c hc
  have hne : s ≠ [] := List.ne_nil_of_mem hc
  rcases mem_splitOn ':' hc with rfl | ⟨p, hp, hcp⟩
  · decide
  · have hp' : p ∈ pieces s := by
      unfold pieces
      rwa [if_neg hne]
    rcases width_piece h p hp' with hs | h4
    · exact isAddressChar_of_isHex (isSeg_hex hs c hcp)
    · exact isAddressChar_of_isIPv4 h4 c hcp

theorem isAddressChar_of_isGroups {s : List Char} (h : isGroups s = true) :
    ∀ c ∈ s, isAddressChar c = true := by
  intro c hc
  unfold isGroups at h
  rcases mem_splitPair ':' hc with rfl | ⟨p, hp, hcp⟩
  · decide
  · split at h
    · rename_i hd he
      rw [he] at hp
      obtain rfl := List.mem_singleton.mp hp
      exact isAddressChar_of_width (of_decide_eq_true h) c hcp
    · rename_i hd tl he
      rw [he] at hp
      obtain ⟨h₁, h₂⟩ := Bool.and_eq_true_iff.mp h
      obtain ⟨m, hm, -⟩ := (Option.any_eq_true _ _).mp h₂
      rcases List.mem_cons.mp hp with rfl | hp
      · rcases mem_splitOn ':' hcp with rfl | ⟨q, hq, hcq⟩
        · decide
        · have hq' : q ∈ pieces p := by
            unfold pieces
            rwa [if_neg (List.ne_nil_of_mem hcp)]
          exact isAddressChar_of_isHex (isSeg_hex (List.all_eq_true.mp h₁ q hq') c hcq)
      · obtain rfl := List.mem_singleton.mp hp
        exact isAddressChar_of_width hm c hcp
    · cases h

theorem zoneText_head {s : List Char} : ∀ c ∈ (zoneText s).head?, c = '%' := by
  intro x hx
  have hnot := List.head?_dropWhile_not (· ≠ '%') s
  rw [show (s.dropWhile fun c => decide (c ≠ '%')).head? = some x from hx] at hnot
  simpa using hnot

theorem isZone_chars {s : List Char} (h : isZone (zoneText s) = true) :
    ∀ c ∈ zoneText s, isAddressChar c = true := by
  intro c hc
  have hpercent := zoneText_head (s := s)
  cases hz : zoneText s with
  | nil =>
      rw [hz] at hc
      cases hc
  | cons x z =>
      rw [hz] at h hc hpercent
      obtain ⟨-, hall⟩ := Bool.and_eq_true_iff.mp h
      unfold isAddressChar
      rcases List.mem_cons.mp hc with rfl | hc
      · rw [hpercent c rfl]
        decide
      · rw [List.all_eq_true.mp hall c hc, Bool.true_or]

/-- What `net.isIP` accepts has no blanks and no commas. -/
theorem isIP_chars {s : List Char} (h : isIP s ≠ 0) : ∀ c ∈ s, isAddressChar c = true := by
  intro c hc
  unfold isIP at h
  split_ifs at h with h₁ h₂
  · exact isAddressChar_of_isIPv4 h₁ c hc
  · obtain ⟨hg, hz⟩ := Bool.and_eq_true_iff.mp h₂
    rw [← List.takeWhile_append_dropWhile (p := (· ≠ '%')) (l := s)] at hc
    rcases List.mem_append.mp hc with hc | hc
    · exact isAddressChar_of_isGroups hg c hc
    · exact isZone_chars hz c hc
  · exact absurd rfl h

end RoomBackend.Ip
