import Mathlib.Algebra.Order.Ring.Nat
import RoomBackend.Canonical

/-! # Sizes

What a send is on the wire: the bytes of its frame, which `maxPayload` bounds, the units of its
text, which `clientEventSchema` bounds, and its characters, which the configuration bounds. -/

namespace RoomBackend.Normalizing

open Texts Utf16

/-- Hard cap on a single inbound frame. -/
def MAX_FRAME_BYTES : ℕ := 8 * 1024

/-- The bound of `clientEventSchema` on the text of a send, in units. -/
def RAW_TEXT : ℕ := 8000

/-- What `loadConfig` admits of `MAX_MESSAGE_LENGTH` and `MAX_MESSAGE_LINES`. -/
structure TextLimits.Admitted (limits : TextLimits) : Prop where
  length_min : 10 ≤ limits.maxLength
  length_max : limits.maxLength ≤ 4000
  lines_max : limits.maxLines ≤ 100

/-- `clientId`: `[A-Za-z0-9_-]`, 1 to 64 of them. -/
structure ClientId where
  text : List Char
  nonempty : 1 ≤ text.length
  short : text.length ≤ 64
  opaqueId : ∀ c ∈ text, c.isAlphanum = true ∨ c = '_' ∨ c = '-'

/-- `day`: a positive integer the language holds exactly. -/
structure DayNumber where
  val : ℕ
  positive : 1 ≤ val
  exact : val < 2 ^ 53

/-! ### The frame -/

/-- The characters `JSON.stringify` writes as a backslash and a letter. -/
def ESCAPES : List (ℕ × Char) :=
  [(0x08, 'b'), (0x09, 't'), (0x0a, 'n'), (0x0c, 'f'), (0x0d, 'r'), (0x22, Char.ofNat 0x22),
    (0x5c, Char.ofNat 0x5c)]

def escape (c : Char) : List Char :=
  match ESCAPES.lookup c.toNat with
  | some e => [Char.ofNat 0x5c, e]
  | none =>
      if c.toNat < 0x20 then
        [Char.ofNat 0x5c, 'u', '0', '0', Nat.digitChar (c.toNat / 16),
          Nat.digitChar (c.toNat % 16)]
      else [c]

/-- A string of JSON. -/
def quote (s : List Char) : List Char :=
  Char.ofNat 0x22 :: s.flatMap escape ++ [Char.ofNat 0x22]

/-- An object of JSON, its values as they are written. -/
def object (fields : List (String × List Char)) : List Char :=
  Char.ofNat 0x7b :: join ',' (fields.map fun f => quote f.1.toList ++ ':' :: f.2) ++
    [Char.ofNat 0x7d]

/-- `JSON.stringify({ type: "send", clientId, text, day })`. -/
def sendFrame (clientId : ClientId) (text : List UInt16) (day : Option DayNumber) : List Char :=
  object ([("type", quote "send".toList), ("clientId", quote clientId.text),
    ("text", quote (decodeText text))] ++
    day.toList.map fun d => ("day", Nat.toDigits 10 d.val))

/-- The bytes of a text in UTF-8. -/
def byteLength (s : List Char) : ℕ := (s.map Char.utf8Size).sum

/-- Neither too big for the socket nor for the schema. -/
def Accepted (clientId : ClientId) (text : List UInt16) (day : Option DayNumber) : Prop :=
  byteLength (sendFrame clientId text day) ≤ MAX_FRAME_BYTES ∧ text.length ≤ RAW_TEXT

/-! ### Bytes -/

@[simp]
theorem byteLength_nil : byteLength [] = 0 := rfl

@[simp]
theorem byteLength_cons (c : Char) (s : List Char) :
    byteLength (c :: s) = c.utf8Size + byteLength s := List.sum_cons

@[simp]
theorem byteLength_append (a b : List Char) :
    byteLength (a ++ b) = byteLength a + byteLength b := by
  unfold byteLength
  rw [List.map_append, List.sum_append]

theorem byteLength_of_forall {n : ℕ} {s : List Char} (h : ∀ c ∈ s, c.utf8Size = n) :
    byteLength s = n * s.length := by
  induction s with
  | nil => rfl
  | cons c s ih =>
      rw [byteLength_cons, List.length_cons, Nat.mul_succ, Nat.add_comm,
        ih fun x hx => h x (List.mem_cons_of_mem c hx), h c List.mem_cons_self]

theorem utf8Size_of_lt {c : Char} (h : c.toNat < 0x80) : c.utf8Size = 1 := by
  unfold Char.utf8Size
  exact if_pos (by rw [UInt32.le_iff_toNat_le]; exact Nat.le_of_lt_succ h)

theorem utf8Size_of_astral {c : Char} (h : 0x10000 ≤ c.toNat) : c.utf8Size = 4 :=
  Char.utf8Size_eq_four_iff.mpr (by rw [UInt32.lt_iff_toNat_lt]; exact h)

/-! ### Escapes -/

theorem escape_self {c : Char} (h : c.toNat ∉ ESCAPES.map Prod.fst) (hc : 0x20 ≤ c.toNat) :
    escape c = [c] := by
  have hl : ESCAPES.lookup c.toNat = none :=
    List.lookup_eq_none_iff.mpr fun e he =>
      bne_iff_ne.mpr fun hn => h (hn ▸ List.mem_map_of_mem he)
  unfold escape
  rw [hl]
  exact if_neg (Nat.not_lt.mpr hc)

/-- No character that can be shown takes more than four bytes in a string of JSON. -/
theorem byteLength_escape_le {c : Char} (h : isControl c = true → c = '\n') :
    byteLength (escape c) ≤ 4 := by
  unfold escape
  cases hl : ESCAPES.lookup c.toNat with
  | some e =>
      obtain ⟨a, b, hab, -⟩ := List.lookup_eq_some_iff.mp hl
      have hmem : (c.toNat, e) ∈ ESCAPES := hab ▸ List.mem_append_right a List.mem_cons_self
      have hsize : e.utf8Size = 1 :=
        (by decide : ∀ r ∈ ESCAPES, r.2.utf8Size = 1) _ hmem
      rw [byteLength_cons, byteLength_cons, hsize]
      decide
  | none =>
      dsimp only
      split_ifs with hc
      · have hctl : isControl c = true := by
          unfold isControl
          rw [Bool.or_eq_true, decide_eq_true_eq]
          exact Or.inl (Nat.le_of_lt_succ hc)
        rw [h hctl] at hl
        cases hl
      · exact c.utf8Size_le_four

theorem byteLength_quote (s : List Char) :
    byteLength (quote s) = byteLength (s.flatMap escape) + 2 := by
  unfold quote
  rw [List.cons_append, byteLength_cons, byteLength_append]
  exact Nat.add_comm 1 _

theorem byteLength_quote_le {n : ℕ} {s : List Char}
    (h : ∀ c ∈ s, byteLength (escape c) ≤ n) : byteLength (quote s) ≤ n * s.length + 2 := by
  rw [byteLength_quote]
  refine Nat.add_le_add_right ?_ 2
  induction s with
  | nil => exact Nat.zero_le _
  | cons c s ih =>
      rw [List.flatMap_cons, byteLength_append, List.length_cons, Nat.mul_succ, Nat.add_comm]
      exact Nat.add_le_add (ih fun x hx => h x (List.mem_cons_of_mem c hx)) (h c List.mem_cons_self)

theorem byteLength_quote_self {s : List Char} (h : ∀ c ∈ s, escape c = [c]) :
    byteLength (quote s) = byteLength s + 2 := by
  have hflat : s.flatMap escape = s := by
    induction s with
    | nil => rfl
    | cons c s ih =>
        rw [List.flatMap_cons, h c List.mem_cons_self, List.singleton_append,
          ih fun x hx => h x (List.mem_cons_of_mem c hx)]
  rw [byteLength_quote, hflat]

/-! ### Frames -/

theorem byteLength_digits (n : ℕ) :
    byteLength (Nat.toDigits 10 n) = (Nat.toDigits 10 n).length := by
  rw [@byteLength_of_forall 1 _ fun c hc => ?_, Nat.one_mul]
  have hd := Nat.isDigit_of_mem_toDigits (by decide) (by decide) hc
  unfold Char.isDigit at hd
  rw [Bool.and_eq_true, decide_eq_true_eq, decide_eq_true_eq, UInt32.le_iff_toNat_le] at hd
  exact utf8Size_of_lt (Nat.lt_of_le_of_lt hd.2 (by decide))

theorem byteLength_sendFrame (clientId : ClientId) (text : List UInt16) (day : Option DayNumber) :
    byteLength (sendFrame clientId text day) =
      byteLength (quote clientId.text) + byteLength (quote (decodeText text)) +
        day.elim 35 fun d => byteLength (Nat.toDigits 10 d.val) + 42 := by
  have hmarks : (',' : Char).utf8Size = 1 ∧ (':' : Char).utf8Size = 1 := ⟨rfl, rfl⟩
  have hbraces : (Char.ofNat 0x7b).utf8Size = 1 ∧ (Char.ofNat 0x7d).utf8Size = 1 := ⟨rfl, rfl⟩
  have htype : byteLength (quote "type".toList) = 6 := by decide
  have hsend : byteLength (quote "send".toList) = 6 := by decide
  have hid : byteLength (quote "clientId".toList) = 10 := by decide
  have htext : byteLength (quote "text".toList) = 6 := by decide
  have hday : byteLength (quote "day".toList) = 5 := by decide
  unfold sendFrame object
  cases day with
  | none =>
      simp only [Option.toList_none, List.map_nil, List.append_nil, List.map_cons, join_cons_cons,
        join_singleton, List.cons_append, byteLength_cons, byteLength_append, byteLength_nil,
        hmarks, hbraces, htype, hsend, hid, htext, Option.elim_none]
      omega
  | some d =>
      simp only [Option.toList_some, List.map_nil, List.map_cons, List.cons_append, List.nil_append,
        join_cons_cons, join_singleton, byteLength_cons, byteLength_append, byteLength_nil,
        hmarks, hbraces, htype, hsend, hid, htext, hday, Option.elim_some]
      omega

theorem ascii_of_alphanum {c : Char} (h : c.isAlphanum = true ∨ c = '_' ∨ c = '-') :
    (c.toNat = 0x2d ∨ 0x30 ≤ c.toNat ∧ c.toNat ≤ 0x7a) ∧ c.toNat ≠ 0x5c := by
  rcases h with h | rfl | rfl
  · unfold Char.isAlphanum Char.isAlpha Char.isUpper Char.isLower Char.isDigit at h
    simp only [Bool.or_eq_true, Bool.and_eq_true, decide_eq_true_eq, ge_iff_le, UInt32.le_iff_toNat_le,
      show c.val.toNat = c.toNat from rfl, show 'A'.val.toNat = 0x41 from rfl,
      show 'Z'.val.toNat = 0x5a from rfl, show 'a'.val.toNat = 0x61 from rfl,
      show 'z'.val.toNat = 0x7a from rfl, show '0'.val.toNat = 0x30 from rfl,
      show '9'.val.toNat = 0x39 from rfl] at h
    omega
  · decide
  · decide

theorem escape_ascii {c : Char} (h : c.isAlphanum = true ∨ c = '_' ∨ c = '-') :
    escape c = [c] := by
  have hc := ascii_of_alphanum h
  refine escape_self ?_ (by omega)
  simp only [ESCAPES, List.map_cons, List.map_nil, List.mem_cons, List.not_mem_nil, or_false,
    not_or]
  omega

theorem byteLength_clientId (clientId : ClientId) :
    byteLength (quote clientId.text) = clientId.text.length + 2 := by
  rw [byteLength_quote_self fun c h => escape_ascii (clientId.opaqueId c h),
    @byteLength_of_forall 1 _ fun c h => utf8Size_of_lt ?_, Nat.one_mul]
  have hc := ascii_of_alphanum (clientId.opaqueId c h)
  omega

theorem length_encodeText_le (t : List Char) : (encodeText t).length ≤ 2 * t.length := by
  induction t with
  | nil => exact Nat.zero_le _
  | cons c t ih =>
      rw [encodeText_cons, List.length_append, List.length_cons]
      rcases encodeChar_cases c with ⟨_, hu, -⟩ | ⟨_, _, hu, -⟩
      · rw [hu, List.length_singleton]
        omega
      · rw [hu, List.length_cons, List.length_singleton]
        omega

theorem length_digits_le (d : DayNumber) : (Nat.toDigits 10 d.val).length ≤ 16 :=
  (Nat.length_toDigits_le_iff (by decide) (by decide)).mpr (Nat.lt_trans d.exact (by decide))

/-- The rest of the frame takes 126 bytes at most. -/
theorem byteLength_sendFrame_le (clientId : ClientId) {u : Unicode} {limits : TextLimits}
    {t : List Char} (ht : Clean u limits t) (day : Option DayNumber) :
    byteLength (sendFrame clientId (encodeText t) day) ≤ 126 + 4 * t.length := by
  have hid := clientId.short
  have hquote := byteLength_quote_le fun c hc => byteLength_escape_le (ht.control c hc)
  rw [byteLength_sendFrame, decodeText_encodeText, byteLength_clientId]
  cases day with
  | none =>
      rw [Option.elim_none]
      omega
  | some d =>
      have hd := length_digits_le d
      rw [Option.elim_some, byteLength_digits]
      omega

/-! ### Symbols of four bytes -/

/-- A symbol beyond the first 65536 code points that composes with nothing, such as an emoji. -/
structure Unicode.Symbol (u : Unicode) (c : Char) : Prop where
  astral : 0x10000 ≤ c.toNat
  visible : u.isVisible c = true
  mark : u.isMark c = false
  composed : ∀ n, u.nfc (List.replicate n c) = List.replicate n c

theorem runsLe_replicate {p : Char → Bool} {c : Char} (hc : p c = false) (k n : ℕ) :
    RunsLe p k (List.replicate n c) := by
  intro r hr hp
  cases r with
  | nil => exact Nat.zero_le k
  | cons x r =>
      have hx := List.eq_of_mem_replicate (hr.subset List.mem_cons_self)
      rw [hx] at hp
      exact absurd (hp c List.mem_cons_self) (by rw [hc]; exact Bool.false_ne_true)

theorem clean_replicate {u : Unicode} {c : Char} (hc : u.Symbol c) {limits : TextLimits} {n : ℕ}
    (hn : 0 < n) (hle : n ≤ limits.maxLength) : Clean u limits (List.replicate n c) := by
  have hastral := hc.astral
  have hspace : isSpace c = false := by
    unfold isSpace
    simp only [Bool.or_eq_false_iff, Bool.and_eq_false_iff, decide_eq_false_iff_not]
    omega
  have hctl : isControl c = false := by
    unfold isControl
    simp only [Bool.or_eq_false_iff, Bool.and_eq_false_iff, decide_eq_false_iff_not]
    omega
  have hinv : INVISIBLE c = false := by
    simp only [INVISIBLE, charClass, List.any_cons, List.any_nil, Bool.or_false,
      Bool.or_eq_false_iff, Bool.and_eq_false_iff, decide_eq_false_iff_not]
    omega
  have hnl : c ≠ '\n' := fun h => absurd (h ▸ hctl) (by decide)
  have htrim : Trimmed (List.replicate n c) := fun x hx => by
    rwa [List.eq_of_mem_replicate (List.mem_of_getLast? hx)]
  have hline : (List.replicate n c).splitOn '\n' = [List.replicate n c] :=
    List.splitOn_eq_singleton fun h => hnl (List.eq_of_mem_replicate h).symm
  have hnlruns : RunsLe (· == '\n') 2 (List.replicate n c) :=
    @runsLe_replicate (· == '\n') c (beq_false_of_ne hnl) 2 n
  refine ⟨fun x hx h => ?_, fun x hx => ?_, fun x hx => ?_, runsLe_replicate hc.mark 3 n,
    hnlruns, fun x hx => ?_, htrim, fun l hl => ?_, ?_, ?_, ?_⟩
  · rw [List.eq_of_mem_replicate hx, hctl] at h
    cases h
  · rwa [List.eq_of_mem_replicate hx]
  · rw [List.eq_of_mem_replicate hx]
    omega
  · rwa [List.eq_of_mem_replicate (List.mem_of_head? hx)]
  · rw [hline] at hl
    rwa [List.mem_singleton.mp hl]
  · rw [hline]
    exact limits.lines_pos
  · rwa [List.length_replicate]
  · exact ⟨c, List.mem_replicate.mpr ⟨hn.ne', rfl⟩, hc.visible⟩

theorem byteLength_quote_replicate {u : Unicode} {c : Char} (hc : u.Symbol c) (n : ℕ) :
    byteLength (quote (List.replicate n c)) = 4 * n + 2 := by
  have hastral := hc.astral
  rw [byteLength_quote_self fun x hx => ?_, @byteLength_of_forall 4 _ fun x hx => ?_,
    List.length_replicate]
  · rw [List.eq_of_mem_replicate hx]
    exact utf8Size_of_astral hastral
  · rw [List.eq_of_mem_replicate hx]
    refine escape_self ?_ (by omega)
    simp only [ESCAPES, List.map_cons, List.map_nil, List.mem_cons, List.not_mem_nil, or_false,
      not_or]
    omega

/-- A text of that symbol is taken as it is. -/
theorem normalizeText_replicate {u : Unicode} {c : Char} (hc : u.Symbol c) {limits : TextLimits}
    {n : ℕ} (hn : 0 < n) (hle : n ≤ limits.maxLength) :
    normalizeText u (encodeText (List.replicate n c)) limits =
      .ok (encodeText (List.replicate n c)) :=
  normalizeText_encodeText (clean_replicate hc hn hle) (hc.composed n)

/-! ### The limits -/

/-- The longest identifier and the largest day. -/
def longId : ClientId :=
  ⟨List.replicate 64 'a', by decide, by decide, by
    intro c hc
    rw [List.eq_of_mem_replicate hc]
    decide⟩

def lastDay : DayNumber := ⟨9007199254740991, by decide, by decide⟩

/-- The units of a text that is taken fit the schema. -/
theorem length_le_raw {u : Unicode} {limits : TextLimits} (hl : limits.Admitted) {t : List Char}
    (ht : Clean u limits t) : (encodeText t).length ≤ RAW_TEXT := by
  have hunits := length_encodeText_le t
  have hlen := ht.length
  have hmax := hl.length_max
  unfold RAW_TEXT
  omega

/-- The limits agree for every text exactly if the texts are not to be longer than 2016. The units
are never too many. -/
theorem accepted_iff (u : Unicode) {c : Char} (hc : u.Symbol c) (limits : TextLimits)
    (hl : limits.Admitted) :
    ((∀ (text : List UInt16) (clientId : ClientId) (day : Option DayNumber),
        normalizeText u text limits = .ok text → Accepted clientId text day) ↔
      limits.maxLength ≤ 2016) ∧
    ∀ text, normalizeText u text limits = .ok text → text.length ≤ RAW_TEXT := by
  refine ⟨⟨fun h => ?_, fun h text clientId day hok => ?_⟩, fun text hok => ?_⟩
  · by_contra hlong
    have hframe := (h _ longId (some lastDay)
      (normalizeText_replicate hc (by decide) (Nat.not_le.mp hlong))).1
    rw [byteLength_sendFrame, decodeText_encodeText, byteLength_quote_replicate hc,
      Option.elim_some, byteLength_digits, byteLength_clientId] at hframe
    exact absurd hframe (by decide)
  · obtain ⟨t, -, rfl, ht⟩ := clean_of_normalizeText hok
    have hframe := byteLength_sendFrame_le clientId ht day
    have hlen := ht.length
    refine ⟨?_, length_le_raw hl ht⟩
    unfold MAX_FRAME_BYTES
    omega
  · obtain ⟨t, -, rfl, ht⟩ := clean_of_normalizeText hok
    exact length_le_raw hl ht

/-! ### An emoji -/

def emoji : Char := Char.ofNat 0x1f600

/-- The tables, with one symbol more. -/
def smiling : Unicode :=
  { latin with isVisible := fun c => latin.isVisible c || decide (c = emoji) }

theorem smiling_symbol : smiling.Symbol emoji where
  astral := by decide
  visible := by decide
  mark := by decide
  composed n := composeAcute_eq_self (List.isChain_replicate_of_rel n (by decide))

def shortId : ClientId :=
  ⟨['a'], by decide, by decide, by
    intro c hc
    rw [List.mem_singleton.mp hc]
    decide⟩

/-- 4000 emoji are taken where texts may be that long, but their frame is twice too big. -/
theorem accepted_emoji :
    normalizeText smiling (encodeText (List.replicate 4000 emoji))
        ⟨4000, 12, by decide, by decide⟩ = .ok (encodeText (List.replicate 4000 emoji)) ∧
      TextLimits.Admitted ⟨4000, 12, by decide, by decide⟩ ∧
      ¬ Accepted shortId (encodeText (List.replicate 4000 emoji)) none := by
  refine ⟨normalizeText_replicate smiling_symbol (by decide) (Nat.le_refl 4000),
    ⟨by decide, by decide, by decide⟩, fun h => ?_⟩
  have hframe := h.1
  rw [byteLength_sendFrame, decodeText_encodeText, byteLength_quote_replicate smiling_symbol,
    byteLength_clientId] at hframe
  exact absurd hframe (by decide)

/-- The default length. -/
theorem accepted_iff_default :
    Accepted longId (encodeText (List.replicate 500 emoji)) (some lastDay) := by
  have hlimits : TextLimits.Admitted ⟨500, 12, by decide, by decide⟩ :=
    ⟨by decide, by decide, by decide⟩
  exact (accepted_iff smiling smiling_symbol _ hlimits).1.mpr (by decide) _ longId (some lastDay)
    (normalizeText_replicate smiling_symbol (by decide) (Nat.le_refl 500))

end RoomBackend.Normalizing
