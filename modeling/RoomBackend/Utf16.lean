import Mathlib.Tactic.Common

/-! # UTF-16

Strings of the language are lists of 16-bit units. A well-formed one spells a list of characters:
every surrogate is one of a pair. -/

namespace RoomBackend.Utf16

/-- The first unit of a pair. -/
def isHigh (c : UInt16) : Bool := 0xd800 ≤ c.toNat && c.toNat ≤ 0xdbff

/-- The second unit of a pair. -/
def isLow (c : UInt16) : Bool := 0xdc00 ≤ c.toNat && c.toNat ≤ 0xdfff

/-- A surrogate between `prev` and `next` that is not one of a pair:
`[\uD800-\uDBFF](?![\uDC00-\uDFFF])|(?<![\uD800-\uDBFF])[\uDC00-\uDFFF]`. -/
def isLone (prev : Option UInt16) (c : UInt16) (next : Option UInt16) : Bool :=
  (isHigh c && !next.any isLow) || (isLow c && !prev.any isHigh)

/-- The units behind `prev` without the lone surrogates among them. -/
def dropLone : Option UInt16 → List UInt16 → List UInt16
  | _, [] => []
  | prev, c :: s =>
      if isLone prev c s.head? then dropLone (some c) s else c :: dropLone (some c) s

/-- No unit behind `prev` is a lone surrogate. -/
def wellFormed : Option UInt16 → List UInt16 → Bool
  | _, [] => true
  | prev, c :: s => !isLone prev c s.head? && wellFormed (some c) s

def encodeChar (c : Char) : List UInt16 :=
  if c.toNat < 0x10000 then [UInt16.ofNat c.toNat]
  else
    [UInt16.ofNat (0xd800 + (c.toNat - 0x10000) / 0x400),
      UInt16.ofNat (0xdc00 + (c.toNat - 0x10000) % 0x400)]

/-- The string that spells the characters. -/
def encodeText (t : List Char) : List UInt16 := t.flatMap encodeChar

/-- The characters of a well-formed string. -/
def decodeText : List UInt16 → List Char
  | [] => []
  | [c] => [Char.ofNat c.toNat]
  | h :: l :: s =>
      if isHigh h && isLow l then
        Char.ofNat (0x10000 + (h.toNat - 0xd800) * 0x400 + (l.toNat - 0xdc00)) :: decodeText s
      else Char.ofNat h.toNat :: decodeText (l :: s)

/-! ### Lone surrogates -/

theorem not_low_of_high {c : UInt16} (h : isHigh c = true) : isLow c = false := by
  unfold isHigh at h
  unfold isLow
  simp only [Bool.and_eq_true, decide_eq_true_eq] at h
  simp only [Bool.and_eq_false_iff, decide_eq_false_iff_not]
  omega

theorem isLone_eq_false {prev next : Option UInt16} {c : UInt16} :
    isLone prev c next = false ↔
      (isHigh c = true → next.any isLow = true) ∧ (isLow c = true → prev.any isHigh = true) := by
  unfold isLone
  cases isHigh c <;> cases isLow c <;> simp

/-- Without its lone surrogates a string is well-formed: a unit that a pair needs is never
dropped. -/
theorem wellFormed_dropLone {s : List UInt16} {prev prev' : Option UInt16}
    (hp : prev.any isHigh = true → s.head?.any isLow = true → prev'.any isHigh = true) :
    wellFormed prev' (dropLone prev s) = true ∧
      (prev.any isHigh = true → s.head?.any isLow = true →
        (dropLone prev s).head?.any isLow = true) := by
  induction s generalizing prev prev' with
  | nil => exact ⟨rfl, fun _ h => h⟩
  | cons c s ih =>
      unfold dropLone
      cases hl : isLone prev c s.head? with
      | true =>
          rw [if_pos rfl]
          have hc : ¬ ((isHigh c = true → s.head?.any isLow = true) ∧
              (isLow c = true → prev.any isHigh = true)) := by
            rw [← isLone_eq_false, hl]
            exact Bool.noConfusion
          refine ⟨(@ih (some c) prev' fun hh hn => ?_).1, fun hh hlow => ?_⟩
          · have hh : isHigh c = true := hh
            refine absurd ⟨fun _ => hn, fun hlow => ?_⟩ hc
            rw [not_low_of_high hh] at hlow
            cases hlow
          · have hlow : isLow c = true := hlow
            refine absurd ⟨fun hhigh => ?_, fun _ => hh⟩ hc
            rw [not_low_of_high hhigh] at hlow
            cases hlow
      | false =>
          rw [if_neg Bool.false_ne_true]
          obtain ⟨hhigh, hlow⟩ := isLone_eq_false.mp hl
          obtain ⟨hwf, hhead⟩ := @ih (some c) (some c) fun h _ => h
          refine ⟨?_, fun _ h => h⟩
          have hnot : isLone prev' c (dropLone (some c) s).head? = false :=
            isLone_eq_false.mpr ⟨fun hh => hhead hh (hhigh hh), fun hl => hp (hlow hl) hl⟩
          unfold wellFormed
          rw [hnot, hwf]
          rfl

theorem dropLone_of_wellFormed {s : List UInt16} {prev : Option UInt16}
    (h : wellFormed prev s = true) : dropLone prev s = s := by
  induction s generalizing prev with
  | nil => rfl
  | cons c s ih =>
      obtain ⟨hc, hs⟩ := Bool.and_eq_true_iff.mp h
      unfold dropLone
      rw [if_neg (by simpa using hc), ih hs]

/-! ### Spelling characters -/

theorem encodeChar_cases (c : Char) :
    (∃ u, encodeChar c = [u] ∧ u.toNat = c.toNat ∧ isHigh u = false ∧ isLow u = false) ∨
      ∃ h l, encodeChar c = [h, l] ∧ isHigh h = true ∧ isLow l = true ∧
        0x10000 + (h.toNat - 0xd800) * 0x400 + (l.toNat - 0xdc00) = c.toNat := by
  have hv : c.toNat < 0xd800 ∨ 0xdfff < c.toNat ∧ c.toNat < 0x110000 := c.valid
  unfold encodeChar
  split
  · rename_i hlt
    have hu : (UInt16.ofNat c.toNat).toNat = c.toNat := UInt16.toNat_ofNat_of_lt hlt
    refine Or.inl ⟨_, rfl, hu, ?_, ?_⟩
    · unfold isHigh
      rw [hu]
      simp only [Bool.and_eq_false_iff, decide_eq_false_iff_not]
      omega
    · unfold isLow
      rw [hu]
      simp only [Bool.and_eq_false_iff, decide_eq_false_iff_not]
      omega
  · rename_i hge
    have hh : (UInt16.ofNat (0xd800 + (c.toNat - 0x10000) / 0x400)).toNat =
        0xd800 + (c.toNat - 0x10000) / 0x400 :=
      UInt16.toNat_ofNat_of_lt (by show _ < 65536; omega)
    have hl : (UInt16.ofNat (0xdc00 + (c.toNat - 0x10000) % 0x400)).toNat =
        0xdc00 + (c.toNat - 0x10000) % 0x400 :=
      UInt16.toNat_ofNat_of_lt (by show _ < 65536; omega)
    refine Or.inr ⟨_, _, rfl, ?_, ?_, ?_⟩
    · unfold isHigh
      rw [hh]
      simp only [Bool.and_eq_true, decide_eq_true_eq]
      omega
    · unfold isLow
      rw [hl]
      simp only [Bool.and_eq_true, decide_eq_true_eq]
      omega
    · rw [hh, hl]
      omega

theorem encodeText_cons (c : Char) (t : List Char) :
    encodeText (c :: t) = encodeChar c ++ encodeText t := rfl

theorem wellFormed_encodeText (t : List Char) (prev : Option UInt16) :
    wellFormed prev (encodeText t) = true := by
  induction t generalizing prev with
  | nil => rfl
  | cons c t ih =>
      rw [encodeText_cons]
      rcases encodeChar_cases c with ⟨u, hu, -, hh, hl⟩ | ⟨h, l, hc, hh, hl, -⟩
      · rw [hu, List.singleton_append]
        unfold wellFormed
        rw [ih, isLone_eq_false.mpr ⟨fun h => absurd h (by rw [hh]; exact Bool.false_ne_true),
          fun h => absurd h (by rw [hl]; exact Bool.false_ne_true)⟩]
        rfl
      · rw [hc, List.cons_append, List.singleton_append]
        unfold wellFormed wellFormed
        have h₁ : isLone prev h (some l) = false := isLone_eq_false.mpr ⟨fun _ => hl, fun h' =>
          absurd h' (by rw [not_low_of_high hh]; exact Bool.false_ne_true)⟩
        have h₂ : isLone (some h) l (encodeText t).head? = false := by
          refine isLone_eq_false.mpr ⟨fun h' => ?_, fun _ => hh⟩
          rw [not_low_of_high h'] at hl
          cases hl
        rw [ih, h₂, List.head?_cons, h₁]
        rfl

theorem decodeText_cons {c : UInt16} (h : isHigh c = false) (s : List UInt16) :
    decodeText (c :: s) = Char.ofNat c.toNat :: decodeText s := by
  cases s with
  | nil => rfl
  | cons l s =>
      rw [decodeText, h]
      rfl

theorem decodeText_encodeText (t : List Char) : decodeText (encodeText t) = t := by
  induction t with
  | nil => rfl
  | cons c t ih =>
      rw [encodeText_cons]
      rcases encodeChar_cases c with ⟨u, hu, hn, hh, -⟩ | ⟨h, l, hc, hh, hl, hn⟩
      · rw [hu, List.singleton_append, decodeText_cons hh, ih, hn, Char.ofNat_toNat]
      · rw [hc, List.cons_append, List.singleton_append, decodeText, hh, hl,
          if_pos (Bool.and_self true), ih, hn, Char.ofNat_toNat]

theorem toNat_ofNat {n : ℕ} (h : n < 0xd800 ∨ 0xdfff < n ∧ n < 0x110000) :
    (Char.ofNat n).toNat = n := by
  unfold Char.ofNat
  rw [dif_pos h]
  rfl

theorem encodeChar_ofNat {c : UInt16} (hh : isHigh c = false) (hl : isLow c = false) :
    encodeChar (Char.ofNat c.toNat) = [c] := by
  have hlt : c.toNat < 0x10000 := c.toNat_lt
  unfold isHigh at hh
  unfold isLow at hl
  simp only [Bool.and_eq_false_iff, decide_eq_false_iff_not] at hh hl
  unfold encodeChar
  rw [toNat_ofNat (by omega), if_pos hlt, UInt16.ofNat_toNat]

theorem encodeChar_pair {h l : UInt16} (hh : isHigh h = true) (hl : isLow l = true) :
    encodeChar (Char.ofNat (0x10000 + (h.toNat - 0xd800) * 0x400 + (l.toNat - 0xdc00))) =
      [h, l] := by
  unfold isHigh at hh
  unfold isLow at hl
  simp only [Bool.and_eq_true, decide_eq_true_eq] at hh hl
  unfold encodeChar
  rw [toNat_ofNat (by omega), if_neg (by omega)]
  have hd : 0xd800 + (0x10000 + (h.toNat - 0xd800) * 0x400 + (l.toNat - 0xdc00) - 0x10000) / 0x400 =
      h.toNat := by omega
  have hm : 0xdc00 + (0x10000 + (h.toNat - 0xd800) * 0x400 + (l.toNat - 0xdc00) - 0x10000) % 0x400 =
      l.toNat := by omega
  rw [hd, hm, UInt16.ofNat_toNat, UInt16.ofNat_toNat]

theorem not_low_of_isLone {prev next : Option UInt16} {c : UInt16}
    (hp : prev.any isHigh = false) (h : isLone prev c next = false) : isLow c = false := by
  rw [← Bool.not_eq_true]
  intro hl
  rw [(isLone_eq_false.mp h).2 hl] at hp
  cases hp

/-- The characters of a well-formed string spell it. -/
theorem encodeText_decodeText {s : List UInt16} {prev : Option UInt16}
    (hp : prev.any isHigh = false) (hs : wellFormed prev s = true) :
    encodeText (decodeText s) = s := by
  induction s using decodeText.induct generalizing prev with
  | case1 => rfl
  | case2 c =>
      obtain ⟨hc, -⟩ := Bool.and_eq_true_iff.mp hs
      rw [Bool.not_eq_true'] at hc
      have hh : isHigh c = false := by
        rw [← Bool.not_eq_true]
        exact fun h => nomatch (isLone_eq_false.mp hc).1 h
      rw [decodeText, encodeText_cons, encodeChar_ofNat hh (not_low_of_isLone hp hc)]
      rfl
  | case3 h l s hpair ih =>
      obtain ⟨hh, hl⟩ := Bool.and_eq_true_iff.mp hpair
      obtain ⟨-, hs⟩ := Bool.and_eq_true_iff.mp hs
      obtain ⟨-, hs⟩ := Bool.and_eq_true_iff.mp hs
      rw [decodeText, if_pos hpair, encodeText_cons, encodeChar_pair hh hl]
      have hlow : (some l).any isHigh = false := by
        rw [← Bool.not_eq_true]
        intro hhigh
        rw [not_low_of_high hhigh] at hl
        cases hl
      exact congrArg (h :: l :: ·) (ih hlow hs)
  | case4 h l s hpair ih =>
      obtain ⟨hc, hs⟩ := Bool.and_eq_true_iff.mp hs
      rw [Bool.not_eq_true'] at hc
      have hh : isHigh h = false := by
        rw [← Bool.not_eq_true]
        exact fun h => hpair (Bool.and_eq_true_iff.mpr ⟨h, (isLone_eq_false.mp hc).1 h⟩)
      rw [decodeText, if_neg hpair, encodeText_cons, encodeChar_ofNat hh (not_low_of_isLone hp hc)]
      exact congrArg (h :: ·) (@ih (some h) hh hs)

end RoomBackend.Utf16
