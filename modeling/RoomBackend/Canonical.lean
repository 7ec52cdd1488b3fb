import Mathlib.Data.List.Infix
import RoomBackend.Normalizing

/-! # Normal form

The text is composed before characters are taken out of it. The result is composed too, and a second
`normalizeText` leaves it alone, exactly if no word falls out of normal form by what it loses. -/

namespace RoomBackend.Normalizing

open Texts Utf16

/-- What Unicode says of its composed form: it is its own, its parts are composed, and it stops at
white space. -/
structure Unicode.Canonical (u : Unicode) : Prop where
  idempotent : ∀ s, u.nfc (u.nfc s) = u.nfc s
  part : ∀ {r s : List Char}, r <:+: s → u.nfc s = s → u.nfc r = r
  boundary : ∀ (a : List Char) (w : Char) (b : List Char), isSpace w = true →
    u.nfc (a ++ w :: b) = u.nfc a ++ (u.nfc [w] ++ u.nfc b)
  newline : u.nfc ['\n'] = ['\n']
  blank : u.nfc [' '] = [' ']

/-- The composed form of a message as it came in. -/
def canonical (u : Unicode) (raw : List UInt16) : List Char :=
  u.nfc (decodeText (dropLone none raw))

/-- White space that no class takes out without a trace. -/
def isBreak (c : Char) : Bool := isSpace c && !INVISIBLE c

/-- What the classes and the floods of marks leave of a word. -/
def kept (u : Unicode) (w : List Char) : List Char :=
  capRuns u.isMark 3 0 (w.filter fun c => !CONTROL c && !INVISIBLE c)

/-- Every word is in normal form without what is taken out of it. -/
def Settled (u : Unicode) (s : List Char) : Prop :=
  ∀ w ∈ words isBreak s, u.nfc (kept u w) = kept u w

variable {u : Unicode}

/-! ### Normal form, word by word -/

theorem nfc_nil (hu : u.Canonical) : u.nfc [] = [] := hu.part List.nil_infix hu.blank

/-- Only the words can fall out of normal form, if the white space is in it. -/
theorem nfc_iff_words (hu : u.Canonical) {s : List Char}
    (hs : ∀ c ∈ s, isSpace c = true → u.nfc [c] = [c]) :
    u.nfc s = s ↔ ∀ w ∈ words isSpace s, u.nfc w = w := by
  refine ⟨fun h w hw => hu.part (of_mem_words hw).1 h, fun h => ?_⟩
  refine @of_words isSpace (fun s => u.nfc s = s) (fun c => u.nfc [c] = [c]) (nfc_nil hu) ?_ s hs h
  intro a x b hx hnx ha hb
  rw [hu.boundary a x b hx, ha, hnx, hb]
  rfl

/-! ### Replaced white space -/

theorem words_append_unifyNewlines {p : Char → Bool} (hr : p '\r' = true) (hn : p '\n' = true)
    (s : List Char) {a : List Char} {cr : Bool} (hcr : cr = false ∨ a = []) :
    words p (a ++ unifyNewlines cr s) = words p (a ++ s) := by
  induction s generalizing a cr with
  | nil => rfl
  | cons c s ih =>
      unfold unifyNewlines
      split_ifs with h h'
      · rw [h, words_append_cons hn, words_append_cons hr]
        exact congrArg (words p a ++ ·) (@ih [] true (Or.inr rfl))
      · obtain ⟨hcr', hc⟩ := Bool.and_eq_true_iff.mp h'
        obtain rfl : c = '\n' := of_decide_eq_true hc
        obtain rfl : a = [] := hcr.resolve_left (by rw [hcr']; exact Bool.noConfusion)
        rw [List.nil_append, List.nil_append, words_cons hn]
        exact @ih [] false (Or.inr rfl)
      · rw [List.append_cons, List.append_cons a c s]
        exact ih (Or.inl rfl)

theorem words_unifyNewlines {p : Char → Bool} (hr : p '\r' = true) (hn : p '\n' = true)
    (s : List Char) : words p (unifyNewlines false s) = words p s :=
  @words_append_unifyNewlines p hr hn s [] false (Or.inl rfl)

theorem not_mem_unifyNewlines (s : List Char) (cr : Bool) : '\r' ∉ unifyNewlines cr s := by
  induction s generalizing cr with
  | nil => exact List.not_mem_nil
  | cons c s ih =>
      unfold unifyNewlines
      split_ifs with h
      · exact List.not_mem_cons_of_ne_of_not_mem (by decide) (ih true)
      · exact ih false
      · exact List.not_mem_cons_of_ne_of_not_mem (fun hc => h hc.symm) (ih false)

/-- To put one character of a class for another of it changes no word. -/
theorem words_append_map {p : Char → Bool} {f : Char → Char}
    (hp : ∀ c, p c = true → p (f c) = true) (hf : ∀ c, p c = false → f c = c) (s a : List Char) :
    words p (a ++ s.map f) = words p (a ++ s) := by
  induction s generalizing a with
  | nil => rfl
  | cons c s ih =>
      rw [List.map_cons]
      cases hc : p c with
      | true =>
          rw [words_append_cons (hp c hc), words_append_cons hc]
          exact congrArg (words p a ++ ·) (ih [])
      | false =>
          rw [hf c hc, List.append_cons, List.append_cons a c s]
          exact ih (a ++ [c])

/-! ### White space and the classes -/

theorem spacing_of_not {c : Char} (h : SPACING c = false) : spacing c = c :=
  if_neg (by rw [h]; exact Bool.false_ne_true)

theorem spacing_of {c : Char} (h : SPACING c = true) : spacing c = '\n' ∨ spacing c = ' ' := by
  unfold spacing
  rw [if_pos h]
  split_ifs
  · exact Or.inl rfl
  · exact Or.inr rfl

theorem isBreak_of_spacing {c : Char} (h : SPACING c = true) : isBreak c = true := by
  have hc : c.toNat = 9 ∨ c.toNat = 11 ∨ c.toNat = 12 ∨ c.toNat = 0x2028 ∨ c.toNat = 0x2029 := by
    simp only [SPACING, charClass, List.any_cons, List.any_nil, Bool.or_false, Bool.or_eq_true,
      Bool.and_eq_true, decide_eq_true_eq] at h
    omega
  rw [← Char.ofNat_toNat c]
  rcases hc with hc | hc | hc | hc | hc <;> rw [hc] <;> decide

theorem isBreak_spacing {c : Char} (h : isBreak c = true) : isBreak (spacing c) = true := by
  cases hc : SPACING c with
  | true => rcases spacing_of hc with h | h <;> rw [h] <;> decide
  | false => rwa [spacing_of_not hc]

/-- White space behind the replacements is never a control character that is taken out. -/
theorem control_of_break {c : Char} {s : List Char}
    (h : c ∈ (unifyNewlines false s).map spacing) (hc : isBreak c = true) : CONTROL c = false := by
  obtain ⟨x, hx, rfl⟩ := List.mem_map.mp h
  cases hsp : SPACING x with
  | true => rcases spacing_of hsp with h | h <;> rw [h] <;> decide
  | false =>
      rw [spacing_of_not hsp] at hc ⊢
      have hr : x.toNat ≠ 13 := fun h => not_mem_unifyNewlines s false (by
        rwa [← Char.ofNat_toNat x, h] at hx)
      have hspace := (Bool.and_eq_true_iff.mp hc).1
      simp only [SPACING, charClass, List.any_cons, List.any_nil, Bool.or_false,
        Bool.or_eq_false_iff, Bool.and_eq_false_iff, decide_eq_false_iff_not] at hsp
      simp only [isSpace, Bool.or_eq_true, Bool.and_eq_true, decide_eq_true_eq] at hspace
      simp only [CONTROL, charClass, List.any_cons, List.any_nil, Bool.or_false,
        Bool.or_eq_false_iff, Bool.and_eq_false_iff, decide_eq_false_iff_not]
      omega

theorem isSpace_of_kept {c : Char} {w : List Char} (hw : ∀ c ∈ w, isBreak c = false)
    (hc : c ∈ kept u w) : isSpace c = false := by
  obtain ⟨hc, hk⟩ := List.mem_filter.mp ((capRuns_sublist _ _ _ _).subset hc)
  have hb := hw c hc
  unfold isBreak at hb
  rw [(Bool.and_eq_true_iff.mp hk).2, Bool.and_true] at hb
  exact hb

/-! ### The words of the cleaned text -/

theorem cleaned_eq_kept (u : Unicode) (raw : List UInt16) :
    cleaned u raw = kept u ((unifyNewlines false (canonical u raw)).map spacing) := by
  unfold cleaned kept canonical
  dsimp only
  rw [List.filter_filter]
  refine congrArg (capRuns u.isMark 3 0) (List.filter_congr fun c _ => ?_)
  exact Bool.and_comm _ _

theorem kept_append_cons {x : Char} (hx : isBreak x = true) (hc : CONTROL x = false)
    (a b : List Char) : kept u (a ++ x :: b) = kept u a ++ x :: kept u b := by
  obtain ⟨hsp, hinv⟩ := Bool.and_eq_true_iff.mp hx
  unfold kept
  rw [List.filter_append, List.filter_cons_of_pos (by rw [hc, hinv]; rfl),
    capRuns_append_cons (u.mark_space x hsp)]

/-- Where no white space is taken out, each word is left with its own characters. -/
theorem words_kept {s : List Char} (hs : ∀ c ∈ s, isBreak c = true → CONTROL c = false) :
    words isSpace (kept u s) = (words isBreak s).flatMap fun w => words isSpace (kept u w) := by
  refine @of_words isBreak
    (fun s => words isSpace (kept u s) =
      (words isBreak s).flatMap fun w => words isSpace (kept u w))
    (fun c => CONTROL c = false) ?_ ?_ s hs ?_
  · rw [words_nil]
    exact words_nil
  · intro a x b hx hc ha hb
    rw [kept_append_cons hx hc, words_append_cons (Bool.and_eq_true_iff.mp hx).1, ha, hb,
      words_append_cons hx, List.flatMap_append]
  · intro w hw
    obtain ⟨-, hne, hno⟩ := of_mem_words hw
    rw [words_of_forall_not hno hne, List.flatMap_cons, List.flatMap_nil, List.append_nil]

theorem words_cleaned (u : Unicode) (raw : List UInt16) :
    words isSpace (cleaned u raw) =
      (words isBreak (canonical u raw)).flatMap fun w => words isSpace (kept u w) := by
  have hmap := words_append_map (p := isBreak) (fun _ => isBreak_spacing)
    (fun c hc => spacing_of_not (by
      rw [← Bool.not_eq_true] at hc ⊢
      exact fun h => hc (isBreak_of_spacing h))) (unifyNewlines false (canonical u raw)) []
  rw [List.nil_append, List.nil_append] at hmap
  rw [cleaned_eq_kept, words_kept fun c hc => control_of_break hc, hmap,
    words_unifyNewlines (by decide) (by decide)]

theorem words_settled (hu : u.Canonical) (raw : List UInt16) :
    (∀ w ∈ words isSpace (cleaned u raw), u.nfc w = w) ↔ Settled u (canonical u raw) := by
  rw [words_cleaned]
  constructor
  · intro h w hw
    rcases eq_or_ne (kept u w) [] with he | hne
    · rw [he, nfc_nil hu]
    · refine h _ (List.mem_flatMap.mpr ⟨w, hw, ?_⟩)
      rw [words_of_forall_not (fun c hc => isSpace_of_kept (of_mem_words hw).2.2 hc) hne]
      exact List.mem_singleton_self _
  · intro h v hv
    obtain ⟨w, hw, hv⟩ := List.mem_flatMap.mp hv
    exact hu.part (of_mem_words hv).1 (h w hw)

/-! ### The second run -/

theorem unifyNewlines_eq_self {s : List Char} (h : '\r' ∉ s) : unifyNewlines false s = s := by
  induction s with
  | nil => rfl
  | cons c s ih =>
      obtain ⟨hc, hs⟩ := List.ne_and_not_mem_of_not_mem_cons h
      unfold unifyNewlines
      rw [if_neg (Ne.symm hc), Bool.false_and, if_neg Bool.false_ne_true, ih hs]

theorem isControl_of_spacing {c : Char} (h : SPACING c = true) :
    isControl c = true ∨ c.toNat = 0x2028 ∨ c.toNat = 0x2029 := by
  simp only [SPACING, charClass, List.any_cons, List.any_nil, Bool.or_false, Bool.or_eq_true,
    Bool.and_eq_true, decide_eq_true_eq] at h
  simp only [isControl, Bool.or_eq_true, Bool.and_eq_true, decide_eq_true_eq]
  omega

theorem isControl_of_control {c : Char} (h : CONTROL c = true) : isControl c = true := by
  simp only [CONTROL, charClass, List.any_cons, List.any_nil, Bool.or_false, Bool.or_eq_true,
    Bool.and_eq_true, decide_eq_true_eq] at h
  simp only [isControl, Bool.or_eq_true, Bool.and_eq_true, decide_eq_true_eq]
  omega

theorem cleaned_encodeText {limits : TextLimits} {t : List Char} (h : Clean u limits t)
    (hn : u.nfc t = t) : cleaned u (encodeText t) = t := by
  have hspacing : ∀ c ∈ t, SPACING c = false := by
    intro c hc
    rw [← Bool.not_eq_true]
    intro hsp
    rcases isControl_of_spacing hsp with hctl | hsep
    · rw [h.control c hc hctl] at hsp
      exact absurd hsp (by decide)
    · exact absurd hsep (not_or.mpr (h.separators c hc))
  have hkeep : ∀ c ∈ t, (!CONTROL c && !INVISIBLE c) = true := by
    intro c hc
    rw [h.invisible c hc, Bool.not_false, Bool.and_true, Bool.not_eq_true', ← Bool.not_eq_true]
    intro hctl
    rw [h.control c hc (isControl_of_control hctl)] at hctl
    exact absurd hctl (by decide)
  have hr : '\r' ∉ t := fun hc => absurd (h.control _ hc (by decide)) (by decide)
  have hcan : canonical u (encodeText t) = t := by
    unfold canonical
    rw [dropLone_of_wellFormed (wellFormed_encodeText t none), decodeText_encodeText, hn]
  rw [cleaned_eq_kept, hcan, unifyNewlines_eq_self hr,
    List.map_congr_left fun c hc => spacing_of_not (hspacing c hc), List.map_id']
  unfold kept
  rw [List.filter_eq_self.mpr hkeep, capRuns_eq_self h.marks]

theorem tidied_eq_self {limits : TextLimits} {t : List Char} (h : Clean u limits t) :
    tidied t = t := by
  unfold tidied
  rw [List.map_congr_left fun l hl => trimEnd_eq_self (h.lines l hl), List.map_id', join_splitOn,
    capRuns_eq_self h.newlines, trim_eq_self h.head h.last]

/-- A text that can be shown and is in normal form comes out as it went in. -/
theorem normalizeText_encodeText {limits : TextLimits} {t : List Char} (h : Clean u limits t)
    (hn : u.nfc t = t) : normalizeText u (encodeText t) limits = .ok (encodeText t) := by
  unfold normalizeText
  rw [cleaned_encodeText h hn, tidied_eq_self h, folded_of_le h.count]
  obtain ⟨c, hc, hvis⟩ := h.visible
  have hany : t.any u.isVisible = true := List.any_eq_true.mpr ⟨c, hc, hvis⟩
  have hok : ¬ (t = [] ∨ t.any u.isVisible = false) := by
    rintro (rfl | hno)
    · cases hc
    · rw [hany] at hno
      cases hno
  exact (if_neg hok).trans (if_neg (Nat.not_lt.mpr h.length))

/-! ### Normal form of the result -/

theorem nfc_cleaned_char (hu : u.Canonical) {raw : List UInt16} {c : Char}
    (hc : c ∈ cleaned u raw) : u.nfc [c] = [c] := by
  rw [cleaned_eq_kept] at hc
  obtain ⟨hc, -⟩ := List.mem_filter.mp ((capRuns_sublist _ _ _ _).subset hc)
  obtain ⟨x, hx, rfl⟩ := List.mem_map.mp hc
  cases hsp : SPACING x with
  | true => rcases spacing_of hsp with h | h <;> rw [h]; exacts [hu.newline, hu.blank]
  | false =>
      rw [spacing_of_not hsp]
      rcases mem_unifyNewlines hx with hx | rfl
      · exact hu.part ((List.singleton_infix_iff _ _).mpr hx) (hu.idempotent _)
      · exact hu.newline

theorem nfc_result_iff (hu : u.Canonical) (raw : List UInt16) (m : ℕ) :
    u.nfc (folded m (tidied (cleaned u raw))) = folded m (tidied (cleaned u raw)) ↔
      Settled u (canonical u raw) := by
  rw [nfc_iff_words hu fun c hc _ => ?_, words_folded, words_tidied, words_settled hu]
  rcases mem_folded hc with hc | rfl | rfl
  · rcases mem_tidied hc with hc | rfl
    · exact nfc_cleaned_char hu hc
    · exact hu.newline
  · exact hu.newline
  · exact hu.blank

/-- A text that is taken is in normal form, and is the same when it is sent again, exactly if no
word of the message falls out of normal form by what is taken out of it. Messages with one normal
form are stored alike. -/
theorem normalizeText_again_iff (u : Unicode) (hu : u.Canonical) (raw : List UInt16)
    (limits : TextLimits) {text : List UInt16} (h : normalizeText u raw limits = .ok text) :
    ((u.nfc (decodeText text) = decodeText text ∧ normalizeText u text limits = .ok text) ↔
        Settled u (canonical u raw)) ∧
      ∀ raw', canonical u raw' = canonical u raw → normalizeText u raw' limits = .ok text := by
  obtain ⟨t, ht, rfl, hclean⟩ := clean_of_normalizeText h
  have hiff := nfc_result_iff hu raw limits.maxLines
  rw [ht] at hiff
  rw [decodeText_encodeText]
  refine ⟨⟨fun hn => hiff.mp hn.1, fun hs => ⟨hiff.mpr hs, ?_⟩⟩, fun raw' hc => ?_⟩
  · exact normalizeText_encodeText hclean (hiff.mpr hs)
  · rw [← h]
    unfold normalizeText
    rw [cleaned_eq_kept, cleaned_eq_kept, hc]

/-! ### One composition -/

/-- No `e` stands before an acute accent. -/
def Composed (s : List Char) : Prop := s.IsChain fun c d => ¬ (c = 'e' ∧ d = Char.ofNat 0x301)

theorem composeAcute_of_not {c d : Char} (h : ¬ (c = 'e' ∧ d = Char.ofNat 0x301)) (s : List Char) :
    composeAcute (c :: d :: s) = c :: composeAcute (d :: s) := if_neg h

theorem composeAcute_of (s : List Char) :
    composeAcute ('e' :: Char.ofNat 0x301 :: s) = Char.ofNat 0xe9 :: composeAcute s :=
  if_pos ⟨rfl, rfl⟩

theorem head?_composeAcute (s : List Char) :
    ∀ c ∈ (composeAcute s).head?, c = Char.ofNat 0xe9 ∨ c ∈ s.head? := by
  intro c hc
  cases s using composeAcute.fun_cases with
  | case1 => cases hc
  | case2 d => exact Or.inr hc
  | case3 x y s h =>
      obtain ⟨rfl, rfl⟩ := h
      rw [composeAcute_of] at hc
      exact Or.inl (Option.some.inj hc).symm
  | case4 x y s h =>
      rw [composeAcute_of_not h] at hc
      exact Or.inr hc

theorem composed_composeAcute (s : List Char) : Composed (composeAcute s) := by
  induction s using composeAcute.induct with
  | case1 => exact List.IsChain.nil
  | case2 c => exact List.IsChain.singleton c
  | case3 c d s h ih =>
      obtain ⟨rfl, rfl⟩ := h
      rw [composeAcute_of]
      exact List.isChain_cons.mpr ⟨fun _ _ h => absurd h.1 (by decide), ih⟩
  | case4 c d s h ih =>
      rw [composeAcute_of_not h]
      refine List.isChain_cons.mpr ⟨fun x hx hbad => ?_, ih⟩
      rcases head?_composeAcute _ x hx with rfl | hd
      · exact absurd hbad.2 (by decide)
      · exact h ⟨hbad.1, (Option.some.inj hd).trans hbad.2⟩

theorem composeAcute_eq_self {s : List Char} (h : Composed s) : composeAcute s = s := by
  induction s using composeAcute.induct with
  | case1 => rfl
  | case2 c => rfl
  | case3 c d s hcd ih => exact absurd hcd (List.isChain_cons_cons.mp h).1
  | case4 c d s hcd ih => rw [composeAcute_of_not hcd, ih (List.isChain_cons_cons.mp h).2]

theorem composeAcute_append {w : Char} (hw : isSpace w = true) (a b : List Char) :
    composeAcute (a ++ w :: b) = composeAcute a ++ (composeAcute [w] ++ composeAcute b) := by
  have he : w ≠ 'e' := fun h => absurd (h ▸ hw) (by decide)
  have hm : w ≠ Char.ofNat 0x301 := fun h => absurd (h ▸ hw) (by decide)
  have hbase : composeAcute (w :: b) = w :: composeAcute b := by
    cases b with
    | nil => rfl
    | cons d b => exact composeAcute_of_not (fun h => he h.1) b
  induction a using composeAcute.induct with
  | case1 => exact hbase
  | case2 c =>
      rw [List.singleton_append, composeAcute_of_not fun h => hm h.2, hbase]
      rfl
  | case3 c d s h ih =>
      obtain ⟨rfl, rfl⟩ := h
      rw [List.cons_append, List.cons_append, composeAcute_of, composeAcute_of, ih]
      rfl
  | case4 c d s h ih =>
      rw [List.cons_append, List.cons_append, composeAcute_of_not h, composeAcute_of_not h,
        ← List.cons_append, ih]
      rfl

theorem latin_canonical : latin.Canonical where
  idempotent s := composeAcute_eq_self (composed_composeAcute s)
  part {r s} h hs := by
    have hchain : Composed (composeAcute s) := composed_composeAcute s
    rw [show composeAcute s = s from hs] at hchain
    exact composeAcute_eq_self ( List.IsChain.infix hchain h)
  boundary a _ b hw := composeAcute_append hw a b
  newline := rfl
  blank := rfl

/-- The accent comes to stand behind the letter when the zero-width space between them is taken out,
and a second run composes them. -/
theorem normalizeText_decomposed :
    normalizeText latin [0x65, 0x200b, 0x301] ⟨10, 2, by decide, by decide⟩ = .ok [0x65, 0x301] ∧
      latin.nfc (decodeText [0x65, 0x301]) ≠ decodeText [0x65, 0x301] ∧
      normalizeText latin [0x65, 0x301] ⟨10, 2, by decide, by decide⟩ = .ok [0xe9] :=
  ⟨rfl, by decide, rfl⟩

/-- A zero-width space between letters that do not compose. -/
theorem normalizeText_again_letters :
    Settled latin (canonical latin [0x65, 0x301, 0x200b, 0x62]) ∧
      normalizeText latin [0xe9, 0x62] ⟨10, 2, by decide, by decide⟩ = .ok [0xe9, 0x62] := by
  have h : normalizeText latin [0x65, 0x301, 0x200b, 0x62] ⟨10, 2, by decide, by decide⟩ =
      .ok [0xe9, 0x62] := rfl
  have hn : latin.nfc (decodeText [0xe9, 0x62]) = decodeText [0xe9, 0x62] := by decide
  have hagain : normalizeText latin [0xe9, 0x62] ⟨10, 2, by decide, by decide⟩ =
      .ok [0xe9, 0x62] := rfl
  exact ⟨(normalizeText_again_iff latin latin_canonical _ _ h).1.mp ⟨hn, hagain⟩, hagain⟩

end RoomBackend.Normalizing
