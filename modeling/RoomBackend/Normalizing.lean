import RoomBackend.Protocol
import RoomBackend.Utf16
import RoomBackend.Lines

/-! # Normalizing a text

`normalizeText` of `messaging/validate.ts`: ten passes over the text of a send. -/

namespace RoomBackend.Normalizing

open Texts Utf16

/-- What the language reads in the tables of Unicode. -/
structure Unicode where
  /-- `normalize("NFC")`. -/
  nfc : List Char → List Char
  /-- `\p{M}`. -/
  isMark : Char → Bool
  /-- `VISIBLE`: `[\p{L}\p{N}\p{S}\p{P}]`. -/
  isVisible : Char → Bool
  /-- No white space is a mark. -/
  mark_space : ∀ c, isSpace c = true → isMark c = false

/-- `TextLimits`. -/
structure TextLimits where
  maxLength : ℕ
  maxLines : ℕ
  length_pos : 1 ≤ maxLength
  lines_pos : 1 ≤ maxLines

/-- `charClass`, a code point alone as a range of one. The classes hold no surrogate, so to match
units and to match characters is the same. -/
def charClass (items : List (ℕ × ℕ)) (c : Char) : Bool :=
  items.any fun r => r.1 ≤ c.toNat && c.toNat ≤ r.2

def SPACING : Char → Bool :=
  charClass [(0x09, 0x09), (0x0b, 0x0b), (0x0c, 0x0c), (0x2028, 0x2028), (0x2029, 0x2029)]

def CONTROL : Char → Bool := charClass [(0x00, 0x09), (0x0b, 0x1f), (0x7f, 0x9f)]

def INVISIBLE : Char → Bool :=
  charClass [(0xad, 0xad), (0x61c, 0x61c), (0x115f, 0x115f), (0x1160, 0x1160), (0x17b4, 0x17b4),
    (0x17b5, 0x17b5), (0x180e, 0x180e), (0x200b, 0x200b), (0x200c, 0x200c), (0x200e, 0x200e),
    (0x200f, 0x200f), (0x202a, 0x202e), (0x2060, 0x2064), (0x2066, 0x206f), (0x3164, 0x3164),
    (0xfeff, 0xfeff), (0xffa0, 0xffa0), (0xfff9, 0xfffb)]

/-- `replace(/\r\n?/g, "\n")`; `cr` says that a `\r` stands before. -/
def unifyNewlines : Bool → List Char → List Char
  | _, [] => []
  | cr, c :: s =>
      if c = '\r' then '\n' :: unifyNewlines true s
      else if cr && c = '\n' then unifyNewlines false s
      else c :: unifyNewlines false s

/-- `replace(SPACING, …)`, at one character. -/
def spacing (c : Char) : Char :=
  if SPACING c then if c.toNat = 0x2028 ∨ c.toNat = 0x2029 then '\n' else ' ' else c

/-- The first passes: what is taken out or replaced character by character, and the floods of
marks. -/
def cleaned (u : Unicode) (raw : List UInt16) : List Char :=
  let s := u.nfc (decodeText (dropLone none raw))
  let s := (unifyNewlines false s).map spacing
  let s := s.filter fun c => !CONTROL c
  let s := s.filter fun c => !INVISIBLE c
  capRuns u.isMark 3 0 s

/-- Each line without the white space at its end, two newlines for more of them, and the whole
trimmed. -/
def tidied (s : List Char) : List Char :=
  trim (capRuns (· == '\n') 2 0 (join '\n' ((s.splitOn '\n').map trimEnd)))

/-- The first lines, and the rest of them in the last. -/
def folded (maxLines : ℕ) (s : List Char) : List Char :=
  let lines := s.splitOn '\n'
  if maxLines < lines.length then
    join '\n' (lines.take (maxLines - 1) ++ [join ' ' (lines.drop (maxLines - 1))])
  else s

/-- `normalizeText`. -/
def normalizeText (u : Unicode) (raw : List UInt16) (limits : TextLimits) :
    Except RejectReason (List UInt16) :=
  let s := folded limits.maxLines (tidied (cleaned u raw))
  if s = [] ∨ s.any u.isVisible = false then .error .invalid
  else if limits.maxLength < s.length then .error .tooLong
  else .ok (encodeText s)

/-- What is decoded is the whole of a text but its lone surrogates. -/
theorem encodeText_decodeText_dropLone (raw : List UInt16) :
    encodeText (decodeText (dropLone none raw)) = dropLone none raw := by
  have hwf : wellFormed none (dropLone none raw) = true :=
    (@wellFormed_dropLone raw none none fun h => absurd h Bool.false_ne_true).1
  exact encodeText_decodeText rfl hwf

/-! ### What is promised of a text -/

/-- The control characters of Unicode. -/
def isControl (c : Char) : Bool := c.toNat ≤ 0x1f || 0x7f ≤ c.toNat && c.toNat ≤ 0x9f

/-- A text that can be shown. -/
structure Clean (u : Unicode) (limits : TextLimits) (t : List Char) : Prop where
  control : ∀ c ∈ t, isControl c = true → c = '\n'
  invisible : ∀ c ∈ t, INVISIBLE c = false
  separators : ∀ c ∈ t, c.toNat ≠ 0x2028 ∧ c.toNat ≠ 0x2029
  marks : RunsLe u.isMark 3 t
  newlines : RunsLe (· == '\n') 2 t
  head : ∀ c ∈ t.head?, isSpace c = false
  last : Trimmed t
  lines : ∀ l ∈ t.splitOn '\n', Trimmed l
  count : (t.splitOn '\n').length ≤ limits.maxLines
  length : t.length ≤ limits.maxLength
  visible : ∃ c ∈ t, u.isVisible c = true

/-- What the passes over the lines give. -/
structure Tidy (s : List Char) : Prop where
  newlines : RunsLe (· == '\n') 2 s
  head : ∀ c ∈ s.head?, isSpace c = false
  last : Trimmed s
  lines : ∀ l ∈ s.splitOn '\n', Trimmed l

/-! ### Characters -/

theorem mem_unifyNewlines {c : Char} {s : List Char} {cr : Bool} (h : c ∈ unifyNewlines cr s) :
    c ∈ s ∨ c = '\n' := by
  induction s generalizing cr with
  | nil => cases h
  | cons x s ih =>
      unfold unifyNewlines at h
      split_ifs at h
      · rcases List.mem_cons.mp h with rfl | h
        · exact Or.inr rfl
        · exact (ih h).imp_left (List.mem_cons_of_mem x)
      · exact (ih h).imp_left (List.mem_cons_of_mem x)
      · rcases List.mem_cons.mp h with rfl | h
        · exact Or.inl List.mem_cons_self
        · exact (ih h).imp_left (List.mem_cons_of_mem x)

theorem spacing_separators (c : Char) :
    (spacing c).toNat ≠ 0x2028 ∧ (spacing c).toNat ≠ 0x2029 := by
  unfold spacing
  split_ifs with hc h
  · decide
  · decide
  · rw [Bool.not_eq_true] at hc
    constructor
    · intro h
      rw [SPACING, charClass, h] at hc
      exact absurd hc (by decide)
    · intro h
      rw [SPACING, charClass, h] at hc
      exact absurd hc (by decide)

/-- What the classes leave. -/
def Legible (c : Char) : Prop :=
  (isControl c = true → c = '\n') ∧ INVISIBLE c = false ∧ c.toNat ≠ 0x2028 ∧ c.toNat ≠ 0x2029

theorem legible_newline : Legible '\n' := ⟨fun _ => rfl, by decide, by decide, by decide⟩

theorem legible_blank : Legible ' ' := ⟨by decide, by decide, by decide, by decide⟩

/-- The class of the source is all control characters but the newline. -/
theorem eq_newline_of_control {c : Char} (h : CONTROL c = false) (hc : isControl c = true) :
    c = '\n' := by
  have hten : c.toNat = 10 := by
    simp only [CONTROL, charClass, List.any_cons, List.any_nil, Bool.or_false, Bool.or_eq_false_iff,
      Bool.and_eq_false_iff, decide_eq_false_iff_not] at h
    simp only [isControl, Bool.or_eq_true, Bool.and_eq_true, decide_eq_true_eq] at hc
    omega
  rw [← Char.ofNat_toNat c, hten]

theorem legible_cleaned (u : Unicode) (raw : List UInt16) : ∀ c ∈ cleaned u raw, Legible c := by
  intro c hc
  have hc := (capRuns_sublist _ _ _ _).subset hc
  obtain ⟨hc, hinv⟩ := List.mem_filter.mp hc
  obtain ⟨hc, hctl⟩ := List.mem_filter.mp hc
  obtain ⟨x, -, rfl⟩ := List.mem_map.mp hc
  rw [Bool.not_eq_true'] at hinv hctl
  exact ⟨eq_newline_of_control hctl, hinv, spacing_separators x⟩

/-! ### The words stay -/

theorem words_tidied (s : List Char) : words isSpace (tidied s) = words isSpace s := by
  have hnl : isSpace '\n' = true := by decide
  unfold tidied
  rw [words_trim, words_capRuns (fun c hc => by rw [beq_iff_eq.mp hc]; exact hnl) (by decide),
    words_join hnl, List.flatMap_map]
  conv_rhs => rw [← join_splitOn '\n' s, words_join hnl]
  exact List.flatMap_congr fun l _ => words_trimEnd l

theorem folded_of_lt {m : ℕ} {s : List Char} (h : m < (s.splitOn '\n').length) :
    folded m s = join '\n' ((s.splitOn '\n').take (m - 1) ++
      [join ' ' ((s.splitOn '\n').drop (m - 1))]) := if_pos h

theorem folded_of_le {m : ℕ} {s : List Char} (h : (s.splitOn '\n').length ≤ m) :
    folded m s = s := if_neg (by omega)

theorem words_folded (m : ℕ) (s : List Char) : words isSpace (folded m s) = words isSpace s := by
  have hnl : isSpace '\n' = true := by decide
  rcases Nat.lt_or_ge m (s.splitOn '\n').length with hm | hm
  · rw [folded_of_lt hm, words_join hnl, List.flatMap_append, List.flatMap_cons, List.flatMap_nil,
      List.append_nil, words_join (by decide), ← List.flatMap_append, List.take_append_drop,
      ← words_join hnl, join_splitOn]
  · rw [folded_of_le hm]

theorem mem_tidied {c : Char} {s : List Char} (h : c ∈ tidied s) : c ∈ s ∨ c = '\n' := by
  have h := (capRuns_sublist _ _ _ _).subset ((trim_isInfix _).subset h)
  rcases mem_join h with rfl | ⟨l, hl, hc⟩
  · exact Or.inr rfl
  · obtain ⟨l', hl', rfl⟩ := List.mem_map.mp hl
    refine Or.inl ?_
    rw [← join_splitOn '\n' s]
    exact (infix_join hl').subset ((List.rdropWhile_prefix isSpace _).subset hc)

theorem mem_folded {c : Char} {m : ℕ} {s : List Char} (h : c ∈ folded m s) :
    c ∈ s ∨ c = '\n' ∨ c = ' ' := by
  rcases Nat.lt_or_ge m (s.splitOn '\n').length with hm | hm
  · rw [folded_of_lt hm] at h
    have hline : ∀ l ∈ s.splitOn '\n', c ∈ l → c ∈ s := fun l hl hc => by
      rw [← join_splitOn '\n' s]
      exact (infix_join hl).subset hc
    rcases mem_join h with rfl | ⟨l, hl, hc⟩
    · exact Or.inr (Or.inl rfl)
    · rcases List.mem_append.mp hl with hl | hl
      · exact Or.inl (hline l (List.mem_of_mem_take hl) hc)
      · obtain rfl := List.mem_singleton.mp hl
        rcases mem_join hc with rfl | ⟨l, hl, hc⟩
        · exact Or.inr (Or.inr rfl)
        · exact Or.inl (hline l (List.mem_of_mem_drop hl) hc)
  · rw [folded_of_le hm] at h
    exact Or.inl h

/-! ### Lines -/

theorem tidy_tidied (s : List Char) : Tidy (tidied s) := by
  have htrim : ∀ l ∈ (s.splitOn '\n').map trimEnd, Trimmed l ∧ '\n' ∉ l := by
    intro l hl
    obtain ⟨l', hl', rfl⟩ := List.mem_map.mp hl
    refine ⟨trimmed_trimEnd l', fun h => not_mem_of_mem_splitOn hl' ?_⟩
    exact (List.rdropWhile_prefix isSpace _).subset h
  have hne : (s.splitOn '\n').map trimEnd ≠ [] := fun h =>
    List.splitOn_ne_nil '\n' s (List.map_eq_nil_iff.mp h)
  have hends : LineEnds '\n'
      (capRuns (· == '\n') 2 0 (join '\n' ((s.splitOn '\n').map trimEnd))) := by
    refine lineEnds_of_words fun w hw => ?_
    rw [words_capRuns (fun _ h => h) (by decide)] at hw
    have hw : w ∈ (join '\n' ((s.splitOn '\n').map trimEnd)).splitOn '\n' :=
      (List.mem_filter.mp hw).1
    rw [splitOn_join (fun l hl => (htrim l hl).2) hne] at hw
    exact (htrim w hw).1
  have hparts := List.IsChain.infix hends (trim_isInfix _)
  exact {
    newlines := (runsLe_capRuns _ 2 _).part (trim_isInfix _)
    head := head?_trim _
    last := trimmed_trim _
    lines := fun l hl => trimmed_of_mem_splitOn hparts (trimmed_trim _) hl }

/-- The last line of a trimmed text of several is not empty. -/
theorem last_line_ne_nil {s l : List Char} {init : List (List Char)} (ht : Trimmed s)
    (hs : s.splitOn '\n' = init ++ [l]) (hi : init ≠ []) : l ≠ [] := by
  rintro rfl
  have h := ht '\n' (by
    rw [← join_splitOn '\n' s, hs, join_append hi (List.cons_ne_nil _ _)]
    exact List.getLast?_concat)
  exact absurd h (by decide)

theorem first_line_ne_nil {s l : List Char} {rest : List (List Char)}
    (hh : ∀ c ∈ s.head?, isSpace c = false) (hs : s.splitOn '\n' = l :: rest) (hr : rest ≠ []) :
    l ≠ [] := by
  rintro rfl
  obtain ⟨b, rest, rfl⟩ := List.exists_cons_of_ne_nil hr
  have h := hh '\n' (by
    rw [← join_splitOn '\n' s, hs, join_cons_cons]
    rfl)
  exact absurd h (by decide)

theorem splitOn_folded {m : ℕ} {s : List Char} (h : m < (s.splitOn '\n').length) :
    (folded m s).splitOn '\n' = (s.splitOn '\n').take (m - 1) ++
      [join ' ' ((s.splitOn '\n').drop (m - 1))] := by
  rw [folded_of_lt h]
  refine splitOn_join (fun l hl => ?_) (List.append_ne_nil_of_right_ne_nil _ (List.cons_ne_nil _ _))
  rcases List.mem_append.mp hl with hl | hl
  · exact not_mem_of_mem_splitOn (List.mem_of_mem_take hl)
  · obtain rfl := List.mem_singleton.mp hl
    intro hc
    rcases mem_join hc with hc | ⟨l, hl, hc⟩
    · exact absurd hc (by decide)
    · exact not_mem_of_mem_splitOn (List.mem_of_mem_drop hl) hc

theorem length_splitOn_folded {m : ℕ} (hm : 1 ≤ m) (s : List Char) :
    ((folded m s).splitOn '\n').length ≤ m := by
  rcases Nat.lt_or_ge m (s.splitOn '\n').length with h | h
  · rw [splitOn_folded h, List.length_append, List.length_take, List.length_singleton]
    omega
  · rw [folded_of_le h]
    exact h

/-- Folding keeps both ends of the text, and the line it makes ends as the last one did. -/
theorem tidy_folded {m : ℕ} (hm : 1 ≤ m) {s : List Char} (hs : Tidy s) : Tidy (folded m s) := by
  rcases Nat.lt_or_ge m (s.splitOn '\n').length with hlt | hle
  swap
  · rwa [folded_of_le hle]
  have hfold := folded_of_lt hlt
  have hsplit := splitOn_folded hlt
  have hcut := List.take_append_drop (m - 1) (s.splitOn '\n')
  obtain ⟨init, last, hlast⟩ : ∃ init last, (s.splitOn '\n').drop (m - 1) = init ++ [last] := by
    refine ⟨_, _, (List.dropLast_append_getLast (l := (s.splitOn '\n').drop (m - 1)) ?_).symm⟩
    rw [Ne, List.drop_eq_nil_iff]
    omega
  generalize hA : (s.splitOn '\n').take (m - 1) = A at hfold hsplit hcut
  rw [hlast] at hfold hsplit hcut
  generalize hB : join ' ' (init ++ [last]) = B at hfold hsplit
  have hmore : A ++ init ≠ [] := by
    intro h
    rw [← hcut, ← List.append_assoc, h] at hlt
    exact absurd hlt (by rw [List.nil_append, List.length_singleton]; omega)
  have hl : last ≠ [] :=
    last_line_ne_nil hs.last (hcut.symm.trans (List.append_assoc A init [last]).symm) hmore
  have hlastB : B.getLast? = last.getLast? := by
    rw [← hB]
    exact getLast?_join hl init
  have hBne : B ≠ [] := by
    rintro rfl
    exact hl (List.getLast?_eq_none_iff.mp hlastB.symm)
  have hBt : Trimmed B := by
    intro c hc
    refine hs.lines last ?_ c (hlastB ▸ hc)
    rw [← hcut]
    exact List.mem_append_right _ (List.mem_append_right _ (List.mem_singleton_self last))
  have hBnl : ∀ c ∈ B, (c == '\n') = false := by
    intro c hc
    rw [beq_eq_false_iff_ne]
    rintro rfl
    refine not_mem_of_mem_splitOn (s := folded m s) ?_ hc
    rw [hsplit]
    exact List.mem_append_right _ (List.mem_singleton_self B)
  exact {
    newlines := by
      rw [hfold]
      rcases eq_or_ne A [] with rfl | hAne
      · rw [List.nil_append, join_singleton]
        exact runsLe_nil.append_of_forall_not hBnl
      · rw [join_append hAne (List.cons_ne_nil _ _), join_singleton, List.append_cons]
        refine (hs.newlines.part ?_).append_of_forall_not hBnl
        conv_rhs => rw [← join_splitOn '\n' s, ← hcut, join_append hAne (by simp), List.append_cons]
        exact (List.prefix_append _ _).isInfix
    head := by
      rw [hfold]
      cases A with
      | nil =>
          obtain ⟨f, init, rfl⟩ := List.exists_cons_of_ne_nil hmore
          have hf : f ≠ [] := first_line_ne_nil hs.head hcut.symm (by simp)
          rw [List.nil_append, join_singleton, ← hB, List.cons_append, head?_join hf]
          have hhead := hs.head
          rw [← join_splitOn '\n' s, ← hcut, List.nil_append, List.cons_append,
            head?_join hf] at hhead
          exact hhead
      | cons f A =>
          have hf : f ≠ [] := first_line_ne_nil hs.head hcut.symm (by simp)
          have hhead := hs.head
          rw [← join_splitOn '\n' s, ← hcut, List.cons_append, head?_join hf] at hhead
          rw [List.cons_append, head?_join hf]
          exact hhead
    last := by
      rw [hfold]
      intro c hc
      rw [getLast?_join hBne] at hc
      exact hBt c hc
    lines := by
      rw [hsplit]
      intro l hl
      rcases List.mem_append.mp hl with hl | hl
      · refine hs.lines l ?_
        rw [← hcut]
        exact List.mem_append_left _ hl
      · rw [List.mem_singleton.mp hl]
        exact hBt }

/-! ### The whole -/

/-- What a text that is taken has gone through. -/
theorem of_normalizeText {u : Unicode} {raw text : List UInt16} {limits : TextLimits}
    (h : normalizeText u raw limits = .ok text) :
    ∃ t, folded limits.maxLines (tidied (cleaned u raw)) = t ∧ encodeText t = text ∧ t ≠ [] ∧
      t.any u.isVisible = true ∧ t.length ≤ limits.maxLength := by
  unfold normalizeText at h
  dsimp only at h
  split_ifs at h with hbad hlong
  rw [not_or, Bool.not_eq_false] at hbad
  exact ⟨_, rfl, Except.ok.inj h, hbad.1, hbad.2, by omega⟩

theorem clean_of_normalizeText {u : Unicode} {raw text : List UInt16} {limits : TextLimits}
    (h : normalizeText u raw limits = .ok text) :
    ∃ t, folded limits.maxLines (tidied (cleaned u raw)) = t ∧ encodeText t = text ∧
      Clean u limits t := by
  obtain ⟨t, ht, htext, -, hvis, hlen⟩ := of_normalizeText h
  refine ⟨t, ht, htext, ?_⟩
  subst ht
  have htidy := tidy_folded limits.lines_pos (tidy_tidied (cleaned u raw))
  have hleg : ∀ c ∈ folded limits.maxLines (tidied (cleaned u raw)), Legible c := by
    intro c hc
    rcases mem_folded hc with hc | rfl | rfl
    · rcases mem_tidied hc with hc | rfl
      · exact legible_cleaned u raw c hc
      · exact legible_newline
    · exact legible_newline
    · exact legible_blank
  exact {
    control := fun c hc => (hleg c hc).1
    invisible := fun c hc => (hleg c hc).2.1
    separators := fun c hc => (hleg c hc).2.2
    marks := by
      refine runsLe_of_words u.mark_space fun w hw => ?_
      rw [words_folded, words_tidied] at hw
      exact (runsLe_capRuns u.isMark 3 _).part (of_mem_words hw).1
    newlines := htidy.newlines
    head := htidy.head
    last := htidy.last
    lines := htidy.lines
    count := length_splitOn_folded limits.lines_pos _
    length := hlen
    visible := List.any_eq_true.mp hvis }

/-- A text that is taken is well-formed and can be shown. -/
theorem normalizeText_clean (u : Unicode) (raw : List UInt16) (limits : TextLimits)
    {text : List UInt16} (h : normalizeText u raw limits = .ok text) :
    wellFormed none text = true ∧ encodeText (decodeText text) = text ∧
      Clean u limits (decodeText text) := by
  obtain ⟨t, -, rfl, hclean⟩ := clean_of_normalizeText h
  rw [decodeText_encodeText]
  exact ⟨wellFormed_encodeText t none, rfl, hclean⟩

/-- Composition of one letter with one mark. -/
def composeAcute : List Char → List Char
  | [] => []
  | [c] => [c]
  | c :: d :: s =>
      if c = 'e' ∧ d = Char.ofNat 0x301 then Char.ofNat 0xe9 :: composeAcute s
      else c :: composeAcute (d :: s)

/-- The tables, as far as the letters of ASCII, `é` and the combining diacritical marks go. -/
def latin : Unicode where
  nfc := composeAcute
  isMark c := 0x300 ≤ c.toNat && c.toNat ≤ 0x36f
  isVisible c := (0x21 ≤ c.toNat && c.toNat ≤ 0x7e) || c.toNat = 0xe9
  mark_space c hc := by
    simp only [isSpace, Bool.or_eq_true, Bool.and_eq_true, decide_eq_true_eq] at hc
    simp only [Bool.and_eq_false_iff, decide_eq_false_iff_not]
    omega

/-- A lone surrogate, a composition, a zero-width space and five lines, folded to two. -/
theorem normalizeText_clean_folded :
    normalizeText latin
        [0xd800, 0x20, 0x65, 0x301, 0x200b, 0x0d, 0x0a, 0x09, 0x0d, 0x0d, 0x0d, 0x62, 0x0a, 0x63]
        ⟨10, 2, by decide, by decide⟩ = .ok [0xe9, 0x0a, 0x20, 0x62, 0x20, 0x63] ∧
      Clean latin ⟨10, 2, by decide, by decide⟩
        (decodeText [0xe9, 0x0a, 0x20, 0x62, 0x20, 0x63]) := by
  have h : normalizeText latin
      [0xd800, 0x20, 0x65, 0x301, 0x200b, 0x0d, 0x0a, 0x09, 0x0d, 0x0d, 0x0d, 0x62, 0x0a, 0x63]
      ⟨10, 2, by decide, by decide⟩ = .ok [0xe9, 0x0a, 0x20, 0x62, 0x20, 0x63] := by rfl
  exact ⟨h, (normalizeText_clean _ _ _ h).2.2⟩

end RoomBackend.Normalizing
