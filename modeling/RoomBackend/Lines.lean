import Mathlib.Data.List.Chain
import RoomBackend.Words

/-! # Lines

A line that is trimmed does not end in white space. That no line of a text does is a fact about its
neighbouring characters, which every part of the text has too. -/

namespace RoomBackend.Texts

/-- The last character is not white space. -/
def Trimmed (s : List Char) : Prop := ∀ c ∈ s.getLast?, isSpace c = false

/-- No white space stands before a separator, but the separator itself. -/
def LineEnds (sep : Char) (s : List Char) : Prop :=
  s.IsChain fun a b => b = sep → isSpace a = true → a = sep

/-! ### Joined parts -/

variable {sep : Char}

/-- A part is followed by a separator, or it is the last. -/
theorem join_ends {a : List Char} {parts : List (List Char)} (h : a ∈ parts) :
    a <:+ join sep parts ∨ a ++ [sep] <:+: join sep parts := by
  induction parts with
  | nil => cases h
  | cons b parts ih =>
      cases parts with
      | nil =>
          obtain rfl := List.mem_singleton.mp h
          rw [join_singleton]
          exact Or.inl List.suffix_rfl
      | cons c parts =>
          rw [join_cons_cons]
          rcases List.mem_cons.mp h with rfl | h
          · refine Or.inr ?_
            rw [List.append_cons a sep (join sep (c :: parts))]
            exact (List.prefix_append _ _).isInfix
          · have hs : join sep (c :: parts) <:+ b ++ sep :: join sep (c :: parts) :=
              (List.suffix_cons sep _).trans (List.suffix_append b _)
            exact (ih h).imp (·.trans hs) (·.trans hs.isInfix)

theorem infix_join {a : List Char} {parts : List (List Char)} (h : a ∈ parts) :
    a <:+: join sep parts := by
  rcases @join_ends sep a parts h with h | h
  · exact h.isInfix
  · exact (List.prefix_append a [sep]).isInfix.trans h

theorem head?_join {a : List Char} (ha : a ≠ []) (parts : List (List Char)) :
    (join sep (a :: parts)).head? = a.head? := by
  cases parts with
  | nil => rw [join_singleton]
  | cons b parts =>
      rw [join_cons_cons]
      exact List.head?_append_of_ne_nil a ha

theorem join_append {init last : List (List Char)} (hi : init ≠ []) (hl : last ≠ []) :
    join sep (init ++ last) = join sep init ++ sep :: join sep last := by
  induction init with
  | nil => exact absurd rfl hi
  | cons a init ih =>
      cases init with
      | nil =>
          obtain ⟨b, last, rfl⟩ := List.exists_cons_of_ne_nil hl
          rw [List.singleton_append, join_cons_cons, join_singleton]
      | cons b init =>
          have ih := ih (List.cons_ne_nil _ _)
          rw [List.cons_append] at ih
          rw [List.cons_append, List.cons_append, join_cons_cons, ih, join_cons_cons,
            List.append_assoc]
          rfl

theorem getLast?_join {a : List Char} (ha : a ≠ []) (init : List (List Char)) :
    (join sep (init ++ [a])).getLast? = a.getLast? := by
  rcases eq_or_ne init [] with rfl | hi
  · rw [List.nil_append, join_singleton]
  · rw [join_append hi (List.cons_ne_nil a []), join_singleton, List.append_cons]
    exact List.getLast?_append_of_ne_nil _ ha

/-! ### Trimming -/

theorem trimEnd_eq_self {s : List Char} (h : Trimmed s) : trimEnd s = s := by
  refine List.rdropWhile_eq_self_iff.mpr fun hne hl => ?_
  rw [h _ (List.getLast?_eq_some_getLast hne)] at hl
  cases hl

theorem trimmed_trimEnd (s : List Char) : Trimmed (trimEnd s) := by
  intro c hc
  obtain ⟨t, ht⟩ := List.getLast?_eq_some_iff.mp hc
  have hne : trimEnd s ≠ [] := by
    rw [ht]
    exact List.append_ne_nil_of_right_ne_nil t (List.cons_ne_nil c [])
  have hlast := List.rdropWhile_last_not isSpace s hne
  rw [Bool.not_eq_true] at hlast
  have hc : (trimEnd s).getLast hne = c := by
    rw [List.getLast?_eq_some_getLast hne] at hc
    exact Option.some.inj hc
  rw [← hc]
  exact hlast

theorem trimmed_trim (s : List Char) : Trimmed (trim s) := trimmed_trimEnd _

theorem trim_isInfix (s : List Char) : trim s <:+: s :=
  (List.rdropWhile_prefix isSpace _).isInfix.trans (List.dropWhile_suffix isSpace).isInfix

theorem head?_trim (s : List Char) : ∀ c ∈ (trim s).head?, isSpace c = false := by
  intro c hc
  have hd : ∀ c ∈ (s.dropWhile isSpace).head?, isSpace c = false := by
    intro c hc
    have h := List.head?_dropWhile_not isSpace s
    rw [show (s.dropWhile isSpace).head? = some c from hc] at h
    exact h
  obtain ⟨t, ht⟩ := List.rdropWhile_prefix isSpace (l := s.dropWhile isSpace)
  refine hd c ?_
  rw [← ht]
  exact List.mem_head?_append_of_mem_head? hc

theorem trim_eq_self {s : List Char} (hhead : ∀ c ∈ s.head?, isSpace c = false) (h : Trimmed s) :
    trim s = s := by
  have hd : s.dropWhile isSpace = s := by
    cases s with
    | nil => rfl
    | cons c s => exact List.dropWhile_cons_of_neg (by rw [hhead c rfl]; exact Bool.false_ne_true)
  unfold trim
  rw [hd, trimEnd_eq_self h]

theorem words_trimEnd (s : List Char) : words isSpace (trimEnd s) = words isSpace s :=
  words_rdropWhile s

theorem words_trim (s : List Char) : words isSpace (trim s) = words isSpace s :=
  (words_rdropWhile _).trans (words_dropWhile s)

/-! ### The ends of the lines -/

theorem lineEnds_of_not_mem {s : List Char} (h : sep ∉ s) : LineEnds sep s := by
  refine List.isChain_iff_forall_rel_of_append_cons_cons.mpr ?_
  rintro a b l₁ l₂ rfl rfl
  exact absurd (List.mem_append_right _ (List.mem_cons_of_mem _ List.mem_cons_self)) h

/-- If the lines that are not empty are trimmed, only the separator may end the text. -/
theorem lineEnds_of_words {s : List Char} (h : ∀ w ∈ words (· == sep) s, Trimmed w) :
    LineEnds sep s := by
  have hboth : LineEnds sep s ∧ ∀ c ∈ s.getLast?, isSpace c = true → c = sep := by
    refine @of_words (· == sep)
      (fun s => LineEnds sep s ∧ ∀ c ∈ s.getLast?, isSpace c = true → c = sep) (fun _ => True)
      ⟨List.IsChain.nil, fun _ h => nomatch h⟩ ?_ s (fun _ _ _ => trivial) ?_
    · rintro a x b hx - ⟨ha, hla⟩ ⟨hb, hlb⟩
      obtain rfl := beq_iff_eq.mp hx
      refine ⟨List.isChain_append.mpr ⟨ha, List.isChain_cons.mpr ⟨fun _ _ _ _ => rfl, hb⟩,
        fun y hy _ _ _ => hla y hy⟩, fun c hc => ?_⟩
      rw [List.append_cons] at hc
      cases b with
      | nil =>
          rw [List.append_nil, List.getLast?_concat] at hc
          exact fun _ => (Option.some.inj hc).symm
      | cons y b =>
          rw [List.getLast?_append_of_ne_nil _ (List.cons_ne_nil y b)] at hc
          exact hlb c hc
    · intro w hw
      refine ⟨lineEnds_of_not_mem fun hm => ?_, fun c hc hsp => ?_⟩
      · exact not_mem_of_mem_splitOn (List.mem_filter.mp hw).1 hm
      · rw [h w hw c hc] at hsp
        cases hsp
  exact hboth.1

/-- The last line ends as the text does, the others at a separator. -/
theorem trimmed_of_mem_splitOn {s a : List Char} (hs : LineEnds sep s) (ht : Trimmed s)
    (ha : a ∈ s.splitOn sep) : Trimmed a := by
  intro c hc
  obtain ⟨t, rfl⟩ := List.getLast?_eq_some_iff.mp hc
  have hends := @join_ends sep _ _ ha
  rw [join_splitOn] at hends
  rcases hends with ⟨b, rfl⟩ | h
  · refine ht c ?_
    rw [← List.append_assoc]
    exact List.getLast?_concat
  · rw [← Bool.not_eq_true]
    intro hsp
    have hch := List.IsChain.infix hs h
    rw [List.append_assoc] at hch
    have hcs := (List.isChain_append_cons_cons.mp hch).2.1 rfl hsp
    exact not_mem_of_mem_splitOn ha (hcs ▸ List.mem_append_right t List.mem_cons_self)

end RoomBackend.Texts
