import Mathlib.Data.List.DropRight

/-! # Texts

The string functions of the language, on lists of characters. -/

namespace RoomBackend.Texts

/-- White space and line terminators. -/
def isSpace (c : Char) : Bool :=
  let n := c.toNat
  (9 ≤ n && n ≤ 13) || n = 0x20 || n = 0xa0 || n = 0x1680 || (0x2000 ≤ n && n ≤ 0x200a) ||
    n = 0x2028 || n = 0x2029 || n = 0x202f || n = 0x205f || n = 0x3000 || n = 0xfeff

/-- `trimEnd`. -/
def trimEnd (s : List Char) : List Char := s.rdropWhile isSpace

/-- `trim`. -/
def trim (s : List Char) : List Char := trimEnd (s.dropWhile isSpace)

/-- `join`. -/
def join (sep : Char) (parts : List (List Char)) : List Char := [sep].intercalate parts

/-- `split` by a separator that is one character twice. -/
def splitPair (sep : Char) : List Char → List (List Char)
  | [] => [[]]
  | [x] => [[x]]
  | x :: y :: s =>
      if x = sep ∧ y = sep then [] :: splitPair sep s
      else (splitPair sep (y :: s)).modifyHead (x :: ·)

/-! ### White space -/

theorem trim_of_no_space {s : List Char} (h : ∀ c ∈ s, isSpace c = false) : trim s = s := by
  have hd : s.dropWhile isSpace = s := by
    cases s with
    | nil => rfl
    | cons c s => rw [List.dropWhile_cons_of_neg (by rw [h c List.mem_cons_self]; simp)]
  unfold trim trimEnd
  rw [hd]
  refine List.rdropWhile_eq_self_iff.mpr fun hne hl => ?_
  rw [h _ (List.getLast_mem hne)] at hl
  cases hl

/-- White space before the text does not matter. -/
theorem trim_append_of_space {w s : List Char} (h : ∀ c ∈ w, isSpace c = true) :
    trim (w ++ s) = trim s := by
  unfold trim
  rw [List.dropWhile_append_of_pos h]

/-! ### Splitting -/

theorem splitPair_cons_cons {sep x y : Char} {s : List Char} (h : ¬ (x = sep ∧ y = sep)) :
    splitPair sep (x :: y :: s) = (splitPair sep (y :: s)).modifyHead (x :: ·) := by
  rw [splitPair, if_neg h]

theorem splitPair_ne_nil (sep : Char) (s : List Char) : splitPair sep s ≠ [] := by
  induction s using splitPair.induct sep with
  | case1 => exact List.cons_ne_nil _ _
  | case2 x => exact List.cons_ne_nil _ _
  | case3 x y s h ih =>
      rw [splitPair, if_pos h]
      exact List.cons_ne_nil _ _
  | case4 x y s h ih =>
      rw [splitPair, if_neg h]
      intro he
      exact ih (List.modifyHead_eq_nil_iff.mp he)

theorem join_singleton (sep : Char) (a : List Char) : join sep [a] = a :=
  List.intercalate_singleton

theorem join_cons_cons (sep : Char) (p q : List Char) (ps : List (List Char)) :
    join sep (p :: q :: ps) = p ++ sep :: join sep (q :: ps) := by
  unfold join
  rw [List.intercalate_cons_cons, List.append_assoc, List.singleton_append]

theorem mem_join {sep c : Char} {parts : List (List Char)} (h : c ∈ join sep parts) :
    c = sep ∨ ∃ a ∈ parts, c ∈ a := by
  induction parts with
  | nil => cases h
  | cons a parts ih =>
      cases parts with
      | nil =>
          rw [join_singleton] at h
          exact Or.inr ⟨a, List.mem_cons_self, h⟩
      | cons b parts =>
          rw [join_cons_cons] at h
          rcases List.mem_append.mp h with h | h
          · exact Or.inr ⟨a, List.mem_cons_self, h⟩
          · rcases List.mem_cons.mp h with rfl | h
            · exact Or.inl rfl
            · exact (ih h).imp_right fun ⟨d, hd, hc⟩ => ⟨d, List.mem_cons_of_mem _ hd, hc⟩

theorem join_splitOn (sep : Char) (s : List Char) : join sep (s.splitOn sep) = s :=
  List.intercalate_splitOn sep

/-- A character of a text is the separator or stands in one of the parts. -/
theorem mem_splitOn (sep : Char) {c : Char} {s : List Char} (h : c ∈ s) :
    c = sep ∨ ∃ p ∈ s.splitOn sep, c ∈ p := mem_join (by rwa [join_splitOn])

theorem not_mem_of_mem_splitOn {sep : Char} {s p : List Char} (h : p ∈ s.splitOn sep) :
    sep ∉ p := by
  induction s generalizing p with
  | nil =>
      obtain rfl := List.mem_singleton.mp h
      exact List.not_mem_nil
  | cons x s ih =>
      rw [List.splitOn_cons_eq_if_modifyHead] at h
      split_ifs at h with hx
      · rcases List.mem_cons.mp h with rfl | h
        · exact List.not_mem_nil
        · exact ih h
      · obtain ⟨q, qs, hq⟩ := List.exists_cons_of_ne_nil (List.splitOn_ne_nil sep s)
        rw [hq] at h ih
        rcases List.mem_cons.mp h with rfl | h
        · intro hm
          rcases List.mem_cons.mp hm with rfl | hm
          · exact hx (beq_self_eq_true _)
          · exact ih List.mem_cons_self hm
        · exact ih (List.mem_cons_of_mem _ h)

theorem splitOn_join {sep : Char} {parts : List (List Char)} (h : ∀ p ∈ parts, sep ∉ p)
    (hne : parts ≠ []) : (join sep parts).splitOn sep = parts :=
  List.splitOn_intercalate sep h hne

theorem mem_splitPair (sep : Char) {c : Char} {s : List Char} (h : c ∈ s) :
    c = sep ∨ ∃ p ∈ splitPair sep s, c ∈ p := by
  induction s using splitPair.induct sep with
  | case1 => cases h
  | case2 x => exact Or.inr ⟨_, List.mem_cons_self, h⟩
  | case3 x y s hxy ih =>
      rw [splitPair, if_pos hxy]
      rcases List.mem_cons.mp h with rfl | h
      · exact Or.inl hxy.1
      · rcases List.mem_cons.mp h with rfl | h
        · exact Or.inl hxy.2
        · rcases ih h with he | ⟨q, hq, hc⟩
          · exact Or.inl he
          · exact Or.inr ⟨q, List.mem_cons_of_mem _ hq, hc⟩
  | case4 x y s hxy ih =>
      rw [splitPair_cons_cons hxy]
      obtain ⟨p, ps, hps⟩ := List.exists_cons_of_ne_nil (splitPair_ne_nil sep (y :: s))
      rw [hps] at ih ⊢
      rcases List.mem_cons.mp h with rfl | hs
      · exact Or.inr ⟨_, List.mem_cons_self, List.mem_cons_self⟩
      · rcases ih hs with he | ⟨q, hq, hc⟩
        · exact Or.inl he
        · rcases List.mem_cons.mp hq with rfl | hq
          · exact Or.inr ⟨_, List.mem_cons_self, List.mem_cons_of_mem _ hc⟩
          · exact Or.inr ⟨q, List.mem_cons_of_mem _ hq, hc⟩

/-- The last part of one text and the first of the next become one part. -/
theorem splitOn_append {sep : Char} {a b l b₁ : List Char} {init rest : List (List Char)}
    (ha : a.splitOn sep = init ++ [l]) (hb : b.splitOn sep = b₁ :: rest) :
    (a ++ b).splitOn sep = init ++ (l ++ b₁) :: rest := by
  induction a generalizing init l with
  | nil =>
      rw [List.splitOn_nil] at ha
      cases init with
      | nil =>
          obtain rfl := (List.cons.inj ha).1
          exact hb
      | cons x init => cases init <;> cases ha
  | cons x a ih =>
      rw [List.cons_append, List.splitOn_cons_eq_if_modifyHead]
      rw [List.splitOn_cons_eq_if_modifyHead] at ha
      split_ifs at ha ⊢ with hx
      · cases init with
        | nil => exact absurd (List.cons.inj ha).2 (List.splitOn_ne_nil sep a)
        | cons y init =>
            obtain ⟨rfl, htl⟩ := List.cons.inj ha
            rw [ih htl]
            rfl
      · obtain ⟨q, qs, hq⟩ := List.exists_cons_of_ne_nil (List.splitOn_ne_nil sep a)
        rw [hq] at ha
        cases init with
        | nil =>
            obtain ⟨rfl, rfl⟩ := List.cons.inj ha
            rw [ih (hq.trans (List.nil_append [q]).symm)]
            rfl
        | cons y init =>
            obtain ⟨rfl, rfl⟩ := List.cons.inj ha
            rw [ih (hq.trans (List.cons_append ..).symm)]
            rfl

/-- The same for two separators in a row, if the next text does not begin with one. -/
theorem splitPair_append {sep : Char} {a b l b₁ : List Char} {init rest : List (List Char)}
    (hsep : ∀ c ∈ b.head?, c ≠ sep) (ha : splitPair sep a = init ++ [l])
    (hb : splitPair sep b = b₁ :: rest) : splitPair sep (a ++ b) = init ++ (l ++ b₁) :: rest := by
  induction a using splitPair.induct sep generalizing init l with
  | case1 =>
      cases init with
      | nil =>
          obtain rfl := (List.cons.inj ha).1
          exact hb
      | cons x init => cases init <;> cases ha
  | case2 x =>
      cases init with
      | nil =>
          obtain rfl := (List.cons.inj ha).1
          cases b with
          | nil =>
              obtain ⟨rfl, rfl⟩ := List.cons.inj hb
              rfl
          | cons y b =>
              rw [List.singleton_append, splitPair_cons_cons fun h => hsep y rfl h.2, hb]
              rfl
      | cons y init => cases init <;> cases ha
  | case3 x y s hxy ih =>
      rw [splitPair, if_pos hxy] at ha
      rw [List.cons_append, List.cons_append, splitPair, if_pos hxy]
      cases init with
      | nil => exact absurd (List.cons.inj ha).2 (splitPair_ne_nil sep s)
      | cons y init =>
          obtain ⟨rfl, htl⟩ := List.cons.inj ha
          rw [ih htl]
          rfl
  | case4 x y s hxy ih =>
      rw [splitPair_cons_cons hxy] at ha
      rw [List.cons_append, List.cons_append, splitPair_cons_cons hxy, ← List.cons_append]
      obtain ⟨q, qs, hq⟩ := List.exists_cons_of_ne_nil (splitPair_ne_nil sep (y :: s))
      rw [hq] at ha
      cases init with
      | nil =>
          obtain ⟨rfl, rfl⟩ := List.cons.inj ha
          rw [ih (hq.trans (List.nil_append [q]).symm)]
          rfl
      | cons z init =>
          obtain ⟨rfl, rfl⟩ := List.cons.inj ha
          rw [ih (hq.trans (List.cons_append ..).symm)]
          rfl

theorem splitPair_of_not_mem {sep : Char} {s : List Char} (h : sep ∉ s) :
    splitPair sep s = [s] := by
  induction s using splitPair.induct sep with
  | case1 => rfl
  | case2 x => rfl
  | case3 x y s hxy ih => exact absurd (hxy.1 ▸ List.mem_cons_self) h
  | case4 x y s hxy ih =>
      rw [splitPair_cons_cons hxy, ih fun hm => h (List.mem_cons_of_mem _ hm)]
      rfl

/-- A text that is not cut is its only part. -/
theorem eq_of_splitPair {sep : Char} {s t : List Char} (h : splitPair sep s = [t]) : t = s := by
  induction s using splitPair.induct sep generalizing t with
  | case1 => exact (List.cons.inj h).1.symm
  | case2 x => exact (List.cons.inj h).1.symm
  | case3 x y s hxy ih =>
      rw [splitPair, if_pos hxy] at h
      exact absurd (List.cons.inj h).2 (splitPair_ne_nil sep s)
  | case4 x y s hxy ih =>
      rw [splitPair_cons_cons hxy] at h
      obtain ⟨q, qs, hq⟩ := List.exists_cons_of_ne_nil (splitPair_ne_nil sep (y :: s))
      rw [hq] at h
      obtain ⟨rfl, rfl⟩ := List.cons.inj h
      rw [ih hq]

theorem splitPair_append_of_not_mem {sep : Char} {p : List Char} (hp : sep ∉ p) (s : List Char) :
    splitPair sep (p ++ s) = (splitPair sep s).modifyHead (p ++ ·) := by
  induction p with
  | nil =>
      rw [List.nil_append]
      cases splitPair sep s <;> rfl
  | cons x p ih =>
      have hx : x ≠ sep := fun h => hp (h ▸ List.mem_cons_self)
      have ih := ih fun h => hp (List.mem_cons_of_mem _ h)
      obtain ⟨q, qs, hq⟩ := List.exists_cons_of_ne_nil (splitPair_ne_nil sep s)
      rw [hq] at ih ⊢
      rw [List.cons_append]
      cases hps : p ++ s with
      | nil =>
          rw [hps] at ih
          obtain ⟨hnil, rfl⟩ := List.cons.inj ih
          have hnil : [] = p ++ q := hnil
          show [[x]] = [x :: (p ++ q)]
          rw [← hnil]
      | cons y r =>
          rw [splitPair_cons_cons fun h => hx h.1, ← hps, ih]
          rfl

/-- Parts that are not empty do not bring two separators together. -/
theorem splitPair_join {sep : Char} {parts : List (List Char)}
    (h : ∀ p ∈ parts, sep ∉ p ∧ p ≠ []) (hne : parts ≠ []) :
    splitPair sep (join sep parts) = [join sep parts] := by
  induction parts with
  | nil => exact absurd rfl hne
  | cons p ps ih =>
      obtain ⟨hp, -⟩ := h p List.mem_cons_self
      cases ps with
      | nil =>
          have hj : join sep [p] = p := List.intercalate_singleton
          rw [hj, splitPair_of_not_mem hp]
      | cons q ps =>
          have ih := ih (fun x hx => h x (List.mem_cons_of_mem _ hx)) (List.cons_ne_nil _ _)
          obtain ⟨hq, hqne⟩ := h q (List.mem_cons_of_mem _ List.mem_cons_self)
          obtain ⟨y, q', rfl⟩ := List.exists_cons_of_ne_nil hqne
          obtain ⟨s, hs⟩ : ∃ s, join sep ((y :: q') :: ps) = y :: s := by
            cases ps with
            | nil => exact ⟨q', List.intercalate_singleton⟩
            | cons r ps => exact ⟨_, join_cons_cons ..⟩
          have hy : ¬ (sep = sep ∧ y = sep) := fun h => hq (h.2 ▸ List.mem_cons_self)
          rw [join_cons_cons, splitPair_append_of_not_mem hp, hs, splitPair_cons_cons hy, ← hs, ih]
          rfl

end RoomBackend.Texts
