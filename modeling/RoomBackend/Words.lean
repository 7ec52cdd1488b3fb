import RoomBackend.Texts

/-! # Words and runs

A text is cut into its words by the characters of a class. What happens to the characters of the
class alone keeps the words, and what is true of every word is often true of the text. -/

namespace RoomBackend.Texts

/-- The longest parts of a text without a character of the class. -/
def words (p : Char → Bool) (s : List Char) : List (List Char) :=
  (s.splitOnP p).filter fun w => !w.isEmpty

/-- `replace` of the runs of a class: `k` characters of the run are behind, `n` of it stay. -/
def capRuns (p : Char → Bool) (n : ℕ) : ℕ → List Char → List Char
  | _, [] => []
  | k, c :: s =>
      if p c then if k < n then c :: capRuns p n (k + 1) s else capRuns p n k s
      else c :: capRuns p n 0 s

/-- No run of the class is longer than `n`. -/
def RunsLe (p : Char → Bool) (n : ℕ) (s : List Char) : Prop :=
  ∀ r, r <:+: s → (∀ c ∈ r, p c = true) → r.length ≤ n

variable {p q : Char → Bool} {n : ℕ}

/-! ### Words -/

theorem words_append_cons {x : Char} (hx : p x = true) (a b : List Char) :
    words p (a ++ x :: b) = words p a ++ words p b := by
  unfold words
  rw [List.splitOnP_append_cons a b hx, List.filter_append]

theorem words_nil : words p [] = [] := by
  unfold words
  rw [List.splitOnP_nil]
  rfl

theorem words_cons {x : Char} (hx : p x = true) (s : List Char) : words p (x :: s) = words p s := by
  have h := words_append_cons hx [] s
  rwa [words_nil, List.nil_append, List.nil_append] at h

theorem words_append_of_forall {w : List Char} (hw : ∀ c ∈ w, p c = true) (s : List Char) :
    words p (w ++ s) = words p s := by
  induction w with
  | nil => rfl
  | cons c w ih =>
      rw [List.cons_append, words_cons (hw c List.mem_cons_self)]
      exact ih fun x hx => hw x (List.mem_cons_of_mem _ hx)

theorem append_words_of_forall {w : List Char} (hw : ∀ c ∈ w, p c = true) (s : List Char) :
    words p (s ++ w) = words p s := by
  cases w with
  | nil => rw [List.append_nil]
  | cons c w =>
      have hnil := words_append_of_forall (fun x hx => hw x (List.mem_cons_of_mem _ hx)) []
      rw [List.append_nil, words_nil] at hnil
      rw [words_append_cons (hw c List.mem_cons_self), hnil, List.append_nil]

theorem words_dropWhile (s : List Char) : words p (s.dropWhile p) = words p s := by
  conv_rhs => rw [← List.takeWhile_append_dropWhile (p := p) (l := s)]
  exact (words_append_of_forall (fun c hc => List.mem_takeWhile_imp hc) _).symm

theorem words_rdropWhile (s : List Char) : words p (s.rdropWhile p) = words p s := by
  conv_rhs => rw [← List.rdropWhile_append_rtakeWhile (p := p) (l := s)]
  exact (append_words_of_forall (fun c hc => List.mem_rtakeWhile_imp hc) _).symm

theorem words_join {sep : Char} (hsep : p sep = true) (parts : List (List Char)) :
    words p (join sep parts) = parts.flatMap (words p) := by
  induction parts with
  | nil => exact words_nil
  | cons a parts ih =>
      cases parts with
      | nil =>
          rw [List.flatMap_cons, List.flatMap_nil, List.append_nil]
          exact congrArg (words p) List.intercalate_singleton
      | cons b parts =>
          rw [join_cons_cons, words_append_cons hsep, ih]
          rfl

/-- Cutting runs of separators short keeps the words, if something of each run stays. -/
theorem words_append_capRuns (hq : ∀ c, q c = true → p c = true) (hn : 0 < n) (s : List Char)
    {a : List Char} {k : ℕ} (hk : k = 0 ∨ a = []) :
    words p (a ++ capRuns q n k s) = words p (a ++ s) := by
  induction s generalizing a k with
  | nil => rfl
  | cons c s ih =>
      unfold capRuns
      cases hc : q c with
      | true =>
          rw [if_pos rfl]
          by_cases hlt : k < n
          · rw [if_pos hlt, words_append_cons (hq c hc), words_append_cons (hq c hc)]
            exact congrArg (words p a ++ ·) (@ih [] (k + 1) (Or.inr rfl))
          · rw [if_neg hlt]
            obtain rfl : a = [] := hk.resolve_left (by omega)
            rw [ih (Or.inr rfl)]
            exact (words_cons (hq c hc) s).symm
      | false =>
          rw [if_neg Bool.false_ne_true, List.append_cons, List.append_cons a c s]
          exact ih (Or.inl rfl)

theorem words_capRuns (hq : ∀ c, q c = true → p c = true) (hn : 0 < n) (s : List Char) :
    words p (capRuns q n 0 s) = words p s :=
  words_append_capRuns hq hn s (a := []) (Or.inl rfl)

theorem words_of_forall_not {s : List Char} (h : ∀ c ∈ s, p c = false) (hne : s ≠ []) :
    words p s = [s] := by
  unfold words
  rw [List.splitOnP_eq_singleton h, List.filter_cons_of_pos, List.filter_nil]
  rw [Bool.not_eq_true', List.isEmpty_eq_false_iff]
  exact hne

/-- What the empty text has, and a separator between two texts that have it keeps, a text has if its
words do. -/
theorem of_words {P : List Char → Prop} {Q : Char → Prop} (hnil : P [])
    (hglue : ∀ a x b, p x = true → Q x → P a → P b → P (a ++ x :: b)) {s : List Char}
    (hQ : ∀ x ∈ s, p x = true → Q x) (h : ∀ w ∈ words p s, P w) : P s := by
  induction hlen : s.length using Nat.strong_induction_on generalizing s with
  | _ m ih =>
    by_cases hs : ∃ x ∈ s, p x = true
    · obtain ⟨x, hx, hpx⟩ := hs
      obtain ⟨a, b, rfl⟩ := List.append_of_mem hx
      rw [words_append_cons hpx] at h
      rw [List.length_append, List.length_cons] at hlen
      refine hglue a x b hpx (hQ x hx hpx) (ih a.length (by omega) (fun y hy => ?_)
        (fun w hw => h w (List.mem_append_left _ hw)) rfl)
        (ih b.length (by omega) (fun y hy => ?_) (fun w hw => h w (List.mem_append_right _ hw)) rfl)
      · exact hQ y (List.mem_append_left _ hy)
      · exact hQ y (List.mem_append_right _ (List.mem_cons_of_mem _ hy))
    · have hno : ∀ c ∈ s, p c = false := fun c hc => by
        rw [← Bool.not_eq_true]
        exact fun h => hs ⟨c, hc, h⟩
      rcases eq_or_ne s [] with rfl | hne
      · exact hnil
      · exact h s (by rw [words_of_forall_not hno hne]; exact List.mem_singleton_self s)

/-- A word is a part of the text without a character of the class. -/
theorem of_mem_words {s w : List Char} (h : w ∈ words p s) :
    w <:+: s ∧ w ≠ [] ∧ ∀ c ∈ w, p c = false := by
  induction hlen : s.length using Nat.strong_induction_on generalizing s with
  | _ m ih =>
    by_cases hs : ∃ x ∈ s, p x = true
    · obtain ⟨x, hx, hpx⟩ := hs
      obtain ⟨a, b, rfl⟩ := List.append_of_mem hx
      rw [words_append_cons hpx] at h
      rw [List.length_append, List.length_cons] at hlen
      rcases List.mem_append.mp h with h | h
      · obtain ⟨hin, hw⟩ := ih a.length (by omega) h rfl
        exact ⟨hin.trans (List.prefix_append a _).isInfix, hw⟩
      · obtain ⟨hin, hw⟩ := ih b.length (by omega) h rfl
        exact ⟨hin.trans ((List.suffix_cons x b).trans (List.suffix_append a _)).isInfix, hw⟩
    · have hno : ∀ c ∈ s, p c = false := fun c hc => by
        rw [← Bool.not_eq_true]
        exact fun h => hs ⟨c, hc, h⟩
      rcases eq_or_ne s [] with rfl | hne
      · rw [words_nil] at h
        cases h
      · rw [words_of_forall_not hno hne] at h
        rw [List.mem_singleton.mp h]
        exact ⟨List.infix_rfl, hne, hno⟩

/-! ### Runs -/

theorem RunsLe.part {s t : List Char} (h : RunsLe p n t) (hs : s <:+: t) : RunsLe p n s :=
  fun r hr hp => h r (hr.trans hs) hp

theorem runsLe_nil : RunsLe p n [] := fun r hr _ => by
  rw [List.infix_nil.mp hr]
  exact Nat.zero_le n

/-- A character outside the class parts the runs. -/
theorem infix_append_cons {r a b : List Char} {x : Char} (hx : x ∉ r) (h : r <:+: a ++ x :: b) :
    r <:+: a ∨ r <:+: b := by
  induction a with
  | nil =>
      rcases List.infix_cons_iff.mp h with h | h
      · rcases List.prefix_cons_iff.mp h with rfl | ⟨t, rfl, -⟩
        · exact Or.inl List.infix_rfl
        · exact absurd List.mem_cons_self hx
      · exact Or.inr h
  | cons c a ih =>
      rcases List.infix_cons_iff.mp h with h | h
      · refine Or.inl ?_
        have hle : r <+: c :: a := by
          have hpre := List.prefix_append (c :: a) (x :: b)
          rcases List.prefix_or_prefix_of_prefix h hpre with h' | h'
          · exact h'
          · obtain ⟨t, rfl⟩ := h'
            cases t with
            | nil => exact ⟨[], by rw [List.append_nil, List.append_nil]⟩
            | cons y t =>
                obtain ⟨t', ht⟩ := h
                rw [List.append_assoc] at ht
                obtain ⟨rfl, -⟩ := List.cons.inj (List.append_cancel_left ht)
                exact absurd (List.mem_append_right _ List.mem_cons_self) hx
        exact hle.isInfix
      · exact (ih h).imp_left fun h => h.trans (List.suffix_cons c a).isInfix

theorem RunsLe.append_cons {a b : List Char} {x : Char} (hx : p x = false) (ha : RunsLe p n a)
    (hb : RunsLe p n b) : RunsLe p n (a ++ x :: b) := by
  intro r hr hp
  have hxr : x ∉ r := fun h => by
    rw [hp x h] at hx
    cases hx
  rcases infix_append_cons hxr hr with hr | hr
  · exact ha r hr hp
  · exact hb r hr hp

/-- Runs do not go past white space, so those of the words are all there are. -/
theorem runsLe_of_words (hq : ∀ c, p c = true → q c = false) {s : List Char}
    (h : ∀ w ∈ words p s, RunsLe q n w) : RunsLe q n s :=
  of_words (Q := fun _ => True) runsLe_nil (fun _ x _ hx _ ha hb => ha.append_cons (hq x hx) hb)
    (fun _ _ _ => trivial) h

theorem RunsLe.append_of_forall_not {a b : List Char} (ha : RunsLe p n a)
    (hb : ∀ c ∈ b, p c = false) : RunsLe p n (a ++ b) := by
  cases b with
  | nil => rwa [List.append_nil]
  | cons x b =>
      refine ha.append_cons (hb x List.mem_cons_self) fun r hr hp => ?_
      cases r with
      | nil => exact Nat.zero_le n
      | cons c r =>
          have hc := hb c (List.mem_cons_of_mem _ (hr.subset List.mem_cons_self))
          rw [hp c List.mem_cons_self] at hc
          cases hc

/-- The induction is on the text; a run at its head may go on for what the run so far leaves. -/
theorem runsLe_capRuns_aux (s : List Char) (k : ℕ) :
    (∀ r, r <+: capRuns p n k s → (∀ c ∈ r, p c = true) → r.length ≤ n - k) ∧
      RunsLe p n (capRuns p n k s) := by
  induction s generalizing k with
  | nil =>
      refine ⟨fun r hr _ => ?_, runsLe_nil⟩
      rw [List.prefix_nil.mp hr]
      exact Nat.zero_le _
  | cons c s ih =>
      unfold capRuns
      cases hc : p c with
      | true =>
          rw [if_pos rfl]
          by_cases hlt : k < n
          · rw [if_pos hlt]
            obtain ⟨hhead, hruns⟩ := ih (k + 1)
            have hstart : ∀ r, r <+: c :: capRuns p n (k + 1) s → (∀ c ∈ r, p c = true) →
                r.length ≤ n - k := by
              intro r hr hp
              rcases List.prefix_cons_iff.mp hr with rfl | ⟨t, rfl, ht⟩
              · exact Nat.zero_le _
              · have := hhead t ht fun c hc => hp c (List.mem_cons_of_mem _ hc)
                rw [List.length_cons]
                omega
            refine ⟨hstart, fun r hr hp => ?_⟩
            rcases List.infix_cons_iff.mp hr with hr | hr
            · exact (hstart r hr hp).trans (Nat.sub_le n k)
            · exact hruns r hr hp
          · rw [if_neg hlt]
            exact ih k
      | false =>
          rw [if_neg Bool.false_ne_true]
          refine ⟨fun r hr hp => ?_, RunsLe.append_cons (a := []) hc runsLe_nil (ih 0).2⟩
          rcases List.prefix_cons_iff.mp hr with rfl | ⟨t, rfl, -⟩
          · exact Nat.zero_le _
          · rw [hp c List.mem_cons_self] at hc
            cases hc

theorem runsLe_capRuns (p : Char → Bool) (n : ℕ) (s : List Char) : RunsLe p n (capRuns p n 0 s) :=
  (runsLe_capRuns_aux s 0).2

/-- A text whose runs are short enough is left alone. -/
theorem capRuns_eq_self_aux {s : List Char} {k : ℕ}
    (hk : ∀ r, r <+: s → (∀ c ∈ r, p c = true) → r.length ≤ n - k) (h : RunsLe p n s) :
    capRuns p n k s = s := by
  induction s generalizing k with
  | nil => rfl
  | cons c s ih =>
      have htail : RunsLe p n s := h.part (List.suffix_cons c s).isInfix
      unfold capRuns
      cases hc : p c with
      | true =>
          have hone : ∀ r, r <+: s → (∀ c ∈ r, p c = true) → r.length + 1 ≤ n - k := by
            intro r hr hp
            refine hk (c :: r) ((List.prefix_cons_inj c).mpr hr) fun x hx => ?_
            rcases List.mem_cons.mp hx with rfl | hx
            · exact hc
            · exact hp x hx
          have hlt : 0 + 1 ≤ n - k := hone [] List.nil_prefix fun _ h => nomatch h
          rw [if_pos rfl, if_pos (by omega), ih (fun r hr hp => ?_) htail]
          have := hone r hr hp
          omega
      | false =>
          rw [if_neg Bool.false_ne_true, ih (fun r hr hp => htail r hr.isInfix hp) htail]

theorem capRuns_eq_self {s : List Char} (h : RunsLe p n s) : capRuns p n 0 s = s :=
  capRuns_eq_self_aux (fun r hr hp => h r hr.isInfix hp) h

theorem capRuns_cons_of_not {c : Char} (hc : p c = false) (k : ℕ) (s : List Char) :
    capRuns p n k (c :: s) = c :: capRuns p n 0 s := if_neg (by rw [hc]; exact Bool.false_ne_true)

/-- The count begins anew behind a character outside the class. -/
theorem capRuns_append_cons {x : Char} (hx : p x = false) (a b : List Char) (k : ℕ) :
    capRuns p n k (a ++ x :: b) = capRuns p n k a ++ x :: capRuns p n 0 b := by
  induction a generalizing k with
  | nil => exact capRuns_cons_of_not hx k b
  | cons c a ih =>
      cases hc : p c with
      | true =>
          have hcons : ∀ s, capRuns p n k (c :: s) =
              if k < n then c :: capRuns p n (k + 1) s else capRuns p n k s := fun s => if_pos hc
          rw [List.cons_append, hcons, hcons]
          split_ifs
          · rw [ih, List.cons_append]
          · exact ih k
      | false =>
          rw [List.cons_append, capRuns_cons_of_not hc, capRuns_cons_of_not hc, ih,
            List.cons_append]

theorem capRuns_sublist (p : Char → Bool) (n : ℕ) (s : List Char) (k : ℕ) :
    List.Sublist (capRuns p n k s) s := by
  induction s generalizing k with
  | nil => exact List.Sublist.refl []
  | cons c s ih =>
      unfold capRuns
      split_ifs
      · exact (ih (k + 1)).cons_cons c
      · exact (ih k).cons c
      · exact (ih 0).cons_cons c

end RoomBackend.Texts
