import Mathlib.Data.List.Basic
import Mathlib.Tactic.Common

/-! # Patterns

Regular expressions that are anchored at both ends and made of characters, escaped characters, dots
and classes, each of them once or repeated by `+`. They are read from their source, and tested by
trying and going back.

* `compile`: reads a source; `none` where it is no expression, or more than the fragment.
* `test_iff`: a text passes the test exactly if it is in the language of the expression. -/

namespace RoomBackend.Patterns

/-! ### Expressions -/

/-- What stands for one character. -/
inductive Atom where
  | char (c : Char)
  | dot
  | oneOf (ranges : List (Char × Char))
deriving DecidableEq

/-- The dot is for everything but line terminators. -/
def Atom.has : Atom → Char → Bool
  | .char d, c => c = d
  | .dot, c => !(c.toNat = 0x0a || c.toNat = 0x0d || c.toNat = 0x2028 || c.toNat = 0x2029)
  | .oneOf ranges, c => ranges.any fun r => r.1 ≤ c && c ≤ r.2

/-- An atom, `many` times or once. -/
structure Piece where
  atom : Atom
  many : Bool
deriving DecidableEq

/-- The language of a list of pieces. -/
inductive Matches : List Piece → List Char → Prop where
  | nil : Matches [] []
  | once {a : Atom} {c : Char} {ps : List Piece} {s : List Char} (hc : a.has c = true)
      (h : Matches ps s) : Matches (⟨a, false⟩ :: ps) (c :: s)
  | many {a : Atom} {w : List Char} {ps : List Piece} {s : List Char} (hne : w ≠ [])
      (hw : ∀ c ∈ w, a.has c = true) (h : Matches ps s) : Matches (⟨a, true⟩ :: ps) (w ++ s)

/-- A repeated atom that has taken a character takes the next one too, or leaves it. -/
def test : List Char → List Piece → Bool
  | [], [] => true
  | [], _ :: _ => false
  | _ :: _, [] => false
  | c :: s, ⟨a, false⟩ :: ps => a.has c && test s ps
  | c :: s, ⟨a, true⟩ :: ps => a.has c && (test s ps || test s (⟨a, true⟩ :: ps))

/-! ### Sources -/

/-- The characters that do not stand for themselves. -/
def SYNTAX : List Char :=
  ['^', '$', '\\', '.', '*', '+', '?', '(', ')', '[', ']', '{', '}', '|']

inductive Lexeme where
  | atom (a : Atom)
  | plus
deriving DecidableEq

/-- Where the reader is: outside, behind a backslash, in a class (and there at the start of an item,
behind its first character, or behind the hyphen of a range). -/
inductive Mode where
  | out
  | esc
  | cls (ranges : List (Char × Char))
  | item (ranges : List (Char × Char)) (x : Char)
  | range (ranges : List (Char × Char)) (x : Char)
deriving DecidableEq

def readChar : Mode → Char → Option (Mode × List Lexeme)
  | .out, c =>
      if c = '\\' then some (.esc, [])
      else if c = '[' then some (.cls [], [])
      else if c = '+' then some (.out, [.plus])
      else if c = '.' then some (.out, [.atom .dot])
      else if c ∈ SYNTAX then none
      else some (.out, [.atom (.char c)])
  | .esc, c => if c ∈ SYNTAX then some (.out, [.atom (.char c)]) else none
  | .cls ranges, c =>
      if c = ']' then some (.out, [.atom (.oneOf ranges)])
      else if c = '\\' ∨ c = '^' then none
      else some (.item ranges c, [])
  | .item ranges x, c =>
      if c = ']' then some (.out, [.atom (.oneOf (ranges ++ [(x, x)]))])
      else if c = '\\' then none
      else if c = '-' then some (.range ranges x, [])
      else some (.item (ranges ++ [(x, x)]) c, [])
  | .range ranges x, c =>
      if c = ']' then some (.out, [.atom (.oneOf (ranges ++ [(x, x), ('-', '-')]))])
      else if c = '\\' then none
      else if x ≤ c then some (.cls (ranges ++ [(x, c)]), [])
      else none

def readChars : Mode → List Char → Option (Mode × List Lexeme)
  | m, [] => some (m, [])
  | m, c :: s => (readChar m c).bind fun r => (readChars r.1 s).map fun r' => (r'.1, r.2 ++ r'.2)

/-- A plus is for the atom before it. -/
def pieces : List Lexeme → Option (List Piece)
  | [] => some []
  | .plus :: _ => none
  | .atom a :: .plus :: ts => (pieces ts).map (⟨a, true⟩ :: ·)
  | .atom a :: ts => (pieces ts).map (⟨a, false⟩ :: ·)

/-- An expression from `^` to `$`. -/
def compile (source : List Char) : Option (List Piece) :=
  if source.head? = some '^' ∧ source.getLast? = some '$' then
    (readChars .out source.tail.dropLast).bind fun r => if r.1 = .out then pieces r.2 else none
  else none

/-! ### Reading -/

theorem readChars_append {m m₁ m₂ : Mode} {w s : List Char} {ts₁ ts₂ : List Lexeme}
    (h : readChars m w = some (m₁, ts₁)) (h' : readChars m₁ s = some (m₂, ts₂)) :
    readChars m (w ++ s) = some (m₂, ts₁ ++ ts₂) := by
  induction w generalizing m ts₁ with
  | nil =>
      obtain ⟨rfl, rfl⟩ := Prod.mk.inj (Option.some.inj h)
      exact h'
  | cons c w ih =>
      obtain ⟨⟨m', ts⟩, hc, hmap⟩ := Option.bind_eq_some_iff.mp h
      obtain ⟨⟨m'', ts'⟩, hw, he⟩ := Option.map_eq_some_iff.mp hmap
      obtain ⟨rfl, rfl⟩ := Prod.mk.inj he
      rw [List.cons_append, readChars, hc, Option.bind_some, ih hw, Option.map_some,
        List.append_assoc]

theorem readChar_char {c : Char} (hc : c ∉ SYNTAX) :
    readChar .out c = some (.out, [.atom (.char c)]) := by
  have hne : ∀ d ∈ SYNTAX, c ≠ d := fun d hd h => hc (h ▸ hd)
  rw [readChar, if_neg (hne '\\' (by decide)), if_neg (hne '[' (by decide)),
    if_neg (hne '+' (by decide)), if_neg (hne '.' (by decide)), if_neg hc]

theorem readChars_char {c : Char} (hc : c ∉ SYNTAX) :
    readChars .out [c] = some (.out, [.atom (.char c)]) := by
  rw [readChars, readChar_char hc]
  rfl

theorem readChars_escaped {c : Char} (hc : c ∈ SYNTAX) :
    readChars .out ['\\', c] = some (.out, [.atom (.char c)]) := by
  have hesc : readChar .esc c = some (.out, [.atom (.char c)]) := if_pos hc
  have hback : readChar .out '\\' = some (.esc, []) := rfl
  rw [readChars, hback, Option.bind_some, readChars, hesc]
  rfl

theorem pieces_atom {ts : List Lexeme} (h : ts.head? ≠ some .plus) (a : Atom) :
    pieces (.atom a :: ts) = (pieces ts).map (⟨a, false⟩ :: ·) := by
  cases ts with
  | nil => rfl
  | cons t ts =>
      cases t with
      | plus => exact absurd rfl h
      | atom b => rfl

theorem compile_anchored {body : List Char} {ts : List Lexeme}
    (h : readChars .out body = some (.out, ts)) : compile ('^' :: body ++ ['$']) = pieces ts := by
  unfold compile
  rw [if_pos ⟨rfl, List.getLast?_concat⟩, List.cons_append, List.tail_cons, List.dropLast_concat, h,
    Option.bind_some, if_pos rfl]

/-! ### Testing -/

theorem matches_nil {s : List Char} : Matches [] s ↔ s = [] :=
  ⟨fun h => by cases h; rfl, fun h => h ▸ .nil⟩

theorem not_matches_cons_nil {p : Piece} {ps : List Piece} : ¬ Matches (p :: ps) [] := by
  intro h
  generalize hs : ([] : List Char) = s at h
  cases h with
  | once hc h => cases hs
  | many hne hw h => exact hne (List.append_eq_nil_iff.mp hs.symm).1

theorem matches_once {a : Atom} {c : Char} {ps : List Piece} {s : List Char} :
    Matches (⟨a, false⟩ :: ps) (c :: s) ↔ a.has c = true ∧ Matches ps s :=
  ⟨fun h => by cases h with | once hc h => exact ⟨hc, h⟩, fun h => .once h.1 h.2⟩

/-- What a repeated atom matches it matches by its first character and then is done, or goes on. -/
theorem matches_many {a : Atom} {c : Char} {ps : List Piece} {s : List Char} :
    Matches (⟨a, true⟩ :: ps) (c :: s) ↔
      a.has c = true ∧ (Matches ps s ∨ Matches (⟨a, true⟩ :: ps) s) := by
  constructor
  · intro h
    generalize ht : c :: s = t at h
    cases h with
    | @many _ w _ s' hne hw h =>
        obtain ⟨d, w, rfl⟩ := List.exists_cons_of_ne_nil hne
        obtain ⟨rfl, rfl⟩ := List.cons_eq_cons.mp ht
        refine ⟨hw c List.mem_cons_self, ?_⟩
        cases w with
        | nil => exact Or.inl h
        | cons d w =>
            refine Or.inr (.many (List.cons_ne_nil d w) (fun x hx => ?_) h)
            exact hw x (List.mem_cons_of_mem c hx)
  · rintro ⟨hc, h | h⟩
    · exact @Matches.many a [c] ps s (List.cons_ne_nil c [])
        (fun x hx => by rwa [List.mem_singleton.mp hx]) h
    · cases h with
      | @many _ w _ s' hne hw h =>
          refine @Matches.many a (c :: w) ps s' (List.cons_ne_nil c w) (fun x hx => ?_) h
          rcases List.mem_cons.mp hx with rfl | hx
          · exact hc
          · exact hw x hx

/-- The test decides the language. -/
theorem test_iff (s : List Char) (ps : List Piece) : test s ps = true ↔ Matches ps s := by
  induction s, ps using test.induct with
  | case1 => exact ⟨fun _ => .nil, fun _ => rfl⟩
  | case2 p ps =>
      exact ⟨fun h => (Bool.false_ne_true h).elim, fun h => (not_matches_cons_nil h).elim⟩
  | case3 c s =>
      refine ⟨fun h => (Bool.false_ne_true h).elim, fun h => ?_⟩
      exact (List.cons_ne_nil c s (matches_nil.mp h)).elim
  | case4 c s a ps ih =>
      unfold test
      rw [Bool.and_eq_true, ih, matches_once]
  | case5 c s a ps ih₁ ih₂ =>
      unfold test
      rw [Bool.and_eq_true, Bool.or_eq_true, ih₁, ih₂, matches_many]

end RoomBackend.Patterns
