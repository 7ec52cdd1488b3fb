import Mathlib.Data.Bool.AllAny
import RoomBackend.Lines
import RoomBackend.Patterns

/-! # Origins (`net/origin.ts`, `config.ts`)

The allow-list: what `loadConfig` admits of `ALLOWED_ORIGINS`, and the matcher that is made of it.
`toLowerCase` is the language's, of which only this is used, that it is the one of ASCII on texts of
ASCII. -/

namespace RoomBackend.Origins

open Texts Patterns

/-- The characters of a scheme or a host. -/
def isLowerOrDigit (c : Char) : Bool :=
  (0x61 ≤ c.toNat && c.toNat ≤ 0x7a) || (0x30 ≤ c.toNat && c.toNat ≤ 0x39)

/-- `[a-z0-9-]`. -/
def isLabelChar (c : Char) : Bool := isLowerOrDigit c || c = '-'

/-- `[a-z0-9.*-]`. -/
def isHostChar (c : Char) : Bool := isLabelChar c || c = '.' || c = '*'

/-- `[a-z0-9+.-]`. -/
def isSchemeChar (c : Char) : Bool := isLabelChar c || c = '+' || c = '.'

/-- `\d`. -/
def isDecimal (c : Char) : Bool := 0x30 ≤ c.toNat && c.toNat ≤ 0x39

/-- `replace(/\/+$/, "")`. -/
def stripSlashes (s : List Char) : List Char := s.rdropWhile (· == '/')

/-! ### The configuration -/

/-- `list`. -/
def list (s : List Char) : List (List Char) :=
  ((s.splitOn ',').map fun x => stripSlashes (trim x)).filter (· ≠ [])

def isQuote (c : Char) : Bool := c = '"' || c = '\''

/-- `replace(/^["']|["']$/g, "")`. -/
def stripQuotes (s : List Char) : List Char :=
  let s := if s.head?.any isQuote then s.tail else s
  if s.getLast?.any isQuote then s.dropLast else s

/-- `/^[a-z][a-z0-9+.-]*:\/\//`. -/
def hasScheme : List Char → Bool
  | [] => false
  | c :: s =>
      (0x61 ≤ c.toNat && c.toNat ≤ 0x7a) && "://".toList.isPrefixOf (s.dropWhile isSchemeChar)

/-- `/^https?:\/\/[a-z0-9.*-]+(:\d+)?$/`. -/
def isOrigin (o : List Char) : Bool :=
  "http".toList.isPrefixOf o &&
    let s := o.drop 4
    let s := if s.head? = some 's' then s.tail else s
    "://".toList.isPrefixOf s &&
      let s := s.drop 3
      s.takeWhile isHostChar ≠ [] &&
        match s.dropWhile isHostChar with
        | [] => true
        | c :: port => c = ':' && port ≠ [] && port.all isDecimal

section

variable (toLowerCase : List Char → List Char)

def readOrigin (o : List Char) : List Char :=
  let v := stripSlashes (toLowerCase (stripQuotes (trim o)))
  if hasScheme v then v else "https://".toList ++ v

/-- `ALLOWED_ORIGINS` as `loadConfig` returns it, or the entry it throws for. -/
def allowedOrigins (raw : List Char) : Except (List Char) (List (List Char)) :=
  let os := (list raw).map (readOrigin toLowerCase)
  match os.find? (fun o => !isOrigin o) with
  | some badOrigin => .error badOrigin
  | none => .ok os

/-! ### The matcher -/

/-- `normalizeOrigin`. -/
def normalizeOrigin (value : List Char) : List Char := stripSlashes (toLowerCase (trim value))

/-- `split("://")`. -/
def splitScheme : List Char → List (List Char)
  | [] => [[]]
  | [x] => [[x]]
  | [x, y] => [[x, y]]
  | x :: y :: z :: s =>
      if x = ':' ∧ y = '/' ∧ z = '/' then [] :: splitScheme s
      else (splitScheme (y :: z :: s)).modifyHead (x :: ·)

/-- The class `[.+?^${}()|[\]\\]`. -/
def ESCAPED : List Char := ['.', '+', '?', '^', '$', '{', '}', '(', ')', '|', '[', ']', '\\']

/-- `part.replace(/[.+?^${}()|[\]\\]/g, "\\$&")`. -/
def escapePart (part : List Char) : List Char :=
  part.flatMap fun c => if c ∈ ESCAPED then ['\\', c] else [c]

/-- What stands for `*` in a pattern. -/
def WILDCARD : List Char := "[a-z0-9-]+".toList

def hostRe (host : List Char) : List Char :=
  WILDCARD.intercalate ((host.splitOn '*').map escapePart)

/-- The exact entries and the patterns. -/
structure Matcher where
  exact : List (List Char)
  patterns : List (List Piece)

/-- One round of the loop over the entries; `none` where `new RegExp` throws. -/
def Matcher.add (m : Matcher) (raw : List Char) : Option Matcher :=
  let e := normalizeOrigin toLowerCase raw
  if e = [] then some m
  else if '*' ∈ e then
    match splitScheme e with
    | scheme :: host :: _ =>
        if host = [] then some m
        else
          (compile ('^' :: (scheme ++ "://".toList ++ hostRe host) ++ ['$'])).map fun p =>
            { m with patterns := m.patterns ++ [p] }
    | _ => some m
  else some { m with exact := m.exact ++ [e] }

/-- `originMatcher`. -/
def originMatcher (entries : List (List Char)) : Option Matcher :=
  entries.foldlM (Matcher.add toLowerCase) ⟨[], []⟩

/-- `exact.has(o) || patterns.some((p) => p.test(o))`. -/
def Matcher.has (m : Matcher) (o : List Char) : Bool :=
  m.exact.contains o || m.patterns.any (test o)

/-- The function it returns. -/
def Matcher.accepts (m : Matcher) (origin : List Char) : Bool :=
  m.has (normalizeOrigin toLowerCase origin)

end

/-! ### What an entry says -/

/-- `Fills e t`: `t` is `e` with something of `[a-z0-9-]` for each `*`. -/
inductive Fills : List Char → List Char → Prop where
  | nil : Fills [] []
  | char {c : Char} {e t : List Char} (hc : c ≠ '*') (h : Fills e t) : Fills (c :: e) (c :: t)
  | star {w e t : List Char} (hne : w ≠ []) (hw : ∀ c ∈ w, isLabelChar c = true) (h : Fills e t) :
      Fills ('*' :: e) (w ++ t)

/-! ### Patterns of entries -/

theorem escapePart_cons (c : Char) (part : List Char) :
    escapePart (c :: part) = (if c ∈ ESCAPED then ['\\', c] else [c]) ++ escapePart part := rfl

/-- The pattern of a host, one character after the other. -/
theorem hostRe_cons (c : Char) (host : List Char) :
    hostRe (c :: host) =
      (if c = '*' then WILDCARD else if c ∈ ESCAPED then ['\\', c] else [c]) ++ hostRe host := by
  obtain ⟨p, ps, hp⟩ := List.exists_cons_of_ne_nil (List.splitOn_ne_nil '*' host)
  unfold hostRe
  rw [List.splitOn_cons_eq_if_modifyHead]
  by_cases h : c = '*'
  · rw [if_pos (beq_iff_eq.mpr h), if_pos h, hp, List.map_cons, List.map_cons,
      List.intercalate_cons_cons]
    rfl
  · rw [if_neg (fun hc => h (beq_iff_eq.mp hc)), if_neg h, hp, List.modifyHead_cons, List.map_cons,
      List.map_cons, escapePart_cons]
    cases ps with
    | nil =>
        rw [List.map_nil, List.intercalate_singleton, List.intercalate_singleton]
    | cons q ps =>
        rw [List.map_cons, List.intercalate_cons_cons, List.intercalate_cons_cons,
          List.append_assoc, List.append_assoc, List.append_assoc]

/-- The class a wildcard stands for. -/
def labelAtom : Atom := .oneOf [('a', 'z'), ('0', '9'), ('-', '-')]

/-- The tokens of an entry's pattern. -/
def entryTokens : List Char → List Lexeme
  | [] => []
  | c :: e => (if c = '*' then [.atom labelAtom, .plus] else [.atom (.char c)]) ++ entryTokens e

def entryPieces : List Char → List Piece
  | [] => []
  | c :: e => (if c = '*' then ⟨labelAtom, true⟩ else ⟨.char c, false⟩) :: entryPieces e

theorem entryTokens_append (a b : List Char) :
    entryTokens (a ++ b) = entryTokens a ++ entryTokens b := by
  induction a with
  | nil => rfl
  | cons c a ih => rw [List.cons_append, entryTokens, ih, entryTokens, List.append_assoc]

theorem readChars_wildcard : readChars .out WILDCARD = some (.out, [.atom labelAtom, .plus]) := by
  decide

theorem mem_SYNTAX_iff {c : Char} (hc : c ≠ '*') : c ∈ SYNTAX ↔ c ∈ ESCAPED := by
  have hs : SYNTAX.Perm ('*' :: ESCAPED) := by decide
  rw [hs.mem_iff, List.mem_cons]
  exact or_iff_right hc

theorem readChars_hostRe (host : List Char) :
    readChars .out (hostRe host) = some (.out, entryTokens host) := by
  induction host with
  | nil => rfl
  | cons c host ih =>
      rw [hostRe_cons]
      refine readChars_append ?_ ih
      split_ifs with h hc
      · exact readChars_wildcard
      · exact readChars_escaped ((mem_SYNTAX_iff h).mpr hc)
      · exact readChars_char fun hs => hc ((mem_SYNTAX_iff h).mp hs)

/-- What needs no escape stands for itself. -/
theorem readChars_plain {s : List Char} (h : ∀ c ∈ s, c ∉ SYNTAX) :
    readChars .out s = some (.out, entryTokens s) := by
  induction s with
  | nil => rfl
  | cons c s ih =>
      have hc := h c List.mem_cons_self
      have hstar : c ≠ '*' := fun he => hc (he ▸ by decide)
      rw [entryTokens, if_neg hstar]
      exact readChars_append (readChars_char hc) (ih fun x hx => h x (List.mem_cons_of_mem c hx))

theorem head?_entryTokens (e : List Char) : (entryTokens e).head? ≠ some .plus := by
  cases e with
  | nil => exact fun h => by cases h
  | cons c e =>
      unfold entryTokens
      split_ifs <;> exact fun h => by cases h

theorem pieces_entryTokens (e : List Char) : pieces (entryTokens e) = some (entryPieces e) := by
  induction e with
  | nil => rfl
  | cons c e ih =>
      unfold entryTokens entryPieces
      split_ifs with h
      · show (pieces (entryTokens e)).map _ = _
        rw [ih]
        rfl
      · rw [List.singleton_append, pieces_atom (head?_entryTokens e), ih]
        rfl

/-- The pattern that is made of an entry is the one the entry says. -/
theorem compile_entry {scheme host : List Char} (hs : ∀ c ∈ scheme, c ∉ SYNTAX) :
    compile ('^' :: (scheme ++ "://".toList ++ hostRe host) ++ ['$']) =
      some (entryPieces (scheme ++ "://".toList ++ host)) := by
  have hplain : readChars .out (scheme ++ "://".toList) =
      some (.out, entryTokens (scheme ++ "://".toList)) := by
    refine readChars_plain fun c hc => ?_
    rcases List.mem_append.mp hc with hc | hc
    · exact hs c hc
    · have hmarks : ∀ c ∈ "://".toList, c ∉ SYNTAX := List.all_iff_forall_prop.mp (by decide)
      exact hmarks c hc
  rw [compile_anchored (readChars_append hplain (readChars_hostRe host)), ← entryTokens_append,
    pieces_entryTokens]

theorem labelAtom_has (c : Char) : labelAtom.has c = isLabelChar c := by
  have hle : ∀ a b : Char, a ≤ b ↔ a.toNat ≤ b.toNat := fun _ _ => UInt32.le_iff_toNat_le
  have hdash : c.toNat = 0x2d ↔ c = '-' := @Char.toNat_inj c '-'
  rw [← Bool.coe_iff_coe]
  simp only [labelAtom, Atom.has, isLabelChar, isLowerOrDigit, List.any_cons, List.any_nil,
    Bool.or_false, Bool.or_eq_true, Bool.and_eq_true, decide_eq_true_eq, hle, ← hdash,
    show 'a'.toNat = 0x61 from rfl, show 'z'.toNat = 0x7a from rfl, show '0'.toNat = 0x30 from rfl,
    show '9'.toNat = 0x39 from rfl, show '-'.toNat = 0x2d from rfl]
  omega

theorem matches_entryPieces (e t : List Char) : Matches (entryPieces e) t ↔ Fills e t := by
  constructor
  · intro h
    induction e generalizing t with
    | nil =>
        rw [matches_nil.mp h]
        exact .nil
    | cons c e ih =>
        unfold entryPieces at h
        split_ifs at h with hc
        · cases h with
          | many hne hw h =>
              rw [hc]
              exact .star hne (fun x hx => labelAtom_has x ▸ hw x hx) (ih _ h)
        · cases h with
          | once hx h =>
              obtain rfl := of_decide_eq_true hx
              exact .char hc (ih _ h)
  · intro h
    induction h with
    | nil => exact .nil
    | char hc h ih =>
        unfold entryPieces
        rw [if_neg hc]
        exact .once (decide_eq_true rfl) ih
    | star hne hw h ih =>
        unfold entryPieces
        rw [if_pos rfl]
        exact .many hne (fun x hx => (labelAtom_has x).trans (hw x hx)) ih

/-! ### Entries -/

/-- The text of an entry: a scheme, a host, and perhaps a port. -/
structure IsEntry (e scheme host port : List Char) : Prop where
  eq : e = scheme ++ "://".toList ++ (host ++ port)
  scheme : scheme = "http".toList ∨ scheme = "https".toList
  host : host ≠ [] ∧ ∀ c ∈ host, isHostChar c = true
  port : port = [] ∨ ∃ digits, port = ':' :: digits ∧ digits ≠ [] ∧ ∀ c ∈ digits, isDecimal c = true

theorem isEntry_of_isOrigin {e : List Char} (h : isOrigin e = true) :
    ∃ scheme host port, IsEntry e scheme host port := by
  unfold isOrigin at h
  dsimp only at h
  rw [Bool.and_eq_true, Bool.and_eq_true, Bool.and_eq_true, List.isPrefixOf_iff_prefix,
    List.isPrefixOf_iff_prefix, decide_eq_true_eq] at h
  obtain ⟨⟨s, rfl⟩, hmarks, hhost, hport⟩ := h
  have hdrop : ("http".toList ++ s).drop 4 = s := rfl
  rw [hdrop] at hmarks hhost hport
  obtain ⟨scheme, s', hscheme, heq, hs'⟩ : ∃ scheme s',
      (scheme = "http".toList ∨ scheme = "https".toList) ∧ "http".toList ++ s = scheme ++ s' ∧
        (if s.head? = some 's' then s.tail else s) = s' := by
    by_cases hc : s.head? = some 's'
    · obtain ⟨t, rfl⟩ := List.head?_eq_some_iff.mp hc
      exact ⟨_, t, Or.inr rfl, rfl, if_pos hc⟩
    · exact ⟨_, s, Or.inl rfl, rfl, if_neg hc⟩
  rw [hs'] at hmarks hhost hport
  obtain ⟨r, rfl⟩ := hmarks
  have hrest : ("://".toList ++ r).drop 3 = r := rfl
  rw [hrest] at hhost hport
  refine ⟨scheme, r.takeWhile isHostChar, r.dropWhile isHostChar, ?_, hscheme,
    ⟨hhost, fun c hc => List.mem_takeWhile_imp hc⟩, ?_⟩
  · rw [heq, List.takeWhile_append_dropWhile, List.append_assoc]
  · cases hd : r.dropWhile isHostChar with
    | nil => exact Or.inl rfl
    | cons c port =>
        rw [hd] at hport
        simp only [Bool.and_eq_true, decide_eq_true_eq, List.all_eq_true] at hport
        exact Or.inr ⟨port, by rw [hport.1.1], hport.1.2, hport.2⟩

/-- The characters of an entry. -/
def isEntryChar (c : Char) : Bool := isHostChar c || c = ':' || c = '/'

theorem IsEntry.chars {e scheme host port : List Char} (h : IsEntry e scheme host port) :
    ∀ c ∈ e, isEntryChar c = true := by
  have hscheme : ∀ c ∈ scheme, isEntryChar c = true := by
    rcases h.scheme with rfl | rfl <;> exact List.all_eq_true.mp (by decide)
  have hmarks : ∀ c ∈ "://".toList, isEntryChar c = true := List.all_eq_true.mp (by decide)
  have hhost : ∀ c ∈ host, isEntryChar c = true := fun c hc => by
    unfold isEntryChar
    rw [h.host.2 c hc]
    rfl
  have hport : ∀ c ∈ port, isEntryChar c = true := by
    rcases h.port with rfl | ⟨digits, rfl, -, hd⟩
    · exact fun c hc => by cases hc
    · intro c hc
      rcases List.mem_cons.mp hc with rfl | hc
      · rfl
      · have hdec := hd c hc
        unfold isDecimal at hdec
        unfold isEntryChar isHostChar isLabelChar isLowerOrDigit
        rw [hdec, Bool.or_true]
        rfl
  intro c hc
  rw [h.eq] at hc
  rcases List.mem_append.mp hc with hc | hc
  · exact (List.mem_append.mp hc).elim (hscheme c) (hmarks c)
  · exact (List.mem_append.mp hc).elim (hhost c) (hport c)

theorem splitScheme_of_no_slash {s : List Char} (h : '/' ∉ s) : splitScheme s = [s] := by
  induction s using splitScheme.induct with
  | case1 => rfl
  | case2 x => rfl
  | case3 x y => rfl
  | case4 x y z s hxyz ih =>
      obtain ⟨-, rfl, -⟩ := hxyz
      exact absurd (List.mem_cons_of_mem x List.mem_cons_self) h
  | case5 x y z s hxyz ih =>
      rw [splitScheme, if_neg hxyz, ih fun hm => h (List.mem_cons_of_mem x hm)]
      rfl

theorem splitScheme_append {scheme host : List Char} (hs : ':' ∉ scheme) :
    splitScheme (scheme ++ "://".toList ++ host) = scheme :: splitScheme host := by
  rw [List.append_assoc]
  induction scheme with
  | nil => rfl
  | cons c scheme ih =>
      obtain ⟨hc, hs⟩ := List.ne_and_not_mem_of_not_mem_cons hs
      obtain ⟨y, z, s, he⟩ : ∃ y z s, scheme ++ ("://".toList ++ host) = y :: z :: s := by
        cases scheme with
        | nil => exact ⟨_, _, _, rfl⟩
        | cons x scheme =>
            cases scheme with
            | nil => exact ⟨_, _, _, rfl⟩
            | cons y scheme => exact ⟨_, _, _, rfl⟩
      have hrest := ih hs
      rw [List.cons_append, he] at *
      rw [splitScheme, if_neg fun h => hc h.1.symm, hrest]
      rfl

theorem fills_iff_eq {e t : List Char} (h : '*' ∉ e) : Fills e t ↔ t = e := by
  constructor
  · intro hf
    induction hf with
    | nil => rfl
    | char hc hf ih => rw [ih fun hm => h (List.mem_cons_of_mem _ hm)]
    | star hne hw hf ih => exact absurd List.mem_cons_self h
  · rintro rfl
    induction t with
    | nil => exact .nil
    | cons c t ih =>
        obtain ⟨hc, ht⟩ := List.ne_and_not_mem_of_not_mem_cons h
        exact .char (Ne.symm hc) (ih ht)

/-! ### Letter case -/

/-- What is used of `toLowerCase`. -/
def LowersAscii (f : List Char → List Char) : Prop :=
  ∀ s, (∀ c ∈ s, c.toNat < 0x80) → f s = s.map Char.toLower

theorem toLower_cases (c : Char) :
    (0x41 ≤ c.toNat ∧ c.toNat ≤ 0x5a) ∨ (c.toLower = c ∧ ¬ (0x41 ≤ c.toNat ∧ c.toNat ≤ 0x5a)) := by
  by_cases h : 0x41 ≤ c.toNat ∧ c.toNat ≤ 0x5a
  · exact Or.inl h
  · refine Or.inr ⟨dif_neg fun hc => h ?_, h⟩
    rw [ge_iff_le, UInt32.le_iff_toNat_le, UInt32.le_iff_toNat_le] at hc
    exact hc

/-- Where the characters of an entry are. -/
theorem isEntryChar_range {c : Char} (h : isEntryChar c = true) :
    (0x61 ≤ c.toNat ∧ c.toNat ≤ 0x7a) ∨ (0x2d ≤ c.toNat ∧ c.toNat ≤ 0x3a) ∨ c.toNat = 0x2a := by
  have hchars : ∀ d : Char, c = d ↔ c.toNat = d.toNat := fun d => Char.toNat_inj.symm
  simp only [isEntryChar, isHostChar, isLabelChar, isLowerOrDigit, Bool.or_eq_true,
    Bool.and_eq_true, decide_eq_true_eq, hchars, show '-'.toNat = 0x2d from rfl,
    show '.'.toNat = 0x2e from rfl, show '*'.toNat = 0x2a from rfl, show ':'.toNat = 0x3a from rfl,
    show '/'.toNat = 0x2f from rfl] at h
  omega

theorem isSpace_of_range {c : Char} (h : 0x21 ≤ c.toNat ∧ c.toNat ≤ 0x7e) : isSpace c = false := by
  unfold isSpace
  simp only [Bool.or_eq_false_iff, Bool.and_eq_false_iff, decide_eq_false_iff_not]
  omega

/-- A character that is one of an entry but for its case. -/
theorem range_of_toLower {c : Char} (h : isEntryChar c.toLower = true) :
    0x21 ≤ c.toNat ∧ c.toNat ≤ 0x7e := by
  rcases toLower_cases c with hc | ⟨hc, -⟩
  · omega
  · rw [hc] at h
    have := isEntryChar_range h
    omega

theorem toLower_entryChar {c : Char} (h : isEntryChar c = true) : c.toLower = c := by
  rcases toLower_cases c with hc | ⟨hc, -⟩
  · have := isEntryChar_range h
    omega
  · exact hc

/-! ### Entries and their spellings -/

theorem rdropWhile_append {p : Char → Bool} {w : List Char} (h : ∀ c ∈ w, p c = true)
    (s : List Char) : (s ++ w).rdropWhile p = s.rdropWhile p := by
  unfold List.rdropWhile
  rw [List.reverse_append, List.dropWhile_append_of_pos fun c hc => h c (List.mem_reverse.mp hc)]

theorem IsEntry.host_chars {e scheme host port : List Char} (h : IsEntry e scheme host port) :
    ∀ c ∈ host, c ≠ ':' ∧ c ≠ '/' := by
  intro c hc
  have hhost := h.host.2 c hc
  constructor <;> rintro rfl <;> exact absurd hhost (by decide)

theorem IsEntry.port_chars {e scheme host port : List Char} (h : IsEntry e scheme host port) :
    ∀ c ∈ port, c ≠ '/' ∧ c ≠ '*' ∧ c ≠ '.' := by
  intro c hc
  rcases h.port with rfl | ⟨digits, rfl, -, hd⟩
  · cases hc
  · rcases List.mem_cons.mp hc with rfl | hc
    · decide
    · have hdec := hd c hc
      refine ⟨?_, ?_, ?_⟩ <;> rintro rfl <;> exact absurd hdec (by decide)

theorem IsEntry.ne_slash {e scheme host port : List Char} (h : IsEntry e scheme host port) :
    ∀ c ∈ host ++ port, c ≠ '/' := fun c hc =>
  (List.mem_append.mp hc).elim (fun hc => (h.host_chars c hc).2) fun hc => (h.port_chars c hc).1

theorem IsEntry.getLast {e scheme host port : List Char} (h : IsEntry e scheme host port) :
    ∃ c init, e = init ++ [c] ∧ c ≠ '/' := by
  have hne : host ++ port ≠ [] := List.append_ne_nil_of_left_ne_nil h.host.1 port
  refine ⟨(host ++ port).getLast hne, scheme ++ "://".toList ++ (host ++ port).dropLast, ?_,
    h.ne_slash _ (List.getLast_mem hne)⟩
  rw [h.eq, List.append_assoc _ (List.dropLast _), List.dropLast_append_getLast hne]

theorem IsEntry.stripSlashes {e scheme host port slashes : List Char}
    (h : IsEntry e scheme host port) (hs : ∀ c ∈ slashes, c = '/') :
    stripSlashes (e ++ slashes) = e := by
  obtain ⟨c, init, rfl, hc⟩ := h.getLast
  unfold Origins.stripSlashes
  rw [rdropWhile_append fun x hx => beq_iff_eq.mpr (hs x hx),
    List.rdropWhile_concat_neg (· == '/') init c fun he => hc (beq_iff_eq.mp he)]

/-- Blanks around an entry, slashes at its end and the case of its letters do not matter. -/
theorem IsEntry.normalizeOrigin {f : List Char → List Char} (hf : LowersAscii f)
    {e scheme host port : List Char} (h : IsEntry e scheme host port)
    {before core slashes after : List Char} (hb : ∀ c ∈ before, isSpace c = true)
    (hc : core.map Char.toLower = e) (hs : ∀ c ∈ slashes, c = '/')
    (ha : ∀ c ∈ after, isSpace c = true) :
    normalizeOrigin f (before ++ (core ++ slashes) ++ after) = e := by
  have hrange : ∀ c ∈ core ++ slashes, 0x21 ≤ c.toNat ∧ c.toNat ≤ 0x7e := by
    intro c hm
    rcases List.mem_append.mp hm with hm | hm
    · exact range_of_toLower (h.chars _ (hc ▸ List.mem_map_of_mem hm))
    · rw [hs c hm]
      decide
  have hspace : ∀ c ∈ core ++ slashes, isSpace c = false := fun c hm =>
    isSpace_of_range (hrange c hm)
  have htrim : trim (before ++ (core ++ slashes) ++ after) = core ++ slashes := by
    have hne : core ++ slashes ≠ [] := by
      refine List.append_ne_nil_of_left_ne_nil (fun he => ?_) _
      obtain ⟨c, init, rfl, -⟩ := h.getLast
      rw [he] at hc
      exact List.append_ne_nil_of_right_ne_nil init (List.cons_ne_nil c []) hc.symm
    obtain ⟨x, xs, hx⟩ := List.exists_cons_of_ne_nil hne
    have hhead : isSpace x = false := hspace x (hx ▸ List.mem_cons_self)
    rw [List.append_assoc, trim_append_of_space hb]
    have hdrop : (core ++ slashes ++ after).dropWhile isSpace = core ++ slashes ++ after := by
      rw [hx, List.cons_append]
      exact List.dropWhile_cons_of_neg (by rw [hhead]; exact Bool.false_ne_true)
    have hself : Trimmed (core ++ slashes) := fun c hm => hspace c (List.mem_of_getLast? hm)
    unfold trim
    rw [hdrop]
    exact (rdropWhile_append ha _).trans (trimEnd_eq_self hself)
  unfold Origins.normalizeOrigin
  rw [htrim, hf _ fun c hm => Nat.lt_of_le_of_lt (hrange c hm).2 (by decide), List.map_append, hc,
    List.map_congr_left (g := id) fun c hm => by rw [hs c hm]; rfl, List.map_id]
  exact h.stripSlashes hs

/-! ### What a text that fills an entry is like -/

theorem Fills.append {a b t : List Char} (h : Fills (a ++ b) t) :
    ∃ t₁ t₂, t = t₁ ++ t₂ ∧ Fills a t₁ ∧ Fills b t₂ := by
  induction a generalizing t with
  | nil => exact ⟨[], t, rfl, .nil, h⟩
  | cons c a ih =>
      cases h with
      | char hc h =>
          obtain ⟨t₁, t₂, rfl, ha, hb⟩ := ih h
          exact ⟨c :: t₁, t₂, rfl, .char hc ha, hb⟩
      | star hne hw h =>
          obtain ⟨t₁, t₂, rfl, ha, hb⟩ := ih h
          exact ⟨_, t₂, (List.append_assoc _ _ _).symm, .star hne hw ha, hb⟩

/-- What is not of the class stands in the text as it does in the entry: the parts between are
filled one by one. -/
theorem Fills.splitOn {sep : Char} (hsep : isLabelChar sep = false) (hstar : sep ≠ '*')
    {e t : List Char} (h : Fills e t) : List.Forall₂ Fills (e.splitOn sep) (t.splitOn sep) := by
  induction h with
  | nil => exact .cons .nil .nil
  | @char c e t hc h ih =>
      rw [List.splitOn_cons_eq_if_modifyHead, List.splitOn_cons_eq_if_modifyHead]
      split_ifs with hcs
      · exact .cons .nil ih
      · obtain ⟨p, ps, hp⟩ := List.exists_cons_of_ne_nil (List.splitOn_ne_nil sep e)
        obtain ⟨q, qs, hq⟩ := List.exists_cons_of_ne_nil (List.splitOn_ne_nil sep t)
        rw [hp, hq] at ih ⊢
        obtain ⟨hpq, hrest⟩ := List.forall₂_cons.mp ih
        exact .cons (.char hc hpq) hrest
  | @star w e t hne hw h ih =>
      obtain ⟨p, ps, hp⟩ := List.exists_cons_of_ne_nil (List.splitOn_ne_nil sep e)
      obtain ⟨q, qs, hq⟩ := List.exists_cons_of_ne_nil (List.splitOn_ne_nil sep t)
      have hwhole : w.splitOn sep = [] ++ [w] := List.splitOn_eq_singleton fun hm => by
        rw [hw sep hm] at hsep
        cases hsep
      rw [List.splitOn_cons_eq_if_modifyHead, if_neg fun hs => hstar (beq_iff_eq.mp hs).symm,
        splitOn_append hwhole hq, hp]
      rw [hp, hq] at ih
      obtain ⟨hpq, hrest⟩ := List.forall₂_cons.mp ih
      exact .cons (.star hne hw hpq) hrest

theorem Fills.mem {e t : List Char} (h : Fills e t) {c : Char} (hc : c ∈ t) :
    c ∈ e ∨ isLabelChar c = true := by
  induction h with
  | nil => cases hc
  | char hne h ih =>
      rcases List.mem_cons.mp hc with rfl | hc
      · exact Or.inl List.mem_cons_self
      · exact (ih hc).imp_left (List.mem_cons_of_mem _)
  | star hne hw h ih =>
      rcases List.mem_append.mp hc with hc | hc
      · exact Or.inr (hw c hc)
      · exact (ih hc).imp_left (List.mem_cons_of_mem _)

theorem Fills.suffix {e t s : List Char} (h : Fills e t) (hs : s <:+ e) (hstar : '*' ∉ s) :
    s <:+ t := by
  obtain ⟨a, rfl⟩ := hs
  obtain ⟨t₁, t₂, rfl, -, hb⟩ := h.append
  rw [(fills_iff_eq hstar).mp hb]
  exact List.suffix_append t₁ s

/-- A text made of an entry: its scheme and its port, and a host with the same number of labels,
each of which fills the entry's, and with the same ending behind the last `*`. -/
def Alike (e t : List Char) : Prop :=
  ∃ scheme host port host', IsEntry e scheme host port ∧
    t = scheme ++ "://".toList ++ (host' ++ port) ∧ ':' ∉ host' ∧ '/' ∉ host' ∧
    List.Forall₂ Fills (host.splitOn '.') (host'.splitOn '.') ∧
    ∀ s, s <:+ host → '*' ∉ s → s <:+ host'

theorem IsEntry.alike {e scheme host port t : List Char} (h : IsEntry e scheme host port)
    (ht : Fills e t) : Alike e t := by
  rw [h.eq] at ht
  obtain ⟨t₁, t₂, rfl, h₁, h₂⟩ := ht.append
  obtain ⟨host', port', rfl, hhost, hport⟩ := h₂.append
  have hscheme : '*' ∉ scheme ++ "://".toList := by
    rcases h.scheme with rfl | rfl <;> decide
  rw [fills_iff_eq hscheme] at h₁
  rw [fills_iff_eq fun hm => (h.port_chars _ hm).2.1 rfl] at hport
  refine ⟨scheme, host, port, host', h, by rw [h₁, hport], fun hm => ?_, fun hm => ?_,
    hhost.splitOn (by decide) (by decide), fun s hs hstar => hhost.suffix hs hstar⟩
  · rcases hhost.mem hm with hm | hm
    · exact (h.host_chars _ hm).1 rfl
    · exact absurd hm (by decide)
  · rcases hhost.mem hm with hm | hm
    · exact (h.host_chars _ hm).2 rfl
    · exact absurd hm (by decide)

/-! ### The matcher of the entries -/

variable {f : List Char → List Char} {e scheme host port : List Char}

theorem IsEntry.normalizeOrigin_self (hf : LowersAscii f) (h : IsEntry e scheme host port) :
    Origins.normalizeOrigin f e = e := by
  have hchars := List.map_congr_left (g := id) fun c hc => toLower_entryChar (h.chars c hc)
  have hlower : e.map Char.toLower = e := hchars.trans (List.map_id e)
  have hnil : ∀ P : Char → Prop, ∀ c ∈ ([] : List Char), P c := fun _ c hc => by cases hc
  have hself := h.normalizeOrigin hf (hnil _) hlower (hnil _) (hnil _)
  rwa [List.append_nil, List.append_nil, List.nil_append] at hself

theorem IsEntry.splitScheme (h : IsEntry e scheme host port) :
    splitScheme e = [scheme, host ++ port] := by
  have hcolon : ':' ∉ scheme := by
    rcases h.scheme with rfl | rfl <;> decide
  rw [h.eq, splitScheme_append hcolon, splitScheme_of_no_slash fun hm => h.ne_slash _ hm rfl]

/-- An entry is kept as it is, or as its pattern. -/
theorem add_entry (hf : LowersAscii f) (h : IsEntry e scheme host port) (m : Matcher) :
    m.add f e = some (if '*' ∈ e then { m with patterns := m.patterns ++ [entryPieces e] }
      else { m with exact := m.exact ++ [e] }) := by
  obtain ⟨c, init, he, -⟩ := h.getLast
  have hne : e ≠ [] := he ▸ List.append_ne_nil_of_right_ne_nil init (List.cons_ne_nil c [])
  have hrest : host ++ port ≠ [] := List.append_ne_nil_of_left_ne_nil h.host.1 port
  have hplain : ∀ c ∈ scheme, c ∉ SYNTAX := by
    rcases h.scheme with rfl | rfl <;> exact List.all_iff_forall_prop.mp (by decide)
  unfold Matcher.add
  dsimp only
  rw [h.normalizeOrigin_self hf, if_neg hne]
  split_ifs with hstar
  · rw [h.splitScheme]
    dsimp only
    rw [if_neg hrest, compile_entry hplain, ← h.eq, Option.map_some]
  · rfl

theorem has_entry (m : Matcher) (o : List Char) :
    (if '*' ∈ e then { m with patterns := m.patterns ++ [entryPieces e] }
      else { m with exact := m.exact ++ [e] } : Matcher).has o = true ↔
      m.has o = true ∨ Fills e o := by
  unfold Matcher.has
  split_ifs with hstar
  · rw [List.any_append, ← Bool.or_assoc, Bool.or_eq_true, List.any_cons, List.any_nil,
      Bool.or_false, test_iff, matches_entryPieces]
  · simp only [List.contains_append, Bool.or_eq_true, fills_iff_eq hstar, List.contains_cons,
      List.contains_nil, Bool.or_false, beq_iff_eq]
    exact or_right_comm

/-- The matcher has what some entry says. -/
theorem has_entries (hf : LowersAscii f) {entries : List (List Char)}
    (h : ∀ e ∈ entries, isOrigin e = true) (m : Matcher) :
    ∃ m', entries.foldlM (Matcher.add f) m = some m' ∧
      ∀ o, m'.has o = true ↔ m.has o = true ∨ ∃ e ∈ entries, Fills e o := by
  induction entries generalizing m with
  | nil =>
      refine ⟨m, rfl, fun o => ⟨Or.inl, fun h => h.elim id ?_⟩⟩
      rintro ⟨e, he, -⟩
      cases he
  | cons e entries ih =>
      obtain ⟨scheme, host, port, he⟩ := isEntry_of_isOrigin (h e List.mem_cons_self)
      obtain ⟨m', hm', hhas⟩ := ih (fun x hx => h x (List.mem_cons_of_mem e hx)) _
      refine ⟨m', ?_, fun o => (hhas o).trans ?_⟩
      · rw [List.foldlM_cons, add_entry hf he]
        exact hm'
      · rw [has_entry, or_assoc, List.exists_mem_cons_iff]

theorem isOrigin_of_allowed {raw : List Char} {entries : List (List Char)}
    (h : allowedOrigins f raw = .ok entries) : ∀ e ∈ entries, isOrigin e = true := by
  unfold allowedOrigins at h
  dsimp only at h
  split at h
  · cases h
  · rename_i hnone
    obtain rfl := Except.ok.inj h
    intro e he
    have hno := List.find?_eq_none.mp hnone e he
    rwa [Bool.not_eq_true', Bool.not_eq_false] at hno

/-- **The allow-list.** Of the entries that `loadConfig` admits a matcher is made, and it accepts
exactly the origins that read, normalized, as an entry with something of `[a-z0-9-]` for each `*`.
Such a text is like its entry in scheme, port, number of labels and ending. An entry without `*`
accepts itself in any case, with slashes behind it and blanks around it. -/
theorem originMatcher_iff (toLowerCase : List Char → List Char) (hf : LowersAscii toLowerCase)
    (raw : List Char) {entries : List (List Char)}
    (h : allowedOrigins toLowerCase raw = .ok entries) :
    ∃ m, originMatcher toLowerCase entries = some m ∧
      (∀ o, m.accepts toLowerCase o = true ↔
        ∃ e ∈ entries, Fills e (normalizeOrigin toLowerCase o)) ∧
      (∀ e ∈ entries, ∀ t, Fills e t → Alike e t) ∧
      ∀ e ∈ entries, '*' ∉ e → ∀ before core slashes after : List Char,
        (∀ c ∈ before, isSpace c = true) → core.map Char.toLower = e →
        (∀ c ∈ slashes, c = '/') → (∀ c ∈ after, isSpace c = true) →
          m.accepts toLowerCase (before ++ (core ++ slashes) ++ after) = true := by
  have horigin := isOrigin_of_allowed h
  obtain ⟨m, hm, hhas⟩ := has_entries hf horigin ⟨[], []⟩
  have haccepts : ∀ o, m.accepts toLowerCase o = true ↔
      ∃ e ∈ entries, Fills e (normalizeOrigin toLowerCase o) := fun o =>
    (hhas _).trans (or_iff_right Bool.false_ne_true)
  refine ⟨m, hm, haccepts, fun e he t ht => ?_, fun e he hstar before core slashes after => ?_⟩
  · obtain ⟨scheme, host, port, hentry⟩ := isEntry_of_isOrigin (horigin e he)
    exact hentry.alike ht
  · intro hb hc hs ha
    obtain ⟨scheme, host, port, hentry⟩ := isEntry_of_isOrigin (horigin e he)
    refine (haccepts _).mpr ⟨e, he, ?_⟩
    rw [hentry.normalizeOrigin hf hb hc hs ha]
    exact (fills_iff_eq hstar).mpr rfl

/-- Preview deployments, quoted and without their scheme. -/
theorem originMatcher_iff_preview :
    (∃ m, originMatcher (List.map Char.toLower) ["https://room-*.vercel.app".toList] = some m ∧
      m.accepts (List.map Char.toLower) "HTTPS://Room-git-1.Vercel.app/".toList = true) ∧
    ¬ Fills "https://room-*.vercel.app".toList "https://room-.vercel.app".toList := by
  have h : allowedOrigins (List.map Char.toLower) " \"Room-*.vercel.app/\" ,".toList =
      .ok ["https://room-*.vercel.app".toList] := by decide
  obtain ⟨m, hm, haccepts, -⟩ := originMatcher_iff (List.map Char.toLower) (fun _ _ => rfl) _ h
  have hfills : ∀ e t, Fills e t ↔ test t (entryPieces e) = true := fun e t =>
    ((test_iff t _).trans (matches_entryPieces e t)).symm
  refine ⟨⟨m, hm, (haccepts _).mpr ⟨_, List.mem_singleton_self _, ?_⟩⟩, ?_⟩
  · rw [hfills]
    decide
  · rw [hfills]
    decide

end RoomBackend.Origins
