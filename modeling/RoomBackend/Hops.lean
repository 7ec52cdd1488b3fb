import RoomBackend.Addresses

/-! # The trusted hop

A reverse proxy appends the address of its peer to `X-Forwarded-For`. The last element of the list
is read whatever stands before it, but `CF-Connecting-IP` goes before it. -/

namespace RoomBackend.Ip

open Texts

/-! ### Header lines -/

/-- The header lines of a request; names are in lower case. -/
abbrev HeaderLines := List (String × List Char)

def valuesOf (name : String) (ls : HeaderLines) : List (List Char) :=
  (ls.filter fun l => l.1 = name).map Prod.snd

/-- Several lines of one header are joined by a comma and a blank. -/
def header (name : String) (ls : HeaderLines) : Option HeaderValue :=
  if valuesOf name ls = [] then none else some (.text ([',', ' '].intercalate (valuesOf name ls)))

/-- The message a server reads. -/
def received (ls : HeaderLines) (remoteAddress : Option (List Char)) : IncomingMessage :=
  ⟨header "cf-connecting-ip" ls, header "x-forwarded-for" ls, remoteAddress⟩

/-- The address of the peer is the last element of `X-Forwarded-For`, with blanks before it and
anything before these. -/
def Hop (req : IncomingMessage) (peer : List Char) : Prop :=
  ∃ (xff : HeaderValue) (blank : List Char), req.xForwardedFor = some xff ∧
    (∀ c ∈ blank, isSpace c = true) ∧
    (xff.raw = blank ++ peer ∨ ∃ earlier, xff.raw = earlier ++ ',' :: (blank ++ peer))

/-! ### The last element -/

theorem ne_comma_of_isSpace {c : Char} (h : isSpace c = true) : c ≠ ',' := by
  rintro rfl
  exact absurd h (by decide)

theorem ne_comma_of_isAddressChar {c : Char} (h : isAddressChar c = true) : c ≠ ',' := by
  rintro rfl
  exact absurd h (by decide)

theorem toNat_of_isAddressChar {c : Char} (h : isAddressChar c = true) :
    33 ≤ c.toNat ∧ c.toNat ≤ 122 := by
  have hdigit : ∀ {a b : Char}, digitIn a b c = true → 33 ≤ a.toNat → b.toNat ≤ 122 →
      33 ≤ c.toNat ∧ c.toNat ≤ 122 := by
    intro a b h ha hb
    unfold digitIn at h
    simp only [Bool.and_eq_true, decide_eq_true_eq] at h
    exact ⟨ha.trans h.1, h.2.trans hb⟩
  unfold isAddressChar isZoneChar Char.isAlphanum at h
  simp only [Bool.or_eq_true, decide_eq_true_eq] at h
  rcases h with ((((h | h) | rfl) | rfl) | rfl) | rfl
  · rcases isAlpha_iff.mp h with h | h
    · exact hdigit h (by decide) (by decide)
    · exact hdigit h (by decide) (by decide)
  · exact hdigit (isDigit_iff.mp h) (by decide) (by decide)
  all_goals decide

theorem isSpace_of_isAddressChar {c : Char} (h : isAddressChar c = true) : isSpace c = false := by
  obtain ⟨h₁, h₂⟩ := toNat_of_isAddressChar h
  unfold isSpace
  simp only [Bool.or_eq_false_iff, Bool.and_eq_false_iff, decide_eq_false_iff_not]
  omega

theorem trim_of_isIP {s : List Char} (h : isIP s ≠ 0) : trim s = s :=
  trim_of_no_space fun c hc => isSpace_of_isAddressChar (isIP_chars h c hc)

theorem ne_nil_of_isIP {s : List Char} (h : isIP s ≠ 0) : s ≠ [] := by
  rintro rfl
  exact h (by decide)

theorem splitOn_blank {blank peer : List Char} (hb : ∀ c ∈ blank, isSpace c = true)
    (hp : isIP peer ≠ 0) : (blank ++ peer).splitOn ',' = [blank ++ peer] := by
  refine List.splitOn_eq_singleton fun hc => ?_
  rcases List.mem_append.mp hc with hc | hc
  · exact ne_comma_of_isSpace (hb _ hc) rfl
  · exact ne_comma_of_isAddressChar (isIP_chars hp _ hc) rfl

theorem lastPart_of_splitOn {raw blank peer : List Char} {parts : List (List Char)}
    (hb : ∀ c ∈ blank, isSpace c = true) (hp : isIP peer ≠ 0)
    (h : raw.splitOn ',' = parts ++ [blank ++ peer]) : lastPart raw = some peer := by
  have htrim : trim (blank ++ peer) = peer := (trim_append_of_space hb).trans (trim_of_isIP hp)
  unfold lastPart
  rw [h, List.map_append, List.filter_append, List.map_singleton, htrim,
    List.filter_singleton, decide_eq_true (ne_nil_of_isIP hp), cond_true, List.getLast?_concat]

/-- The last element is the peer's address, whatever stands before it. -/
theorem forwarded_hop {req : IncomingMessage} {peer : List Char} (hp : isIP peer ≠ 0)
    (h : Hop req peer) : forwarded req = some peer := by
  obtain ⟨xff, blank, hx, hb, hraw⟩ := h
  have hlast : lastPart xff.raw = some peer := by
    rcases hraw with hraw | ⟨earlier, hraw⟩
    · have hsplit : xff.raw.splitOn ',' = [] ++ [blank ++ peer] := by
        rw [hraw, splitOn_blank hb hp, List.nil_append]
      exact lastPart_of_splitOn hb hp hsplit
    · have hsplit : xff.raw.splitOn ',' = earlier.splitOn ',' ++ [blank ++ peer] := by
        rw [hraw, List.splitOn_append_cons_self, splitOn_blank hb hp]
      exact lastPart_of_splitOn hb hp hsplit
  unfold forwarded
  rw [hx, Option.bind_some, hlast, Option.filter_some, if_pos (decide_eq_true hp)]

/-! ### A proxy that appends -/

/-- The proxy adds a line, or writes on behind the last line; other headers pass through. -/
inductive Forwards (peer : List Char) (ls ls' : HeaderLines) : Prop
  | newLine (h : valuesOf "x-forwarded-for" ls' = valuesOf "x-forwarded-for" ls ++ [peer])
      (hcf : valuesOf "cf-connecting-ip" ls' = valuesOf "cf-connecting-ip" ls)
  | sameLine {vs : List (List Char)} {v : List Char}
      (hv : valuesOf "x-forwarded-for" ls = vs ++ [v])
      (h : valuesOf "x-forwarded-for" ls' = vs ++ [v ++ ',' :: ' ' :: peer])
      (hcf : valuesOf "cf-connecting-ip" ls' = valuesOf "cf-connecting-ip" ls)

theorem intercalate_concat (sep : List Char) (vs : List (List Char)) (v : List Char) :
    ∃ earlier, sep.intercalate (vs ++ [v]) = earlier ++ v ∧
      (vs = [] ∧ earlier = [] ∨ ∃ e, earlier = e ++ sep) := by
  induction vs with
  | nil => exact ⟨[], List.intercalate_singleton, Or.inl ⟨rfl, rfl⟩⟩
  | cons x vs ih =>
      obtain ⟨earlier, he, hs⟩ := ih
      refine ⟨x ++ sep ++ earlier, ?_, Or.inr ?_⟩
      · rw [List.cons_append, List.intercalate_cons_of_ne_nil (by simp), he]
        simp only [List.append_assoc]
      · rcases hs with ⟨-, rfl⟩ | ⟨e, rfl⟩
        · exact ⟨x, List.append_nil _⟩
        · exact ⟨x ++ sep ++ e, (List.append_assoc ..).symm⟩

theorem header_of_values {name : String} {ls : HeaderLines} {vs : List (List Char)} {v : List Char}
    (h : valuesOf name ls = vs ++ [v]) :
    header name ls = some (.text ([',', ' '].intercalate (vs ++ [v]))) := by
  unfold header
  rw [h, if_neg (by simp)]

theorem isSpace_blank : ∀ c ∈ [' '], isSpace c = true :=
  List.all_eq_true.mp (show [' '].all isSpace = true by decide)

theorem hop_of_forwards {peer : List Char} {ls ls' : HeaderLines} {remote : Option (List Char)}
    (h : Forwards peer ls ls') : Hop (received ls' remote) peer := by
  cases h with
  | newLine hv hcf =>
      obtain ⟨earlier, he, hs⟩ := intercalate_concat [',', ' '] (valuesOf "x-forwarded-for" ls) peer
      rcases hs with ⟨-, rfl⟩ | ⟨e, rfl⟩
      · exact ⟨_, [], header_of_values hv, fun c hc => absurd hc List.not_mem_nil, Or.inl he⟩
      · refine ⟨_, [' '], header_of_values hv, isSpace_blank, Or.inr ⟨e, he.trans ?_⟩⟩
        simp
  | @sameLine vs v hv h hcf =>
      obtain ⟨earlier, he, -⟩ := intercalate_concat [',', ' '] vs (v ++ ',' :: ' ' :: peer)
      refine ⟨_, [' '], header_of_values h, isSpace_blank, Or.inr ⟨earlier ++ v, he.trans ?_⟩⟩
      simp

theorem connecting_of_forwards {peer : List Char} {ls ls' : HeaderLines}
    {remote : Option (List Char)} (h : Forwards peer ls ls') :
    connecting (received ls' remote) = connecting (received ls remote) := by
  have hcf : valuesOf "cf-connecting-ip" ls' = valuesOf "cf-connecting-ip" ls := by
    cases h with
    | newLine _ hcf => exact hcf
    | sameLine _ _ hcf => exact hcf
  unfold connecting received header
  rw [hcf]

/-- **The client's address.** Without a trusted proxy it is the socket's, whatever the headers are.
Behind a proxy that appends the peer's address it is the address in `CF-Connecting-IP`, if that is a
valid one, and otherwise the peer's, whatever `X-Forwarded-For` says before it; so requests that
agree on both get the same address. -/
theorem clientIp_trusted {peer : List Char} (hp : isIP peer ≠ 0) :
    (∀ req, clientIp req false = socketAddress req) ∧
    (∀ req, Hop req peer → clientIp req true = (connecting req).getD peer) ∧
    (∀ ls ls' remote, Forwards peer ls ls' →
      clientIp (received ls' remote) true = (connecting (received ls remote)).getD peer) ∧
    ∀ req req', Hop req peer → Hop req' peer → connecting req = connecting req' →
      clientIp req true = clientIp req' true := by
  have hhop : ∀ req, Hop req peer → clientIp req true = (connecting req).getD peer := by
    intro req h
    unfold clientIp
    rw [if_pos rfl, forwarded_hop hp h]
    cases connecting req <;> rfl
  refine ⟨fun req => if_neg Bool.false_ne_true, hhop, fun ls ls' remote h => ?_,
    fun req req' h h' hc => ?_⟩
  · rw [hhop _ (hop_of_forwards h), connecting_of_forwards h]
  · rw [hhop req h, hhop req' h', hc]

/-- The client sends two lines of `X-Forwarded-For` and no address in `CF-Connecting-IP`. -/
def spoofing : HeaderLines :=
  [("x-forwarded-for", "203.0.113.9, ,".toList), ("cf-connecting-ip", "localhost".toList),
    ("x-forwarded-for", "2001:db8::1".toList)]

/-- The proxy adds a line. -/
theorem clientIp_trusted_spoofing :
    clientIp (received (spoofing ++ [("x-forwarded-for", "198.51.100.7".toList)]) none) true =
      "198.51.100.7".toList := by
  have hf : Forwards "198.51.100.7".toList spoofing
      (spoofing ++ [("x-forwarded-for", "198.51.100.7".toList)]) :=
    .newLine (by decide) (by decide)
  have hip : isIP "198.51.100.7".toList ≠ 0 := by decide
  have hc : connecting (received spoofing none) = none := by decide
  rw [(clientIp_trusted hip).2.2.1 _ _ none hf, hc, Option.getD_none]

/-- A client that sends an address in `CF-Connecting-IP` is taken to be there. -/
theorem clientIp_connecting : ∃ (peer : List Char) (ls ls' : HeaderLines), isIP peer ≠ 0 ∧
    Forwards peer ls ls' ∧ clientIp (received ls' (some peer)) true ≠ peer :=
  ⟨"198.51.100.7".toList, [("cf-connecting-ip", "203.0.113.9".toList)],
    [("cf-connecting-ip", "203.0.113.9".toList), ("x-forwarded-for", "198.51.100.7".toList)],
    by decide, .newLine (by decide) (by decide), by decide⟩

end RoomBackend.Ip
