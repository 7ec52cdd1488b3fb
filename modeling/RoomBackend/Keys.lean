import RoomBackend.Day
import RoomBackend.Store

/-! # The keys of the store

Everything but histories, presence and the abuse log is kept under string keys: fields joined by
colons, the first of them the kind of the key. Spelled keys are told apart as the keys they spell
(`Key.text_inj`), provided that no colon is in the id of a room; then also a prefix of a room's
names is one of nothing else (`Key.prefix_iff`). -/

namespace RoomBackend

/-! ### Fields and separators -/

section fields

variable {α : Type*} {c : α} {x x' y y' : List α}

/-- The first separator ends the first field. -/
theorem append_sep_inj (hx : c ∉ x) (hx' : c ∉ x') (h : x ++ c :: y = x' ++ c :: y') :
    x = x' ∧ y = y' := by
  induction x generalizing x' with
  | nil =>
      cases x' with
      | nil => exact ⟨rfl, (List.cons.inj h).2⟩
      | cons a x' => exact absurd ((List.cons.inj h).1 ▸ List.mem_cons_self) hx'
  | cons a x ih =>
      cases x' with
      | nil => exact absurd ((List.cons.inj h).1 ▸ List.mem_cons_self) hx
      | cons a' x' =>
          obtain ⟨rfl, htail⟩ := List.cons.inj h
          obtain ⟨rfl, rfl⟩ := ih (fun hc => hx (List.mem_cons_of_mem _ hc))
            (fun hc => hx' (List.mem_cons_of_mem _ hc)) htail
          exact ⟨rfl, rfl⟩

/-- The last separator begins the last field. -/
theorem append_sep_inj_last (hy : c ∉ y) (hy' : c ∉ y') (h : x ++ c :: y = x' ++ c :: y') :
    x = x' ∧ y = y' := by
  have hr := congrArg List.reverse h
  simp only [List.reverse_append, List.reverse_cons, List.append_assoc, List.cons_append,
    List.nil_append] at hr
  obtain ⟨h₁, h₂⟩ := append_sep_inj (mt List.mem_reverse.mp hy) (mt List.mem_reverse.mp hy') hr
  exact ⟨List.reverse_inj.mp h₂, List.reverse_inj.mp h₁⟩

end fields

theorem colon_not_mem_of_numeral {n : ℤ} {l : List Char} (h : Numerals.Numeral n l) : ':' ∉ l := by
  intro hc
  rcases h with ⟨m, -, hd⟩ | ⟨m, ds, -, -, rfl, hd⟩
  · cases hd.digit _ hc
  · rcases List.mem_cons.mp hc with h | h
    · cases h
    · cases hd.digit _ h

/-- A printed integer has no colon. -/
theorem colon_not_mem_toString (n : ℤ) : ':' ∉ (toString n).toList :=
  colon_not_mem_of_numeral (Numerals.numeral_toString n)

/-- The date of a room has no colon. -/
theorem colon_not_mem_roomDateAt (ts : ℤ) (tz : Day.Zone) :
    ':' ∉ (Day.roomDateAt ts tz).toList := by
  have hd : ':' ∉ "-".toList := by decide
  unfold Day.roomDateAt
  simp only [String.toList_append, List.mem_append, not_or]
  exact ⟨⟨⟨⟨colon_not_mem_toString _, hd⟩, colon_not_mem_of_numeral (Day.numeral_pad2 _)⟩, hd⟩,
    colon_not_mem_of_numeral (Day.numeral_pad2 _)⟩

theorem toString_toList_inj {n n' : ℤ} (h : (toString n).toList = (toString n').toList) : n = n' :=
  (Numerals.numeral_append_inj (Numerals.numeral_toString n) (Numerals.numeral_toString n')
    (fun _ hc => by cases hc) (fun _ hc => by cases hc)
    (by rw [h] : (toString n).toList ++ [] = (toString n').toList ++ [])).1

/-! ### Keys -/

/-- How ids and hashes are spelled: different ones differently. -/
structure Spelling where
  sid : Sid → List Char
  hash : TokenHash → List Char
  sid_injective : Function.Injective sid
  hash_injective : Function.Injective hash

/-- The keys of `kv`. -/
inductive Key where
  | name (roomId name : String)
  | sess (sid : Sid)
  | resume (hash : TokenHash)
  | rl (key : CounterKey) (window : ℤ)
  | set (roomId textHash : String)
  | block (key : BlockKey)
  | lock (name : String)
deriving DecidableEq

variable (sp : Spelling)

namespace CounterKey

def tag : CounterKey → String
  | rejoin _ => "rejoin"
  | newsess _ => "newsess"
  | conn _ => "conn"
  | connx _ => "connx"
  | ipmsg _ => "ipmsg"
  | report _ => "report"

def field : CounterKey → List Char
  | rejoin sid => sp.sid sid
  | newsess dailyHash => dailyHash.toList
  | conn dailyHash => dailyHash.toList
  | connx dailyHash => dailyHash.toList
  | ipmsg dailyHash => dailyHash.toList
  | report sid => sp.sid sid

/-- The key that is passed to `hit`, such as `ipmsg:${dailyHash}`. -/
def text (key : CounterKey) : List Char := key.tag.toList ++ ':' :: key.field sp

end CounterKey

namespace BlockKey

def tag : BlockKey → String
  | sess _ => "sess"
  | net _ => "net"
  | cbo _ => "cbo"

def field : BlockKey → List Char
  | sess sid => sp.sid sid
  | net blockHash => blockHash.toList
  | cbo dailyHash => dailyHash.toList

/-- The key that is passed to `setBlock`, such as `sess:${sid}`. -/
def text (key : BlockKey) : List Char := key.tag.toList ++ ':' :: key.field sp

end BlockKey

namespace Key

def tag : Key → String
  | name _ _ => "name"
  | sess _ => "sess"
  | resume _ => "resume"
  | rl _ _ => "rl"
  | set _ _ => "set"
  | block _ => "block"
  | lock _ => "lock"

def field : Key → List Char
  | .name roomId n => roomId.toList ++ ':' :: n.toList
  | .sess sid => sp.sid sid
  | .resume hash => sp.hash hash
  | .rl key window => key.text sp ++ ':' :: (toString window).toList
  | .set roomId textHash => "dup:".toList ++ (roomId.toList ++ ':' :: textHash.toList)
  | .block key => key.text sp
  | .lock n => n.toList

/-- The key as it is spelled. -/
def text (key : Key) : List Char := key.tag.toList ++ ':' :: key.field sp

/-- No colon is in the id of a room. -/
def Plain : Key → Prop
  | name roomId _ => ':' ∉ roomId.toList
  | set roomId _ => ':' ∉ roomId.toList
  | _ => True

end Key

/-! ### Spelled keys -/

variable {sp}

theorem CounterKey.text_inj {k k' : CounterKey} (h : k.text sp = k'.text sp) : k = k' := by
  have tagged : ∀ k : CounterKey, ':' ∉ k.tag.toList := by
    intro k
    cases k <;> simp [tag]
  obtain ⟨htag, hfield⟩ := append_sep_inj (tagged k) (tagged k') h
  cases k <;> cases k' <;> first
    | exact congrArg _ (String.toList_inj.mp hfield)
    | exact congrArg _ (sp.sid_injective hfield)
    | exact absurd (String.toList_inj.mp htag) (by simp [tag])

theorem BlockKey.text_inj {k k' : BlockKey} (h : k.text sp = k'.text sp) : k = k' := by
  have tagged : ∀ k : BlockKey, ':' ∉ k.tag.toList := by
    intro k
    cases k <;> simp [tag]
  obtain ⟨htag, hfield⟩ := append_sep_inj (tagged k) (tagged k') h
  cases k <;> cases k' <;> first
    | exact congrArg _ (String.toList_inj.mp hfield)
    | exact congrArg _ (sp.sid_injective hfield)
    | exact absurd (String.toList_inj.mp htag) (by simp [tag])

theorem Key.colon_not_mem_tag (k : Key) : ':' ∉ k.tag.toList := by
  cases k <;> simp [tag]

/-- Keys that are spelled alike are the same. -/
theorem Key.text_inj {k k' : Key} (hk : k.Plain) (hk' : k'.Plain) (h : k.text sp = k'.text sp) :
    k = k' := by
  obtain ⟨htag, hfield⟩ := append_sep_inj k.colon_not_mem_tag k'.colon_not_mem_tag h
  cases k with
  | name r n =>
      cases k' with
      | name r' n' =>
          obtain ⟨hr, hn⟩ := append_sep_inj hk hk' hfield
          rw [String.toList_inj.mp hr, String.toList_inj.mp hn]
      | _ => exact absurd (String.toList_inj.mp htag) (by simp [tag])
  | sess sid =>
      cases k' with
      | sess sid' => exact congrArg _ (sp.sid_injective hfield)
      | _ => exact absurd (String.toList_inj.mp htag) (by simp [tag])
  | resume hash =>
      cases k' with
      | resume hash' => exact congrArg _ (sp.hash_injective hfield)
      | _ => exact absurd (String.toList_inj.mp htag) (by simp [tag])
  | rl key w =>
      cases k' with
      | rl key' w' =>
          obtain ⟨hkey, hw⟩ := append_sep_inj_last (colon_not_mem_toString w)
            (colon_not_mem_toString w') hfield
          rw [CounterKey.text_inj hkey, toString_toList_inj hw]
      | _ => exact absurd (String.toList_inj.mp htag) (by simp [tag])
  | set r x =>
      cases k' with
      | set r' x' =>
          obtain ⟨hr, hx⟩ := append_sep_inj hk hk' (List.append_cancel_left hfield)
          rw [String.toList_inj.mp hr, String.toList_inj.mp hx]
      | _ => exact absurd (String.toList_inj.mp htag) (by simp [tag])
  | block key =>
      cases k' with
      | block key' => exact congrArg _ (BlockKey.text_inj hfield)
      | _ => exact absurd (String.toList_inj.mp htag) (by simp [tag])
  | lock n =>
      cases k' with
      | lock n' => exact congrArg _ (String.toList_inj.mp hfield)
      | _ => exact absurd (String.toList_inj.mp htag) (by simp [tag])

/-- A literal that ends with the separator ends its field. -/
theorem append_of_tag {s t : List Char} (h : s = t ++ [':']) (x : List Char) :
    s ++ x = t ++ ':' :: x := by
  rw [h, List.append_assoc]
  rfl

/-- What the names of a room begin with: `name:${roomId}:`. -/
def namePrefix (roomId : String) : List Char := "name:".toList ++ roomId.toList ++ [':']

theorem namePrefix_append (roomId : String) (x : List Char) :
    namePrefix roomId ++ x = "name".toList ++ ':' :: (roomId.toList ++ ':' :: x) := by
  have assoc : ∀ s r : List Char, s ++ r ++ [':'] ++ x = s ++ (r ++ ':' :: x) := by
    intro s r
    rw [List.append_assoc, List.append_assoc]
    rfl
  exact (assoc _ _).trans (append_of_tag (by decide) _)

/-- Only the names of a room begin with its prefix. -/
theorem Key.prefix_iff {k : Key} (hk : k.Plain) {roomId : String} (hr : ':' ∉ roomId.toList) :
    namePrefix roomId <+: k.text sp ↔ ∃ n, k = .name roomId n := by
  constructor
  · rintro ⟨z, hz⟩
    have hz' := (namePrefix_append roomId z).symm.trans hz
    obtain ⟨htag, hfield⟩ := append_sep_inj (Key.name "" "").colon_not_mem_tag
      k.colon_not_mem_tag hz'
    cases k with
    | name r n =>
        obtain ⟨hrr, -⟩ := append_sep_inj hr hk hfield
        exact ⟨n, by rw [String.toList_inj.mp hrr]⟩
    | _ => exact absurd (String.toList_inj.mp htag) (by simp [tag])
  · rintro ⟨n, rfl⟩
    exact ⟨n.toList, namePrefix_append roomId n.toList⟩

end RoomBackend
