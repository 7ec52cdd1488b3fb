import Mathlib.Algebra.Ring.Int.Defs
import Mathlib.Data.List.Nodup
import RoomBackend.Lts
import RoomBackend.Store

/-! # Presence in Redis

`totalPresence` of `store/redis.ts` reads the hash and deletes what it found stale by a second
command. In between every instance may report and remove itself, and others may count. A report is
lost exactly if its instance was found stale by a count whose delete is still to come. -/

namespace RoomBackend.Presence

open Lts

/-- A field of the hash, its value `count:ts` read back: instance, count, and time. -/
abbrev Entry := InstanceId × ℤ × ℤ

namespace Entry

def count (e : Entry) : ℤ := e.2.1

def ts (e : Entry) : ℤ := e.2.2

end Entry

/-- A report of that time is not stale. -/
def fresh (now staleMs ts : ℤ) : Bool := !decide (now - ts > staleMs)

/-- `HDEL`. -/
def hdel (ids : List InstanceId) (hash : List Entry) : List Entry :=
  hash.filter fun e => e.1 ∉ ids

/-- The loop of `totalPresence`. -/
def tally (now staleMs : ℤ) : ℤ × List InstanceId → List Entry → ℤ × List InstanceId
  | acc, [] => acc
  | (total, stale), e :: all =>
      if now - e.ts > staleMs then tally now staleMs (total, stale ++ [e.1]) all
      else tally now staleMs (total + e.count, stale) all

/-- A call of `totalPresence` behind its `HGETALL`. -/
structure Call where
  now : ℤ
  staleMs : ℤ
  all : List Entry
deriving DecidableEq

namespace Call

def total (c : Call) : ℤ := (tally c.now c.staleMs (0, []) c.all).1

def stale (c : Call) : List InstanceId := (tally c.now c.staleMs (0, []) c.all).2

end Call

/-- The hash, the calls that still have to delete, and those that returned their total. -/
structure State where
  hash : List Entry
  calls : List Call
  returned : List Call
deriving DecidableEq

/-- One command of Redis. -/
inductive Label where
  | report (i : InstanceId) (count ts : ℤ)
  | remove (i : InstanceId)
  | read (now staleMs : ℤ)
  | prune (k : ℕ)
  /-- The delete of a call fails. -/
  | fail (k : ℕ)
deriving DecidableEq

def step (s : State) : Label → Option State
  | .report i count ts => some { s with hash := hdel [i] s.hash ++ [(i, count, ts)] }
  | .remove i => some { s with hash := hdel [i] s.hash }
  | .read now staleMs => some { s with calls := s.calls ++ [⟨now, staleMs, s.hash⟩] }
  | .prune k => s.calls[k]?.map fun c =>
      { hash := hdel c.stale s.hash, calls := s.calls.eraseIdx k, returned := s.returned ++ [c] }
  | .fail k => s.calls[k]?.map fun _ => { s with calls := s.calls.eraseIdx k }

/-- Any hash, and no call under way. -/
def machine : Machine State Label where
  init s := (s.hash.map Prod.fst).Nodup ∧ s.calls = [] ∧ s.returned = []
  step := step

/-- No instance reports what is fresh to a call that found it stale and has not yet deleted it. -/
def Timely (s : State) : Label → Prop
  | .report i _ ts => ∀ c ∈ s.calls, i ∈ c.stale → fresh c.now c.staleMs ts = false
  | _ => True

instance (s : State) (l : Label) : Decidable (Timely s l) := by
  cases l <;> unfold Timely <;> infer_instance

/-- The instance neither reports again nor removes itself, nor does a call delete to which its
report is stale. -/
def Live (i : InstanceId) (ts : ℤ) (s : State) : Label → Prop
  | .report j _ _ => j ≠ i
  | .remove j => j ≠ i
  | .prune k => ∀ c ∈ s.calls[k]?, fresh c.now c.staleMs ts = true
  | _ => True

/-! ### The loop -/

theorem tally_eq (now staleMs : ℤ) (all : List Entry) (acc : ℤ × List InstanceId) :
    tally now staleMs acc all =
      (acc.1 + ((all.filter fun e => fresh now staleMs e.ts).map Entry.count).sum,
        acc.2 ++ (all.filter fun e => !fresh now staleMs e.ts).map Prod.fst) := by
  induction all generalizing acc with
  | nil => exact Prod.ext (Int.add_zero _).symm (List.append_nil _).symm
  | cons e all ih =>
      unfold tally
      by_cases h : now - e.ts > staleMs
      · have hf : fresh now staleMs e.ts = false := by
          unfold fresh
          rw [decide_eq_true h, Bool.not_true]
        rw [if_pos h, ih]
        simp only [List.filter_cons, hf, Bool.not_false, if_true, Bool.false_eq_true, if_false,
          List.map_cons, List.append_assoc, List.singleton_append]
      · have hf : fresh now staleMs e.ts = true := by
          unfold fresh
          rw [decide_eq_false h, Bool.not_false]
        rw [if_neg h, ih]
        simp only [List.filter_cons, hf, Bool.not_true, if_true, Bool.false_eq_true, if_false,
          List.map_cons, List.sum_cons, Int.add_assoc]

theorem Call.total_eq (c : Call) :
    c.total = ((c.all.filter fun e => fresh c.now c.staleMs e.ts).map Entry.count).sum := by
  unfold Call.total
  rw [tally_eq, Int.zero_add]

theorem Call.mem_stale {c : Call} {i : InstanceId} :
    i ∈ c.stale ↔ ∃ e ∈ c.all, fresh c.now c.staleMs e.ts = false ∧ e.1 = i := by
  unfold Call.stale
  rw [tally_eq, List.nil_append, List.mem_map]
  simp only [List.mem_filter, Bool.not_eq_true', and_assoc]

/-! ### Steps -/

theorem mem_hdel {ids : List InstanceId} {hash : List Entry} {e : Entry} :
    e ∈ hdel ids hash ↔ e ∈ hash ∧ e.1 ∉ ids := by
  unfold hdel
  rw [List.mem_filter, decide_eq_true_eq]

theorem nodup_hdel {ids : List InstanceId} {hash : List Entry} (h : (hash.map Prod.fst).Nodup) :
    ((hdel ids hash).map Prod.fst).Nodup :=
  h.sublist (List.filter_sublist.map _)

/-- One field for an instance, and what a call is to delete is stale to it. -/
structure Inv (s : State) : Prop where
  keys : (s.hash.map Prod.fst).Nodup
  stale : ∀ c ∈ s.calls, ∀ e ∈ s.hash, e.1 ∈ c.stale → fresh c.now c.staleMs e.ts = false

theorem Inv.of_init {s : State} (h : machine.init s) : Inv s where
  keys := h.1
  stale c hc := by
    rw [h.2.1] at hc
    cases hc

/-- What a step does to the hash and to the calls under way. -/
theorem step_inv {s t : State} {l : Label} (h : Inv s) (hl : Timely s l)
    (hs : machine.step s l = some t) : Inv t := by
  cases l with
  | report i count ts =>
      obtain rfl := Option.some.inj hs
      refine ⟨?_, fun c hc e he hi => ?_⟩
      · show ((hdel [i] s.hash ++ [(i, count, ts)]).map Prod.fst).Nodup
        rw [List.map_append]
        refine List.Nodup.append (nodup_hdel h.keys) (List.nodup_singleton i) ?_
        rw [List.map_singleton, List.disjoint_singleton]
        intro hmem
        obtain ⟨e, he, hei⟩ := List.mem_map.mp hmem
        exact (mem_hdel.mp he).2 (List.mem_singleton.mpr hei)
      · rcases List.mem_append.mp he with he | he
        · exact h.stale c hc e (mem_hdel.mp he).1 hi
        · rw [List.mem_singleton.mp he] at hi ⊢
          exact hl c hc hi
  | remove i =>
      obtain rfl := Option.some.inj hs
      exact ⟨nodup_hdel h.keys, fun c hc e he => h.stale c hc e (mem_hdel.mp he).1⟩
  | read now staleMs =>
      obtain rfl := Option.some.inj hs
      refine ⟨h.keys, fun c hc e he hi => ?_⟩
      rcases List.mem_append.mp hc with hc | hc
      · exact h.stale c hc e he hi
      · rw [List.mem_singleton.mp hc] at hi ⊢
        obtain ⟨e', he', hf, hk⟩ := Call.mem_stale.mp hi
        rwa [← List.inj_on_of_nodup_map h.keys he' he hk]
  | prune k =>
      obtain ⟨c, hc, rfl⟩ := Option.map_eq_some_iff.mp hs
      refine ⟨nodup_hdel h.keys, fun c' hc' e he => ?_⟩
      exact h.stale c' (List.mem_of_mem_eraseIdx hc') e (mem_hdel.mp he).1
  | fail k =>
      obtain ⟨c, hc, rfl⟩ := Option.map_eq_some_iff.mp hs
      exact ⟨h.keys, fun c' hc' => h.stale c' (List.mem_of_mem_eraseIdx hc')⟩

theorem Inv.of_run {s t : State} {ls : List Label} (hs : machine.init s)
    (h : machine.Run Timely s ls t) : Inv t :=
  h.preserves (fun _ _ _ hi hl he => step_inv hi hl he) (Inv.of_init hs)

/-- A delete takes only what is stale to the call. -/
theorem prune_stale {s t : State} {k : ℕ} (h : Inv s) (hs : machine.step s (.prune k) = some t)
    {e : Entry} (he : e ∈ s.hash) (hgone : e ∉ t.hash) :
    ∃ c ∈ s.calls[k]?, fresh c.now c.staleMs e.ts = false := by
  obtain ⟨c, hc, rfl⟩ := Option.map_eq_some_iff.mp hs
  refine ⟨c, hc, h.stale c (List.mem_of_getElem? hc) e he ?_⟩
  by_contra hno
  exact hgone (mem_hdel.mpr ⟨he, hno⟩)

/-- The report of an instance that is live stays. -/
theorem step_live {s t : State} {l : Label} {i : InstanceId} {count ts : ℤ} (h : Inv s)
    (hl : Live i ts s l) (hs : machine.step s l = some t) (hmem : (i, count, ts) ∈ s.hash) :
    (i, count, ts) ∈ t.hash := by
  cases l with
  | report j n ts' =>
      obtain rfl := Option.some.inj hs
      refine List.mem_append_left _ (mem_hdel.mpr ⟨hmem, fun hi => hl ?_⟩)
      exact (List.mem_singleton.mp hi).symm
  | remove j =>
      obtain rfl := Option.some.inj hs
      exact mem_hdel.mpr ⟨hmem, fun hi => hl (List.mem_singleton.mp hi).symm⟩
  | read now staleMs =>
      obtain rfl := Option.some.inj hs
      exact hmem
  | prune k =>
      by_contra hgone
      obtain ⟨c, hc, hf⟩ := prune_stale h hs hmem hgone
      have hlive : fresh c.now c.staleMs ts = true := hl c hc
      rw [show fresh c.now c.staleMs ts = false from hf] at hlive
      cases hlive
  | fail k =>
      obtain ⟨c, -, rfl⟩ := Option.map_eq_some_iff.mp hs
      exact hmem

theorem run_live {s t : State} {ls : List Label} {i : InstanceId} {count ts : ℤ} (h : Inv s)
    (hr : machine.Run (fun s l => Timely s l ∧ Live i ts s l) s ls t)
    (hmem : (i, count, ts) ∈ s.hash) : (i, count, ts) ∈ t.hash := by
  have hkeep := @Machine.Run.preserves _ _ _ _ (fun s => Inv s ∧ (i, count, ts) ∈ s.hash)
    (fun s l t hI hl hs => ⟨step_inv hI.1 hl.1 hs, step_live hI.1 hl.2 hs hI.2⟩) s t ls hr ⟨h, hmem⟩
  exact hkeep.2

/-! ### Totals -/

/-- The hash a call has read is the one of an earlier state. -/
def ReadFrom (s₀ : State) (ls : List Label) (c : Call) : Prop :=
  ∃ pre post u, ls = pre ++ .read c.now c.staleMs :: post ∧ machine.Run Timely s₀ pre u ∧
    c.all = u.hash

theorem ReadFrom.snoc {s₀ : State} {ls : List Label} {c : Call} (h : ReadFrom s₀ ls c) (l : Label) :
    ReadFrom s₀ (ls ++ [l]) c := by
  obtain ⟨pre, post, u, rfl, hr, hall⟩ := h
  exact ⟨pre, post ++ [l], u, by rw [List.append_assoc]; rfl, hr, hall⟩

theorem readFrom_of_run {s₀ s : State} (h0 : machine.init s₀) {ls : List Label}
    (h : machine.Run Timely s₀ ls s) : ∀ c, c ∈ s.calls ∨ c ∈ s.returned → ReadFrom s₀ ls c := by
  refine h.trace (I := fun ls s => ∀ c, c ∈ s.calls ∨ c ∈ s.returned → ReadFrom s₀ ls c) ?_ ?_
  · intro c hc
    rw [h0.2.1, h0.2.2] at hc
    rcases hc with hc | hc <;> cases hc
  · intro ls s l t hr hI _ hs c hc
    cases l with
    | report i count ts =>
        obtain rfl := Option.some.inj hs
        exact (hI c hc).snoc _
    | remove i =>
        obtain rfl := Option.some.inj hs
        exact (hI c hc).snoc _
    | read now staleMs =>
        obtain rfl := Option.some.inj hs
        rcases hc with hc | hc
        · rcases List.mem_append.mp hc with hc | hc
          · exact (hI c (Or.inl hc)).snoc _
          · obtain rfl := List.mem_singleton.mp hc
            exact ⟨ls, [], s, rfl, hr, rfl⟩
        · exact (hI c (Or.inr hc)).snoc _
    | prune k =>
        obtain ⟨d, hd, rfl⟩ := Option.map_eq_some_iff.mp hs
        rcases hc with hc | hc
        · exact (hI c (Or.inl (List.mem_of_mem_eraseIdx hc))).snoc _
        · rcases List.mem_append.mp hc with hc | hc
          · exact (hI c (Or.inr hc)).snoc _
          · obtain rfl := List.mem_singleton.mp hc
            exact (hI c (Or.inl (List.mem_of_getElem? hd))).snoc _
    | fail k =>
        obtain ⟨d, hd, rfl⟩ := Option.map_eq_some_iff.mp hs
        exact (hI c (hc.imp_left List.mem_of_mem_eraseIdx)).snoc _

/-- A report to a call that found its instance stale is lost by that call's delete. -/
theorem lost_of_not_timely {s : State} {i : InstanceId} {count ts : ℤ}
    (h : ¬ Timely s (.report i count ts)) :
    ∃ k c t u, s.calls[k]? = some c ∧ fresh c.now c.staleMs ts = true ∧
      machine.step s (.report i count ts) = some t ∧ (i, count, ts) ∈ t.hash ∧
      machine.step t (.prune k) = some u ∧ (i, count, ts) ∉ u.hash := by
  unfold Timely at h
  push Not at h
  obtain ⟨c, hc, hi, hf⟩ := h
  obtain ⟨k, hk⟩ := List.mem_iff_getElem?.mp hc
  refine ⟨k, c, _, _, hk, Bool.of_not_eq_false hf, rfl,
    List.mem_append_right _ (List.mem_singleton_self _), Option.map_eq_some_iff.mpr ⟨c, hk, rfl⟩,
    fun hmem => (mem_hdel.mp hmem).2 hi⟩

/-- **Presence.** Where no instance reports what is fresh to a call that found it stale and is still
to delete it, a delete takes only what is stale to its call. A report is in the hash, and so in
every total to which it is fresh, until its instance reports again or removes itself, or a call
deletes to which it is stale. Each total is the sum of the counts that were fresh in the hash it
read, one for each instance. A report that is not so is lost by the delete. -/
theorem presence_kept {s₀ s : State} {ls : List Label} (h0 : machine.init s₀)
    (h : machine.Run Timely s₀ ls s) :
    (∀ k t, machine.step s (.prune k) = some t → ∀ e ∈ s.hash, e ∉ t.hash →
      ∃ c ∈ s.calls[k]?, c.now - e.ts > c.staleMs) ∧
    (∀ i count ts t ls' u, Timely s (.report i count ts) →
      machine.step s (.report i count ts) = some t →
      machine.Run (fun s l => Timely s l ∧ Live i ts s l) t ls' u → (i, count, ts) ∈ u.hash) ∧
    (∀ c ∈ s.returned, ∃ pre post r, ls = pre ++ .read c.now c.staleMs :: post ∧
      machine.Run Timely s₀ pre r ∧ (r.hash.map Prod.fst).Nodup ∧
      c.total = ((r.hash.filter fun e => fresh c.now c.staleMs e.ts).map Entry.count).sum) ∧
    ∀ i count ts, ¬ Timely s (.report i count ts) →
      ∃ k c t u, s.calls[k]? = some c ∧ fresh c.now c.staleMs ts = true ∧
        machine.step s (.report i count ts) = some t ∧ (i, count, ts) ∈ t.hash ∧
        machine.step t (.prune k) = some u ∧ (i, count, ts) ∉ u.hash := by
  have hInv := Inv.of_run h0 h
  refine ⟨fun k t hs e he hgone => ?_, fun i count ts t ls' u hl hs hr => ?_, fun c hc => ?_,
    fun i count ts => lost_of_not_timely⟩
  · obtain ⟨c, hc, hf⟩ := prune_stale hInv hs he hgone
    unfold fresh at hf
    rw [Bool.not_eq_false', decide_eq_true_eq] at hf
    exact ⟨c, hc, hf⟩
  · refine run_live (step_inv hInv hl hs) hr ?_
    obtain rfl := Option.some.inj hs
    exact List.mem_append_right _ (List.mem_singleton_self _)
  · obtain ⟨pre, post, r, hls, hr, hall⟩ := readFrom_of_run h0 h c (Or.inr hc)
    refine ⟨pre, post, r, hls, hr, (Inv.of_run h0 hr).keys, ?_⟩
    rw [c.total_eq, hall]

/-! ### Two instances -/

/-- Instance 2 reports at time 0 and is found stale at 30000 by instance 1. It reports again before
the delete of instance 1 comes, which takes that report: the next total is without its five. -/
theorem presence_lost :
    machine.execs (fun _ _ => true) ⟨[], [], []⟩
        [.report 2 5 0, .report 1 3 30000, .read 30000 20000, .report 2 5 30001, .prune 0] =
      some ⟨[(1, 3, 30000)], [], [⟨30000, 20000, [(2, 5, 0), (1, 3, 30000)]⟩]⟩ ∧
    fresh 30000 20000 30001 = true ∧ (⟨30001, 20000, [(1, 3, 30000)]⟩ : Call).total = 3 := by
  decide

/-- What is left where the delete comes first. -/
def pruned : State := ⟨[(1, 3, 30000)], [], [⟨30000, 20000, [(2, 5, 0), (1, 3, 30000)]⟩]⟩

theorem presence_kept_two :
    machine.step pruned (.report 2 5 30001) =
        some { pruned with hash := [(1, 3, 30000), (2, 5, 30001)] } ∧
      (2, 5, 30001) ∈ hdel [1] [(1, 3, 30000), (2, 5, 30001)] := by
  have hrun : machine.Run Timely ⟨[], [], []⟩
      [.report 2 5 0, .report 1 3 30000, .read 30000 20000, .prune 0] pruned :=
    Machine.run_of_execs (c := fun s l => decide (Timely s l)) (fun _ _ => of_decide_eq_true)
      (by decide)
  have hinit : machine.init ⟨[], [], []⟩ := ⟨List.nodup_nil, rfl, rfl⟩
  have hleave : machine.Run (fun s l => Timely s l ∧ Live 2 30001 s l)
      { pruned with hash := [(1, 3, 30000), (2, 5, 30001)] } [.remove 1]
      { pruned with hash := hdel [1] [(1, 3, 30000), (2, 5, 30001)] } :=
    .cons ⟨trivial, show 1 ≠ 2 by decide⟩ rfl (.nil _)
  exact ⟨rfl, (presence_kept hinit hrun).2.1 2 5 30001 _ _ _ (by decide) rfl hleave⟩

/-! ### The atomic store -/

theorem hdel_stale {hash : List Entry} (h : (hash.map Prod.fst).Nodup) (now staleMs : ℤ) :
    hdel (⟨now, staleMs, hash⟩ : Call).stale hash =
      hash.filter fun e => fresh now staleMs e.ts := by
  refine List.filter_congr fun e he => ?_
  rw [← Bool.coe_iff_coe, decide_eq_true_eq, Call.mem_stale]
  constructor
  · intro hno
    by_contra hf
    exact hno ⟨e, he, (Bool.not_eq_true _).mp hf, rfl⟩
  · rintro hf ⟨e', he', hf', hk⟩
    rw [List.inj_on_of_nodup_map h he' he hk, hf] at hf'
    cases hf'

theorem foldl_count (live : List Entry) (n : ℤ) :
    live.foldl (fun n p => n + p.2.1) n = n + (live.map Entry.count).sum := by
  induction live generalizing n with
  | nil => exact (Int.add_zero n).symm
  | cons e live ih => rw [List.foldl_cons, ih, List.map_cons, List.sum_cons, Int.add_assoc]; rfl

/-- With nothing in between, the two commands do at once what `totalPresence` of the store does. -/
theorem read_prune {s t u : State} {store : Store} (h : (s.hash.map Prod.fst).Nodup)
    (hstore : store.presence = s.hash) {now staleMs : ℤ}
    (ht : machine.step s (.read now staleMs) = some t)
    (hu : machine.step t (.prune s.calls.length) = some u) :
    ∃ c, u.returned = s.returned ++ [c] ∧
      store.totalPresence now staleMs = (c.total, { store with presence := u.hash }) := by
  obtain rfl := Option.some.inj ht
  obtain ⟨c, hc, rfl⟩ := Option.map_eq_some_iff.mp hu
  rw [List.getElem?_concat_length] at hc
  obtain rfl := Option.some.inj hc
  refine ⟨_, rfl, ?_⟩
  have hlive : store.presence.filter (fun p => ¬ (now - p.2.2 > staleMs)) =
      s.hash.filter fun e => fresh now staleMs e.ts := by
    rw [hstore]
    exact List.filter_congr fun e _ => decide_not
  unfold Store.totalPresence
  dsimp only
  rw [hlive, foldl_count, Int.zero_add, Call.total_eq, hdel_stale h]

end RoomBackend.Presence
