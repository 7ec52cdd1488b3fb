import Mathlib.Logic.Function.Basic
import Mathlib.Data.List.Basic
import Mathlib.Data.List.Count

/-! # Deterministic labelled machines and their runs

A machine is a partial step function: a label is the scheduler's (and the environment's)
choice, and `step s l = none` says that the choice is not available in `s`.

* `Run C s ls t`: performing the labels `ls` leads from `s` to `t`, and every step is taken
  in a state and under a label that satisfy the side condition `C`.
* `Reaches C s`: some run from an initial state ends in `s`.
* `Run.trace`: what an admitted step keeps of a state and the labels that led to it, a run keeps.
* `Run.countP_le`: a measure bounds the number of the steps that decrease it.
* `beside`: the machine with a record that each step brings up to date.
* `Reaches.invariant`: what holds initially and is kept by every admitted step holds in every
  reached state; `Run.rel` is the two-state version (a preorder kept by every step).
* `exec`, `execs`: the executable counterparts, related to runs by `run_of_execs`. -/

namespace RoomBackend.Lts

variable {σ ℓ : Type*}

/-- A machine: initial states and a partial step function. -/
structure Machine (σ ℓ : Type*) where
  init : σ → Prop
  step : σ → ℓ → Option σ

/-- The side condition that admits every step. -/
def Free : σ → ℓ → Prop := fun _ _ => True

namespace Machine

variable (M : Machine σ ℓ)

/-- `Run C s ls t`: the labels `ls` lead from `s` to `t` through steps that satisfy `C`. -/
inductive Run (C : σ → ℓ → Prop) : σ → List ℓ → σ → Prop
  | nil (s : σ) : Run C s [] s
  | cons {s t u : σ} {l : ℓ} {ls : List ℓ} :
      C s l → M.step s l = some t → Run C t ls u → Run C s (l :: ls) u

/-- Some run of admitted steps from an initial state ends in `t`. -/
def Reaches (C : σ → ℓ → Prop) (t : σ) : Prop := ∃ s ls, M.init s ∧ M.Run C s ls t

/-! ### Runs -/

variable {M} {C C' : σ → ℓ → Prop}

theorem Run.append {s t u : σ} {ls ls' : List ℓ} (h : M.Run C s ls t) (h' : M.Run C t ls' u) :
    M.Run C s (ls ++ ls') u := by
  induction h with
  | nil => exact h'
  | cons hc hs _ ih => exact Run.cons hc hs (ih h')

theorem Run.snoc {s t u : σ} {l : ℓ} {ls : List ℓ} (h : M.Run C s ls t) (hc : C t l)
    (hs : M.step t l = some u) : M.Run C s (ls ++ [l]) u :=
  h.append (Run.cons hc hs (Run.nil u))

theorem Run.mono (hC : ∀ s l, C s l → C' s l) {s t : σ} {ls : List ℓ} (h : M.Run C s ls t) :
    M.Run C' s ls t := by
  induction h with
  | nil => exact Run.nil _
  | cons hc hs _ ih => exact Run.cons (hC _ _ hc) hs ih

/-- A reflexive and transitive relation kept by every admitted step relates the ends of a run. -/
theorem Run.rel {R : σ → σ → Prop} (hr : ∀ s, R s s) (ht : ∀ {s t u}, R s t → R t u → R s u)
    (hstep : ∀ s l t, C s l → M.step s l = some t → R s t) {s t : σ} {ls : List ℓ}
    (h : M.Run C s ls t) : R s t := by
  induction h with
  | nil s => exact hr s
  | cons hc hs _ ih => exact ht (hstep _ _ _ hc hs) ih

/-- What one admitted step preserves, a run preserves. -/
theorem Run.preserves {I : σ → Prop} (hstep : ∀ s l t, I s → C s l → M.step s l = some t → I t)
    {s t : σ} {ls : List ℓ} (h : M.Run C s ls t) (hs : I s) : I t := by
  induction h with
  | nil => exact hs
  | cons hc he _ ih => exact ih (hstep _ _ _ hs hc he)

/-- A measure that the chosen steps decrease and the others do not increase bounds how many of the
chosen ones a run takes. -/
theorem Run.countP_le {I : σ → Prop} {m : σ → ℕ} {p : ℓ → Bool}
    (hI : ∀ s l t, I s → C s l → M.step s l = some t → I t)
    (hp : ∀ s l t, I s → C s l → M.step s l = some t → p l = true → m t < m s)
    (hn : ∀ s l t, I s → C s l → M.step s l = some t → p l = false → m t ≤ m s) {s t : σ}
    {ls : List ℓ} (h : M.Run C s ls t) (hs : I s) : ls.countP p + m t ≤ m s := by
  induction h with
  | nil s => exact Nat.le_of_eq (Nat.zero_add _)
  | @cons s t u l ls hc he _ ih =>
      have hrest := ih (hI s l t hs hc he)
      cases hl : p l with
      | true =>
          have := hp s l t hs hc he hl
          rw [List.countP_cons_of_pos hl]
          omega
      | false =>
          have := hn s l t hs hc he hl
          rw [List.countP_cons_of_neg (by rw [hl]; exact Bool.false_ne_true)]
          omega

/-- What holds of a state and the labels that led to it holds at the end of a run, when every
admitted step that prolongs the run keeps it. -/
theorem Run.trace {I : List ℓ → σ → Prop} {s₀ : σ} (h0 : I [] s₀)
    (hstep : ∀ ls s l t, M.Run C s₀ ls s → I ls s → C s l → M.step s l = some t → I (ls ++ [l]) t)
    {ls : List ℓ} {t : σ} (h : M.Run C s₀ ls t) : I ls t := by
  have key : ∀ {s t ls}, M.Run C s ls t → ∀ pre, M.Run C s₀ pre s → I pre s → I (pre ++ ls) t := by
    intro s t ls h
    induction h with
    | nil =>
        intro pre _ hI
        rwa [List.append_nil]
    | cons hc hs _ ih =>
        intro pre hpre hI
        have hnext := ih _ (hpre.snoc hc hs) (hstep _ _ _ _ hpre hI hc hs)
        rwa [List.append_assoc] at hnext
  exact key h [] (Run.nil s₀) h0

/-! ### Reached states -/

theorem Reaches.mono (hC : ∀ s l, C s l → C' s l) {t : σ} (h : M.Reaches C t) :
    M.Reaches C' t := by
  obtain ⟨s, ls, hi, hr⟩ := h
  exact ⟨s, ls, hi, hr.mono hC⟩

theorem Reaches.step {t u : σ} {l : ℓ} (h : M.Reaches C t) (hc : C t l)
    (hs : M.step t l = some u) : M.Reaches C u := by
  obtain ⟨s, ls, hi, hr⟩ := h
  exact ⟨s, ls ++ [l], hi, hr.snoc hc hs⟩

/-- What a run leads to from a reached state is reached. -/
theorem Reaches.run {t u : σ} {ls : List ℓ} (h : M.Reaches C t) (hr : M.Run C t ls u) :
    M.Reaches C u := by
  obtain ⟨s, ls₀, hi, hr₀⟩ := h
  exact ⟨s, ls₀ ++ ls, hi, hr₀.append hr⟩

/-- What every admitted step from a reached state preserves, a run from one preserves. -/
theorem Reaches.preserves {I : σ → Prop} {s t : σ} {ls : List ℓ} (h : M.Reaches C s)
    (hr : M.Run C' s ls t) (hC : ∀ s l, C' s l → C s l)
    (hstep : ∀ s l t, M.Reaches C s → I s → C' s l → M.step s l = some t → I t) (hI : I s) :
    I t := by
  have key : M.Reaches C t ∧ I t := by
    refine hr.preserves (I := fun s => M.Reaches C s ∧ I s) ?_ ⟨h, hI⟩
    rintro s l t ⟨hs, hI⟩ hc he
    exact ⟨hs.step (hC s l hc) he, hstep s l t hs hI hc he⟩
  exact key.2

/-- **Invariants**: what holds initially and is kept by every admitted step holds in every
reached state. -/
theorem Reaches.invariant {I : σ → Prop} (h0 : ∀ s, M.init s → I s)
    (hstep : ∀ s l t, I s → C s l → M.step s l = some t → I t) {t : σ} (h : M.Reaches C t) :
    I t := by
  obtain ⟨s, ls, hi, hr⟩ := h
  exact hr.preserves hstep (h0 s hi)

/-- An invariant may lean on one that is already known to hold in every reached state. -/
theorem Reaches.invariant_of {J I : σ → Prop} (hJ : ∀ s, M.Reaches C s → J s)
    (h0 : ∀ s, M.init s → I s)
    (hstep : ∀ s l t, J s → I s → C s l → M.step s l = some t → I t) {t : σ}
    (h : M.Reaches C t) : I t := by
  obtain ⟨s, ls, hi, hr⟩ := h
  have hs : M.Reaches C s := ⟨s, [], hi, Run.nil s⟩
  exact hs.preserves hr (fun _ _ hc => hc) (fun s l t hs => hstep s l t (hJ s hs)) (h0 s hi)

/-- A machine that does as another does in one of its components reaches there what the other
does. -/
theorem Reaches.image {τ : Type*} {N : Machine τ ℓ} (π : τ → σ) (hi : ∀ s, N.init s → M.init (π s))
    (hs : ∀ s l t, N.step s l = some t → M.step (π s) l = some (π t)) {t : τ}
    (h : N.Reaches (fun s l => C (π s) l) t) : M.Reaches C (π t) := by
  obtain ⟨s, ls, hinit, hr⟩ := h
  refine ⟨π s, ls, hi s hinit, ?_⟩
  clear hinit
  induction hr with
  | nil => exact Run.nil _
  | cons hc he _ ih => exact Run.cons hc (hs _ _ _ he) ih

/-! ### A record beside a machine -/

section beside

variable {γ : Type*} {g₀ : γ} {next : σ → ℓ → σ → γ → γ}

/-- The machine, and a record that each step brings up to date. -/
def beside (M : Machine σ ℓ) (g₀ : γ) (next : σ → ℓ → σ → γ → γ) : Machine (σ × γ) ℓ :=
  { init := fun x => M.init x.1 ∧ x.2 = g₀
    step := fun x l => (M.step x.1 l).map fun t => (t, next x.1 l t x.2) }

variable {D : σ × γ → ℓ → Prop}

/-- A condition on the state and its record restricts the machine by what it says of the state. -/
theorem Reaches.fst_of (hD : ∀ x l, D x l → C x.1 l) {x : σ × γ}
    (h : (M.beside g₀ next).Reaches D x) : M.Reaches C x.1 := by
  have hstate : (M.beside g₀ next).Reaches (fun x l => C x.1 l) x := h.mono hD
  refine Reaches.image (M := M) Prod.fst (fun s hs => And.left hs) (fun s l t ht => ?_) hstate
  obtain ⟨u, hu, rfl⟩ := Option.map_eq_some_iff.mp ht
  exact hu

/-- The record does not restrict the machine. -/
theorem Reaches.fst {x : σ × γ} (h : (M.beside g₀ next).Reaches D x) : M.Reaches Free x.1 :=
  h.fst_of fun _ _ _ => trivial

/-- What each step of the machine keeps between state and record holds of every run. -/
theorem Reaches.beside {I : σ → γ → Prop} (h0 : ∀ s, M.init s → I s g₀)
    (hstep : ∀ s g l t, M.Reaches Free s → M.step s l = some t → I s g → I t (next s l t g))
    {x : σ × γ} (h : (M.beside g₀ next).Reaches D x) : I x.1 x.2 := by
  refine Reaches.invariant_of (J := fun x => M.Reaches Free x.1) (I := fun x => I x.1 x.2)
    (fun x hx => hx.fst) ?_ ?_ h
  · rintro ⟨s, g⟩ ⟨hs, rfl⟩
    exact h0 s hs
  · rintro ⟨s, g⟩ l y hJ hI _ hy
    obtain ⟨t, ht, rfl⟩ := Option.map_eq_some_iff.mp hy
    exact hstep s g l t hJ ht hI

end beside

/-! ### Images of a machine -/

/-- The labels of a run determine where it ends. -/
theorem Run.unique {s t u : σ} {ls : List ℓ} (h : M.Run C s ls t) (h' : M.Run C' s ls u) :
    t = u := by
  induction h with
  | nil => cases h'; rfl
  | cons _ hs _ ih =>
      cases h' with
      | cons _ hs' hr' =>
          rw [hs] at hs'
          cases hs'
          exact ih hr'

variable {τ : Type*} {N : Machine τ ℓ} {π : σ → τ}

/-- When the steps of `N` in images are the images of the steps of `M`, so are its runs. -/
theorem Run.map (hN : ∀ s l, N.step (π s) l = (M.step s l).map π) {s t : σ} {ls : List ℓ}
    (h : M.Run Free s ls t) : N.Run Free (π s) ls (π t) := by
  induction h with
  | nil => exact Run.nil _
  | cons _ hs _ ih => exact Run.cons trivial (by rw [hN, hs]; rfl) ih

/-- And every run of `N` from an image is the image of a run. -/
theorem Run.of_map (hN : ∀ s l, N.step (π s) l = (M.step s l).map π) {s : σ} {v : τ} {ls : List ℓ}
    (h : N.Run Free (π s) ls v) : ∃ t, M.Run Free s ls t ∧ v = π t := by
  generalize hs : π s = u at h
  induction h generalizing s with
  | nil => exact ⟨s, Run.nil s, hs.symm⟩
  | cons _ he _ ih =>
      rw [← hs, hN] at he
      obtain ⟨t, ht, rfl⟩ := Option.map_eq_some_iff.mp he
      obtain ⟨r, hr, hv⟩ := ih rfl
      exact ⟨r, Run.cons trivial ht hr, hv⟩

/-! ### Execution -/

variable (M)

/-- Perform a list of labels, checking the side condition before each of them. -/
def execs (c : σ → ℓ → Bool) : σ → List ℓ → Option σ
  | s, [] => some s
  | s, l :: ls => if c s l then (M.step s l).bind (fun t => execs c t ls) else none

variable {M}

theorem run_of_execs {c : σ → ℓ → Bool} (hc : ∀ s l, c s l = true → C s l) :
    ∀ {ls : List ℓ} {s t : σ}, M.execs c s ls = some t → M.Run C s ls t
  | [], s, t, h => by
      obtain rfl : s = t := Option.some.inj h
      exact Run.nil s
  | l :: ls, s, t, h => by
      rw [execs] at h
      split at h
      · rename_i hcl
        obtain ⟨u, hu, h'⟩ := Option.bind_eq_some_iff.mp h
        exact Run.cons (hc s l hcl) hu (run_of_execs hc h')
      · cases h

/-- A successful execution from an initial state reaches its end. -/
theorem reaches_of_execs {c : σ → ℓ → Bool} (hc : ∀ s l, c s l = true → C s l) {ls : List ℓ}
    {s t : σ} (hi : M.init s) (h : M.execs c s ls = some t) : M.Reaches C t :=
  ⟨s, ls, hi, run_of_execs hc h⟩

end Machine

/-! ### Pointwise updates of a family of components -/

section update

variable {ι α : Type*} [DecidableEq ι]

/-- Updating one component keeps a property of all components when the new one has it. -/
theorem forall_update {P : ι → α → Prop} {f : ι → α} {i : ι} {a : α} (h : ∀ j, P j (f j))
    (ha : P i a) : ∀ j, P j (Function.update f i a j) := by
  intro j
  by_cases hj : j = i
  · subst hj; simpa using ha
  · simpa [hj] using h j

end update

end RoomBackend.Lts
