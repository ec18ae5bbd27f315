import Mathlib.Data.List.Basic

/-!
# Runs of guarded deterministic machines

Every component of the development is a machine given by two pieces of data: a **guard**, which
says in which states an operation may be issued, and a total **execution** function, which says
what the operation does. A run is then a list of operations, each of them permitted in the state in
which it is issued.

Keeping the guard apart from the execution is what lets one model serve two readings of the same
source: the execution never changes, and a wider or a narrower discipline on its callers is another
guard over it.

## The rules

* `Runs.invariant` — what holds initially and is preserved by every permitted step holds in every
  state reached;
* `Runs.snoc` / `Runs.append` — runs are extended at the end and composed;
* `permitted_iff_forall` — where the guard is exact for a property, the runs are the lists of
  operations that never leave it;
* `runs_iff_permitted` — a run is its list of operations, and where guards are decidable so is
  whether a list of operations is a run.
-/

/-- A **guarded machine**: the operations, when each may be issued, and what each does. -/
structure Machine (σ α : Type*) where
  /-- The operation may be issued in this state. -/
  guard : σ → α → Prop
  exec : σ → α → σ

namespace Machine

variable {σ α : Type*}

/-- `M.Runs s ops t`: issuing `ops` in order from `s`, each permitted where it is issued, ends in
`t`. -/
inductive Runs (M : Machine σ α) : σ → List α → σ → Prop
  | nil (s : σ) : Runs M s [] s
  | cons {s t : σ} {a : α} {ops : List α} :
      M.guard s a → Runs M (M.exec s a) ops t → Runs M s (a :: ops) t

variable {M : Machine σ α} {ops : List α} {s t : σ} {I : σ → Prop}

theorem Runs.append {u : σ} {ops' : List α} (h : M.Runs s ops t) (h' : M.Runs t ops' u) :
    M.Runs s (ops ++ ops') u := by
  induction h with
  | nil => exact h'
  | cons hg _ ih => exact .cons hg (ih h')

theorem Runs.snoc {a : α} (h : M.Runs s ops t) (hg : M.guard t a) :
    M.Runs s (ops ++ [a]) (M.exec t a) :=
  h.append (.cons hg (.nil _))

/-- **Inductive invariants.** -/
theorem Runs.invariant (hstep : ∀ s a, I s → M.guard s a → I (M.exec s a)) (h : M.Runs s ops t)
    (hs : I s) : I t := by
  induction h with
  | nil => exact hs
  | cons hg _ ih => exact ih (hstep _ _ hs hg)

/-- Inductive invariants of the runs that issue only operations of one kind. -/
theorem Runs.invariant_of_forall {P : α → Prop}
    (hstep : ∀ s a, P a → I s → M.guard s a → I (M.exec s a))
    (h : M.Runs s ops t) (hops : ∀ a ∈ ops, P a) (hs : I s) : I t := by
  induction h with
  | nil => exact hs
  | cons hg _ ih =>
    exact ih (fun a ha ↦ hops a (by simp [ha])) (hstep _ _ (hops _ (by simp)) hs hg)

/-! ### Runs by evaluation -/

/-- Every operation of the list is permitted where it is issued. -/
def Permitted (M : Machine σ α) : σ → List α → Prop
  | _, [] => True
  | s, a :: ops => M.guard s a ∧ M.Permitted (M.exec s a) ops

instance decidablePermitted (M : Machine σ α) [∀ s a, Decidable (M.guard s a)] :
    ∀ s ops, Decidable (M.Permitted s ops)
  | _, [] => inferInstanceAs (Decidable True)
  | s, a :: ops =>
    have := decidablePermitted M (M.exec s a) ops
    inferInstanceAs (Decidable (_ ∧ _))

/-- The state a list of operations leads to. -/
def final (M : Machine σ α) (s : σ) (ops : List α) : σ := ops.foldl M.exec s

theorem runs_iff_permitted : M.Runs s ops t ↔ M.Permitted s ops ∧ t = M.final s ops := by
  constructor
  · intro h
    induction h with
    | nil => exact ⟨trivial, rfl⟩
    | cons hg _ ih => exact ⟨⟨hg, ih.1⟩, ih.2⟩
  · rintro ⟨hp, rfl⟩
    induction ops generalizing s with
    | nil => exact .nil s
    | cons a ops ih => exact .cons hp.1 (ih hp.2)

theorem Permitted.runs (h : M.Permitted s ops) : M.Runs s ops (M.final s ops) :=
  runs_iff_permitted.2 ⟨h, rfl⟩

/-- A state that is reached, with what is known of it as the end of a run and by evaluation. -/
theorem Permitted.exists_runs {P : σ → Prop} (h : M.Permitted s ops)
    (hP : ∀ t, M.Runs s ops t → t = M.final s ops → P t) : ∃ t, M.Runs s ops t ∧ P t :=
  ⟨_, h.runs, hP _ h.runs rfl⟩

/-- What an evaluation says of the state that it ends in. -/
theorem of_map_eq {o : Option σ} {x : σ} {f : σ → α} {a : α} (h : o = some x)
    (hf : o.map f = some a) : f x = a := by
  subst h
  exact Option.some.inj hf

/-- A state that is reached, of a machine that may fail. -/
theorem Permitted.exists_some {M : Machine (Option σ) α} {s : Option σ} {P : σ → Prop}
    [DecidablePred P] (h : M.Permitted s ops) (hP : (M.final s ops).any (P ·) = true) :
    ∃ t, M.Runs s ops (some t) ∧ P t := by
  obtain ⟨t, ht, hPt⟩ := (Option.any_eq_true _ _).1 hP
  exact ⟨t, ht ▸ h.runs, of_decide_eq_true hPt⟩

/-- **Exact guards.** Where `J` is kept by every operation and, under `J` and `I`, an operation
keeps `I` exactly when it is permitted, a list of operations is a run exactly when `I` holds in
every state it goes through. -/
theorem permitted_iff_forall {J : σ → Prop} (hkeep : ∀ s a, J s → J (M.exec s a))
    (hexact : ∀ s a, J s → I s → (M.guard s a ↔ I (M.exec s a))) (hJ : J s) (hI : I s)
    (ops : List α) : M.Permitted s ops ↔ ∀ done, done <+: ops → I (M.final s done) := by
  induction ops generalizing s with
  | nil => simpa [Permitted, final] using hI
  | cons a ops ih =>
    constructor
    · rintro ⟨hg, hrest⟩ done hdone
      rcases List.prefix_cons_iff.1 hdone with rfl | ⟨t, rfl, ht⟩
      · exact hI
      · exact (ih (hkeep s a hJ) ((hexact s a hJ hI).1 hg)).1 hrest t ht
    · intro h
      have hstep : I (M.exec s a) := h [a] (by simp)
      refine ⟨(hexact s a hJ hI).2 hstep, (ih (hkeep s a hJ) hstep).2 fun t ht ↦ ?_⟩
      exact h (a :: t) (by simpa using ht)

end Machine
