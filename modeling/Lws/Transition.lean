/-
  Lws.Transition — runs of a system whose operations may fail.

  An operation takes a state to a new one or to an error, and a failed operation leaves
  the state as it was (`commit`). `Steps run ok s t` says that `t` is reached from `s`
  by operations each of which met `ok` in the state it started from. A fact about whole
  runs follows from one about a successful operation (`Steps.invariant`).
-/

import Mathlib

namespace Lws.Transition

variable {σ ι ε : Type}

def commit (run : ι → σ → Except ε σ) (i : ι) (s : σ) : σ :=
  match run i s with
  | .ok s' => s'
  | .error _ => s

theorem commit_of_ok {run : ι → σ → Except ε σ} {i : ι} {s s' : σ} (h : run i s = .ok s') : commit run i s = s' := by
  unfold commit; rw [h]

theorem commit_of_error {run : ι → σ → Except ε σ} {i : ι} {s : σ} {e : ε} (h : run i s = .error e) :
    commit run i s = s := by
  unfold commit; rw [h]

/-- A failed operation leaves the state unchanged. -/
theorem commit_cases (run : ι → σ → Except ε σ) (i : ι) (s : σ) :
    commit run i s = s ∨ run i s = .ok (commit run i s) := by
  unfold commit
  split
  · rename_i s' h
    exact Or.inr h
  · exact Or.inl rfl

inductive Steps (run : ι → σ → Except ε σ) (ok : σ → ι → Prop) (s : σ) : σ → Prop where
  | refl : Steps run ok s s
  | step {t : σ} (i : ι) : Steps run ok s t → ok t i → Steps run ok s (commit run i t)

variable {run : ι → σ → Except ε σ} {ok : σ → ι → Prop} {s t : σ}

/-- What holds at the start and is kept by every successful operation holds throughout. -/
theorem Steps.invariant (inv : σ → Prop) (h0 : inv s)
    (hstep : ∀ u i u', inv u → ok u i → run i u = .ok u' → inv u') (h : Steps run ok s t) : inv t := by
  induction h with
  | refl => exact h0
  | step i _ hi ih =>
    rcases commit_cases run i _ with he | he
    · rw [he]; exact ih
    · exact hstep _ i _ ih hi he

theorem Steps.mono {ok' : σ → ι → Prop} (hok : ∀ u i, ok u i → ok' u i) (h : Steps run ok s t) : Steps run ok' s t := by
  induction h with
  | refl => exact .refl
  | step i _ hi ih => exact .step i ih (hok _ i hi)

theorem Steps.trans {u : σ} (h : Steps run ok s t) (h' : Steps run ok t u) : Steps run ok s u := by
  induction h' with
  | refl => exact h
  | step i _ hi ih => exact .step i ih hi

/-- One successful operation after a run. -/
theorem Steps.snoc {t' : σ} (h : Steps run ok s t) (i : ι) (hi : ok t i) (ht : run i t = .ok t') : Steps run ok s t' :=
  commit_of_ok ht ▸ .step i h hi

def runAll (run : ι → σ → Except ε σ) (ops : List ι) (s : σ) : σ := ops.foldl (fun s i => commit run i s) s

/-- Each operation of the list meets `ok` in the state it starts from. -/
def AllOk (run : ι → σ → Except ε σ) (ok : σ → ι → Prop) : List ι → σ → Prop
  | [], _ => True
  | i :: ops, s => ok s i ∧ AllOk run ok ops (commit run i s)

instance decidableAllOk [∀ s i, Decidable (ok s i)] : ∀ (ops : List ι) (s : σ), Decidable (AllOk run ok ops s)
  | [], _ => inferInstanceAs (Decidable True)
  | i :: ops, s =>
    have := decidableAllOk ops (commit run i s)
    inferInstanceAs (Decidable (ok s i ∧ AllOk run ok ops (commit run i s)))

theorem steps_runAll : ∀ (ops : List ι) (s : σ), AllOk run ok ops s → Steps run ok s (runAll run ops s) := by
  intro ops
  induction ops with
  | nil => intro s _; exact .refl
  | cons i ops ih =>
    intro s h
    have hone : Steps run ok s (commit run i s) := .step i .refl h.1
    exact hone.trans (ih _ h.2)

end Lws.Transition
