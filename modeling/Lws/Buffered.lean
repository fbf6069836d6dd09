/-
  Lws.Buffered — loops that collect values in a buffer of fixed size and write it out whole.

  A round may push one value. One that finds the buffer full writes it out first, and so does
  the end of the input, full or not. A log beside the state keeps what was pushed and what
  was written: whatever the rounds do, the batches written are all that was pushed, once and
  in order, and none is larger than the buffer (`logged_batched`).

  `logged_keeps` is the rule for what the writes and the rounds keep of the state, and
  `counted_pushed` says what a loop pushes that numbers its input.
-/

import Mathlib

namespace Lws.Buffered

variable {α β γ σ ε : Type}

/-- The buffer is written out when it is full. -/
def room (capacity : Nat) (flush : List β → σ → Except ε σ) (buffer : List β) (s : σ) : Except ε (List β × σ) :=
  if buffer.length = capacity then do
    let s ← flush buffer s
    .ok ([], s)
  else .ok (buffer, s)

def loop (capacity : Nat) (flush : List β → σ → Except ε σ) (step : α → σ → Except ε (σ × Option β)) :
    List α → List β → σ → Except ε σ
  | [], buffer, s => flush buffer s
  | x :: xs, buffer, s => do
    let (buffer, s) ← room capacity flush buffer s
    let (s, pushed) ← step x s
    loop capacity flush step xs (buffer ++ pushed.toList) s

/-! ## The log -/

structure Log (β : Type) where
  pushed : List β
  batches : List (List β)

/-- Every value was written once, in order, and no batch was larger than the buffer. -/
structure Log.Batched (capacity : Nat) (log : Log β) : Prop where
  once : log.batches.flatten = log.pushed
  bounded : ∀ batch ∈ log.batches, batch.length ≤ capacity

def logFlush (flush : List β → σ → Except ε σ) (batch : List β) (s : σ × Log β) : Except ε (σ × Log β) := do
  let t ← flush batch s.1
  .ok (t, { s.2 with batches := s.2.batches ++ [batch] })

def logStep (step : α → σ → Except ε (σ × Option β)) (x : α) (s : σ × Log β) : Except ε ((σ × Log β) × Option β) := do
  let (t, pushed) ← step x s.1
  .ok ((t, { s.2 with pushed := s.2.pushed ++ pushed.toList }), pushed)

/-- The loop, from an empty buffer, with a log. -/
def logged (capacity : Nat) (flush : List β → σ → Except ε σ) (step : α → σ → Except ε (σ × Option β)) (xs : List α)
    (s : σ) : Except ε (σ × Log β) :=
  loop capacity (logFlush flush) (logStep step) xs [] (s, ⟨[], []⟩)

variable {capacity : Nat} {flush : List β → σ → Except ε σ} {step : α → σ → Except ε (σ × Option β)}

theorem loop_logged (xs : List α) (buffer : List β) (s : σ) (log : Log β) :
    (loop capacity (logFlush flush) (logStep step) xs buffer (s, log)).map Prod.fst =
      loop capacity flush step xs buffer s := by
  have hflush : ∀ (buffer : List β) (s : σ) (log : Log β),
      (logFlush flush buffer (s, log)).map Prod.fst = flush buffer s := by
    intro buffer s log
    unfold logFlush
    rcases flush buffer s with e | t <;> rfl
  induction xs generalizing buffer s log with
  | nil => exact hflush buffer s log
  | cons x xs ih =>
    -- whatever room was made, the round and those after it see the same state
    have hround : ∀ (buffer : List β) (s : σ) (log : Log β),
        (logStep step x (s, log) >>= fun y =>
          loop capacity (logFlush flush) (logStep step) xs (buffer ++ y.2.toList) y.1).map Prod.fst =
        step x s >>= fun y => loop capacity flush step xs (buffer ++ y.2.toList) y.1 := by
      intro buffer s log
      unfold logStep
      rcases step x s with e | ⟨t, pushed⟩
      · rfl
      · exact ih _ _ _
    unfold loop room
    by_cases hfull : buffer.length = capacity
    · simp only [if_pos hfull]
      unfold logFlush
      rcases flush buffer s with e | t
      · rfl
      · exact hround [] t _
    · simp only [if_neg hfull]
      exact hround buffer s log

/-- What a write and a round keep, of the input so far, the buffer, the state and the log. -/
theorem loop_invariant (I : List α → List β → σ → Log β → Prop) (hcapacity : 0 < capacity)
    (hflush : ∀ done buffer s s' log, I done buffer s log → flush buffer s = .ok s' →
      I done [] s' { log with batches := log.batches ++ [buffer] })
    (hstep : ∀ done x buffer s s' pushed log, buffer.length ≠ capacity → I done buffer s log →
      step x s = .ok (s', pushed) →
      I (done ++ [x]) (buffer ++ pushed.toList) s' { log with pushed := log.pushed ++ pushed.toList })
    (xs done : List α) {buffer : List β} {s s' : σ} {log log' : Log β} (h0 : I done buffer s log)
    (h : loop capacity (logFlush flush) (logStep step) xs buffer (s, log) = .ok (s', log')) :
    I (done ++ xs) [] s' log' := by
  induction xs generalizing done buffer s log with
  | nil =>
    unfold loop logFlush at h
    rcases hrun : flush buffer s with e | t
    · rw [hrun] at h
      cases h
    · rw [hrun] at h
      cases h
      rw [List.append_nil]
      exact hflush done buffer s s' log h0 hrun
  | cons x xs ih =>
    have hround : ∀ (buffer : List β) (s : σ) (log : Log β), buffer.length ≠ capacity → I done buffer s log →
        (logStep step x (s, log) >>= fun y =>
          loop capacity (logFlush flush) (logStep step) xs (buffer ++ y.2.toList) y.1) = .ok (s', log') →
        I (done ++ x :: xs) [] s' log' := by
      intro buffer s log hlen hI h
      unfold logStep at h
      rcases hrun : step x s with e | ⟨t, pushed⟩
      · rw [hrun] at h
        cases h
      · rw [hrun] at h
        have hnext := ih (done ++ [x]) (hstep done x buffer s t pushed log hlen hI hrun) h
        rwa [List.append_assoc] at hnext
    unfold loop room at h
    by_cases hfull : buffer.length = capacity
    · simp only [if_pos hfull] at h
      unfold logFlush at h
      rcases hrun : flush buffer s with e | t
      · rw [hrun] at h
        cases h
      · rw [hrun] at h
        exact hround [] t _ (Nat.ne_of_lt hcapacity) (hflush done buffer s t log h0 hrun) h
    · simp only [if_neg hfull] at h
      exact hround buffer s log hfull h0 h

section Logged

variable {xs : List α} {s s' : σ} {log : Log β}

theorem logged_of_loop (h : loop capacity flush step xs [] s = .ok s') :
    ∃ log, logged capacity flush step xs s = .ok (s', log) := by
  have hmap := @loop_logged α β σ ε capacity flush step xs [] s ⟨[], []⟩
  rw [h] at hmap
  unfold logged
  rcases hrun : loop capacity (logFlush flush) (logStep step) xs [] (s, ⟨[], []⟩) with e | ⟨t, log⟩
  · rw [hrun] at hmap
    cases hmap
  · rw [hrun] at hmap
    cases hmap
    exact ⟨log, rfl⟩

theorem logged_batched (hcapacity : 0 < capacity) (h : logged capacity flush step xs s = .ok (s', log)) :
    log.Batched capacity := by
  have hI := loop_invariant (fun _ buffer _ log => log.batches.flatten ++ buffer = log.pushed ∧
      buffer.length ≤ capacity ∧ ∀ batch ∈ log.batches, batch.length ≤ capacity) hcapacity ?_ ?_ xs []
    ⟨rfl, Nat.zero_le _, by simp⟩ h
  · obtain ⟨honce, -, hbounded⟩ := hI
    exact ⟨by simpa using honce, hbounded⟩
  · rintro done buffer s s' log ⟨honce, hlen, hbounded⟩ -
    refine ⟨by simpa using honce, Nat.zero_le _, fun batch hb => ?_⟩
    rcases List.mem_append.mp hb with hb | hb
    · exact hbounded batch hb
    · rw [List.mem_singleton.mp hb]
      exact hlen
  · rintro done x buffer s s' pushed log hne ⟨honce, hlen, hbounded⟩ -
    refine ⟨by rw [← List.append_assoc, honce], ?_, hbounded⟩
    have hone : pushed.toList.length ≤ 1 := by cases pushed <;> simp
    rw [List.length_append]
    omega

/-- What the writes bring about for each batch, and the rounds leave. -/
theorem logged_keeps {P : σ → List β → Prop} (hcapacity : 0 < capacity)
    (hflush : ∀ batch s s' written, P s written → flush batch s = .ok s' → P s' (written ++ batch))
    (hstep : ∀ x s s' pushed written, P s written → step x s = .ok (s', pushed) → P s' written) (h0 : P s [])
    (h : logged capacity flush step xs s = .ok (s', log)) : P s' log.pushed := by
  have hI := loop_invariant (fun _ _ s log => P s log.batches.flatten) hcapacity ?_ ?_ xs [] h0 h
  · rwa [(logged_batched hcapacity h).once] at hI
  · intro _ buffer s s' log hP hrun
    rw [List.flatten_append, List.flatten_singleton]
    exact hflush buffer s s' _ hP hrun
  · intro _ x _ s s' pushed log _ hP hrun
    exact hstep x s s' pushed _ hP hrun

/-- A round that pushes only for its own input pushes for each input at most once. -/
theorem logged_sublist (f : β → γ) (g : α → γ) (hcapacity : 0 < capacity)
    (hstep : ∀ x s s' b, step x s = .ok (s', some b) → f b = g x)
    (h : logged capacity flush step xs s = .ok (s', log)) : (log.pushed.map f).Sublist (xs.map g) := by
  refine loop_invariant (fun done _ _ log => (log.pushed.map f).Sublist (done.map g)) hcapacity ?_ ?_ xs []
    (List.Sublist.refl _) h
  · intro _ _ _ _ _ hI _
    exact hI
  · intro done x _ s s' pushed log _ hI hrun
    rw [List.map_append, List.map_append]
    refine hI.append ?_
    cases pushed with
    | none => exact List.nil_sublist _
    | some b => simp [hstep x s s' b hrun]

end Logged

/-! ## Loops that number their input -/

/-- A round that pushes its input under the next number. -/
def count (value : Nat → α → β) (x : α) (s : Nat × σ) : Except ε ((Nat × σ) × Option β) :=
  .ok ((s.1 + 1, s.2), some (value s.1 x))

def always (write : List β → σ → σ) (batch : List β) (s : Nat × σ) : Except ε (Nat × σ) := .ok (s.1, write batch s.2)

theorem counted_pushed {value : Nat → α → β} {write : List β → σ → σ} {xs : List α} {first : Nat} {s : σ}
    {s' : Nat × σ} {log : Log β} (hcapacity : 0 < capacity)
    (h : logged capacity (always write) (count value : α → Nat × σ → Except ε _) xs (first, s) = .ok (s', log)) :
    log.pushed = (xs.zipIdx first).map fun x => value x.2 x.1 := by
  have hI := loop_invariant (fun done _ s log => s.1 = first + done.length ∧
      log.pushed = (done.zipIdx first).map fun x => value x.2 x.1) hcapacity ?_ ?_ xs [] ⟨rfl, rfl⟩ h
  · exact hI.2
  · rintro done buffer s s' log hI hrun
    cases hrun
    exact hI
  · rintro done x buffer s s' pushed log - ⟨hnum, hpushed⟩ hrun
    cases hrun
    refine ⟨?_, ?_⟩
    · simp [hnum, Nat.add_assoc]
    · simp [hpushed, hnum, List.zipIdx_append]

end Lws.Buffered
