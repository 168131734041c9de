import Mathlib.Data.List.Induction

/-!
# Sweeps over a list

A loop that walks a list once, rewrites or drops each element it visits, threads a state through
the visits, may raise an error, and leaves the rest of the list alone once a stop condition holds
of the state.

* `sweep`;
* `sweep_keeps`: what every visit keeps, the sweep keeps; `sweep_skip`, `sweep_first`: elements
  that are passed over, and the first that is not;
* **`sweep_spec`**: the rule for total correctness, with an invariant over the elements already
  passed, the state, and the elements to come;
* `sweep_append`, **`sweep_prefixes`**: the same with an invariant over the elements as they were.
-/

namespace Sweeping

variable {α σ ε : Type}

/-- Visit the elements in order until `stop`; a visit keeps an element (rewritten) or drops it. -/
def sweep (stop : σ → Bool) (visit : α → σ → Except ε (Option α × σ)) :
    List α → σ → Except ε (List α × σ)
  | [], s => .ok ([], s)
  | a :: l, s =>
    if stop s then .ok (a :: l, s)
    else do
      let (a', s) ← visit a s
      let (l', s) ← sweep stop visit l s
      return (a'.toList ++ l', s)

/-- A sequence of two computations succeeds when both do. -/
theorem bind_eq_ok {β : Type} {x : Except ε α} {f : α → Except ε β} {b : β} :
    x >>= f = .ok b ↔ ∃ a, x = .ok a ∧ f a = .ok b := by
  cases x with
  | error e => simp [bind, Except.bind]
  | ok a => simp [bind, Except.bind]

variable (stop : σ → Bool) (visit : α → σ → Except ε (Option α × σ))

/-- A sweep over one element visits it. -/
theorem sweep_singleton {a : α} {a' : Option α} {s s' : σ} (hs : stop s = false)
    (hv : visit a s = .ok (a', s')) : sweep stop visit [a] s = .ok (a'.toList, s') := by
  rw [sweep, hs, if_neg Bool.false_ne_true, hv]
  exact congrArg (fun l => Except.ok (l, s')) (List.append_nil _)

/-- A sweep that has to stop leaves everything alone. -/
theorem sweep_of_stop {s : σ} (hs : stop s = true) (l : List α) :
    sweep stop visit l s = .ok (l, s) := by
  cases l with
  | nil => rfl
  | cons a l => rw [sweep, if_pos hs]

/-- A sweep passes over elements that a visit leaves alone. -/
theorem sweep_skip {pre : List α} {s : σ} (h : ∀ a ∈ pre, visit a s = .ok (some a, s))
    (l : List α) :
    sweep stop visit (pre ++ l) s = sweep stop visit l s >>= fun r => .ok (pre ++ r.1, r.2) := by
  induction pre with
  | nil =>
    rw [List.nil_append]
    cases sweep stop visit l s <;> rfl
  | cons a pre ih =>
    rw [List.forall_mem_cons] at h
    by_cases hs : stop s = true
    · rw [sweep_of_stop stop visit hs, sweep_of_stop stop visit hs]
      rfl
    · rw [List.cons_append, sweep, if_neg hs, h.1]
      simp only [bind, Except.bind, ih h.2]
      cases sweep stop visit l s <;> rfl

/-- A sweep over two lists is a sweep over the one and then over the other. -/
theorem sweep_append {l₁ l₂ l₁' l₂' : List α} {s s₁ s₂ : σ}
    (h₁ : sweep stop visit l₁ s = .ok (l₁', s₁)) (h₂ : sweep stop visit l₂ s₁ = .ok (l₂', s₂)) :
    sweep stop visit (l₁ ++ l₂) s = .ok (l₁' ++ l₂', s₂) := by
  induction l₁ generalizing l₁' s with
  | nil =>
    obtain ⟨rfl, rfl⟩ := Prod.mk.inj (Except.ok.inj h₁)
    exact h₂
  | cons a l ih =>
    by_cases hs : stop s = true
    · rw [sweep_of_stop stop visit hs] at h₁
      obtain ⟨rfl, rfl⟩ := Prod.mk.inj (Except.ok.inj h₁)
      rw [sweep_of_stop stop visit hs] at h₂ ⊢
      obtain ⟨rfl, rfl⟩ := Prod.mk.inj (Except.ok.inj h₂)
      rfl
    · rw [sweep, if_neg hs] at h₁
      obtain ⟨⟨a', s'⟩, hv, h₁⟩ := bind_eq_ok.1 h₁
      obtain ⟨⟨l', s''⟩, hl, h₁⟩ := bind_eq_ok.1 h₁
      obtain ⟨rfl, rfl⟩ := Prod.mk.inj (Except.ok.inj h₁)
      rw [List.cons_append, sweep, if_neg hs, hv]
      simp only [bind, Except.bind, ih hl]
      rw [List.append_assoc]
      rfl

/-- What every successful visit keeps of the state, a successful sweep keeps. -/
theorem sweep_keeps {Q : σ → Prop}
    (hvisit : ∀ a s a' s', stop s = false → visit a s = .ok (a', s') → Q s → Q s') {l l' : List α}
    {s s' : σ} (h : sweep stop visit l s = .ok (l', s')) (hQ : Q s) : Q s' := by
  induction l generalizing l' s with
  | nil =>
    obtain ⟨-, rfl⟩ := Prod.mk.inj (Except.ok.inj h)
    exact hQ
  | cons a l ih =>
    rw [sweep] at h
    split_ifs at h with hs
    · obtain ⟨-, rfl⟩ := Prod.mk.inj (Except.ok.inj h)
      exact hQ
    · obtain ⟨⟨a', s₁⟩, hv, h⟩ := bind_eq_ok.1 h
      obtain ⟨⟨l₁, s₂⟩, hl, h⟩ := bind_eq_ok.1 h
      obtain ⟨-, rfl⟩ := Prod.mk.inj (Except.ok.inj h)
      exact ih hl (hvisit a s a' s₁ (Bool.eq_false_iff.2 hs) hv hQ)

/-- **The rule for the first element that a sweep does not pass over**: what its visit brings about
and every visit keeps, holds after the sweep. -/
theorem sweep_first {Q : σ → Prop} {pre post l' : List α} {a : α} {s s' : σ}
    (hskip : ∀ b ∈ pre, visit b s = .ok (some b, s)) (hs : stop s = false)
    (hfirst : ∀ a' t, visit a s = .ok (a', t) → Q t)
    (hvisit : ∀ b t b' t', stop t = false → visit b t = .ok (b', t') → Q t → Q t')
    (h : sweep stop visit (pre ++ a :: post) s = .ok (l', s')) : Q s' := by
  rw [sweep_skip stop visit hskip, sweep, if_neg (by rw [hs]; decide)] at h
  obtain ⟨⟨l₁, s₁⟩, hrun, h⟩ := bind_eq_ok.1 h
  obtain ⟨⟨a', t⟩, hv, hrun⟩ := bind_eq_ok.1 hrun
  obtain ⟨⟨l₂, s₂⟩, hl, hrun⟩ := bind_eq_ok.1 hrun
  cases hrun
  cases h
  exact sweep_keeps stop visit hvisit hl (hfirst a' t hv)

/-- **The invariant rule for sweeps.** If every visit succeeds and carries the invariant from the
elements before it to those up to it, then the sweep succeeds, it has passed some elements and not
the `rest`, and the rest is empty unless the stop condition holds. -/
theorem sweep_spec {I : List α → σ → List α → Prop}
    (hvisit : ∀ pre a post s, I pre s (a :: post) → stop s = false →
      ∃ a' s', visit a s = .ok (a', s') ∧ I (pre ++ a'.toList) s' post)
    (l pre : List α) (s : σ) (h : I pre s l) :
    ∃ mid rest s', sweep stop visit l s = .ok (mid ++ rest, s') ∧ I (pre ++ mid) s' rest ∧
      (rest = [] ∨ stop s' = true) := by
  induction l generalizing pre s with
  | nil => exact ⟨[], [], s, rfl, by simpa using h, Or.inl rfl⟩
  | cons a l ih =>
    by_cases hs : stop s = true
    · refine ⟨[], a :: l, s, ?_, by simpa using h, Or.inr hs⟩
      rw [sweep, if_pos hs]
      rfl
    · obtain ⟨a', s', hv, hI⟩ := hvisit pre a l s h (Bool.eq_false_iff.2 hs)
      obtain ⟨mid, rest, s'', hrun, hI', hrest⟩ := ih _ s' hI
      refine ⟨a'.toList ++ mid, rest, s'', ?_, by rwa [List.append_assoc] at hI', hrest⟩
      rw [sweep, if_neg hs, hv, List.append_assoc]
      simp only [bind, Except.bind, hrun]
      rfl

/-- **The prefix rule for sweeps.** An invariant over the elements of `l` already walked, visited
or not, and the state: a visit comes to its element from a sweep of the elements before it. -/
theorem sweep_prefixes {I : List α → σ → Prop} {l : List α} {s : σ} (h₀ : I [] s)
    (hvisit : ∀ pre a post pre' t, l = pre ++ a :: post → sweep stop visit pre s = .ok (pre', t) →
      I pre t → stop t = false → ∃ a' t', visit a t = .ok (a', t') ∧ I (pre ++ [a]) t')
    (hstop : ∀ pre a t, I pre t → stop t = true → I (pre ++ [a]) t) :
    ∃ l' t, sweep stop visit l s = .ok (l', t) ∧ I l t := by
  have hpre : ∀ pre post, l = pre ++ post → ∃ pre' t, sweep stop visit pre s = .ok (pre', t) ∧
      I pre t := by
    intro pre
    induction pre using List.reverseRecOn with
    | nil => exact fun _ _ => ⟨[], s, rfl, h₀⟩
    | append_singleton pre a ih =>
      intro post hl
      rw [List.append_assoc, List.singleton_append] at hl
      obtain ⟨pre', t, hrun, hI⟩ := ih (a :: post) hl
      by_cases hs : stop t = true
      · exact ⟨_, t, sweep_append stop visit hrun (sweep_of_stop stop visit hs [a]),
          hstop pre a t hI hs⟩
      · obtain ⟨a', t', hv, hI'⟩ := hvisit pre a post pre' t hl hrun hI (Bool.eq_false_iff.2 hs)
        exact ⟨_, t', sweep_append stop visit hrun
          (sweep_singleton stop visit (Bool.eq_false_iff.2 hs) hv), hI'⟩
  exact hpre l [] (List.append_nil l).symm

end Sweeping
