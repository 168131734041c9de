import AetherMoE.Core.RingSafety

/-!
# Progress of the ring buffer

A round of the loops of `spmc_ring_buffer.hpp` is repeated for two reasons only: another thread has
moved the cursor on since it was loaded, or the weak compare-exchange failed for no reason.

* `Kind`, `Move`, `move`, `Moved`: the steps, with what each is to the thread that makes it;
* `Local.rank`, `lag`, `potential`: the steps that are left when nobody interferes;
* `act_potential`, `potential_le`: a thread pays for its own steps, and others add to its bill only
  by winning a ticket of its kind;
* **`ring_lock_free`**: every thread's steps are bounded by the successes of its rivals.
-/

namespace AetherMoE.Ring

open Relation Stepping

variable {τ α : Type}

/-! ## Steps and what they are -/

/-- The two calls. -/
inductive Kind
  | push
  | pop
  deriving Repr, DecidableEq

/-- What a step is to the thread that makes it: the start of a call, a won compare-exchange, a
compare-exchange that failed although the cursor was as expected, or other work. -/
inductive Move
  | call (κ : Kind)
  | claim (κ : Kind)
  | spurious
  | work
  deriving Repr, DecidableEq

/-- What the step from `l` to `l'` is. -/
def move (m : Memory α) : Local α → Local α → Move
  | .idle, .pushLoad _ => .call .push
  | .idle, .popLoad => .call .pop
  | .pushCas _ _, .pushWrite _ _ => .claim .push
  | .popCas _, .popRead _ => .claim .pop
  | .pushCas _ pos, .pushSeq _ _ => if m.enqueuePos = pos then .spurious else .work
  | .popCas pos, .popSeq _ => if m.dequeuePos = pos then .spurious else .work
  | _, _ => .work

/-- A step of some thread, with what it is. -/
inductive Moved [DecidableEq τ] (k : ℕ) (moved : α → α) :
    State τ α → List (τ × Move) → State τ α → Prop
  | act (s : State τ α) (i : τ) (m : Memory α) (l : Local α) :
      Act k moved s.mem (s.threads i) m l →
      Moved k moved s [(i, move s.mem (s.threads i) l)] ⟨m, Function.update s.threads i l⟩

/-- The call that a thread is in. -/
def Local.kind : Local α → Option Kind
  | .idle => none
  | .pushLoad _ => some .push
  | .pushSeq _ _ => some .push
  | .pushCas _ _ => some .push
  | .pushWrite _ _ => some .push
  | .pushPublish _ => some .push
  | .popLoad => some .pop
  | .popSeq _ => some .pop
  | .popCas _ => some .pop
  | .popRead _ => some .pop
  | .popRelease _ => some .pop

/-! ## The steps that are left -/

/-- The steps to the end of the call, for a thread that is not disturbed. -/
def Local.rank : Local α → ℕ
  | .idle => 0
  | .pushPublish _ => 1
  | .pushWrite _ _ => 2
  | .pushCas _ _ => 3
  | .pushSeq _ _ => 4
  | .pushLoad _ => 5
  | .popRelease _ => 1
  | .popRead _ => 2
  | .popCas _ => 3
  | .popSeq _ => 4
  | .popLoad => 5

/-- What a thread pays for the cursor having moved on since it was loaded. -/
def lag (m : Memory α) : Local α → ℕ
  | .pushSeq _ pos => if m.enqueuePos = pos then 0 else 2
  | .pushCas _ pos => if m.enqueuePos = pos then 0 else 2
  | .popSeq pos => if m.dequeuePos = pos then 0 else 2
  | .popCas pos => if m.dequeuePos = pos then 0 else 2
  | _ => 0

/-- The potential of a thread. -/
def potential (m : Memory α) (l : Local α) : ℕ := l.rank + lag m l

/-- What a step costs beyond itself: a call is paid for in advance, a round after a spurious
failure when it happens. -/
def Move.cost : Move → ℕ
  | .call _ => 6
  | .spurious => 2
  | _ => 0

/-- What a step costs another thread. -/
def Move.harm (l : Local α) : Move → ℕ
  | .claim κ => if l.kind = some κ then 2 else 0
  | _ => 0

variable {k : ℕ} {h : ℕ → ℕ} {m m' : Memory α} {l l' : Local α} {moved : α → α}

theorem lag_le (m : Memory α) (l : Local α) : lag m l ≤ 2 := by
  cases l with
  | pushSeq | pushCas | popSeq | popCas =>
    simp only [lag]
    split_ifs <;> omega
  | _ => exact Nat.zero_le 2

theorem potential_le_six (m : Memory α) (l : Local α) : potential m l ≤ 6 := by
  have hlag := lag_le m l
  cases l with
  | pushLoad | popLoad => exact Nat.le_succ 5
  | _ =>
    simp only [potential, Local.rank]
    omega

/-- A push finds its cell ahead of it only when the cursor has moved on. -/
theorem Shared.push_behind (hS : Shared k h m) (hB : Bounded k m) {pos : Word}
    (hp : pos.toNat ≤ m.enqueuePos.toNat)
    (hd : 0 < signedDiff (m.sequence (cellOf k pos)) pos) : m.enqueuePos ≠ pos := by
  rintro rfl
  rw [hS.push_diff hB hp] at hd
  have hlt : 2 * (m.enqueuePos.toNat / capacity k) < h (m.enqueuePos.toNat % capacity k) := by
    apply (turnValue_strictMono k (m.enqueuePos.toNat % capacity k)).lt_iff_lt.mp
    rw [turnValue_free]
    omega
  exact Nat.lt_irrefl _ (hS.lt_enqueue _ hlt)

theorem Shared.pop_behind (hS : Shared k h m) (hB : Bounded k m) {pos : Word}
    (hp : pos.toNat ≤ m.dequeuePos.toNat)
    (hd : 0 < signedDiff (m.sequence (cellOf k pos)) (pos + 1)) : m.dequeuePos ≠ pos := by
  rintro rfl
  rw [hS.pop_diff hB hp] at hd
  have hlt : 2 * (m.dequeuePos.toNat / capacity k) + 1 < h (m.dequeuePos.toNat % capacity k) := by
    apply (turnValue_strictMono k (m.dequeuePos.toNat % capacity k)).lt_iff_lt.mp
    rw [turnValue_full]
    omega
  exact Nat.lt_irrefl _ (hS.lt_dequeue _ hlt)

/-- **A thread pays for each of its steps**, with its potential or with the cost of the step. -/
theorem act_potential (ha : Act k moved m l m' l') (hS : Shared k h m) (hL : LocalInv k h m l)
    (hB : Bounded k m) : potential m' l' + 1 ≤ potential m l + (move m l l').cost := by
  cases ha with
  | pushLoad item | popLoad => simp [potential, Local.rank, lag]
  | pushBehind item pos hd =>
    have hne := hS.push_behind hB hL hd
    simp [potential, Local.rank, lag, hne]
  | popBehind pos hd =>
    have hne := hS.pop_behind hB hL hd
    simp [potential, Local.rank, lag, hne]
  | pushCasFail item pos | popCasFail pos =>
    simp only [potential, Local.rank, lag, move, if_true]
    split_ifs <;> simp [Move.cost]
  | pushTurn item pos | popTurn pos | pushFull item pos | popEmpty pos | pushCasWin item pos
  | popCasWin pos =>
    simp only [potential, Local.rank, lag]
    omega
  | beginPush | pushWrite | pushPublish | beginPop | popRead | popRelease =>
    simp [potential, Local.rank, lag, move, Move.cost]

/-- **Another thread adds to the bill** only when it wins a ticket of the same kind. -/
theorem potential_le (ha : Act k moved m l m' l') (l₂ : Local α) :
    potential m' l₂ ≤ potential m l₂ + (move m l l').harm l₂ := by
  have hsame : m'.enqueuePos = m.enqueuePos → m'.dequeuePos = m.dequeuePos →
      potential m' l₂ = potential m l₂ := by
    intro he hd
    cases l₂ <;> simp only [potential, lag, he, hd]
  have hle : potential m' l₂ ≤ potential m l₂ + 2 := by
    have := lag_le m' l₂
    unfold potential
    omega
  cases ha with
  | pushCasWin item pos he =>
    by_cases hκ : l₂.kind = some .push
    · simpa only [move, Move.harm, hκ, if_true] using hle
    · refine le_trans (le_of_eq ?_) (Nat.le_add_right _ _)
      cases l₂ <;> first | rfl | exact absurd rfl hκ
  | popCasWin pos he =>
    by_cases hκ : l₂.kind = some .pop
    · simpa only [move, Move.harm, hκ, if_true] using hle
    · refine le_trans (le_of_eq ?_) (Nat.le_add_right _ _)
      cases l₂ <;> first | rfl | exact absurd rfl hκ
  | _ => exact (hsame rfl rfl).le.trans (Nat.le_add_right _ _)

/-- A call stays what it is. -/
theorem act_kind (ha : Act k moved m l m' l') {κ : Kind} (hκ : l'.kind = some κ) :
    l.kind = some κ ∨ move m l l' = .call κ := by
  cases ha <;> simp_all [Local.kind, move]

/-- A thread inside a call is never stuck. -/
theorem act_enabled (k : ℕ) (moved : α → α) (m : Memory α) (hl : l.kind ≠ none) :
    ∃ m' l', Act k moved m l m' l' := by
  cases l with
  | idle => exact absurd rfl hl
  | pushLoad item => exact ⟨_, _, .pushLoad m item⟩
  | pushSeq item pos =>
    rcases lt_trichotomy (signedDiff (m.sequence (cellOf k pos)) pos) 0 with hd | hd | hd
    · exact ⟨_, _, .pushFull m item pos hd⟩
    · exact ⟨_, _, .pushTurn m item pos hd⟩
    · exact ⟨_, _, .pushBehind m item pos hd⟩
  | pushCas item pos => exact ⟨_, _, .pushCasFail m item pos⟩
  | pushWrite item pos => exact ⟨_, _, .pushWrite m item pos⟩
  | pushPublish pos => exact ⟨_, _, .pushPublish m pos⟩
  | popLoad => exact ⟨_, _, .popLoad m⟩
  | popSeq pos =>
    rcases lt_trichotomy (signedDiff (m.sequence (cellOf k pos)) (pos + 1)) 0 with hd | hd | hd
    · exact ⟨_, _, .popEmpty m pos hd⟩
    · exact ⟨_, _, .popTurn m pos hd⟩
    · exact ⟨_, _, .popBehind m pos hd⟩
  | popCas pos => exact ⟨_, _, .popCasFail m pos⟩
  | popRead pos => exact ⟨_, _, .popRead m pos⟩
  | popRelease pos => exact ⟨_, _, .popRelease m pos⟩

/-! ## Runs -/

section Runs

variable [DecidableEq τ] {i j : τ} {κ : Kind} {out : List (τ × Move)} {s t : State τ α}

/-- The steps of thread `i`. -/
def steps (i : τ) (out : List (τ × Move)) : ℕ := out.countP fun x => x.1 = i

/-- The tickets of kind `κ` that other threads than `i` have won. -/
def rivals (i : τ) (κ : Kind) (out : List (τ × Move)) : ℕ :=
  out.countP fun x => x.1 ≠ i ∧ x.2 = .claim κ

/-- What thread `i` may spend: on the call it is in, on its further calls, on its spurious
failures, and on the tickets its rivals win. -/
def budget (i : τ) (κ : Kind) (out : List (τ × Move)) : ℕ :=
  6 + 6 * out.count (i, .call κ) + 2 * out.count (i, .spurious) + 2 * rivals i κ out

/-- Thread `i` makes calls of kind `κ` only. -/
def Only (i : τ) (κ : Kind) (out : List (τ × Move)) : Prop := ∀ κ', (i, .call κ') ∈ out → κ' = κ

theorem budget_own {mv : Move} (hκ : ∀ κ', mv = .call κ' → κ' = κ) :
    budget i κ (out ++ [(i, mv)]) = budget i κ out + mv.cost := by
  cases mv with
  | call κ' =>
    obtain rfl := hκ κ' rfl
    simp [budget, rivals, Move.cost]
    omega
  | spurious =>
    simp [budget, rivals, Move.cost]
    omega
  | claim κ' | work => simp [budget, rivals, Move.cost]

theorem budget_other (out : List (τ × Move)) (mv : Move) (hji : j ≠ i)
    (hk : ∀ κ', l.kind = some κ' → κ' = κ) :
    budget i κ out + mv.harm l ≤ budget i κ (out ++ [(j, mv)]) := by
  cases mv with
  | claim κ' =>
    by_cases hl : l.kind = some κ'
    · obtain rfl := hk κ' hl
      simp [budget, rivals, Move.harm, hji, hl]
      omega
    · simp [budget, rivals, Move.harm, hl]
  | call | spurious | work => simp [budget, rivals, Move.harm, hji]

/-- What a run has cost thread `i` so far. -/
structure Billed (i : τ) (κ : Kind) (out : List (τ × Move)) (s : State τ α) : Prop where
  kind : ∀ κ', (s.threads i).kind = some κ' → κ' = κ
  spent : steps i out + potential s.mem (s.threads i) ≤ budget i κ out

theorem billed_nil (hk : ∀ κ', (s.threads i).kind = some κ' → κ' = κ) : Billed i κ [] s :=
  ⟨hk, by simpa [steps, budget, rivals] using potential_le_six s.mem (s.threads i)⟩

theorem Moved.step {ys : List (τ × Move)} (hst : Moved k moved s ys t) : Step k moved s t := by
  obtain ⟨i, m', l', ha⟩ := hst
  exact .act s i m' l' ha

theorem calls_le_of_step (hst : Step k moved s t) : s.mem.calls ≤ t.mem.calls := by
  obtain ⟨i, m', l', ha⟩ := hst
  exact calls_le_of_act ha

variable [Fintype τ]

/-- **Every step of any thread stays within the budget.** -/
theorem Billed.step {ys : List (τ × Move)} (hb : Billed i κ out s) (hI : Inv k h s)
    (hB : Bounded k s.mem) (ho : Only i κ (out ++ ys)) (hst : Moved k moved s ys t) :
    Billed i κ (out ++ ys) t := by
  obtain ⟨j, m', l', ha⟩ := hst
  have hspent := hb.spent
  by_cases hji : j = i
  · subst hji
    have hpay := act_potential ha hI.shared (hI.threads j) hB
    have hmem : (j, move s.mem (s.threads j) l') ∈ out ++ [(j, move s.mem (s.threads j) l')] :=
      List.mem_append_right _ (List.mem_singleton.mpr rfl)
    have hcall : ∀ κ', move s.mem (s.threads j) l' = .call κ' → κ' = κ :=
      fun κ' hκ' => ho κ' (hκ' ▸ hmem)
    refine ⟨fun κ' hκ' => ?_, ?_⟩
    · simp only [Function.update_self] at hκ'
      rcases act_kind ha hκ' with h' | h'
      · exact hb.kind κ' h'
      · exact hcall κ' h'
    · simp only [Function.update_self, budget_own hcall]
      simp [steps] at hspent ⊢
      omega
  · have hharm := potential_le ha (s.threads i)
    have hbudget := budget_other out (move s.mem (s.threads j) l') hji hb.kind
    refine ⟨?_, ?_⟩
    · simpa only [Function.update_of_ne (Ne.symm hji)] using hb.kind
    · simp only [Function.update_of_ne (Ne.symm hji)]
      simp [steps, hji] at hspent ⊢
      omega

/-- **The ring buffer is lock-free.** From any state of any run, the steps of a thread that makes
calls of one kind are bounded by its calls, its spurious failures and the tickets that other
threads win for calls of that kind; and while it is in a call it can take a step. -/
theorem ring_lock_free [Inhabited α] (hr : ReflTransGen (Step k moved) .init s)
    (hrun : Trace (Moved k moved) s out t) (hb : capacity k + t.mem.calls < 2 ^ 63)
    (hk : ∀ κ', (s.threads i).kind = some κ' → κ' = κ) (ho : Only i κ out) :
    steps i out ≤ 6 + 6 * out.count (i, .call κ) + 2 * out.count (i, .spurious) +
      2 * rivals i κ out ∧
    ((t.threads i).kind ≠ none → ∃ m l, Act k moved t.mem (t.threads i) m l) := by
  let P : List (τ × Move) → State τ α → Prop := fun out t =>
    capacity k + t.mem.calls < 2 ^ 63 → Only i κ out → Billed i κ out t ∧ ∃ h, Inv k h t
  have hstep : ∀ out s ys t, P out s → Moved k moved s ys t → P (out ++ ys) t := by
    intro out s ys t ih hst hb ho
    have hs := hst.step
    have hbs : capacity k + s.mem.calls < 2 ^ 63 :=
      (Nat.add_le_add_left (calls_le_of_step hs) _).trans_lt hb
    obtain ⟨hbill, h, hI⟩ := ih hbs fun κ' hκ' => ho κ' (List.mem_append_left _ hκ')
    have hB : Bounded k s.mem := by
      have := hI.calls
      unfold Bounded
      omega
    exact ⟨hbill.step hI hB ho hst, inv_step hI hB hs⟩
  obtain ⟨hbill, -⟩ := hrun.invariant (P := P) (fun hb _ => ⟨billed_nil hk, inv_reach hr hb⟩)
    hstep hb ho
  have hspent := hbill.spent
  refine ⟨?_, act_enabled k moved t.mem⟩
  unfold budget at hspent
  omega

/-- A push that is alone takes six steps. -/
theorem ring_lock_free_one_push : ∃ out : List (Fin 2 × Move), steps 0 out = 6 ∧
    steps 0 out ≤ 6 + 6 * out.count (0, .call .push) + 2 * out.count (0, .spurious) +
      2 * rivals 0 .push out := by
  have r₁ : Trace (Moved 0 id) (State.init : State (Fin 2) ℕ) _ _ :=
    .single (.act _ 0 _ _ (.beginPush _ 7))
  have r₂ := r₁.snoc (.act _ 0 _ _ (.pushLoad _ 7))
  have r₃ := r₂.snoc (.act _ 0 _ _ (.pushTurn _ 7 0 (by decide)))
  have r₄ := r₃.snoc (.act _ 0 _ _ (.pushCasWin _ 7 0 rfl))
  have r₅ := r₄.snoc (.act _ 0 _ _ (.pushWrite _ 7 0))
  have r₆ := r₅.snoc (.act _ 0 _ _ (.pushPublish _ 0))
  refine ⟨_, rfl, (ring_lock_free .refl r₆ (by decide) ?_ ?_).1⟩
  · intro κ' hκ'
    cases hκ'
  · intro κ' hκ'
    cases κ' with
    | push => rfl
    | pop => exact absurd hκ' (by decide)

end Runs

end AetherMoE.Ring
