import AetherMoE.Core.RingInvariant

/-!
# Safety of the ring buffer

* `LocalInv.mono`, `cells_ne`: what a thread relies on survives the steps of the others, since
  two threads that hold tickets work on different cells;
* **`act_inv`**, **`inv_step`**, **`inv_reach`**: the invariant along every run;
* **`ring_safe`**: mutual exclusion on cells, first-in first-out delivery by ticket, and the
  meaning of a `false` return, for every run with `Capacity + calls < 2 ^ 63`.
-/

namespace AetherMoE.Ring

open Relation Stepping

variable {τ α : Type} {k : ℕ} {h h' : ℕ → ℕ} {m m' : Memory α} {l l' : Local α} {moved : α → α}

/-! ## Threads do not interfere -/

/-- A thread's facts survive a change that only advances cursors and turns, unless it touches the
cell the thread has won. -/
theorem LocalInv.mono (hL : LocalInv k h m l)
    (he : m.enqueuePos.toNat ≤ m'.enqueuePos.toNat) (hd : m.dequeuePos.toNat ≤ m'.dequeuePos.toNat)
    (hh : ∀ c, h c ≤ h' c) (hp : ∀ x ∈ m.pushes, x ∈ m'.pushes)
    (hc : ∀ t, l.ticket = some t → h' (t % capacity k) = h (t % capacity k) ∧
      (l.producing = true → m'.data (t % capacity k) = m.data (t % capacity k)) ∧
      (t ∈ m'.pops.map Prod.fst ↔ t ∈ m.pops.map Prod.fst)) : LocalInv k h' m' l := by
  cases l with
  | idle | pushLoad | popLoad => trivial
  | pushSeq item pos => exact le_trans hL he
  | pushCas item pos => exact ⟨hL.1.trans he, hL.2.trans (hh _)⟩
  | pushWrite item pos =>
    obtain ⟨h1, _, _⟩ := hc _ rfl
    exact ⟨hp _ hL.1, h1.trans hL.2⟩
  | pushPublish pos =>
    obtain ⟨h1, h2, _⟩ := hc _ rfl
    refine ⟨?_, h1.trans hL.2⟩
    rw [h2 rfl]
    exact hp _ hL.1
  | popSeq pos => exact le_trans hL hd
  | popCas pos => exact ⟨hL.1.trans hd, hL.2.trans (hh _)⟩
  | popRead pos =>
    obtain ⟨h1, _, h3⟩ := hc _ rfl
    exact ⟨hL.1.trans_le hd, h1.trans hL.2.1, fun hm => hL.2.2 (h3.mp hm)⟩
  | popRelease pos =>
    obtain ⟨h1, _, h3⟩ := hc _ rfl
    exact ⟨hL.1.trans_le hd, h1.trans hL.2.1, h3.mpr hL.2.2⟩

/-- The half turns of the cell of a ticket that a thread holds. -/
theorem LocalInv.turns (hL : LocalInv k h m l) {t : ℕ} (ht : l.ticket = some t) :
    h (t % capacity k) = 2 * (t / capacity k) + if l.producing then 0 else 1 := by
  cases l with
  | pushWrite item pos | pushPublish pos =>
    obtain rfl := Option.some.inj ht
    exact hL.2
  | popRead pos | popRelease pos =>
    obtain rfl := Option.some.inj ht
    exact hL.2.1
  | _ => cases ht

/-- **Ticket holders work on different cells.** -/
theorem cells_ne (hL : LocalInv k h m l) (hL' : LocalInv k h m l') {t t' : ℕ}
    (ht : l.ticket = some t) (ht' : l'.ticket = some t')
    (hne : t = t' → l.producing ≠ l'.producing) : t % capacity k ≠ t' % capacity k := by
  intro hc
  have h1 := hL.turns ht
  have h2 := hL'.turns ht'
  rw [hc] at h1
  cases hp : l.producing <;> cases hp' : l'.producing <;> simp only [hp, hp'] at h1 h2
  · exact hne (ticket_ext hc (by simpa using h1.symm.trans h2)) (hp.trans hp'.symm)
  · simp at h1 h2
    omega
  · simp at h1 h2
    omega
  · exact hne (ticket_ext hc (by simpa using h1.symm.trans h2)) (hp.trans hp'.symm)

theorem LocalInv.ticket_lt (hS : Shared k h m) (hL : LocalInv k h m l) {t : ℕ}
    (ht : l.ticket = some t) :
    if l.producing then t < m.enqueuePos.toNat else t < m.dequeuePos.toNat := by
  have hlt : ∀ {t : ℕ} {v : α}, (t, v) ∈ m.pushes → t < m.enqueuePos.toNat := by
    intro t v hv
    have hk : t ∈ m.pushes.map Prod.fst := List.mem_map.mpr ⟨_, hv, rfl⟩
    rwa [hS.pushes_fst, List.mem_range] at hk
  cases l with
  | pushWrite item pos | pushPublish pos =>
    obtain rfl := Option.some.inj ht
    exact hlt hL.1
  | popRead pos | popRelease pos =>
    obtain rfl := Option.some.inj ht
    exact hL.1
  | _ => cases ht

/-! ## One step -/

/-- The memory `m'` and the thread `l'` are as they should be for some count of half turns, and
no other thread of the old memory is disturbed. -/
def Sound (k : ℕ) (h : ℕ → ℕ) (m : Memory α) (l : Local α) (m' : Memory α) (l' : Local α) : Prop :=
  ∃ h', Shared k h' m' ∧ LocalInv k h' m' l' ∧ ∀ l₂, LocalInv k h m l₂ →
    (∀ t, l.ticket = some t → l₂.ticket = some t → l.producing ≠ l₂.producing) →
    LocalInv k h' m' l₂

/-- A step that leaves the memory alone disturbs nobody. -/
theorem Sound.of_same (hS : Shared k h m) (hL : LocalInv k h m l') : Sound k h m l m l' :=
  ⟨h, hS, hL, fun _ h₂ _ => h₂⟩

/-- Starting a call disturbs nobody. -/
theorem Sound.of_begin (hS : Shared k h m)
    (hL : LocalInv k h { m with calls := m.calls + 1 } l') :
    Sound k h m l { m with calls := m.calls + 1 } l' := by
  refine ⟨h, { hS with }, hL, fun l₂ h₂ _ => ?_⟩
  exact h₂.mono le_rfl le_rfl (fun _ => le_rfl) (fun _ hx => hx) fun _ _ =>
    ⟨rfl, fun _ => rfl, Iff.rfl⟩

/-- A step inside the cell of a held ticket disturbs nobody else. -/
theorem Sound.of_cell {t : ℕ} (hL : LocalInv k h m l) (ht : l.ticket = some t)
    (hS : Shared k h' m') (hL' : LocalInv k h' m' l')
    (he : m'.enqueuePos = m.enqueuePos) (hd : m'.dequeuePos = m.dequeuePos)
    (hpush : m'.pushes = m.pushes) (hh : ∀ c, h c ≤ h' c)
    (hcell : ∀ c, c ≠ t % capacity k → h' c = h c ∧ m'.data c = m.data c)
    (hpops : ∀ u, u ≠ t → (u ∈ m'.pops.map Prod.fst ↔ u ∈ m.pops.map Prod.fst)) :
    Sound k h m l m' l' := by
  refine ⟨h', hS, hL', fun l₂ h₂ hne => h₂.mono (by rw [he]) (by rw [hd]) hh
    (by rw [hpush]; exact fun _ hx => hx) fun u hu => ?_⟩
  have hc : u % capacity k ≠ t % capacity k :=
    (cells_ne hL h₂ ht hu fun htu => hne t ht (htu ▸ hu)).symm
  obtain ⟨h1, h2⟩ := hcell _ hc
  exact ⟨h1, fun _ => h2, hpops u fun hut => hc (by rw [hut])⟩

/-- **Every step of a thread is sound.** -/
theorem act_inv (ha : Act k moved m l m' l') (hS : Shared k h m) (hL : LocalInv k h m l)
    (hB : Bounded k m) : Sound k h m l m' l' := by
  cases ha with
  | beginPush item => exact .of_begin hS trivial
  | pushLoad item => exact .of_same hS (le_refl m.enqueuePos.toNat)
  | pushTurn item pos hd => exact .of_same hS ⟨hL, (hS.push_turn hB hL hd).ge⟩
  | pushFull item pos hd => exact .of_same hS trivial
  | pushBehind item pos hd => exact .of_same hS trivial
  | pushCasWin item pos he =>
    subst he
    have heq : h (m.enqueuePos.toNat % capacity k) = 2 * (m.enqueuePos.toNat / capacity k) := by
      refine le_antisymm (Nat.not_lt.mp fun hlt => ?_) hL.2
      exact Nat.lt_irrefl _ (hS.lt_enqueue _ hlt)
    have hsucc : (m.enqueuePos + 1).toNat = m.enqueuePos.toNat + 1 :=
      toNat_add_one (by unfold Bounded at hB; omega)
    refine ⟨h, hS.casPush hB item hL.2, ⟨?_, heq⟩, fun l₂ h₂ _ => ?_⟩
    · exact List.mem_append_right _ (List.mem_singleton.mpr rfl)
    · refine h₂.mono (by rw [hsucc]; omega) le_rfl (fun _ => le_rfl)
        (fun _ hx => List.mem_append_left _ hx) fun _ _ => ⟨rfl, fun _ => rfl, Iff.rfl⟩
  | pushCasFail item pos => exact .of_same hS (le_refl m.enqueuePos.toNat)
  | pushWrite item pos =>
    rw [hB.cellOf_eq]
    refine .of_cell hL rfl (hS.write item hL.2) ⟨?_, hL.2⟩ rfl rfl rfl (fun _ => le_rfl)
      (fun c hc => ⟨rfl, Function.update_of_ne hc _ _⟩) (fun _ _ => Iff.rfl)
    show (pos.toNat, Function.update m.data (pos.toNat % capacity k) item
      (pos.toNat % capacity k)) ∈ m.pushes
    rw [Function.update_self]
    exact hL.1
  | pushPublish pos =>
    rw [hB.cellOf_eq]
    exact .of_cell hL rfl (hS.publish hB hL.1 hL.2) trivial rfl rfl rfl (le_bump h _)
      (fun c hc => ⟨bump_of_ne h hc, rfl⟩) (fun _ _ => Iff.rfl)
  | beginPop => exact .of_begin hS trivial
  | popLoad => exact .of_same hS (le_refl m.dequeuePos.toNat)
  | popTurn pos hd => exact .of_same hS ⟨hL, (hS.pop_turn hB hL hd).ge⟩
  | popEmpty pos hd => exact .of_same hS trivial
  | popBehind pos hd => exact .of_same hS trivial
  | popCasWin pos he =>
    subst he
    have heq : h (m.dequeuePos.toNat % capacity k) =
        2 * (m.dequeuePos.toNat / capacity k) + 1 := by
      refine le_antisymm (Nat.not_lt.mp fun hlt => ?_) hL.2
      exact Nat.lt_irrefl _ (hS.lt_dequeue _ hlt)
    have hsucc : (m.dequeuePos + 1).toNat = m.dequeuePos.toNat + 1 :=
      toNat_add_one (by unfold Bounded at hB; omega)
    refine ⟨h, hS.casPop hB hL.2, ⟨by rw [hsucc]; omega, heq, fun hm => ?_⟩, fun l₂ h₂ _ => ?_⟩
    · obtain ⟨x, hx, hxe⟩ := List.mem_map.mp hm
      exact Nat.lt_irrefl _ (hxe ▸ hS.pops_lt x hx)
    · exact h₂.mono le_rfl (by rw [hsucc]; omega) (fun _ => le_rfl) (fun _ hx => hx)
        fun _ _ => ⟨rfl, fun _ => rfl, Iff.rfl⟩
  | popCasFail pos => exact .of_same hS (le_refl m.dequeuePos.toNat)
  | popRead pos =>
    rw [hB.cellOf_eq]
    refine .of_cell hL rfl (hS.read _ hL.1 hL.2.1 hL.2.2) ⟨hL.1, hL.2.1, ?_⟩ rfl rfl rfl
      (fun _ => le_rfl) (fun c hc => ⟨rfl, Function.update_of_ne hc _ _⟩) fun u hu => ?_
    · simp
    · simp [hu]
  | popRelease pos =>
    rw [hB.cellOf_eq]
    exact .of_cell hL rfl (hS.release hB hL.1 hL.2.1 hL.2.2) trivial rfl rfl rfl (le_bump h _)
      (fun c hc => ⟨bump_of_ne h hc, rfl⟩) (fun _ _ => Iff.rfl)

/-- A ticket after a step was held before, or is the cursor's. -/
theorem act_ticket (ha : Act k moved m l m' l') {t : ℕ} (ht : l'.ticket = some t) :
    l.ticket = some t ∧ l'.producing = l.producing ∨
      t = if l'.producing then m.enqueuePos.toNat else m.dequeuePos.toNat := by
  cases ha with
  | pushCasWin item pos he | popCasWin pos he =>
    subst he
    exact Or.inr (Option.some.inj ht).symm
  | pushWrite item pos | popRead pos => exact Or.inl ⟨ht, rfl⟩
  | _ => cases ht

/-- A call pays for at most one ticket. -/
theorem act_calls (ha : Act k moved m l m' l') (hB : Bounded k m) :
    m'.enqueuePos.toNat + m'.dequeuePos.toNat + l'.pending + m.calls ≤
      m.enqueuePos.toNat + m.dequeuePos.toNat + l.pending + m'.calls := by
  unfold Bounded at hB
  cases ha with
  | pushCasWin item pos he | popCasWin pos he =>
    subst he
    simp only [Local.pending]
    rw [toNat_add_one (by omega)]
    omega
  | _ =>
    simp only [Local.pending]
    omega

theorem calls_le_of_act (ha : Act k moved m l m' l') : m.calls ≤ m'.calls := by
  cases ha <;> simp

/-! ## Runs -/

variable [Fintype τ]

theorem inv_init [Inhabited α] (hC : capacity k < 2 ^ 63) :
    Inv k (fun _ => 0) (State.init : State τ α) where
  shared := by
    constructor <;> simp [State.init, Memory.init, turnValue]
    intro c hc
    omega
  threads _ := trivial
  distinct _ _ _ hi := by cases hi
  calls := by simp [State.init, Memory.init, Local.pending]

variable [DecidableEq τ]

/-- **One step of any thread keeps the invariant.** -/
theorem inv_step {s t : State τ α} (hI : Inv k h s) (hB : Bounded k s.mem)
    (hst : Step k moved s t) : ∃ h', Inv k h' t := by
  obtain ⟨i, m', l', ha⟩ := hst
  obtain ⟨h', hS', hL', hR⟩ := act_inv ha hI.shared (hI.threads i) hB
  refine ⟨h', hS', fun j => ?_, fun j j' u hj hj' hp => ?_, ?_⟩
  · by_cases hji : j = i
    · subst hji
      simpa only [Function.update_self] using hL'
    · simp only [Function.update_of_ne hji]
      refine hR _ (hI.threads j) fun u hu huj hp => hji ?_
      exact (hI.distinct i j u hu huj hp).symm
  · -- A new ticket is the cursor's, and the tickets of the other threads lie below it.
    have key : ∀ j, j ≠ i → ∀ u, (s.threads j).ticket = some u → l'.ticket = some u →
        (s.threads j).producing ≠ l'.producing := by
      intro j hji u hu hl hp
      rcases act_ticket ha hl with ⟨hi, hpi⟩ | hc
      · exact hji (hI.distinct j i u hu hi (hp.trans hpi))
      · have hlt := (hI.threads j).ticket_lt hI.shared hu
        rw [hp] at hlt
        split_ifs at hc hlt <;> omega
    by_cases hji : j = i <;> by_cases hji' : j' = i
    · rw [hji, hji']
    · subst hji
      simp only [Function.update_self, Function.update_of_ne hji'] at hj hj' hp
      exact absurd hp.symm (key j' hji' u hj' hj)
    · subst hji'
      simp only [Function.update_self, Function.update_of_ne hji] at hj hj' hp
      exact absurd hp (key j hji u hj hj')
    · simp only [Function.update_of_ne hji, Function.update_of_ne hji'] at hj hj' hp
      exact hI.distinct j j' u hj hj' hp
  · have hc := hI.calls
    have hpay := act_calls ha hB
    have h1 := Finset.add_sum_erase Finset.univ (fun j => (s.threads j).pending) (Finset.mem_univ i)
    have h2 := Finset.add_sum_erase Finset.univ
      (fun j => (Function.update s.threads i l' j).pending) (Finset.mem_univ i)
    have h3 : ∑ j ∈ Finset.univ.erase i, (Function.update s.threads i l' j).pending =
        ∑ j ∈ Finset.univ.erase i, (s.threads j).pending :=
      Finset.sum_congr rfl fun j hj => by rw [Function.update_of_ne (Finset.ne_of_mem_erase hj)]
    simp only [Function.update_self] at h2
    show m'.enqueuePos.toNat + m'.dequeuePos.toNat +
      ∑ j, (Function.update s.threads i l' j).pending ≤ m'.calls
    omega

/-- **The invariant of every run** in which capacity and calls stay below `2 ^ 63`. -/
theorem inv_reach [Inhabited α] {s : State τ α} (hr : ReflTransGen (Step k moved) .init s)
    (hb : capacity k + s.mem.calls < 2 ^ 63) : ∃ h, Inv k h s := by
  refine invariant (P := fun s => capacity k + s.mem.calls < 2 ^ 63 → ∃ h, Inv k h s)
    (fun hb => ⟨_, inv_init (by omega)⟩) (fun s t ih hst hb => ?_) hr hb
  obtain ⟨i, m', l', ha⟩ := hst
  have hmono := calls_le_of_act ha
  have hbs : capacity k + s.mem.calls < 2 ^ 63 := by
    change capacity k + m'.calls < 2 ^ 63 at hb
    omega
  obtain ⟨h, hI⟩ := ih hbs
  have hc := hI.calls
  exact inv_step hI (by unfold Bounded; omega) (.act s i m' l' ha)

/-! ## Safety -/

/-- The cell a thread has won and not yet handed on. -/
def Local.cell (k : ℕ) : Local α → Option ℕ
  | .pushWrite _ pos | .pushPublish pos | .popRead pos | .popRelease pos => some (cellOf k pos)
  | _ => none

/-- At most one thread is between winning a cell and publishing that cell's sequence. -/
def Exclusive (k : ℕ) (s : State τ α) : Prop :=
  ∀ i j c, (s.threads i).cell k = some c → (s.threads j).cell k = some c → i = j

/-- Every pop hands out the item pushed under its own ticket, no ticket is pushed or popped twice,
and an item that has been published and not yet popped is still in its cell. -/
structure Delivers (k : ℕ) (m : Memory α) : Prop where
  pop_eq_push : ∀ x ∈ m.pops, x ∈ m.pushes
  push_once : (m.pushes.map Prod.fst).Nodup
  pop_once : (m.pops.map Prod.fst).Nodup
  not_lost : ∀ x ∈ m.pushes, x.1 ∈ m.published → x.1 ∉ m.pops.map Prod.fst →
    m.data (x.1 % capacity k) = x.2 ∧ (m.sequence (x.1 % capacity k)).toNat = x.1 + 1

/-- Between the two states thread `i` returns `false` from `try_push`: it leaves the call at its
load of the sequence of `pos`, without having won a ticket. -/
def PushReturnsFalse (i : τ) (pos : Word) (s t : State τ α) : Prop :=
  (∃ item, s.threads i = .pushSeq item pos) ∧ t.threads i = .idle

/-- Between the two states thread `i` returns `false` from `try_pop`. -/
def PopReturnsFalse (i : τ) (pos : Word) (s t : State τ α) : Prop :=
  s.threads i = .popSeq pos ∧ t.threads i = .idle

/-- A step in which `try_push` or `try_pop` returns `false` loads the sequence of a cell whose
previous occupant is not released, or of a ticket that is not published. -/
structure FalseReturns [DecidableEq τ] (k : ℕ) (moved : α → α) (s : State τ α) : Prop where
  push_full : ∀ t i pos, Step k moved s t → PushReturnsFalse i pos s t →
    capacity k ≤ pos.toNat ∧ pos.toNat - capacity k ∉ s.mem.released
  pop_empty : ∀ t i pos, Step k moved s t → PopReturnsFalse i pos s t →
    pos.toNat ∉ s.mem.published

theorem Inv.exclusive {s : State τ α} (hI : Inv k h s) (hB : Bounded k s.mem) :
    Exclusive k s := by
  intro i j c hi hj
  have hcell : ∀ {l : Local α} {c : ℕ}, l.cell k = some c →
      ∃ t, l.ticket = some t ∧ c = t % capacity k := by
    intro l c hc
    cases l with
    | pushWrite item pos | pushPublish pos | popRead pos | popRelease pos =>
      exact ⟨_, rfl, (Option.some.inj hc).symm.trans (hB.cellOf_eq pos)⟩
    | _ => cases hc
  obtain ⟨t, ht, hct⟩ := hcell hi
  obtain ⟨t', ht', hct'⟩ := hcell hj
  by_contra hij
  refine cells_ne (hI.threads i) (hI.threads j) ht ht' (fun htt hp => hij ?_)
    (hct.symm.trans hct')
  subst htt
  exact hI.distinct i j t ht ht' hp

theorem Shared.delivers (hS : Shared k h m) : Delivers k m where
  pop_eq_push := hS.pops_sub
  push_once := by
    rw [hS.pushes_fst]
    exact List.nodup_range
  pop_once := hS.pops_nodup
  not_lost := by
    intro x hx hpub hnp
    have hpub' := (hS.published _).mp hpub
    have hrel : ¬ 2 * (x.1 / capacity k) + 2 ≤ h (x.1 % capacity k) := fun hr =>
      hnp (hS.released_pops _ ((hS.released _).mpr hr))
    have heq : h (x.1 % capacity k) = 2 * (x.1 / capacity k) + 1 := by omega
    refine ⟨hS.data x hx heq hnp, ?_⟩
    rw [hS.sequence_mod, heq, turnValue_full]

omit [DecidableEq τ] in
/-- A cell that looks full to a push holds an item that was not released. -/
theorem Inv.not_released {s : State τ α} (hI : Inv k h s) (hB : Bounded k s.mem) {i : τ} {item : α}
    {pos : Word} (hi : s.threads i = .pushSeq item pos)
    (hd : signedDiff (s.mem.sequence (cellOf k pos)) pos < 0) :
    capacity k ≤ pos.toNat ∧ pos.toNat - capacity k ∉ s.mem.released := by
  have hL := hI.threads i
  rw [hi] at hL
  have hlt := hI.shared.push_full hB hL hd
  have hpos : capacity k ≤ pos.toNat := by
    by_contra hc
    rw [Nat.div_eq_of_lt (by omega)] at hlt
    omega
  refine ⟨hpos, fun hr => ?_⟩
  have hrel := (hI.shared.released _).mp hr
  rw [← Nat.mod_eq_sub_mod hpos] at hrel
  rw [Nat.div_eq_sub_div (by have := two_le_capacity k; omega) hpos] at hlt
  omega

omit [DecidableEq τ] in
/-- A cell that looks empty to a pop holds an item that was not published. -/
theorem Inv.not_published {s : State τ α} (hI : Inv k h s) (hB : Bounded k s.mem) {i : τ}
    {pos : Word} (hi : s.threads i = .popSeq pos)
    (hd : signedDiff (s.mem.sequence (cellOf k pos)) (pos + 1) < 0) :
    pos.toNat ∉ s.mem.published := by
  intro hp
  have hL := hI.threads i
  rw [hi] at hL
  have hlt := hI.shared.pop_empty hB hL hd
  have hpub := (hI.shared.published _).mp hp
  omega

omit [Fintype τ] in
/-- Only the thread that steps moves. -/
theorem eq_of_step {s : State τ α} {i j : τ} {l' : Local α}
    (hj : Function.update s.threads i l' j ≠ s.threads j) : j = i := by
  by_contra hji
  exact hj (Function.update_of_ne hji l' s.threads)

theorem Inv.falseReturns {s : State τ α} (hI : Inv k h s) (hB : Bounded k s.mem) :
    FalseReturns k moved s where
  push_full := by
    rintro t j pos ⟨i, m', l', ha⟩ ⟨⟨item, hj⟩, ht⟩
    change Function.update s.threads i l' j = .idle at ht
    obtain rfl : j = i := eq_of_step (by rw [ht, hj]; exact fun hc => by cases hc)
    rw [Function.update_self] at ht
    subst ht
    have hact := ha
    rw [hj] at hact
    cases hact with
    | pushFull _ _ hd => exact hI.not_released hB hj hd
  pop_empty := by
    rintro t j pos ⟨i, m', l', ha⟩ ⟨hj, ht⟩
    change Function.update s.threads i l' j = .idle at ht
    obtain rfl : j = i := eq_of_step (by rw [ht, hj]; exact fun hc => by cases hc)
    rw [Function.update_self] at ht
    subst ht
    have hact := ha
    rw [hj] at hact
    cases hact with
    | popEmpty _ hd => exact hI.not_published hB hj hd

/-- **Safety of the ring buffer** in every state of every run with `Capacity + calls < 2 ^ 63`. -/
theorem ring_safe [Inhabited α] {s : State τ α} (hr : ReflTransGen (Step k moved) .init s)
    (hb : capacity k + s.mem.calls < 2 ^ 63) :
    Exclusive k s ∧ Delivers k s.mem ∧ FalseReturns k moved s := by
  obtain ⟨h, hI⟩ := inv_reach hr hb
  have hc := hI.calls
  have hB : Bounded k s.mem := by unfold Bounded; omega
  exact ⟨hI.exclusive hB, hI.shared.delivers, hI.falseReturns hB⟩

/-- Two threads race for ticket `0`; the loser wins ticket `1` and stalls. A pop then hands out the
item of the winner, and the next pop returns `false` although two items were pushed. -/
theorem ring_safe_contended : ∃ s t : State (Fin 2) ℕ, Step 0 id s t ∧ PopReturnsFalse 0 1 s t ∧
    s.mem.pushes = [(0, 7), (1, 8)] ∧ s.mem.pops = [(0, 7)] ∧ Exclusive 0 s ∧ Delivers 0 s.mem ∧
    1 ∉ s.mem.published := by
  have r₁ : ReflTransGen (Step 0 id) (State.init : State (Fin 2) ℕ) _ :=
    .single (.act _ 0 _ _ (.beginPush _ 7))
  have r₂ := r₁.tail (.act _ 0 _ _ (.pushLoad _ 7))
  have r₃ := r₂.tail (.act _ 0 _ _ (.pushTurn _ 7 0 (by decide)))
  have r₄ := r₃.tail (.act _ 1 _ _ (.beginPush _ 8))
  have r₅ := r₄.tail (.act _ 1 _ _ (.pushLoad _ 8))
  have r₆ := r₅.tail (.act _ 1 _ _ (.pushTurn _ 8 0 (by decide)))
  have r₇ := r₆.tail (.act _ 0 _ _ (.pushCasWin _ 7 0 rfl))
  have r₈ := r₇.tail (.act _ 1 _ _ (.pushCasFail _ 8 0))
  have r₉ := r₈.tail (.act _ 1 _ _ (.pushTurn _ 8 1 (by decide)))
  have r₁₀ := r₉.tail (.act _ 1 _ _ (.pushCasWin _ 8 1 rfl))
  have r₁₁ := r₁₀.tail (.act _ 0 _ _ (.pushWrite _ 7 0))
  have r₁₂ := r₁₁.tail (.act _ 0 _ _ (.pushPublish _ 0))
  have r₁₃ := r₁₂.tail (.act _ 0 _ _ (.beginPop _))
  have r₁₄ := r₁₃.tail (.act _ 0 _ _ (.popLoad _))
  have r₁₅ := r₁₄.tail (.act _ 0 _ _ (.popTurn _ 0 (by decide)))
  have r₁₆ := r₁₅.tail (.act _ 0 _ _ (.popCasWin _ 0 rfl))
  have r₁₇ := r₁₆.tail (.act _ 0 _ _ (.popRead _ 0))
  have r₁₈ := r₁₇.tail (.act _ 0 _ _ (.popRelease _ 0))
  have r₁₉ := r₁₈.tail (.act _ 0 _ _ (.beginPop _))
  have r₂₀ := r₁₉.tail (.act _ 0 _ _ (.popLoad _))
  obtain ⟨hexclusive, hdelivers, hfalse⟩ := ring_safe r₂₀ (by decide)
  refine ⟨_, _, .act _ 0 _ _ (.popEmpty _ 1 ?_), ?_, ?_, ?_, hexclusive, hdelivers,
    hfalse.pop_empty _ 0 1 (.act _ 0 _ _ (.popEmpty _ 1 ?_)) ?_⟩
  · decide
  · exact ⟨rfl, rfl⟩
  · rfl
  · rfl
  · decide
  · exact ⟨rfl, rfl⟩

end AetherMoE.Ring
