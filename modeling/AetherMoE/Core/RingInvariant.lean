import AetherMoE.Core.RingBuffer

/-!
# Tickets of the ring buffer

A cell's sequence makes half turns: it reads `t` while it waits for the push with ticket `t`,
`t + 1` once that push has published, and `t + Capacity` once the pop with ticket `t` has released
the cell to the next round. The invariant counts the half turns `h c` that cell `c` has made.

* `turnValue`, `turnValue_strictMono`: the sequence of a cell determines its half turns;
* `Shared`, `LocalInv`, `Inv`: what holds of the memory, of each thread, and of all of them;
* **`Shared.push_diff`**, **`Shared.pop_diff`**: what a load of a cell's sequence tells;
* `Shared.casPush`, `Shared.write`, `Shared.publish`, `Shared.casPop`, `Shared.read`,
  `Shared.release`: the steps that change the memory keep its part of the invariant.
-/

namespace AetherMoE.Ring

open Relation Stepping

variable {τ α : Type}

/-! ## Words and half turns -/

theorem two_le_capacity (k : ℕ) : 2 ≤ capacity k := by
  rw [capacity, pow_succ]
  have := Nat.one_le_two_pow (n := k)
  omega

theorem cellOf_eq {k : ℕ} (h : capacity k < 2 ^ 63) (pos : Word) :
    cellOf k pos = pos.toNat % capacity k := by
  rw [cellOf, BitVec.toNat_and, BitVec.toNat_ofNat, Nat.mod_eq_of_lt (by omega), capacity,
    Nat.and_two_pow_sub_one_eq_mod]

theorem signedDiff_eq {seq pos : Word} (hs : seq.toNat < 2 ^ 63) (hp : pos.toNat < 2 ^ 63) :
    signedDiff seq pos = (seq.toNat : ℤ) - pos.toNat := by
  rw [signedDiff, BitVec.toInt_eq_toNat_cond, BitVec.toNat_sub]
  split_ifs <;> omega

theorem toNat_add_one {pos : Word} (h : pos.toNat < 2 ^ 63) : (pos + 1).toNat = pos.toNat + 1 := by
  rw [BitVec.toNat_add]
  change (pos.toNat + 1) % 2 ^ 64 = _
  omega

/-- The sequence of cell `c` after `h` half turns. -/
def turnValue (k c h : ℕ) : ℕ := c + h / 2 * capacity k + h % 2

theorem turnValue_strictMono (k c : ℕ) : StrictMono (turnValue k c) := by
  apply strictMono_nat_of_lt_succ
  intro h
  have hC := two_le_capacity k
  simp only [turnValue]
  rcases Nat.mod_two_eq_zero_or_one h with h0 | h1
  · have : (h + 1) / 2 = h / 2 := by omega
    rw [this]
    omega
  · have : (h + 1) / 2 = h / 2 + 1 := by omega
    rw [this, Nat.add_mul]
    omega

theorem turnValue_free (k t : ℕ) : turnValue k (t % capacity k) (2 * (t / capacity k)) = t := by
  have h := Nat.mod_add_div t (capacity k)
  rw [turnValue, Nat.mul_div_cancel_left _ Nat.two_pos, Nat.mul_mod_right, Nat.mul_comm (t / _)]
  omega

theorem turnValue_full (k t : ℕ) :
    turnValue k (t % capacity k) (2 * (t / capacity k) + 1) = t + 1 := by
  have h := turnValue_free k t
  have h1 : (2 * (t / capacity k) + 1) / 2 = t / capacity k := by omega
  have h2 : 2 * (t / capacity k) / 2 = t / capacity k := by omega
  rw [turnValue, h2] at h
  rw [turnValue, h1]
  omega

theorem turnValue_next (k t : ℕ) :
    turnValue k (t % capacity k) (2 * (t / capacity k) + 2) = t + capacity k := by
  have h := turnValue_free k t
  have h1 : (2 * (t / capacity k) + 2) / 2 = t / capacity k + 1 := by omega
  have h2 : 2 * (t / capacity k) / 2 = t / capacity k := by omega
  rw [turnValue, h2] at h
  rw [turnValue, h1, Nat.add_mul]
  omega

theorem ticket_ext {C t t' : ℕ} (hm : t % C = t' % C) (hd : t / C = t' / C) : t = t' := by
  rw [← Nat.mod_add_div t C, hm, hd, Nat.mod_add_div]

/-- One more half turn of cell `c`. -/
def bump (h : ℕ → ℕ) (c : ℕ) : ℕ → ℕ := Function.update h c (h c + 1)

theorem le_bump (h : ℕ → ℕ) (c c' : ℕ) : h c' ≤ bump h c c' := by
  unfold bump
  by_cases hc : c' = c
  · subst hc
    rw [Function.update_self]
    omega
  · rw [Function.update_of_ne hc]

theorem bump_self (h : ℕ → ℕ) (c : ℕ) : bump h c c = h c + 1 := Function.update_self _ _ _

theorem bump_of_ne (h : ℕ → ℕ) {c c' : ℕ} (hc : c' ≠ c) : bump h c c' = h c' :=
  Function.update_of_ne hc _ _

/-! ## The invariant -/

variable (k : ℕ)

/-- What holds of the memory, when cell `c` has made `h c` half turns. -/
structure Shared (h : ℕ → ℕ) (m : Memory α) : Prop where
  sequence : ∀ c < capacity k, (m.sequence c).toNat = turnValue k c (h c)
  free : ∀ t < m.enqueuePos.toNat, 2 * (t / capacity k) ≤ h (t % capacity k)
  lt_enqueue : ∀ t, 2 * (t / capacity k) + 1 ≤ h (t % capacity k) → t < m.enqueuePos.toNat
  full : ∀ t < m.dequeuePos.toNat, 2 * (t / capacity k) + 1 ≤ h (t % capacity k)
  lt_dequeue : ∀ t, 2 * (t / capacity k) + 2 ≤ h (t % capacity k) → t < m.dequeuePos.toNat
  published : ∀ t, t ∈ m.published ↔ 2 * (t / capacity k) + 1 ≤ h (t % capacity k)
  released : ∀ t, t ∈ m.released ↔ 2 * (t / capacity k) + 2 ≤ h (t % capacity k)
  pushes_fst : m.pushes.map Prod.fst = List.range m.enqueuePos.toNat
  pops_nodup : (m.pops.map Prod.fst).Nodup
  pops_sub : ∀ x ∈ m.pops, x ∈ m.pushes
  pops_lt : ∀ x ∈ m.pops, x.1 < m.dequeuePos.toNat
  released_pops : ∀ t ∈ m.released, t ∈ m.pops.map Prod.fst
  data : ∀ x ∈ m.pushes, h (x.1 % capacity k) = 2 * (x.1 / capacity k) + 1 →
    x.1 ∉ m.pops.map Prod.fst → m.data (x.1 % capacity k) = x.2

/-- What holds of a thread at each point of its call. -/
def LocalInv (h : ℕ → ℕ) (m : Memory α) : Local α → Prop
  | .idle | .pushLoad _ | .popLoad => True
  | .pushSeq _ pos => pos.toNat ≤ m.enqueuePos.toNat
  | .pushCas _ pos => pos.toNat ≤ m.enqueuePos.toNat ∧
      2 * (pos.toNat / capacity k) ≤ h (pos.toNat % capacity k)
  | .pushWrite item pos => (pos.toNat, item) ∈ m.pushes ∧
      h (pos.toNat % capacity k) = 2 * (pos.toNat / capacity k)
  | .pushPublish pos => (pos.toNat, m.data (pos.toNat % capacity k)) ∈ m.pushes ∧
      h (pos.toNat % capacity k) = 2 * (pos.toNat / capacity k)
  | .popSeq pos => pos.toNat ≤ m.dequeuePos.toNat
  | .popCas pos => pos.toNat ≤ m.dequeuePos.toNat ∧
      2 * (pos.toNat / capacity k) + 1 ≤ h (pos.toNat % capacity k)
  | .popRead pos => pos.toNat < m.dequeuePos.toNat ∧
      h (pos.toNat % capacity k) = 2 * (pos.toNat / capacity k) + 1 ∧
      pos.toNat ∉ m.pops.map Prod.fst
  | .popRelease pos => pos.toNat < m.dequeuePos.toNat ∧
      h (pos.toNat % capacity k) = 2 * (pos.toNat / capacity k) + 1 ∧
      pos.toNat ∈ m.pops.map Prod.fst

/-- The ticket a thread holds between winning its compare-exchange and storing the sequence. -/
def Local.ticket : Local α → Option ℕ
  | .pushWrite _ pos | .pushPublish pos | .popRead pos | .popRelease pos => some pos.toNat
  | _ => none

/-- A thread holding a ticket is a producer. -/
def Local.producing : Local α → Bool
  | .pushWrite _ _ | .pushPublish _ => true
  | _ => false

/-- A call that has neither won a ticket nor returned. -/
def Local.pending : Local α → ℕ
  | .pushLoad _ | .pushSeq _ _ | .pushCas _ _ | .popLoad | .popSeq _ | .popCas _ => 1
  | _ => 0

/-- **The invariant** of the buffer and its threads. -/
structure Inv [Fintype τ] (h : ℕ → ℕ) (s : State τ α) : Prop where
  shared : Shared k h s.mem
  threads : ∀ i, LocalInv k h s.mem (s.threads i)
  distinct : ∀ i j t, (s.threads i).ticket = some t → (s.threads j).ticket = some t →
    (s.threads i).producing = (s.threads j).producing → i = j
  calls : s.mem.enqueuePos.toNat + s.mem.dequeuePos.toNat + ∑ i, (s.threads i).pending ≤
    s.mem.calls

/-! ## Reading a cell's sequence -/

variable {k} {h : ℕ → ℕ} {m m' : Memory α}

/-- The tickets and one more round stay below `2 ^ 63`. -/
def Bounded (k : ℕ) (m : Memory α) : Prop :=
  capacity k + m.enqueuePos.toNat + m.dequeuePos.toNat < 2 ^ 63

theorem Bounded.cellOf_eq (hB : Bounded k m) (pos : Word) :
    cellOf k pos = pos.toNat % capacity k :=
  Ring.cellOf_eq (by unfold Bounded at hB; omega) pos

theorem mod_lt_capacity (k t : ℕ) : t % capacity k < capacity k :=
  Nat.mod_lt _ (by have := two_le_capacity k; omega)

theorem Shared.sequence_mod (hS : Shared k h m) (t : ℕ) :
    (m.sequence (t % capacity k)).toNat = turnValue k (t % capacity k) (h (t % capacity k)) :=
  hS.sequence _ (mod_lt_capacity k t)

/-- Sequences stay below `2 ^ 63`: a published ticket is below the enqueue cursor, and a released
one below the dequeue cursor. -/
theorem Shared.sequence_lt (hS : Shared k h m) (hB : Bounded k m) {c : ℕ} (hc : c < capacity k) :
    (m.sequence c).toNat < 2 ^ 63 := by
  unfold Bounded at hB
  have hC := two_le_capacity k
  have hmod : ∀ q, (c + q * capacity k) % capacity k = c := fun q => by
    rw [Nat.add_mul_mod_self_right, Nat.mod_eq_of_lt hc]
  have hdiv : ∀ q, (c + q * capacity k) / capacity k = q := fun q => by
    rw [Nat.add_mul_div_right _ _ (by omega), Nat.div_eq_of_lt hc, Nat.zero_add]
  rw [hS.sequence c hc, turnValue]
  rcases Nat.mod_two_eq_zero_or_one (h c) with h0 | h1
  · cases hq : h c / 2 with
    | zero => omega
    | succ q =>
      have := hS.lt_dequeue (c + q * capacity k) (by rw [hmod, hdiv]; omega)
      rw [Nat.add_mul]
      omega
  · have := hS.lt_enqueue (c + h c / 2 * capacity k) (by rw [hmod, hdiv]; omega)
    omega

/-- A thread's look at the cell of its own cursor, as a comparison of half turns. -/
theorem Shared.push_diff (hS : Shared k h m) (hB : Bounded k m) {pos : Word}
    (hp : pos.toNat ≤ m.enqueuePos.toNat) :
    signedDiff (m.sequence (cellOf k pos)) pos =
      (turnValue k (pos.toNat % capacity k) (h (pos.toNat % capacity k)) : ℤ) - pos.toNat := by
  have hlt := hS.sequence_lt hB (mod_lt_capacity k pos.toNat)
  have hb := hB
  unfold Bounded at hb
  rw [hB.cellOf_eq, signedDiff_eq hlt (by omega), hS.sequence_mod]

theorem Shared.pop_diff (hS : Shared k h m) (hB : Bounded k m) {pos : Word}
    (hp : pos.toNat ≤ m.dequeuePos.toNat) :
    signedDiff (m.sequence (cellOf k pos)) (pos + 1) =
      (turnValue k (pos.toNat % capacity k) (h (pos.toNat % capacity k)) : ℤ) -
        (pos.toNat + 1 : ℕ) := by
  have hlt := hS.sequence_lt hB (mod_lt_capacity k pos.toNat)
  have hC := two_le_capacity k
  have hb := hB
  unfold Bounded at hb
  have h1 : (pos + 1).toNat = pos.toNat + 1 := toNat_add_one (by omega)
  rw [hB.cellOf_eq, signedDiff_eq hlt (by omega), hS.sequence_mod, h1]

theorem Shared.push_turn (hS : Shared k h m) (hB : Bounded k m) {pos : Word}
    (hp : pos.toNat ≤ m.enqueuePos.toNat)
    (hd : signedDiff (m.sequence (cellOf k pos)) pos = 0) :
    h (pos.toNat % capacity k) = 2 * (pos.toNat / capacity k) := by
  rw [hS.push_diff hB hp] at hd
  apply (turnValue_strictMono k (pos.toNat % capacity k)).injective
  rw [turnValue_free]
  omega

theorem Shared.pop_turn (hS : Shared k h m) (hB : Bounded k m) {pos : Word}
    (hp : pos.toNat ≤ m.dequeuePos.toNat)
    (hd : signedDiff (m.sequence (cellOf k pos)) (pos + 1) = 0) :
    h (pos.toNat % capacity k) = 2 * (pos.toNat / capacity k) + 1 := by
  rw [hS.pop_diff hB hp] at hd
  apply (turnValue_strictMono k (pos.toNat % capacity k)).injective
  rw [turnValue_full]
  omega

/-- A full cell has not come round to the ticket yet. -/
theorem Shared.push_full (hS : Shared k h m) (hB : Bounded k m) {pos : Word}
    (hp : pos.toNat ≤ m.enqueuePos.toNat)
    (hd : signedDiff (m.sequence (cellOf k pos)) pos < 0) :
    h (pos.toNat % capacity k) < 2 * (pos.toNat / capacity k) := by
  rw [hS.push_diff hB hp] at hd
  apply (turnValue_strictMono k (pos.toNat % capacity k)).lt_iff_lt.mp
  rw [turnValue_free]
  omega

/-- An empty cell has not been published. -/
theorem Shared.pop_empty (hS : Shared k h m) (hB : Bounded k m) {pos : Word}
    (hp : pos.toNat ≤ m.dequeuePos.toNat)
    (hd : signedDiff (m.sequence (cellOf k pos)) (pos + 1) < 0) :
    h (pos.toNat % capacity k) < 2 * (pos.toNat / capacity k) + 1 := by
  rw [hS.pop_diff hB hp] at hd
  apply (turnValue_strictMono k (pos.toNat % capacity k)).lt_iff_lt.mp
  rw [turnValue_full]
  omega

/-! ## The steps that change the memory -/

/-- Two pushes with one ticket are one push. -/
theorem Shared.pushes_unique (hS : Shared k h m) {x y : ℕ × α} (hx : x ∈ m.pushes)
    (hy : y ∈ m.pushes) (hxy : x.1 = y.1) : x = y := by
  have hn : (m.pushes.map Prod.fst).Nodup := by
    rw [hS.pushes_fst]
    exact List.nodup_range
  exact List.inj_on_of_nodup_map hn hx hy hxy

theorem Shared.casPush (hS : Shared k h m) (hB : Bounded k m) (item : α)
    (hf : 2 * (m.enqueuePos.toNat / capacity k) ≤ h (m.enqueuePos.toNat % capacity k)) :
    Shared k h { m with
      enqueuePos := m.enqueuePos + 1
      pushes := m.pushes ++ [(m.enqueuePos.toNat, item)] } := by
  have he : (m.enqueuePos + 1).toNat = m.enqueuePos.toNat + 1 :=
    toNat_add_one (by unfold Bounded at hB; omega)
  refine ⟨hS.sequence, fun t ht => ?_, fun t ht => ?_, hS.full, hS.lt_dequeue, hS.published,
    hS.released, ?_, hS.pops_nodup, fun x hx => ?_, hS.pops_lt, hS.released_pops,
    fun x hx hh hp => ?_⟩
  · rw [he] at ht
    rcases Nat.lt_succ_iff_lt_or_eq.mp ht with ht | rfl
    · exact hS.free t ht
    · exact hf
  · rw [he]
    exact Nat.lt_succ_of_lt (hS.lt_enqueue t ht)
  · rw [he, List.map_append, hS.pushes_fst, List.range_succ]
    rfl
  · exact List.mem_append_left _ (hS.pops_sub x hx)
  · rcases List.mem_append.mp hx with hx | hx
    · exact hS.data x hx hh hp
    · rw [List.mem_singleton.mp hx] at hh
      exact absurd (hS.lt_enqueue _ hh.ge) (Nat.lt_irrefl _)

theorem Shared.casPop (hS : Shared k h m) (hB : Bounded k m)
    (hf : 2 * (m.dequeuePos.toNat / capacity k) + 1 ≤ h (m.dequeuePos.toNat % capacity k)) :
    Shared k h { m with dequeuePos := m.dequeuePos + 1 } := by
  have hd : (m.dequeuePos + 1).toNat = m.dequeuePos.toNat + 1 :=
    toNat_add_one (by unfold Bounded at hB; omega)
  refine ⟨hS.sequence, hS.free, hS.lt_enqueue, fun t ht => ?_, fun t ht => ?_, hS.published,
    hS.released, hS.pushes_fst, hS.pops_nodup, hS.pops_sub, fun x hx => ?_, hS.released_pops,
    hS.data⟩
  · rw [hd] at ht
    rcases Nat.lt_succ_iff_lt_or_eq.mp ht with ht | rfl
    · exact hS.full t ht
    · exact hf
  · rw [hd]
    exact Nat.lt_succ_of_lt (hS.lt_dequeue t ht)
  · rw [hd]
    exact Nat.lt_succ_of_lt (hS.pops_lt x hx)

theorem Shared.write (hS : Shared k h m) {p : ℕ} (v : α)
    (hp : h (p % capacity k) = 2 * (p / capacity k)) :
    Shared k h { m with data := Function.update m.data (p % capacity k) v } := by
  refine { hS with data := fun x hx hh hn => ?_ }
  have hne : x.1 % capacity k ≠ p % capacity k := by
    intro he
    rw [he] at hh
    omega
  exact (Function.update_of_ne hne _ _).trans (hS.data x hx hh hn)

theorem Shared.read (hS : Shared k h m) {p : ℕ} (v : α) (hd : p < m.dequeuePos.toNat)
    (hp : h (p % capacity k) = 2 * (p / capacity k) + 1) (hn : p ∉ m.pops.map Prod.fst) :
    Shared k h { m with
      data := Function.update m.data (p % capacity k) v
      pops := m.pops ++ [(p, m.data (p % capacity k))] } := by
  have hpush : (p, m.data (p % capacity k)) ∈ m.pushes := by
    have hk : p ∈ m.pushes.map Prod.fst := by
      rw [hS.pushes_fst, List.mem_range]
      exact hS.lt_enqueue p hp.ge
    obtain ⟨x, hx, rfl⟩ := List.mem_map.mp hk
    rw [hS.data x hx hp hn]
    exact hx
  have hmap : (m.pops ++ [(p, m.data (p % capacity k))]).map Prod.fst =
      m.pops.map Prod.fst ++ [p] := by
    rw [List.map_append]
    rfl
  refine { hS with
    pops_nodup := ?_, pops_sub := ?_, pops_lt := ?_, released_pops := ?_, data := ?_ }
  · rw [hmap, List.nodup_append]
    refine ⟨hS.pops_nodup, List.nodup_singleton p, fun a ha b hb => ?_⟩
    rw [List.mem_singleton.mp hb]
    rintro rfl
    exact hn ha
  · intro x hx
    rcases List.mem_append.mp hx with hx | hx
    · exact hS.pops_sub x hx
    · rw [List.mem_singleton.mp hx]
      exact hpush
  · intro x hx
    rcases List.mem_append.mp hx with hx | hx
    · exact hS.pops_lt x hx
    · rw [List.mem_singleton.mp hx]
      exact hd
  · intro t ht
    rw [hmap]
    exact List.mem_append_left _ (hS.released_pops t ht)
  · intro x hx hh hxn
    rw [hmap, List.mem_append, not_or, List.mem_singleton] at hxn
    have hne : x.1 % capacity k ≠ p % capacity k := by
      intro he
      rw [he] at hh
      exact hxn.2 (ticket_ext he (by omega))
    exact (Function.update_of_ne hne _ _).trans (hS.data x hx hh hxn.1)

/-- A threshold passed after one more half turn of cell `c`. -/
theorem le_bump_iff (h : ℕ → ℕ) (c t n : ℕ) :
    n ≤ bump h c t ↔ n ≤ h t ∨ t = c ∧ n = h c + 1 := by
  by_cases hc : t = c
  · subst hc
    rw [bump_self]
    omega
  · rw [bump_of_ne h hc]
    simp [hc]

theorem Shared.sequence_bump (hS : Shared k h m) {c : ℕ} {w : Word}
    (hw : w.toNat = turnValue k c (h c + 1)) :
    ∀ c' < capacity k,
      (Function.update m.sequence c w c').toNat = turnValue k c' (bump h c c') := by
  intro c' hc'
  by_cases he : c' = c
  · subst he
    rw [Function.update_self, bump_self, hw]
  · rw [Function.update_of_ne he, bump_of_ne h he, hS.sequence c' hc']

theorem Shared.publish (hS : Shared k h m) (hB : Bounded k m) {pos : Word}
    (hm : (pos.toNat, m.data (pos.toNat % capacity k)) ∈ m.pushes)
    (hp : h (pos.toNat % capacity k) = 2 * (pos.toNat / capacity k)) :
    Shared k (bump h (pos.toNat % capacity k)) { m with
      sequence := Function.update m.sequence (pos.toNat % capacity k) (pos + 1)
      published := insert pos.toNat m.published } := by
  have hlt : pos.toNat < m.enqueuePos.toNat := by
    have hk : pos.toNat ∈ m.pushes.map Prod.fst := List.mem_map.mpr ⟨_, hm, rfl⟩
    rwa [hS.pushes_fst, List.mem_range] at hk
  have hw : (pos + 1).toNat = turnValue k (pos.toNat % capacity k)
      (h (pos.toNat % capacity k) + 1) := by
    rw [hp, turnValue_full, toNat_add_one (by unfold Bounded at hB; omega)]
  refine { hS with
    sequence := hS.sequence_bump hw, free := ?_, lt_enqueue := ?_, full := ?_, lt_dequeue := ?_,
    published := ?_, released := ?_, data := ?_ }
  · exact fun t ht => (hS.free t ht).trans (le_bump _ _ _)
  · intro t ht
    rcases (le_bump_iff _ _ _ _).mp ht with ht | ⟨hc, hn⟩
    · exact hS.lt_enqueue t ht
    · rw [ticket_ext hc (by omega)]
      exact hlt
  · exact fun t ht => (hS.full t ht).trans (le_bump _ _ _)
  · intro t ht
    rcases (le_bump_iff _ _ _ _).mp ht with ht | ⟨_, hn⟩
    · exact hS.lt_dequeue t ht
    · omega
  · intro t
    rw [Finset.mem_insert, hS.published, le_bump_iff]
    constructor
    · rintro (rfl | ht)
      · exact Or.inr ⟨rfl, by omega⟩
      · exact Or.inl ht
    · rintro (ht | ⟨hc, hn⟩)
      · exact Or.inr ht
      · exact Or.inl (ticket_ext hc (by omega))
  · intro t
    rw [hS.released, le_bump_iff]
    exact ⟨Or.inl, fun ht => ht.resolve_right fun ⟨_, hn⟩ => by omega⟩
  · intro x hx hh hn
    by_cases hc : x.1 % capacity k = pos.toNat % capacity k
    · rw [hc, bump_self] at hh
      have hxp : x.1 = pos.toNat := ticket_ext hc (by omega)
      show m.data (x.1 % capacity k) = x.2
      rw [hc, hS.pushes_unique hx hm hxp]
    · rw [bump_of_ne h hc] at hh
      exact hS.data x hx hh hn

theorem Shared.release (hS : Shared k h m) (hB : Bounded k m) {pos : Word}
    (hlt : pos.toNat < m.dequeuePos.toNat)
    (hp : h (pos.toNat % capacity k) = 2 * (pos.toNat / capacity k) + 1)
    (hm : pos.toNat ∈ m.pops.map Prod.fst) :
    Shared k (bump h (pos.toNat % capacity k)) { m with
      sequence := Function.update m.sequence (pos.toNat % capacity k)
        (pos + BitVec.ofNat 64 (capacity k - 1) + 1)
      released := insert pos.toNat m.released } := by
  have hC := two_le_capacity k
  have hw : (pos + BitVec.ofNat 64 (capacity k - 1) + 1).toNat =
      turnValue k (pos.toNat % capacity k) (h (pos.toNat % capacity k) + 1) := by
    unfold Bounded at hB
    rw [hp, turnValue_next, BitVec.toNat_add, BitVec.toNat_add, BitVec.toNat_ofNat]
    change ((pos.toNat + (capacity k - 1) % 2 ^ 64) % 2 ^ 64 + 1) % 2 ^ 64 = _
    omega
  refine { hS with
    sequence := hS.sequence_bump hw, free := ?_, lt_enqueue := ?_, full := ?_, lt_dequeue := ?_,
    published := ?_, released := ?_, released_pops := ?_, data := ?_ }
  · exact fun t ht => (hS.free t ht).trans (le_bump _ _ _)
  · intro t ht
    rcases (le_bump_iff _ _ _ _).mp ht with ht | ⟨_, hn⟩
    · exact hS.lt_enqueue t ht
    · omega
  · exact fun t ht => (hS.full t ht).trans (le_bump _ _ _)
  · intro t ht
    rcases (le_bump_iff _ _ _ _).mp ht with ht | ⟨hc, hn⟩
    · exact hS.lt_dequeue t ht
    · rw [ticket_ext hc (by omega)]
      exact hlt
  · intro t
    rw [hS.published, le_bump_iff]
    exact ⟨Or.inl, fun ht => ht.resolve_right fun ⟨_, hn⟩ => by omega⟩
  · intro t
    rw [Finset.mem_insert, hS.released, le_bump_iff]
    constructor
    · rintro (rfl | ht)
      · exact Or.inr ⟨rfl, by omega⟩
      · exact Or.inl ht
    · rintro (ht | ⟨hc, hn⟩)
      · exact Or.inr ht
      · exact Or.inl (ticket_ext hc (by omega))
  · intro t ht
    rcases Finset.mem_insert.mp ht with rfl | ht
    · exact hm
    · exact hS.released_pops t ht
  · intro x hx hh hn
    by_cases hc : x.1 % capacity k = pos.toNat % capacity k
    · rw [hc, bump_self] at hh
      omega
    · rw [bump_of_ne h hc] at hh
      exact hS.data x hx hh hn

end AetherMoE.Ring
