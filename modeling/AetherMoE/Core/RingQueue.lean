import AetherMoE.Core.RingInvariant
import AetherMoE.Lib.Fifo
import Mathlib.Data.Nat.ModEq

/-!
# The ring buffer as a bounded queue

`try_push`, `try_pop` and `size_approx` of `spmc_ring_buffer.hpp` as functions of the buffer, for
calls that no other call overlaps. Cursors and sequences are words and wrap. What the buffer holds
is read off its words alone: the items of the cells from `dequeue_pos_` up to `enqueue_pos_`.

* `Buffer`, `tryPush`, `tryPop`, `sizeApprox`: the operations;
* **`tryPush_of_acts`**, **`tryPop_of_acts`**: a call of the concurrent model that runs alone
  does what the function says;
* `WellFormed`, `tryPush_spec`, `tryPop_spec`: the sequences tell full cells from free ones;
* **`refines_fifo`**: every list of calls is answered as a bounded queue answers it.
-/

namespace AetherMoE.Ring

open Relation Fifo

variable {α : Type}

/-! ## The operations -/

/-- The members of `LockFreeRingBuffer`. -/
structure Buffer (α : Type) where
  enqueuePos : Word
  dequeuePos : Word
  sequence : ℕ → Word
  data : ℕ → α

/-- The members, without the history of the run. -/
def Memory.buffer (m : Memory α) : Buffer α := ⟨m.enqueuePos, m.dequeuePos, m.sequence, m.data⟩

/-- The constructor. -/
def Buffer.init [Inhabited α] : Buffer α := Memory.init.buffer

/-- What a won `try_push` leaves: the cursor advanced, the item in its cell, the cell published. -/
def Buffer.pushed (k : ℕ) (item : α) (b : Buffer α) : Buffer α where
  enqueuePos := b.enqueuePos + 1
  dequeuePos := b.dequeuePos
  sequence := Function.update b.sequence (cellOf k b.enqueuePos) (b.enqueuePos + 1)
  data := Function.update b.data (cellOf k b.enqueuePos) item

/-- `try_push`. With nobody else inside, the compare-exchange finds the cursor as it was read; a
positive difference would be found again on every round, so the call would not return: `none`. -/
def tryPush (k : ℕ) (item : α) (b : Buffer α) : Option (Bool × Buffer α) :=
  let diff := signedDiff (b.sequence (cellOf k b.enqueuePos)) b.enqueuePos
  if diff = 0 then some (true, b.pushed k item)
  else if diff < 0 then some (false, b)
  else none

/-- What a won `try_pop` leaves: the cursor advanced, the item moved out, the cell released to the
next round. -/
def Buffer.popped (k : ℕ) (moved : α → α) (b : Buffer α) : Buffer α where
  enqueuePos := b.enqueuePos
  dequeuePos := b.dequeuePos + 1
  sequence := Function.update b.sequence (cellOf k b.dequeuePos)
    (b.dequeuePos + BitVec.ofNat 64 (capacity k - 1) + 1)
  data := Function.update b.data (cellOf k b.dequeuePos) (moved (b.data (cellOf k b.dequeuePos)))

/-- `try_pop`: what it stores in `out` when it returns true, `none` inside when it returns
false. -/
def tryPop (k : ℕ) (moved : α → α) (b : Buffer α) : Option (Option α × Buffer α) :=
  let diff := signedDiff (b.sequence (cellOf k b.dequeuePos)) (b.dequeuePos + 1)
  if diff = 0 then some (some (b.data (cellOf k b.dequeuePos)), b.popped k moved)
  else if diff < 0 then some (none, b)
  else none

/-- `size_approx`. -/
def sizeApprox (b : Buffer α) : Word :=
  if b.dequeuePos ≤ b.enqueuePos then b.enqueuePos - b.dequeuePos else 0

/-- The buffer as a machine that answers the operations of a queue. -/
def answer (k : ℕ) (moved : α → α) : Op α → Buffer α → Option (Reply α × Buffer α)
  | .push item, b => (tryPush k item b).map fun x => (.pushed x.1, x.2)
  | .pop, b => (tryPop k moved b).map fun x => (.popped x.1, x.2)

variable {k : ℕ} {moved : α → α} {item : α} {b : Buffer α}

theorem tryPush_turn (h : signedDiff (b.sequence (cellOf k b.enqueuePos)) b.enqueuePos = 0) :
    tryPush k item b = some (true, b.pushed k item) := if_pos h

theorem tryPush_full (h : signedDiff (b.sequence (cellOf k b.enqueuePos)) b.enqueuePos < 0) :
    tryPush k item b = some (false, b) := (if_neg h.ne).trans (if_pos h)

theorem tryPop_turn
    (h : signedDiff (b.sequence (cellOf k b.dequeuePos)) (b.dequeuePos + 1) = 0) :
    tryPop k moved b = some (some (b.data (cellOf k b.dequeuePos)), b.popped k moved) := if_pos h

theorem tryPop_empty
    (h : signedDiff (b.sequence (cellOf k b.dequeuePos)) (b.dequeuePos + 1) < 0) :
    tryPop k moved b = some (none, b) := (if_neg h.ne).trans (if_pos h)

/-! ## Calls of the concurrent model that run alone -/

/-- A step inside a call, with nobody else in the buffer. -/
def Alone (k : ℕ) (moved : α → α) (x y : Memory α × Local α) : Prop :=
  (x.2 = .idle → False) ∧ Act k moved x.1 x.2 y.1 y.2

variable {m : Memory α}

/-- The points of a `try_push` call that runs alone from `m`. -/
inductive Pushing (k : ℕ) (item : α) (m : Memory α) : Memory α × Local α → Prop
  | load : Pushing k item m (m, .pushLoad item)
  | seq : Pushing k item m (m, .pushSeq item m.enqueuePos)
  | cas (h : signedDiff (m.sequence (cellOf k m.enqueuePos)) m.enqueuePos = 0) :
      Pushing k item m (m, .pushCas item m.enqueuePos)
  | write (m' : Memory α)
      (h : signedDiff (m.sequence (cellOf k m.enqueuePos)) m.enqueuePos = 0)
      (hm : m'.buffer = ⟨m.enqueuePos + 1, m.dequeuePos, m.sequence, m.data⟩) :
      Pushing k item m (m', .pushWrite item m.enqueuePos)
  | publish (m' : Memory α)
      (h : signedDiff (m.sequence (cellOf k m.enqueuePos)) m.enqueuePos = 0)
      (hm : m'.buffer = ⟨m.enqueuePos + 1, m.dequeuePos, m.sequence,
        Function.update m.data (cellOf k m.enqueuePos) item⟩) :
      Pushing k item m (m', .pushPublish m.enqueuePos)
  | done (m' : Memory α) (ok : Bool) (h : tryPush k item m.buffer = some (ok, m'.buffer)) :
      Pushing k item m (m', .idle)

theorem Pushing.step {x y : Memory α × Local α} (hx : Pushing k item m x)
    (h : Alone k moved x y) : Pushing k item m y := by
  obtain ⟨y₁, y₂⟩ := y
  obtain ⟨hne, h⟩ := h
  cases hx with
  | load =>
    cases h
    exact .seq
  | seq =>
    cases h with
    | pushTurn _ _ h0 => exact .cas h0
    | pushFull _ _ h0 => exact .done _ false (tryPush_full (b := m.buffer) h0)
    | pushBehind => exact .load
  | cas h0 =>
    cases h with
    | pushCasWin => exact .write _ h0 rfl
    | pushCasFail => exact .seq
  | write m' h0 hm =>
    cases h
    refine .publish _ h0 ?_
    simp only [Memory.buffer, Buffer.mk.injEq] at hm ⊢
    obtain ⟨he, hq, hs, hd⟩ := hm
    exact ⟨he, hq, hs, by rw [hd]⟩
  | publish m' h0 hm =>
    cases h
    refine .done _ true ((tryPush_turn (b := m.buffer) h0).trans ?_)
    simp only [Memory.buffer, Buffer.mk.injEq, Buffer.pushed, Option.some.injEq,
      Prod.mk.injEq] at hm ⊢
    obtain ⟨he, hq, hs, hd⟩ := hm
    exact ⟨trivial, he.symm, hq.symm, by rw [hs], hd.symm⟩
  | done => exact absurd rfl hne

/-- **A `try_push` that runs alone** does what the function says. -/
theorem tryPush_of_acts {m' : Memory α}
    (h : ReflTransGen (Alone k moved) (m, .pushLoad item) (m', .idle)) :
    ∃ ok, tryPush k item m.buffer = some (ok, m'.buffer) := by
  have hp : Pushing k item m (m', .idle) :=
    Stepping.invariant .load (fun _ _ hx hxy => hx.step hxy) h
  cases hp with
  | done _ ok hok => exact ⟨ok, hok⟩

/-- The points of a `try_pop` call that runs alone from `m`. -/
inductive Popping (k : ℕ) (moved : α → α) (m : Memory α) : Memory α × Local α → Prop
  | load : Popping k moved m (m, .popLoad)
  | seq : Popping k moved m (m, .popSeq m.dequeuePos)
  | cas (h : signedDiff (m.sequence (cellOf k m.dequeuePos)) (m.dequeuePos + 1) = 0) :
      Popping k moved m (m, .popCas m.dequeuePos)
  | read (m' : Memory α)
      (h : signedDiff (m.sequence (cellOf k m.dequeuePos)) (m.dequeuePos + 1) = 0)
      (hm : m'.buffer = ⟨m.enqueuePos, m.dequeuePos + 1, m.sequence, m.data⟩) :
      Popping k moved m (m', .popRead m.dequeuePos)
  | release (m' : Memory α)
      (h : signedDiff (m.sequence (cellOf k m.dequeuePos)) (m.dequeuePos + 1) = 0)
      (hm : m'.buffer = ⟨m.enqueuePos, m.dequeuePos + 1, m.sequence,
        Function.update m.data (cellOf k m.dequeuePos)
          (moved (m.data (cellOf k m.dequeuePos)))⟩) :
      Popping k moved m (m', .popRelease m.dequeuePos)
  | done (m' : Memory α) (out : Option α)
      (h : tryPop k moved m.buffer = some (out, m'.buffer)) : Popping k moved m (m', .idle)

theorem Popping.step {x y : Memory α × Local α} (hx : Popping k moved m x)
    (h : Alone k moved x y) : Popping k moved m y := by
  obtain ⟨y₁, y₂⟩ := y
  obtain ⟨hne, h⟩ := h
  cases hx with
  | load =>
    cases h
    exact .seq
  | seq =>
    cases h with
    | popTurn _ h0 => exact .cas h0
    | popEmpty _ h0 => exact .done _ none (tryPop_empty (b := m.buffer) h0)
    | popBehind => exact .load
  | cas h0 =>
    cases h with
    | popCasWin => exact .read _ h0 rfl
    | popCasFail => exact .seq
  | read m' h0 hm =>
    cases h
    refine .release _ h0 ?_
    simp only [Memory.buffer, Buffer.mk.injEq] at hm ⊢
    obtain ⟨he, hq, hs, hd⟩ := hm
    exact ⟨he, hq, hs, by rw [hd]⟩
  | release m' h0 hm =>
    cases h
    refine .done _ (some (m.data (cellOf k m.dequeuePos)))
      ((tryPop_turn (b := m.buffer) h0).trans ?_)
    simp only [Memory.buffer, Buffer.mk.injEq, Buffer.popped, Option.some.injEq,
      Prod.mk.injEq] at hm ⊢
    obtain ⟨he, hq, hs, hd⟩ := hm
    exact ⟨trivial, he.symm, hq.symm, by rw [hs], hd.symm⟩
  | done => exact absurd rfl hne

/-- **A `try_pop` that runs alone** does what the function says. -/
theorem tryPop_of_acts {m' : Memory α}
    (h : ReflTransGen (Alone k moved) (m, .popLoad) (m', .idle)) :
    ∃ out, tryPop k moved m.buffer = some (out, m'.buffer) := by
  have hp : Popping k moved m (m', .idle) :=
    Stepping.invariant .load (fun _ _ hx hxy => hx.step hxy) h
  cases hp with
  | done _ out hout => exact ⟨out, hout⟩

/-! ## What the buffer holds -/

/-- The number of items, from the two cursors. -/
def Buffer.size (b : Buffer α) : ℕ := (b.enqueuePos - b.dequeuePos).toNat

/-- The cell of the ticket `i` places after the oldest one. -/
def Buffer.cell (k : ℕ) (b : Buffer α) (i : ℕ) : ℕ :=
  cellOf k (b.dequeuePos + BitVec.ofNat 64 i)

/-- The items, oldest first. -/
def Buffer.contents (k : ℕ) (b : Buffer α) : List α :=
  (List.range b.size).map fun i => b.data (b.cell k i)

/-- The representation: a full cell carries its ticket plus one, a free one the ticket that will
fill it next. -/
structure WellFormed (k : ℕ) (b : Buffer α) : Prop where
  size_le : b.size ≤ capacity k
  full : ∀ i < b.size, b.sequence (b.cell k i) = b.dequeuePos + BitVec.ofNat 64 i + 1
  free : ∀ i < capacity k, b.size ≤ i →
    b.sequence (b.cell k i) = b.dequeuePos + BitVec.ofNat 64 i

theorem length_contents (b : Buffer α) : (b.contents k).length = b.size := by
  rw [Buffer.contents, List.length_map, List.length_range]

theorem capacity_le (hk : k ≤ 61) : capacity k ≤ 2 ^ 62 :=
  Nat.pow_le_pow_right Nat.two_pos (by omega)

theorem capacity_dvd (hk : k ≤ 61) : capacity k ∣ 2 ^ 64 := Nat.pow_dvd_pow 2 (by omega)

theorem cellOf_add (hk : k ≤ 61) (w : Word) (i : ℕ) :
    cellOf k (w + BitVec.ofNat 64 i) = (w.toNat + i) % capacity k := by
  have hc := capacity_le hk
  rw [cellOf_eq (by omega), BitVec.toNat_add, BitVec.toNat_ofNat, Nat.add_mod_mod,
    Nat.mod_mod_of_dvd _ (capacity_dvd hk)]

/-- Tickets less than a round apart have cells of their own. -/
theorem cell_injective (hk : k ≤ 61) {i j : ℕ} (hi : i < capacity k) (hj : j < capacity k)
    (h : b.cell k i = b.cell k j) : i = j := by
  rw [Buffer.cell, Buffer.cell, cellOf_add hk, cellOf_add hk] at h
  have hm : i ≡ j [MOD capacity k] := Nat.ModEq.add_left_cancel' b.dequeuePos.toNat h
  rwa [Nat.ModEq, Nat.mod_eq_of_lt hi, Nat.mod_eq_of_lt hj] at hm

theorem enqueuePos_eq (b : Buffer α) :
    b.enqueuePos = b.dequeuePos + BitVec.ofNat 64 b.size := by
  rw [Buffer.size, BitVec.ofNat_toNat, BitVec.setWidth_eq]
  rw [BitVec.add_comm, BitVec.sub_add_cancel]

theorem cellOf_enqueuePos (b : Buffer α) : cellOf k b.enqueuePos = b.cell k b.size := by
  rw [Buffer.cell, ← enqueuePos_eq]

theorem cellOf_dequeuePos (b : Buffer α) : cellOf k b.dequeuePos = b.cell k 0 := by
  rw [Buffer.cell, BitVec.add_zero]

theorem cell_capacity (hk : k ≤ 61) (b : Buffer α) : b.cell k (capacity k) = b.cell k 0 := by
  rw [Buffer.cell, Buffer.cell, cellOf_add hk, cellOf_add hk, Nat.add_mod_right, add_zero]

theorem size_init [Inhabited α] : (Buffer.init : Buffer α).size = 0 := by
  change ((0 : Word) - 0).toNat = 0
  decide

theorem wellFormed_init [Inhabited α] (hk : k ≤ 61) : WellFormed k (Buffer.init : Buffer α) where
  size_le := by
    rw [size_init]
    exact Nat.zero_le _
  full := by
    intro i hi
    rw [size_init] at hi
    omega
  free := by
    intro i hi _
    have hc : (Buffer.init : Buffer α).cell k i = i := by
      rw [Buffer.cell, cellOf_add hk]
      change (0 + i) % _ = i
      rw [zero_add, Nat.mod_eq_of_lt hi]
    rw [hc]
    exact (BitVec.zero_add _).symm

/-! ## Pushing -/

theorem size_pushed (hk : k ≤ 61) (hlt : b.size < capacity k) :
    (b.pushed k item).size = b.size + 1 := by
  have hc := capacity_le hk
  simp only [Buffer.size, Buffer.pushed] at hlt ⊢
  bv_omega

theorem cell_pushed (i : ℕ) : (b.pushed k item).cell k i = b.cell k i := rfl

/-- A push into a free cell leaves every other cell as it was. -/
theorem cell_ne_of_ne_size (hk : k ≤ 61) (hlt : b.size < capacity k) {i : ℕ}
    (hi : i < capacity k) (hne : i ≠ b.size) : b.cell k i ≠ cellOf k b.enqueuePos := by
  rw [cellOf_enqueuePos]
  exact fun h => hne (cell_injective hk hi hlt h)

theorem WellFormed.pushed (h : WellFormed k b) (hk : k ≤ 61) (hlt : b.size < capacity k) :
    WellFormed k (b.pushed k item) := by
  have hs : (b.pushed k item).size = b.size + 1 := size_pushed hk hlt
  have hother : ∀ i < capacity k, i ≠ b.size →
      (b.pushed k item).sequence (b.cell k i) = b.sequence (b.cell k i) := fun i hi hne =>
    Function.update_of_ne (cell_ne_of_ne_size hk hlt hi hne) _ _
  refine ⟨?_, fun i hi => ?_, fun i hi hge => ?_⟩
  · rw [hs]
    omega
  · rw [hs] at hi
    rw [cell_pushed]
    by_cases hne : i = b.size
    · subst hne
      rw [← cellOf_enqueuePos]
      exact (Function.update_self _ _ _).trans (congrArg (· + 1) (enqueuePos_eq b))
    · rw [hother i (by omega) hne]
      exact h.full i (by omega)
  · rw [hs] at hge
    rw [cell_pushed, hother i hi (by omega)]
    exact h.free i hi (by omega)

theorem contents_pushed (hk : k ≤ 61) (hlt : b.size < capacity k) :
    (b.pushed k item).contents k = b.contents k ++ [item] := by
  rw [Buffer.contents, size_pushed hk hlt, List.range_succ, List.map_append, List.map_singleton,
    Buffer.contents]
  congr 1
  · apply List.map_congr_left
    intro i hi
    have hi' := List.mem_range.mp hi
    exact Function.update_of_ne (cell_ne_of_ne_size hk hlt (by omega) (by omega)) _ _
  · rw [cell_pushed, ← cellOf_enqueuePos]
    exact congrArg (fun a => [a]) (Function.update_self _ _ _)

/-- While a cell is free, `try_push` takes the item. -/
theorem tryPush_of_lt (h : WellFormed k b) (hlt : b.size < capacity k) :
    tryPush k item b = some (true, b.pushed k item) := by
  apply tryPush_turn
  rw [cellOf_enqueuePos, h.free _ hlt le_rfl, ← enqueuePos_eq, signedDiff, BitVec.sub_self]
  rfl

/-- On a full buffer the cell of `enqueue_pos_` still carries the ticket of the oldest item. -/
theorem tryPush_of_eq (h : WellFormed k b) (hk : k ≤ 61) (heq : b.size = capacity k) :
    tryPush k item b = some (false, b) := by
  apply tryPush_full
  have hc := capacity_le hk
  have h2 := two_le_capacity k
  have hseq : b.sequence (cellOf k b.enqueuePos) = b.dequeuePos + 1 := by
    rw [cellOf_enqueuePos, heq, cell_capacity hk, h.full 0 (by omega), BitVec.add_zero]
  have hd : b.dequeuePos + 1 - b.enqueuePos = 1 - BitVec.ofNat 64 (capacity k) := by
    rw [enqueuePos_eq b, heq]
    bv_omega
  rw [hseq, signedDiff, hd, BitVec.toInt_eq_toNat_cond, BitVec.toNat_sub, BitVec.toNat_ofNat]
  change (if 2 * ((2 ^ 64 - capacity k % 2 ^ 64 + 1) % 2 ^ 64) < 2 ^ 64 then _ else _) < (0 : ℤ)
  split_ifs <;> omega

/-! ## Popping -/

theorem size_popped (hpos : 0 < b.size) : (b.popped k moved).size = b.size - 1 := by
  simp only [Buffer.size, Buffer.popped] at hpos ⊢
  bv_omega

theorem cell_popped (i : ℕ) : (b.popped k moved).cell k i = b.cell k (i + 1) := by
  have h : b.dequeuePos + 1 + BitVec.ofNat 64 i = b.dequeuePos + BitVec.ofNat 64 (i + 1) := by
    bv_omega
  exact congrArg (cellOf k) h

theorem cell_ne_of_pos (hk : k ≤ 61) {i : ℕ} (hi : i < capacity k) (hpos : 0 < i) :
    b.cell k i ≠ cellOf k b.dequeuePos := by
  rw [cellOf_dequeuePos]
  intro h
  have := cell_injective hk hi (by omega) h
  omega

theorem WellFormed.popped (h : WellFormed k b) (hk : k ≤ 61) (hpos : 0 < b.size) :
    WellFormed k (b.popped k moved) := by
  have hs : (b.popped k moved).size = b.size - 1 := size_popped hpos
  have hle := h.size_le
  have hother : ∀ i < capacity k, 0 < i →
      (b.popped k moved).sequence (b.cell k i) = b.sequence (b.cell k i) := fun i hi hi0 =>
    Function.update_of_ne (cell_ne_of_pos hk hi hi0) _ _
  have hadd : ∀ i, (b.popped k moved).dequeuePos + BitVec.ofNat 64 i =
      b.dequeuePos + BitVec.ofNat 64 (i + 1) := by
    intro i
    change b.dequeuePos + 1 + _ = _
    bv_omega
  refine ⟨?_, fun i hi => ?_, fun i hi hge => ?_⟩
  · rw [hs]
    omega
  · rw [hs] at hi
    rw [cell_popped, hother _ (by omega) (by omega), hadd]
    exact h.full (i + 1) (by omega)
  · rw [hs] at hge
    rw [cell_popped, hadd]
    by_cases hlast : i + 1 = capacity k
    -- the cell just released is the last one of the next round
    · rw [hlast, cell_capacity hk, ← cellOf_dequeuePos]
      refine (Function.update_self _ _ _).trans ?_
      rw [← hlast, Nat.add_sub_cancel]
      bv_omega
    · rw [hother _ (by omega) (by omega)]
      exact h.free (i + 1) (by omega) (by omega)

theorem contents_of_pos (moved : α → α) (h : WellFormed k b) (hk : k ≤ 61) (hpos : 0 < b.size) :
    b.contents k = b.data (cellOf k b.dequeuePos) :: (b.popped k moved).contents k := by
  have hle := h.size_le
  obtain ⟨n, hn⟩ : ∃ n, b.size = n + 1 := ⟨b.size - 1, by omega⟩
  rw [Buffer.contents, Buffer.contents, size_popped hpos, hn, List.range_succ_eq_map,
    List.map_cons, List.map_map, cellOf_dequeuePos, Nat.add_sub_cancel]
  congr 1
  apply List.map_congr_left
  intro i hi
  have hi' := List.mem_range.mp hi
  rw [cell_popped]
  exact (Function.update_of_ne (cell_ne_of_pos hk (by omega) (by omega)) _ _).symm

/-- While an item waits, `try_pop` hands the oldest one out. -/
theorem tryPop_of_pos (h : WellFormed k b) (hpos : 0 < b.size) :
    tryPop k moved b = some (some (b.data (cellOf k b.dequeuePos)), b.popped k moved) := by
  apply tryPop_turn
  rw [cellOf_dequeuePos, h.full 0 hpos, BitVec.add_zero, signedDiff, BitVec.sub_self]
  rfl

/-- On an empty buffer the cell of `dequeue_pos_` still waits for its push. -/
theorem tryPop_of_zero (h : WellFormed k b) (hz : b.size = 0) :
    tryPop k moved b = some (none, b) := by
  apply tryPop_empty
  have h2 := two_le_capacity k
  have hd : b.dequeuePos - (b.dequeuePos + 1) = -1 := by bv_omega
  rw [cellOf_dequeuePos, h.free 0 (by omega) hz.le, BitVec.add_zero, signedDiff, hd]
  decide

/-! ## The refinement -/

/-- A well-formed buffer stands for the queue of its contents. -/
def Represents (k : ℕ) (b : Buffer α) (q : List α) : Prop := WellFormed k b ∧ b.contents k = q

/-- One call is answered as the bounded queue answers it. -/
theorem answer_refines (hk : k ≤ 61) (moved : α → α) (op : Op α) (b : Buffer α) (q : List α)
    (h : Represents k b q) :
    ∃ r b' q', answer k moved op b = some (r, b') ∧ serve (capacity k) op q = some (r, q') ∧
      Represents k b' q' := by
  obtain ⟨hwf, rfl⟩ := h
  have hlen := length_contents (k := k) b
  cases op with
  | push item =>
    rcases hwf.size_le.lt_or_eq with hlt | heq
    · refine ⟨.pushed true, b.pushed k item, b.contents k ++ [item], ?_, ?_, ?_⟩
      · rw [answer, tryPush_of_lt hwf hlt, Option.map_some]
      · rw [serve, if_pos (by omega)]
      · exact ⟨hwf.pushed hk hlt, contents_pushed hk hlt⟩
    · refine ⟨.pushed false, b, b.contents k, ?_, ?_, hwf, rfl⟩
      · rw [answer, tryPush_of_eq hwf hk heq, Option.map_some]
      · rw [serve, if_neg (by omega)]
  | pop =>
    rcases Nat.eq_zero_or_pos b.size with hz | hpos
    · have hnil : b.contents k = [] := List.length_eq_zero_iff.mp (hlen.trans hz)
      refine ⟨.popped none, b, [], ?_, ?_, hwf, hnil⟩
      · rw [answer, tryPop_of_zero hwf hz, Option.map_some]
      · rw [hnil, serve]
    · refine ⟨.popped (some (b.data (cellOf k b.dequeuePos))), b.popped k moved,
        (b.popped k moved).contents k, ?_, ?_, hwf.popped hk hpos, rfl⟩
      · rw [answer, tryPop_of_pos hwf hpos, Option.map_some]
      · rw [contents_of_pos moved hwf hk hpos, serve]

theorem represents_init [Inhabited α] (hk : k ≤ 61) :
    Represents k (Buffer.init : Buffer α) [] := by
  refine ⟨wellFormed_init hk, List.length_eq_zero_iff.mp ?_⟩
  rw [length_contents, size_init]

/-- Every buffer that pushes and pops can produce is well formed. -/
theorem wellFormed_of_run [Inhabited α] (hk : k ≤ 61) {ops : List (Op α)} {rs : List (Reply α)}
    (h : runAll (answer k moved) ops Buffer.init = some (rs, b)) : WellFormed k b := by
  obtain ⟨rs', b', q, hb, -, hrep⟩ := runAll_refines (answer_refines hk moved) ops
    (represents_init hk)
  rw [h] at hb
  cases hb
  exact hrep.1

/-- A cursor advances by one with every call it answers with success. -/
theorem answer_cursors {op : Op α} {b b' : Buffer α} {r : Reply α}
    (h : answer k moved op b = some (r, b')) :
    b'.enqueuePos = b.enqueuePos + BitVec.ofNat 64 r.pushes ∧
    b'.dequeuePos = b.dequeuePos + BitVec.ofNat 64 r.pops := by
  cases op with
  | push item =>
    simp only [answer, tryPush] at h
    split_ifs at h <;> cases h
    · exact ⟨rfl, (BitVec.add_zero _).symm⟩
    · exact ⟨(BitVec.add_zero _).symm, (BitVec.add_zero _).symm⟩
  | pop =>
    simp only [answer, tryPop] at h
    split_ifs at h <;> cases h
    · exact ⟨(BitVec.add_zero _).symm, rfl⟩
    · exact ⟨(BitVec.add_zero _).symm, (BitVec.add_zero _).symm⟩

/-- The cursors of a run count its successful calls, modulo `2 ^ 64`. -/
theorem cursors_eq [Inhabited α] {ops : List (Op α)} {rs : List (Reply α)} {b : Buffer α}
    (h : runAll (answer k moved) ops Buffer.init = some (rs, b)) :
    b.enqueuePos = BitVec.ofNat 64 (rs.map Reply.pushes).sum ∧
    b.dequeuePos = BitVec.ofNat 64 (rs.map Reply.pops).sum := by
  let P : List (Reply α) → Buffer α → Prop := fun rs b =>
    b.enqueuePos = BitVec.ofNat 64 (rs.map Reply.pushes).sum ∧
    b.dequeuePos = BitVec.ofNat 64 (rs.map Reply.pops).sum
  have hstep : ∀ op b r b' rs, P rs b → answer k moved op b = some (r, b') →
      P (rs ++ [r]) b' := by
    intro op b r b' rs hP hr
    obtain ⟨he, hd⟩ := answer_cursors hr
    constructor
    · rw [he, hP.1, List.map_append, List.sum_append, List.map_singleton, List.sum_singleton,
        BitVec.ofNat_add]
    · rw [hd, hP.2, List.map_append, List.sum_append, List.map_singleton, List.sum_singleton,
        BitVec.ofNat_add]
  have h₀ : P [] (Buffer.init : Buffer α) := ⟨rfl, rfl⟩
  exact runAll_invariant hstep h₀ h

theorem sizeApprox_eq {P Q : ℕ} (hP : P < 2 ^ 64) (hQ : Q ≤ P)
    (he : b.enqueuePos = BitVec.ofNat 64 P) (hd : b.dequeuePos = BitVec.ofNat 64 Q) :
    (sizeApprox b).toNat = P - Q := by
  have hle : b.dequeuePos ≤ b.enqueuePos := by
    rw [he, hd]
    bv_omega
  rw [sizeApprox, if_pos hle, he, hd]
  bv_omega

/-- **The ring buffer refines the bounded queue.** Every list of `try_push` and `try_pop` calls
returns, with the answers of a queue that holds at most `Capacity` items, however often the words
have wrapped; `size_approx` is the queue's length while the cursors have not wrapped, that is
while fewer than `2 ^ 64` items have been taken in. -/
theorem refines_fifo [Inhabited α] (k : ℕ) (hk : k ≤ 61) (moved : α → α) (ops : List (Op α)) :
    ∃ replies b q, runAll (answer k moved) ops Buffer.init = some (replies, b) ∧
      runAll (serve (capacity k)) ops [] = some (replies, q) ∧
      b.contents k = q ∧
      ((replies.map Reply.pushes).sum < 2 ^ 64 → (sizeApprox b).toNat = q.length) := by
  obtain ⟨rs, b, q, hb, hq, hrep⟩ := runAll_refines (answer_refines hk moved) ops
    (represents_init hk)
  refine ⟨rs, b, q, hb, hq, hrep.2, fun hlt => ?_⟩
  obtain ⟨he, hd⟩ := cursors_eq hb
  have hcount := pushed_add_length hq
  rw [List.length_nil, zero_add] at hcount
  rw [sizeApprox_eq hlt (by omega) he hd]
  omega

/-- Capacity two: the third push is refused, and the first item is the first to come out. -/
theorem refines_fifo_two :
    ∃ (replies : List (Reply ℕ)) (b : Buffer ℕ) (q : List ℕ),
      runAll (answer 0 id) [.push 5, .push 6, .push 7, .pop] Buffer.init = some (replies, b) ∧
      runAll (serve (capacity 0)) [.push 5, .push 6, .push 7, .pop] [] = some (replies, q) ∧
      b.contents 0 = q ∧
      ((replies.map Reply.pushes).sum < 2 ^ 64 → (sizeApprox b).toNat = q.length) :=
  refines_fifo 0 (by decide) id _

end AetherMoE.Ring
