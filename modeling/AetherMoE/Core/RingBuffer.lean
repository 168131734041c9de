import AetherMoE.Lib.Reach
import Mathlib.Algebra.BigOperators.Group.Finset.Basic
import Mathlib.Data.Fintype.Basic
import Mathlib.Tactic.Linarith

/-!
# The lock-free ring buffer under concurrency

`LockFreeRingBuffer` of `spmc_ring_buffer.hpp`, with any number of threads inside `try_push` and
`try_pop`. Every atomic load, every compare-exchange, every move of an item and every store of a
cell's sequence is one step. Cursors and sequences are 64-bit words, differences are taken in
two's complement. `Capacity` ranges over the powers of two from `2` on.

* `Local`, `Memory`: a thread's position in its call, and what the threads share;
* `Memory.pushes`, `Memory.pops`, `Memory.published`, `Memory.released`: the history, by ticket;
* `Act`, `Step`: the atomic steps of one thread, and of any thread.
-/

namespace AetherMoE.Ring

open Relation Stepping

/-- `std::size_t`. -/
abbrev Word := BitVec 64

/-- `Capacity`, for the exponent `k + 1`. -/
def capacity (k : ℕ) : ℕ := 2 ^ (k + 1)

/-- `pos & kMask`. -/
def cellOf (k : ℕ) (pos : Word) : ℕ := (pos &&& BitVec.ofNat 64 (capacity k - 1)).toNat

/-- `static_cast<intptr_t>(seq) - static_cast<intptr_t>(pos)`. -/
def signedDiff (seq pos : Word) : ℤ := (seq - pos).toInt

/-- Where a thread is: in no call, or before the named step of `try_push` or `try_pop`. `pos` is
the thread's local cursor, read some time ago. -/
inductive Local (α : Type)
  | idle
  | pushLoad (item : α)
  | pushSeq (item : α) (pos : Word)
  | pushCas (item : α) (pos : Word)
  | pushWrite (item : α) (pos : Word)
  | pushPublish (pos : Word)
  | popLoad
  | popSeq (pos : Word)
  | popCas (pos : Word)
  | popRead (pos : Word)
  | popRelease (pos : Word)

/-- The shared memory, and the history of the run: who won which ticket with which item, which
tickets have been published and released, and how many calls were made. -/
structure Memory (α : Type) where
  enqueuePos : Word
  dequeuePos : Word
  sequence : ℕ → Word
  data : ℕ → α
  pushes : List (ℕ × α)
  pops : List (ℕ × α)
  published : Finset ℕ
  released : Finset ℕ
  calls : ℕ

variable {τ α : Type}

/-- The constructor: cell `i` starts with sequence `i`. -/
def Memory.init [Inhabited α] : Memory α where
  enqueuePos := 0
  dequeuePos := 0
  sequence := fun i => BitVec.ofNat 64 i
  data := fun _ => default
  pushes := []
  pops := []
  published := ∅
  released := ∅
  calls := 0

/-- One atomic step of a thread. `moved` is what a move leaves behind in a cell. A weak
compare-exchange may fail at any time; it then loads the cursor into `pos`. -/
inductive Act (k : ℕ) (moved : α → α) : Memory α → Local α → Memory α → Local α → Prop
  | beginPush (m : Memory α) (item : α) :
      Act k moved m .idle { m with calls := m.calls + 1 } (.pushLoad item)
  | pushLoad (m : Memory α) (item : α) :
      Act k moved m (.pushLoad item) m (.pushSeq item m.enqueuePos)
  | pushTurn (m : Memory α) (item : α) (pos : Word) :
      signedDiff (m.sequence (cellOf k pos)) pos = 0 →
      Act k moved m (.pushSeq item pos) m (.pushCas item pos)
  | pushFull (m : Memory α) (item : α) (pos : Word) :
      signedDiff (m.sequence (cellOf k pos)) pos < 0 →
      Act k moved m (.pushSeq item pos) m .idle
  | pushBehind (m : Memory α) (item : α) (pos : Word) :
      0 < signedDiff (m.sequence (cellOf k pos)) pos →
      Act k moved m (.pushSeq item pos) m (.pushLoad item)
  | pushCasWin (m : Memory α) (item : α) (pos : Word) : m.enqueuePos = pos →
      Act k moved m (.pushCas item pos)
        { m with enqueuePos := pos + 1, pushes := m.pushes ++ [(pos.toNat, item)] }
        (.pushWrite item pos)
  | pushCasFail (m : Memory α) (item : α) (pos : Word) :
      Act k moved m (.pushCas item pos) m (.pushSeq item m.enqueuePos)
  | pushWrite (m : Memory α) (item : α) (pos : Word) :
      Act k moved m (.pushWrite item pos)
        { m with data := Function.update m.data (cellOf k pos) item } (.pushPublish pos)
  | pushPublish (m : Memory α) (pos : Word) :
      Act k moved m (.pushPublish pos)
        { m with
          sequence := Function.update m.sequence (cellOf k pos) (pos + 1)
          published := insert pos.toNat m.published } .idle
  | beginPop (m : Memory α) : Act k moved m .idle { m with calls := m.calls + 1 } .popLoad
  | popLoad (m : Memory α) : Act k moved m .popLoad m (.popSeq m.dequeuePos)
  | popTurn (m : Memory α) (pos : Word) :
      signedDiff (m.sequence (cellOf k pos)) (pos + 1) = 0 →
      Act k moved m (.popSeq pos) m (.popCas pos)
  | popEmpty (m : Memory α) (pos : Word) :
      signedDiff (m.sequence (cellOf k pos)) (pos + 1) < 0 →
      Act k moved m (.popSeq pos) m .idle
  | popBehind (m : Memory α) (pos : Word) :
      0 < signedDiff (m.sequence (cellOf k pos)) (pos + 1) →
      Act k moved m (.popSeq pos) m .popLoad
  | popCasWin (m : Memory α) (pos : Word) : m.dequeuePos = pos →
      Act k moved m (.popCas pos) { m with dequeuePos := pos + 1 } (.popRead pos)
  | popCasFail (m : Memory α) (pos : Word) :
      Act k moved m (.popCas pos) m (.popSeq m.dequeuePos)
  | popRead (m : Memory α) (pos : Word) :
      Act k moved m (.popRead pos)
        { m with
          data := Function.update m.data (cellOf k pos) (moved (m.data (cellOf k pos)))
          pops := m.pops ++ [(pos.toNat, m.data (cellOf k pos))] } (.popRelease pos)
  | popRelease (m : Memory α) (pos : Word) :
      Act k moved m (.popRelease pos)
        { m with
          sequence := Function.update m.sequence (cellOf k pos)
            (pos + BitVec.ofNat 64 (capacity k - 1) + 1)
          released := insert pos.toNat m.released } .idle

/-- The memory and every thread's position in its call. -/
structure State (τ α : Type) where
  mem : Memory α
  threads : τ → Local α

/-- No call has been made. -/
def State.init [Inhabited α] : State τ α := ⟨.init, fun _ => .idle⟩

/-- One step of some thread. -/
inductive Step [DecidableEq τ] (k : ℕ) (moved : α → α) : State τ α → State τ α → Prop
  | act (s : State τ α) (i : τ) (m : Memory α) (l : Local α) :
      Act k moved s.mem (s.threads i) m l → Step k moved s ⟨m, Function.update s.threads i l⟩

end AetherMoE.Ring
