import AetherMoE.Orchestration.ProcessSpawn

/-!
# When spawning fails

`spawn_workers` throws if a system call fails, and undoes nothing.

* `AllOrNothing`: a call that throws leaves no descriptor and no worker behind;
* **`allOrNothing_iff`**: that holds exactly if nothing fails or the very first call does;
* **`stranded`**: a worker that is left behind waits for as long as the router process lives.
-/

namespace AetherMoE.Spawn

open Descriptors

variable {faults : Faults} {shardIds : List UInt32} {S : System}

/-- If the call throws, the router process has open what it had open before, and of no worker forked
by the call is the router end still open, in the router process or in another worker. -/
def AllOrNothing (faults : Faults) (shardIds : List UInt32) (S : System) : Prop :=
  ∀ e, (spawnWorkers faults shardIds S).1 = .error e →
    (∀ fd, (spawnWorkers faults shardIds S).2.router.get fd = S.router.get fd) ∧
    ∀ w ∈ (spawnWorkers faults shardIds S).2.workers.drop S.workers.length,
      ¬ (spawnWorkers faults shardIds S).2.router.Holds (.socket ⟨w.pair, .router⟩) ∧
      ∀ v ∈ (spawnWorkers faults shardIds S).2.workers,
        ¬ v.atStart.Holds (.socket ⟨w.pair, .router⟩)

/-- A call that fails later on leaves its first pair open. -/
theorem not_allOrNothing (hfirst : faults.socketpair 0 = false)
    (hsome : ¬ faults.None shardIds.length) : ¬ AllOrNothing faults shardIds S := by
  intro h
  obtain ⟨pairs, S₁, m, -, ⟨r, -, hnone, -⟩ | ⟨⟨e, he⟩, hspawn, hwhere⟩⟩ :=
    spawnWorkers_spec faults shardIds S
  · exact hsome hnone
  · have hlen : 0 < pairs.length := by
      rcases hwhere with ⟨hfail, -, -⟩ | ⟨hlen, hlt, -⟩
      · rw [Nat.pos_iff_ne_zero]
        intro h0
        rw [h0, hfirst] at hfail
        cases hfail
      · omega
    have hp : pairs[0]? = some pairs[0] := List.getElem?_eq_getElem hlen
    have hsame := (h e he).1 pairs[0].routerFd
    have hfree := hspawn.created.fresh pairs[0].routerFd
      (mem_newFds.2 ⟨_, List.getElem_mem hlen, .inl rfl⟩)
    rw [hspawn.thrown rfl, hspawn.created.routerEnd 0 _ hp, hfree] at hsame
    cases hsame

/-- A call that throws did nothing, if nothing but the very first system call can fail. -/
theorem nothing_done {e : SpawnError} (he : (spawnWorkers faults shardIds S).1 = .error e)
    (hcond : faults.None shardIds.length ∨ faults.socketpair 0 = true) :
    ∃ S₁, Spawned S shardIds [] S₁ 0 none (spawnWorkers faults shardIds S).2 := by
  obtain ⟨pairs, S₁, m, hpairs, ⟨r, hr, -⟩ | ⟨-, hspawn, hwhere⟩⟩ :=
    spawnWorkers_spec faults shardIds S
  · rw [he] at hr
    cases hr
  have hfirst : faults.socketpair 0 = true := by
    refine hcond.resolve_left fun hnone => ?_
    rcases hwhere with ⟨hfail, hlt, -⟩ | ⟨-, hlt, hfail⟩
    · rw [(hnone _ hlt).1] at hfail
      cases hfail
    · rw [(hnone _ hlt).2] at hfail
      cases hfail
  have hlen : pairs.length = 0 := by
    by_contra hne
    rw [hpairs 0 (Nat.pos_of_ne_zero hne)] at hfirst
    cases hfirst
  have hm : m = 0 := by
    rcases hwhere with ⟨-, -, hm⟩ | ⟨hlen', hlt, -⟩
    · exact hm
    · omega
  rw [List.length_eq_zero_iff.1 hlen, hm] at hspawn
  exact ⟨S₁, hspawn⟩

/-- **Spawning is all or nothing exactly if nothing fails, or the first `socketpair()` does.** -/
theorem allOrNothing_iff (faults : Faults) (shardIds : List UInt32) (S : System) :
    AllOrNothing faults shardIds S ↔
      (∀ i < shardIds.length, faults.socketpair i = false ∧ faults.fork i = false) ∨
      faults.socketpair 0 = true := by
  constructor
  · intro h
    rw [or_iff_not_imp_right, Bool.not_eq_true]
    intro hfirst
    by_contra hsome
    exact not_allOrNothing hfirst hsome h
  · intro hcond e he
    obtain ⟨S₁, hspawn⟩ := nothing_done he hcond
    constructor
    · intro fd
      rw [hspawn.thrown rfl]
      exact hspawn.created.frame fd List.not_mem_nil
    · rw [hspawn.workers, List.take_zero, List.append_nil, List.drop_length]
      exact List.forall_mem_nil _

/-- **A worker that is left behind**: the router process keeps the router end of its pair open,
under a number that nothing in it remembers. -/
theorem stranded {e : SpawnError} (he : (spawnWorkers faults shardIds S).1 = .error e) :
    ∀ w ∈ (spawnWorkers faults shardIds S).2.workers.drop S.workers.length,
      (spawnWorkers faults shardIds S).2.router.Holds (.socket ⟨w.pair, .router⟩) := by
  obtain ⟨pairs, S₁, m, -, ⟨r, hr, -⟩ | ⟨-, hspawn, -⟩⟩ := spawnWorkers_spec faults shardIds S
  · rw [he] at hr
    cases hr
  · intro w hw
    rw [hspawn.workers, List.drop_left] at hw
    obtain ⟨i, p, s, hi, rfl⟩ := mem_forked (List.mem_of_mem_take hw)
    rw [hspawn.thrown rfl]
    exact ⟨_, hspawn.created.routerEnd i p hi⟩

section Examples

/-- Nothing fails but the second `socketpair()`. -/
def secondSocketpair : Faults := ⟨fun i => i == 1, fun _ => false⟩

/-- **Two shards, and the second `socketpair()` fails**: the first pair stays open. -/
theorem not_allOrNothing_second :
    ¬ AllOrNothing secondSocketpair [0, 1] { router := ⟨[some .file, some .file, some .file]⟩ } :=
  not_allOrNothing rfl fun h => absurd (h 1 (by decide)).1 (by decide)

end Examples

end AetherMoE.Spawn
