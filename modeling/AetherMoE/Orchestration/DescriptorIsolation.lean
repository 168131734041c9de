import AetherMoE.Lib.Reach
import AetherMoE.Orchestration.ProcessSpawn
import AetherMoE.Orchestration.UnixSocketTransport

/-!
# Descriptor isolation

A router process that calls `spawn_workers` any number of times, destroys transports, and workers
that start, run and exit at their own pace.

* `Act`, `perform`: what the processes do; `Meets`: a call finds no socket open in the router
  process; `Runs`;
* `RouterInv`, `RouterInv.perform`: what the router process has open, and which transport is whose;
* `Alone`, **`alone_of_runs`**: a worker starts with its own end only; **`alone_iff`**: exactly if
  the call found no socket open;
* `EndOfStream`, `receiveDrained`: when a worker sees the end of its stream;
* **`workers_isolated`**.
-/

namespace AetherMoE.Spawn

open ByteCodec Descriptors Stepping Relation

/-! ## Runs -/

/-- No socket is open. -/
def NoSockets (t : FdTable Description) : Prop := ∀ fd e, t.get fd ≠ some (.socket e)

theorem noSockets_iff {t : FdTable Description} :
    NoSockets t ↔ ∀ o ∈ t.cells, o = none ∨ o = some .file := by
  constructor
  · intro h o ho
    cases o with
    | none => exact .inl rfl
    | some d =>
      cases d with
      | file => exact .inr rfl
      | socket e =>
        obtain ⟨fd, hget⟩ := FdTable.holds_iff_mem.2 ho
        exact absurd hget (h fd e)
  · intro h fd e hget
    have hmem := FdTable.holds_iff_mem.1 ⟨fd, hget⟩
    rcases h _ hmem with hnone | hfile
    · cases hnone
    · cases hfile

instance (t : FdTable Description) : Decidable (NoSockets t) :=
  decidable_of_iff _ noSockets_iff.symm

/-- The processes, and what the calls so far have returned. -/
structure State where
  system : System
  spawned : ℕ → SpawnedWorkers := fun _ => {}
  calls : ℕ := 0

/-- The next thing a worker does: close a descriptor, or start its function. -/
def Worker.advance (w : Worker) : Worker :=
  match w.status with
  | .starting (fd :: toClose) => { w with fds := w.fds.close fd, status := .starting toClose }
  | .starting [] => { w with status := .running }
  | _ => w

/-- A worker exits, or is killed. -/
def Worker.exit (w : Worker) : Worker := { w with fds := ⟨[]⟩, status := .exited }

/-- What the processes do. -/
inductive Act
  | spawn (faults : Faults) (shardIds : List UInt32)
  | destroy (call : ℕ) (shardId : UInt32)
  | advance (pid : ℕ)
  | exit (pid : ℕ)

/-- A transport is destroyed: its descriptor is closed. -/
def State.destroy (st : State) (call : ℕ) (shardId : UInt32) : State :=
  match (st.spawned call).transports.lookup shardId with
  | none => st
  | some fd =>
    { st with
      system := { st.system with router := st.system.router.close fd }
      spawned := Function.update st.spawned call { st.spawned call with
        transports := (st.spawned call).transports.erase shardId } }

/-- One act. -/
def perform : Act → State → State
  | .spawn faults shardIds, st =>
    match spawnWorkers faults shardIds st.system with
    | (.ok result, S) =>
      { system := S, spawned := Function.update st.spawned st.calls result, calls := st.calls + 1 }
    | (.error _, S) => { st with system := S }
  | .destroy call shardId, st => st.destroy call shardId
  | .advance pid, st =>
    { st with system := { st.system with
        workers := st.system.workers.modify pid Worker.advance } }
  | .exit pid, st =>
    { st with system := { st.system with workers := st.system.workers.modify pid Worker.exit } }

/-- A call of `spawn_workers` finds no socket open in the router process. -/
def Meets (st : State) : Act → Prop
  | .spawn _ _ => NoSockets st.system.router
  | _ => True

/-- The runs in which every call does. -/
def Runs : State → State → Prop := ReflTransGen fun st st' => ∃ a, Meets st a ∧ st' = perform a st

/-- The router process before its first call. -/
def State.init (router : FdTable Description) : State := { system := { router := router } }

/-! ## The router process -/

/-- An end is open once; a live transport owns the router end of a worker of its shard, and no other
transport does. -/
structure RouterInv (st : State) : Prop where
  once : ∀ fd fd' e, st.system.router.get fd = some (.socket e) →
    st.system.router.get fd' = some (.socket e) → fd = fd'
  below : ∀ fd e, st.system.router.get fd = some (.socket e) → e.pair < st.system.nextPair
  pairs : ∀ w ∈ st.system.workers, w.pair < st.system.nextPair
  live : ∀ c s fd, (st.spawned c).transports.lookup s = some fd → ∃ w ∈ st.system.workers,
    w.shardId = s ∧ st.system.router.get fd = some (.socket ⟨w.pair, .router⟩)
  unshared : ∀ c s c' s' fd, (st.spawned c).transports.lookup s = some fd →
    (st.spawned c').transports.lookup s' = some fd → c = c' ∧ s = s'

theorem routerInv_init {t : FdTable Description} (ht : NoSockets t) : RouterInv (.init t) where
  once fd _ e h := absurd h (ht fd e)
  below fd e h := absurd h (ht fd e)
  pairs _ h := by cases h
  live _ _ _ h := by cases h
  unshared _ _ _ _ _ h := by cases h

/-- The router process has nothing open that it had not before. -/
structure RouterInv.Shrinks (st st' : State) : Prop where
  nextPair : st'.system.nextPair = st.system.nextPair
  closed : ∀ fd, st'.system.router.get fd = st.system.router.get fd ∨
    st'.system.router.get fd = none
  workers : ∀ w ∈ st.system.workers, ∃ w' ∈ st'.system.workers, w'.shardId = w.shardId ∧
    w'.pair = w.pair
  old : ∀ w' ∈ st'.system.workers, ∃ w ∈ st.system.workers, w'.pair = w.pair
  live : ∀ c s fd, (st'.spawned c).transports.lookup s = some fd →
    (st.spawned c).transports.lookup s = some fd ∧
      st'.system.router.get fd = st.system.router.get fd

theorem RouterInv.shrink {st st' : State} (h : RouterInv st) (hs : RouterInv.Shrinks st st') :
    RouterInv st' := by
  have hkeep : ∀ fd d, st'.system.router.get fd = some d → st.system.router.get fd = some d := by
    intro fd d hd
    rcases hs.closed fd with hsame | hnone
    · rw [← hsame, hd]
    · rw [hnone] at hd
      cases hd
  constructor
  · intro fd fd' e he he'
    exact h.once fd fd' e (hkeep _ _ he) (hkeep _ _ he')
  · intro fd e he
    rw [hs.nextPair]
    exact h.below fd e (hkeep _ _ he)
  · intro w hw
    obtain ⟨w', hw', hpair⟩ := hs.old w hw
    rw [hs.nextPair, hpair]
    exact h.pairs w' hw'
  · intro c s fd hlook
    obtain ⟨hlook, hsame⟩ := hs.live c s fd hlook
    obtain ⟨w, hw, hshard, hget⟩ := h.live c s fd hlook
    obtain ⟨w', hw', hshard', hpair⟩ := hs.workers w hw
    exact ⟨w', hw', hshard'.trans hshard, by rw [hsame, hget, hpair]⟩
  · intro c s c' s' fd hlook hlook'
    exact h.unshared c s c' s' fd (hs.live c s fd hlook).1 (hs.live c' s' fd hlook').1

/-- Workers change, but not their shards and pairs. -/
theorem shrinks_modify (st : State) (pid : ℕ) {f : Worker → Worker}
    (hshard : ∀ w, (f w).shardId = w.shardId) (hpair : ∀ w, (f w).pair = w.pair) :
    RouterInv.Shrinks st { st with system := { st.system with
      workers := st.system.workers.modify pid f } } where
  nextPair := rfl
  closed _ := .inl rfl
  workers w hw := by
    obtain ⟨i, hi⟩ := List.mem_iff_getElem?.1 hw
    have hi' : (st.system.workers.modify pid f)[i]? = some (if pid = i then f w else w) := by
      rw [List.getElem?_modify, hi]
      split_ifs <;> rfl
    refine ⟨_, List.mem_of_getElem? hi', ?_, ?_⟩
    · split_ifs
      · exact hshard w
      · rfl
    · split_ifs
      · exact hpair w
      · rfl
  old w' hw' := by
    obtain ⟨i, hi⟩ := List.mem_iff_getElem?.1 hw'
    rw [List.getElem?_modify, Option.map_eq_map, Option.map_eq_some_iff] at hi
    obtain ⟨w, hw, rfl⟩ := hi
    refine ⟨w, List.mem_of_getElem? hw, ?_⟩
    split_ifs
    · exact hpair w
    · rfl
  live _ _ _ h := ⟨h, rfl⟩

theorem Worker.advance_shardId (w : Worker) : w.advance.shardId = w.shardId := by
  unfold Worker.advance
  split <;> rfl

theorem Worker.advance_pair (w : Worker) : w.advance.pair = w.pair := by
  unfold Worker.advance
  split <;> rfl

/-- The transports after one is destroyed. -/
theorem lookup_destroy {st : State} {call : ℕ} {shardId : UInt32} {c : ℕ} {s : UInt32} {fd : ℕ} :
    ((st.destroy call shardId).spawned c).transports.lookup s = some fd ↔
      (st.spawned c).transports.lookup s = some fd ∧ ¬ (c = call ∧ s = shardId) := by
  unfold State.destroy
  cases hlook : (st.spawned call).transports.lookup shardId with
  | none =>
    refine ⟨fun h => ⟨h, ?_⟩, And.left⟩
    rintro ⟨rfl, rfl⟩
    rw [hlook] at h
    cases h
  | some old =>
    dsimp only
    by_cases hc : c = call
    · subst hc
      rw [Function.update_self]
      dsimp only
      by_cases hs : s = shardId
      · subst hs
        rw [AList.lookup_erase]
        simp
      · rw [AList.lookup_erase_ne hs]
        simp [hs]
    · rw [Function.update_of_ne hc]
      simp [hc]

theorem get_destroy {st : State} {call : ℕ} {shardId : UInt32} (fd : ℕ) :
    (st.destroy call shardId).system.router.get fd =
      if (st.spawned call).transports.lookup shardId = some fd then none
      else st.system.router.get fd := by
  unfold State.destroy
  cases hlook : (st.spawned call).transports.lookup shardId with
  | none => rfl
  | some old =>
    dsimp only
    rw [FdTable.get_close]
    by_cases hfd : fd = old
    · simp [hfd]
    · have hfd' : old ≠ fd := Ne.symm hfd
      simp [hfd, hfd']

theorem destroy_workers (st : State) (call : ℕ) (shardId : UInt32) :
    (st.destroy call shardId).system.workers = st.system.workers ∧
      (st.destroy call shardId).system.nextPair = st.system.nextPair := by
  unfold State.destroy
  split
  · exact ⟨rfl, rfl⟩
  · exact ⟨rfl, rfl⟩

theorem RouterInv.shrinks_destroy {st : State} (h : RouterInv st) (call : ℕ) (shardId : UInt32) :
    RouterInv.Shrinks st (st.destroy call shardId) where
  nextPair := (destroy_workers st call shardId).2
  closed fd := by
    rw [get_destroy]
    split_ifs
    · exact .inr rfl
    · exact .inl rfl
  workers w hw := ⟨w, by rwa [(destroy_workers st call shardId).1], rfl, rfl⟩
  old w hw := ⟨w, by rwa [(destroy_workers st call shardId).1] at hw, rfl⟩
  live c s fd hlook := by
    obtain ⟨hlook, hne⟩ := lookup_destroy.1 hlook
    refine ⟨hlook, ?_⟩
    rw [get_destroy, if_neg]
    intro hold
    exact hne (h.unshared c s call shardId fd hlook hold)

section Calls

variable {st : State} {shardIds : List UInt32} {pairs : List Pair} {S₁ S' : System} {m : ℕ}
  {result : Option SpawnedWorkers}

/-- A call opens no descriptor that it did not make. -/
theorem Spawned.get_router (hs : Spawned st.system shardIds pairs S₁ m result S') (fd : ℕ) :
    S'.router.get fd = S₁.router.get fd ∨ S'.router.get fd = none ∧ fd ∈ newFds pairs := by
  cases result with
  | none => exact .inl (by rw [hs.thrown rfl])
  | some r =>
    obtain ⟨-, -, hadopted⟩ := hs.returned r rfl
    refine (hadopted.closed fd).imp_right fun ⟨hnone, x, hx, hfd⟩ => ⟨hnone, ?_⟩
    exact mem_newFds.2 ⟨x.1, (List.of_mem_zip hx).1, hfd⟩

/-- What was open before a call is open after it. -/
theorem Spawned.kept (hs : Spawned st.system shardIds pairs S₁ m result S') {fd : ℕ}
    {d : Description} (hd : st.system.router.get fd = some d) :
    S'.router.get fd = some d ∧ fd ∉ newFds pairs := by
  obtain ⟨hnew, hget⟩ := hs.created.kept hd
  refine ⟨?_, hnew⟩
  rw [(hs.get_router fd).resolve_right fun h => hnew h.2, hget]

theorem Spawned.get_socket (hs : Spawned st.system shardIds pairs S₁ m result S') {fd : ℕ}
    {e : SocketEnd} (hget : S'.router.get fd = some (.socket e)) :
    S₁.router.get fd = some (.socket e) := by
  rcases hs.get_router fd with hsame | ⟨hnone, -⟩
  · rw [← hsame, hget]
  · rw [hnone] at hget
    cases hget

theorem Spawned.once (hs : Spawned st.system shardIds pairs S₁ m result S') (h : RouterInv st)
    (fd fd' : ℕ) (e : SocketEnd) (he : S'.router.get fd = some (.socket e))
    (he' : S'.router.get fd' = some (.socket e)) : fd = fd' := by
  have hold : ∀ {fd n fd' : ℕ} {p : Pair}, st.system.router.get fd = some (.socket e) →
      ¬ p.IsEnd (st.system.nextPair + n) fd' e := by
    intro fd n fd' p hget hp
    have hlt := h.below fd e hget
    rw [hp.pair_eq] at hlt
    omega
  rcases hs.created.get_socket (hs.get_socket he) with ⟨i, p, hi, hp⟩ | hget
  · rcases hs.created.get_socket (hs.get_socket he') with ⟨j, p', hj, hp'⟩ | hget'
    · have hij : i = j := Nat.add_left_cancel (hp.pair_eq.symm.trans hp'.pair_eq)
      subst hij
      obtain rfl := Option.some.inj (hi.symm.trans hj)
      exact hp.unique hp'
    · exact absurd hp (hold hget')
  · rcases hs.created.get_socket (hs.get_socket he') with ⟨j, p', -, hp'⟩ | hget'
    · exact absurd hp' (hold hget)
    · exact h.once fd fd' e hget hget'

theorem Spawned.nextPair_eq (hs : Spawned st.system shardIds pairs S₁ m result S') :
    S'.nextPair = st.system.nextPair + pairs.length := hs.nextPair.trans hs.created.nextPair

theorem Spawned.below (hs : Spawned st.system shardIds pairs S₁ m result S') (h : RouterInv st)
    (fd : ℕ) (e : SocketEnd) (he : S'.router.get fd = some (.socket e)) : e.pair < S'.nextPair := by
  rw [hs.nextPair_eq]
  rcases hs.created.get_socket (hs.get_socket he) with ⟨i, p, hi, hp⟩ | hget
  · rw [hp.pair_eq]
    exact Nat.add_lt_add_left (List.getElem?_eq_some_iff.1 hi).1 _
  · exact (h.below fd e hget).trans_le (Nat.le_add_right _ _)

/-- A worker is an old one or a child of the call. -/
theorem Spawned.mem_workers (hs : Spawned st.system shardIds pairs S₁ m result S') {w : Worker}
    (hw : w ∈ S'.workers) : w ∈ st.system.workers ∨ ∃ (i : ℕ) (p : Pair) (s : UInt32),
      pairs[i]? = some p ∧ w = Worker.fork S₁.router pairs st.system.nextPair i p s := by
  rw [hs.workers, List.mem_append] at hw
  exact hw.imp_right fun hw => mem_forked (List.mem_of_mem_take hw)

theorem Spawned.pairs_lt (hs : Spawned st.system shardIds pairs S₁ m result S') (h : RouterInv st)
    (w : Worker) (hw : w ∈ S'.workers) : w.pair < S'.nextPair := by
  rw [hs.nextPair_eq]
  rcases hs.mem_workers hw with hw | ⟨i, p, s, hi, rfl⟩
  · exact (h.pairs w hw).trans_le (Nat.le_add_right _ _)
  · exact Nat.add_lt_add_left (List.getElem?_eq_some_iff.1 hi).1 _

/-- A transport from before a call. -/
theorem Spawned.live_old (hs : Spawned st.system shardIds pairs S₁ m result S') (h : RouterInv st)
    {c : ℕ} {s : UInt32} {fd : ℕ} (hlook : (st.spawned c).transports.lookup s = some fd) :
    (∃ w ∈ S'.workers, w.shardId = s ∧
      S'.router.get fd = some (.socket ⟨w.pair, .router⟩)) ∧ fd ∉ newFds pairs := by
  obtain ⟨w, hw, hshard, hget⟩ := h.live c s fd hlook
  obtain ⟨hget', hnew⟩ := hs.kept hget
  refine ⟨⟨w, ?_, hshard, hget'⟩, hnew⟩
  rw [hs.workers]
  exact List.mem_append_left _ hw

/-- A transport that a call returned. -/
theorem Spawned.live_new {r : SpawnedWorkers}
    (hs : Spawned st.system shardIds pairs S₁ m (some r) S') {s : UInt32} {fd : ℕ}
    (hlook : r.transports.lookup s = some fd) :
    (∃ w ∈ S'.workers, w.shardId = s ∧
      S'.router.get fd = some (.socket ⟨w.pair, .router⟩)) ∧ fd ∈ newFds pairs := by
  obtain ⟨hlen, rfl, hadopted⟩ := hs.returned r rfl
  obtain ⟨hsame, p, hp, rfl⟩ := hadopted.live s fd hlook
  obtain ⟨i, hi⟩ := List.mem_iff_getElem?.1 hp
  have hpi : pairs[i]? = some p := (List.getElem?_zip_eq_some.1 hi).1
  refine ⟨⟨Worker.fork S₁.router pairs st.system.nextPair i p s, ?_, rfl, ?_⟩, ?_⟩
  · have hall : (forked S₁.router pairs st.system.nextPair 0 (pairs.zip shardIds)).length ≤
        shardIds.length := by
      rw [forked, List.length_map, List.length_zipIdx, List.length_zip, hlen, Nat.min_self]
    rw [hs.workers, List.take_of_length_le hall]
    exact List.mem_append_right _ (fork_mem_forked hi)
  · rw [hsame]
    exact hs.created.routerEnd i p hpi
  · exact mem_newFds.2 ⟨p, List.mem_of_getElem? hpi, .inl rfl⟩

/-- The descriptors of the transports that a call returned. -/
theorem Spawned.unshared {r : SpawnedWorkers}
    (hs : Spawned st.system shardIds pairs S₁ m (some r) S') {s s' : UInt32} {fd : ℕ}
    (hlook : r.transports.lookup s = some fd) (hlook' : r.transports.lookup s' = some fd) :
    s = s' := by
  obtain ⟨hlen, -, hadopted⟩ := hs.returned r rfl
  exact hadopted.unshared (hs.created.distinct (Nat.le_of_eq hlen)).nodup hlook hlook'

end Calls

/-- The processes after a call, whether it returned or threw. -/
theorem system_perform_spawn (st : State) (faults : Faults) (shardIds : List UInt32) :
    (perform (.spawn faults shardIds) st).system = (spawnWorkers faults shardIds st.system).2 := by
  unfold perform
  dsimp only
  split
  · next heq => rw [heq]
  · next heq => rw [heq]

/-- **A call keeps the invariant of the router process.** -/
theorem RouterInv.spawn {st : State} (h : RouterInv st) (faults : Faults)
    (shardIds : List UInt32) : RouterInv (perform (.spawn faults shardIds) st) := by
  obtain ⟨pairs, S₁, m, -, ⟨r, hr, -, hs⟩ | ⟨⟨e, he⟩, hs, -⟩⟩ :=
    spawnWorkers_spec faults shardIds st.system
  · have hperform : perform (.spawn faults shardIds) st =
        { system := (spawnWorkers faults shardIds st.system).2
          spawned := Function.update st.spawned st.calls r, calls := st.calls + 1 } := by
      rw [perform, ← Prod.mk.eta (p := spawnWorkers faults shardIds st.system), hr]
    -- a transport is from before the call, or the call returned it
    have horigin : ∀ c s fd,
        ((Function.update st.spawned st.calls r) c).transports.lookup s = some fd →
          c = st.calls ∧ r.transports.lookup s = some fd ∨
            (st.spawned c).transports.lookup s = some fd := by
      intro c s fd hlook
      by_cases hc : c = st.calls
      · rw [hc, Function.update_self] at hlook
        exact .inl ⟨hc, hlook⟩
      · rw [Function.update_of_ne hc] at hlook
        exact .inr hlook
    rw [hperform]
    refine ⟨hs.once h, hs.below h, hs.pairs_lt h, fun c s fd hlook => ?_,
      fun c s c' s' fd hlook hlook' => ?_⟩
    · rcases horigin c s fd hlook with ⟨-, hlook⟩ | hlook
      · exact (hs.live_new hlook).1
      · exact (hs.live_old h hlook).1
    · rcases horigin c s fd hlook with ⟨hc, hlook⟩ | hlook
      · rcases horigin c' s' fd hlook' with ⟨hc', hlook'⟩ | hlook'
        · exact ⟨hc.trans hc'.symm, hs.unshared hlook hlook'⟩
        · exact absurd (hs.live_new hlook).2 (hs.live_old h hlook').2
      · rcases horigin c' s' fd hlook' with ⟨-, hlook'⟩ | hlook'
        · exact absurd (hs.live_new hlook').2 (hs.live_old h hlook).2
        · exact h.unshared c s c' s' fd hlook hlook'
  · have hperform : perform (.spawn faults shardIds) st =
        { st with system := (spawnWorkers faults shardIds st.system).2 } := by
      rw [perform, ← Prod.mk.eta (p := spawnWorkers faults shardIds st.system), he]
    rw [hperform]
    exact ⟨hs.once h, hs.below h, hs.pairs_lt h, fun c s fd hlook => (hs.live_old h hlook).1,
      h.unshared⟩

/-- **Every act keeps it.** -/
theorem RouterInv.perform {st : State} (h : RouterInv st) (a : Act) :
    RouterInv (perform a st) := by
  cases a with
  | spawn faults shardIds => exact h.spawn faults shardIds
  | destroy call shardId => exact h.shrink (h.shrinks_destroy call shardId)
  | advance pid =>
    exact h.shrink (shrinks_modify st pid Worker.advance_shardId Worker.advance_pair)
  | exit pid => exact h.shrink (shrinks_modify st pid (fun _ => rfl) fun _ => rfl)

/-! ## The workers -/

/-- Of all sockets, the worker has only its own end open when its function starts. -/
def Worker.Alone (w : Worker) : Prop :=
  ∀ fd e, w.atStart.get fd = some (.socket e) ↔ fd = w.transportFd ∧ e = ⟨w.pair, .worker⟩

/-- A worker that runs has only its own end open. -/
def Isolated (st : State) : Prop :=
  ∀ w ∈ st.system.workers, w.status = .running →
    ∀ fd e, w.fds.get fd = some (.socket e) ↔ fd = w.transportFd ∧ e = ⟨w.pair, .worker⟩

theorem Worker.atStart_of_started {w : Worker} (h : w.status = .running ∨ w.status = .exited) :
    w.atStart = w.fds := by
  unfold Worker.atStart
  rcases h with h | h
  · rw [h]
  · rw [h]

@[simp] theorem Worker.atStart_advance (w : Worker) : w.advance.atStart = w.atStart := by
  obtain ⟨shardId, pair, transportFd, fds, status⟩ := w
  cases status with
  | starting toClose => cases toClose <;> rfl
  | running => rfl
  | exited => rfl

theorem Worker.transportFd_advance (w : Worker) : w.advance.transportFd = w.transportFd := by
  unfold Worker.advance
  split <;> rfl

theorem Worker.Alone.advance {w : Worker} (h : w.Alone) : w.advance.Alone := by
  intro fd e
  rw [Worker.atStart_advance, Worker.transportFd_advance, Worker.advance_pair]
  exact h fd e

/-- A child that a call forks. -/
theorem alone_of_noSockets {S S₁ : System} {pairs : List Pair} (hc : Created S S₁ pairs)
    (hclean : NoSockets S.router) {i : ℕ} {p : Pair} (hi : pairs[i]? = some p) (s : UInt32) :
    (Worker.fork S₁.router pairs S.nextPair i p s).Alone := by
  intro fd e
  rw [get_atStart hc hi, or_iff_left (hclean fd e), Description.socket.injEq]
  rfl

/-- **A child starts alone exactly if its call found no socket open.** -/
theorem alone_iff (faults : Faults) (shardIds : List UInt32) (S : System) :
    ∀ w ∈ (spawnWorkers faults shardIds S).2.workers.drop S.workers.length,
      w.Alone ↔ NoSockets S.router := by
  obtain ⟨pairs, S₁, m, result, hs⟩ := exists_spawned faults shardIds S
  intro w hw
  rw [hs.workers, List.drop_left] at hw
  obtain ⟨i, p, s, hi, rfl⟩ := mem_forked (List.mem_of_mem_take hw)
  constructor
  · intro h fd e hget
    have hown := ((h fd e).1 ((get_atStart hs.created hi s fd _).2 (.inr hget))).1
    have hfree := hs.created.fresh p.workerFd
      (mem_newFds.2 ⟨p, List.mem_of_getElem? hi, .inr rfl⟩)
    rw [hown] at hget
    change S.router.get p.workerFd = _ at hget
    rw [hfree] at hget
    cases hget
  · intro hclean
    exact alone_of_noSockets hs.created hclean hi s

/-- Every worker has exited, or starts alone. -/
def WorkersInv (st : State) : Prop :=
  ∀ w ∈ st.system.workers, w.status = .exited ∧ w.fds = ⟨[]⟩ ∨ w.Alone

theorem mem_modify {l : List Worker} {pid : ℕ} {f : Worker → Worker} {w : Worker}
    (h : w ∈ l.modify pid f) : w ∈ l ∨ ∃ w' ∈ l, w = f w' := by
  obtain ⟨i, hi⟩ := List.mem_iff_getElem?.1 h
  rw [List.getElem?_modify, Option.map_eq_map, Option.map_eq_some_iff] at hi
  obtain ⟨w', hw', rfl⟩ := hi
  split_ifs
  · exact .inr ⟨w', List.mem_of_getElem? hw', rfl⟩
  · exact .inl (List.mem_of_getElem? hw')

theorem WorkersInv.perform {st : State} (h : WorkersInv st) (a : Act) (hmeets : Meets st a) :
    WorkersInv (perform a st) := by
  cases a with
  | spawn faults shardIds =>
    obtain ⟨pairs, S₁, m, result, hs⟩ := exists_spawned faults shardIds st.system
    intro w hw
    rw [system_perform_spawn] at hw
    rcases hs.mem_workers hw with hw | ⟨i, p, s, hi, rfl⟩
    · exact h w hw
    · exact .inr (alone_of_noSockets hs.created hmeets hi s)
  | destroy call shardId =>
    intro w hw
    refine h w ?_
    rw [← (destroy_workers st call shardId).1]
    exact hw
  | advance pid =>
    intro w hw
    rcases mem_modify hw with hw | ⟨w', hw', rfl⟩
    · exact h w hw
    · rcases h w' hw' with ⟨hexited, hempty⟩ | halone
      · left
        unfold Worker.advance
        rw [hexited]
        exact ⟨hexited, hempty⟩
      · exact .inr halone.advance
  | exit pid =>
    intro w hw
    rcases mem_modify hw with hw | ⟨w', -, rfl⟩
    · exact h w hw
    · exact .inl ⟨rfl, rfl⟩

theorem WorkersInv.isolated {st : State} (h : WorkersInv st) : Isolated st := by
  intro w hw hrun fd e
  rcases h w hw with ⟨hexited, -⟩ | halone
  · rw [hrun] at hexited
    cases hexited
  · rw [← Worker.atStart_of_started (.inl hrun)]
    exact halone fd e

/-! ## The end of a stream -/

/-- The tables of all processes. -/
def State.tables (st : State) : List (FdTable Description) :=
  st.system.router :: st.system.workers.map Worker.fds

/-- No process has the router end of the pair open. -/
def EndOfStream (st : State) (pair : ℕ) : Prop :=
  ∀ t ∈ st.tables, ¬ t.Holds (.socket ⟨pair, .router⟩)

instance (st : State) (pair : ℕ) : Decidable (EndOfStream st pair) :=
  inferInstanceAs (Decidable (∀ t ∈ _, _))

/-- `receive` of the worker of a pair, once it has read what was sent: it waits while the router end
is open anywhere. -/
def receiveDrained (st : State) (pair : ℕ) (events : List IoEvent) :
    Option (EStateM.Result Exn Socket Bytes) :=
  if EndOfStream st pair then some (receive ⟨events, []⟩) else none

/-- No worker is still closing descriptors. -/
def Settled (st : State) : Prop :=
  ∀ w ∈ st.system.workers, w.status = .running ∨ w.status = .exited

instance (st : State) : Decidable (Settled st) := inferInstanceAs (Decidable (∀ w ∈ _, _))

/-- **A stream whose router end the router process has closed has ended**, once all workers have
started. -/
theorem WorkersInv.endOfStream {st : State} (h : WorkersInv st) (hsettled : Settled st) {pair : ℕ}
    (hclosed : ¬ st.system.router.Holds (.socket ⟨pair, .router⟩)) : EndOfStream st pair := by
  refine List.forall_mem_cons.2 ⟨hclosed, fun t ht => ?_⟩
  obtain ⟨w, hw, rfl⟩ := List.mem_map.1 ht
  rintro ⟨fd, hget⟩
  rcases h w hw with ⟨-, hempty⟩ | halone
  · rw [hempty] at hget
    cases hget
  · rw [← Worker.atStart_of_started (hsettled w hw)] at hget
    have hend := ((halone fd _).1 hget).2
    simp at hend

theorem receive_drained {st : State} {pair : ℕ} (h : EndOfStream st pair) {events : List IoEvent}
    (hev : NoErrors events) : ∃ s, receiveDrained st pair events = some (.error .peerClosed s) := by
  obtain ⟨s, hread⟩ := readAll_eof 8 true hev [] (by decide)
  refine ⟨s, ?_⟩
  rw [receiveDrained, if_pos h, receive, bind_run_error hread]
  rfl

/-- An end that no transport will open again. -/
structure Closed (st : State) (pair : ℕ) : Prop where
  lt : pair < st.system.nextPair
  closed : ¬ st.system.router.Holds (.socket ⟨pair, .router⟩)

theorem Spawned.closed {st : State} {shardIds : List UInt32} {pairs : List Pair} {S₁ S' : System}
    {m : ℕ} {result : Option SpawnedWorkers}
    (hs : Spawned st.system shardIds pairs S₁ m result S') {pair : ℕ} (h : Closed st pair) :
    pair < S'.nextPair ∧ ¬ S'.router.Holds (.socket ⟨pair, .router⟩) := by
  refine ⟨hs.nextPair_eq ▸ h.lt.trans_le (Nat.le_add_right _ _), ?_⟩
  rintro ⟨fd, hget⟩
  have hlt := h.lt
  rcases hs.created.get_socket (hs.get_socket hget) with ⟨i, p, -, hp⟩ | hold
  · have heq : pair = st.system.nextPair + i := hp.pair_eq
    omega
  · exact h.closed ⟨fd, hold⟩

theorem Closed.shrink {st st' : State} {pair : ℕ} (h : Closed st pair)
    (hs : RouterInv.Shrinks st st') : Closed st' pair := by
  refine ⟨hs.nextPair ▸ h.lt, ?_⟩
  rintro ⟨fd, hget⟩
  rcases hs.closed fd with hsame | hnone
  · exact h.closed ⟨fd, hsame ▸ hget⟩
  · rw [hnone] at hget
    cases hget

theorem Closed.perform {st : State} {pair : ℕ} (h : Closed st pair) (hinv : RouterInv st)
    (a : Act) : Closed (perform a st) pair := by
  cases a with
  | spawn faults shardIds =>
    obtain ⟨pairs, S₁, m, result, hs⟩ := exists_spawned faults shardIds st.system
    constructor
    · rw [system_perform_spawn]
      exact (hs.closed h).1
    · rw [system_perform_spawn]
      exact (hs.closed h).2
  | destroy call shardId => exact h.shrink (hinv.shrinks_destroy call shardId)
  | advance pid => exact h.shrink (shrinks_modify st pid Worker.advance_shardId Worker.advance_pair)
  | exit pid => exact h.shrink (shrinks_modify st pid (fun _ => rfl) fun _ => rfl)

/-- **Destroying a transport** closes the router end of the worker of its shard. -/
theorem RouterInv.closed_destroy {st : State} (h : RouterInv st) {call : ℕ} {shardId : UInt32}
    {fd : ℕ} (hlook : (st.spawned call).transports.lookup shardId = some fd) :
    ∃ w ∈ st.system.workers, w.shardId = shardId ∧
      Closed (st.destroy call shardId) w.pair := by
  obtain ⟨w, hw, hshard, hget⟩ := h.live call shardId fd hlook
  refine ⟨w, hw, hshard, ?_, ?_⟩
  · rw [(destroy_workers st call shardId).2]
    exact h.pairs w hw
  · rintro ⟨fd', hget'⟩
    rw [get_destroy, hlook] at hget'
    split_ifs at hget' with hfd
    exact hfd (congrArg some (h.once fd fd' _ hget hget'))

/-! ## All runs -/

theorem routerInv_of_runs {st st' : State} (h : Runs st st') (hinv : RouterInv st) :
    RouterInv st' :=
  invariant hinv (fun _ _ h ⟨a, _, ha⟩ => ha ▸ h.perform a) h

theorem workersInv_of_runs {st st' : State} (h : Runs st st') (hinv : WorkersInv st) :
    WorkersInv st' :=
  invariant hinv (fun _ _ h ⟨a, hmeets, ha⟩ => ha ▸ h.perform a hmeets) h

theorem closed_of_runs {st st' : State} (h : Runs st st') (hinv : RouterInv st) {pair : ℕ}
    (hclosed : Closed st pair) : Closed st' pair := by
  have hboth : RouterInv st' ∧ Closed st' pair := by
    refine invariant (P := fun s => RouterInv s ∧ Closed s pair) ⟨hinv, hclosed⟩ ?_ h
    rintro s s' ⟨hinv, hclosed⟩ ⟨a, -, rfl⟩
    exact ⟨hinv.perform a, hclosed.perform hinv a⟩
  exact hboth.2

/-- **Workers are isolated**, in every run in which each call of `spawn_workers` finds no socket
open in the router process: a worker that runs has only its own end open; and every transport is
that of a worker of its shard, which sees the end of its stream after the transport is destroyed, as
soon as every worker has started. -/
theorem workers_isolated {t : FdTable Description} (ht : NoSockets t) {st : State}
    (h : Runs (.init t) st) :
    Isolated st ∧ ∀ call shardId fd, (st.spawned call).transports.lookup shardId = some fd →
      ∃ w ∈ st.system.workers, w.shardId = shardId ∧
        ∀ st', Runs (st.destroy call shardId) st' → Settled st' →
          EndOfStream st' w.pair ∧ ∀ events, NoErrors events →
            ∃ s, receiveDrained st' w.pair events = some (.error .peerClosed s) := by
  have hrouter : RouterInv st := routerInv_of_runs h (routerInv_init ht)
  have hworkers : WorkersInv st := workersInv_of_runs h (List.forall_mem_nil _)
  refine ⟨hworkers.isolated, fun call shardId fd hlook => ?_⟩
  obtain ⟨w, hw, hshard, hclosed⟩ := hrouter.closed_destroy hlook
  refine ⟨w, hw, hshard, fun st' h' hsettled => ?_⟩
  have hdestroyed : RouterInv (st.destroy call shardId) := hrouter.perform (.destroy call shardId)
  have hworkers' : WorkersInv (st.destroy call shardId) :=
    hworkers.perform (.destroy call shardId) trivial
  have hend : EndOfStream st' w.pair :=
    (workersInv_of_runs h' hworkers').endOfStream hsettled
      (closed_of_runs h' hdestroyed hclosed).closed
  exact ⟨hend, fun events hev => receive_drained hend hev⟩

section Examples

/-- Standard input, output and error. -/
def threeFiles : FdTable Description := ⟨[some .file, some .file, some .file]⟩

/-- Nothing fails. -/
def noFaults : Faults := ⟨fun _ => false, fun _ => false⟩

/-- A call, its worker starts, its transport is destroyed, and another call. -/
theorem workers_isolated_twice : ∃ st, Runs (.init threeFiles) st ∧ st.calls = 2 ∧
    (∃ w ∈ st.system.workers, w.status = .running) ∧ Isolated st := by
  have ht : NoSockets threeFiles := by decide
  have h₁ : Runs (.init threeFiles) _ := .single ⟨.spawn noFaults [7], ht, rfl⟩
  have h₂ := (h₁.tail ⟨.advance 0, trivial, rfl⟩).tail ⟨.advance 0, trivial, rfl⟩
  have h₃ := h₂.tail ⟨.destroy 0 7, trivial, rfl⟩
  have hclean : NoSockets (perform (.destroy 0 7) (perform (.advance 0) (perform (.advance 0)
    (perform (.spawn noFaults [7]) (.init threeFiles))))).system.router := by decide
  have h₄ := h₃.tail ⟨.spawn noFaults [8], hclean, rfl⟩
  exact ⟨_, h₄, rfl, ⟨_, List.mem_cons_self, rfl⟩, (workers_isolated ht h₄).1⟩

/-- Two calls, the transport of the first alive, and both workers start. -/
def twoCalls : State :=
  [.spawn noFaults [0], .spawn noFaults [1], .advance 0, .advance 0, .advance 1, .advance 1].foldl
    (fun st a => perform a st) (.init threeFiles)

/-- **The second worker has the router end of the first open**: destroying the transport of the
first does not end its stream. -/
theorem not_isolated_second : ¬ Isolated twoCalls ∧ Settled (twoCalls.destroy 0 0) ∧
    ¬ EndOfStream (twoCalls.destroy 0 0) 0 ∧
    receiveDrained (twoCalls.destroy 0 0) 0 [] = none := by
  have hend : ¬ EndOfStream (twoCalls.destroy 0 0) 0 := by decide
  refine ⟨fun h => ?_, by decide, hend, if_neg hend⟩
  have hget := h twoCalls.system.workers[1] (List.getElem_mem (by decide)) rfl 3 ⟨0, .router⟩
  exact absurd (hget.1 rfl) (by decide)

end Examples

end AetherMoE.Spawn
