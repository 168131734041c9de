import AetherMoE.Lib.Descriptors
import Mathlib.Data.List.AList
import Mathlib.Data.List.Flatten

/-!
# Spawning workers

`spawn_workers` of `process_spawn.hpp`, over the descriptor tables of the processes: `fork` copies
the table of the router process, and a worker closes what is not its own before its function starts.
A system call may fail, at any of its occurrences in a call.

* `createPairs`, `forkAll`, `adopt`, `spawnWorkers`: the three phases, and the call;
* `Created`, **`createPairs_spec`**: what the first phase opens; **`forkAll_spec`**,
  **`adopt_spec`**: what the others do;
* **`get_atStart`**: a worker starts with its own end and with what the router process had open
  before the call;
* **`spawnWorkers_spec`**: the call.
-/

namespace AetherMoE.Spawn

open Descriptors

/-! ## Processes and sockets -/

/-- The two ends of a socket pair. -/
inductive Side
  | router
  | worker
  deriving Repr, DecidableEq

/-- One end of the pair with this number. -/
structure SocketEnd where
  pair : ℕ
  side : Side
  deriving Repr, DecidableEq

/-- What a descriptor stands for: an end of a socket pair, or something else. -/
inductive Description
  | socket (e : SocketEnd)
  | file
  deriving Repr, DecidableEq

/-- The life of a worker process: it closes descriptors one by one, runs its function, exits. -/
inductive Status
  | starting (toClose : List ℕ)
  | running
  | exited
  deriving Repr, DecidableEq

/-- A worker process. `pair` is the number of the pair it was forked for. -/
structure Worker where
  shardId : UInt32
  pair : ℕ
  transportFd : ℕ
  fds : FdTable Description
  status : Status
  deriving Repr, DecidableEq

/-- The router process, the pairs made so far, and the workers forked so far. The pid of a worker is
its place among them. -/
structure System where
  router : FdTable Description
  nextPair : ℕ := 0
  workers : List Worker := []
  deriving Repr, DecidableEq

/-- `SpawnedWorkers`; a transport is the descriptor it owns. -/
structure SpawnedWorkers where
  transports : AList fun _ : UInt32 => ℕ := ∅
  childPids : List ℕ := []
  shardPids : AList fun _ : UInt32 => ℕ := ∅

/-- The exceptions of `spawn_workers`. -/
inductive SpawnError
  | socketpair
  | fork
  deriving Repr, DecidableEq

/-- Their texts. -/
def SpawnError.what : SpawnError → String
  | socketpair => "process_spawn: socketpair() failed"
  | fork => "process_spawn: fork() failed"

/-- Which system calls fail, by their index in a call of `spawn_workers`. -/
structure Faults where
  socketpair : ℕ → Bool
  fork : ℕ → Bool

/-- `struct Pair`. -/
structure Pair where
  routerFd : ℕ
  workerFd : ℕ
  deriving Repr, DecidableEq

/-! ## The call -/

/-- `socketpair()`. -/
def socketpair (S : System) : Pair × System :=
  let (routerFd, t) := S.router.openAs (.socket ⟨S.nextPair, .router⟩)
  let (workerFd, t) := t.openAs (.socket ⟨S.nextPair, .worker⟩)
  (⟨routerFd, workerFd⟩, { S with router := t, nextPair := S.nextPair + 1 })

/-- The first phase, for `n` more pairs from index `i` on. -/
def createPairs (fails : ℕ → Bool) : ℕ → ℕ → List Pair → System →
    Except SpawnError (List Pair) × System
  | 0, _, pairs, S => (.ok pairs, S)
  | n + 1, i, pairs, S =>
    if fails i then (.error .socketpair, S)
    else
      let (pair, S) := socketpair S
      createPairs fails n (i + 1) (pairs ++ [pair]) S

/-- What the child of index `i` closes. -/
def closedByChild (pairs : List Pair) (i : ℕ) : List ℕ :=
  pairs.zipIdx.flatMap fun pj =>
    if pj.2 ≠ i then [pj.1.routerFd, pj.1.workerFd] else [pj.1.routerFd]

/-- The child of index `i`, as `fork()` leaves it. -/
def Worker.fork (router : FdTable Description) (pairs : List Pair) (first i : ℕ) (pair : Pair)
    (shardId : UInt32) : Worker :=
  { shardId := shardId, pair := first + i, transportFd := pair.workerFd, fds := router,
    status := .starting (closedByChild pairs i) }

/-- What a worker has open once it has closed what it closes before its function starts. -/
def Worker.atStart (w : Worker) : FdTable Description :=
  match w.status with
  | .starting toClose => w.fds.closeAll toClose
  | _ => w.fds

/-- The second phase, from index `i` on; `first` is the number of the call's first pair. -/
def forkAll (fails : ℕ → Bool) (pairs : List Pair) (first : ℕ) :
    List (Pair × UInt32) → ℕ → SpawnedWorkers → System → Except SpawnError SpawnedWorkers × System
  | [], _, result, S => (.ok result, S)
  | (pair, shardId) :: rest, i, result, S =>
    if fails i then (.error .fork, S)
    else
      let pid := S.workers.length
      forkAll fails pairs first rest (i + 1)
        { result with
          childPids := result.childPids ++ [pid]
          shardPids := result.shardPids.insert shardId pid }
        { S with workers := S.workers ++ [Worker.fork S.router pairs first i pair shardId] }

/-- The body of the loop of the third phase. A transport that takes the place of another destroys
it. -/
def assignTransport (pair : Pair) (shardId : UInt32) (result : SpawnedWorkers) (S : System) :
    SpawnedWorkers × System :=
  let router := S.router.close pair.workerFd
  let router := match result.transports.lookup shardId with
    | none => router
    | some fd => router.close fd
  ({ result with transports := result.transports.insert shardId pair.routerFd },
    { S with router := router })

/-- The third phase. -/
def adopt : List (Pair × UInt32) → SpawnedWorkers → System → SpawnedWorkers × System
  | [], result, S => (result, S)
  | (pair, shardId) :: rest, result, S =>
    let (result, S) := assignTransport pair shardId result S
    adopt rest result S

/-- `spawn_workers`. -/
def spawnWorkers (faults : Faults) (shardIds : List UInt32) (S : System) :
    Except SpawnError SpawnedWorkers × System :=
  match createPairs faults.socketpair shardIds.length 0 [] S with
  | (.error e, S) => (.error e, S)
  | (.ok pairs, S') =>
    match forkAll faults.fork pairs S.nextPair (pairs.zip shardIds) 0 {} S' with
    | (.error e, S) => (.error e, S)
    | (.ok result, S) =>
      let (result, S) := adopt (pairs.zip shardIds) result S
      (.ok result, S)

/-! ## The first phase -/

/-- The descriptors of some pairs. -/
def newFds (pairs : List Pair) : List ℕ := pairs.flatMap fun p => [p.routerFd, p.workerFd]

theorem mem_newFds {pairs : List Pair} {fd : ℕ} :
    fd ∈ newFds pairs ↔ ∃ p ∈ pairs, fd = p.routerFd ∨ fd = p.workerFd := by
  simp [newFds]

/-- The end `e` is what `fd` stands for, if the pair got the number `n`. -/
def Pair.IsEnd (p : Pair) (n fd : ℕ) (e : SocketEnd) : Prop :=
  fd = p.routerFd ∧ e = ⟨n, .router⟩ ∨ fd = p.workerFd ∧ e = ⟨n, .worker⟩

theorem Pair.IsEnd.pair_eq {p : Pair} {n fd : ℕ} {e : SocketEnd} (h : p.IsEnd n fd e) :
    e.pair = n := by
  rcases h with ⟨-, rfl⟩ | ⟨-, rfl⟩
  · rfl
  · rfl

theorem Pair.IsEnd.unique {p : Pair} {n fd fd' : ℕ} {e : SocketEnd} (h : p.IsEnd n fd e)
    (h' : p.IsEnd n fd' e) : fd = fd' := by
  rcases h with ⟨hfd, rfl⟩ | ⟨hfd, rfl⟩
  · rcases h' with ⟨hfd', -⟩ | ⟨-, he⟩
    · rw [hfd, hfd']
    · simp at he
  · rcases h' with ⟨-, he⟩ | ⟨hfd', -⟩
    · simp at he
    · rw [hfd, hfd']

/-- The router process of `S'` is that of `S` with `pairs` opened. -/
structure Created (S S' : System) (pairs : List Pair) : Prop where
  workers : S'.workers = S.workers
  nextPair : S'.nextPair = S.nextPair + pairs.length
  routerEnd : ∀ (i : ℕ) p, pairs[i]? = some p →
    S'.router.get p.routerFd = some (.socket ⟨S.nextPair + i, .router⟩)
  workerEnd : ∀ (i : ℕ) p, pairs[i]? = some p →
    S'.router.get p.workerFd = some (.socket ⟨S.nextPair + i, .worker⟩)
  fresh : ∀ fd ∈ newFds pairs, S.router.get fd = none
  frame : ∀ fd ∉ newFds pairs, S'.router.get fd = S.router.get fd

variable {S S' : System} {pairs : List Pair}

theorem created_nil (S : System) : Created S S [] where
  workers := rfl
  nextPair := rfl
  routerEnd _ _ h := by cases h
  workerEnd _ _ h := by cases h
  fresh _ h := by cases h
  frame _ _ := rfl

theorem Created.kept (h : Created S S' pairs) {fd : ℕ} {d : Description}
    (hd : S.router.get fd = some d) : fd ∉ newFds pairs ∧ S'.router.get fd = some d := by
  have hfd : fd ∉ newFds pairs := by
    intro hmem
    rw [h.fresh fd hmem] at hd
    cases hd
  exact ⟨hfd, (h.frame fd hfd).trans hd⟩

/-- A socket that is open afterwards is one of the new ends, or was open before. -/
theorem Created.get_socket (h : Created S S' pairs) {fd : ℕ} {e : SocketEnd}
    (hget : S'.router.get fd = some (.socket e)) :
    (∃ (i : ℕ) (p : Pair), pairs[i]? = some p ∧ p.IsEnd (S.nextPair + i) fd e) ∨
      S.router.get fd = some (.socket e) := by
  by_cases hfd : fd ∈ newFds pairs
  · obtain ⟨p, hp, hfd⟩ := mem_newFds.1 hfd
    obtain ⟨i, hi⟩ := List.mem_iff_getElem?.1 hp
    refine .inl ⟨i, p, hi, ?_⟩
    rcases hfd with rfl | rfl
    · rw [h.routerEnd i p hi] at hget
      simp at hget
      exact .inl ⟨rfl, hget.symm⟩
    · rw [h.workerEnd i p hi] at hget
      simp at hget
      exact .inr ⟨rfl, hget.symm⟩
  · exact .inr ((h.frame fd hfd).symm.trans hget)

/-- What is free after the first pairs was free before them. -/
theorem Created.free (h : Created S S' pairs) {fd : ℕ} (hfree : S'.router.get fd = none) :
    S.router.get fd = none := by
  by_cases hfd : fd ∈ newFds pairs
  · exact h.fresh fd hfd
  · rw [← h.frame fd hfd]
    exact hfree

/-- The table after `socketpair()`. -/
theorem get_socketpair (S : System) (fd : ℕ) :
    (socketpair S).2.router.get fd =
      if fd = (socketpair S).1.workerFd then some (.socket ⟨S.nextPair, .worker⟩)
      else if fd = (socketpair S).1.routerFd then some (.socket ⟨S.nextPair, .router⟩)
      else S.router.get fd := by
  unfold socketpair
  dsimp only
  rw [FdTable.get_openAs, FdTable.get_openAs]
  rfl

theorem socketpair_free (S : System) : S.router.get (socketpair S).1.routerFd = none ∧
    S.router.get (socketpair S).1.workerFd = none ∧
    (socketpair S).1.routerFd ≠ (socketpair S).1.workerFd := by
  have hsecond := FdTable.get_lowest (S.router.openAs (.socket ⟨S.nextPair, .router⟩)).2
  rw [FdTable.get_openAs] at hsecond
  have hne : (S.router.openAs (.socket ⟨S.nextPair, .router⟩)).2.lowest ≠ S.router.lowest := by
    intro heq
    rw [if_pos heq] at hsecond
    cases hsecond
  rw [if_neg hne] at hsecond
  exact ⟨FdTable.get_lowest _, hsecond, Ne.symm hne⟩

/-- What was open stays open. -/
theorem socketpair_kept {fd : ℕ} {d : Description} (hd : S.router.get fd = some d) :
    (socketpair S).2.router.get fd = some d := by
  obtain ⟨hrouter, hworker, -⟩ := socketpair_free S
  rw [get_socketpair, if_neg, if_neg, hd]
  · rintro rfl
    rw [hrouter] at hd
    cases hd
  · rintro rfl
    rw [hworker] at hd
    cases hd

/-- One more pair. -/
theorem Created.snoc (h : Created S S' pairs) :
    Created S (socketpair S').2 (pairs ++ [(socketpair S').1]) := by
  obtain ⟨hrouter, hworker, hne⟩ := socketpair_free S'
  have hcase : ∀ (i : ℕ) p, (pairs ++ [(socketpair S').1])[i]? = some p →
      pairs[i]? = some p ∨ i = pairs.length ∧ p = (socketpair S').1 := by
    intro i p hp
    rcases Nat.lt_or_ge i pairs.length with hi | hi
    · rw [List.getElem?_append_left hi] at hp
      exact .inl hp
    · rw [List.getElem?_append_right hi, List.getElem?_singleton] at hp
      split_ifs at hp with h0
      exact .inr ⟨by omega, (Option.some.inj hp).symm⟩
  constructor
  · exact h.workers
  · change S'.nextPair + 1 = _
    rw [h.nextPair, List.length_append, List.length_singleton, Nat.add_assoc]
  · intro i p hp
    rcases hcase i p hp with hp | ⟨rfl, rfl⟩
    · exact socketpair_kept (h.routerEnd i p hp)
    · rw [get_socketpair, if_neg hne, if_pos rfl, h.nextPair]
  · intro i p hp
    rcases hcase i p hp with hp | ⟨rfl, rfl⟩
    · exact socketpair_kept (h.workerEnd i p hp)
    · rw [get_socketpair, if_pos rfl, h.nextPair]
  · intro fd hfd
    rw [newFds, List.flatMap_append, List.mem_append, List.flatMap_singleton] at hfd
    rcases hfd with hfd | hfd
    · exact h.fresh fd hfd
    · rw [List.mem_cons, List.mem_singleton] at hfd
      apply h.free
      rcases hfd with rfl | rfl
      · exact hrouter
      · exact hworker
  · intro fd hfd
    rw [newFds, List.flatMap_append, List.mem_append, List.flatMap_singleton, not_or, List.mem_cons,
      List.mem_singleton, not_or] at hfd
    rw [get_socketpair, if_neg hfd.2.2, if_neg hfd.2.1, h.frame fd hfd.1]

/-- **The first phase** opens the pairs up to the first failure. -/
theorem createPairs_spec (fails : ℕ → Bool) (n : ℕ) (h : Created S S' pairs) :
    ∃ (pairs' : List Pair) (S'' : System), Created S S'' pairs' ∧
      (∀ j, pairs.length ≤ j → j < pairs'.length → fails j = false) ∧
      ((createPairs fails n pairs.length pairs S' = (.ok pairs', S'') ∧
          pairs'.length = pairs.length + n) ∨
        (createPairs fails n pairs.length pairs S' = (.error .socketpair, S'') ∧
          fails pairs'.length = true ∧ pairs.length ≤ pairs'.length ∧
          pairs'.length < pairs.length + n)) := by
  induction n generalizing S' pairs with
  | zero => exact ⟨pairs, S', h, by omega, .inl ⟨rfl, rfl⟩⟩
  | succ n ih =>
    cases hfail : fails pairs.length with
    | true =>
      refine ⟨pairs, S', h, by omega, .inr ⟨?_, hfail, le_rfl, by omega⟩⟩
      rw [createPairs, if_pos hfail]
    | false =>
      obtain ⟨pairs', S'', hc, hok, hrun⟩ := ih h.snoc
      rw [List.length_append, List.length_singleton] at hok hrun
      have hstep : createPairs fails (n + 1) pairs.length pairs S' =
          createPairs fails n (pairs.length + 1) (pairs ++ [(socketpair S').1])
            (socketpair S').2 := by
        rw [createPairs, if_neg (by simp [hfail])]
      refine ⟨pairs', S'', hc, fun j hj hlt => ?_, ?_⟩
      · rcases Nat.eq_or_lt_of_le hj with rfl | hj
        · exact hfail
        · exact hok j hj hlt
      · rw [hstep]
        rcases hrun with ⟨hrun, hlen⟩ | ⟨hrun, hfails, hle, hlt⟩
        · exact .inl ⟨hrun, by omega⟩
        · exact .inr ⟨hrun, hfails, by omega, by omega⟩

/-! ## The second phase -/

/-- The children of a call, from index `i` on. -/
def forked (router : FdTable Description) (pairs : List Pair) (first i : ℕ)
    (l : List (Pair × UInt32)) : List Worker :=
  (l.zipIdx i).map fun x => Worker.fork router pairs first x.2 x.1.1 x.1.2

theorem forked_cons (router : FdTable Description) (pairs : List Pair) (first i : ℕ) (pair : Pair)
    (shardId : UInt32) (l : List (Pair × UInt32)) :
    forked router pairs first i ((pair, shardId) :: l) =
      Worker.fork router pairs first i pair shardId :: forked router pairs first (i + 1) l := by
  rw [forked, List.zipIdx_cons, List.map_cons]
  rfl

theorem mem_forked {router : FdTable Description} {first : ℕ} {shardIds : List UInt32} {w : Worker}
    (hw : w ∈ forked router pairs first 0 (pairs.zip shardIds)) :
    ∃ (i : ℕ) (p : Pair) (s : UInt32), pairs[i]? = some p ∧
      w = Worker.fork router pairs first i p s := by
  obtain ⟨⟨⟨p, s⟩, i⟩, hx, rfl⟩ := List.mem_map.1 hw
  have hi := List.mk_mem_zipIdx_iff_getElem?.1 hx
  exact ⟨i, p, s, (List.getElem?_zip_eq_some.1 hi).1, rfl⟩

theorem fork_mem_forked {router : FdTable Description} {first i : ℕ} {shardIds : List UInt32}
    {p : Pair} {s : UInt32} (hi : (pairs.zip shardIds)[i]? = some (p, s)) :
    Worker.fork router pairs first i p s ∈ forked router pairs first 0 (pairs.zip shardIds) :=
  List.mem_map.2 ⟨((p, s), i), List.mk_mem_zipIdx_iff_getElem?.2 hi, rfl⟩

/-- **The second phase** forks the children up to the first failure, and opens and closes nothing
itself. -/
theorem forkAll_spec (fails : ℕ → Bool) (pairs : List Pair) (first : ℕ)
    (l : List (Pair × UInt32)) (i : ℕ) (result : SpawnedWorkers) (S : System) :
    ∃ m ≤ l.length, (∀ j < m, fails (i + j) = false) ∧
      let S' := { S with workers := S.workers ++ (forked S.router pairs first i l).take m }
      (m = l.length ∧ ∃ result', forkAll fails pairs first l i result S = (.ok result', S') ∧
          result'.transports = result.transports) ∨
        (m < l.length ∧ fails (i + m) = true ∧
          forkAll fails pairs first l i result S = (.error .fork, S')) := by
  induction l generalizing i result S with
  | nil => exact ⟨0, le_rfl, by omega, .inl ⟨rfl, result, by simp [forkAll], rfl⟩⟩
  | cons x l ih =>
    obtain ⟨pair, shardId⟩ := x
    cases hfail : fails i with
    | true =>
      refine ⟨0, Nat.zero_le _, by omega, .inr ⟨Nat.succ_pos _, hfail, ?_⟩⟩
      rw [forkAll, if_pos hfail, List.take_zero, List.append_nil]
    | false =>
      obtain ⟨m, hm, hok, hrun⟩ := ih (i + 1)
        { result with
          childPids := result.childPids ++ [S.workers.length]
          shardPids := result.shardPids.insert shardId S.workers.length }
        { S with workers := S.workers ++ [Worker.fork S.router pairs first i pair shardId] }
      have hstep : forkAll fails pairs first ((pair, shardId) :: l) i result S =
          forkAll fails pairs first l (i + 1)
            { result with
              childPids := result.childPids ++ [S.workers.length]
              shardPids := result.shardPids.insert shardId S.workers.length }
            { S with
              workers := S.workers ++ [Worker.fork S.router pairs first i pair shardId] } := by
        rw [forkAll, if_neg (by simp [hfail])]
      have hlist :
          S.workers ++ (forked S.router pairs first i ((pair, shardId) :: l)).take (m + 1) =
          S.workers ++ [Worker.fork S.router pairs first i pair shardId] ++
            (forked S.router pairs first (i + 1) l).take m := by
        rw [forked_cons, List.take_succ_cons, List.append_assoc, List.singleton_append]
      refine ⟨m + 1, Nat.succ_le_succ hm, fun j hj => ?_, ?_⟩
      · cases j with
        | zero => exact hfail
        | succ j =>
          rw [← Nat.add_assoc, Nat.add_right_comm]
          exact hok j (by omega)
      · dsimp only at hrun ⊢
        rw [hstep, hlist, List.length_cons]
        rcases hrun with ⟨hlen, result', hrun, htr⟩ | ⟨hlt, hfails, hrun⟩
        · exact .inl ⟨by omega, result', hrun, htr⟩
        · refine .inr ⟨by omega, ?_, hrun⟩
          rw [← hfails]
          congr 1
          omega

theorem mem_closedByChild {i fd : ℕ} : fd ∈ closedByChild pairs i ↔
    ∃ (j : ℕ) (p : Pair), pairs[j]? = some p ∧ (fd = p.routerFd ∨ j ≠ i ∧ fd = p.workerFd) := by
  unfold closedByChild
  rw [List.mem_flatMap]
  constructor
  · rintro ⟨⟨p, j⟩, hp, hfd⟩
    refine ⟨j, p, List.mk_mem_zipIdx_iff_getElem?.1 hp, ?_⟩
    dsimp only at hfd
    split_ifs at hfd with hj
    · simpa [hj] using hfd
    · exact .inl (by simpa using hfd)
  · rintro ⟨j, p, hp, hfd⟩
    refine ⟨(p, j), List.mk_mem_zipIdx_iff_getElem?.2 hp, ?_⟩
    dsimp only
    split_ifs with hj
    · simpa [hj] using hfd
    · exact List.mem_singleton.2 (hfd.resolve_right fun h => hj h.1)

theorem closedByChild_subset (i : ℕ) : ∀ fd ∈ closedByChild pairs i, fd ∈ newFds pairs := by
  intro fd hfd
  obtain ⟨j, p, hp, hfd⟩ := mem_closedByChild.1 hfd
  exact mem_newFds.2 ⟨p, List.mem_of_getElem? hp, hfd.imp_right And.right⟩

/-- The worker end of a child is the only new descriptor it does not close. -/
theorem Created.notMem_closedByChild (h : Created S S' pairs) {i : ℕ} {p : Pair}
    (hi : pairs[i]? = some p) {fd : ℕ} (hfd : fd ∈ newFds pairs) :
    fd ∉ closedByChild pairs i ↔ fd = p.workerFd := by
  constructor
  · intro hnot
    obtain ⟨p', hp', hfd⟩ := mem_newFds.1 hfd
    obtain ⟨j, hj⟩ := List.mem_iff_getElem?.1 hp'
    rcases hfd with hfd | hfd
    · exact absurd (mem_closedByChild.2 ⟨j, p', hj, .inl hfd⟩) hnot
    · by_cases hji : j = i
      · subst hji
        obtain rfl := Option.some.inj (hi.symm.trans hj)
        exact hfd
      · exact absurd (mem_closedByChild.2 ⟨j, p', hj, .inr ⟨hji, hfd⟩⟩) hnot
  · rintro rfl hmem
    have hown := h.workerEnd i p hi
    obtain ⟨j, p', hj, hr | ⟨hji, hw⟩⟩ := mem_closedByChild.1 hmem
    · rw [hr, h.routerEnd j p' hj] at hown
      simp at hown
    · rw [hw, h.workerEnd j p' hj] at hown
      simp at hown
      exact hji hown

/-- **What a worker has open when its function starts**: its own end, and what the router process
had open before the call. -/
theorem get_atStart (h : Created S S' pairs) {i : ℕ} {p : Pair} (hi : pairs[i]? = some p)
    (shardId : UInt32) (fd : ℕ) (d : Description) :
    (Worker.fork S'.router pairs S.nextPair i p shardId).atStart.get fd = some d ↔
      fd = p.workerFd ∧ d = .socket ⟨S.nextPair + i, .worker⟩ ∨ S.router.get fd = some d := by
  change (S'.router.closeAll (closedByChild pairs i)).get fd = some d ↔ _
  rw [FdTable.get_closeAll]
  by_cases hnew : fd ∈ newFds pairs
  · have hfree := h.fresh fd hnew
    rw [hfree, or_iff_left (by simp)]
    by_cases hown : fd = p.workerFd
    · rw [if_neg ((h.notMem_closedByChild hi hnew).2 hown), hown, h.workerEnd i p hi]
      simp [eq_comm]
    · rw [if_pos (not_not.1 ((h.notMem_closedByChild hi hnew).not.2 hown))]
      simp [hown]
  · have hnot : fd ∉ closedByChild pairs i := fun hmem => hnew (closedByChild_subset i fd hmem)
    have hne : fd ≠ p.workerFd := by
      rintro rfl
      exact hnew (mem_newFds.2 ⟨p, List.mem_of_getElem? hi, .inr rfl⟩)
    rw [if_neg hnot, h.frame fd hnew, or_iff_right fun h => hne h.1]

/-! ## The third phase -/

/-- The ends of a call have descriptors of their own. -/
structure Distinct (l : List (Pair × UInt32)) : Prop where
  nodup : (l.map fun x => x.1.routerFd).Nodup
  apart : ∀ x ∈ l, ∀ y ∈ l, x.1.routerFd ≠ y.1.workerFd

/-- The third phase after the pairs `done`, from the table `base`: a transport owns the router end
of its shard, which is open, and only ends of these pairs were closed. -/
structure Adopted (base : System) (done : List (Pair × UInt32)) (result : SpawnedWorkers)
    (S : System) : Prop where
  workers : S.workers = base.workers
  nextPair : S.nextPair = base.nextPair
  live : ∀ s fd, result.transports.lookup s = some fd →
    S.router.get fd = base.router.get fd ∧ ∃ pair, (pair, s) ∈ done ∧ fd = pair.routerFd
  closed : ∀ fd, S.router.get fd = base.router.get fd ∨
    S.router.get fd = none ∧ ∃ x ∈ done, fd = x.1.routerFd ∨ fd = x.1.workerFd

theorem get_assignTransport (pair : Pair) (shardId : UInt32) (result : SpawnedWorkers)
    (S : System) (fd : ℕ) :
    (assignTransport pair shardId result S).2.router.get fd =
      if fd = pair.workerFd ∨ result.transports.lookup shardId = some fd then none
      else S.router.get fd := by
  unfold assignTransport
  cases hlook : result.transports.lookup shardId with
  | none =>
    dsimp only
    rw [FdTable.get_close]
    simp
  | some old =>
    dsimp only
    rw [FdTable.get_close, FdTable.get_close]
    by_cases hold : fd = old
    · simp [hold]
    · have hold' : old ≠ fd := Ne.symm hold
      simp [hold, hold']

/-- Two transports do not own one descriptor. -/
theorem Adopted.unshared {base : System} {done : List (Pair × UInt32)} {result : SpawnedWorkers}
    (h : Adopted base done result S) (hnd : (done.map fun x => x.1.routerFd).Nodup)
    {s s' : UInt32} {fd : ℕ} (hlook : result.transports.lookup s = some fd)
    (hlook' : result.transports.lookup s' = some fd) : s = s' := by
  obtain ⟨-, p, hp, hfd⟩ := h.live s fd hlook
  obtain ⟨-, p', hp', hfd'⟩ := h.live s' fd hlook'
  exact congrArg Prod.snd (List.inj_on_of_nodup_map hnd hp hp' (hfd.symm.trans hfd'))

theorem Adopted.step {base : System} {done : List (Pair × UInt32)} {result : SpawnedWorkers}
    (h : Adopted base done result S) {pair : Pair} {shardId : UInt32}
    (hd : Distinct (done ++ [(pair, shardId)])) :
    Adopted base (done ++ [(pair, shardId)]) (assignTransport pair shardId result S).1
      (assignTransport pair shardId result S).2 := by
  have hnew : (pair, shardId) ∈ done ++ [(pair, shardId)] := by simp
  have hnd := hd.nodup
  rw [List.map_append, List.nodup_append] at hnd
  have hother : ∀ x ∈ done, x.1.routerFd ≠ pair.routerFd := fun x hx =>
    hnd.2.2 _ (List.mem_map_of_mem hx) _ (by simp)
  -- the descriptor of another shard's transport is not closed
  have hkept : ∀ s fd, s ≠ shardId → result.transports.lookup s = some fd →
      ¬ (fd = pair.workerFd ∨ result.transports.lookup shardId = some fd) := by
    rintro s fd hs hlook (hw | hw)
    · obtain ⟨-, p, hp, rfl⟩ := h.live s fd hlook
      exact hd.apart _ (List.mem_append_left _ hp) _ hnew hw
    · exact hs (h.unshared hnd.1 hlook hw)
  constructor
  · exact h.workers
  · exact h.nextPair
  · intro s fd hlook
    by_cases hs : s = shardId
    · have hfd : fd = pair.routerFd := by
        rw [hs] at hlook
        exact (Option.some.inj ((AList.lookup_insert _).symm.trans hlook)).symm
      refine ⟨?_, pair, hs ▸ hnew, hfd⟩
      rw [get_assignTransport, if_neg, hfd]
      · refine (h.closed _).resolve_right ?_
        rintro ⟨-, x, hx, hr | hw⟩
        · exact hother x hx hr.symm
        · exact hd.apart _ hnew _ (List.mem_append_left _ hx) hw
      · rintro (hw | hold)
        · exact hd.apart _ hnew _ hnew (hfd ▸ hw)
        · obtain ⟨-, p, hp, hr⟩ := h.live _ _ hold
          exact hother _ hp (hr.symm.trans hfd)
    · have hlook' : result.transports.lookup s = some fd :=
        (AList.lookup_insert_ne hs).symm.trans hlook
      obtain ⟨hsame, p, hp, hfd⟩ := h.live s fd hlook'
      refine ⟨?_, p, List.mem_append_left _ hp, hfd⟩
      rw [get_assignTransport, if_neg (hkept s fd hs hlook')]
      exact hsame
  · intro fd
    rw [get_assignTransport]
    split_ifs with hclosed
    · refine .inr ⟨rfl, ?_⟩
      rcases hclosed with hw | hold
      · exact ⟨_, hnew, .inr hw⟩
      · obtain ⟨-, p, hp, hr⟩ := h.live _ _ hold
        exact ⟨_, List.mem_append_left _ hp, .inl hr⟩
    · refine (h.closed fd).imp_right fun ⟨hnone, x, hx, hfd⟩ => ?_
      exact ⟨hnone, x, List.mem_append_left _ hx, hfd⟩

/-- **The third phase.** -/
theorem adopt_spec {base : System} (l : List (Pair × UInt32)) {done : List (Pair × UInt32)}
    {result : SpawnedWorkers} (h : Adopted base done result S) (hd : Distinct (done ++ l)) :
    Adopted base (done ++ l) (adopt l result S).1 (adopt l result S).2 := by
  induction l generalizing done result S with
  | nil =>
    rw [List.append_nil]
    exact h
  | cons x l ih =>
    obtain ⟨pair, shardId⟩ := x
    rw [List.append_cons] at hd ⊢
    have hsub : Distinct (done ++ [(pair, shardId)]) := by
      constructor
      · exact hd.nodup.sublist ((List.sublist_append_left _ _).map _)
      · intro x hx y hy
        exact hd.apart x (List.mem_append_left _ hx) y (List.mem_append_left _ hy)
    exact ih (h.step hsub) hd

/-! ## The call -/

/-- The pairs of a call, with the shards they are for. -/
theorem Created.distinct (h : Created S S' pairs) {shardIds : List UInt32}
    (hlen : pairs.length ≤ shardIds.length) : Distinct (pairs.zip shardIds) := by
  have hfst : ∀ x ∈ pairs.zip shardIds, ∃ i : ℕ, pairs[i]? = some x.1 := by
    intro x hx
    exact List.mem_iff_getElem?.1 (List.of_mem_zip hx).1
  have hnd : (pairs.map Pair.routerFd).Nodup := by
    rw [List.nodup_iff_getElem?_ne_getElem?]
    intro i j hij hj heq
    rw [List.length_map] at hj
    rw [List.getElem?_map, List.getElem?_map, List.getElem?_eq_getElem hj,
      List.getElem?_eq_getElem (lt_trans hij hj)] at heq
    have hi := h.routerEnd i _ (List.getElem?_eq_getElem (lt_trans hij hj))
    have hj := h.routerEnd j _ (List.getElem?_eq_getElem hj)
    rw [Option.some.inj heq, hj] at hi
    simp at hi
    omega
  constructor
  · have hmap : (pairs.zip shardIds).map (fun x => x.1.routerFd) =
        ((pairs.zip shardIds).map Prod.fst).map Pair.routerFd := List.map_map.symm
    rw [hmap, List.map_fst_zip hlen]
    exact hnd
  · intro x hx y hy heq
    obtain ⟨i, hi⟩ := hfst x hx
    obtain ⟨j, hj⟩ := hfst y hy
    have hr := h.routerEnd i _ hi
    rw [heq, h.workerEnd j _ hj] at hr
    simp at hr

/-- The call got as far as creating `pairs`, which made `S₁`, and forking `m` children; `result` is
what it returned, and nothing if it threw. -/
structure Spawned (S : System) (shardIds : List UInt32) (pairs : List Pair) (S₁ : System) (m : ℕ)
    (result : Option SpawnedWorkers) (S' : System) : Prop where
  created : Created S S₁ pairs
  workers : S'.workers = S.workers ++
    (forked S₁.router pairs S.nextPair 0 (pairs.zip shardIds)).take m
  nextPair : S'.nextPair = S₁.nextPair
  thrown : result = none → S'.router = S₁.router
  returned : ∀ r, result = some r → pairs.length = shardIds.length ∧ m = shardIds.length ∧
    Adopted { S₁ with workers := S'.workers } (pairs.zip shardIds) r S'

/-- The processes after a call has forked `m` children; `first` is the number of its first pair. -/
def System.withChildren (S : System) (pairs : List Pair) (first : ℕ) (shardIds : List UInt32)
    (m : ℕ) : System :=
  { S with workers := S.workers ++ (forked S.router pairs first 0 (pairs.zip shardIds)).take m }

/-- A call that throws, after `m` children. -/
theorem Created.threw {S₁ : System} (h : Created S S₁ pairs) (shardIds : List UInt32) (m : ℕ) :
    Spawned S shardIds pairs S₁ m none (S₁.withChildren pairs S.nextPair shardIds m) where
  created := h
  workers := by rw [System.withChildren, h.workers]
  nextPair := rfl
  thrown _ := rfl
  returned _ h := by cases h

/-- A call that returns: its third phase starts without transports. -/
theorem Created.completed {S₁ : System} {shardIds : List UInt32} {result : SpawnedWorkers}
    (h : Created S S₁ pairs) (hlen : pairs.length = shardIds.length)
    (hresult : result.transports = ∅) :
    let x := adopt (pairs.zip shardIds) result
      (S₁.withChildren pairs S.nextPair shardIds shardIds.length)
    Spawned S shardIds pairs S₁ shardIds.length (some x.1) x.2 := by
  let base := S₁.withChildren pairs S.nextPair shardIds shardIds.length
  have hnone : Adopted base [] result base := by
    refine ⟨rfl, rfl, fun s fd hlook => ?_, fun _ => .inl rfl⟩
    rw [hresult] at hlook
    cases hlook
  have hadopted := adopt_spec (pairs.zip shardIds) hnone (h.distinct (Nat.le_of_eq hlen))
  rw [List.nil_append] at hadopted
  constructor
  · exact h
  · rw [← h.workers]
    exact hadopted.workers
  · exact hadopted.nextPair
  · intro hthrown
    cases hthrown
  · intro r hr
    refine ⟨hlen, rfl, ?_⟩
    rw [← Option.some.inj hr, hadopted.workers]
    exact hadopted

/-- No system call of a call for `n` shards fails. -/
def Faults.None (faults : Faults) (n : ℕ) : Prop :=
  ∀ i < n, faults.socketpair i = false ∧ faults.fork i = false

/-- **What a call does**: it returns if no system call fails, and otherwise throws at the first that
does. -/
theorem spawnWorkers_spec (faults : Faults) (shardIds : List UInt32) (S : System) :
    ∃ (pairs : List Pair) (S₁ : System) (m : ℕ),
      (∀ i < pairs.length, faults.socketpair i = false) ∧
      ((∃ r, (spawnWorkers faults shardIds S).1 = .ok r ∧ faults.None shardIds.length ∧
          Spawned S shardIds pairs S₁ m (some r) (spawnWorkers faults shardIds S).2) ∨
        ((∃ e, (spawnWorkers faults shardIds S).1 = .error e) ∧
          Spawned S shardIds pairs S₁ m none (spawnWorkers faults shardIds S).2 ∧
          ((faults.socketpair pairs.length = true ∧ pairs.length < shardIds.length ∧ m = 0) ∨
            (pairs.length = shardIds.length ∧ m < shardIds.length ∧ faults.fork m = true)))) := by
  obtain ⟨pairs, S₁, hcreated, hpairs, hrun⟩ :=
    createPairs_spec faults.socketpair shardIds.length (created_nil S)
  rw [List.length_nil] at hpairs hrun
  simp only [Nat.zero_le, true_implies, Nat.zero_add, true_and] at hpairs hrun
  rcases hrun with ⟨hrun, hlen⟩ | ⟨hrun, hfail, hlt⟩
  · obtain ⟨m, hm, hforks, hrun'⟩ := forkAll_spec faults.fork pairs S.nextPair
      (pairs.zip shardIds) 0 {} S₁
    have hzip : (pairs.zip shardIds).length = shardIds.length := by
      rw [List.length_zip, hlen, Nat.min_self]
    simp only [Nat.zero_add, hzip] at hm hforks hrun'
    refine ⟨pairs, S₁, m, hpairs, ?_⟩
    rcases hrun' with ⟨rfl, result, hrun', htr⟩ | ⟨hlt, hfail, hrun'⟩
    · have hcall : spawnWorkers faults shardIds S =
          let x := adopt (pairs.zip shardIds) result
            (S₁.withChildren pairs S.nextPair shardIds shardIds.length)
          (.ok x.1, x.2) := by
        rw [spawnWorkers, hrun]
        dsimp only
        rw [hrun']
        rfl
      rw [hcall]
      exact .inl ⟨_, rfl, fun i hi => ⟨hpairs i (hlen ▸ hi), hforks i hi⟩,
        hcreated.completed hlen htr⟩
    · have hcall : spawnWorkers faults shardIds S =
          (.error .fork, S₁.withChildren pairs S.nextPair shardIds m) := by
        rw [spawnWorkers, hrun]
        dsimp only
        rw [hrun']
        rfl
      rw [hcall]
      exact .inr ⟨⟨_, rfl⟩, hcreated.threw shardIds m, .inr ⟨hlen, hlt, hfail⟩⟩
  · have hcall : spawnWorkers faults shardIds S = (.error .socketpair, S₁) := by
      rw [spawnWorkers, hrun]
    have hthrew := hcreated.threw shardIds 0
    rw [System.withChildren, List.take_zero, List.append_nil] at hthrew
    rw [hcall]
    exact ⟨pairs, S₁, 0, hpairs, .inr ⟨⟨_, rfl⟩, hthrew, .inl ⟨hfail, hlt, rfl⟩⟩⟩

/-- What a call leaves, whether it returned or threw. -/
theorem exists_spawned (faults : Faults) (shardIds : List UInt32) (S : System) :
    ∃ (pairs : List Pair) (S₁ : System) (m : ℕ) (result : Option SpawnedWorkers),
      Spawned S shardIds pairs S₁ m result (spawnWorkers faults shardIds S).2 := by
  obtain ⟨pairs, S₁, m, -, ⟨r, -, -, hs⟩ | ⟨-, hs, -⟩⟩ := spawnWorkers_spec faults shardIds S
  · exact ⟨pairs, S₁, m, some r, hs⟩
  · exact ⟨pairs, S₁, m, none, hs⟩

end AetherMoE.Spawn
