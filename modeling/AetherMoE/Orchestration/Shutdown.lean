import AetherMoE.Orchestration.DescriptorIsolation
import Mathlib.Algebra.BigOperators.Group.Finset.Basic
import Mathlib.Algebra.Order.BigOperators.Group.Finset
import Mathlib.Data.Finset.Max

/-!
# Shutting down

The router process has closed its transports and waits in `SpawnedWorkers::join_all`. The workers go
on: they start, serve what they have been sent, and return from `run_worker_loop` once nobody has
the other end of their stream open. A worker that was forked while transports of an earlier call
were open keeps these open for as long as it lives, so the workers of the earlier call wait for it.

* `WaitStatus`, `Join`, `Host`, `Host.Step`: the workers and `join_all`;
* `HeldBelow`, `PidsInv`, **`heldBelow_of_acts`**: a worker has its own end and only older ends
  open, and a call returned the pids of its workers;
* `Host.rank`, **`rank_step`**: every step uses up what is left to do;
* **`Inv.exists_step`**: as long as `join_all` waits somebody has something to do;
* **`join_all_returns`**.
-/

namespace AetherMoE.Spawn

open Descriptors Stepping Relation

/-- What the processes may do, in any order. -/
def Acts : State → State → Prop := ReflTransGen fun st st' => ∃ a, st' = perform a st

/-! ## The ends a worker has open -/

/-- A worker has open, once it has closed what it closes before its function starts, its own end and
ends of older pairs; and nothing once it has exited. -/
structure Worker.Held (w : Worker) : Prop where
  ends : ∀ fd e, w.atStart.get fd = some (.socket e) → e = ⟨w.pair, .worker⟩ ∨ e.pair < w.pair
  empty : w.status = .exited → w.fds = ⟨[]⟩

/-- So it is for all workers. -/
def HeldBelow (st : State) : Prop := ∀ w ∈ st.system.workers, w.Held

theorem Worker.Held.advance {w : Worker} (h : w.Held) : w.advance.Held where
  ends fd e hget := by
    rw [Worker.atStart_advance] at hget
    rw [Worker.advance_pair]
    exact h.ends fd e hget
  empty hexited := by
    obtain ⟨shardId, pair, transportFd, fds, status⟩ := w
    cases status with
    | starting toClose => cases toClose <;> cases hexited
    | running => cases hexited
    | exited => exact h.empty rfl

theorem Worker.held_exit (w : Worker) : w.exit.Held where
  ends fd e hget := by cases hget
  empty _ := rfl

theorem HeldBelow.perform {st : State} (h : HeldBelow st) (hinv : RouterInv st) (a : Act) :
    HeldBelow (perform a st) := by
  cases a with
  | spawn faults shardIds =>
    obtain ⟨pairs, S₁, m, result, hs⟩ := exists_spawned faults shardIds st.system
    intro w hw
    rw [system_perform_spawn] at hw
    rcases hs.mem_workers hw with hw | ⟨i, p, s, hi, rfl⟩
    · exact h w hw
    · refine ⟨fun fd e hget => ?_, fun hexited => by cases hexited⟩
      rcases (get_atStart hs.created hi s fd _).1 hget with ⟨-, hown⟩ | hold
      · left
        cases hown
        rfl
      · right
        exact (hinv.below fd e hold).trans_le (Nat.le_add_right _ _)
  | destroy call shardId =>
    intro w hw
    refine h w ?_
    rw [← (destroy_workers st call shardId).1]
    exact hw
  | advance pid =>
    intro w hw
    rcases mem_modify hw with hw | ⟨w', hw', rfl⟩
    · exact h w hw
    · exact (h w' hw').advance
  | exit pid =>
    intro w hw
    rcases mem_modify hw with hw | ⟨w', hw', rfl⟩
    · exact h w hw
    · exact w'.held_exit

/-- **The youngest worker that runs has nobody at the other end of its stream**, once all workers
have started and the router process has closed its ends. -/
theorem HeldBelow.endOfStream {st : State} (h : HeldBelow st) (hsettled : Settled st)
    (hclosed : ∀ pair, ¬ st.system.router.Holds (.socket ⟨pair, .router⟩)) {w : Worker}
    (hmax : ∀ w' ∈ st.system.workers, w'.status = .running → w'.pair ≤ w.pair) :
    EndOfStream st w.pair := by
  refine List.forall_mem_cons.2 ⟨hclosed w.pair, fun t ht => ?_⟩
  obtain ⟨w', hw', rfl⟩ := List.mem_map.1 ht
  rintro ⟨fd, hget⟩
  rcases hsettled w' hw' with hrun | hexited
  · have hends := (h w' hw').ends fd ⟨w.pair, .router⟩
    rw [Worker.atStart_of_started (.inl hrun)] at hends
    rcases hends hget with hown | holder
    · simp at hown
    · exact absurd (hmax w' hw' hrun) (Nat.not_le.2 holder)
  · rw [(h w' hw').empty hexited] at hget
    cases hget

/-! ## The pids of a call -/

theorem childPids_forkAll {fails : ℕ → Bool} {pairs : List Pair} {first : ℕ}
    {l : List (Pair × UInt32)} {i : ℕ} {result result' : SpawnedWorkers} {S S' : System}
    (h : forkAll fails pairs first l i result S = (.ok result', S')) :
    result'.childPids = result.childPids ++ List.range' S.workers.length l.length := by
  induction l generalizing i result S with
  | nil =>
    cases h
    simp
  | cons x l ih =>
    rw [forkAll] at h
    split_ifs at h with hfail
    · cases h
    · have hrest := ih h
      rw [hrest]
      simp [List.range'_succ]

theorem childPids_adopt (l : List (Pair × UInt32)) (result : SpawnedWorkers) (S : System) :
    (adopt l result S).1.childPids = result.childPids := by
  induction l generalizing result S with
  | nil => rfl
  | cons x l ih => exact ih _ _

theorem workers_adopt (l : List (Pair × UInt32)) (result : SpawnedWorkers) (S : System) :
    (adopt l result S).2.workers = S.workers := by
  induction l generalizing result S with
  | nil => rfl
  | cons x l ih => exact ih _ _

theorem length_forked (router : FdTable Description) (pairs : List Pair) (first i : ℕ)
    (l : List (Pair × UInt32)) : (forked router pairs first i l).length = l.length := by
  rw [forked, List.length_map, List.length_zipIdx]

/-- **The pids a call returns** are those of the workers it has forked. -/
theorem childPids_spawnWorkers {faults : Faults} {shardIds : List UInt32} {S S' : System}
    {result : SpawnedWorkers} (h : spawnWorkers faults shardIds S = (.ok result, S')) :
    result.childPids = List.range' S.workers.length shardIds.length ∧
      S'.workers.length = S.workers.length + shardIds.length := by
  obtain ⟨pairs, S₁, hcreated, -, ⟨hrun, hlen⟩ | ⟨hrun, -⟩⟩ :=
    createPairs_spec faults.socketpair shardIds.length (created_nil S)
  · rw [List.length_nil] at hrun
    rw [List.length_nil, Nat.zero_add] at hlen
    have hzip : (pairs.zip shardIds).length = shardIds.length := by
      rw [List.length_zip, hlen, Nat.min_self]
    rw [spawnWorkers, hrun] at h
    dsimp only at h
    obtain ⟨m, hm, -, ⟨rfl, result₁, hforks, -⟩ | ⟨-, -, hforks⟩⟩ :=
      forkAll_spec faults.fork pairs S.nextPair (pairs.zip shardIds) 0 {} S₁
    · rw [hforks] at h
      dsimp only at h
      cases h
      rw [childPids_adopt, workers_adopt, childPids_forkAll hforks, hcreated.workers, hzip]
      simp [length_forked, hzip]
    · rw [hforks] at h
      cases h
  · rw [List.length_nil] at hrun
    rw [spawnWorkers, hrun] at h
    cases h

/-- The workers are never fewer than before. -/
theorem length_workers_spawnWorkers (faults : Faults) (shardIds : List UInt32) (S : System) :
    S.workers.length ≤ (spawnWorkers faults shardIds S).2.workers.length := by
  obtain ⟨pairs, S₁, m, result, hs⟩ := exists_spawned faults shardIds S
  rw [hs.workers, List.length_append]
  exact Nat.le_add_right _ _

/-- The pids that the calls so far have returned are those of workers, each once. -/
def PidsInv (st : State) : Prop :=
  ∀ c, (st.spawned c).childPids.Nodup ∧
    ∀ pid ∈ (st.spawned c).childPids, pid < st.system.workers.length

theorem PidsInv.perform {st : State} (h : PidsInv st) (a : Act) : PidsInv (perform a st) := by
  have hmodify : ∀ pid f, (st.system.workers.modify pid f).length = st.system.workers.length :=
    fun pid f => List.length_modify ..
  cases a with
  | spawn faults shardIds =>
    have hgrow := length_workers_spawnWorkers faults shardIds st.system
    have hold : ∀ c, (st.spawned c).childPids.Nodup ∧ ∀ pid ∈ (st.spawned c).childPids,
        pid < (spawnWorkers faults shardIds st.system).2.workers.length := fun c =>
      ⟨(h c).1, fun pid hpid => ((h c).2 pid hpid).trans_le hgrow⟩
    unfold Spawn.perform
    dsimp only
    split
    · next result S heq =>
      obtain ⟨hpids, hlen⟩ := childPids_spawnWorkers heq
      intro c
      dsimp only
      by_cases hc : c = st.calls
      · subst hc
        rw [Function.update_self, hpids]
        refine ⟨List.nodup_range', fun pid hpid => ?_⟩
        rw [hlen]
        rw [List.mem_range'_1] at hpid
        exact hpid.2
      · rw [Function.update_of_ne hc]
        rw [heq] at hold
        exact hold c
    · next e S heq =>
      rw [heq] at hold
      exact hold
  | destroy call shardId =>
    intro c
    change ((st.destroy call shardId).spawned c).childPids.Nodup ∧ _
    have hpids : ((st.destroy call shardId).spawned c).childPids = (st.spawned c).childPids := by
      unfold State.destroy
      split
      · rfl
      · dsimp only
        by_cases hc : c = call
        · subst hc
          rw [Function.update_self]
        · rw [Function.update_of_ne hc]
    refine ⟨hpids ▸ (h c).1, fun pid hpid => ?_⟩
    change pid < (st.destroy call shardId).system.workers.length
    rw [(destroy_workers st call shardId).1]
    exact (h c).2 pid (hpids ▸ hpid)
  | advance pid => exact fun c => ⟨(h c).1, fun i hi => (hmodify _ _).symm ▸ (h c).2 i hi⟩
  | exit pid => exact fun c => ⟨(h c).1, fun i hi => (hmodify _ _).symm ▸ (h c).2 i hi⟩

/-- **In every run** a worker has its own end and only older ends open, and a call has returned the
pids of workers, each once. -/
theorem heldBelow_of_acts {t : FdTable Description} (ht : NoSockets t) {st : State}
    (h : Acts (.init t) st) : HeldBelow st ∧ PidsInv st := by
  have hinv : RouterInv st ∧ HeldBelow st ∧ PidsInv st := by
    refine invariant (P := fun s => RouterInv s ∧ HeldBelow s ∧ PidsInv s) ⟨routerInv_init ht,
      List.forall_mem_nil _, fun _ => ⟨List.nodup_nil, List.forall_mem_nil _⟩⟩ ?_ h
    rintro s s' ⟨hrouter, hheld, hpids⟩ ⟨a, rfl⟩
    exact ⟨hrouter.perform a, hheld.perform hrouter a, hpids.perform a⟩
  exact hinv.2

/-! ## The workers and `join_all` -/

/-- What `waitpid` tells of a worker. -/
inductive WaitStatus
  | exited (code : ℕ)
  | signaled
  deriving Repr, DecidableEq

/-- `join_all`: the pids it has still to wait for and the statuses so far, or how it has ended. -/
inductive Join
  | waiting (rest : List ℕ) (statuses : List WaitStatus)
  | returned (statuses : List WaitStatus)
  | threw
  deriving Repr, DecidableEq

/-- The processes during `join_all`: how many messages each worker has still to serve, how each
worker that has exited did, and the pids that were waited for. -/
structure Host where
  state : State
  unread : ℕ → ℕ
  status : ℕ → WaitStatus
  reaped : Finset ℕ := ∅
  join : Join

/-- What happens next. -/
inductive Move
  | advance (pid : ℕ)
  | serve (pid : ℕ)
  | leave (pid : ℕ)
  | kill (pid : ℕ)
  | join
  deriving Repr, DecidableEq

namespace Host

/-- The worker of a pid. -/
def worker (h : Host) (pid : ℕ) : Option Worker := h.state.system.workers[pid]?

/-- The worker with this pid is gone. -/
def gone (h : Host) (pid : ℕ) (code : WaitStatus) : Host :=
  { h with state := perform (.exit pid) h.state, status := Function.update h.status pid code }

/-- One step. A worker whose stream has ended returns from `run_worker_loop`, whether `receive`
reports the end or `send` fails, and exits with its function's return value. -/
inductive Step (h : Host) : List Move → Host → Prop
  | advance {pid : ℕ} {w : Worker} {toClose : List ℕ} (hw : h.worker pid = some w)
      (hs : w.status = .starting toClose) :
      Step h [.advance pid] { h with state := perform (.advance pid) h.state }
  | serve {pid n : ℕ} {w : Worker} (hw : h.worker pid = some w) (hs : w.status = .running)
      (hn : h.unread pid = n + 1) :
      Step h [.serve pid] { h with unread := Function.update h.unread pid n }
  | leave {pid : ℕ} {w : Worker} (hw : h.worker pid = some w) (hs : w.status = .running)
      (hend : EndOfStream h.state w.pair) : Step h [.leave pid] (h.gone pid (.exited 0))
  | kill {pid : ℕ} {w : Worker} (hw : h.worker pid = some w) (hs : w.status ≠ .exited) :
      Step h [.kill pid] (h.gone pid .signaled)
  | reap {pid : ℕ} {rest : List ℕ} {statuses : List WaitStatus} {w : Worker}
      (hj : h.join = .waiting (pid :: rest) statuses) (hw : h.worker pid = some w)
      (hs : w.status = .exited) (hr : pid ∉ h.reaped) :
      Step h [.join] { h with
        reaped := insert pid h.reaped, join := .waiting rest (statuses ++ [h.status pid]) }
  | noChild {pid : ℕ} {rest : List ℕ} {statuses : List WaitStatus}
      (hj : h.join = .waiting (pid :: rest) statuses) (hno : h.worker pid = none ∨ pid ∈ h.reaped) :
      Step h [.join] { h with join := .threw }
  | finish {statuses : List WaitStatus} (hj : h.join = .waiting [] statuses) :
      Step h [.join] { h with join := .returned statuses }

end Host

/-! ## What is left to do -/

/-- The steps a worker has still to take, at most. -/
def Worker.rank (unread : ℕ) (w : Worker) : ℕ :=
  match w.status with
  | .starting toClose => toClose.length + 2 + unread
  | .running => 1 + unread
  | .exited => 0

/-- The steps `join_all` has still to take, at most. -/
def Join.rank : Join → ℕ
  | waiting rest _ => rest.length + 1
  | _ => 0

namespace Host

variable {h h' : Host} {m : List Move} {pid : ℕ} {w : Worker} {out : List Move}

/-- The steps that are left to the worker of a pid. -/
def workerRank (h : Host) (pid : ℕ) : ℕ := (h.worker pid).elim 0 (Worker.rank (h.unread pid))

/-- All steps that are left, at most. -/
def rank (h : Host) : ℕ :=
  ∑ pid ∈ Finset.range h.state.system.workers.length, h.workerRank pid + h.join.rank

/-- What is left once `join_all` alone has moved. -/
theorem rank_join (h : Host) (reaped : Finset ℕ) (join : Join) :
    rank { h with reaped, join } =
      ∑ pid ∈ Finset.range h.state.system.workers.length, h.workerRank pid + join.rank := rfl

theorem lt_length (hw : h.worker pid = some w) : pid < h.state.system.workers.length :=
  (List.getElem?_eq_some_iff.1 hw).1

/-- A step of one worker. -/
theorem rank_lt (hlen : h'.state.system.workers.length = h.state.system.workers.length)
    (hjoin : h'.join = h.join) (hw : h.worker pid = some w)
    (hother : ∀ p, p ≠ pid → h'.workerRank p = h.workerRank p)
    (hlt : h'.workerRank pid < w.rank (h.unread pid)) : h'.rank < h.rank := by
  have hself : h.workerRank pid = w.rank (h.unread pid) := by rw [workerRank, hw, Option.elim_some]
  rw [rank, rank, hlen, hjoin]
  refine Nat.add_lt_add_right (Finset.sum_lt_sum (fun p _ => ?_) ⟨pid, ?_, ?_⟩) _
  · by_cases hp : p = pid
    · subst hp
      exact (hself ▸ hlt).le
    · exact (hother p hp).le
  · exact Finset.mem_range.2 (lt_length hw)
  · exact hself ▸ hlt

/-- The workers after one of them has changed. -/
theorem worker_modify (h : Host) (pid : ℕ) (f : Worker → Worker) (p : ℕ) :
    (h.state.system.workers.modify pid f)[p]? =
      if pid = p then (h.worker p).map f else h.worker p := by
  rw [List.getElem?_modify, worker]
  split_ifs with hp
  · simp
  · simp

theorem rank_gone (hw : h.worker pid = some w) (hs : w.status ≠ .exited) (code : WaitStatus) :
    (h.gone pid code).rank < h.rank := by
  refine rank_lt (List.length_modify ..) rfl hw (fun p hp => ?_) ?_
  · have hsame : (h.gone pid code).worker p = h.worker p :=
      (worker_modify h pid Worker.exit p).trans (if_neg (Ne.symm hp))
    rw [workerRank, workerRank, hsame]
    rfl
  · have hexit : (h.gone pid code).worker pid = some w.exit :=
      (worker_modify h pid Worker.exit pid).trans (by rw [if_pos rfl, hw]; rfl)
    rw [workerRank, hexit]
    change 0 < w.rank (h.unread pid)
    unfold Worker.rank
    split
    · omega
    · omega
    · contradiction

/-- **Every step uses up what is left to do.** -/
theorem rank_step (hst : Step h m h') : h'.rank + m.length ≤ h.rank := by
  cases hst with
  | @advance pid w toClose hw hs =>
    refine rank_lt (List.length_modify ..) rfl hw (fun p hp => ?_) ?_
    · have hsame := (worker_modify h pid Worker.advance p).trans
        (if_neg (Ne.symm hp))
      rw [workerRank, workerRank, worker]
      exact congrArg (fun o => Option.elim o 0 (Worker.rank (h.unread p))) hsame
    · have hnext := (worker_modify h pid Worker.advance pid).trans
        (if_pos rfl)
      rw [hw, Option.map_some] at hnext
      have hrank : workerRank { h with state := perform (.advance pid) h.state } pid =
          w.advance.rank (h.unread pid) := by
        rw [workerRank, worker]
        exact congrArg (fun o => Option.elim o 0 (Worker.rank (h.unread pid))) hnext
      rw [hrank, Worker.advance, Worker.rank, Worker.rank, hs]
      cases toClose with
      | nil =>
        dsimp only [List.length_nil]
        omega
      | cons fd toClose =>
        dsimp only [List.length_cons]
        omega
  | @serve pid n w hw hs hn =>
    refine rank_lt rfl rfl hw (fun p hp => ?_) ?_
    · rw [workerRank, workerRank]
      dsimp only
      rw [Function.update_of_ne hp]
      rfl
    · have hsame : worker { h with unread := Function.update h.unread pid n } pid = some w := hw
      rw [workerRank, hsame, Option.elim_some]
      dsimp only
      rw [Function.update_self, hn, Worker.rank, Worker.rank, hs]
      dsimp only
      omega
  | leave hw hs hend => exact rank_gone hw (by simp [hs]) _
  | kill hw hs => exact rank_gone hw hs _
  | reap hj hw hs hr =>
    rw [rank_join, rank, hj]
    dsimp only [Join.rank, List.length_cons, List.length_nil]
    omega
  | noChild hj hno =>
    rw [rank_join h h.reaped, rank, hj]
    dsimp only [Join.rank, List.length_cons, List.length_nil]
    omega
  | finish hj =>
    rw [rank_join h h.reaped, rank, hj]
    dsimp only [Join.rank, List.length_cons, List.length_nil]
    omega

/-! ## What a step leaves -/

/-- A worker after a step: as it was, one descriptor further in its start, or gone. -/
theorem worker_step (hst : Step h m h') (p : ℕ) :
    h'.worker p = h.worker p ∧ h'.status p = h.status p ∨
      ∃ w, h.worker p = some w ∧ w.status ≠ .exited ∧
        (h'.worker p = some w.advance ∧ w.advance.status ≠ .exited ∧ h'.status p = h.status p ∨
          h'.worker p = some w.exit ∧ (.kill p ∈ m ∨ h'.status p = .exited 0)) := by
  cases hst with
  | @advance pid w toClose hw hs =>
    by_cases hp : pid = p
    · subst hp
      refine .inr ⟨w, hw, by simp [hs], .inl ⟨?_, ?_, rfl⟩⟩
      · exact (worker_modify h pid Worker.advance pid).trans (by rw [if_pos rfl, hw]; rfl)
      · rw [Worker.advance, hs]
        cases toClose <;> simp
    · exact .inl ⟨(worker_modify h pid Worker.advance p).trans (if_neg hp), rfl⟩
  | serve | reap | noChild | finish => exact .inl ⟨rfl, rfl⟩
  | @leave pid w hw hs hend =>
    by_cases hp : pid = p
    · subst hp
      refine .inr ⟨w, hw, by simp [hs], .inr ⟨?_, .inr (Function.update_self ..)⟩⟩
      exact (worker_modify h pid Worker.exit pid).trans (by rw [if_pos rfl, hw]; rfl)
    · exact .inl ⟨(worker_modify h pid Worker.exit p).trans (if_neg hp),
        Function.update_of_ne (Ne.symm hp) ..⟩
  | @kill pid w hw hs =>
    by_cases hp : pid = p
    · subst hp
      refine .inr ⟨w, hw, hs, .inr ⟨?_, .inl List.mem_cons_self⟩⟩
      exact (worker_modify h pid Worker.exit pid).trans (by rw [if_pos rfl, hw]; rfl)
    · exact .inl ⟨(worker_modify h pid Worker.exit p).trans (if_neg hp),
        Function.update_of_ne (Ne.symm hp) ..⟩

/-- The worker of a pid has exited. -/
def Exited (h : Host) (pid : ℕ) : Prop := ∃ w, h.worker pid = some w ∧ w.status = .exited

/-- A worker that has exited stays as it is. -/
theorem Exited.step (hx : h.Exited pid) (hst : Step h m h') :
    h'.Exited pid ∧ h'.status pid = h.status pid := by
  obtain ⟨w, hw, hs⟩ := hx
  rcases worker_step hst pid with ⟨hsame, hstatus⟩ | ⟨w', hw', hs', -⟩
  · exact ⟨⟨w, hsame.trans hw, hs⟩, hstatus⟩
  · cases hw.symm.trans hw'
    exact absurd hs hs'

/-- A worker that exits in a step was killed, or returned. -/
theorem exited_of_step (hst : Step h m h') (hx : h'.Exited pid) :
    h.Exited pid ∧ h'.status pid = h.status pid ∨ .kill pid ∈ m ∨ h'.status pid = .exited 0 := by
  obtain ⟨w, hw, hs⟩ := hx
  rcases worker_step hst pid with ⟨hsame, hstatus⟩ | ⟨w', -, -, ⟨hadv, hne, -⟩ | ⟨-, hcode⟩⟩
  · exact .inl ⟨⟨w, hsame ▸ hw, hs⟩, hstatus⟩
  · cases hw.symm.trans hadv
    exact absurd hs hne
  · exact .inr hcode

/-- A step is an act of a worker, or of nobody. -/
theorem state_step (hst : Step h m h') : h'.state = h.state ∨
    ∃ a, h'.state = perform a h.state ∧
      h'.state.system.router = h.state.system.router ∧
      h'.state.system.workers.length = h.state.system.workers.length := by
  cases hst with
  | @advance pid w toClose hw hs => exact .inr ⟨.advance pid, rfl, rfl, List.length_modify ..⟩
  | @leave pid w hw hs hend => exact .inr ⟨.exit pid, rfl, rfl, List.length_modify ..⟩
  | @kill pid w hw hs => exact .inr ⟨.exit pid, rfl, rfl, List.length_modify ..⟩
  | serve | reap | noChild | finish => exact .inl rfl

/-! ## The invariant -/

/-- How far `join_all` has come with `pids`. -/
def Progress (h : Host) (pids : List ℕ) : Join → Prop
  | .waiting rest statuses => ∃ done, pids = done ++ rest ∧ h.reaped = done.toFinset ∧
      statuses = done.map h.status ∧ ∀ pid ∈ done, h.Exited pid
  | .returned statuses => statuses = pids.map h.status ∧ ∀ pid ∈ pids, h.Exited pid
  | .threw => False

/-- The router process has closed its ends; `join_all` waits for `pids`; a worker that has exited
had exited before, was killed, or returned. -/
structure Inv (h₀ : Host) (pids : List ℕ) (out : List Move) (h : Host) : Prop where
  router : RouterInv h.state
  held : HeldBelow h.state
  closed : ∀ pair, ¬ h.state.system.router.Holds (.socket ⟨pair, .router⟩)
  valid : ∀ pid ∈ pids, pid < h.state.system.workers.length
  progress : h.Progress pids h.join
  clean : ∀ pid, h.Exited pid → h₀.Exited pid ∨ .kill pid ∈ out ∨ h.status pid = .exited 0

theorem Progress.step {pids : List ℕ} (hp : h.Progress pids h.join) (hnd : pids.Nodup)
    (hvalid : ∀ pid ∈ pids, pid < h.state.system.workers.length) (hst : Step h m h') :
    h'.Progress pids h'.join := by
  -- `join_all` itself takes no step
  have hidle : h'.join = h.join → h'.reaped = h.reaped → h'.Progress pids h'.join := by
    intro hj hr
    rw [hj]
    cases hjoin : h.join with
    | waiting rest statuses =>
      rw [hjoin] at hp
      obtain ⟨done, hpids, hreaped, hstatuses, hall⟩ := hp
      refine ⟨done, hpids, hr.trans hreaped, ?_, fun pid hpid => ((hall pid hpid).step hst).1⟩
      rw [hstatuses]
      exact List.map_congr_left fun pid hpid => ((hall pid hpid).step hst).2.symm
    | returned statuses =>
      rw [hjoin] at hp
      obtain ⟨hstatuses, hall⟩ := hp
      refine ⟨?_, fun pid hpid => ((hall pid hpid).step hst).1⟩
      rw [hstatuses]
      exact List.map_congr_left fun pid hpid => ((hall pid hpid).step hst).2.symm
    | threw =>
      rw [hjoin] at hp
      exact hp
  cases hst with
  | advance hw hs => exact hidle rfl rfl
  | serve hw hs hn => exact hidle rfl rfl
  | leave hw hs hend => exact hidle rfl rfl
  | kill hw hs => exact hidle rfl rfl
  | @reap pid rest statuses w hj hw hs hr =>
    rw [hj] at hp
    obtain ⟨done, hpids, hreaped, hstatuses, hall⟩ := hp
    refine ⟨done ++ [pid], by simp [hpids], ?_, by simp [hstatuses], fun p hpmem => ?_⟩
    · rw [hreaped]
      ext x
      simp
    · rcases List.mem_append.1 hpmem with hdone | hlast
      · exact hall p hdone
      · obtain rfl := List.mem_singleton.1 hlast
        exact ⟨w, hw, hs⟩
  | @noChild pid rest statuses hj hno =>
    rw [hj] at hp
    obtain ⟨done, hpids, hreaped, -, -⟩ := hp
    rcases hno with hnone | hmem
    · have hlt := hvalid pid (by simp [hpids])
      rw [worker, List.getElem?_eq_none_iff] at hnone
      exact absurd hlt (Nat.not_lt.2 hnone)
    · rw [hreaped, List.mem_toFinset] at hmem
      rw [hpids, List.nodup_append] at hnd
      exact absurd rfl (hnd.2.2 pid hmem pid List.mem_cons_self)
  | finish hj =>
    rw [hj] at hp
    obtain ⟨done, hpids, -, hstatuses, hall⟩ := hp
    rw [List.append_nil] at hpids
    exact ⟨hpids ▸ hstatuses, hpids ▸ hall⟩

theorem Inv.step {h₀ : Host} {pids : List ℕ} (hi : Inv h₀ pids out h) (hnd : pids.Nodup)
    (hst : Step h m h') : Inv h₀ pids (out ++ m) h' := by
  have hprogress := hi.progress.step hnd hi.valid hst
  have hclean : ∀ pid, h'.Exited pid →
      h₀.Exited pid ∨ .kill pid ∈ out ++ m ∨ h'.status pid = .exited 0 := by
    intro pid hx
    rcases exited_of_step hst hx with ⟨hx, hstatus⟩ | hkill | hcode
    · rw [hstatus]
      exact (hi.clean pid hx).imp_right (Or.imp_left (List.mem_append_left m))
    · exact .inr (.inl (List.mem_append_right out hkill))
    · exact .inr (.inr hcode)
  rcases state_step hst with hsame | ⟨a, ha, hrouter, hlen⟩
  · exact ⟨hsame ▸ hi.router, hsame ▸ hi.held, hsame ▸ hi.closed, hsame ▸ hi.valid, hprogress,
      hclean⟩
  · refine ⟨ha ▸ hi.router.perform a, ha ▸ hi.held.perform hi.router a, ?_, ?_, hprogress, hclean⟩
    · rw [hrouter]
      exact hi.closed
    · rw [hlen]
      exact hi.valid

/-- **As long as `join_all` waits somebody has something to do.** -/
theorem Inv.exists_step {h₀ : Host} {pids : List ℕ} (hi : Inv h₀ pids out h)
    (hwait : ∀ statuses, h.join ≠ .returned statuses) : ∃ m h', Step h [m] h' := by
  have hprogress := hi.progress
  cases hj : h.join with
  | threw =>
    rw [hj] at hprogress
    exact hprogress.elim
  | returned statuses => exact absurd hj (hwait statuses)
  | waiting rest statuses =>
    cases rest with
    | nil => exact ⟨_, _, .finish hj⟩
    | cons pid rest =>
      rw [hj] at hprogress
      obtain ⟨done, hpids, -⟩ := hprogress
      have hlt := hi.valid pid (by simp [hpids])
      have hw : h.worker pid = some h.state.system.workers[pid] := List.getElem?_eq_getElem hlt
      by_cases hexited : h.state.system.workers[pid].status = .exited
      · by_cases hr : pid ∈ h.reaped
        · exact ⟨_, _, .noChild hj (.inr hr)⟩
        · exact ⟨_, _, .reap hj hw hexited hr⟩
      · by_cases hsettled : Settled h.state
        -- everybody runs or has exited: the youngest that runs can leave
        · have hrun := (hsettled _ (List.getElem_mem hlt)).resolve_right hexited
          let running := h.state.system.workers.toFinset.filter fun w => w.status = .running
          have hmem : h.state.system.workers[pid] ∈ running := by simp [running, hrun]
          obtain ⟨w, hwmem, hmax⟩ := running.exists_max_image Worker.pair ⟨_, hmem⟩
          obtain ⟨hwin, hwrun⟩ := Finset.mem_filter.1 hwmem
          obtain ⟨p, hp⟩ := List.mem_iff_getElem?.1 (List.mem_toFinset.1 hwin)
          have hend : EndOfStream h.state w.pair := by
            refine hi.held.endOfStream hsettled hi.closed fun w' hw' hrun' => hmax w' ?_
            exact Finset.mem_filter.2 ⟨List.mem_toFinset.2 hw', hrun'⟩
          exact ⟨_, _, .leave hp hwrun hend⟩
        · rw [Settled] at hsettled
          push Not at hsettled
          obtain ⟨w, hwin, hnotrun, hnotexited⟩ := hsettled
          obtain ⟨p, hp⟩ := List.mem_iff_getElem?.1 hwin
          cases hs : w.status with
          | starting toClose => exact ⟨_, _, .advance hp hs⟩
          | running => exact absurd hs hnotrun
          | exited => exact absurd hs hnotexited

end Host

/-- **`join_all` returns.** After any run of calls of `spawn_workers`, whether they returned or
threw, of starts and of ends of workers, once the router process has closed all its ends: waiting
for the workers of a call, some process can take a step until `join_all` has returned, all steps
together are no more than `rank`, `waitpid` never fails, and the statuses are those of the workers,
in the order of their pids; a worker that had not exited before and was not killed has exited with
`0`. -/
theorem join_all_returns {t : FdTable Description} (ht : NoSockets t) {st : State}
    (hrun : Acts (.init t) st)
    (hclosed : ∀ pair, ¬ st.system.router.Holds (.socket ⟨pair, .router⟩)) (c : ℕ)
    (unread : ℕ → ℕ) (status : ℕ → WaitStatus) {out : List Move} {h : Host}
    (htr : Trace Host.Step ⟨st, unread, status, ∅, .waiting (st.spawned c).childPids []⟩ out h) :
    out.length ≤ Host.rank ⟨st, unread, status, ∅, .waiting (st.spawned c).childPids []⟩ ∧
    h.join ≠ .threw ∧
    ((∀ statuses, h.join ≠ .returned statuses) → ∃ m h', Host.Step h [m] h') ∧
    ∀ statuses, h.join = .returned statuses → statuses = (st.spawned c).childPids.map h.status ∧
      ∀ pid ∈ (st.spawned c).childPids, h.Exited pid ∧
        ((∀ w, st.system.workers[pid]? = some w → w.status ≠ .exited) → .kill pid ∉ out →
          h.status pid = .exited 0) := by
  let h₀ : Host := ⟨st, unread, status, ∅, .waiting (st.spawned c).childPids []⟩
  have hrouter : RouterInv st :=
    invariant (routerInv_init ht) (fun _ _ hinv ⟨a, ha⟩ => ha ▸ hinv.perform a) hrun
  obtain ⟨hheld, hpids⟩ := heldBelow_of_acts ht hrun
  obtain ⟨hnd, hvalid⟩ := hpids c
  have h₀inv : Host.Inv h₀ (st.spawned c).childPids [] h₀ :=
    ⟨hrouter, hheld, hclosed, hvalid, ⟨[], rfl, rfl, rfl, List.forall_mem_nil _⟩,
      fun pid hx => .inl hx⟩
  have hall : Host.Inv h₀ (st.spawned c).childPids out h ∧ out.length + h.rank ≤ h₀.rank := by
    refine htr.invariant (P := fun out h => Host.Inv h₀ (st.spawned c).childPids out h ∧
      out.length + h.rank ≤ h₀.rank) ⟨h₀inv, by simp⟩ ?_
    rintro out h m h' ⟨hinv, hrank⟩ hst
    refine ⟨hinv.step hnd hst, ?_⟩
    have hless := Host.rank_step hst
    rw [List.length_append]
    omega
  obtain ⟨hinv, hrank⟩ := hall
  refine ⟨(Nat.le_add_right _ _).trans hrank, fun hthrew => ?_, hinv.exists_step,
    fun statuses hj => ?_⟩
  · have hprogress := hinv.progress
    rw [hthrew] at hprogress
    exact hprogress
  · have hprogress := hinv.progress
    rw [hj] at hprogress
    refine ⟨hprogress.1, fun pid hpid => ⟨hprogress.2 pid hpid, fun hbefore hnokill => ?_⟩⟩
    rcases hinv.clean pid (hprogress.2 pid hpid) with ⟨w, hw, hs⟩ | hkill | hcode
    · exact absurd hs (hbefore w hw)
    · exact absurd hkill hnokill
    · exact hcode

/-- Two calls, the second one while the transports of the first are open; then all transports are
destroyed. -/
def inheriting : State :=
  [.spawn noFaults [7, 8], .spawn noFaults [9], .destroy 0 7, .destroy 0 8, .destroy 1 9].foldl
    (fun st a => perform a st) (.init threeFiles)

/-- The worker of the second call starts and leaves, and closes the router ends it has inherited
from the first call; so the two workers of the first call leave, and `join_all` returns. -/
theorem join_all_returns_inherited :
    (∃ w fd, inheriting.system.workers[2]? = some w ∧
      w.atStart.get fd = some (.socket ⟨0, .router⟩)) ∧
    ∃ out h, Trace Host.Step ⟨inheriting, fun _ => 0, fun _ => .signaled, ∅,
        .waiting (inheriting.spawned 0).childPids []⟩ out h ∧
      h.join = .returned [.exited 0, .exited 0] ∧
      ∀ pid ∈ (inheriting.spawned 0).childPids, h.Exited pid := by
  refine ⟨⟨_, 3, rfl, rfl⟩, ?_⟩
  have hrun : Acts (.init threeFiles) inheriting :=
    ((((ReflTransGen.single ⟨.spawn noFaults [7, 8], rfl⟩).tail ⟨.spawn noFaults [9], rfl⟩).tail
      ⟨.destroy 0 7, rfl⟩).tail ⟨.destroy 0 8, rfl⟩).tail ⟨.destroy 1 9, rfl⟩
  have hclosed : ∀ pair, ¬ inheriting.system.router.Holds (.socket ⟨pair, .router⟩) := by
    rintro pair ⟨fd, hget⟩
    have hclean : NoSockets inheriting.system.router := by decide
    exact hclean fd _ hget
  have hstart : Trace Host.Step ⟨inheriting, fun _ => 0, fun _ => .signaled, ∅,
      .waiting (inheriting.spawned 0).childPids []⟩ _ _ :=
    (((((((((Trace.single (@Host.Step.advance _ 2 _ _ rfl rfl)).snoc
      (@Host.Step.advance _ 2 _ _ rfl rfl)).snoc
      (@Host.Step.advance _ 0 _ _ rfl rfl)).snoc
      (@Host.Step.advance _ 0 _ _ rfl rfl)).snoc
      (@Host.Step.advance _ 0 _ _ rfl rfl)).snoc
      (@Host.Step.advance _ 0 _ _ rfl rfl)).snoc
      (@Host.Step.advance _ 1 _ _ rfl rfl)).snoc
      (@Host.Step.advance _ 1 _ _ rfl rfl)).snoc
      (@Host.Step.advance _ 1 _ _ rfl rfl)).snoc
      (@Host.Step.advance _ 1 _ _ rfl rfl)
  have htr := (((((hstart.snoc
    (@Host.Step.leave _ 2 _ rfl rfl (by decide))).snoc
    (@Host.Step.leave _ 0 _ rfl rfl (by decide))).snoc
    (@Host.Step.leave _ 1 _ rfl rfl (by decide))).snoc
    (.reap rfl rfl rfl (by decide))).snoc
    (.reap rfl rfl rfl (by decide))).snoc (.finish rfl)
  have hall := join_all_returns (by decide) hrun hclosed 0 _ _ htr
  exact ⟨_, _, htr, rfl, fun pid hpid => ((hall.2.2.2 _ rfl).2 pid hpid).1⟩

end AetherMoE.Spawn
