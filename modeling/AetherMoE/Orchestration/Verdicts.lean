import AetherMoE.Orchestration.Batch

/-!
# What the tolerant path makes of its verdicts

`route_batch_tolerant` is a pass over the shards that comes to one verdict for each of them, and
writes what follows from it to the output. The two parts are taken apart here.

* `settled`, **`settle_eq`**: the loops over one shard's tokens and results, as writes to a board;
* `cell`, `getElem?_settled`: their effect on one position;
* `exec_consult`, `exec_consult_unhealthy`: how a verdict is come to;
* `survey`, **`exec_visitShards`**: the pass over the shards without the output;
* **`exec_routeBatchTolerant`**: a call returns once every shard has a verdict, and its result at a
  position is what the verdicts, in their order, put there.
-/

namespace AetherMoE

open ByteCodec Effect Grouping Scatter

namespace Router

variable {σ : Type}

section Settle

variable (r : Router) (leftover : UInt32 → UInt32) (tokens : List RoutedToken) (shard : UInt32)

/-- The failed result of a token. -/
def lost (reason : String) (t : RoutedToken) : RoutedResult :=
  failedResult leftover t (r.effectiveOf tokens t) reason

/-- A result with the effective expert of the token of `shard` it answers, if there is one. -/
def annotate (result : RoutedResult) : RoutedResult :=
  { result with
    effectiveExpert := (((r.groupOf tokens shard).find? fun t => t.place = result.place).map
      (r.effectiveOf tokens)).getD result.effectiveExpert }

/-- The output after a verdict. -/
def settled (v : Verdict) (board : Board) : Board :=
  match v with
  | .replied results =>
    fillAll RoutedToken.place (r.lost leftover tokens (v.reason shard)) (r.groupOf tokens shard)
      (fillAll RoutedResult.place (r.annotate tokens shard) results board)
  | _ =>
    overwriteAll RoutedToken.place (r.lost leftover tokens (v.reason shard))
      (r.groupOf tokens shard) board

/-- What a verdict makes of the content of the output at position `p`. -/
def cell (p : ℕ) (v : Verdict) (o : Option RoutedResult) : Option RoutedResult :=
  match v with
  | .replied results =>
    (o.or ((results.find? fun result => result.place = p).map (r.annotate tokens shard))).or
      (((r.groupOf tokens shard).find? fun t => t.place = p).map
        (r.lost leftover tokens (v.reason shard)))
  | _ => (((r.groupOf tokens shard).find? fun t => t.place = p).map
      (r.lost leftover tokens (v.reason shard))).or o

variable {r leftover tokens shard}

@[simp] theorem length_settled (v : Verdict) (board : Board) :
    (r.settled leftover tokens shard v board).length = board.length := by
  cases v <;> simp [settled]

theorem getElem?_settled (h : r.Routable tokens) (v : Verdict) (board : Board) (p : ℕ) :
    (r.settled leftover tokens shard v board)[p]? =
      board[p]?.map (r.cell leftover tokens shard p v) := by
  cases v with
  | replied results =>
    change (fillAll _ _ _ (fillAll _ _ _ _))[p]? = _
    rw [getElem?_fillAll, getElem?_fillAll, Option.map_map]
    rfl
  | unhealthy => exact getElem?_overwriteAll (h.nodup_group shard) board p
  | threw e => exact getElem?_overwriteAll (h.nodup_group shard) board p

/-- A loop over the indices of a shard that reads each token and its effective expert. -/
theorem foldlM_tokens (g : Board → RoutedToken → UInt32 → Option Board) (board : Board) :
    (indicesOf (tokens.map (r.shardOf tokens)) shard).foldlM (fun board i => do
      let t ← tokens[i]?
      let expert ← (tokens.map (r.effectiveOf tokens))[i]?
      g board t expert) board =
        (r.groupOf tokens shard).foldlM
          (fun board t => g board t (r.effectiveOf tokens t)) board := by
  refine foldlM_indicesOf tokens (r.shardOf tokens) shard _ ?_ board
  intro board i t ht
  rw [List.getElem?_map, ht]
  rfl

theorem put_eq {board : Board} {t : RoutedToken} (hlt : t.place < board.length)
    (result : RoutedResult) :
    put board t.batchPosition result = some (board.set t.place (some result)) := if_pos hlt

theorem failGroup_eq (reason : String) (board : Board)
    (hlt : ∀ t ∈ r.groupOf tokens shard, t.place < board.length) :
    failGroup leftover tokens (tokens.map (r.effectiveOf tokens)) reason
      (indicesOf (tokens.map (r.shardOf tokens)) shard) board =
        some (overwriteAll RoutedToken.place (r.lost leftover tokens reason)
          (r.groupOf tokens shard) board) := by
  rw [failGroup, foldlM_tokens]
  generalize r.groupOf tokens shard = group at hlt
  induction group generalizing board with
  | nil => rfl
  | cons t group ih =>
    rw [List.forall_mem_cons] at hlt
    rw [List.foldlM_cons, put_eq hlt.1, overwriteAll_cons]
    exact ih _ (by simpa using hlt.2)

theorem failMissing_eq (reason : String) (board : Board)
    (hlt : ∀ t ∈ r.groupOf tokens shard, t.place < board.length) :
    failMissing leftover tokens (tokens.map (r.effectiveOf tokens)) reason
      (indicesOf (tokens.map (r.shardOf tokens)) shard) board =
        some (fillAll RoutedToken.place (r.lost leftover tokens reason) (r.groupOf tokens shard)
          board) := by
  rw [failMissing, foldlM_tokens]
  generalize r.groupOf tokens shard = group at hlt
  induction group generalizing board with
  | nil => rfl
  | cons t group ih =>
    rw [List.forall_mem_cons] at hlt
    rw [List.foldlM_cons, fillAll_cons]
    obtain ⟨o, ho⟩ : ∃ o, board[t.place]? = some o := ⟨_, List.getElem?_eq_getElem hlt.1⟩
    have ho' : board[t.batchPosition.toNat]? = some o := ho
    cases o with
    | none =>
      rw [ho', if_pos ho]
      change (put _ _ _).bind _ = _
      rw [put_eq hlt.1]
      exact ih _ (by simpa using hlt.2)
    | some x =>
      rw [ho', if_neg (by simp [ho])]
      exact ih _ hlt.2

/-- With distinct positions, at most one token of the shard has a position. -/
theorem posToEffective_eq (h : r.Routable tokens) (position : UInt32) :
    posToEffective tokens (tokens.map (r.effectiveOf tokens))
      (indicesOf (tokens.map (r.shardOf tokens)) shard) position =
        ((r.groupOf tokens shard).find? fun t => t.place = position.toNat).map
          (r.effectiveOf tokens) := by
  have hloop : posToEffective tokens (tokens.map (r.effectiveOf tokens))
      (indicesOf (tokens.map (r.shardOf tokens)) shard) position =
        (r.groupOf tokens shard).foldl (fun found t =>
          if t.place = position.toNat then some (r.effectiveOf tokens t) else found) none := by
    rw [posToEffective, List.foldl_eq_foldlM, List.foldl_eq_foldlM]
    refine congrArg Id.run (foldlM_indicesOf tokens (r.shardOf tokens) shard _ ?_ none)
    intro found i t ht
    rw [List.getElem?_map, ht]
    simp [RoutedToken.place, UInt32.toNat_inj]
  have hfold : ∀ (group : List RoutedToken) (found : Option UInt32),
      (group.map RoutedToken.place).Nodup →
        group.foldl (fun found t =>
          if t.place = position.toNat then some (r.effectiveOf tokens t) else found) found =
        ((group.find? fun t => t.place = position.toNat).map (r.effectiveOf tokens)).or found := by
    intro group
    induction group with
    | nil => simp
    | cons t group ih =>
      intro found hnd
      rw [List.map_cons, List.nodup_cons] at hnd
      rw [List.foldl_cons, ih _ hnd.2]
      by_cases hp : t.place = position.toNat
      · rw [hp] at hnd
        rw [find?_eq_none_of_notMem hnd.1, if_pos hp, List.find?_cons_of_pos (by simpa using hp)]
        rfl
      · rw [if_neg hp, List.find?_cons_of_neg (by simpa using hp)]
  rw [hloop, hfold _ none (h.nodup_group shard), Option.or_none]

/-- **The loops over a shard's tokens and results** in terms of the board. -/
theorem settle_eq (h : r.Routable tokens) (v : Verdict) {board : Board}
    (hlen : board.length = tokens.length) :
    v.settle leftover tokens (tokens.map (r.effectiveOf tokens)) shard
      (indicesOf (tokens.map (r.shardOf tokens)) shard) board =
        some (r.settled leftover tokens shard v board) := by
  have hlt : ∀ t ∈ r.groupOf tokens shard, t.place < board.length := by
    intro t ht
    rw [hlen]
    exact h.place_lt (mem_groupOf.1 ht).1
  cases v with
  | replied results =>
    have haccept : acceptResults (posToEffective tokens (tokens.map (r.effectiveOf tokens))
        (indicesOf (tokens.map (r.shardOf tokens)) shard)) results board =
          fillAll RoutedResult.place (r.annotate tokens shard) results board := by
      simp only [acceptResults, posToEffective_eq h]
      rfl
    rw [Verdict.settle, haccept, failMissing_eq]
    · rfl
    · simpa using hlt
  | unhealthy => exact failGroup_eq _ board hlt
  | threw e => exact failGroup_eq _ board hlt

end Settle

/-! ## One verdict -/

section Consult

variable {net : Net σ} {r : Router} {shard : UInt32} {group : List RoutedToken}
  {u : Finset UInt32} {s s' : σ}

/-- The verdict on an exchange. -/
def Verdict.ofOutcome : Except Exn (List RoutedResult) → Verdict
  | .ok results => .replied results
  | .error e => .threw e

theorem exec_consult_unhealthy (hu : shard ∈ u) :
    exec (consult net r u shard group) s = some (.ok .unhealthy, s) := by
  rw [consult, if_pos hu]
  rfl

theorem exec_consult (hu : shard ∉ u) {out : Except Exn (List RoutedResult)}
    (h : exec (exchange net r shard group) s = some (out, s')) :
    exec (consult net r u shard group) s = some (.ok (.ofOutcome out), s') := by
  have hattempt : exec (attempt (exchange net r shard group)) s = some (.ok out, s') := by
    rw [exec_attempt, h, Option.map_some]
  rw [consult, if_neg hu, exec_bind_ok hattempt]
  cases out <;> rfl

theorem exec_exchange_of_not_hasTransport (ht : ¬ r.hasTransport shard) :
    exec (exchange net r shard group) s = some (.error (.noTransport shard), s) := by
  have htr : r.transportForShard shard = .error (.noTransport shard) := if_neg ht
  rw [exchange, htr]
  exact exec_bind_error (exec_liftExcept _ _)

end Consult

/-! ## The pass over the shards -/

section Survey

variable (net : Net σ) (r : Router) (leftover : UInt32 → UInt32) (tokens : List RoutedToken)

/-- The verdicts on the shards of `order`, one after the other. -/
def survey : List UInt32 → Comp Exn σ (List (UInt32 × Verdict))
  | [] => pure []
  | shard :: order => do
    let v ← consult net r r.unhealthyShards shard (r.groupOf tokens shard)
    let vs ← survey order
    return (shard, v) :: vs

/-- The shards known to be unhealthy after the verdicts. -/
def marked (vs : List (UInt32 × Verdict)) (unhealthy : Finset UInt32) : Finset UInt32 :=
  vs.foldl (fun unhealthy q => q.2.mark q.1 unhealthy) unhealthy

/-- What the verdicts put at position `p`. -/
def outcome (p : ℕ) (vs : List (UInt32 × Verdict)) (o : Option RoutedResult) :
    Option RoutedResult :=
  vs.foldl (fun o q => r.cell leftover tokens q.1 p q.2 o) o

/-- The results the verdicts lead to. -/
def gathered (vs : List (UInt32 × Verdict)) : List RoutedResult :=
  (List.range tokens.length).map fun p => (r.outcome leftover tokens p vs none).getD {}

variable {net r leftover tokens} {s s' : σ} {vs : List (UInt32 × Verdict)}

theorem exists_verdict {c : Choices} (hfst : vs.map Prod.fst = r.visitOrder tokens c)
    {t : RoutedToken} (ht : t ∈ tokens) : ∃ v, (r.shardOf tokens t, v) ∈ vs := by
  have hmem : r.shardOf tokens t ∈ vs.map Prod.fst := hfst ▸ mem_visitOrder.2 ⟨t, ht, rfl⟩
  obtain ⟨⟨x, v⟩, hq, hx⟩ := List.mem_map.1 hmem
  exact ⟨v, hx ▸ hq⟩

theorem consult_congr {u u' : Finset UInt32} {shard : UInt32} (h : shard ∈ u ↔ shard ∈ u')
    (group : List RoutedToken) : consult net r u shard group = consult net r u' shard group := by
  simp only [consult, h]

theorem mem_mark {v : Verdict} {shard x : UInt32} {u : Finset UInt32} :
    x ∈ v.mark shard u ↔ x ∈ u ∨ x = shard ∧ ∃ e, v = .threw e := by
  cases v <;> simp [Verdict.mark, or_comm]

/-- The shards a call marks are those whose exchange threw. -/
theorem mem_marked {x : UInt32} {u : Finset UInt32} :
    x ∈ marked vs u ↔ x ∈ u ∨ ∃ e, (x, Verdict.threw e) ∈ vs := by
  induction vs generalizing u with
  | nil => simp [marked]
  | cons q vs ih =>
    refine ih.trans ?_
    obtain ⟨y, v⟩ := q
    simp only [mem_mark, List.mem_cons, Prod.mk.injEq, or_assoc]
    refine or_congr_right ?_
    constructor
    · rintro (⟨rfl, e, rfl⟩ | ⟨e, he⟩)
      · exact ⟨e, .inl ⟨rfl, rfl⟩⟩
      · exact ⟨e, .inr he⟩
    · rintro ⟨e, ⟨rfl, rfl⟩ | he⟩
      · exact .inl ⟨rfl, e, rfl⟩
      · exact .inr ⟨e, he⟩

theorem survey_fst {order : List UInt32}
    (h : exec (survey net r tokens order) s = some (.ok vs, s')) : vs.map Prod.fst = order := by
  induction order generalizing s s' vs with
  | nil =>
    simp only [survey, exec_pure, Option.some.injEq, Prod.mk.injEq, Except.ok.injEq] at h
    simp [← h.1]
  | cons shard order ih =>
    obtain ⟨v, s₁, -, h⟩ := exec_bind_eq_ok.1 h
    obtain ⟨ws, s₂, hws, h⟩ := exec_bind_eq_ok.1 h
    simp only [exec_pure, Option.some.injEq, Prod.mk.injEq, Except.ok.injEq] at h
    rw [← h.1, List.map_cons, ih hws]

/-- **The loop over the shards** is the pass for the verdicts, and then the writes. -/
theorem exec_visitShards (leftover : UInt32 → UInt32) (h : r.Routable tokens)
    {order : List UInt32} (hnd : order.Nodup) {u : Finset UInt32}
    (hu : ∀ x ∈ order, x ∈ u ↔ x ∈ r.unhealthyShards) {board : Board}
    (hlen : board.length = tokens.length)
    (hs : exec (survey net r tokens order) s = some (.ok vs, s')) :
    exec (visitShards net r leftover tokens (tokens.map (r.effectiveOf tokens))
      (tokens.map (r.shardOf tokens)) order u board) s =
        some (.ok (marked vs u,
          vs.foldl (fun board q => r.settled leftover tokens q.1 q.2 board) board), s') := by
  induction order generalizing s vs u board with
  | nil =>
    simp only [survey, exec_pure, Option.some.injEq, Prod.mk.injEq, Except.ok.injEq] at hs
    obtain ⟨rfl, rfl⟩ := hs
    rfl
  | cons shard order ih =>
    rw [List.nodup_cons] at hnd
    rw [List.forall_mem_cons] at hu
    obtain ⟨v, s₁, hv, hs⟩ := exec_bind_eq_ok.1 hs
    obtain ⟨ws, s₂, hws, hs⟩ := exec_bind_eq_ok.1 hs
    simp only [exec_pure, Option.some.injEq, Prod.mk.injEq, Except.ok.injEq] at hs
    obtain ⟨rfl, rfl⟩ := hs
    -- a mark on this shard does not concern the shards still to come
    have hu' : ∀ x ∈ order, x ∈ v.mark shard u ↔ x ∈ r.unhealthyShards := by
      intro x hx
      have hne : x ≠ shard := fun heq => hnd.1 (heq ▸ hx)
      rw [mem_mark, hu.2 x hx]
      simp [hne]
    rw [← consult_congr hu.1] at hv
    rw [visitShards, groupFor_eq, exec_bind_ok hv, settle_eq h v hlen]
    exact ih hnd.2 hu' (by rw [length_settled, hlen]) hws

theorem getElem?_foldl_settled (h : r.Routable tokens) (vs : List (UInt32 × Verdict))
    (board : Board) (p : ℕ) :
    (vs.foldl (fun board q => r.settled leftover tokens q.1 q.2 board) board)[p]? =
      board[p]?.map (r.outcome leftover tokens p vs) := by
  induction vs generalizing board with
  | nil => exact Option.map_id'.symm
  | cons q vs ih =>
    rw [List.foldl_cons, ih, getElem?_settled h, Option.map_map]
    rfl

/-- **A tolerant call** returns what its verdicts lead to. -/
theorem exec_routeBatchTolerant (h : r.Routable tokens) {c : Choices}
    (hs : exec (survey net r tokens (r.visitOrder tokens c)) s = some (.ok vs, s')) :
    exec (routeBatchTolerant net r c tokens) s = some (.ok (r.gathered c.leftover tokens vs,
      { r with unhealthyShards := marked vs r.unhealthyShards }), s') := by
  have hvisit := exec_visitShards c.leftover h (nodup_visitOrder c) (fun _ _ => Iff.rfl)
    (List.length_replicate (n := tokens.length) (a := (none : Option RoutedResult))) hs
  have hboard : (vs.foldl (fun board q => r.settled c.leftover tokens q.1 q.2 board)
      (List.replicate tokens.length none)).map (fun result => result.getD {}) =
        r.gathered c.leftover tokens vs := by
    refine List.ext_getElem? fun p => ?_
    rw [List.getElem?_map, getElem?_foldl_settled h, gathered, List.getElem?_map,
      List.getElem?_replicate]
    by_cases hp : p < tokens.length
    · rw [if_pos hp, List.getElem?_range hp]
      rfl
    · rw [if_neg hp, List.getElem?_eq_none (by simpa using hp)]
      rfl
  rw [routeBatchTolerant, h.shardsOf_eq c, assignEffectiveExperts_eq r c h.nodup_batchPosition,
    exec_bind_ok (exec_liftExcept _ _)]
  refine (exec_bind_ok hvisit).trans ?_
  rw [exec_pure, hboard]

end Survey

/-! ## The result of one token -/

section Token

variable {r : Router} {leftover : UInt32 → UInt32} {tokens : List RoutedToken} {t : RoutedToken}

/-- What a verdict says about a position, whether or not it is the shard's to answer. -/
def said (r : Router) (tokens : List RoutedToken) (shard : UInt32) (p : ℕ) :
    Verdict → Option RoutedResult
  | .replied results =>
    (results.find? fun result => result.place = p).map (r.annotate tokens shard)
  | _ => none

/-- The result of a token of `shard`, if `o` stood at its position before the shard's turn. -/
def answer (r : Router) (leftover : UInt32 → UInt32) (tokens : List RoutedToken) (shard : UInt32)
    (t : RoutedToken) (v : Verdict) (o : Option RoutedResult) : RoutedResult :=
  match v with
  | .replied _ =>
    (o.or (r.said tokens shard t.place v)).getD (r.lost leftover tokens (v.reason shard) t)
  | _ => r.lost leftover tokens (v.reason shard) t

/-- What the code has written of a result: a failed one has no shard. -/
def written (result : RoutedResult) : RoutedResult :=
  if result.failed then { result with processedByShard := 0 } else result

/-- **The value that is not set is all that differs.** -/
theorem written_answer (leftover' : UInt32 → UInt32) (shard : UInt32) (t : RoutedToken)
    (v : Verdict) (o : Option RoutedResult) :
    written (r.answer leftover tokens shard t v o) =
      written (r.answer leftover' tokens shard t v o) := by
  cases v with
  | replied results =>
    rw [answer, answer]
    cases o.or (r.said tokens shard t.place (.replied results)) with
    | none => rfl
    | some result => rfl
  | unhealthy => rfl
  | threw e => rfl

theorem cell_own (h : r.Routable tokens) (ht : t ∈ tokens) (v : Verdict)
    (o : Option RoutedResult) :
    r.cell leftover tokens (r.shardOf tokens t) t.place v o =
      some (r.answer leftover tokens (r.shardOf tokens t) t v o) := by
  cases v with
  | replied results =>
    simp only [cell, answer, said, h.find?_groupOf ht, Option.map_some]
    cases o.or _ <;> rfl
  | unhealthy => simp only [cell, answer, h.find?_groupOf ht, Option.map_some, Option.some_or]
  | threw e => simp only [cell, answer, h.find?_groupOf ht, Option.map_some, Option.some_or]

theorem cell_other (h : r.Routable tokens) (ht : t ∈ tokens) {shard : UInt32}
    (hne : r.shardOf tokens t ≠ shard) (v : Verdict) (o : Option RoutedResult) :
    r.cell leftover tokens shard t.place v o = o.or (r.said tokens shard t.place v) := by
  cases v <;> simp [cell, said, h.find?_groupOf_of_ne ht hne]

/-- Before a token's shard has its turn, the first to claim the position has it. -/
theorem outcome_others (h : r.Routable tokens) (ht : t ∈ tokens)
    {vs : List (UInt32 × Verdict)} (hne : r.shardOf tokens t ∉ vs.map Prod.fst)
    (o : Option RoutedResult) :
    r.outcome leftover tokens t.place vs o =
      o.or (vs.findSome? fun q => r.said tokens q.1 t.place q.2) := by
  induction vs generalizing o with
  | nil => simp [outcome]
  | cons q vs ih =>
    rw [List.map_cons, List.mem_cons, not_or] at hne
    rw [outcome, List.foldl_cons, cell_other h ht hne.1]
    refine (ih hne.2 _).trans ?_
    rw [Option.or_assoc, List.findSome?_cons]
    cases r.said tokens q.1 t.place q.2 <;> rfl

/-- **The result of a token** is its own shard's, unless an earlier shard claimed the position. -/
theorem outcome_token (h : r.Routable tokens) (ht : t ∈ tokens)
    {pre post : List (UInt32 × Verdict)} {v : Verdict}
    (hnd : ((pre ++ (r.shardOf tokens t, v) :: post).map Prod.fst).Nodup) :
    r.outcome leftover tokens t.place (pre ++ (r.shardOf tokens t, v) :: post) none =
      some (r.answer leftover tokens (r.shardOf tokens t) t v
        (pre.findSome? fun q => r.said tokens q.1 t.place q.2)) := by
  rw [List.map_append, List.map_cons, List.nodup_append, List.nodup_cons] at hnd
  have hpre : r.shardOf tokens t ∉ pre.map Prod.fst :=
    fun hmem => hnd.2.2 _ hmem _ List.mem_cons_self rfl
  have hfold : r.outcome leftover tokens t.place (pre ++ (r.shardOf tokens t, v) :: post) none =
      r.outcome leftover tokens t.place post (r.cell leftover tokens (r.shardOf tokens t) t.place v
        (r.outcome leftover tokens t.place pre none)) := by
    simp only [outcome, List.foldl_append, List.foldl_cons]
  rw [hfold, outcome_others h ht hpre, cell_own h ht, outcome_others h ht hnd.2.1.1,
    Option.none_or, Option.some_or]

theorem getElem?_gathered (h : r.Routable tokens) (ht : t ∈ tokens)
    {pre post : List (UInt32 × Verdict)} {v : Verdict}
    (hnd : ((pre ++ (r.shardOf tokens t, v) :: post).map Prod.fst).Nodup) :
    (r.gathered leftover tokens (pre ++ (r.shardOf tokens t, v) :: post))[t.place]? =
      some (r.answer leftover tokens (r.shardOf tokens t) t v
        (pre.findSome? fun q => r.said tokens q.1 t.place q.2)) := by
  rw [gathered, List.getElem?_map, List.getElem?_range (h.place_lt ht), Option.map_some,
    outcome_token h ht hnd, Option.getD_some]

end Token

end Router

end AetherMoE
