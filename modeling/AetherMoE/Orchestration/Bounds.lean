import AetherMoE.Orchestration.Unroutable

/-!
# Positions outside of the batch

`route_batch_tolerant` indexes its output by the position a token claims to have. Nothing here
assumes that the positions are distinct or within the batch.

* `servedBy`, `settle_eq_foldlM`: the writes for one shard, over its tokens;
* `settle_eq_none`, `settle_grows`: they go out of bounds exactly if one of its tokens is, and
  otherwise fill the cells of all;
* `OutOfBounds`, `Unwritten`: what can go wrong in a call;
* **`in_bounds_iff`**: under every behaviour of the transports nothing does exactly if the positions
  are `0..n-1` in some order.
-/

namespace AetherMoE

open ByteCodec Effect Grouping Scatter

namespace Router

variable {σ : Type}

/-! ## One shard -/

section Settle

variable {r : Router} {leftover : UInt32 → UInt32} {tokens : List RoutedToken}
  {effective : List UInt32}

/-- The shard of an expert. -/
def shardAt (r : Router) (expert : UInt32) : UInt32 := (r.expertToShard expert).getD 0

/-- The tokens of a shard, with their effective experts. -/
def servedBy (r : Router) (tokens : List RoutedToken) (effective : List UInt32) (shard : UInt32) :
    List (RoutedToken × UInt32) :=
  (tokens.zip effective).filter fun q => r.shardAt q.2 = shard

/-- A loop over the indices of a shard that reads each token and its effective expert. -/
theorem foldlM_servedBy (hlen : effective.length = tokens.length)
    (g : Board → RoutedToken → UInt32 → Option Board) (shard : UInt32) (board : Board) :
    (indicesOf (effective.map r.shardAt) shard).foldlM (fun board i => do
      let t ← tokens[i]?
      let expert ← effective[i]?
      g board t expert) board =
        (r.servedBy tokens effective shard).foldlM (fun board q => g board q.1 q.2) board := by
  have hkeys : effective.map r.shardAt = (tokens.zip effective).map fun q => r.shardAt q.2 := by
    conv_lhs => rw [← List.map_snd_zip hlen.le]
    rw [List.map_map]
    rfl
  rw [hkeys]
  refine foldlM_indicesOf _ _ shard _ ?_ board
  intro board i q hq
  obtain ⟨ht, he⟩ := List.getElem?_zip_eq_some.1 hq
  rw [ht, he]
  rfl

theorem fillsCell_put (result : RoutedToken × UInt32 → RoutedResult) :
    FillsCell (fun q : RoutedToken × UInt32 => q.1.place)
      (fun board q => put board q.1.batchPosition (result q)) where
  within _ _ hq := ⟨_, if_pos hq, fills_set hq _⟩
  outside _ _ hq := if_neg (Nat.not_lt.2 hq)

theorem fillsCell_failMissing (result : RoutedToken × UInt32 → RoutedResult) :
    FillsCell (fun q : RoutedToken × UInt32 => q.1.place) (fun board q =>
      match board[q.1.batchPosition.toNat]? with
      | none => none
      | some (some _) => some board
      | some none => put board q.1.batchPosition (result q)) where
  within board q hq := by
    have hcell : board[q.1.batchPosition.toNat]? = some board[q.1.place] :=
      List.getElem?_eq_getElem hq
    cases ho : board[q.1.place] with
    | none =>
      rw [hcell, ho]
      exact ⟨_, if_pos hq, fills_set hq _⟩
    | some x =>
      rw [ho] at hcell
      refine ⟨board, by rw [hcell], rfl, fun p hp => ?_, fun _ _ => rfl⟩
      rw [List.mem_singleton.1 hp]
      exact ⟨x, hcell⟩
  outside board q hq := by
    have hcell : board[q.1.batchPosition.toNat]? = none := List.getElem?_eq_none hq
    rw [hcell]

theorem grows_acceptResults (expertAt : UInt32 → Option UInt32) (results : List RoutedResult)
    (board : Board) : Grows board (acceptResults expertAt results board) := by
  induction results generalizing board with
  | nil => exact .refl board
  | cons result results ih =>
    refine Grows.trans ?_ (ih _)
    beta_reduce
    split
    · next hfree =>
      exact (fills_set (List.getElem?_eq_some_iff.1 hfree).1 _).grows
    · exact .refl board

/-- The writes that follow from a verdict: one for each token of the shard, after those for the
replies. -/
theorem settle_eq_foldlM (hlen : effective.length = tokens.length) (shard : UInt32) (v : Verdict)
    (board : Board) : ∃ mid step, Grows board mid ∧ ((∀ rs, v ≠ .replied rs) → mid = board) ∧
      FillsCell (fun q : RoutedToken × UInt32 => q.1.place) step ∧
      v.settle leftover tokens effective shard (indicesOf (effective.map r.shardAt) shard) board =
        (r.servedBy tokens effective shard).foldlM step mid := by
  cases v with
  | replied results =>
    exact ⟨_, _, grows_acceptResults _ results board, fun h => absurd rfl (h results),
      fillsCell_failMissing _, foldlM_servedBy hlen _ shard _⟩
  | unhealthy =>
    exact ⟨board, _, .refl board, fun _ => rfl, fillsCell_put _, foldlM_servedBy hlen _ shard _⟩
  | threw e =>
    exact ⟨board, _, .refl board, fun _ => rfl, fillsCell_put _, foldlM_servedBy hlen _ shard _⟩

/-- **Out of bounds.** Whatever the verdict, a write or a read for a token of the shard is out of
range exactly if the token's position is. -/
theorem settle_eq_none (hlen : effective.length = tokens.length) (shard : UInt32) (v : Verdict)
    (board : Board) :
    v.settle leftover tokens effective shard (indicesOf (effective.map r.shardAt) shard) board =
        none ↔
      ∃ q ∈ r.servedBy tokens effective shard, board.length ≤ q.1.place := by
  obtain ⟨mid, step, hgrows, -, hstep, hsettle⟩ := settle_eq_foldlM (r := r) hlen shard v board
  rw [hsettle, hstep.foldlM_eq_none, hgrows.length]

/-- Otherwise the cells of the shard's tokens are filled, and what was filled still is. -/
theorem settle_grows (hlen : effective.length = tokens.length) {shard : UInt32} {v : Verdict}
    {board board' : Board} (h : v.settle leftover tokens effective shard
      (indicesOf (effective.map r.shardAt) shard) board = some board') :
    Grows board board' ∧
      ∀ q ∈ r.servedBy tokens effective shard, ∃ x, board'[q.1.place]? = some (some x) := by
  obtain ⟨mid, step, hgrows, -, hstep, hsettle⟩ := settle_eq_foldlM (r := r) hlen shard v board
  rw [hsettle] at h
  have hfills := hstep.fills h
  exact ⟨hgrows.trans hfills.grows, fun q hq => hfills.filled _ (List.mem_map_of_mem hq)⟩

/-- Without replies the other cells stay as they are. -/
theorem settle_others (hlen : effective.length = tokens.length) {shard : UInt32} {v : Verdict}
    (hv : ∀ rs, v ≠ .replied rs) {board board' : Board}
    (h : v.settle leftover tokens effective shard
      (indicesOf (effective.map r.shardAt) shard) board = some board') {p : ℕ}
    (hp : ∀ q ∈ r.servedBy tokens effective shard, q.1.place ≠ p) : board'[p]? = board[p]? := by
  obtain ⟨mid, step, -, hmid, hstep, hsettle⟩ := settle_eq_foldlM (r := r) hlen shard v board
  rw [hsettle, hmid hv] at h
  refine (hstep.fills h).others p fun hmem => ?_
  obtain ⟨q, hq, heq⟩ := List.mem_map.1 hmem
  exact hp q hq heq

end Settle

/-! ## The loop over the shards -/

section Visit

variable {net : Net σ} {r : Router} {leftover : UInt32 → UInt32} {tokens : List RoutedToken}
  {effective order : List UInt32} {u u' : Finset UInt32} {board board' : Board} {s s' : σ}

/-- The loop over `order`, with the shards the effective experts have. -/
theorem visitShards_cons (shard : UInt32) :
    exec (visitShards net r leftover tokens effective (effective.map r.shardAt) (shard :: order) u
        board) s =
      exec (do
        let v ← consult net r u shard (groupFor tokens (effective.map r.shardAt) shard)
        let board ← v.settle leftover tokens effective shard
          (indicesOf (effective.map r.shardAt) shard) board
        visitShards net r leftover tokens effective (effective.map r.shardAt) order
          (v.mark shard u) board) s := rfl

/-- **Every shard visited leaves the cells of its tokens filled.** -/
theorem visitShards_grows (hlen : effective.length = tokens.length)
    (h : exec (visitShards net r leftover tokens effective (effective.map r.shardAt) order u
      board) s = some (.ok (u', board'), s')) :
    Grows board board' ∧ ∀ shard ∈ order, ∀ q ∈ r.servedBy tokens effective shard,
      ∃ x, board'[q.1.place]? = some (some x) := by
  induction order generalizing u board s with
  | nil =>
    simp only [visitShards, exec_pure, Option.some.injEq, Prod.mk.injEq, Except.ok.injEq] at h
    rw [← h.1.2]
    exact ⟨.refl board, List.forall_mem_nil _⟩
  | cons shard order ih =>
    obtain ⟨v, s₁, -, h⟩ := exec_bind_eq_ok.1 h
    obtain ⟨mid, s₂, hsettle, h⟩ := exec_bind_eq_ok.1 h
    rw [exec_liftOption, Option.map_eq_some_iff] at hsettle
    obtain ⟨mid', hmid, heq⟩ := hsettle
    obtain ⟨rfl, -⟩ : mid' = mid ∧ s₁ = s₂ := by simpa using heq
    obtain ⟨hgrows, hown⟩ := settle_grows hlen hmid
    obtain ⟨hrest, hothers⟩ := ih h
    refine ⟨hgrows.trans hrest, List.forall_mem_cons.2 ⟨fun q hq => ?_, hothers⟩⟩
    obtain ⟨x, hx⟩ := hown q hq
    exact hrest.kept _ x hx

/-- Over a network that never blocks, the loop comes to its end if no position is out of range. -/
theorem exec_visitShards_of_prompt (hnet : Prompt net) (hlen : effective.length = tokens.length)
    (hin : ∀ shard ∈ order, ∀ q ∈ r.servedBy tokens effective shard, q.1.place < board.length)
    (u : Finset UInt32) (s : σ) : ∃ u' board' s', exec (visitShards net r leftover tokens effective
      (effective.map r.shardAt) order u board) s = some (.ok (u', board'), s') := by
  induction order generalizing u board s with
  | nil => exact ⟨u, board, s, rfl⟩
  | cons shard order ih =>
    rw [List.forall_mem_cons] at hin
    obtain ⟨v, s₁, hv⟩ := exec_consult_of_prompt hnet r u shard
      (groupFor tokens (effective.map r.shardAt) shard) s
    have hne : v.settle leftover tokens effective shard
        (indicesOf (effective.map r.shardAt) shard) board ≠ none := by
      rw [ne_eq, settle_eq_none hlen]
      rintro ⟨q, hq, hge⟩
      exact absurd (hin.1 q hq) (Nat.not_lt.2 hge)
    obtain ⟨mid, hmid⟩ := Option.ne_none_iff_exists'.1 hne
    have hgrows := (settle_grows hlen hmid).1
    rw [← hgrows.length] at hin
    obtain ⟨u', board', s', hrest⟩ := ih hin.2 (v.mark shard u) s₁
    refine ⟨u', board', s', ?_⟩
    rw [visitShards_cons, exec_bind_ok hv, hmid]
    exact hrest

end Visit

/-! ## A call -/

/-- The call comes to a shard, has its verdict, and then indexes its output out of range. -/
def OutOfBounds (net : Net σ) (r : Router) (c : Choices) (tokens : List RoutedToken) (s : σ) :
    Prop :=
  ∃ shards pre shard post u board s₁ v s₂,
    r.shardsOf (r.assignEffectiveExperts c tokens) = .ok shards ∧
    c.shardOrder shards.dedup = pre ++ shard :: post ∧
    exec (visitShards net r c.leftover tokens (r.assignEffectiveExperts c tokens) shards pre
      r.unhealthyShards (List.replicate tokens.length none)) s = some (.ok (u, board), s₁) ∧
    exec (consult net r u shard (groupFor tokens shards shard)) s₁ = some (.ok v, s₂) ∧
    v.settle c.leftover tokens (r.assignEffectiveExperts c tokens) shard (indicesOf shards shard)
      board = none

/-- The call returns normally, with an entry that no path has written. -/
def Unwritten (net : Net σ) (r : Router) (c : Choices) (tokens : List RoutedToken) (s : σ) :
    Prop :=
  ∃ shards u board s' results r',
    r.shardsOf (r.assignEffectiveExperts c tokens) = .ok shards ∧
    exec (visitShards net r c.leftover tokens (r.assignEffectiveExperts c tokens) shards
      (c.shardOrder shards.dedup) r.unhealthyShards (List.replicate tokens.length none)) s =
        some (.ok (u, board), s') ∧
    exec (routeBatchTolerant net r c tokens) s = some (.ok (results, r'), s') ∧ none ∈ board

section Calls

variable {net : Net σ} {r : Router} {c : Choices} {tokens : List RoutedToken}
  {effective : List UInt32} {s : σ}

theorem shardsOf_of_mapped (h : ∀ e ∈ effective, (r.expertToShard e).isSome) :
    r.shardsOf effective = .ok (effective.map r.shardAt) := by
  induction effective with
  | nil => rfl
  | cons e effective ih =>
    rw [List.forall_mem_cons] at h
    obtain ⟨shard, hshard⟩ := Option.isSome_iff_exists.1 h.1
    have he : r.shardForExpert e = .ok (r.shardAt e) := by
      rw [shardForExpert, shardAt, hshard]
      rfl
    rw [shardsOf, List.mapM_cons, he, show effective.mapM r.shardForExpert = _ from ih h.2]
    rfl

theorem shardsOf_assignEffectiveExperts (c : Choices)
    (hmapped : ∀ t ∈ tokens, (r.expertToShard t.primaryExpert).isSome ∧
      (r.expertToShard t.secondaryExpert).isSome) :
    r.shardsOf (r.assignEffectiveExperts c tokens) =
      .ok ((r.assignEffectiveExperts c tokens).map r.shardAt) := by
  apply shardsOf_of_mapped
  intro e he
  obtain ⟨i, hi⟩ := List.mem_iff_getElem?.1 he
  have hlt : i < tokens.length := by
    rw [← length_assignEffectiveExperts r c tokens]
    exact (List.getElem?_eq_some_iff.1 hi).1
  have ht := hmapped _ (List.getElem_mem hlt)
  rcases getElem?_assignEffectiveExperts_mem r c (List.getElem?_eq_getElem hlt) with h | h
  · rw [← Option.some.inj (hi.symm.trans h)] at ht
    exact ht.1
  · rw [← Option.some.inj (hi.symm.trans h)] at ht
    exact ht.2

theorem mem_of_mem_servedBy {shard : UInt32} {q : RoutedToken × UInt32}
    (h : q ∈ r.servedBy tokens effective shard) : q.1 ∈ tokens :=
  (List.of_mem_zip (List.mem_of_mem_filter h)).1

/-- Every token is served by a shard of the batch. -/
theorem exists_servedBy (hlen : effective.length = tokens.length) {t : RoutedToken}
    (ht : t ∈ tokens) : ∃ shard ∈ c.shardOrder (effective.map r.shardAt).dedup,
      ∃ q ∈ r.servedBy tokens effective shard, q.1 = t := by
  obtain ⟨i, hi, rfl⟩ := List.mem_iff_getElem.1 ht
  have he : i < effective.length := hlen ▸ hi
  refine ⟨r.shardAt effective[i], ?_, (tokens[i], effective[i]), ?_, rfl⟩
  · rw [(c.shardOrder_perm _).mem_iff, List.mem_dedup]
    exact List.mem_map_of_mem (List.getElem_mem he)
  · have hzip : (tokens.zip effective)[i]? = some (tokens[i], effective[i]) :=
      List.getElem?_zip_eq_some.2 ⟨List.getElem?_eq_getElem hi, List.getElem?_eq_getElem he⟩
    exact List.mem_filter.2 ⟨List.mem_of_getElem? hzip, by simp⟩

/-- What the loop over all the shards leaves is what the call returns. -/
theorem exec_routeBatchTolerant_of_visit {shards : List UInt32} {u : Finset UInt32}
    {board : Board} {s' : σ}
    (hshards : r.shardsOf (r.assignEffectiveExperts c tokens) = .ok shards)
    (hvisit : exec (visitShards net r c.leftover tokens (r.assignEffectiveExperts c tokens) shards
      (c.shardOrder shards.dedup) r.unhealthyShards (List.replicate tokens.length none)) s =
        some (.ok (u, board), s')) :
    exec (routeBatchTolerant net r c tokens) s =
      some (.ok (board.map fun result => result.getD {}, { r with unhealthyShards := u }), s') := by
  rw [routeBatchTolerant, hshards, exec_bind_ok (exec_liftExcept _ _)]
  exact exec_bind_ok hvisit

variable (hmapped : ∀ t ∈ tokens, (r.expertToShard t.primaryExpert).isSome ∧
  (r.expertToShard t.secondaryExpert).isSome)
include hmapped

/-- Only a position out of range takes an index out of range. -/
theorem exists_place_of_outOfBounds (h : OutOfBounds net r c tokens s) :
    ∃ t ∈ tokens, tokens.length ≤ t.place := by
  obtain ⟨shards, pre, shard, post, u, board, s₁, v, s₂, hshards, -, hvisit, -, hsettle⟩ := h
  rw [shardsOf_assignEffectiveExperts c hmapped, Except.ok.injEq] at hshards
  subst hshards
  have hlen := length_assignEffectiveExperts r c tokens
  obtain ⟨q, hq, hge⟩ := (settle_eq_none hlen shard v board).1 hsettle
  rw [(visitShards_grows hlen hvisit).1.length, List.length_replicate] at hge
  exact ⟨q.1, mem_of_mem_servedBy hq, hge⟩

/-- With positions `0..n-1` in some order, no entry stays unwritten. -/
theorem not_unwritten_of_perm
    (hpos : (tokens.map RoutedToken.place).Perm (List.range tokens.length)) :
    ¬ Unwritten net r c tokens s := by
  rintro ⟨shards, u, board, s', results, r', hshards, hvisit, -, hnone⟩
  rw [shardsOf_assignEffectiveExperts c hmapped, Except.ok.injEq] at hshards
  subst hshards
  have hlen := length_assignEffectiveExperts r c tokens
  obtain ⟨hgrows, hfilled⟩ := visitShards_grows hlen hvisit
  obtain ⟨p, hp⟩ := List.mem_iff_getElem?.1 hnone
  have hlt : p < tokens.length := by
    have := (List.getElem?_eq_some_iff.1 hp).1
    rwa [hgrows.length, List.length_replicate] at this
  obtain ⟨t, ht, rfl⟩ := List.mem_map.1 (hpos.mem_iff.2 (List.mem_range.2 hlt))
  obtain ⟨shard, hshard, q, hq, rfl⟩ := exists_servedBy (c := c) (r := r) hlen ht
  obtain ⟨x, hx⟩ := hfilled shard hshard q hq
  rw [hp] at hx
  cases hx

/-- **A position out of range is always reached**, whatever a network that never blocks does. -/
theorem outOfBounds_of_prompt (hnet : Prompt net)
    (hout : ∃ t ∈ tokens, tokens.length ≤ t.place) : OutOfBounds net r c tokens s := by
  have hlen := length_assignEffectiveExperts r c tokens
  obtain ⟨t, ht, hge⟩ := hout
  obtain ⟨shard₀, hmem₀, q₀, hq₀, rfl⟩ := exists_servedBy (c := c) (r := r) hlen ht
  -- the first shard of the loop with such a token
  let bad (shard : UInt32) : Prop :=
    ∃ q ∈ r.servedBy tokens (r.assignEffectiveExperts c tokens) shard, tokens.length ≤ q.1.place
  have : DecidablePred bad := fun _ => Classical.propDecidable _
  have hsome : ((c.shardOrder ((r.assignEffectiveExperts c tokens).map r.shardAt).dedup).find?
      fun shard => bad shard).isSome := by
    rw [List.find?_isSome]
    exact ⟨shard₀, hmem₀, decide_eq_true ⟨q₀, hq₀, hge⟩⟩
  obtain ⟨shard, hshard⟩ := Option.isSome_iff_exists.1 hsome
  obtain ⟨hbad, pre, post, horder, hpre⟩ := List.find?_eq_some_iff_append.1 hshard
  have hin : ∀ x ∈ pre, ∀ q ∈ r.servedBy tokens (r.assignEffectiveExperts c tokens) x,
      q.1.place < (List.replicate tokens.length (none : Option RoutedResult)).length := by
    intro x hx q hq
    rw [List.length_replicate]
    by_contra hle
    have hnot := hpre x hx
    rw [Bool.not_eq_true', decide_eq_false_iff_not] at hnot
    exact hnot ⟨q, hq, Nat.not_lt.1 hle⟩
  obtain ⟨u, board, s₁, hvisit⟩ := exec_visitShards_of_prompt hnet hlen hin r.unhealthyShards s
  obtain ⟨v, s₂, hv⟩ := exec_consult_of_prompt hnet r u shard
    (groupFor tokens ((r.assignEffectiveExperts c tokens).map r.shardAt) shard) s₁
  refine ⟨_, pre, shard, post, u, board, s₁, v, s₂, shardsOf_assignEffectiveExperts c hmapped,
    horder, hvisit, hv, ?_⟩
  rw [settle_eq_none hlen, (visitShards_grows hlen hvisit).1.length, List.length_replicate]
  exact of_decide_eq_true hbad

end Calls

/-! ## When every shard is down -/

section Down

variable {r : Router} {c : Choices} {leftover : UInt32 → UInt32} {tokens : List RoutedToken}
  {effective order : List UInt32} {u u' : Finset UInt32} {board board' : Board}

theorem consult_downNet {shard : UInt32} {group : List RoutedToken} {v : Verdict}
    (h : exec (consult downNet r u shard group) () = some (.ok v, ())) :
    ∀ replies, v ≠ .replied replies := by
  rintro replies rfl
  by_cases hu : shard ∈ u
  · rw [exec_consult_unhealthy hu] at h
    cases h
  by_cases ht : r.hasTransport shard
  · have htr : r.transportForShard shard = .ok () := if_pos ht
    have hex : exec (exchange downNet r shard group) () = some (.error .peerClosed, ()) := by
      rw [exchange, htr]
      rfl
    rw [exec_consult hu hex] at h
    cases h
  · rw [exec_consult hu (exec_exchange_of_not_hasTransport ht)] at h
    cases h

/-- A cell for which there is no token stays as it is. -/
theorem visitShards_downNet (hlen : effective.length = tokens.length) {p : ℕ}
    (hp : ∀ t ∈ tokens, t.place ≠ p) (h : exec (visitShards downNet r leftover tokens effective
      (effective.map r.shardAt) order u board) () = some (.ok (u', board'), ())) :
    board'[p]? = board[p]? := by
  induction order generalizing u board with
  | nil =>
    simp only [visitShards, exec_pure, Option.some.injEq, Prod.mk.injEq, Except.ok.injEq] at h
    rw [← h.1.2]
  | cons shard order ih =>
    obtain ⟨v, s₁, hv, h⟩ := exec_bind_eq_ok.1 h
    obtain ⟨mid, s₂, hsettle, h⟩ := exec_bind_eq_ok.1 h
    rw [exec_liftOption, Option.map_eq_some_iff] at hsettle
    obtain ⟨mid', hmid, heq⟩ := hsettle
    obtain rfl : mid' = mid := by simpa using heq
    rw [ih h]
    exact settle_others hlen (consult_downNet hv) hmid fun q hq => hp _ (mem_of_mem_servedBy hq)

theorem unwritten_of_missing (c : Choices)
    (hmapped : ∀ t ∈ tokens, (r.expertToShard t.primaryExpert).isSome ∧
      (r.expertToShard t.secondaryExpert).isSome)
    (hin : ∀ t ∈ tokens, t.place < tokens.length) {p : ℕ} (hlt : p < tokens.length)
    (hp : ∀ t ∈ tokens, t.place ≠ p) : Unwritten downNet r c tokens () := by
  have hlen := length_assignEffectiveExperts r c tokens
  have hshards := shardsOf_assignEffectiveExperts c hmapped
  have hserved : ∀ shard ∈ c.shardOrder ((r.assignEffectiveExperts c tokens).map r.shardAt).dedup,
      ∀ q ∈ r.servedBy tokens (r.assignEffectiveExperts c tokens) shard,
        q.1.place < (List.replicate tokens.length (none : Option RoutedResult)).length := by
    intro shard _ q hq
    rw [List.length_replicate]
    exact hin _ (mem_of_mem_servedBy hq)
  obtain ⟨u, board, s', hvisit⟩ :=
    exec_visitShards_of_prompt prompt_downNet hlen hserved r.unhealthyShards ()
  refine ⟨_, u, board, s', _, _, hshards, hvisit,
    exec_routeBatchTolerant_of_visit hshards hvisit, ?_⟩
  have hcell := visitShards_downNet hlen hp hvisit
  rw [List.getElem?_replicate, if_pos hlt] at hcell
  exact List.mem_of_getElem? hcell

end Down

/-- As many positions as the batch has tokens, and not `0..n-1` in some order: one is missing. -/
theorem exists_missing {tokens : List RoutedToken}
    (hpos : ¬ (tokens.map RoutedToken.place).Perm (List.range tokens.length)) :
    ∃ p < tokens.length, ∀ t ∈ tokens, t.place ≠ p := by
  by_contra hall
  push Not at hall
  have hsub : List.range tokens.length ⊆ tokens.map RoutedToken.place := by
    intro p hp
    obtain ⟨t, ht, heq⟩ := hall p (List.mem_range.1 hp)
    exact List.mem_map.2 ⟨t, ht, heq⟩
  refine hpos ((List.nodup_range.subperm hsub).perm_of_length_le ?_).symm
  rw [List.length_map, List.length_range]

/-- **The tolerant path stays within the batch, and writes all of it, under every behaviour of the
transports, exactly if the positions are `0..n-1` in some order.** Against transports that never
block, an index is out of range exactly if a position is. -/
theorem in_bounds_iff (r : Router) (tokens : List RoutedToken)
    (hmapped : ∀ t ∈ tokens, (r.expertToShard t.primaryExpert).isSome ∧
      (r.expertToShard t.secondaryExpert).isSome) :
    ((∀ (σ : Type) (net : Net σ) (c : Choices) (s : σ),
        ¬ OutOfBounds net r c tokens s ∧ ¬ Unwritten net r c tokens s) ↔
      (tokens.map RoutedToken.place).Perm (List.range tokens.length)) ∧
    ∀ (σ : Type) (net : Net σ) (c : Choices) (s : σ), Prompt net →
      (OutOfBounds net r c tokens s ↔ ∃ t ∈ tokens, tokens.length ≤ t.place) := by
  refine ⟨⟨fun h => ?_, fun hpos σ net c s => ⟨fun hout => ?_, ?_⟩⟩, fun σ net c s hnet => ⟨?_, ?_⟩⟩
  · have hdown := h Unit downNet .inOrder ()
    have hin : ∀ t ∈ tokens, t.place < tokens.length := by
      intro t ht
      by_contra hge
      exact hdown.1 (outOfBounds_of_prompt hmapped prompt_downNet ⟨t, ht, Nat.not_lt.1 hge⟩)
    by_contra hpos
    obtain ⟨p, hlt, hp⟩ := exists_missing hpos
    exact hdown.2 (unwritten_of_missing .inOrder hmapped hin hlt hp)
  · obtain ⟨t, ht, hge⟩ := exists_place_of_outOfBounds hmapped hout
    have hlt := List.mem_range.1 (hpos.mem_iff.1 (List.mem_map_of_mem ht))
    exact absurd hlt (Nat.not_lt.2 hge)
  · exact not_unwritten_of_perm hmapped hpos
  · exact exists_place_of_outOfBounds hmapped
  · exact outOfBounds_of_prompt hmapped hnet

/-- Tokens of expert 0 with these positions. -/
def positioned (positions : List UInt32) : List RoutedToken :=
  positions.map fun p =>
    { tokenId := 1, batchPosition := p, primaryExpert := 0, secondaryExpert := 1, payload := [] }

/-- Two tokens at two positions: nothing takes the call out of the batch. Two tokens at one:
something does. -/
theorem in_bounds_iff_oneEach : (∀ (σ : Type) (net : Net σ) (c : Choices) (s : σ),
      ¬ OutOfBounds net twoShards c oneEach s ∧ ¬ Unwritten net twoShards c oneEach s) ∧
    ¬ ∀ (σ : Type) (net : Net σ) (c : Choices) (s : σ),
      ¬ OutOfBounds net twoShards c (positioned [0, 0]) s ∧
        ¬ Unwritten net twoShards c (positioned [0, 0]) s :=
  ⟨(in_bounds_iff twoShards oneEach (by decide)).1.2 (by decide),
    fun h => absurd ((in_bounds_iff twoShards (positioned [0, 0]) (by decide)).1.1 h) (by decide)⟩

/-- **Neither is checked**: a single token at position 1 is written out of range, and of two tokens
at position 0 the call returns an entry that it has not written. -/
theorem not_in_bounds :
    ((∀ t ∈ positioned [1], (twoShards.expertToShard t.primaryExpert).isSome ∧
        (twoShards.expertToShard t.secondaryExpert).isSome) ∧
      OutOfBounds downNet twoShards .inOrder (positioned [1]) ()) ∧
    (∀ t ∈ positioned [0, 0], (twoShards.expertToShard t.primaryExpert).isSome ∧
        (twoShards.expertToShard t.secondaryExpert).isSome) ∧
      Unwritten downNet twoShards .inOrder (positioned [0, 0]) () := by
  refine ⟨⟨by decide, outOfBounds_of_prompt (by decide) prompt_downNet (by decide)⟩, by decide, ?_⟩
  exact unwritten_of_missing (p := 1) .inOrder (by decide) (by decide) (by decide) (by decide)

end Router

end AetherMoE
