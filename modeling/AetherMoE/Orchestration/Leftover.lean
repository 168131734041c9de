import AetherMoE.Orchestration.Sessions

/-!
# A field that is not set

The router builds a failed result without its `processed_by_shard`. Whatever that field holds, a
tolerant call visits the same shards, exchanges the same messages and returns the same in all other
fields; a strict call makes no such result.

* `Alike`: boards that differ in that field only; **`settle_alike`**: one verdict keeps them so;
* `view`, **`routeBatchTolerant_leaving`**, `routeBatch_leaving`: one call;
* `Request.Same`: calls that differ at most in what the field holds.
-/

namespace AetherMoE

open ByteCodec Effect Grouping

namespace Router

variable {σ : Type}

/-! ## Boards -/

/-- What is written at every position is the same. -/
def Alike (b b' : Board) : Prop := b.map (Option.map written) = b'.map (Option.map written)

section Boards

variable {b b' : Board} {x x' : RoutedResult}

theorem Alike.refl (b : Board) : Alike b b := rfl

theorem Alike.length (h : Alike b b') : b.length = b'.length := by
  simpa using congrArg List.length h

theorem Alike.getElem? (h : Alike b b') (i : ℕ) :
    b[i]?.map (Option.map written) = b'[i]?.map (Option.map written) := by
  rw [← List.getElem?_map, ← List.getElem?_map]
  exact congrArg (·[i]?) h

theorem Alike.set (h : Alike b b') (hx : written x = written x') (i : ℕ) :
    Alike (b.set i (some x)) (b'.set i (some x')) := by
  rw [Alike, List.map_set, List.map_set, h, Option.map_some, Option.map_some, hx]

/-- A position is free on both boards or on none. -/
theorem Alike.free_iff (h : Alike b b') (i : ℕ) : b[i]? = some none ↔ b'[i]? = some none := by
  have hfree : ∀ o : Option (Option RoutedResult),
      o = some none ↔ o.map (Option.map written) = some none := by
    rintro (_ | _ | _) <;> simp
  rw [hfree, hfree b'[i]?, h.getElem?]

theorem written_failedResult (leftover leftover' : UInt32 → UInt32) (t : RoutedToken)
    (expert : UInt32) (reason : String) :
    written (failedResult leftover t expert reason) =
      written (failedResult leftover' t expert reason) := rfl

theorem put_alike (h : Alike b b') (hx : written x = written x') (position : UInt32) :
    Option.Rel Alike (put b position x) (put b' position x') := by
  rw [put, put, h.length]
  split
  · exact .some (h.set hx _)
  · exact .none

theorem foldlM_alike {ι : Type} {f f' : Board → ι → Option Board}
    (hf : ∀ b b' i, Alike b b' → Option.Rel Alike (f b i) (f' b' i)) (l : List ι)
    (h : Alike b b') : Option.Rel Alike (l.foldlM f b) (l.foldlM f' b') := by
  induction l generalizing b b' with
  | nil => exact .some h
  | cons i l ih =>
    rw [List.foldlM_cons, List.foldlM_cons]
    have hstep := hf b b' i h
    generalize f b i = o, f' b' i = o' at hstep
    cases hstep with
    | none => exact .none
    | some hnext => exact ih hnext

end Boards

/-! ## One verdict -/

section Settle

variable {b b' : Board} (leftover leftover' : UInt32 → UInt32) (tokens : List RoutedToken)
  (effective : List UInt32)

/-- A loop over indices whose body needs the token and its effective expert. -/
theorem foldlM_tokens_alike {g g' : Board → RoutedToken → UInt32 → Option Board}
    (hg : ∀ b b' t expert, Alike b b' → Option.Rel Alike (g b t expert) (g' b' t expert))
    (indices : List ℕ) (h : Alike b b') :
    Option.Rel Alike
      (indices.foldlM (fun b i => do
        let t ← tokens[i]?
        let expert ← effective[i]?
        g b t expert) b)
      (indices.foldlM (fun b i => do
        let t ← tokens[i]?
        let expert ← effective[i]?
        g' b t expert) b') := by
  refine foldlM_alike (fun b b' i hb => ?_) indices h
  cases tokens[i]? with
  | none => exact .none
  | some t =>
    cases effective[i]? with
    | none => exact .none
    | some expert => exact hg b b' t expert hb

theorem failGroup_alike (reason : String) (indices : List ℕ) (h : Alike b b') :
    Option.Rel Alike (failGroup leftover tokens effective reason indices b)
      (failGroup leftover' tokens effective reason indices b') :=
  foldlM_tokens_alike tokens effective (fun _ _ t expert hb =>
    put_alike hb (written_failedResult leftover leftover' t expert reason) t.batchPosition)
    indices h

theorem failMissing_alike (reason : String) (indices : List ℕ) (h : Alike b b') :
    Option.Rel Alike (failMissing leftover tokens effective reason indices b)
      (failMissing leftover' tokens effective reason indices b') := by
  refine foldlM_tokens_alike tokens effective (fun b b' t expert hb => ?_) indices h
  have hcell := hb.getElem? t.batchPosition.toNat
  rcases hb₀ : b[t.batchPosition.toNat]? with _ | _ | x <;>
    rcases hb₁ : b'[t.batchPosition.toNat]? with _ | _ | x' <;>
    rw [hb₀, hb₁] at hcell <;> simp at hcell
  · exact .none
  · exact put_alike hb (written_failedResult _ _ t expert reason) _
  · exact .some hb

theorem acceptResults_alike (expertAt : UInt32 → Option UInt32) (results : List RoutedResult)
    (h : Alike b b') :
    Alike (acceptResults expertAt results b) (acceptResults expertAt results b') := by
  induction results generalizing b b' with
  | nil => exact h
  | cons result results ih =>
    refine ih ?_
    simp only [h.free_iff]
    split
    · exact h.set rfl _
    · exact h

/-- **One verdict** leaves alike boards alike. -/
theorem settle_alike (shard : UInt32) (indices : List ℕ) (v : Verdict) (h : Alike b b') :
    Option.Rel Alike (v.settle leftover tokens effective shard indices b)
      (v.settle leftover' tokens effective shard indices b') := by
  cases v with
  | replied results =>
    exact failMissing_alike leftover leftover' tokens effective _ indices
      (acceptResults_alike _ results h)
  | unhealthy | threw e => exact failGroup_alike leftover leftover' tokens effective _ indices h

end Settle

/-! ## One call -/

section Calls

/-- An outcome seen through `f`. -/
def view {α β : Type} (f : α → β) (p : Except Exn α × σ) : Except Exn β × σ := (p.1.map f, p.2)

theorem view_view {α β γ : Type} (g : β → γ) (f : α → β) (p : Except Exn α × σ) :
    view g (view f p) = view (fun a => g (f a)) p := by
  obtain ⟨e | a, s⟩ := p <;> rfl

theorem exec_bind_pure {α β : Type} (x : Comp Exn σ α) (f : α → β) (s : σ) :
    exec (x >>= fun a => pure (f a)) s = (exec x s).map (view f) := by
  rw [exec_bind]
  rcases exec x s with _ | ⟨e | a, s'⟩ <;> rfl

theorem visitShards_leaving (net : Net σ) (r : Router) (leftover leftover' : UInt32 → UInt32)
    (tokens : List RoutedToken) (effective shards order : List UInt32) (unhealthy : Finset UInt32)
    {b b' : Board} (h : Alike b b') (s : σ) :
    (exec (visitShards net r leftover tokens effective shards order unhealthy b) s).map
        (view fun q => (q.1, q.2.map (Option.map written))) =
      (exec (visitShards net r leftover' tokens effective shards order unhealthy b') s).map
        (view fun q => (q.1, q.2.map (Option.map written))) := by
  induction order generalizing unhealthy b b' s with
  | nil => exact congrArg (fun b => some (Except.ok (unhealthy, b), s)) h
  | cons shard order ih =>
    rw [visitShards, visitShards, exec_bind, exec_bind]
    rcases exec (consult net r unhealthy shard (groupFor tokens shards shard)) s with
      _ | ⟨e | v, s₁⟩
    · rfl
    · rfl
    · dsimp only
      rw [exec_bind, exec_bind, exec_liftOption, exec_liftOption]
      have hsettle := settle_alike leftover leftover' tokens effective shard
        (indicesOf shards shard) v h
      generalize v.settle leftover tokens effective shard (indicesOf shards shard) b = o,
        v.settle leftover' tokens effective shard (indicesOf shards shard) b' = o' at hsettle
      cases hsettle with
      | none => rfl
      | some hnext => exact ih _ hnext s₁

/-- An entry nobody wrote is the same, whatever is left over. -/
theorem map_written_getD (b : Board) : (b.map fun result => result.getD {}).map written =
    (b.map (Option.map written)).map fun result => result.getD {} := by
  rw [List.map_map, List.map_map]
  refine List.map_congr_left fun o _ => ?_
  cases o <;> rfl

/-- **A tolerant call** does and returns the same, whatever is left over in a failed result. -/
theorem routeBatchTolerant_leaving (net : Net σ) (r : Router) (c : Choices)
    (leftover : UInt32 → UInt32) (tokens : List RoutedToken) (s : σ) :
    (exec (routeBatchTolerant net r (c.leaving leftover) tokens) s).map
        (view fun q => (q.1.map written, q.2)) =
      (exec (routeBatchTolerant net r c tokens) s).map
        (view fun q => (q.1.map written, q.2)) := by
  have hassign : r.assignEffectiveExperts (c.leaving leftover) tokens =
      r.assignEffectiveExperts c tokens := rfl
  rw [routeBatchTolerant, routeBatchTolerant, hassign, exec_bind, exec_bind, exec_liftExcept]
  rcases r.shardsOf (r.assignEffectiveExperts c tokens) with e | shards
  · rfl
  · have hvisit := visitShards_leaving net r leftover c.leftover tokens
      (r.assignEffectiveExperts c tokens) shards (c.shardOrder shards.dedup) r.unhealthyShards
      (Alike.refl (List.replicate tokens.length none)) s
    have hreturn : ∀ x : Comp Exn σ (Finset UInt32 × Board),
        (exec (x >>= fun q => pure (q.2.map fun result => result.getD ({} : RoutedResult),
          { r with unhealthyShards := q.1 })) s).map (view fun q => (q.1.map written, q.2)) =
        ((exec x s).map (view fun q => (q.1, q.2.map (Option.map written)))).map
          (view fun q =>
            (q.2.map fun result => result.getD {}, { r with unhealthyShards := q.1 })) := by
      intro x
      rw [exec_bind_pure, Option.map_map, Option.map_map]
      refine congrFun (congrArg Option.map (funext fun p => ?_)) _
      rw [Function.comp_apply, Function.comp_apply, view_view, view_view]
      simp only [map_written_getD]
    exact (hreturn _).trans ((congrArg _ hvisit).trans (hreturn _).symm)

/-- A strict call makes no failed result. -/
theorem routeBatch_leaving (net : Net σ) (r : Router) (c : Choices) (leftover : UInt32 → UInt32)
    (tokens : List RoutedToken) :
    routeBatch net r (c.leaving leftover) tokens = routeBatch net r c tokens := rfl

/-- The calls are the same, but for what is left over in their failed results. -/
def Request.Same (q q' : Request) : Prop :=
  ∃ leftover, q' = { q with choices := q.choices.leaving leftover }

end Calls

end Router

end AetherMoE
