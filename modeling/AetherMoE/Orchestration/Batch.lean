import AetherMoE.Lib.Scatter
import AetherMoE.Orchestration.Assignment

/-!
# Batches and how they split over the shards

What the callers of the router promise about a batch, and what its grouping by shard then is.

* `ValidBatch`: the positions are `0..n-1` in some order and every expert has a shard; `Routable`:
  the experts the tokens end up with do; `Sized`: the counts of the wire format are exact;
* `shardOf`, `groupOf`, `visitOrder`: a token's shard, a shard's tokens, the order of the shard map;
* **`shardsOf_eq`**, **`flatMap_groupOf_perm`**: every token has exactly one shard;
* `twoShards`, `oneEach`: the router and the batch the concrete runs start from.
-/

namespace AetherMoE

open Grouping Scatter

/-- The place of a token in the output. -/
def RoutedToken.place (t : RoutedToken) : ℕ := t.batchPosition.toNat

/-- The place a result asks for. -/
def RoutedResult.place (result : RoutedResult) : ℕ := result.batchPosition.toNat

namespace Router

/-- The positions are a permutation of `0..n-1`, and all experts are mapped to shards. -/
structure ValidBatch (r : Router) (tokens : List RoutedToken) : Prop where
  positions : (tokens.map RoutedToken.place).Perm (List.range tokens.length)
  mapped : ∀ t ∈ tokens, (r.expertToShard t.primaryExpert).isSome ∧
    (r.expertToShard t.secondaryExpert).isSome

/-- The positions are a permutation of `0..n-1`, and the expert every token ends up with is mapped
to a shard. -/
structure Routable (r : Router) (tokens : List RoutedToken) : Prop where
  positions : (tokens.map RoutedToken.place).Perm (List.range tokens.length)
  mapped : ∀ t ∈ tokens, (r.expertToShard (r.effectiveOf tokens t)).isSome

/-- The batch and its payloads are shorter than `2 ^ 32`. -/
structure Sized (tokens : List RoutedToken) : Prop where
  tokens_lt : tokens.length < 2 ^ 32
  payload_lt : ∀ t ∈ tokens, t.payload.length < 2 ^ 32

variable (r : Router) (tokens : List RoutedToken)

/-- The shard of a token's effective expert. -/
def shardOf (t : RoutedToken) : UInt32 := (r.expertToShard (r.effectiveOf tokens t)).getD 0

/-- The tokens of a shard, in batch order. -/
def groupOf (shard : UInt32) : List RoutedToken :=
  tokens.filter fun t => r.shardOf tokens t = shard

/-- The shards of the batch in the iteration order of the shard map. -/
def visitOrder (c : Choices) : List UInt32 := c.shardOrder (tokens.map (r.shardOf tokens)).dedup

variable {r tokens} {shard : UInt32} {t : RoutedToken}

@[simp] theorem mem_groupOf :
    t ∈ r.groupOf tokens shard ↔ t ∈ tokens ∧ r.shardOf tokens t = shard := by
  simp [groupOf]

theorem groupFor_eq (shard : UInt32) :
    groupFor tokens (tokens.map (r.shardOf tokens)) shard = r.groupOf tokens shard :=
  filterMap_indicesOf tokens (r.shardOf tokens) shard

theorem nodup_visitOrder (c : Choices) : (r.visitOrder tokens c).Nodup :=
  (c.shardOrder_perm _).nodup_iff.2 (List.nodup_dedup _)

theorem mem_visitOrder {c : Choices} :
    shard ∈ r.visitOrder tokens c ↔ ∃ t ∈ tokens, r.shardOf tokens t = shard := by
  rw [visitOrder, (c.shardOrder_perm _).mem_iff, List.mem_dedup, List.mem_map]

/-- **The groups of the shards are the batch.** -/
theorem flatMap_groupOf_perm (c : Choices) :
    ((r.visitOrder tokens c).flatMap (r.groupOf tokens)).Perm tokens :=
  flatMap_filter_perm tokens (r.shardOf tokens) (c.shardOrder_perm _)

theorem Sized.group (h : Sized tokens) (shard : UInt32) : Sized (r.groupOf tokens shard) where
  tokens_lt := Nat.lt_of_le_of_lt (List.length_filter_le _ _) h.tokens_lt
  payload_lt t ht := h.payload_lt t (mem_groupOf.1 ht).1

theorem ValidBatch.routable (h : r.ValidBatch tokens) : r.Routable tokens where
  positions := h.positions
  mapped := by
    intro t ht
    rw [effectiveOf]
    split
    · exact (h.mapped t ht).1
    · exact (h.mapped t ht).2

theorem nodup_batchPosition_of_perm
    (h : (tokens.map RoutedToken.place).Perm (List.range tokens.length)) :
    (tokens.map RoutedToken.batchPosition).Nodup := by
  have hnd : (tokens.map RoutedToken.place).Nodup := h.nodup_iff.2 List.nodup_range
  rw [show RoutedToken.place = UInt32.toNat ∘ RoutedToken.batchPosition from rfl,
    ← List.map_map] at hnd
  exact hnd.of_map _

namespace Routable

variable (h : r.Routable tokens)
include h

theorem nodup : (tokens.map RoutedToken.place).Nodup :=
  h.positions.nodup_iff.2 List.nodup_range

theorem nodup_group (shard : UInt32) : ((r.groupOf tokens shard).map RoutedToken.place).Nodup :=
  h.nodup.sublist (List.filter_sublist.map _)

theorem nodup_batchPosition : (tokens.map RoutedToken.batchPosition).Nodup :=
  nodup_batchPosition_of_perm h.positions

theorem place_lt (ht : t ∈ tokens) : t.place < tokens.length :=
  List.mem_range.1 (h.positions.mem_iff.1 (List.mem_map_of_mem ht))

/-- Some token has each position. -/
theorem exists_place {p : ℕ} (hp : p < tokens.length) : ∃ t ∈ tokens, t.place = p :=
  List.mem_map.1 (h.positions.mem_iff.2 (List.mem_range.2 hp))

theorem eq_of_place_eq {u : RoutedToken} (ht : t ∈ tokens) (hu : u ∈ tokens)
    (hp : t.place = u.place) : t = u :=
  List.inj_on_of_nodup_map h.nodup ht hu hp

/-- The group of another shard has no token at `t`'s place. -/
theorem find?_groupOf_of_ne (ht : t ∈ tokens) (hs : r.shardOf tokens t ≠ shard) :
    (r.groupOf tokens shard).find? (fun u => u.place = t.place) = none := by
  rw [List.find?_eq_none]
  intro u hu hp
  have hp' : u.place = t.place := by simpa using hp
  obtain ⟨hmem, rfl⟩ := mem_groupOf.1 hu
  exact hs (congrArg _ (h.eq_of_place_eq ht hmem hp'.symm))

theorem find?_groupOf (ht : t ∈ tokens) :
    (r.groupOf tokens (r.shardOf tokens t)).find? (fun u => u.place = t.place) = some t :=
  find?_eq_some_of_nodup (h.nodup_group _) (mem_groupOf.2 ⟨ht, rfl⟩)

theorem expertToShard_effectiveOf (ht : t ∈ tokens) :
    r.expertToShard (r.effectiveOf tokens t) = some (r.shardOf tokens t) := by
  obtain ⟨s, hs⟩ := Option.isSome_iff_exists.1 (h.mapped t ht)
  rw [shardOf, hs, Option.getD_some]

/-- **Every token has a shard.** -/
theorem shardsOf_eq (c : Choices) :
    r.shardsOf (r.assignEffectiveExperts c tokens) = .ok (tokens.map (r.shardOf tokens)) := by
  rw [assignEffectiveExperts_eq r c h.nodup_batchPosition, shardsOf, List.mapM_map]
  have hall : ∀ l : List RoutedToken, (∀ t ∈ l, t ∈ tokens) →
      l.mapM (r.shardForExpert ∘ r.effectiveOf tokens) = .ok (l.map (r.shardOf tokens)) := by
    intro l hl
    induction l with
    | nil => rfl
    | cons t l ih =>
      rw [List.forall_mem_cons] at hl
      have hs : r.shardForExpert (r.effectiveOf tokens t) = .ok (r.shardOf tokens t) := by
        rw [shardForExpert, h.expertToShard_effectiveOf hl.1]
      rw [List.mapM_cons, Function.comp_apply, hs, ih hl.2]
      rfl
  exact hall tokens fun _ => id

end Routable

/-! ## A small cluster -/

/-- Two experts, each on its own shard. -/
def twoShards : Router where
  expertToShard e := if e < 2 then some e else none
  hasTransport s := s < 2

/-- A token for each of the two experts. -/
def oneEach : List RoutedToken :=
  [{ tokenId := 10, batchPosition := 0, primaryExpert := 0, secondaryExpert := 1, payload := [] },
    { tokenId := 11, batchPosition := 1, primaryExpert := 1, secondaryExpert := 0, payload := [] }]

theorem validBatch_oneEach : twoShards.ValidBatch oneEach := ⟨by decide, by decide⟩

theorem sized_oneEach : Sized oneEach := ⟨by decide, by decide⟩

theorem visitOrder_oneEach : twoShards.visitOrder oneEach .inOrder = [0, 1] := by decide

end Router

end AetherMoE
