import AetherMoE.Orchestration.Verdicts
import Mathlib.Logic.Function.Basic

/-!
# Does a faulty shard stay alone?

The tolerant path against transports that may do anything: throw, or return any bytes, as a
function of all that was sent over them before. Two runs of one call that differ only in what one
shard's transport does, and in what the fields that nothing sets hold, are compared on the tokens
of the other shards.

* `Port`, `netOf`: a transport with an arbitrary state of its own, and the network they make up;
* **`exec_survey_netOf`**: the verdict on a shard depends on its own transport only;
* `Isolated`: the other shards' tokens have the same results in both runs, in all that is written of
  them;
* `Exposes`: a shard that is consulted before another one;
* **`isolated_iff`**: isolation holds exactly of the shards that expose no other. A shard that is
  consulted earlier can claim the position of a token that is not its own.
-/

namespace AetherMoE

open ByteCodec Effect

/-- A transport with a state `τ`; it throws or returns, and never blocks. -/
structure Port (τ : Type) where
  send : Bytes → τ → Except Exn Unit × τ
  receive : τ → Except Exn Bytes × τ

/-- A transport that answers every request with the same results. -/
def Port.replying {τ : Type} (results : List RoutedResult) : Port τ where
  send _ x := (.ok (), x)
  receive x := (.ok (encodeResultBatch results), x)

namespace Router

variable {τ : Type}

/-- The network of the transports `ports`. -/
def netOf (ports : UInt32 → Port τ) : Net (UInt32 → τ) where
  send shard raw := ofExec fun st =>
    some (((ports shard).send raw (st shard)).1,
      Function.update st shard ((ports shard).send raw (st shard)).2)
  receive shard := ofExec fun st =>
    some (((ports shard).receive (st shard)).1,
      Function.update st shard ((ports shard).receive (st shard)).2)

/-- What an exchange over a transport comes to. -/
def trial (reservable : ℕ) (port : Port τ) (raw : Bytes) (x : τ) :
    Except Exn (List RoutedResult) := do
  (port.send raw x).1
  let bytes ← (port.receive (port.send raw x).2).1
  decodeResultBatch reservable bytes

/-- The router talks to the shard at all. -/
def Exchanged (r : Router) (shard : UInt32) : Prop :=
  shard ∉ r.unhealthyShards ∧ r.hasTransport shard

instance (r : Router) (shard : UInt32) : Decidable (r.Exchanged shard) :=
  inferInstanceAs (Decidable (_ ∧ _))

/-- The verdict on a shard. -/
def verdictOn (r : Router) (tokens : List RoutedToken) (shard : UInt32) (port : Port τ) (x : τ) :
    Verdict :=
  if shard ∈ r.unhealthyShards then .unhealthy
  else if r.hasTransport shard then
    match trial r.reservable port (encodeTokenBatch (r.groupOf tokens shard)) x with
    | .ok results => .replied results
    | .error e => .threw e
  else .threw (.noTransport shard)

section Runs

variable (ports : UInt32 → Port τ) {r : Router} {tokens : List RoutedToken} {c : Choices}

/-- An exchange over a transport touches no other transport's state. -/
theorem exec_exchange_netOf (shard : UInt32) (group : List RoutedToken) (st : UInt32 → τ)
    (ht : r.hasTransport shard) :
    ∃ st', exec (exchange (netOf ports) r shard group) st =
        some (trial r.reservable (ports shard) (encodeTokenBatch group) (st shard), st') ∧
      ∀ y, y ≠ shard → st' y = st y := by
  have htr : r.transportForShard shard = .ok () := if_pos ht
  set raw := encodeTokenBatch group with hraw
  have hsend : exec ((netOf ports).send shard raw) st = some (((ports shard).send raw (st shard)).1,
      Function.update st shard ((ports shard).send raw (st shard)).2) := rfl
  rw [exchange, htr, exec_bind_ok (exec_liftExcept _ _), ← hraw, trial]
  rcases hs : (ports shard).send raw (st shard) with ⟨out, x⟩
  rw [hs] at hsend
  cases out with
  | error e =>
    rw [exec_bind_error hsend]
    exact ⟨_, rfl, fun y hy => Function.update_of_ne hy _ _⟩
  | ok =>
    rw [exec_bind_ok hsend, exec_bind_ok (exec_liftExcept _ _)]
    set st₁ := Function.update st shard x with hst₁
    have hx : st₁ shard = x := Function.update_self _ _ _
    have hreceive : exec ((netOf ports).receive shard) st₁ = some (((ports shard).receive x).1,
        Function.update st₁ shard ((ports shard).receive x).2) := by
      rw [netOf, exec_ofExec, hx]
    have hframe : ∀ z y, y ≠ shard → Function.update st₁ shard z y = st y := by
      intro z y hy
      rw [Function.update_of_ne hy, hst₁, Function.update_of_ne hy]
    rcases hr : (ports shard).receive x with ⟨out, z⟩
    rw [hr] at hreceive
    cases out with
    | error e =>
      rw [exec_bind_error hreceive]
      exact ⟨_, rfl, hframe z⟩
    | ok bytes =>
      rw [exec_bind_ok hreceive, exec_liftExcept]
      exact ⟨_, rfl, hframe z⟩

theorem exec_consult_netOf (r : Router) (tokens : List RoutedToken) (shard : UInt32)
    (st : UInt32 → τ) :
    ∃ st', exec (consult (netOf ports) r r.unhealthyShards shard (r.groupOf tokens shard)) st =
        some (.ok (r.verdictOn tokens shard (ports shard) (st shard)), st') ∧
      ∀ y, y ≠ shard → st' y = st y := by
  rw [verdictOn]
  by_cases hu : shard ∈ r.unhealthyShards
  · rw [if_pos hu]
    exact ⟨st, exec_consult_unhealthy hu, fun _ _ => rfl⟩
  rw [if_neg hu]
  by_cases ht : r.hasTransport shard
  · obtain ⟨st', hex, hframe⟩ := exec_exchange_netOf ports shard (r.groupOf tokens shard) st ht
    rw [if_pos ht]
    refine ⟨st', (exec_consult hu hex).trans ?_, hframe⟩
    cases trial r.reservable (ports shard) (encodeTokenBatch (r.groupOf tokens shard))
      (st shard) <;> rfl
  · rw [if_neg ht]
    exact ⟨st, exec_consult hu (exec_exchange_of_not_hasTransport ht), fun _ _ => rfl⟩

/-- The verdicts on the shards of a list. -/
def verdictsOn (r : Router) (tokens : List RoutedToken) (ports : UInt32 → Port τ)
    (st : UInt32 → τ) (order : List UInt32) : List (UInt32 × Verdict) :=
  order.map fun shard => (shard, r.verdictOn tokens shard (ports shard) (st shard))

/-- **Each verdict depends on the shard's own transport only.** -/
theorem exec_survey_netOf {order : List UInt32} (hnd : order.Nodup) (st : UInt32 → τ) :
    ∃ st', exec (survey (netOf ports) r tokens order) st =
      some (.ok (r.verdictsOn tokens ports st order), st') := by
  induction order generalizing st with
  | nil => exact ⟨st, rfl⟩
  | cons shard order ih =>
    rw [List.nodup_cons] at hnd
    obtain ⟨st₁, hconsult, hframe⟩ := exec_consult_netOf ports r tokens shard st
    obtain ⟨st₂, hrest⟩ := ih hnd.2 st₁
    have hsame : r.verdictsOn tokens ports st₁ order = r.verdictsOn tokens ports st order := by
      refine List.map_congr_left fun y hy => ?_
      rw [hframe y fun heq => hnd.1 (heq ▸ hy)]
    refine ⟨st₂, ?_⟩
    rw [survey, exec_bind_ok hconsult, exec_bind_ok hrest, hsame]
    rfl

theorem exec_routeBatchTolerant_netOf (h : r.Routable tokens) (st : UInt32 → τ) :
    ∃ st', exec (routeBatchTolerant (netOf ports) r c tokens) st =
      some (.ok (r.gathered c.leftover tokens
          (r.verdictsOn tokens ports st (r.visitOrder tokens c)),
        { r with unhealthyShards :=
            marked (r.verdictsOn tokens ports st (r.visitOrder tokens c)) r.unhealthyShards }),
        st') := by
  obtain ⟨st', hs⟩ := exec_survey_netOf ports (nodup_visitOrder c) st
  exact ⟨st', exec_routeBatchTolerant h hs⟩

end Runs

/-! ## Two runs -/

section TwoRuns

variable (τ) (r : Router) (c : Choices) (tokens : List RoutedToken) (s : UInt32)

/-- In any two environments that differ only in shard `s`, a call returns the same results for the
tokens whose effective expert is not on `s`, but for the shard of a failed result, which is never
written. -/
def Isolated : Prop :=
  ∀ (ports ports' : UInt32 → Port τ) (st st' : UInt32 → τ) (leftover leftover' : UInt32 → UInt32),
    (∀ y, y ≠ s → ports y = ports' y ∧ st y = st' y) →
    ∃ run run' : (List RoutedResult × Router) × (UInt32 → τ),
      exec (routeBatchTolerant (netOf ports) r (c.leaving leftover) tokens) st =
        some (.ok run.1, run.2) ∧
      exec (routeBatchTolerant (netOf ports') r (c.leaving leftover') tokens) st' =
        some (.ok run'.1, run'.2) ∧
      ∀ t ∈ tokens, r.expertToShard (r.effectiveOf tokens t) ≠ some s →
        run.1.1[t.place]?.map written = run'.1.1[t.place]?.map written

/-- The router talks to `s` and, later in the iteration order, to another shard of the batch. -/
def Exposes : Prop :=
  r.Exchanged s ∧ ∃ pre x post, r.visitOrder tokens c = pre ++ x :: post ∧ s ∈ pre ∧ r.Exchanged x

variable {τ r c tokens s}

/-- A shard the router does not talk to has the same verdict in every environment. -/
theorem verdictOn_of_not_exchanged {shard : UInt32} (h : ¬ r.Exchanged shard) (port port' : Port τ)
    (x x' : τ) : r.verdictOn tokens shard port x = r.verdictOn tokens shard port' x' := by
  unfold verdictOn
  split
  · rfl
  · rename_i hs
    have ht : ¬ r.hasTransport shard := fun ht => h ⟨hs, ht⟩
    rw [if_neg ht, if_neg ht]

/-- The tokens of a shard the router does not talk to fail, whatever stood at their positions. -/
theorem answer_of_not_exchanged {shard : UInt32} (h : ¬ r.Exchanged shard) (port : Port τ) (x : τ)
    (leftover : UInt32 → UInt32) (t : RoutedToken) (o o' : Option RoutedResult) :
    r.answer leftover tokens shard t (r.verdictOn tokens shard port x) o =
      r.answer leftover tokens shard t (r.verdictOn tokens shard port x) o' := by
  unfold verdictOn
  split
  · rfl
  · rename_i hs
    have ht : ¬ r.hasTransport shard := fun ht => h ⟨hs, ht⟩
    rw [if_neg ht]
    rfl

/-- The result of a token, with the shards that come before its own. -/
theorem getElem?_gathered_verdictsOn (h : r.Routable tokens) {t : RoutedToken} (ht : t ∈ tokens)
    {pre post : List UInt32}
    (horder : r.visitOrder tokens c = pre ++ r.shardOf tokens t :: post)
    (leftover : UInt32 → UInt32) (ports : UInt32 → Port τ) (st : UInt32 → τ) :
    (r.gathered leftover tokens
      (r.verdictsOn tokens ports st (r.visitOrder tokens c)))[t.place]? =
      some (r.answer leftover tokens (r.shardOf tokens t) t
        (r.verdictOn tokens (r.shardOf tokens t) (ports (r.shardOf tokens t))
          (st (r.shardOf tokens t)))
        ((r.verdictsOn tokens ports st pre).findSome? fun q => r.said tokens q.1 t.place q.2)) := by
  have hnd : ((r.verdictsOn tokens ports st pre ++ (r.shardOf tokens t,
      r.verdictOn tokens (r.shardOf tokens t) (ports (r.shardOf tokens t))
        (st (r.shardOf tokens t))) :: r.verdictsOn tokens ports st post).map Prod.fst).Nodup := by
    have horderNodup : (r.visitOrder tokens c).Nodup := nodup_visitOrder c
    rw [horder] at horderNodup
    simpa [verdictsOn, Function.comp_def] using horderNodup
  rw [horder]
  simpa only [verdictsOn, List.map_append, List.map_cons] using getElem?_gathered h ht hnd

theorem isolated_of_not_exposes (h : r.ValidBatch tokens) (hs : ¬ r.Exposes c tokens s) :
    r.Isolated τ c tokens s := by
  intro ports ports' st st' leftover leftover' hsame
  obtain ⟨fin, hrun⟩ :=
    exec_routeBatchTolerant_netOf ports (c := c.leaving leftover) h.routable st
  obtain ⟨fin', hrun'⟩ :=
    exec_routeBatchTolerant_netOf ports' (c := c.leaving leftover') h.routable st'
  refine ⟨(_, fin), (_, fin'), hrun, hrun', ?_⟩
  intro t ht hne
  rw [h.routable.expertToShard_effectiveOf ht, Ne, Option.some.injEq] at hne
  obtain ⟨pre, post, horder⟩ := List.append_of_mem (mem_visitOrder (c := c) |>.2 ⟨t, ht, rfl⟩)
  change Option.map _ (r.gathered leftover tokens (r.verdictsOn tokens ports st
    (r.visitOrder tokens c)))[t.place]? = Option.map _ (r.gathered leftover' tokens
      (r.verdictsOn tokens ports' st' (r.visitOrder tokens c)))[t.place]?
  rw [getElem?_gathered_verdictsOn h.routable ht horder,
    getElem?_gathered_verdictsOn h.routable ht horder, (hsame _ hne).1, (hsame _ hne).2,
    Option.map_some, Option.map_some, written_answer leftover']
  by_cases hx : r.Exchanged (r.shardOf tokens t)
  · -- an earlier `s` is not consulted, or the token's shard would be exposed
    have hpre : r.verdictsOn tokens ports st pre = r.verdictsOn tokens ports' st' pre := by
      refine List.map_congr_left fun y hy => ?_
      by_cases hys : y = s
      · subst hys
        have hy' : ¬ r.Exchanged y := fun hex => hs ⟨hex, pre, _, post, horder, hy, hx⟩
        rw [verdictOn_of_not_exchanged hy']
      · rw [(hsame y hys).1, (hsame y hys).2]
    rw [hpre]
  · rw [answer_of_not_exchanged hx]

/-- A shard with a transport that always gives the same short answer. -/
theorem verdictOn_replying {shard : UInt32} (hx : r.Exchanged shard) {results : List RoutedResult}
    (hn : results.length < 2 ^ 32) (hp : ∀ result ∈ results, result.payload.length < 2 ^ 32)
    (x : τ) :
    r.verdictOn tokens shard (.replying results) x =
      .replied (results.map RoutedResult.onWire) := by
  have htrial : trial r.reservable (.replying results)
      (encodeTokenBatch (r.groupOf tokens shard)) x =
        decodeResultBatch r.reservable (encodeResultBatch results) := rfl
  rw [verdictOn, if_neg hx.1, if_pos hx.2, htrial, decodeResultBatch_encode _ results hn hp]

/-- An empty answer claims no position. -/
theorem said_replying_nil (shard : UInt32) (p : ℕ) (x : τ) :
    r.said tokens shard p (r.verdictOn tokens shard (.replying []) x) = none := by
  by_cases hx : r.Exchanged shard
  · rw [verdictOn_replying hx (by simp) (by simp)]
    rfl
  · unfold verdictOn
    split
    · rfl
    · rename_i hs
      have ht : ¬ r.hasTransport shard := fun ht => hx ⟨hs, ht⟩
      rw [if_neg ht]
      rfl

/-- A result with nothing but a position. -/
def forged (t : RoutedToken) : RoutedResult := { batchPosition := t.batchPosition }

theorem said_replying_forged {shard : UInt32} (hx : r.Exchanged shard) (t : RoutedToken) (x : τ) :
    r.said tokens shard t.place (r.verdictOn tokens shard (.replying [forged t]) x) =
      some (r.annotate tokens shard (forged t)) := by
  rw [verdictOn_replying hx (by simp) (by simp [forged])]
  simp [said, forged, RoutedResult.onWire, RoutedResult.place, RoutedToken.place]

/-- Every shard gives an empty answer. -/
def quiet : UInt32 → Port τ := fun _ => .replying []

/-- Every shard gives an empty answer, but `s` claims the position of `t`. -/
def forging (s : UInt32) (t : RoutedToken) : UInt32 → Port τ :=
  Function.update quiet s (.replying [forged t])

theorem forging_of_ne {y : UInt32} (hy : y ≠ s) (t : RoutedToken) :
    forging s t y = (quiet y : Port τ) := Function.update_of_ne hy _ _

theorem findSome?_said_quiet (p : ℕ) (st : UInt32 → τ) (order : List UInt32) :
    ((r.verdictsOn tokens quiet st order).findSome? fun q => r.said tokens q.1 p q.2) = none := by
  rw [List.findSome?_eq_none_iff]
  intro q hq
  obtain ⟨y, -, rfl⟩ := List.mem_map.1 hq
  exact said_replying_nil y p (st y)

theorem findSome?_said_forging (hs : r.Exchanged s) (t : RoutedToken) (st : UInt32 → τ)
    {order : List UInt32} (hmem : s ∈ order) :
    ((r.verdictsOn tokens (forging s t) st order).findSome? fun q =>
      r.said tokens q.1 t.place q.2) = some (r.annotate tokens s (forged t)) := by
  have hself : (forging s t : UInt32 → Port τ) s = .replying [forged t] := Function.update_self ..
  induction order with
  | nil => cases hmem
  | cons y order ih =>
    rw [verdictsOn, List.map_cons, List.findSome?_cons]
    by_cases hy : y = s
    · subst hy
      rw [hself, said_replying_forged hs]
    · rw [forging_of_ne hy, quiet, said_replying_nil]
      exact ih (List.mem_of_ne_of_mem (Ne.symm hy) hmem)

theorem not_isolated_of_exposes [Inhabited τ] (h : r.ValidBatch tokens)
    (hs : r.Exposes c tokens s) : ¬ r.Isolated τ c tokens s := by
  obtain ⟨hex, pre, x, post, horder, hpre, hx⟩ := hs
  obtain ⟨t, ht, rfl⟩ : ∃ t ∈ tokens, r.shardOf tokens t = x := by
    refine mem_visitOrder (c := c) |>.1 ?_
    rw [horder]
    exact List.mem_append_right _ List.mem_cons_self
  have hne : r.shardOf tokens t ≠ s := by
    have hnd : (r.visitOrder tokens c).Nodup := nodup_visitOrder c
    rw [horder, List.nodup_append] at hnd
    exact (hnd.2.2 s hpre _ List.mem_cons_self).symm
  intro hiso
  let st : UInt32 → τ := fun _ => default
  obtain ⟨run, run', hrun, hrun', hagree⟩ :=
    hiso quiet (forging s t) st st c.leftover c.leftover fun y hy =>
      ⟨(forging_of_ne hy t).symm, rfl⟩
  obtain ⟨fin, hfin⟩ := exec_routeBatchTolerant_netOf quiet (c := c) h.routable st
  obtain ⟨fin', hfin'⟩ := exec_routeBatchTolerant_netOf (forging s t) (c := c) h.routable st
  have hleave : c.leaving c.leftover = c := rfl
  rw [hleave] at hrun hrun'
  rw [hrun, Option.some.injEq, Prod.mk.injEq, Except.ok.injEq] at hfin
  rw [hrun', Option.some.injEq, Prod.mk.injEq, Except.ok.injEq] at hfin'
  have hown : r.verdictOn tokens (r.shardOf tokens t) (quiet (r.shardOf tokens t))
      (st (r.shardOf tokens t)) = .replied [] := by
    rw [quiet, verdictOn_replying hx (by simp) (by simp)]
    rfl
  -- the token's own shard does not answer: its result is a failure, or the forged one
  have hsame := hagree t ht (by rw [h.routable.expertToShard_effectiveOf ht]; simpa using hne)
  rw [hfin.1, hfin'.1, getElem?_gathered_verdictsOn h.routable ht horder,
    getElem?_gathered_verdictsOn h.routable ht horder, findSome?_said_quiet,
    findSome?_said_forging hex t st hpre, forging_of_ne hne, hown, Option.map_some,
    Option.map_some, Option.some.injEq] at hsame
  have hfailed : true = false := congrArg RoutedResult.failed hsame
  cases hfailed

/-- **Isolation holds exactly of the shards that expose no other.** -/
theorem isolated_iff (τ : Type) [Inhabited τ] (r : Router) (c : Choices) (tokens : List RoutedToken)
    (s : UInt32) (h : r.ValidBatch tokens) :
    r.Isolated τ c tokens s ↔ ¬ r.Exposes c tokens s :=
  ⟨fun hiso hs => not_isolated_of_exposes h hs hiso, isolated_of_not_exposes h⟩

end TwoRuns

/-- The shard that comes last is isolated. -/
theorem isolated_iff_last : twoShards.ValidBatch oneEach ∧
    twoShards.Isolated Unit .inOrder oneEach 1 := by
  refine ⟨validBatch_oneEach, (isolated_iff Unit _ _ _ 1 validBatch_oneEach).2 ?_⟩
  rintro ⟨-, pre, x, post, horder, hmem, -⟩
  rw [visitOrder_oneEach] at horder
  obtain _ | ⟨a, _ | ⟨b, pre⟩⟩ := pre
  · cases hmem
  · obtain rfl : a = 0 := (List.cons.inj horder).1.symm
    simp at hmem
  · simp at horder

/-- **The first shard is not**: it can answer for the second one's token. -/
theorem not_isolated_first : twoShards.ValidBatch oneEach ∧
    ¬ twoShards.Isolated Unit .inOrder oneEach 0 :=
  ⟨validBatch_oneEach, not_isolated_of_exposes validBatch_oneEach
    ⟨by decide, [0], 1, [], visitOrder_oneEach, by decide, by decide⟩⟩

end Router

end AetherMoE
