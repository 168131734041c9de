import AetherMoE.Core.RingSafety
import AetherMoE.Lib.AtomicObject

/-!
# The ring buffer is linearizable

What the callers of `try_push` and `try_pop` see of `spmc_ring_buffer.hpp` is what they would see
of an atomic bounded queue. A call takes effect when it wins its compare-exchange, or when it reads
the sequence that makes it return `false`.

* `events`, `Observed`: the steps of the buffer, with the calls and returns among them;
* `Held`, `held_step`: a ticket that is claimed and not handed on is in some thread's hands;
* `Memory.queue`, `phase`, `State.config`: the atomic queue that the buffer stands for;
* **`ring_linearizable`**: every history of calls and returns is one of the atomic queue. The only
  excuse for a `false` that the queue does not bear out is a call of the other kind that has won
  its ticket and not returned.
-/

namespace AetherMoE.Ring

open Stepping Fifo
open AtomicObject (Event Phase Config QueueEffect)

variable {τ α : Type}

/-! ## Calls and returns -/

/-- The call or the return that a step of a thread is, if any. What `try_pop` has left in `out` is
the item that it moved out of its cell. -/
def events (i : τ) (m : Memory α) : Local α → Local α → List (Event τ (Op α) (Reply α))
  | .idle, .pushLoad item => [.call i (.push item)]
  | .idle, .popLoad => [.call i .pop]
  | .pushSeq _ _, .idle => [.ret i (.pushed false)]
  | .pushPublish _, .idle => [.ret i (.pushed true)]
  | .popSeq _, .idle => [.ret i (.popped none)]
  | .popRelease pos, .idle => [.ret i (.popped (m.pops.lookup pos.toNat))]
  | _, _ => []

/-- A step of some thread, with the call or return it is. -/
inductive Observed [DecidableEq τ] (k : ℕ) (moved : α → α) :
    State τ α → List (Event τ (Op α) (Reply α)) → State τ α → Prop
  | act (s : State τ α) (i : τ) (m : Memory α) (l : Local α) :
      Act k moved s.mem (s.threads i) m l →
      Observed k moved s (events i s.mem (s.threads i) l) ⟨m, Function.update s.threads i l⟩

variable {k : ℕ} {h : ℕ → ℕ} {m m' : Memory α} {l l' : Local α} {moved : α → α}

/-! ## Tickets in hand -/

/-- A ticket that was claimed and not published, or not released, is in some thread's hands. -/
structure Held (s : State τ α) : Prop where
  push : ∀ t < s.mem.enqueuePos.toNat, t ∉ s.mem.published →
    ∃ i, (s.threads i).ticket = some t ∧ (s.threads i).producing = true
  pop : ∀ t < s.mem.dequeuePos.toNat, t ∉ s.mem.released →
    ∃ i, (s.threads i).ticket = some t ∧ (s.threads i).producing = false

theorem act_held_push (ha : Act k moved m l m' l') (hB : Bounded k m) {t : ℕ}
    (ht : t < m'.enqueuePos.toNat) (hp : t ∉ m'.published) :
    l'.ticket = some t ∧ l'.producing = true ∨ t < m.enqueuePos.toNat ∧ t ∉ m.published ∧
      ¬ (l.ticket = some t ∧ l.producing = true) := by
  unfold Bounded at hB
  cases ha with
  | pushCasWin item pos he =>
    subst he
    have hsucc : (m.enqueuePos + 1).toNat = m.enqueuePos.toNat + 1 := toNat_add_one (by omega)
    rcases Nat.lt_succ_iff_lt_or_eq.mp (hsucc ▸ ht) with hlt | rfl
    · exact Or.inr ⟨hlt, hp, by simp [Local.ticket]⟩
    · exact Or.inl ⟨rfl, rfl⟩
  | pushWrite item pos =>
    by_cases htp : pos.toNat = t
    · exact Or.inl ⟨congrArg some htp, rfl⟩
    · exact Or.inr ⟨ht, hp, fun hc => htp (Option.some.inj hc.1)⟩
  | pushPublish pos =>
    rw [Finset.mem_insert, not_or] at hp
    exact Or.inr ⟨ht, hp.2, fun hc => hp.1 (Option.some.inj hc.1).symm⟩
  | _ => exact Or.inr ⟨ht, hp, by simp [Local.ticket, Local.producing]⟩

theorem act_held_pop (ha : Act k moved m l m' l') (hB : Bounded k m) {t : ℕ}
    (ht : t < m'.dequeuePos.toNat) (hp : t ∉ m'.released) :
    l'.ticket = some t ∧ l'.producing = false ∨ t < m.dequeuePos.toNat ∧ t ∉ m.released ∧
      ¬ (l.ticket = some t ∧ l.producing = false) := by
  unfold Bounded at hB
  cases ha with
  | popCasWin pos he =>
    subst he
    have hsucc : (m.dequeuePos + 1).toNat = m.dequeuePos.toNat + 1 := toNat_add_one (by omega)
    rcases Nat.lt_succ_iff_lt_or_eq.mp (hsucc ▸ ht) with hlt | rfl
    · exact Or.inr ⟨hlt, hp, by simp [Local.ticket]⟩
    · exact Or.inl ⟨rfl, rfl⟩
  | popRead pos =>
    by_cases htp : pos.toNat = t
    · exact Or.inl ⟨congrArg some htp, rfl⟩
    · exact Or.inr ⟨ht, hp, fun hc => htp (Option.some.inj hc.1)⟩
  | popRelease pos =>
    rw [Finset.mem_insert, not_or] at hp
    exact Or.inr ⟨ht, hp.2, fun hc => hp.1 (Option.some.inj hc.1).symm⟩
  | _ => exact Or.inr ⟨ht, hp, by simp [Local.ticket, Local.producing]⟩

theorem held_init [Inhabited α] : Held (State.init : State τ α) :=
  ⟨fun _ ht => absurd ht (Nat.not_lt_zero _), fun _ ht => absurd ht (Nat.not_lt_zero _)⟩

/-- **Every step hands tickets on** only by publishing or releasing them. -/
theorem held_step [DecidableEq τ] {s : State τ α} {i : τ} (hH : Held s) (hB : Bounded k s.mem)
    (ha : Act k moved s.mem (s.threads i) m' l') :
    Held ⟨m', Function.update s.threads i l'⟩ := by
  refine ⟨fun t ht hp => ?_, fun t ht hp => ?_⟩
  · rcases act_held_push ha hB ht hp with hl | ⟨ht', hp', hn⟩
    · exact ⟨i, by simpa using hl⟩
    · obtain ⟨j, hj⟩ := hH.push t ht' hp'
      have hji : j ≠ i := fun hji => hn (hji ▸ hj)
      exact ⟨j, by simpa only [Function.update_of_ne hji] using hj⟩
  · rcases act_held_pop ha hB ht hp with hl | ⟨ht', hp', hn⟩
    · exact ⟨i, by simpa using hl⟩
    · obtain ⟨j, hj⟩ := hH.pop t ht' hp'
      have hji : j ≠ i := fun hji => hn (hji ▸ hj)
      exact ⟨j, by simpa only [Function.update_of_ne hji] using hj⟩

/-! ## The queue that the buffer stands for -/

/-- The item pushed under each ticket. -/
def Memory.items (m : Memory α) : List α := m.pushes.map Prod.snd

/-- The items that were pushed and not claimed by a pop, oldest first. -/
def Memory.queue (m : Memory α) : List α := m.items.drop m.dequeuePos.toNat

/-- Where a thread is with its operation on the queue. -/
def phase (m : Memory α) : Local α → Phase (Op α) (Reply α)
  | .idle => .idle
  | .pushLoad item => .called (.push item)
  | .pushSeq item _ => .called (.push item)
  | .pushCas item _ => .called (.push item)
  | .pushWrite _ _ => .replied (.pushed true)
  | .pushPublish _ => .replied (.pushed true)
  | .popLoad => .called .pop
  | .popSeq _ => .called .pop
  | .popCas _ => .called .pop
  | .popRead pos => .replied (.popped m.items[pos.toNat]?)
  | .popRelease pos => .replied (.popped m.items[pos.toNat]?)

/-- The atomic queue and its threads. -/
def State.config (s : State τ α) : Config τ (Op α) (Reply α) (List α) :=
  ⟨s.mem.queue, fun i => phase s.mem (s.threads i)⟩

theorem Shared.length_items (hS : Shared k h m) : m.items.length = m.enqueuePos.toNat := by
  have := congrArg List.length hS.pushes_fst
  simpa [Memory.items] using this

theorem Shared.items_of_mem (hS : Shared k h m) {t : ℕ} {v : α} (hm : (t, v) ∈ m.pushes) :
    m.items[t]? = some v := by
  obtain ⟨j, hj⟩ := List.mem_iff_getElem?.mp hm
  have hf : (m.pushes.map Prod.fst)[j]? = some t := by rw [List.getElem?_map, hj, Option.map_some]
  rw [hS.pushes_fst] at hf
  obtain ⟨_, hjt⟩ := List.getElem?_eq_some_iff.mp hf
  rw [List.getElem_range] at hjt
  rw [Memory.items, List.getElem?_map, ← hjt, hj, Option.map_some]

/-- A pop hands out the item pushed under its ticket. -/
theorem Shared.lookup_pops (hS : Shared k h m) {t : ℕ} (ht : t ∈ m.pops.map Prod.fst) :
    m.pops.lookup t = m.items[t]? := by
  cases hv : m.pops.lookup t with
  | none =>
    obtain ⟨x, hx, rfl⟩ := List.mem_map.mp ht
    have := List.lookup_eq_none_iff.mp hv x hx
    simp at this
  | some v =>
    obtain ⟨l₁, l₂, hl, _⟩ := List.lookup_eq_some_iff.mp hv
    have hm : (t, v) ∈ m.pops := by
      rw [hl]
      exact List.mem_append_right _ List.mem_cons_self
    exact (hS.items_of_mem (hS.pops_sub _ hm)).symm

theorem Shared.dequeue_le (hS : Shared k h m) : m.dequeuePos.toNat ≤ m.enqueuePos.toNat := by
  by_contra hlt
  have := hS.lt_enqueue _ (hS.full m.enqueuePos.toNat (by omega))
  omega

theorem Shared.length_queue (hS : Shared k h m) :
    m.queue.length = m.enqueuePos.toNat - m.dequeuePos.toNat := by
  rw [Memory.queue, List.length_drop, hS.length_items]

/-- The queue never holds more than `Capacity` items: the cell of a claimed ticket was released
one round before. -/
theorem Shared.length_queue_le (hS : Shared k h m) : m.queue.length ≤ capacity k := by
  rw [hS.length_queue]
  by_contra hlt
  have hC := two_le_capacity k
  have hge : capacity k ≤ m.enqueuePos.toNat - 1 := by omega
  have hf := hS.free (m.enqueuePos.toNat - 1) (by omega)
  rw [Nat.mod_eq_sub_mod hge, Nat.div_eq_sub_div (by omega) hge] at hf
  have := hS.lt_dequeue _ hf
  omega

/-! ## The steps as calls, effects and returns -/

/-- A reply survives the pushes of others. -/
theorem phase_mono (hS : Shared k h m) (hL : LocalInv k h m l) (hp : m.items <+: m'.items) :
    phase m' l = phase m l := by
  obtain ⟨ys, hys⟩ := hp
  have hlt : ∀ {t : ℕ}, t < m.dequeuePos.toNat → m'.items[t]? = m.items[t]? := by
    intro t ht
    rw [← hys, List.getElem?_append_left]
    rw [hS.length_items]
    exact ht.trans_le hS.dequeue_le
  cases l with
  | popRead pos | popRelease pos =>
    show Phase.replied (Reply.popped m'.items[pos.toNat]?) = _
    rw [hlt hL.1]
    rfl
  | _ => rfl

theorem act_items (ha : Act k moved m l m' l') : m.items <+: m'.items := by
  cases ha with
  | pushCasWin item pos he =>
    simp only [Memory.items, List.map_append]
    exact List.prefix_append _ _
  | _ => exact List.prefix_refl _

/-- What a step of a thread is to the queue. -/
inductive Explained [DecidableEq τ] (k : ℕ) (s : State τ α) (i : τ) (m' : Memory α)
    (l' : Local α) : List (Event τ (Op α) (Reply α)) → Prop
  | stutter : m'.queue = s.mem.queue → phase m' l' = phase s.mem (s.threads i) →
      Explained k s i m' l' []
  | call (op : Op α) : m'.queue = s.mem.queue → phase s.mem (s.threads i) = .idle →
      phase m' l' = .called op → Explained k s i m' l' [.call i op]
  | effect (op : Op α) (r : Reply α) : phase s.mem (s.threads i) = .called op →
      QueueEffect (capacity k) s.config.phases s.mem.queue op r m'.queue →
      phase m' l' = .replied r → Explained k s i m' l' []
  | ret (r : Reply α) : m'.queue = s.mem.queue → phase s.mem (s.threads i) = .replied r →
      phase m' l' = .idle → Explained k s i m' l' [.ret i r]
  | effectRet (op : Op α) (r : Reply α) : phase s.mem (s.threads i) = .called op →
      QueueEffect (capacity k) s.config.phases s.mem.queue op r m'.queue →
      phase m' l' = .idle → Explained k s i m' l' [.ret i r]

/-- A thread with a push ticket has pushed. -/
theorem phase_producing {t : ℕ} (ht : l.ticket = some t) (hp : l.producing = true) :
    phase m l = .replied (.pushed true) := by
  cases l with
  | pushWrite | pushPublish => rfl
  | popRead | popRelease => cases hp
  | _ => cases ht

/-- A thread with a pop ticket has an item. -/
theorem phase_consuming (hS : Shared k h m) (hL : LocalInv k h m l) {t : ℕ}
    (ht : l.ticket = some t) (hp : l.producing = false) :
    ∃ v, phase m l = .replied (.popped (some v)) := by
  have hget : ∀ {pos : Word}, pos.toNat < m.dequeuePos.toNat →
      ∃ v, Phase.replied (Reply.popped m.items[pos.toNat]?) =
        (Phase.replied (.popped (some v)) : Phase (Op α) (Reply α)) := by
    intro pos hlt
    have hlen : pos.toNat < m.items.length := by
      rw [hS.length_items]
      exact hlt.trans_le hS.dequeue_le
    exact ⟨m.items[pos.toNat], by rw [List.getElem?_eq_getElem hlen]⟩
  cases l with
  | pushWrite | pushPublish => cases hp
  | popRead pos => exact hget hL.1
  | popRelease pos => exact hget hL.1
  | _ => cases ht

variable [Fintype τ] {s : State τ α} {i : τ}

/-- **A full cell** means a full queue, or a pop that has claimed the cell's item. -/
theorem explained_full (hI : Inv k h s) (hH : Held s) (hB : Bounded k s.mem) {item : α}
    {pos : Word} (hi : s.threads i = .pushSeq item pos)
    (hd : signedDiff (s.mem.sequence (cellOf k pos)) pos < 0) :
    QueueEffect (capacity k) s.config.phases s.mem.queue (.push item) (.pushed false)
      s.mem.queue := by
  have hS := hI.shared
  have hL := hI.threads i
  rw [hi] at hL
  have hlt := hS.push_full hB hL hd
  have hpos : pos.toNat = s.mem.enqueuePos.toNat := by
    refine le_antisymm hL (Nat.not_lt.mp fun hp => ?_)
    exact Nat.lt_irrefl _ (hlt.trans_le (hS.free _ hp))
  obtain ⟨hge, hrel⟩ := hI.not_released hB hi hd
  rw [hpos] at hge hrel
  apply QueueEffect.full
  by_cases hc : s.mem.enqueuePos.toNat - capacity k < s.mem.dequeuePos.toNat
  · obtain ⟨j, hj, hpj⟩ := hH.pop _ hc hrel
    obtain ⟨v, hv⟩ := phase_consuming hS (hI.threads j) hj hpj
    exact Or.inr ⟨j, v, hv⟩
  · have hle := hS.length_queue_le
    have hlen := hS.length_queue
    exact Or.inl (by omega)

/-- **An empty cell** means an empty queue, or a push that has claimed the cell. -/
theorem explained_empty (hI : Inv k h s) (hH : Held s) (hB : Bounded k s.mem) {pos : Word}
    (hi : s.threads i = .popSeq pos)
    (hd : signedDiff (s.mem.sequence (cellOf k pos)) (pos + 1) < 0) :
    QueueEffect (capacity k) s.config.phases s.mem.queue .pop (.popped none) s.mem.queue := by
  have hS := hI.shared
  have hL := hI.threads i
  rw [hi] at hL
  have hlt := hS.pop_empty hB hL hd
  have hpos : pos.toNat = s.mem.dequeuePos.toNat := by
    refine le_antisymm hL (Nat.not_lt.mp fun hp => ?_)
    exact Nat.lt_irrefl _ (hlt.trans_le (hS.full _ hp))
  have hpub := hI.not_published hB hi hd
  rw [hpos] at hpub
  apply QueueEffect.empty
  by_cases hc : s.mem.dequeuePos.toNat < s.mem.enqueuePos.toNat
  · obtain ⟨j, hj, hpj⟩ := hH.push _ hc hpub
    exact Or.inr ⟨j, phase_producing hj hpj⟩
  · apply Or.inl
    apply List.length_eq_zero_iff.mp
    rw [hS.length_queue]
    omega

/-- **Every step of a thread is explained** by the queue. -/
theorem act_explained [DecidableEq τ] (hI : Inv k h s) (hH : Held s) (hB : Bounded k s.mem)
    (ha : Act k moved s.mem (s.threads i) m' l') :
    Explained k s i m' l' (events i s.mem (s.threads i) l') := by
  have hS := hI.shared
  have hL := hI.threads i
  generalize hl : s.threads i = l at ha hL
  cases ha with
  | beginPush item => exact .call (.push item) rfl (by rw [hl]; rfl) rfl
  | pushLoad item => exact .stutter rfl (by rw [hl]; rfl)
  | pushTurn item pos hd => exact .stutter rfl (by rw [hl]; rfl)
  | pushFull item pos hd =>
    exact .effectRet (.push item) _ (by rw [hl]; rfl) (explained_full hI hH hB hl hd) rfl
  | pushBehind item pos hd => exact .stutter rfl (by rw [hl]; rfl)
  | pushCasWin item pos he =>
    subst he
    refine .effect (.push item) (.pushed true) (by rw [hl]; rfl) ?_ rfl
    have hle := hS.dequeue_le
    have hlen := (hS.casPush hB item hL.2).length_queue_le
    have hitems : ({ s.mem with
        enqueuePos := s.mem.enqueuePos + 1
        pushes := s.mem.pushes ++ [(s.mem.enqueuePos.toNat, item)] } : Memory α).queue =
          s.mem.queue ++ [item] := by
      simp only [Memory.queue, Memory.items, List.map_append, List.map_cons, List.map_nil]
      rw [List.drop_append_of_le_length]
      have := hS.length_items
      rw [Memory.items] at this
      omega
    rw [hitems, List.length_append, List.length_singleton] at hlen
    rw [hitems]
    exact .push _ _ hlen
  | pushCasFail item pos => exact .stutter rfl (by rw [hl]; rfl)
  | pushWrite item pos => exact .stutter rfl (by rw [hl]; rfl)
  | pushPublish pos => exact .ret _ rfl (by rw [hl]; rfl) rfl
  | beginPop => exact .call .pop rfl (by rw [hl]; rfl) rfl
  | popLoad => exact .stutter rfl (by rw [hl]; rfl)
  | popTurn pos hd => exact .stutter rfl (by rw [hl]; rfl)
  | popEmpty pos hd =>
    exact .effectRet .pop _ (by rw [hl]; rfl) (explained_empty hI hH hB hl hd) rfl
  | popBehind pos hd => exact .stutter rfl (by rw [hl]; rfl)
  | popCasWin pos he =>
    subst he
    have hlt : s.mem.dequeuePos.toNat < s.mem.items.length := by
      rw [hS.length_items]
      exact hS.lt_enqueue _ hL.2
    have hsucc : (s.mem.dequeuePos + 1).toNat = s.mem.dequeuePos.toNat + 1 :=
      toNat_add_one (by unfold Bounded at hB; omega)
    refine .effect .pop (.popped (some s.mem.items[s.mem.dequeuePos.toNat])) (by rw [hl]; rfl) ?_ ?_
    · have hq : s.mem.queue = s.mem.items[s.mem.dequeuePos.toNat] ::
          ({ s.mem with dequeuePos := s.mem.dequeuePos + 1 } : Memory α).queue := by
        rw [Memory.queue, Memory.queue, hsucc]
        exact List.drop_eq_getElem_cons hlt
      rw [hq]
      exact .pop _ _
    · show Phase.replied (Reply.popped s.mem.items[s.mem.dequeuePos.toNat]?) = _
      rw [List.getElem?_eq_getElem hlt]
  | popCasFail pos => exact .stutter rfl (by rw [hl]; rfl)
  | popRead pos => exact .stutter rfl (by rw [hl]; rfl)
  | popRelease pos =>
    refine .ret _ rfl ?_ rfl
    rw [hl, hS.lookup_pops hL.2.2]
    rfl

/-! ## Runs -/

variable [DecidableEq τ]

/-- The phases of the other threads are not touched by a step. -/
theorem config_step (hI : Inv k h s) (ha : Act k moved s.mem (s.threads i) m' l') :
    State.config ⟨m', Function.update s.threads i l'⟩ =
      ⟨m'.queue, Function.update s.config.phases i (phase m' l')⟩ := by
  simp only [State.config, Config.mk.injEq, true_and]
  funext j
  by_cases hji : j = i
  · subst hji
    rw [Function.update_self, Function.update_self]
  · rw [Function.update_of_ne hji, Function.update_of_ne hji]
    exact phase_mono hI.shared (hI.threads j) (act_items ha)

/-- **A step of the buffer** is a few steps of the atomic queue, with the same calls and
returns. -/
theorem observed_step {s t : State τ α} {ys : List (Event τ (Op α) (Reply α))} (hI : Inv k h s)
    (hH : Held s) (hB : Bounded k s.mem) (hst : Observed k moved s ys t) :
    Trace (AtomicObject.Step (QueueEffect (capacity k))) s.config ys t.config := by
  obtain ⟨i, m', l', ha⟩ := hst
  rw [config_step hI ha]
  have hself : Function.update s.config.phases i (phase s.mem (s.threads i)) =
      s.config.phases := Function.update_eq_self _ _
  have hex := act_explained hI hH hB ha
  generalize events i s.mem (s.threads i) l' = ys at hex
  cases hex with
  | stutter hq hp =>
    rw [hq, hp, hself]
    exact .nil
  | call op hq hi hp =>
    rw [hq, hp]
    exact .single (.call s.config i op hi)
  | effect op r hi hq hp =>
    rw [hp]
    exact .single (.effect s.config i op r m'.queue hi hq)
  | ret r hq hi hp =>
    rw [hq, hp]
    exact .single (.ret s.config i r hi)
  | effectRet op r hi hq hp =>
    rw [hp]
    have h₁ : Trace (AtomicObject.Step (QueueEffect (capacity k))) s.config [] _ :=
      .single (.effect s.config i op r m'.queue hi hq)
    have h₂ := h₁.snoc (.ret _ i r (Function.update_self i (Phase.replied r) s.config.phases))
    rw [Function.update_idem] at h₂
    exact h₂

/-- What the explanation of a state rests on. -/
def Tracked (k : ℕ) (s : State τ α) : Prop := (∃ h, Inv k h s) ∧ Held s

omit [DecidableEq τ] in
theorem Inv.bounded (hI : Inv k h s) (hb : capacity k + s.mem.calls < 2 ^ 63) :
    Bounded k s.mem := by
  have := hI.calls
  unfold Bounded
  omega

omit [Fintype τ] in
theorem calls_le_of_observed {s t : State τ α} {ys : List (Event τ (Op α) (Reply α))}
    (hst : Observed k moved s ys t) : s.mem.calls ≤ t.mem.calls := by
  obtain ⟨i, m', l', ha⟩ := hst
  exact calls_le_of_act ha

theorem Tracked.step {s t : State τ α} {ys : List (Event τ (Op α) (Reply α))}
    (hs : Tracked k s) (hst : Observed k moved s ys t) (hb : capacity k + t.mem.calls < 2 ^ 63) :
    Tracked k t ∧ Trace (AtomicObject.Step (QueueEffect (capacity k))) s.config ys t.config := by
  obtain ⟨⟨h, hI⟩, hH⟩ := hs
  have hcalls := calls_le_of_observed hst
  have hB := hI.bounded (by omega)
  refine ⟨?_, observed_step hI hH hB hst⟩
  obtain ⟨i, m', l', ha⟩ := hst
  exact ⟨inv_step hI hB (.act s i m' l' ha), held_step hH hB ha⟩

/-- **The ring buffer is linearizable** as a bounded queue, in every run with
`Capacity + calls < 2 ^ 63`. -/
theorem ring_linearizable [Inhabited α] {out : List (Event τ (Op α) (Reply α))} {s : State τ α}
    (hr : Trace (Observed k moved) .init out s) (hb : capacity k + s.mem.calls < 2 ^ 63) :
    ∃ c, Trace (AtomicObject.Step (QueueEffect (capacity k))) ⟨[], fun _ => .idle⟩ out c ∧
      c.object = s.mem.queue ∧ c.object.length ≤ capacity k := by
  let R : State τ α → Config τ (Op α) (Reply α) (List α) → Prop := fun s c =>
    Tracked k s ∧ c = s.config
  have hmono : ∀ s ys t, Observed (τ := τ) k moved s ys t → capacity k + t.mem.calls < 2 ^ 63 →
      capacity k + s.mem.calls < 2 ^ 63 := fun s ys t hst hb =>
    (Nat.add_le_add_left (calls_le_of_observed hst) _).trans_lt hb
  have hinit : capacity k + (State.init : State τ α).mem.calls < 2 ^ 63 →
      R .init ⟨[], fun _ => .idle⟩ := fun hb =>
    ⟨⟨⟨_, inv_init (by simpa [State.init, Memory.init] using hb)⟩, held_init⟩, rfl⟩
  obtain ⟨c, hc, hR, rfl⟩ := hr.simulation (R := R) hmono hinit (fun s ys t c hR hst hb => by
    obtain ⟨hs, rfl⟩ := hR
    obtain ⟨ht, htr⟩ := hs.step hst hb
    exact ⟨t.config, htr, ht, rfl⟩) hb
  obtain ⟨⟨h, hI⟩, -⟩ := hR
  exact ⟨s.config, hc, rfl, hI.shared.length_queue_le⟩

/-- Thread `0` has pushed `7` and not returned; thread `1` is told that there is nothing. -/
theorem ring_linearizable_excused :
    ∃ c, Trace (AtomicObject.Step (QueueEffect (capacity 0)))
      ⟨[], fun _ : Fin 2 => .idle⟩ [.call 0 (.push 7), .call 1 .pop, .ret 1 (.popped none)] c ∧
      c.object = [7] ∧ c.object.length ≤ capacity 0 := by
  have r₁ : Trace (Observed 0 id) (State.init : State (Fin 2) ℕ) _ _ :=
    .single (.act _ 0 _ _ (.beginPush _ 7))
  have r₂ := r₁.snoc (.act _ 0 _ _ (.pushLoad _ 7))
  have r₃ := r₂.snoc (.act _ 0 _ _ (.pushTurn _ 7 0 (by decide)))
  have r₄ := r₃.snoc (.act _ 0 _ _ (.pushCasWin _ 7 0 rfl))
  have r₅ := r₄.snoc (.act _ 1 _ _ (.beginPop _))
  have r₆ := r₅.snoc (.act _ 1 _ _ (.popLoad _))
  have r₇ := r₆.snoc (.act _ 1 _ _ (.popEmpty _ 0 (by decide)))
  exact ring_linearizable r₇ (by decide)

end AetherMoE.Ring
