import AetherMoE.Lib.Reach
import Mathlib.Data.List.Basic
import Mathlib.Data.Nat.Basic
import Mathlib.Logic.Function.Basic

/-!
# Caches keyed by object identity

A function of a mutable object works on a copy derived from the object's contents, and caches the
copy under the object's id. The id of an object is free again once nothing refers to the object;
a cache entry refers to it.

* `Cached`: such a function; `fetch`, `Cached.call`: its cache;
* `Does`: what a program can do between and with its calls; `Record`: one call;
* `Coherent`: a call works on a copy of the contents of its time;
* `Kept`: a cached object lives on under its id; **`Kept.does`**;
* **`coherent_iff_steady`**: in every run, all calls are coherent exactly if any two calls with one
  object that pass the checks find the same contents in it.
-/

namespace IdentityCache

open Stepping

variable {ι α β γ : Type}

/-! ## The cache -/

/-- A function of an object with contents in `α` and further arguments in `ι`: a result that needs
no copy (an error), the copy, and the result computed from it. -/
structure Cached (ι α β γ : Type) where
  early : ι → α → Option γ
  derive : α → β
  finish : ι → α → β → γ

/-- An object: which one it is, and its contents. -/
structure Obj (α : Type) where
  serial : ℕ
  contents : α

/-- The objects alive under their ids, the ids the program has references to, the cache (id to an
object and the copy made of it), and the number of objects made so far. -/
structure State (α β : Type) where
  heap : ℕ → Option (Obj α) := fun _ => none
  held : ℕ → Bool := fun _ => false
  cache : ℕ → Option (ℕ × β) := fun _ => none
  made : ℕ := 0

/-- The copy for the object `o` with the id `a`: the cached one, if the entry is for this object. -/
def fetch (derive : α → β) (S : State α β) (a : ℕ) (o : Obj α) : β × State α β :=
  let miss := (derive o.contents,
    { S with cache := Function.update S.cache a (some (o.serial, derive o.contents)) })
  match S.cache a with
  | some (serial, copy) => if serial = o.serial then (copy, S) else miss
  | none => miss

/-- One call: the copy it works on, if it gets that far, and its result. -/
def Cached.call (f : Cached ι α β γ) (S : State α β) (a : ℕ) (i : ι) (o : Obj α) :
    (Option β × γ) × State α β :=
  match f.early i o.contents with
  | some r => ((none, r), S)
  | none =>
    let (copy, S') := fetch f.derive S a o
    ((some copy, f.finish i o.contents copy), S')

/-- The result with an empty cache. -/
def Cached.uncached (f : Cached ι α β γ) (i : ι) (x : α) : γ :=
  (f.early i x).getD (f.finish i x (f.derive x))

/-- A call in a run: the object with its contents at the time, the arguments, the copy worked on,
and the result. -/
structure Record (ι α β γ : Type) where
  object : Obj α
  args : ι
  copy : Option β
  result : γ

/-- What a program can do: make an object under a free id, let go of one (it dies unless a cache
entry refers to it), assign to one in place, and call the function. -/
inductive Does (f : Cached ι α β γ) : State α β → List (Record ι α β γ) → State α β → Prop
  | create {S : State α β} (a : ℕ) (x : α) (h : S.heap a = none) :
      Does f S [] { S with
        heap := Function.update S.heap a (some ⟨S.made, x⟩)
        held := Function.update S.held a true
        made := S.made + 1 }
  | delete {S : State α β} {a : ℕ} {o : Obj α} (h : S.held a = true) (ho : S.heap a = some o)
      (hcache : ∀ key copy, S.cache key ≠ some (o.serial, copy)) :
      Does f S [] { S with
        heap := Function.update S.heap a none
        held := Function.update S.held a false }
  | release {S : State α β} {a key : ℕ} {o : Obj α} {copy : β} (h : S.held a = true)
      (ho : S.heap a = some o) (hcache : S.cache key = some (o.serial, copy)) :
      Does f S [] { S with held := Function.update S.held a false }
  | assign {S : State α β} {a : ℕ} {o : Obj α} (h : S.held a = true) (ho : S.heap a = some o)
      (x : α) :
      Does f S [] { S with heap := Function.update S.heap a (some { o with contents := x }) }
  | call {S : State α β} {a : ℕ} {o : Obj α} (h : S.held a = true) (ho : S.heap a = some o)
      (i : ι) :
      Does f S [⟨o, i, (f.call S a i o).1.1, (f.call S a i o).1.2⟩] (f.call S a i o).2

/-- The call works on a copy of the contents of its time, and returns what it would return with an
empty cache. -/
structure Coherent (f : Cached ι α β γ) (r : Record ι α β γ) : Prop where
  copy : ∀ copy ∈ r.copy, copy = f.derive r.object.contents
  result : r.result = f.uncached r.args r.object.contents

/-- The arguments of the call pass the checks that come before the cache. -/
def Record.Passes (f : Cached ι α β γ) (r : Record ι α β γ) : Prop :=
  f.early r.args r.object.contents = none

/-- Any two calls with one object that pass the checks find the same contents in it. -/
def Steady (f : Cached ι α β γ) (rs : List (Record ι α β γ)) : Prop :=
  ∀ r ∈ rs, ∀ r' ∈ rs, r.Passes f → r'.Passes f → r.object.serial = r'.object.serial →
    r.object.contents = r'.object.contents

/-! ## Runs -/

section Runs

variable {f : Cached ι α β γ} {S S' : State α β} {rs ys : List (Record ι α β γ)}

/-- What a run keeps: every object lives under one id, a cached one under the key of its entry, and
the entries are those of the calls that worked on a copy. -/
structure Kept (rs : List (Record ι α β γ)) (S : State α β) : Prop where
  old : ∀ a o, S.heap a = some o → o.serial < S.made
  unique : ∀ a b o o', S.heap a = some o → S.heap b = some o' → o.serial = o'.serial → a = b
  alive : ∀ a serial copy, S.cache a = some (serial, copy) →
    ∃ o, S.heap a = some o ∧ o.serial = serial
  recorded : ∀ r ∈ rs, ∀ copy ∈ r.copy, ∃ a, S.cache a = some (r.object.serial, copy)
  entered : ∀ a serial copy, S.cache a = some (serial, copy) →
    ∃ r ∈ rs, r.object.serial = serial ∧ r.copy = some copy

theorem kept_init : Kept ([] : List (Record ι α β γ)) ({} : State α β) where
  old _ _ h := by cases h
  unique _ _ _ _ h := by cases h
  alive _ _ _ h := by cases h
  recorded := List.forall_mem_nil _
  entered _ _ _ h := by cases h

/-- A hit: the entry of an id is for the object that lives under it. -/
theorem Kept.fetch_eq (hS : Kept rs S) {a : ℕ} {o : Obj α} (ho : S.heap a = some o)
    (derive : α → β) :
    (∃ copy, S.cache a = some (o.serial, copy) ∧ fetch derive S a o = (copy, S)) ∨
    (S.cache a = none ∧ fetch derive S a o = (derive o.contents,
      { S with cache := Function.update S.cache a (some (o.serial, derive o.contents)) })) := by
  cases hc : S.cache a with
  | none =>
    right
    simp [fetch, hc]
  | some entry =>
    left
    obtain ⟨serial, copy⟩ := entry
    obtain ⟨o', ho', rfl⟩ := hS.alive a serial copy hc
    rw [ho] at ho'
    obtain rfl := Option.some.inj ho'
    exact ⟨copy, rfl, by simp [fetch, hc]⟩

theorem update_eq_some {δ : Type} {h : ℕ → Option δ} {a b : ℕ} {v : Option δ} {x : δ} :
    Function.update h a v b = some x ↔ b = a ∧ v = some x ∨ b ≠ a ∧ h b = some x := by
  rw [Function.update_apply]
  split_ifs with hb
  · simp [hb]
  · simp [hb]

/-- The ways through a call: an early result, a hit and a miss. -/
theorem Kept.call_eq (hS : Kept rs S) {a : ℕ} {o : Obj α} (ho : S.heap a = some o) (i : ι) :
    f.call S a i o = ((none, f.uncached i o.contents), S) ∨
    (∃ copy, S.cache a = some (o.serial, copy) ∧ f.early i o.contents = none ∧
      f.call S a i o = ((some copy, f.finish i o.contents copy), S)) ∨
    (S.cache a = none ∧ f.call S a i o =
      ((some (f.derive o.contents), f.uncached i o.contents),
        { S with cache := Function.update S.cache a (some (o.serial, f.derive o.contents)) })) := by
  unfold Cached.call Cached.uncached
  cases f.early i o.contents with
  | some r => exact .inl rfl
  | none =>
    rcases hS.fetch_eq ho f.derive with ⟨copy, hc, hfetch⟩ | ⟨hc, hfetch⟩
    · exact .inr (.inl ⟨copy, hc, rfl, by rw [hfetch]⟩)
    · exact .inr (.inr ⟨hc, by rw [hfetch]; rfl⟩)

/-- The calls that pass the checks are those that work on a copy. -/
theorem call_copy (f : Cached ι α β γ) (S : State α β) (a : ℕ) (i : ι) (o : Obj α) :
    (f.call S a i o).1.1 ≠ none ↔ f.early i o.contents = none := by
  unfold Cached.call
  cases f.early i o.contents with
  | some r => simp
  | none => simp

theorem Does.passes_iff (h : Does f S ys S') : ∀ r ∈ ys, r.Passes f ↔ r.copy ≠ none := by
  cases h with
  | @call a o hheld ho i =>
    rw [List.forall_mem_singleton]
    exact (call_copy f S a i o).symm
  | _ => exact List.forall_mem_nil _

theorem Kept.call (hS : Kept rs S) {a : ℕ} {o : Obj α} (ho : S.heap a = some o) (i : ι) :
    Kept (rs ++ [⟨o, i, (f.call S a i o).1.1, (f.call S a i o).1.2⟩]) (f.call S a i o).2 := by
  have hentered : ∀ r : Record ι α β γ, ∀ b serial copy, S.cache b = some (serial, copy) →
      ∃ r' ∈ rs ++ [r], r'.object.serial = serial ∧ r'.copy = some copy := by
    intro r b serial copy hb
    obtain ⟨r', hr', hs⟩ := hS.entered b serial copy hb
    exact ⟨r', List.mem_append_left _ hr', hs⟩
  rcases hS.call_eq (f := f) ho i with hcall | ⟨copy, hc, -, hcall⟩ | ⟨hc, hcall⟩
  all_goals rw [hcall]
  · refine ⟨hS.old, hS.unique, hS.alive, List.forall_mem_append.2 ⟨hS.recorded, ?_⟩, hentered _⟩
    exact List.forall_mem_singleton.2 fun copy hcopy => by cases hcopy
  · refine ⟨hS.old, hS.unique, hS.alive, List.forall_mem_append.2 ⟨hS.recorded, ?_⟩, hentered _⟩
    rw [List.forall_mem_singleton]
    intro copy' hcopy
    obtain rfl := Option.some.inj hcopy
    exact ⟨a, hc⟩
  · refine ⟨hS.old, hS.unique, ?_, List.forall_mem_append.2 ⟨?_, ?_⟩, ?_⟩
    · intro b serial copy hb
      rcases update_eq_some.1 hb with ⟨rfl, hentry⟩ | ⟨-, hb⟩
      · obtain ⟨rfl, -⟩ := Prod.mk.inj (Option.some.inj hentry)
        exact ⟨o, ho, rfl⟩
      · exact hS.alive b serial copy hb
    · intro r hr copy hcopy
      obtain ⟨b, hb⟩ := hS.recorded r hr copy hcopy
      refine ⟨b, update_eq_some.2 (.inr ⟨?_, hb⟩)⟩
      rintro rfl
      rw [hc] at hb
      cases hb
    · rw [List.forall_mem_singleton]
      intro copy hcopy
      obtain rfl := Option.some.inj hcopy
      exact ⟨a, Function.update_self ..⟩
    · intro b serial copy hb
      rcases update_eq_some.1 hb with ⟨rfl, hentry⟩ | ⟨-, hb⟩
      · obtain ⟨rfl, rfl⟩ := Prod.mk.inj (Option.some.inj hentry)
        exact ⟨_, List.mem_append_right _ (List.mem_singleton_self _), rfl, rfl⟩
      · exact hentered _ b serial copy hb

/-- A new object under one id, if those under the other ids are others. -/
theorem Kept.update (hS : Kept rs S) {a : ℕ} {o : Obj α} {held : ℕ → Bool} {made : ℕ}
    (hmade : S.made ≤ made) (hold : o.serial < made)
    (hother : ∀ b o', b ≠ a → S.heap b = some o' → o'.serial ≠ o.serial)
    (hcache : ∀ serial copy, S.cache a = some (serial, copy) → o.serial = serial) :
    Kept rs { S with heap := Function.update S.heap a (some o), held := held, made := made } where
  old b o' h := by
    rcases update_eq_some.1 h with ⟨rfl, ho⟩ | ⟨hb, h⟩
    · exact Option.some.inj ho ▸ hold
    · exact lt_of_lt_of_le (hS.old b o' h) hmade
  unique b c o₁ o₂ hb hc hserial := by
    rcases update_eq_some.1 hb with ⟨rfl, ho₁⟩ | ⟨hba, hb'⟩
    · rcases update_eq_some.1 hc with ⟨rfl, -⟩ | ⟨hca, hc'⟩
      · rfl
      · obtain rfl := Option.some.inj ho₁
        exact absurd hserial.symm (hother c o₂ hca hc')
    · rcases update_eq_some.1 hc with ⟨rfl, ho₂⟩ | ⟨hca, hc'⟩
      · obtain rfl := Option.some.inj ho₂
        exact absurd hserial (hother b o₁ hba hb')
      · exact hS.unique b c o₁ o₂ hb' hc' hserial
  alive b serial copy h := by
    by_cases hb : b = a
    · subst hb
      exact ⟨o, Function.update_self .., hcache serial copy h⟩
    · obtain ⟨o', ho', hs⟩ := hS.alive b serial copy h
      exact ⟨o', update_eq_some.2 (.inr ⟨hb, ho'⟩), hs⟩
  recorded := hS.recorded
  entered := hS.entered

/-- **What a program does keeps the cached objects alive.** -/
theorem Kept.does (hS : Kept rs S) (h : Does f S ys S') : Kept (rs ++ ys) S' := by
  cases h with
  | create a x hfree =>
    rw [List.append_nil]
    refine hS.update (Nat.le_succ _) (Nat.lt_succ_self _) ?_ ?_
    · intro b o' _ hb
      exact Nat.ne_of_lt (hS.old b o' hb)
    · intro serial copy hc
      obtain ⟨o, ho, -⟩ := hS.alive a serial copy hc
      rw [hfree] at ho
      cases ho
  | @delete a o hheld ho hcache =>
    rw [List.append_nil]
    have hheap : ∀ {b o'}, Function.update S.heap a none b = some o' →
        S.heap b = some o' := by
      intro b o' hb
      rcases update_eq_some.1 hb with ⟨-, hnone⟩ | ⟨-, hb⟩
      · cases hnone
      · exact hb
    refine ⟨fun b o' hb => hS.old b o' (hheap hb), ?_, ?_, hS.recorded, hS.entered⟩
    · intro b c o₁ o₂ hb hc
      exact hS.unique b c o₁ o₂ (hheap hb) (hheap hc)
    · intro b serial copy hc
      obtain ⟨o', ho', hs⟩ := hS.alive b serial copy hc
      refine ⟨o', update_eq_some.2 (.inr ⟨?_, ho'⟩), hs⟩
      rintro rfl
      rw [ho] at ho'
      obtain rfl := Option.some.inj ho'
      exact hcache b copy (hs ▸ hc)
  | release hheld ho hcache =>
    rw [List.append_nil]
    exact ⟨hS.old, hS.unique, hS.alive, hS.recorded, hS.entered⟩
  | @assign a o hheld ho x =>
    rw [List.append_nil]
    refine hS.update le_rfl (hS.old a o ho) ?_ ?_
    · intro b o' hb hb' hserial
      exact hb (hS.unique b a o' o hb' ho hserial)
    · intro serial copy hc
      obtain ⟨o', ho', hs⟩ := hS.alive a serial copy hc
      rw [ho] at ho'
      obtain rfl := Option.some.inj ho'
      exact hs
  | @call a o hheld ho i =>
    exact hS.call ho i

/-- Two calls that work on a copy of one object work on the same one. -/
theorem Kept.copy_eq (hS : Kept rs S) {r r' : Record ι α β γ} (hr : r ∈ rs) (hr' : r' ∈ rs)
    (hserial : r.object.serial = r'.object.serial) {copy copy' : β} (hc : r.copy = some copy)
    (hc' : r'.copy = some copy') : copy = copy' := by
  obtain ⟨a, ha⟩ := hS.recorded r hr copy hc
  obtain ⟨b, hb⟩ := hS.recorded r' hr' copy' hc'
  obtain ⟨o, ho, hos⟩ := hS.alive a _ _ ha
  obtain ⟨o', ho', hos'⟩ := hS.alive b _ _ hb
  obtain rfl := hS.unique a b o o' ho ho' (hos.trans (hserial.trans hos'.symm))
  rw [ha] at hb
  exact (Prod.mk.inj (Option.some.inj hb)).2

theorem Steady.left (h : Steady f (rs ++ ys)) : Steady f rs := fun r hr r' hr' =>
  h r (List.mem_append_left _ hr) r' (List.mem_append_left _ hr')

/-- A call in a steady run is coherent, if those before it are. -/
theorem coherent_call (hS : Kept rs S) (hrs : ∀ r ∈ rs, Coherent f r)
    (hpass : ∀ r ∈ rs, r.Passes f ↔ r.copy ≠ none) {a : ℕ} {o : Obj α} (ho : S.heap a = some o)
    (i : ι) (hsteady : Steady f (rs ++ [⟨o, i, (f.call S a i o).1.1, (f.call S a i o).1.2⟩])) :
    Coherent f ⟨o, i, (f.call S a i o).1.1, (f.call S a i o).1.2⟩ := by
  rcases hS.call_eq (f := f) ho i with hcall | ⟨copy, hc, hearly, hcall⟩ | ⟨hc, hcall⟩
  · rw [hcall]
    exact ⟨(fun copy hcopy => by cases hcopy), rfl⟩
  · obtain ⟨r, hr, hserial, hcopy⟩ := hS.entered a o.serial copy hc
    have hsame : r.object.contents = o.contents := by
      refine hsteady r (List.mem_append_left _ hr) _
        (List.mem_append_right _ (List.mem_singleton_self _)) ?_ hearly hserial
      rw [hpass r hr, hcopy]
      exact Option.some_ne_none _
    have hderive : copy = f.derive o.contents := by
      rw [(hrs r hr).copy copy hcopy, hsame]
    rw [hcall]
    refine ⟨fun copy' hcopy' => ?_, ?_⟩
    · exact (Option.some.inj hcopy').symm.trans hderive
    · change f.finish i o.contents copy = f.uncached i o.contents
      rw [Cached.uncached, hearly, hderive]
      rfl
  · rw [hcall]
    exact ⟨fun copy hcopy => (Option.some.inj hcopy).symm, rfl⟩

theorem kept_of_trace (h : Trace (Does f) {} rs S) :
    Kept rs S ∧ ∀ r ∈ rs, r.Passes f ↔ r.copy ≠ none := by
  refine h.invariant (P := fun rs S => Kept rs S ∧ ∀ r ∈ rs, r.Passes f ↔ r.copy ≠ none)
    ⟨kept_init, List.forall_mem_nil _⟩ ?_
  rintro rs S ys S' ⟨hkept, hpass⟩ hdoes
  exact ⟨hkept.does hdoes, List.forall_mem_append.2 ⟨hpass, hdoes.passes_iff⟩⟩

/-- In a steady run all calls are coherent. -/
theorem coherent_of_steady (h : Trace (Does f) {} rs S) (hsteady : Steady f rs) :
    ∀ r ∈ rs, Coherent f r := by
  induction h with
  | nil => exact List.forall_mem_nil _
  | @snoc rs ys S S' h hdoes ih =>
    obtain ⟨hkept, hpass⟩ := kept_of_trace h
    have hrs := ih hsteady.left
    cases hdoes with
    | create a x hfree => rwa [List.append_nil]
    | delete hheld ho hcache => rwa [List.append_nil]
    | release hheld ho hcache => rwa [List.append_nil]
    | assign hheld ho x => rwa [List.append_nil]
    | call hheld ho i =>
      refine List.forall_mem_append.2 ⟨hrs, List.forall_mem_singleton.2 ?_⟩
      exact coherent_call hkept hrs hpass ho i hsteady

/-- **The cache is coherent exactly if the objects are steady**: in every run from an empty cache,
every call works on a copy of the contents of its time and returns what it would return with an
empty cache, if and only if any two calls with one object that pass the checks find the same
contents in it. -/
theorem coherent_iff_steady (hinj : Function.Injective f.derive)
    (h : Trace (Does f) {} rs S) : (∀ r ∈ rs, Coherent f r) ↔ Steady f rs := by
  obtain ⟨hkept, hpass⟩ := kept_of_trace h
  refine ⟨fun hco r hr r' hr' hp hp' hserial => ?_, coherent_of_steady h⟩
  obtain ⟨copy, hc⟩ := Option.ne_none_iff_exists'.1 ((hpass r hr).1 hp)
  obtain ⟨copy', hc'⟩ := Option.ne_none_iff_exists'.1 ((hpass r' hr').1 hp')
  apply hinj
  rw [← (hco r hr).copy copy hc, ← (hco r' hr').copy copy' hc']
  exact hkept.copy_eq hr hr' hserial hc hc'

/-- **An assignment between two calls** makes the second one work on the copy from before it. -/
theorem exists_stale {i : ι} {x y : α} (hx : f.early i x = none) (hy : f.early i y = none)
    {stale fresh : γ} (hstale : f.finish i y (f.derive x) = stale) (hfresh : f.uncached i y = fresh)
    (hne : stale ≠ fresh) :
    ∃ rs S, Trace (Does f) {} rs S ∧ ∃ r ∈ rs, ¬ Coherent f r ∧ r.result = stale ∧
      f.uncached r.args r.object.contents = fresh := by
  let S₁ : State α β :=
    { heap := Function.update (fun _ => none) 0 (some ⟨0, x⟩)
      held := Function.update (fun _ => false) 0 true
      made := 1 }
  let S₂ : State α β :=
    { S₁ with cache := Function.update (fun _ => none) 0 (some (0, f.derive x)) }
  let S₃ : State α β := { S₂ with heap := Function.update S₂.heap 0 (some ⟨0, y⟩) }
  have hcall₁ : f.call S₁ 0 i ⟨0, x⟩ = ((some (f.derive x), f.finish i x (f.derive x)), S₂) := by
    rw [Cached.call, hx]
    rfl
  have hcall₂ : f.call S₃ 0 i ⟨0, y⟩ = ((some (f.derive x), f.finish i y (f.derive x)), S₃) := by
    rw [Cached.call, hy]
    rfl
  have h₁ : Trace (Does f) {} [] S₁ := Trace.nil.snoc (.create 0 x rfl)
  have h₂ := h₁.snoc (.call (a := 0) (o := ⟨0, x⟩) rfl rfl i)
  rw [hcall₁] at h₂
  have h₃ : Trace (Does f) {} _ S₃ := h₂.snoc (.assign (a := 0) (o := ⟨0, x⟩) rfl rfl y)
  have h₄ := h₃.snoc (.call (a := 0) (o := ⟨0, y⟩) rfl rfl i)
  rw [hcall₂] at h₄
  refine ⟨_, _, h₄, _, List.mem_append_right _ (List.mem_singleton_self _), fun hco => hne ?_,
    hstale, hfresh⟩
  rw [← hstale, ← hfresh]
  exact hco.result

end Runs

end IdentityCache
