import Mathlib.Data.List.Nodup

/-!
# Writing keyed entries to a board

A board is a list of cells, each empty or filled. Every element of a list of entries has a position
on the board and a value for its cell.

* `overwriteAll`: every entry overwrites its cell; `fillAll`: an entry only takes an empty cell;
* **`getElem?_overwriteAll`**, **`getElem?_fillAll`**: the cells afterwards; `overwriteAll_range`:
  all cells of a blank board;
* `find?_eq_some_of_nodup`, `find?_eq_none_of_notMem`: the entry of a position;
* `Grows`, `Fills`: one board holds more than another, and where;
* **`FillsCell.foldlM_eq_none`**, **`FillsCell.fills`**: a loop that fills a cell at each step.
-/

namespace Scatter

variable {α β : Type} [DecidableEq β] {pos : α → ℕ} {f : α → β}

/-- Every entry overwrites the cell at its position. -/
def overwriteAll (pos : α → ℕ) (f : α → β) (as : List α) (b : List (Option β)) : List (Option β) :=
  as.foldl (fun b a => b.set (pos a) (some (f a))) b

/-- Every entry takes the cell at its position if that is still empty. -/
def fillAll (pos : α → ℕ) (f : α → β) (as : List α) (b : List (Option β)) : List (Option β) :=
  as.foldl (fun b a => if b[pos a]? = some none then b.set (pos a) (some (f a)) else b) b

omit [DecidableEq β] in
theorem overwriteAll_cons (a : α) (as : List α) (b : List (Option β)) :
    overwriteAll pos f (a :: as) b = overwriteAll pos f as (b.set (pos a) (some (f a))) := rfl

theorem fillAll_cons (a : α) (as : List α) (b : List (Option β)) :
    fillAll pos f (a :: as) b =
      fillAll pos f as (if b[pos a]? = some none then b.set (pos a) (some (f a)) else b) := rfl

omit [DecidableEq β] in
@[simp] theorem length_overwriteAll (as : List α) (b : List (Option β)) :
    (overwriteAll pos f as b).length = b.length := by
  induction as generalizing b with
  | nil => rfl
  | cons a as ih => rw [overwriteAll_cons, ih, List.length_set]

@[simp] theorem length_fillAll (as : List α) (b : List (Option β)) :
    (fillAll pos f as b).length = b.length := by
  induction as generalizing b with
  | nil => rfl
  | cons a as ih =>
    rw [fillAll_cons, ih]
    split
    · exact List.length_set
    · rfl

theorem find?_eq_none_of_notMem {as : List α} {p : ℕ} (hp : p ∉ as.map pos) :
    as.find? (fun a => pos a = p) = none := by
  rw [List.find?_eq_none]
  intro a ha h
  exact hp (List.mem_map.2 ⟨a, ha, by simpa using h⟩)

/-- The element of a list with distinct positions that has the position of a member. -/
theorem find?_eq_some_of_nodup {as : List α} (hnd : (as.map pos).Nodup) {a : α} (ha : a ∈ as) :
    as.find? (fun x => pos x = pos a) = some a := by
  induction as with
  | nil => cases ha
  | cons x as ih =>
    rw [List.map_cons, List.nodup_cons] at hnd
    obtain rfl | ha := List.mem_cons.1 ha
    · simp
    · have hne : pos x ≠ pos a := fun h => hnd.1 (h ▸ List.mem_map_of_mem ha)
      rw [List.find?_cons_of_neg (by simpa using hne), ih hnd.2 ha]

omit [DecidableEq β] in
/-- **A cell after overwriting** with entries of distinct positions. -/
theorem getElem?_overwriteAll {as : List α} (hnd : (as.map pos).Nodup) (b : List (Option β))
    (p : ℕ) :
    (overwriteAll pos f as b)[p]? =
      b[p]?.map fun o => ((as.find? fun a => pos a = p).map f).or o := by
  induction as generalizing b with
  | nil => simp [overwriteAll]
  | cons a as ih =>
    rw [List.map_cons, List.nodup_cons] at hnd
    rw [overwriteAll_cons, ih hnd.2]
    by_cases hp : pos a = p
    · subst hp
      rw [find?_eq_none_of_notMem hnd.1, List.getElem?_set_self', List.find?_cons_of_pos (by simp)]
      cases b[pos a]? <;> rfl
    · rw [List.getElem?_set_ne hp, List.find?_cons_of_neg (by simpa using hp)]

omit [DecidableEq β] in
/-- The cell of an entry on a blank board. -/
theorem getElem?_overwriteAll_of_mem {ws : List (ℕ × β)} (hnd : (ws.map Prod.fst).Nodup)
    {n p : ℕ} {x : β} (hmem : (p, x) ∈ ws) (hp : p < n) :
    (overwriteAll Prod.fst Prod.snd ws (List.replicate n none))[p]? = some (some x) := by
  have hfind := find?_eq_some_of_nodup hnd hmem
  rw [getElem?_overwriteAll hnd, hfind, List.getElem?_replicate, if_pos hp]
  rfl

omit [DecidableEq β] in
/-- Entries for all cells of a blank board, in whatever order they come. -/
theorem overwriteAll_range {ws ws' : List (ℕ × β)} {n : ℕ}
    (hkeys : ws.map Prod.fst = List.range n) (hperm : ws'.Perm ws) :
    overwriteAll Prod.fst Prod.snd ws' (List.replicate n none) =
      (ws.map Prod.snd).map some := by
  have hlen : ws.length = n := by
    rw [← List.length_map Prod.fst, hkeys, List.length_range]
  have hnd : (ws'.map Prod.fst).Nodup := by
    rw [(hperm.map Prod.fst).nodup_iff, hkeys]
    exact List.nodup_range
  apply List.ext_getElem?
  intro p
  by_cases hp : p < n
  · have hw : p < ws.length := hlen.symm ▸ hp
    have hkey : ws[p].1 = p := by
      have := congrArg (fun l => l[p]?) hkeys
      simpa [hw, hp] using this
    have hentry : (p, ws[p].2) = ws[p] := Prod.ext hkey.symm rfl
    have hmem : (p, ws[p].2) ∈ ws' := by
      rw [hperm.mem_iff, hentry]
      exact List.getElem_mem hw
    rw [getElem?_overwriteAll_of_mem hnd hmem hp]
    simp [hw]
  · rw [List.getElem?_eq_none (by simpa using hp), List.getElem?_eq_none (by simp; omega)]

/-- **A cell after filling**: what it held, or else the first entry for it. -/
theorem getElem?_fillAll (as : List α) (b : List (Option β)) (p : ℕ) :
    (fillAll pos f as b)[p]? =
      b[p]?.map fun o => o.or ((as.find? fun a => pos a = p).map f) := by
  induction as generalizing b with
  | nil => simp [fillAll]
  | cons a as ih =>
    rw [fillAll_cons, ih]
    by_cases hp : pos a = p
    · subst hp
      rw [List.find?_cons_of_pos (by simp)]
      cases hb : b[pos a]? with
      | none =>
        rw [if_neg (by simp), hb]
        rfl
      | some o =>
        cases o with
        | none =>
          rw [if_pos rfl, List.getElem?_set_self', hb]
          rfl
        | some y =>
          rw [if_neg (by simp), hb]
          rfl
    · rw [List.find?_cons_of_neg (by simpa using hp)]
      congr 1
      split
      · exact List.getElem?_set_ne hp
      · rfl

/-! ## Loops that fill cells -/

section Loops

variable {b b' b'' : List (Option β)} {ps : List ℕ} {p : ℕ}

/-- The boards have the same cells, and what is filled in `b` is filled in `b'`. -/
structure Grows (b b' : List (Option β)) : Prop where
  length : b'.length = b.length
  kept : ∀ (p : ℕ) x, b[p]? = some (some x) → ∃ y, b'[p]? = some (some y)

/-- The cells `ps` are filled in `b'`, the others are as in `b`. -/
structure Fills (ps : List ℕ) (b b' : List (Option β)) : Prop where
  length : b'.length = b.length
  filled : ∀ p ∈ ps, ∃ y, b'[p]? = some (some y)
  others : ∀ p : ℕ, p ∉ ps → b'[p]? = b[p]?

omit [DecidableEq β]

theorem Grows.refl (b : List (Option β)) : Grows b b := ⟨rfl, fun _ x h => ⟨x, h⟩⟩

theorem Grows.trans (h : Grows b b') (h' : Grows b' b'') : Grows b b'' where
  length := h'.length.trans h.length
  kept p x hx := by
    obtain ⟨y, hy⟩ := h.kept p x hx
    exact h'.kept p y hy

theorem Fills.grows (h : Fills ps b b') : Grows b b' where
  length := h.length
  kept p x hx := by
    by_cases hp : p ∈ ps
    · exact h.filled p hp
    · exact ⟨x, (h.others p hp).trans hx⟩

theorem fills_set (hp : p < b.length) (x : β) : Fills [p] b (b.set p (some x)) where
  length := List.length_set
  filled q hq := by
    rw [List.mem_singleton.1 hq]
    exact ⟨x, List.getElem?_set_self hp⟩
  others q hq := List.getElem?_set_ne fun h => hq (List.mem_singleton.2 h.symm)

theorem Fills.cons (h : Fills [p] b b') (h' : Fills ps b' b'') : Fills (p :: ps) b b'' where
  length := h'.length.trans h.length
  filled := by
    refine List.forall_mem_cons.2 ⟨?_, h'.filled⟩
    obtain ⟨x, hx⟩ := h.filled p List.mem_cons_self
    exact h'.grows.kept p x hx
  others q hq := by
    rw [List.mem_cons, not_or] at hq
    rw [h'.others q hq.2, h.others q (by simpa using hq.1)]

/-- `step` fills the cell of its element, and fails if there is none. -/
structure FillsCell (pos : α → ℕ) (step : List (Option β) → α → Option (List (Option β))) :
    Prop where
  within : ∀ b a, pos a < b.length → ∃ b', step b a = some b' ∧ Fills [pos a] b b'
  outside : ∀ b a, b.length ≤ pos a → step b a = none

variable {step : List (Option β) → α → Option (List (Option β))}

/-- **Such a loop fails at the first position that does not exist.** -/
theorem FillsCell.foldlM_eq_none (h : FillsCell pos step) (as : List α) (b : List (Option β)) :
    as.foldlM step b = none ↔ ∃ a ∈ as, b.length ≤ pos a := by
  induction as generalizing b with
  | nil => simp
  | cons a as ih =>
    rw [List.foldlM_cons, List.exists_mem_cons_iff]
    rcases Nat.lt_or_ge (pos a) b.length with ha | ha
    · obtain ⟨b', hb', hfill⟩ := h.within b a ha
      rw [hb', ← hfill.length]
      refine (ih b').trans (or_iff_right ?_).symm
      rw [hfill.length]
      exact Nat.not_le.2 ha
    · rw [h.outside b a ha]
      exact iff_of_true rfl (.inl ha)

/-- **And otherwise fills the cells of all elements.** -/
theorem FillsCell.fills (h : FillsCell pos step) {as : List α}
    (hrun : as.foldlM step b = some b') : Fills (as.map pos) b b' := by
  induction as generalizing b with
  | nil =>
    rw [← Option.some.inj hrun]
    exact ⟨rfl, List.forall_mem_nil _, fun _ _ => rfl⟩
  | cons a as ih =>
    rw [List.foldlM_cons] at hrun
    rcases Nat.lt_or_ge (pos a) b.length with ha | ha
    · obtain ⟨mid, hmid, hfill⟩ := h.within b a ha
      rw [hmid] at hrun
      exact hfill.cons (ih hrun)
    · rw [h.outside b a ha] at hrun
      cases hrun

end Loops

end Scatter
