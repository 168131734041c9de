import AetherMoE.Orchestration.Batch

/-!
# Strict reassembly

* `foldlM_place`: results with distinct positions within an empty board are all placed;
* `collect_eq`: a full board is read off;
* **`reassemble_of_perm`**: results whose positions are `0..n-1` in some order are put in order;
* `of_foldlM_place`, `eq_map_some_of_collect`: what a run that returns has checked;
* **`reassemble_exact`**: these are the results that are accepted, all others raise an error.
-/

namespace AetherMoE

open Scatter

namespace Router

variable {n : ℕ} {flat : List RoutedResult}

theorem foldlM_place {board : Board} (hnd : (flat.map RoutedResult.place).Nodup)
    (hfree : ∀ result ∈ flat, board[result.place]? = some none) :
    flat.foldlM (place n) board = .ok (overwriteAll RoutedResult.place id flat board) := by
  induction flat generalizing board with
  | nil => rfl
  | cons result flat ih =>
    rw [List.map_cons, List.nodup_cons] at hnd
    rw [List.forall_mem_cons] at hfree
    have hplace : place n board result = .ok (board.set result.place (some result)) := by
      unfold place
      rw [show board[result.batchPosition.toNat]? = some none from hfree.1]
      rfl
    have hrest : ∀ x ∈ flat, (board.set result.place (some result))[x.place]? = some none := by
      intro x hx
      have hne : result.place ≠ x.place := fun heq => hnd.1 (heq ▸ List.mem_map_of_mem hx)
      rw [List.getElem?_set_ne hne]
      exact hfree.2 x hx
    rw [List.foldlM_cons, hplace, overwriteAll_cons]
    exact ih hnd.2 hrest

/-- `collect`, from position `k` on. -/
def collectFrom (k : ℕ) (board : Board) : Except Exn (List RoutedResult) :=
  (board.zipIdx k).mapM fun p =>
    match p.1 with
    | some result => .ok result
    | none => .error (.missingResult p.2)

theorem collectFrom_some (k : ℕ) (result : RoutedResult) (board : Board) :
    collectFrom k (some result :: board) = (collectFrom (k + 1) board).map (result :: ·) := by
  rw [collectFrom, List.zipIdx_cons, List.mapM_cons]
  change (collectFrom (k + 1) board).bind _ = _
  cases collectFrom (k + 1) board <;> rfl

/-- A full board is read off. -/
theorem collect_eq (ordered : List RoutedResult) : collect (ordered.map some) = .ok ordered := by
  suffices h : ∀ k, collectFrom k (ordered.map some) = .ok ordered from h 0
  induction ordered with
  | nil => exact fun _ => rfl
  | cons result ordered ih =>
    intro k
    rw [List.map_cons, collectFrom_some, ih]
    rfl

/-- The results in the order of their positions. -/
def inPlace (n : ℕ) (flat : List RoutedResult) : List RoutedResult :=
  (List.range n).map fun p => (flat.find? fun result => result.place = p).getD {}

/-- **Results for all positions are put in order.** -/
theorem reassemble_of_perm (h : (flat.map RoutedResult.place).Perm (List.range n)) :
    reassemble n flat = .ok (inPlace n flat) := by
  have hnd : (flat.map RoutedResult.place).Nodup := h.nodup_iff.2 List.nodup_range
  have hlt : ∀ result ∈ flat, result.place < n := fun result hr =>
    List.mem_range.1 (h.mem_iff.1 (List.mem_map_of_mem hr))
  have hfree : ∀ result ∈ flat, (List.replicate n (none : Option RoutedResult))[result.place]? =
      some none := by
    intro result hr
    rw [List.getElem?_replicate, if_pos (hlt result hr)]
  have hboard : overwriteAll RoutedResult.place id flat (List.replicate n none) =
      (inPlace n flat).map some := by
    ext1 p
    rw [getElem?_overwriteAll hnd, inPlace, List.map_map, List.getElem?_map,
      List.getElem?_replicate]
    by_cases hp : p < n
    · obtain ⟨result, hr, rfl⟩ := List.mem_map.1 (h.mem_iff.2 (List.mem_range.2 hp))
      rw [if_pos hp, List.getElem?_range hp]
      simp [find?_eq_some_of_nodup hnd hr]
    · rw [if_neg hp, List.getElem?_eq_none (by simpa using hp)]
      rfl
  rw [reassemble, foldlM_place hnd hfree, hboard]
  exact collect_eq _

/-! ## What is accepted -/

/-- One result is placed exactly if its cell exists and is empty. -/
theorem place_eq_ok {board board' : Board} {result : RoutedResult}
    (h : place n board result = .ok board') :
    board[result.place]? = some none ∧ board' = board.set result.place (some result) := by
  unfold place at h
  split at h
  · cases h
  · cases h
  · exact ⟨‹_›, (Except.ok.inj h).symm⟩

/-- The loop has checked that the positions are distinct and their cells empty. -/
theorem of_foldlM_place {board board' : Board} (h : flat.foldlM (place n) board = .ok board') :
    (flat.map RoutedResult.place).Nodup ∧ ∀ result ∈ flat, board[result.place]? = some none := by
  induction flat generalizing board with
  | nil => exact ⟨List.nodup_nil, List.forall_mem_nil _⟩
  | cons result flat ih =>
    rw [List.foldlM_cons] at h
    cases hplace : place n board result with
    | error e =>
      rw [hplace] at h
      cases h
    | ok next =>
      rw [hplace] at h
      obtain ⟨hcell, rfl⟩ := place_eq_ok hplace
      obtain ⟨hnd, hrest⟩ := ih h
      -- a later result for the same cell would have found it taken
      have hne : ∀ u ∈ flat, result.place ≠ u.place := by
        intro u hu heq
        have htaken := hrest u hu
        rw [heq, List.getElem?_set_self'] at htaken
        cases hu' : board[u.place]? <;> simp [hu'] at htaken
      refine ⟨List.nodup_cons.2 ⟨fun hmem => ?_, hnd⟩,
        List.forall_mem_cons.2 ⟨hcell, fun u hu => ?_⟩⟩
      · obtain ⟨u, hu, heq⟩ := List.mem_map.1 hmem
        exact hne u hu heq.symm
      · rw [← List.getElem?_set_ne (hne u hu), hrest u hu]

/-- What is read off is a full board. -/
theorem eq_map_some_of_collect {board : Board} {ordered : List RoutedResult}
    (h : collect board = .ok ordered) : board = ordered.map some := by
  change collectFrom 0 board = .ok ordered at h
  generalize 0 = k at h
  induction board generalizing ordered k with
  | nil =>
    rw [← Except.ok.inj h]
    rfl
  | cons cell board ih =>
    cases cell with
    | none => cases h
    | some result =>
      rw [collectFrom_some] at h
      cases hrest : collectFrom (k + 1) board with
      | error e =>
        rw [hrest] at h
        cases h
      | ok rest =>
        rw [hrest] at h
        rw [← Except.ok.inj h, ih (k + 1) hrest]
        rfl

/-- What stops the reading is an empty cell. -/
theorem collect_error {board : Board} {e : Exn} (h : collect board = .error e) :
    ∃ p, e = .missingResult p := by
  change collectFrom 0 board = .error e at h
  generalize 0 = k at h
  induction board generalizing k with
  | nil => cases h
  | cons cell board ih =>
    cases cell with
    | none => exact ⟨k, (Except.error.inj h).symm⟩
    | some result =>
      rw [collectFrom_some] at h
      cases hrest : collectFrom (k + 1) board with
      | error e' =>
        rw [hrest] at h
        obtain rfl : e' = e := Except.error.inj h
        exact ih (k + 1) hrest
      | ok rest =>
        rw [hrest] at h
        cases h

/-- What stops the placing is a position out of range or taken. -/
theorem foldlM_place_error {board : Board} {e : Exn}
    (h : flat.foldlM (place n) board = .error e) :
    (∃ p, e = .positionOutOfRange p n) ∨ ∃ p, e = .duplicateResult p := by
  induction flat generalizing board with
  | nil => cases h
  | cons result flat ih =>
    rw [List.foldlM_cons, place] at h
    split at h
    · exact .inl ⟨_, (Except.error.inj h).symm⟩
    · exact .inr ⟨_, (Except.error.inj h).symm⟩
    · exact ih h

/-- **What is accepted is a permutation.** Distinct positions within `n` cells that leave no cell
empty are all of `0..n-1`. -/
theorem perm_of_reassemble {ordered : List RoutedResult} (h : reassemble n flat = .ok ordered) :
    (flat.map RoutedResult.place).Perm (List.range n) := by
  rw [reassemble] at h
  cases hloop : flat.foldlM (place n) (List.replicate n none) with
  | error e =>
    rw [hloop] at h
    cases h
  | ok board =>
    rw [hloop] at h
    obtain ⟨hnd, hfree⟩ := of_foldlM_place hloop
    rw [foldlM_place hnd hfree] at hloop
    have hfull := eq_map_some_of_collect h
    rw [← Except.ok.inj hloop] at hfull
    refine (List.perm_ext_iff_of_nodup hnd List.nodup_range).2 fun p => ?_
    rw [List.mem_range]
    constructor
    · intro hp
      obtain ⟨result, hr, rfl⟩ := List.mem_map.1 hp
      have hcell := hfree result hr
      rw [List.getElem?_replicate] at hcell
      by_contra hge
      rw [if_neg hge] at hcell
      cases hcell
    · intro hp
      by_contra hmissing
      have hcell := congrArg (fun b : Board => b[p]?) hfull
      rw [getElem?_overwriteAll hnd, find?_eq_none_of_notMem hmissing, List.getElem?_replicate,
        if_pos hp, List.getElem?_map] at hcell
      cases ho : ordered[p]? <;> simp [ho] at hcell

/-- Each error is one of the three checks. -/
theorem reassemble_error {e : Exn} (h : reassemble n flat = .error e) :
    (∃ p, e = .positionOutOfRange p n) ∨ (∃ p, e = .duplicateResult p) ∨
      ∃ p, e = .missingResult p := by
  rw [reassemble] at h
  cases hfill : flat.foldlM (place n) (List.replicate n none) with
  | error e' =>
    rw [hfill] at h
    obtain rfl : e' = e := Except.error.inj h
    exact (foldlM_place_error hfill).imp_right .inl
  | ok board =>
    rw [hfill] at h
    exact .inr (.inr (collect_error h))

/-- Where each result ends up. -/
theorem getElem?_inPlace (h : (flat.map RoutedResult.place).Perm (List.range n)) {p : ℕ}
    (hp : p < n) : ∃ result ∈ flat, (inPlace n flat)[p]? = some result ∧ result.place = p ∧
      ∀ u ∈ flat, u.place = p → u = result := by
  have hnd : (flat.map RoutedResult.place).Nodup := h.nodup_iff.2 List.nodup_range
  obtain ⟨result, hr, rfl⟩ := List.mem_map.1 (h.mem_iff.2 (List.mem_range.2 hp))
  refine ⟨result, hr, ?_, rfl, fun u hu heq => List.inj_on_of_nodup_map hnd hu hr heq⟩
  rw [inPlace, List.getElem?_map, List.getElem?_range hp, Option.map_some,
    find?_eq_some_of_nodup hnd hr, Option.getD_some]

/-- **Strict reassembly is exact.** It returns exactly if the positions are `0..n-1` in some order,
and then with the result of each position in its place; otherwise one of its checks raises. -/
theorem reassemble_exact (n : ℕ) (flat : List RoutedResult) :
    ((∃ ordered, reassemble n flat = .ok ordered) ↔
      (flat.map RoutedResult.place).Perm (List.range n)) ∧
    (∀ ordered, reassemble n flat = .ok ordered → ordered.length = n ∧
      ∀ p < n, ∃ result ∈ flat, ordered[p]? = some result ∧ result.place = p ∧
        ∀ u ∈ flat, u.place = p → u = result) ∧
    (¬(flat.map RoutedResult.place).Perm (List.range n) → ∃ e, reassemble n flat = .error e ∧
      ((∃ p, e = .positionOutOfRange p n) ∨ (∃ p, e = .duplicateResult p) ∨
        ∃ p, e = .missingResult p)) := by
  refine ⟨⟨?_, ?_⟩, ?_, ?_⟩
  · rintro ⟨ordered, h⟩
    exact perm_of_reassemble h
  · exact fun h => ⟨_, reassemble_of_perm h⟩
  · intro ordered h
    have hperm := perm_of_reassemble h
    rw [reassemble_of_perm hperm] at h
    rw [← Except.ok.inj h]
    exact ⟨by simp [inPlace], fun p hp => getElem?_inPlace hperm hp⟩
  · intro hperm
    cases h : reassemble n flat with
    | ok ordered => exact absurd (perm_of_reassemble h) hperm
    | error e => exact ⟨e, rfl, reassemble_error h⟩

end Router

end AetherMoE
