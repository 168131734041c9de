import Mathlib.Data.List.Basic

/-!
# Descriptor tables

The open descriptors of a process: cell `fd` of the table holds what is open as `fd`. A new
descriptor gets the lowest free number, and closing one that is not open does nothing.

* `FdTable.openAs`, `FdTable.close`, `FdTable.closeAll`;
* **`FdTable.get_openAs`**, **`FdTable.get_closeAll`**: the cells afterwards; `FdTable.get_lowest`;
* `FdTable.Holds`: something is open in the process; `FdTable.holds_iff_mem`.
-/

namespace Descriptors

variable {δ : Type}

/-- The table of one process. -/
structure FdTable (δ : Type) where
  cells : List (Option δ)
  deriving Repr, DecidableEq

namespace FdTable

/-- What is open as `fd`. -/
def get (t : FdTable δ) (fd : ℕ) : Option δ := t.cells[fd]?.join

/-- The lowest number that is free. -/
def lowest (t : FdTable δ) : ℕ := t.cells.findIdx Option.isNone

/-- Opens `d`: its number, and the table. -/
def openAs (t : FdTable δ) (d : δ) : ℕ × FdTable δ :=
  (t.lowest, ⟨if t.lowest < t.cells.length then t.cells.set t.lowest (some d)
    else t.cells ++ [some d]⟩)

/-- Closes `fd`. -/
def close (t : FdTable δ) (fd : ℕ) : FdTable δ := ⟨t.cells.set fd none⟩

/-- Closes a list of descriptors. -/
def closeAll (t : FdTable δ) (fds : List ℕ) : FdTable δ := fds.foldl close t

/-- The process has `d` open. -/
def Holds (t : FdTable δ) (d : δ) : Prop := ∃ fd, t.get fd = some d

variable {t : FdTable δ} {d : δ} {fd : ℕ}

@[simp] theorem get_lowest (t : FdTable δ) : t.get t.lowest = none := by
  unfold get lowest
  rcases Nat.lt_or_ge (t.cells.findIdx Option.isNone) t.cells.length with h | h
  · have hnone := List.findIdx_getElem (w := h)
    rw [List.getElem?_eq_getElem h, Option.isNone_iff_eq_none.1 hnone]
    rfl
  · rw [List.getElem?_eq_none h]
    rfl

/-- **The table after opening a descriptor.** -/
theorem get_openAs (t : FdTable δ) (d : δ) (fd : ℕ) :
    (t.openAs d).2.get fd = if fd = t.lowest then some d else t.get fd := by
  have hle : t.lowest ≤ t.cells.length := List.findIdx_le_length
  unfold openAs get
  dsimp only
  split_ifs with hlt hfd hfd
  · rw [hfd, List.getElem?_set_self hlt]
    rfl
  · rw [List.getElem?_set_ne (Ne.symm hfd)]
  · have hlen : fd = t.cells.length := by omega
    rw [hlen, List.getElem?_concat_length]
    rfl
  · rcases Nat.lt_or_ge fd t.cells.length with h | h
    · rw [List.getElem?_append_left h]
    · rw [List.getElem?_eq_none h, List.getElem?_eq_none]
      rw [List.length_append, List.length_singleton]
      omega

/-- The table after closing a descriptor. -/
theorem get_close (t : FdTable δ) (fd fd' : ℕ) :
    (t.close fd).get fd' = if fd' = fd then none else t.get fd' := by
  unfold close get
  dsimp only
  split_ifs with h
  · rw [h]
    rcases Nat.lt_or_ge fd t.cells.length with hlt | hge
    · rw [List.getElem?_set_self hlt]
      rfl
    · rw [List.getElem?_eq_none (by simpa using hge)]
      rfl
  · rw [List.getElem?_set_ne (Ne.symm h)]

@[simp] theorem closeAll_nil (t : FdTable δ) : t.closeAll [] = t := rfl

@[simp] theorem closeAll_cons (t : FdTable δ) (fd : ℕ) (fds : List ℕ) :
    t.closeAll (fd :: fds) = (t.close fd).closeAll fds := rfl

/-- **The table after closing a list of descriptors.** -/
theorem get_closeAll (t : FdTable δ) (fds : List ℕ) (fd : ℕ) :
    (t.closeAll fds).get fd = if fd ∈ fds then none else t.get fd := by
  induction fds generalizing t with
  | nil => simp
  | cons fd' fds ih =>
    rw [closeAll_cons, ih, get_close]
    by_cases h : fd ∈ fds
    · rw [if_pos h, if_pos (List.mem_cons_of_mem fd' h)]
    · rw [if_neg h]
      by_cases heq : fd = fd'
      · rw [if_pos heq, if_pos (heq ▸ List.mem_cons_self)]
      · rw [if_neg heq, if_neg (by simp [heq, h])]

theorem holds_iff_mem : t.Holds d ↔ some d ∈ t.cells := by
  rw [List.mem_iff_getElem?]
  unfold Holds get
  apply exists_congr
  intro fd
  cases h : t.cells[fd]? with
  | none => simp
  | some o => simp

instance [DecidableEq δ] (t : FdTable δ) (d : δ) : Decidable (t.Holds d) :=
  decidable_of_iff _ holds_iff_mem.symm

end FdTable

end Descriptors
