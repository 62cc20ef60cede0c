import Mathlib.Data.List.Basic

/-!
# HolyGrail.Pieces

Cutting a list into pieces of a fixed length in one pass.  The open piece is an
accumulator: it is closed when it is full, and whatever is left at the end of the
list is the last piece.
-/

namespace HolyGrail.Pieces

variable {α : Type u} {n : Nat}

/-- The rest of a list cut into pieces of `n`, with the open piece. -/
def cutFrom (n : Nat) (piece : List α) : List α → List (List α)
  | [] => if piece.length > 0 then [piece] else []
  | x :: rest =>
      if piece.length + 1 = n then (piece ++ [x]) :: cutFrom n [] rest
      else cutFrom n (piece ++ [x]) rest

/-- **Nothing is lost** at a boundary or at the end. -/
theorem flatten_cutFrom (piece rest : List α) :
    (cutFrom n piece rest).flatten = piece ++ rest := by
  induction rest generalizing piece with
  | nil =>
      rw [cutFrom, List.append_nil]
      split
      · rw [List.flatten_singleton]
      · next h => rw [List.length_eq_zero_iff.mp (Nat.eq_zero_of_not_pos h), List.flatten_nil]
  | cons x rest ih =>
      rw [cutFrom]
      split
      · rw [List.flatten_cons, ih, List.nil_append, List.append_assoc, List.singleton_append]
      · rw [ih, List.append_assoc, List.singleton_append]

/-- No piece is empty, and while the open piece is short of `n` no piece is
longer than that. -/
theorem length_of_mem {piece rest c : List α} (hpiece : piece.length < n)
    (h : c ∈ cutFrom n piece rest) : 0 < c.length ∧ c.length ≤ n := by
  induction rest generalizing piece with
  | nil =>
      rw [cutFrom] at h
      split at h
      · next hpos =>
          rw [List.mem_singleton] at h
          rw [h]
          exact ⟨hpos, Nat.le_of_lt hpiece⟩
      · contradiction
  | cons x rest ih =>
      have hlen : (piece ++ [x]).length = piece.length + 1 := by
        rw [List.length_append, List.length_singleton]
      rw [cutFrom] at h
      split at h
      · next hfull =>
          rw [List.mem_cons] at h
          rcases h with rfl | h
          · omega
          · exact ih (by rw [List.length_nil]; omega) h
      · next hopen => exact ih (by omega) h

/-- Every piece but the last is full. -/
theorem length_of_mem_dropLast {piece rest c : List α} (hpiece : piece.length < n)
    (h : c ∈ (cutFrom n piece rest).dropLast) : c.length = n := by
  induction rest generalizing piece with
  | nil =>
      rw [cutFrom] at h
      split at h <;> simp at h
  | cons x rest ih =>
      rw [cutFrom] at h
      split at h
      · next hfull =>
          have hnil : ([] : List α).length < n := by rw [List.length_nil]; omega
          cases hrest : cutFrom n [] rest with
          | nil =>
              rw [hrest] at h
              contradiction
          | cons c' cs =>
              rw [hrest, List.dropLast_cons_cons, List.mem_cons] at h
              rcases h with rfl | h
              · rw [List.length_append, List.length_singleton, hfull]
              · exact ih hnil (hrest ▸ h)
      · next hopen =>
          refine ih ?_ h
          rw [List.length_append, List.length_singleton]
          omega

end HolyGrail.Pieces
