import HolyGrail.Bytes

/-!
# HolyGrail.Checked

Code that may panic, or run forever.

A computation that may panic is `Checked`: slices, indices, conversions to an
array and additions of `usize` panic where those of the language do.  A `while`
loop is run for a number of rounds; its body leaves with a result or goes on in
another state.  That code is safe and ends is then an equation: the computation
is `.ok`, and enough rounds give `some` result.
-/

namespace HolyGrail

/-! ## panics -/

/-- Why a computation panics. -/
inductive Panic where
  | sliceIndex
  | index
  | conversion
  | overflow
  deriving DecidableEq, Repr

/-- A computation that may panic. -/
abbrev Checked (α : Type u) := Except Panic α

namespace Checked

variable {α : Type u} {bs : List α}

@[simp] theorem ok_bind {β : Type u} (a : α) (f : α → Checked β) :
    ((.ok a : Checked α) >>= f) = f a := rfl

/-- `&bs[lo..hi]`. -/
def slice (bs : List α) (lo hi : Nat) : Checked (List α) :=
  if lo ≤ hi ∧ hi ≤ bs.length then .ok (HolyGrail.slice bs lo hi) else .error .sliceIndex

/-- `bs[i]`. -/
def index (bs : List α) (i : Nat) : Checked α :=
  match bs[i]? with
  | none => .error .index
  | some b => .ok b

/-- `<[T; w]>::try_from(bs).unwrap()`. -/
def toArray (w : Nat) (bs : List α) : Checked (List α) :=
  if bs.length = w then .ok bs else .error .conversion

/-- `m + n`, of two `usize` of 64 bits. -/
def add (m n : Nat) : Checked Nat :=
  if m + n < 2 ^ 64 then .ok (m + n) else .error .overflow

/-- The `w`-byte little-endian integer in `bs[lo..hi]`. -/
def fromLeBytes (w : Nat) (bs : Bytes) (lo hi : Nat) : Checked Nat := do
  let part ← slice bs lo hi
  let word ← toArray w part
  return leNat word

theorem slice_eq {lo hi : Nat} (h : lo ≤ hi) (hhi : hi ≤ bs.length) :
    slice bs lo hi = .ok (HolyGrail.slice bs lo hi) := if_pos ⟨h, hhi⟩

/-- `&bs[lo..]`. -/
theorem slice_length {lo : Nat} (h : lo ≤ bs.length) :
    slice bs lo bs.length = .ok (bs.drop lo) := by
  rw [slice_eq h (Nat.le_refl _), HolyGrail.slice, List.take_of_length_le]
  rw [List.length_drop]

theorem index_eq {i : Nat} (h : i < bs.length) : index bs i = .ok bs[i] := by
  rw [index, List.getElem?_eq_getElem h]

theorem add_eq {m n : Nat} (h : m + n < 2 ^ 64) : add m n = .ok (m + n) := if_pos h

theorem fromLeBytes_eq {w : Nat} {bs : Bytes} {lo hi : Nat} (h : lo + w = hi)
    (hhi : hi ≤ bs.length) : fromLeBytes w bs lo hi = .ok (leNat (HolyGrail.slice bs lo hi)) := by
  have hword : (HolyGrail.slice bs lo hi).length = w := by
    rw [length_slice hhi]
    omega
  rw [fromLeBytes, slice_eq (by omega) hhi, ok_bind, toArray, if_pos hword]
  rfl

end Checked

/-! ## loops -/

namespace Loop

/-- What a round of a loop does. -/
inductive Round (σ : Type u) (ρ : Type v) where
  | again (s : σ)
  | done (r : ρ)

/-- Run a loop for a number of rounds: `none` if it has not left by then. -/
def run (body : σ → Round σ ρ) : Nat → σ → Option ρ
  | 0, _ => none
  | rounds + 1, s =>
      match body s with
      | .done r => some r
      | .again s' => run body rounds s'

/-- **Variant rule**: a loop whose rounds keep an invariant and lower a number by
at least `d` leaves within `variant / d + 1` rounds. -/
theorem run_of_variant {body : σ → Round σ ρ} (Inv : σ → Prop) (Post : ρ → Prop)
    (variant : σ → Nat) {d : Nat} (hd : 0 < d)
    (hagain : ∀ s s', Inv s → body s = .again s' → Inv s' ∧ variant s' + d ≤ variant s)
    (hdone : ∀ s r, Inv s → body s = .done r → Post r) {s : σ} (hs : Inv s) {rounds : Nat}
    (hrounds : variant s / d < rounds) : ∃ r, run body rounds s = some r ∧ Post r := by
  induction rounds generalizing s with
  | zero => exact absurd hrounds (Nat.not_lt_zero _)
  | succ rounds ih =>
      cases hbody : body s with
      | done r => exact ⟨r, by rw [run, hbody], hdone s r hs hbody⟩
      | again s' =>
          obtain ⟨hs', hle⟩ := hagain s s' hs hbody
          have hless : variant s' / d + 1 ≤ variant s / d := by
            rw [← Nat.add_div_right _ hd]
            exact Nat.div_le_div_right hle
          obtain ⟨r, hr, hpost⟩ := ih hs' (by omega)
          refine ⟨r, ?_, hpost⟩
          rw [run, hbody]
          exact hr

end Loop

end HolyGrail
