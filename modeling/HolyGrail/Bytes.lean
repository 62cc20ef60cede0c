import Mathlib.Data.List.Basic
import Mathlib.Tactic.Ring

/-!
# HolyGrail.Bytes

Byte-string plumbing: slices of a buffer and fixed-width little-endian
integers.

The frame layout of the log is a concatenation of fixed-width fields and
counted payloads, so everything the codec needs is of two kinds: a slice
taken over an appended buffer lands on the part that was appended, and a
little-endian field reads back the number that was written.
-/

namespace HolyGrail

/-- A byte string. -/
abbrev Bytes := List UInt8

/-! ## slices -/

/-- The half-open slice `bs[lo..hi]`. -/
def slice (bs : List α) (lo hi : Nat) : List α := (bs.drop lo).take (hi - lo)

/-- A slice whose bounds fall on a known part of the buffer is that part. -/
theorem slice_eq_of_append (pre : List α) {bs mid post : List α} {lo hi : Nat}
    (h : bs = pre ++ (mid ++ post)) (hlo : pre.length = lo) (hhi : lo + mid.length = hi) :
    slice bs lo hi = mid := by
  subst h hlo hhi
  simp [slice]

/-- A slice does not see what lies behind it. -/
theorem slice_take (bs : List α) {lo hi m : Nat} (h : hi ≤ m) :
    slice (bs.take m) lo hi = slice bs lo hi := by
  rw [slice, slice, List.drop_take, List.take_take, Nat.min_eq_left (by omega)]

/-- A slice of the front part of an appended buffer. -/
theorem slice_append_of_le {xs : List α} (ys : List α) {lo hi : Nat} (h : hi ≤ xs.length) :
    slice (xs ++ ys) lo hi = slice xs lo hi := by
  rw [← slice_take (xs ++ ys) h, List.take_left]

/-- Two slices that meet. -/
theorem slice_append_slice (bs : List α) {lo mid hi : Nat} (h : lo ≤ mid) (h' : mid ≤ hi) :
    slice bs lo mid ++ slice bs mid hi = slice bs lo hi := by
  obtain ⟨a, rfl⟩ := Nat.exists_eq_add_of_le h
  obtain ⟨b, rfl⟩ := Nat.exists_eq_add_of_le h'
  simp only [slice]
  rw [show lo + a + b - lo = a + b by omega, show lo + a + b - (lo + a) = b by omega,
    show lo + a - lo = a by omega, List.take_add, List.drop_drop]

theorem length_slice {bs : List α} {lo hi : Nat} (h : hi ≤ bs.length) :
    (slice bs lo hi).length = hi - lo := by
  rw [slice, List.length_take, List.length_drop]
  omega

theorem head?_slice {bs : List α} {lo : Nat} (h : lo < bs.length) :
    (slice bs lo (lo + 1)).head? = some bs[lo] := by
  rw [slice, Nat.add_sub_cancel_left, List.head?_take, if_neg Nat.one_ne_zero, List.head?_drop,
    List.getElem?_eq_getElem h]

/-! ## little-endian integers -/

/-- The `w` low bytes of `n`, least significant first. -/
def leBytes : Nat → Nat → Bytes
  | 0, _ => []
  | w + 1, n => UInt8.ofNat n :: leBytes w (n / 256)

/-- The number a little-endian byte string denotes. -/
def leNat : Bytes → Nat
  | [] => 0
  | b :: bs => b.toNat + 256 * leNat bs

@[simp] theorem length_leBytes (w n : Nat) : (leBytes w n).length = w := by
  induction w generalizing n with
  | zero => rfl
  | succ w ih => simp [leBytes, ih]

/-- A field read back is the number written, cut to the width of the field. -/
theorem leNat_leBytes_mod (w n : Nat) : leNat (leBytes w n) = n % 256 ^ w := by
  induction w generalizing n with
  | zero => simp [leBytes, leNat, Nat.mod_one]
  | succ w ih =>
      have hb : (UInt8.ofNat n).toNat = n % 256 := by simp
      have hp : 256 ^ (w + 1) = 256 * 256 ^ w := by ring
      rw [leBytes, leNat, ih, hb, hp, Nat.mod_mul]

/-- A number that fits the field reads back unchanged. -/
theorem leNat_leBytes {w n : Nat} (h : n < 256 ^ w) : leNat (leBytes w n) = n := by
  rw [leNat_leBytes_mod, Nat.mod_eq_of_lt h]

theorem leNat_lt (bs : Bytes) : leNat bs < 256 ^ bs.length := by
  induction bs with
  | nil => simp [leNat]
  | cons b bs ih =>
      have hb := b.toNat_lt
      have hp : 256 ^ (b :: bs).length = 256 * 256 ^ bs.length := by
        rw [List.length_cons]
        ring
      rw [leNat, hp]
      omega

/-- A field of four bytes. -/
theorem leNat_slice_lt (bs : Bytes) {lo hi : Nat} (h : lo + 4 = hi) :
    leNat (slice bs lo hi) < 2 ^ 32 := by
  have hlen : (slice bs lo hi).length ≤ 4 := by
    rw [slice, List.length_take]
    omega
  calc leNat (slice bs lo hi)
      < 256 ^ (slice bs lo hi).length := leNat_lt _
    _ ≤ 256 ^ 4 := Nat.pow_le_pow_right (by decide) hlen
    _ = 2 ^ 32 := by decide

/-- A number written back is the field it was read from. -/
theorem leBytes_leNat (bs : Bytes) : leBytes bs.length (leNat bs) = bs := by
  induction bs with
  | nil => rfl
  | cons b bs ih =>
      have hb := b.toNat_lt
      have hlow : UInt8.ofNat (b.toNat + 256 * leNat bs) = b := by
        apply UInt8.toNat_inj.mp
        rw [UInt8.toNat_ofNat']
        omega
      have hhigh : (b.toNat + 256 * leNat bs) / 256 = leNat bs := by omega
      rw [List.length_cons, leBytes, leNat, hlow, hhigh, ih]

theorem leBytes_leNat_of_length {bs : Bytes} {w : Nat} (h : bs.length = w) :
    leBytes w (leNat bs) = bs := h ▸ leBytes_leNat bs

end HolyGrail
