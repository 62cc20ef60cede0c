import HolyGrail.Wal

/-!
# HolyGrail.Wal.Names

Segment names read back: `list_segments` recovers the start LSN that
`segment_name` wrote, so two segments share a path only if they share a start
LSN.
-/

namespace HolyGrail

theorem isDigit_digitChar {d : Nat} (h : d < 10) : (Nat.digitChar d).isDigit = true := by
  revert d
  decide

theorem toNat_digitChar {d : Nat} (h : d < 10) : (Nat.digitChar d).toNat - 48 = d := by
  revert d
  decide

@[simp] theorem length_decimal (w n : Nat) : (decimal w n).length = w := by
  induction w generalizing n with
  | zero => rfl
  | succ w ih => simp [decimal, ih]

theorem isDigit_of_mem_decimal {w n : Nat} {c : Char} (h : c ∈ decimal w n) :
    c.isDigit = true := by
  induction w generalizing n with
  | zero => simp [decimal] at h
  | succ w ih =>
      simp only [decimal, List.mem_append, List.mem_singleton] at h
      cases h with
      | inl h => exact ih h
      | inr h => rw [h]; exact isDigit_digitChar (Nat.mod_lt _ (by decide))

/-- Reading the digits of `n` shifts the accumulator and adds `n`. -/
theorem parseDigits_decimal {w n : Nat} (h : n < 10 ^ w) (acc : Nat) (cs : List Char) :
    parseDigits acc (decimal w n ++ cs) = parseDigits (acc * 10 ^ w + n) cs := by
  induction w generalizing n cs with
  | zero =>
      have hn : n = 0 := by simpa using h
      simp [decimal, hn]
  | succ w ih =>
      have hd : n / 10 < 10 ^ w := by
        rw [Nat.div_lt_iff_lt_mul (by decide), ← Nat.pow_succ]
        exact h
      have hm : n % 10 < 10 := Nat.mod_lt _ (by decide)
      rw [decimal, List.append_assoc, ih hd, List.singleton_append, parseDigits,
        if_pos (isDigit_digitChar hm), toNat_digitChar hm]
      congr 1
      rw [Nat.pow_succ, ← Nat.mul_assoc, Nat.add_mul]
      omega

theorem parseLsn_decimal {n : Nat} (h : n < 2 ^ 64) : parseLsn (decimal 20 n) = some n := by
  have hne : decimal 20 n ≠ [] := by
    intro he
    have := length_decimal 20 n
    rw [he] at this
    simp at this
  have hplus : (decimal 20 n).head? ≠ some '+' := by
    intro he
    have hd := isDigit_of_mem_decimal (List.mem_of_mem_head? he)
    exact absurd hd (by decide)
  have hp := parseDigits_decimal (w := 20) (Nat.lt_trans h (by decide)) 0 []
  rw [List.append_nil, parseDigits, Nat.zero_mul, Nat.zero_add] at hp
  simp only [parseLsn, if_neg hplus, if_neg hne, hp, Option.filter]
  rw [if_pos (by simpa using h)]

/-- **Segment names round trip.** -/
theorem startLsnOf_segmentName {n : Nat} (h : n < 2 ^ 64) :
    startLsnOf (segmentName n) = some n := by
  have hsuf : segmentSuffix.isSuffixOf (segmentName n) = true := by
    rw [List.isSuffixOf_iff_suffix, segmentName]
    exact List.suffix_append _ _
  have htake : (segmentName n).take ((segmentName n).length - segmentSuffix.length) =
      decimal 20 n := by
    simp [segmentName]
  rw [startLsnOf, stripSegmentSuffix, if_pos hsuf, htake, Option.bind_some]
  exact parseLsn_decimal h

theorem segmentName_inj {m n : Nat} (hm : m < 2 ^ 64) (hn : n < 2 ^ 64) :
    segmentName m = segmentName n ↔ m = n := by
  constructor
  · intro h
    have := startLsnOf_segmentName hm
    rw [h, startLsnOf_segmentName hn] at this
    exact (Option.some.inj this).symm
  · intro h
    rw [h]

end HolyGrail
