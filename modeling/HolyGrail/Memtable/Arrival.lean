import HolyGrail.Memtable

/-!
# HolyGrail.Memtable.Arrival

The order of arrival.

Records reach a memtable in any order: writers overlap, and a replay starts
wherever its log does.  Inserts of records with different LSNs commute
(`insert_comm`), since the greater LSN keeps the key either way and the counters
only add up and take maxima; so a memtable depends on the set of its records
alone, and a record inserted again changes nothing a read or a flush sees.
-/

namespace HolyGrail

open Std (ExtTreeMap)

/-- What a lookup returns for the version a record makes of its key. -/
def Record.lookup (rec : Record) : Lookup :=
  match rec.op with
  | .put => .found rec.value
  | .delete => .deleted

theorem Record.ofHit_version (rec : Record) :
    Lookup.ofHit (some rec.version) = rec.lookup := by
  obtain ⟨k, l, op, v⟩ := rec
  cases op <;> rfl

namespace Memtable

theorem eq_of_parts {mt mt' : Memtable} (hmap : mt.map = mt'.map)
    (hbytes : mt.approxBytes = mt'.approxBytes) (hlsn : mt.maxLsn = mt'.maxLsn) : mt = mt' := by
  obtain ⟨map, bytes, lsn, _, _⟩ := mt
  obtain ⟨map', bytes', lsn', _, _⟩ := mt'
  simp only at hmap hbytes hlsn
  subst hmap hbytes hlsn
  rfl

/-! ## two records -/

/-- Of two records of one key the greater LSN stays, whichever comes first. -/
theorem insert_map_comm (mt : Memtable) {a b : Record} (h : a.lsn ≠ b.lsn) :
    ((mt.insert a).insert b).map = ((mt.insert b).insert a).map := by
  refine ExtTreeMap.ext_getElem? fun k => ?_
  simp only [insert, OrdMap.getElem?_compareInsert]
  by_cases ha : a.key = k
  · by_cases hb : b.key = k
    · cases hk : mt.map[k]? with
      | none =>
          simp only [ha, hb, true_and, Option.all_none, if_true, Option.all_some, Record.entry,
            decide_eq_true_eq]
          split <;> split <;> first | rfl | omega
      | some e =>
          simp only [ha, hb, true_and, Option.all_some, Record.entry, decide_eq_true_eq]
          grind
    · simp [hb]
  · simp [ha]

/-- **Inserts commute** when the LSNs differ. -/
theorem insert_comm (mt : Memtable) {a b : Record} (h : a.lsn ≠ b.lsn) :
    (mt.insert a).insert b = (mt.insert b).insert a := by
  refine eq_of_parts (insert_map_comm mt h) ?_ ?_
  · simp only [insert]
    omega
  · simp only [insert]
    omega

/-- A record that is absorbed leaves the map and the greatest LSN alone. -/
theorem insert_again {mt : Memtable} {rec : Record} (h : Absorbs mt.find rec.write) :
    (mt.insert rec).map = mt.map ∧ (mt.insert rec).maxLsn = mt.maxLsn := by
  obtain ⟨v, hv, hle⟩ := h
  rw [Record.write_key, find] at hv
  rw [Record.write_version, Record.version_lsn] at hle
  obtain ⟨e, he, rfl⟩ := Option.map_eq_some_iff.mp hv
  have hlsn : rec.lsn ≤ e.lsn := hle
  have hmax := mt.lsn_le rec.key e he
  constructor
  · have hkeep : ¬ (decide (e.lsn < rec.lsn)) = true := by simpa using hlsn
    simp only [insert, OrdMap.compareInsert, he]
    rw [if_neg hkeep]
  · simp only [insert]
    omega

/-! ## any number of records -/

/-- **Any order**: a permutation of records with distinct LSNs fills a memtable
alike. -/
theorem insertAll_perm {rs ss : List Record} (hperm : rs.Perm ss)
    (hnd : (rs.map Record.lsn).Nodup) (mt : Memtable) : mt.insertAll rs = mt.insertAll ss := by
  refine hperm.foldl_eq' ?_ mt
  intro a ha b hb mt
  by_cases heq : a = b
  · rw [heq]
  · have hne : a.lsn ≠ b.lsn := fun hlsn => heq (List.inj_on_of_nodup_map hnd ha hb hlsn)
    exact insert_comm mt hne

/-- The newest record of a key is the one that is found. -/
theorem find_of_newest {rs : List Record} {rec : Record} (hnd : (rs.map Record.lsn).Nodup)
    (hrec : rec ∈ rs) (hmax : ∀ s ∈ rs, s.key = rec.key → s.lsn ≤ rec.lsn) :
    (new.insertAll rs).find rec.key = some rec.version := by
  obtain ⟨v, hv, hle⟩ := new.exists_find_insertAll hrec
  obtain ⟨s, hs, hkey, rfl⟩ := exists_record_of_find hv
  have hsame : s.lsn = rec.lsn := Nat.le_antisymm (hmax s hs hkey) hle
  rw [hv, List.inj_on_of_nodup_map hnd hs hrec hsame]

/-- A key is missing exactly when no record has it. -/
theorem get_eq_missing_iff {rs : List Record} {k : Bytes} :
    (new.insertAll rs).get k = .missing ↔ ∀ r ∈ rs, r.key ≠ k := by
  rw [get_eq, Lookup.ofHit_eq_missing]
  constructor
  · intro hnone r hr hk
    obtain ⟨v, hv, -⟩ := new.exists_find_insertAll hr
    rw [hk, hnone] at hv
    contradiction
  · intro hkeys
    cases hv : (new.insertAll rs).find k with
    | none => rfl
    | some v =>
        obtain ⟨r, hr, hk, -⟩ := exists_record_of_find hv
        exact absurd hk (hkeys r hr)

theorem find_congr {mt mt' : Memtable} (h : mt.map = mt'.map) : mt.find = mt'.find := by
  funext k
  rw [find, find, h]

/-- Records that are absorbed leave the map and the greatest LSN alone. -/
theorem insertAll_again {mt : Memtable} {again : List Record}
    (h : ∀ r ∈ again, Absorbs mt.find r.write) :
    (mt.insertAll again).map = mt.map ∧ (mt.insertAll again).maxLsn = mt.maxLsn := by
  induction again generalizing mt with
  | nil => exact ⟨rfl, rfl⟩
  | cons r again ih =>
      obtain ⟨hmap, hlsn⟩ := insert_again (h r List.mem_cons_self)
      have hrest : ∀ s ∈ again, Absorbs (mt.insert r).find s.write := by
        intro s hs
        rw [find_congr hmap]
        exact h s (List.mem_cons_of_mem r hs)
      obtain ⟨hmap', hlsn'⟩ := ih hrest
      exact ⟨hmap'.trans hmap, hlsn'.trans hlsn⟩

/-- **A memtable does not depend on arrival order**: any permutation of records
with distinct LSNs gives the same memtable, a read returns the newest record of
its key, and inserting any of the records again changes neither the map nor the
greatest LSN. -/
theorem arrival_order {rs ss : List Record} (hperm : rs.Perm ss)
    (hnd : (rs.map Record.lsn).Nodup) :
    new.insertAll ss = new.insertAll rs ∧
    (∀ rec ∈ rs, (∀ s ∈ rs, s.key = rec.key → s.lsn ≤ rec.lsn) →
      (new.insertAll ss).get rec.key = rec.lookup) ∧
    (∀ k, (new.insertAll ss).get k = .missing ↔ ∀ r ∈ rs, r.key ≠ k) ∧
    (∀ again, (∀ r ∈ again, r ∈ rs) →
      ((new.insertAll ss).insertAll again).map = (new.insertAll ss).map ∧
        ((new.insertAll ss).insertAll again).maxLsn = (new.insertAll ss).maxLsn) := by
  have hsame := insertAll_perm hperm hnd new
  rw [← hsame]
  refine ⟨rfl, fun rec hrec hmax => ?_, fun k => get_eq_missing_iff, fun again hagain => ?_⟩
  · rw [get_eq, find_of_newest hnd hrec hmax, Record.ofHit_version]
  · exact insertAll_again fun r hr => absorbs_insertAll (hagain r hr)

/-- A put, a delete of the same key, and another key, in two orders. -/
theorem arrival_order_three :
    new.insertAll [.put [2] 3 [9], .delete [1] 2, .put [1] 1 [7]] =
      new.insertAll [.put [1] 1 [7], .delete [1] 2, .put [2] 3 [9]] ∧
    (new.insertAll [.put [2] 3 [9], .delete [1] 2, .put [1] 1 [7]]).get [1] = .deleted := by
  have hperm : [Record.put [1] 1 [7], .delete [1] 2, .put [2] 3 [9]].Perm
      [.put [2] 3 [9], .delete [1] 2, .put [1] 1 [7]] := by decide
  obtain ⟨hsame, hget, -, -⟩ := arrival_order hperm (by decide)
  exact ⟨hsame, hget (.delete [1] 2) (by decide) (by decide)⟩

end Memtable

end HolyGrail
