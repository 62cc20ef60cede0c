import HolyGrail.Columnar

/-!
# HolyGrail.DuckDb

What the development assumes of the DuckDB binary that publishes a flush, and
what follows for a published memtable.

`DuckDb` is a parameter: a function from the rows of a staged file to the data
file that one committed `INSERT … SELECT` adds to the lake, with the laws the
engine relies on.  The main fact is `chunk_file`: as a tier, a published file
is its memtable.
-/

namespace HolyGrail

/-- Exact bounds of a list of keys. -/
structure Exact (lo hi : Bytes) (keys : List Bytes) : Prop where
  lo_mem : lo ∈ keys
  hi_mem : hi ∈ keys
  within : ∀ k ∈ keys, within lo hi k

/-- The DuckDB side of a flush.  `write n rows` is the file of the `n`-th
insert into the table. -/
structure DuckDb where
  write : Nat → List Row → DataFile
  /-- Object keys are never reused. -/
  location_inj : ∀ i j rs ss, (write i rs).location = (write j ss).location → i = j
  /-- The insert keeps the staged rows, in order. -/
  rows_write : ∀ n rs, (write n rs).rows = rs
  /-- Footer statistics of every row group are exact. -/
  group_stats : ∀ n rs, ∀ g ∈ (write n rs).rowGroups, ∃ lo hi,
    g.statistics = some (some lo, some hi) ∧ Exact lo hi (g.rows.map Row.pk)
  /-- Catalog statistics of the file are exact. -/
  pk_stats : ∀ n rs, rs ≠ [] → Exact (write n rs).pkMin (write n rs).pkMax (rs.map Row.pk)
  lsn_stats : ∀ n rs, rs ≠ [] → (∃ r ∈ rs, r.lsn = (write n rs).lsnMax) ∧
    ∀ r ∈ rs, r.lsn ≤ (write n rs).lsnMax
  /-- The catalog bloom, if there is one, has no false negatives. -/
  bloom_complete : ∀ n rs b, (write n rs).bloom = some b → ∀ r ∈ rs, b.mightContain r.pk

/-! ## row groups -/

namespace ColumnarReader

theorem scanRowGroup_eq (g : RowGroup) (k : Bytes) :
    scanRowGroup g k = Lookup.ofHit ((g.rows.find? fun row => row.pk = k).map Row.version) := by
  rw [scanRowGroup]
  cases g.rows.find? fun row => row.pk = k with
  | none => rfl
  | some row =>
      simp only [Option.map_some, Row.version]
      split <;> rfl

/-- Over row groups that are sorted as a whole and have exact statistics, the
first group that may contain the key is the only one that can. -/
theorem scanRowGroups_eq {groups : List RowGroup}
    (hsorted : (groups.flatMap RowGroup.rows).Pairwise fun a b => compare a.pk b.pk = .lt)
    (hstats : ∀ g ∈ groups, ∃ lo hi, g.statistics = some (some lo, some hi) ∧
      Exact lo hi (g.rows.map Row.pk)) (k : Bytes) :
    scanRowGroups groups k =
      Lookup.ofHit
        (((groups.flatMap RowGroup.rows).find? fun row => row.pk = k).map Row.version) := by
  induction groups with
  | nil => rfl
  | cons g rest ih =>
      rw [List.flatMap_cons] at hsorted ⊢
      rw [List.pairwise_append] at hsorted
      obtain ⟨-, hrest, hcross⟩ := hsorted
      have ih := ih hrest fun g' hg' => hstats g' (List.mem_cons_of_mem g hg')
      obtain ⟨lo, hi, hst, hex⟩ := hstats g List.mem_cons_self
      rw [scanRowGroups, rowGroupMayContain, hst, List.find?_append]
      by_cases hin : within lo hi k
      · -- Every later row lies above this group's maximum, hence above the key.
        have hlater : (rest.flatMap RowGroup.rows).find? (fun row => row.pk = k) = none := by
          rw [List.find?_eq_none]
          intro row hrow hk
          rw [decide_eq_true_eq] at hk
          obtain ⟨top, htop, rfl⟩ := List.mem_map.mp hex.hi_mem
          have hlt := hcross top htop row hrow
          rw [hk] at hlt
          have hgt := Std.OrientedCmp.gt_of_lt hlt
          rw [within, hgt] at hin
          simp at hin
        simp only [hin, Bool.not_true, Bool.false_eq_true, if_false]
        rw [hlater, Option.or_none]
        exact scanRowGroup_eq g k
      · have hnone : g.rows.find? (fun row => row.pk = k) = none := by
          rw [List.find?_eq_none]
          intro row hrow hk
          rw [decide_eq_true_eq] at hk
          exact hin (hex.within k (hk ▸ List.mem_map_of_mem hrow))
        rw [Bool.not_eq_true] at hin
        simp only [hin, Bool.not_false, if_true]
        rw [hnone, Option.none_or]
        exact ih

end ColumnarReader

/-! ## a published memtable -/

theorem version_rowOf (item : Bytes × Entry) (h : item.2.lsn < 2 ^ 63) :
    (rowOf item).version = item.2.version := by
  obtain ⟨k, l, op, v⟩ := item
  simp only [Row.version, rowOf, Entry.version, asI64_of_lt h, Int.toNat_natCast]
  cases op <;> rfl

namespace Memtable

/-- The largest LSN fits the `BIGINT` column. -/
def LsnFits (mt : Memtable) : Prop := mt.maxLsn < 2 ^ 63

theorem find_eq_find?_iter (mt : Memtable) (k : Bytes) :
    mt.iter.find? (fun item => item.1 = k) = mt.map[k]?.map fun e => (k, e) := by
  cases hk : mt.map[k]? with
  | none =>
      rw [Option.map_none, List.find?_eq_none]
      rintro ⟨k', e⟩ hmem he
      rw [decide_eq_true_eq] at he
      obtain rfl : k' = k := he
      rw [iter, OrdMap.mem_toList, hk] at hmem
      contradiction
  | some e =>
      rw [Option.map_some, List.find?_eq_some_iff_append]
      have hmem : (k, e) ∈ mt.iter := OrdMap.mem_toList.mpr hk
      obtain ⟨pre, post, hsplit⟩ := List.append_of_mem hmem
      refine ⟨by simp, pre, post, hsplit, ?_⟩
      intro item hitem
      have hnd := OrdMap.nodup_toList mt.map
      rw [show mt.map.toList = pre ++ (k, e) :: post from hsplit, List.map_append,
        List.nodup_append] at hnd
      have hne := hnd.2.2 item.1 (List.mem_map_of_mem hitem) k (by simp)
      simpa using hne

theorem iter_ne_nil {mt : Memtable} (h : mt.isEmpty = false) : mt.iter ≠ [] := by
  intro hnil
  obtain ⟨k, v, hv, -⟩ := tight h
  obtain ⟨e, he, -⟩ := Option.map_eq_some_iff.mp hv
  have hmem : (k, e) ∈ mt.iter := OrdMap.mem_toList.mpr he
  rw [hnil] at hmem
  contradiction

theorem stagedRows_ne_nil {mt : Memtable} (h : mt.isEmpty = false) :
    stagedRows (batches mt) ≠ [] := by
  rw [stagedRows_batches]
  exact fun hnil => iter_ne_nil h (List.map_eq_nil_iff.mp hnil)

theorem lsn_le_of_mem_iter {mt : Memtable} {item : Bytes × Entry} (h : item ∈ mt.iter) :
    item.2.lsn ≤ mt.maxLsn :=
  mt.lsn_le item.1 item.2 (OrdMap.mem_toList.mp h)

end Memtable

namespace DuckDb

open Memtable (stagedRows_ne_nil)

variable (db : DuckDb) (n : Nat) {mt : Memtable}

/-- The file a flush of the memtable adds to the lake. -/
def file (mt : Memtable) : DataFile := db.write n (stagedRows (batches mt))

theorem rows_file (mt : Memtable) : (db.file n mt).rows = mt.iter.map rowOf := by
  rw [file, rows_write, stagedRows_batches]

theorem find_file (hfit : mt.LsnFits) : (db.file n mt).find = mt.find := by
  funext k
  rw [DataFile.find, rows_file, List.find?_map, Memtable.find]
  have hcomp : (fun row : Row => decide (row.pk = k)) ∘ rowOf =
      fun item : Bytes × Entry => decide (item.1 = k) := rfl
  rw [hcomp, mt.find_eq_find?_iter k]
  cases hk : mt.map[k]? with
  | none => rfl
  | some e =>
      have hlt : e.lsn < 2 ^ 63 := Nat.lt_of_le_of_lt (mt.lsn_le k e hk) hfit
      exact congrArg some (version_rowOf (k, e) hlt)

/-- The file carries the watermark the flush announced. -/
theorem lsnMax_file (hne : mt.isEmpty = false) (hfit : mt.LsnFits) :
    (db.file n mt).lsnMax = mt.maxLsn := by
  obtain ⟨⟨row, hrow, hmax⟩, hle⟩ := db.lsn_stats n _ (stagedRows_ne_nil hne)
  change row.lsn = (db.file n mt).lsnMax at hmax
  change ∀ r ∈ stagedRows (batches mt), r.lsn ≤ (db.file n mt).lsnMax at hle
  rw [stagedRows_batches] at hrow hle
  have hlsn : ∀ item ∈ mt.iter, (rowOf item).lsn = item.2.lsn := fun item hitem =>
    asI64_of_lt (Nat.lt_of_le_of_lt (Memtable.lsn_le_of_mem_iter hitem) hfit)
  refine Int.le_antisymm ?_ ?_
  · obtain ⟨item, hitem, rfl⟩ := List.mem_map.mp hrow
    have := Memtable.lsn_le_of_mem_iter hitem
    rw [← hmax, hlsn item hitem]
    exact_mod_cast this
  · obtain ⟨k, v, hv, htop⟩ := Memtable.tight hne
    obtain ⟨e, he, rfl⟩ := Option.map_eq_some_iff.mp hv
    have hmem : (k, e) ∈ mt.iter := OrdMap.mem_toList.mpr he
    have htop : e.lsn = mt.maxLsn := htop
    rw [← htop, ← hlsn _ hmem]
    exact hle _ (List.mem_map_of_mem hmem)

theorem watermark_file (hne : mt.isEmpty = false) (hfit : mt.LsnFits) :
    (db.file n mt).watermark = mt.maxLsn := by
  rw [DataFile.watermark, db.lsnMax_file n hne hfit, Int.toNat_natCast]

/-- **A published file is its memtable.** -/
theorem chunk_file (hne : mt.isEmpty = false) (hfit : mt.LsnFits) :
    (db.file n mt).chunk = mt.chunk := by
  refine Chunk.ext (db.watermark_file n hne hfit) ?_
  funext k
  simp only [DataFile.chunk, db.find_file n hfit, db.watermark_file n hne hfit]
  cases hk : mt.find k with
  | none => simp [hk]
  | some v =>
      have := Memtable.le_maxLsn hk
      simp [hk, this]

theorem readable_file (hne : mt.isEmpty = false) (hfit : mt.LsnFits) :
    (db.file n mt).Readable where
  lsnMax_nonneg := by rw [db.lsnMax_file n hne hfit]; exact Int.natCast_nonneg _
  bounds row hrow := by
    rw [file, rows_write] at hrow
    exact (db.pk_stats n _ (stagedRows_ne_nil hne)).within row.pk (List.mem_map_of_mem hrow)
  bloom_complete b hb row hrow := by
    rw [file, rows_write] at hrow
    exact db.bloom_complete n _ b hb row hrow
  scan k := by
    refine ColumnarReader.scanRowGroups_eq ?_ (db.group_stats n _) k
    change (db.file n mt).rows.Pairwise _
    rw [rows_file, List.pairwise_map]
    exact Std.ExtTreeMap.ordered_keys_toList

/-! ## an instance -/

/-- The smaller and the larger of two keys. -/
def minMax (a b : Bytes) : Bytes × Bytes := if (compare a b).isLE then (a, b) else (b, a)

theorem minMax_within (a b : Bytes) :
    (compare (minMax a b).1 a).isLE ∧ (compare (minMax a b).1 b).isLE ∧
      (compare a (minMax a b).2).isLE ∧ (compare b (minMax a b).2).isLE := by
  rw [minMax]
  split
  · next h => exact ⟨by simp, h, h, by simp⟩
  · next h =>
      have hba : (compare b a).isLE := Ordering.isLE_of_eq_lt (Std.OrientedCmp.lt_of_not_isLE h)
      exact ⟨hba, by simp, by simp, hba⟩

/-- The bounds of a non-empty list of keys. -/
def bounds : Bytes → List Bytes → Bytes × Bytes
  | k, [] => (k, k)
  | k, k' :: ks => ((minMax k (bounds k' ks).1).1, (minMax k (bounds k' ks).2).2)

theorem exact_bounds (k : Bytes) (ks : List Bytes) :
    Exact (bounds k ks).1 (bounds k ks).2 (k :: ks) := by
  induction ks generalizing k with
  | nil =>
      refine ⟨by simp [bounds], by simp [bounds], ?_⟩
      intro k' hk'
      rw [List.mem_singleton] at hk'
      subst hk'
      simp [bounds, HolyGrail.within]
  | cons k' ks ih =>
      obtain ⟨hlo, hhi, hin⟩ := ih k'
      obtain ⟨hlk, hlb, -, -⟩ := minMax_within k (bounds k' ks).1
      obtain ⟨-, -, hkh, hbh⟩ := minMax_within k (bounds k' ks).2
      refine ⟨?_, ?_, ?_⟩
      · simp only [bounds, minMax]
        split
        · simp
        · exact List.mem_cons_of_mem k hlo
      · simp only [bounds, minMax]
        split
        · exact List.mem_cons_of_mem k hhi
        · simp
      · intro x hx
        rw [HolyGrail.within, Bool.and_eq_true]
        rw [List.mem_cons] at hx
        rcases hx with rfl | hx
        · exact ⟨hlk, hkh⟩
        · have hx := hin x hx
          rw [HolyGrail.within, Bool.and_eq_true] at hx
          exact ⟨Std.TransCmp.isLE_trans hlb hx.1, Std.TransCmp.isLE_trans hx.2 hbh⟩

/-- The largest `lsn` of a non-empty list of rows. -/
def lsnMaxOf (l : Int) (ls : List Int) : Int := ls.foldl max l

theorem lsnMaxOf_spec (l : Int) (ls : List Int) :
    lsnMaxOf l ls ∈ l :: ls ∧ ∀ x ∈ l :: ls, x ≤ lsnMaxOf l ls := by
  induction ls generalizing l with
  | nil => simp [lsnMaxOf]
  | cons l' ls ih =>
      obtain ⟨hmem, hle⟩ := ih (max l l')
      have hsame : lsnMaxOf l (l' :: ls) = lsnMaxOf (max l l') ls := rfl
      rw [hsame]
      refine ⟨?_, ?_⟩
      · rw [List.mem_cons] at hmem
        rcases hmem with he | hmem
        · rw [he]
          by_cases h : l ≤ l' <;> simp [Int.max_def, h]
        · exact List.mem_cons_of_mem _ (List.mem_cons_of_mem _ hmem)
      · intro x hx
        have htop := hle (max l l') List.mem_cons_self
        rw [List.mem_cons, List.mem_cons] at hx
        rcases hx with rfl | rfl | hx
        · omega
        · omega
        · exact hle x (List.mem_cons_of_mem _ hx)

/-- A writer with one row group per file, as DuckDB has for files of at most
`row_group_size` rows, and `catalog_blooms` off. -/
def plainWrite (n : Nat) : List Row → DataFile
  | [] =>
      { location := List.replicate n 'f', rowGroups := [], pkMin := [], pkMax := [], lsnMax := 0
        bloom := none }
  | row :: rows =>
      let pks := bounds row.pk (rows.map Row.pk)
      { location := List.replicate n 'f'
        rowGroups := [{ rows := row :: rows, statistics := some (some pks.1, some pks.2) }]
        pkMin := pks.1
        pkMax := pks.2
        lsnMax := lsnMaxOf row.lsn (rows.map Row.lsn)
        bloom := none }

def plain : DuckDb where
  write := plainWrite
  location_inj i j rs ss h := by
    cases rs <;> cases ss <;>
      simpa [plainWrite] using congrArg List.length h
  rows_write n rs := by
    cases rs <;> simp [plainWrite, DataFile.rows]
  group_stats n rs g hg := by
    cases rs with
    | nil => simp [plainWrite] at hg
    | cons row rows =>
        simp only [plainWrite, List.mem_singleton] at hg
        subst hg
        exact ⟨_, _, rfl, exact_bounds row.pk (rows.map Row.pk)⟩
  pk_stats n rs hne := by
    cases rs with
    | nil => contradiction
    | cons row rows => exact exact_bounds row.pk (rows.map Row.pk)
  lsn_stats n rs hne := by
    cases rs with
    | nil => contradiction
    | cons row rows =>
        obtain ⟨hmem, hle⟩ := lsnMaxOf_spec row.lsn (rows.map Row.lsn)
        rw [← List.map_cons] at hmem hle
        obtain ⟨r, hr, he⟩ := List.mem_map.mp hmem
        exact ⟨⟨r, hr, he⟩, fun r hr => hle _ (List.mem_map_of_mem hr)⟩
  bloom_complete n rs b hb := by
    cases rs <;> simp [plainWrite] at hb

end DuckDb

end HolyGrail
