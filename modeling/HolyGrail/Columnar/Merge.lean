import HolyGrail.Columnar
import Mathlib.Data.List.MinMax

/-!
# HolyGrail.Columnar.Merge

The point read and the merge it stands for.

`ColumnarReader.merge` looks at every row of every live file and lets the
greatest LSN decide.  The point read opens few files and stops at the first
hit.  The two agree when, of two files that hold a key, the one with the larger
watermark holds the larger LSN (`get_eq_merge`): sorted by watermark, the first
file that holds the key then holds its newest row.
-/

namespace HolyGrail

/-- What a lookup returns for a row. -/
def Row.lookup (row : Row) : Lookup :=
  if row.op = ColumnarReader.deleteOp then .deleted else .found (row.value.getD [])

theorem Row.ofHit_version (row : Row) : Lookup.ofHit (some row.version) = row.lookup := by
  rw [version, lookup]
  split <;> rfl

namespace DataFile

/-- The row a file has for a key. -/
def row? (f : DataFile) (key : Bytes) : Option Row := f.rows.find? fun row => row.pk = key

/-- The exact lookup of a key in one file. -/
def lookup (f : DataFile) (key : Bytes) : Lookup := ((f.row? key).map Row.lookup).getD .missing

theorem find_eq_row? (f : DataFile) (k : Bytes) : f.find k = (f.row? k).map Row.version := rfl

theorem lookup_eq (f : DataFile) (k : Bytes) : f.lookup k = Lookup.ofHit (f.find k) := by
  rw [lookup, find_eq_row?]
  cases f.row? k with
  | none => rfl
  | some row => exact row.ofHit_version.symm

/-- A key is in a file at most once. -/
def KeysUnique (f : DataFile) : Prop := (f.rows.map Row.pk).Nodup

/-- Of two files that hold a key, the one with the larger watermark holds the
larger LSN. -/
def Ordered (f g : DataFile) : Prop :=
  ∀ row ∈ f.rows, ∀ row' ∈ g.rows, row.pk = row'.pk →
    (f.watermark < g.watermark ∧ row.lsn < row'.lsn) ∨
      (g.watermark < f.watermark ∧ row'.lsn < row.lsn)

theorem Ordered.symm {f g : DataFile} (h : f.Ordered g) : g.Ordered f :=
  fun row hrow row' hrow' he => (h row' hrow' row hrow he.symm).symm

instance (f : DataFile) : Decidable f.KeysUnique := inferInstanceAs (Decidable (List.Nodup _))

instance (f : DataFile) : Decidable f.Prunable :=
  decidable_of_iff ((∀ row ∈ f.rows, within f.pkMin f.pkMax row.pk) ∧
      ∀ b ∈ f.bloom, ∀ row ∈ f.rows, b.mightContain row.pk)
    ⟨fun h => ⟨h.1, h.2⟩, fun h => ⟨h.bounds, h.bloom_complete⟩⟩

instance (f g : DataFile) : Decidable (f.Ordered g) :=
  inferInstanceAs (Decidable (∀ row ∈ f.rows, ∀ row' ∈ g.rows, _ → _))

end DataFile

namespace ColumnarReader

/-- The rows of a key, over all files. -/
def rowsOf (files : List DataFile) (key : Bytes) : List Row :=
  (files.flatMap DataFile.rows).filter fun row => row.pk = key

/-- The row with the greatest LSN, the first of several. -/
def newestRow (rows : List Row) : Option Row :=
  @List.argmax Row Int Int.instLinearOrder.toPreorder Int.decLt Row.lsn rows

/-- The unpruned merge: of all rows of the key, the one with the greatest LSN
decides. -/
def merge (files : List DataFile) (key : Bytes) : Lookup :=
  ((newestRow (rowsOf files key)).map Row.lookup).getD .missing

/-- The row the walk stops at. -/
def firstRow (files : List DataFile) (key : Bytes) : Option Row :=
  files.findSome? fun f => f.row? key

variable {files : List DataFile} {k : Bytes}

theorem mem_rowsOf {row : Row} :
    row ∈ rowsOf files k ↔ (∃ f ∈ files, row ∈ f.rows) ∧ row.pk = k := by
  rw [rowsOf, List.mem_filter, List.mem_flatMap, decide_eq_true_eq]

theorem firstHit_eq_firstRow (files : List DataFile) (k : Bytes) :
    firstHit (files.map DataFile.find) k = (firstRow files k).map Row.version := by
  induction files with
  | nil => rfl
  | cons f rest ih =>
      rw [List.map_cons, firstHit, ih, firstRow, firstRow, List.findSome?_cons,
        DataFile.find_eq_row?]
      cases f.row? k <;> rfl

theorem firstRow_eq_none : firstRow files k = none ↔ rowsOf files k = [] := by
  simp only [firstRow, List.findSome?_eq_none_iff, DataFile.row?, List.find?_eq_none, rowsOf,
    List.filter_eq_nil_iff, List.mem_flatMap]
  constructor
  · rintro h row ⟨f, hf, hrow⟩
    exact h f hf row hrow
  · exact fun h f hf row hrow => h row ⟨f, hf, hrow⟩

/-- The first row met is newer than all others, when the files come in that
order. -/
theorem newest_of_firstRow (hu : ∀ f ∈ files, f.KeysUnique)
    (hd : files.Pairwise fun f g => ∀ row ∈ f.rows, ∀ row' ∈ g.rows, row.pk = row'.pk →
      row'.lsn < row.lsn) {row : Row} (h : firstRow files k = some row) :
    row ∈ rowsOf files k ∧ ∀ row' ∈ rowsOf files k, row' = row ∨ row'.lsn < row.lsn := by
  induction files with
  | nil => contradiction
  | cons f rest ih =>
      rw [List.pairwise_cons] at hd
      simp only [mem_rowsOf, List.mem_cons]
      rw [firstRow, List.findSome?_cons] at h
      cases hf : f.row? k with
      | none =>
          -- No row of this file has the key.
          rw [hf] at h
          obtain ⟨hmem, hmax⟩ := ih (fun g hg => hu g (List.mem_cons_of_mem f hg)) hd.2 h
          obtain ⟨⟨g, hg, hrow⟩, hpk⟩ := mem_rowsOf.mp hmem
          refine ⟨⟨⟨g, .inr hg, hrow⟩, hpk⟩, ?_⟩
          rintro row' ⟨⟨g', rfl | hg', hrow'⟩, hpk'⟩
          · rw [DataFile.row?, List.find?_eq_none] at hf
            exact absurd hpk' (by simpa using hf row' hrow')
          · exact hmax row' (mem_rowsOf.mpr ⟨⟨g', hg', hrow'⟩, hpk'⟩)
      | some first =>
          rw [hf] at h
          obtain rfl : first = row := Option.some.inj h
          have hrow := List.mem_of_find?_eq_some hf
          have hpk : first.pk = k := by simpa using List.find?_some hf
          refine ⟨⟨⟨f, .inl rfl, hrow⟩, hpk⟩, ?_⟩
          rintro row' ⟨⟨g', rfl | hg', hrow'⟩, hpk'⟩
          · exact .inl (List.inj_on_of_nodup_map (hu _ List.mem_cons_self) hrow' hrow
              (hpk'.trans hpk.symm))
          · exact .inr (hd.1 g' hg' first hrow row' hrow' (hpk.trans hpk'.symm))

/-- A row that is newer than all others is the one the merge takes. -/
theorem newestRow_of_max {rows : List Row} {row : Row} (hmem : row ∈ rows)
    (hmax : ∀ row' ∈ rows, row' = row ∨ row'.lsn < row.lsn) : newestRow rows = some row := by
  cases h : newestRow rows with
  | none =>
      rw [newestRow, List.argmax_eq_none] at h
      rw [h] at hmem
      contradiction
  | some top =>
      have hle := List.le_of_mem_argmax hmem h
      rcases hmax top (List.argmax_mem h) with rfl | hlt
      · rfl
      · omega

/-- Sorted by watermark, files come newest row first. -/
theorem descends_newestFirst (ho : files.Pairwise DataFile.Ordered) :
    (DataFile.newestFirst files).Pairwise fun f g => ∀ row ∈ f.rows, ∀ row' ∈ g.rows,
      row.pk = row'.pk → row'.lsn < row.lsn := by
  have hperm : (DataFile.newestFirst files).Pairwise DataFile.Ordered :=
    ((List.perm_insertionSort _ files).pairwise_iff DataFile.Ordered.symm).mpr ho
  refine (hperm.and (DataFile.pairwise_newestFirst files)).imp ?_
  rintro f g ⟨ho, hle⟩ row hrow row' hrow' he
  rcases ho row hrow row' hrow' he with ⟨hlt, -⟩ | ⟨-, hlt⟩
  · omega
  · exact hlt

/-- **The pruned point read is the unpruned merge**, whatever the files: it
returns what the row of the key with the greatest LSN says, and misses exactly
when no file holds the key. -/
theorem get_eq_merge {store files : List DataFile} {index : FileIndex}
    (hload : FileIndex.load files = .ok index) (hu : ∀ f ∈ files, f.KeysUnique)
    (hp : ∀ f ∈ files, f.Prunable) (ho : files.Pairwise DataFile.Ordered)
    (hexact : ∀ f ∈ files, ∀ k, getFromFile store f.entry k = .ok (f.lookup k)) (k : Bytes) :
    get store index k = .ok (merge files k) ∧
      (get store index k = .ok .missing ↔ ∀ f ∈ files, ∀ row ∈ f.rows, row.pk ≠ k) := by
  have hget := get_of_exact hload (FileIndex.nonneg_of_load hload) hp fun f hf => by
    rw [hexact f hf k, DataFile.lookup_eq]
  rw [firstHit_eq_firstRow] at hget
  have hsame : ∀ row, row ∈ rowsOf (DataFile.newestFirst files) k ↔ row ∈ rowsOf files k := by
    intro row
    simp only [mem_rowsOf, DataFile.mem_newestFirst]
  cases hfirst : firstRow (DataFile.newestFirst files) k with
  | none =>
      have hnil : rowsOf files k = [] := by
        rw [firstRow_eq_none] at hfirst
        exact List.eq_nil_iff_forall_not_mem.mpr fun row hrow => by
          simpa [hfirst] using (hsame row).mpr hrow
      rw [hget, hfirst, merge, hnil]
      refine ⟨rfl, fun _ f hf row hrow hpk => ?_, fun _ => rfl⟩
      have := mem_rowsOf.mpr ⟨⟨f, hf, hrow⟩, hpk⟩
      rw [hnil] at this
      contradiction
  | some row =>
      obtain ⟨hmem, hmax⟩ := newest_of_firstRow (fun f hf => hu f (DataFile.mem_newestFirst.mp hf))
        (descends_newestFirst ho) hfirst
      rw [hsame] at hmem
      have htop := newestRow_of_max hmem fun row' hrow' => hmax row' ((hsame row').mpr hrow')
      rw [hget, hfirst, merge, htop, Option.map_some, Option.map_some, Row.ofHit_version]
      refine ⟨rfl, fun hmiss => ?_, fun hnone => ?_⟩
      · rw [Row.lookup] at hmiss
        split at hmiss <;> cases hmiss
      · obtain ⟨⟨f, hf, hrow⟩, hpk⟩ := mem_rowsOf.mp hmem
        exact absurd hpk (hnone f hf row hrow)

/-- A file with one row group and no footer statistics is looked up exactly. -/
theorem getFromFile_single {store : List DataFile} {f : DataFile} {rows : List Row}
    (hf : store.find? (fun g => g.location = f.entry.location) = some f)
    (hg : f.rowGroups = [{ rows, statistics := none }]) (k : Bytes) :
    getFromFile store f.entry k = .ok (f.lookup k) := by
  have hrows : f.rows = rows := by simp [DataFile.rows, hg]
  rw [getFromFile, hf, DataFile.lookup, DataFile.row?, hrows]
  simp only [hg, scanRowGroups, rowGroupMayContain, Bool.not_true, Bool.false_eq_true, if_false,
    scanRowGroup]
  cases rows.find? fun row => row.pk = k <;> rfl

/-- Three files around the key `[1]`: a value, a tombstone that shadows it, and
a newer file that only its bloom rules out. -/
def overlapping : List DataFile :=
  [{ location := ['a'], pkMin := [1], pkMax := [2], lsnMax := 2, bloom := none
     rowGroups := [{ statistics := none
                     rows := [⟨[1], 1, 0, some [7]⟩, ⟨[2], 2, 0, some [8]⟩] }] },
   { location := ['c'], pkMin := [0], pkMax := [4], lsnMax := 6
     bloom := some ⟨[16785408, 2147745792, 2101248, 1074790400, 320, 67371008, 163840,
       1075838976], 1⟩
     rowGroups := [{ statistics := none
                     rows := [⟨[0], 5, 0, some [5]⟩, ⟨[4], 6, 0, some [6]⟩] }] },
   { location := ['b'], pkMin := [1], pkMax := [3], lsnMax := 4, bloom := none
     rowGroups := [{ statistics := none
                     rows := [⟨[1], 3, 1, none⟩, ⟨[3], 4, 0, some [9]⟩] }] }]

theorem get_eq_merge_overlapping :
    ∃ index, FileIndex.load overlapping = .ok index ∧ get overlapping index [1] = .ok .deleted := by
  have hload := FileIndex.load_eq (by decide : ∀ f ∈ overlapping, 0 ≤ f.lsnMax)
  have hexact : ∀ f ∈ overlapping, ∀ k, getFromFile overlapping f.entry k = .ok (f.lookup k) := by
    intro f hf k
    simp only [overlapping, List.mem_cons, List.not_mem_nil, or_false] at hf
    rcases hf with rfl | rfl | rfl <;> exact getFromFile_single (by decide) rfl k
  refine ⟨_, hload, ?_⟩
  rw [(get_eq_merge hload (by decide) (by decide +kernel) (by decide) hexact [1]).1]
  decide +kernel

end ColumnarReader

end HolyGrail
