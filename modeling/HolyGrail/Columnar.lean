import HolyGrail.Bloom
import HolyGrail.Flush

/-!
# HolyGrail.Columnar

The columnar level: live data files and the watermark derived from them
(`catalog.rs`), the in-memory file index (`index.rs`) and the point read
(`read.rs`).

A `DataFile` is what the catalog and the object store know of one live file:
its object key, its row groups with their footer statistics, and the column
statistics and bloom of its catalog rows.  Statistics are kept decoded; the
hex and decimal text they travel in is not modelled.

`Readable` says what the read path relies on.  A file that satisfies it
answers a key exactly as its rows do, whatever pruning skips on the way
(`get_load`).
-/

namespace HolyGrail

/-! ## live files -/

/-- A row group: its rows, and the `pk` minimum and maximum of its footer. -/
structure RowGroup where
  rows : List Row
  statistics : Option (Option Bytes × Option Bytes)
  deriving DecidableEq, Repr

structure DataFile where
  location : FileName
  rowGroups : List RowGroup
  pkMin : Bytes
  pkMax : Bytes
  lsnMax : Int
  bloom : Option CatalogBloom
  deriving DecidableEq, Repr

/-- `watermark as Lsn`. -/
def asU64 (n : Int) : Nat := (n % 2 ^ 64).toNat

/-- `DuckLake::published_watermark`: `COALESCE(MAX(lsn), 0)` over the live
files. -/
def publishedWatermark (files : List DataFile) : Nat :=
  match (files.map DataFile.lsnMax).max? with
  | none => 0
  | some w => asU64 w

/-! ## the file index -/

/-- `key >= lo && key <= hi`. -/
def within (lo hi key : Bytes) : Bool := (compare lo key).isLE && (compare key hi).isLE

structure FileEntry where
  location : FileName
  watermark : Nat
  pkMin : Bytes
  pkMax : Bytes
  bloom : Option CatalogBloom
  deriving DecidableEq, Repr

namespace FileEntry

/-- Could the file contain the key, by its bounds? -/
def mayContain (entry : FileEntry) (key : Bytes) : Bool := within entry.pkMin entry.pkMax key

/-- Might the file contain the key, by its bloom?  No bloom rules nothing
out. -/
def bloomMayContain (entry : FileEntry) (key : Bytes) : Bool :=
  entry.bloom.all fun b => b.mightContain key

end FileEntry

/-- The live files, newest watermark first. -/
structure FileIndex where
  entries : List FileEntry
  deriving DecidableEq, Repr

namespace FileIndex

/-- The row loop of `load`: `parse` rejects a negative `lsn` maximum. -/
def loadEntries : List DataFile → Except Error (List FileEntry)
  | [] => .ok []
  | f :: rest =>
      if f.lsnMax < 0 then
        .error (.config ("lsn max stat is not an integer: \"" ++ toString f.lsnMax ++ "\""))
      else
        match loadEntries rest with
        | .error e => .error e
        | .ok entries =>
            .ok ({ location := f.location, watermark := f.lsnMax.toNat, pkMin := f.pkMin,
                   pkMax := f.pkMax, bloom := f.bloom } :: entries)

/-- Newest first, files of equal watermark in catalog order. -/
def sortEntries (entries : List FileEntry) : List FileEntry :=
  entries.insertionSort fun a b => b.watermark ≤ a.watermark

/-- Build the index from the live files. -/
def load (files : List DataFile) : Except Error FileIndex :=
  match loadEntries files with
  | .error e => .error e
  | .ok entries => .ok { entries := sortEntries entries }

def candidates (index : FileIndex) (key : Bytes) : List FileEntry :=
  index.entries.filter fun e => e.mayContain key

/-- The highest watermark any file carries. -/
def watermark (index : FileIndex) : Nat := (index.entries.head?.map FileEntry.watermark).getD 0

end FileIndex

/-! ## the point read -/

namespace ColumnarReader

def rowGroupMayContain (rg : RowGroup) (key : Bytes) : Bool :=
  match rg.statistics with
  | some (some lo, some hi) => within lo hi key
  | _ => true

/-- `Op::Delete as i32`. -/
def deleteOp : Int := 1

/-- Scan one row group for the key. -/
def scanRowGroup (rg : RowGroup) (key : Bytes) : Lookup :=
  match rg.rows.find? fun row => row.pk = key with
  | none => .missing
  | some row => if row.op = deleteOp then .deleted else .found (row.value.getD [])

/-- The row-group loop of `get_from_file`: the first group that may contain
the key is final for the file. -/
def scanRowGroups : List RowGroup → Bytes → Lookup
  | [], _ => .missing
  | rg :: rest, key =>
      if !rowGroupMayContain rg key then scanRowGroups rest key else scanRowGroup rg key

def getFromFile (store : List DataFile) (entry : FileEntry) (key : Bytes) : Except Error Lookup :=
  match store.find? fun f => f.location = entry.location with
  | none => .error .parquet
  | some f => .ok (scanRowGroups f.rowGroups key)

/-- The file loop of `get`. -/
def getFrom (store : List DataFile) : List FileEntry → Bytes → Except Error Lookup
  | [], _ => .ok .missing
  | entry :: rest, key =>
      if !entry.bloomMayContain key then getFrom store rest key
      else
        match getFromFile store entry key with
        | .error e => .error e
        | .ok .missing => getFrom store rest key
        | .ok hit => .ok hit

/-- Look the key up in the columnar level. -/
def get (store : List DataFile) (index : FileIndex) (key : Bytes) : Except Error Lookup :=
  getFrom store (index.candidates key) key

end ColumnarReader

/-! ## a file as a tier -/

/-- The version of its key that a row stands for. -/
def Row.version (row : Row) : Version Bytes where
  lsn := row.lsn.toNat
  value := if row.op = ColumnarReader.deleteOp then none else some (row.value.getD [])

namespace DataFile

/-- All rows of a file, in file order. -/
def rows (f : DataFile) : List Row := f.rowGroups.flatMap RowGroup.rows

/-- The watermark of the file's index entry. -/
def watermark (f : DataFile) : Nat := f.lsnMax.toNat

/-- The version a file holds of a key. -/
def find (f : DataFile) : Tier Bytes Bytes := fun k =>
  (f.rows.find? fun row => row.pk = k).map Row.version

/-- A file as a chunk bounded by its watermark. -/
def chunk (f : DataFile) : Chunk Bytes Bytes where
  top := f.watermark
  find := fun k => (f.find k).filter fun v => v.lsn ≤ f.watermark
  le_top k v h := by
    rw [Option.filter_eq_some_iff] at h
    exact of_decide_eq_true h.2

/-- The index entry of a file. -/
def entry (f : DataFile) : FileEntry where
  location := f.location
  watermark := f.watermark
  pkMin := f.pkMin
  pkMax := f.pkMax
  bloom := f.bloom

/-- What the read path relies on. -/
structure Readable (f : DataFile) : Prop where
  lsnMax_nonneg : 0 ≤ f.lsnMax
  bounds : ∀ row ∈ f.rows, within f.pkMin f.pkMax row.pk
  bloom_complete : ∀ b, f.bloom = some b → ∀ row ∈ f.rows, b.mightContain row.pk
  scan : ∀ k, ColumnarReader.scanRowGroups f.rowGroups k = Lookup.ofHit (f.find k)

theorem mem_rows_of_find {f : DataFile} {k : Bytes} (h : f.find k ≠ none) :
    ∃ row ∈ f.rows, row.pk = k := by
  obtain ⟨v, hv⟩ := Option.ne_none_iff_exists'.mp h
  obtain ⟨row, hrow, -⟩ := Option.map_eq_some_iff.mp hv
  have hpk : row.pk = k := by simpa using List.find?_some hrow
  exact ⟨row, List.mem_of_find?_eq_some hrow, hpk⟩

/-- What pruning relies on: the bounds and the bloom rule out no key of the
file. -/
structure Prunable (f : DataFile) : Prop where
  bounds : ∀ row ∈ f.rows, within f.pkMin f.pkMax row.pk
  bloom_complete : ∀ b, f.bloom = some b → ∀ row ∈ f.rows, b.mightContain row.pk

theorem Readable.prunable {f : DataFile} (h : f.Readable) : f.Prunable :=
  ⟨h.bounds, h.bloom_complete⟩

theorem Prunable.find_eq_none_of_bounds {f : DataFile} (h : f.Prunable) {k : Bytes}
    (hk : f.entry.mayContain k = false) : f.find k = none := by
  by_contra hne
  obtain ⟨row, hrow, rfl⟩ := mem_rows_of_find hne
  rw [FileEntry.mayContain, entry, h.bounds row hrow] at hk
  contradiction

theorem Prunable.find_eq_none_of_bloom {f : DataFile} (h : f.Prunable) {k : Bytes}
    (hk : f.entry.bloomMayContain k = false) : f.find k = none := by
  by_contra hne
  obtain ⟨row, hrow, rfl⟩ := mem_rows_of_find hne
  rw [FileEntry.bloomMayContain, entry, Option.all_eq_false] at hk
  obtain ⟨b, hb, hm⟩ := hk
  rw [h.bloom_complete b hb row hrow] at hm
  contradiction

/-- The live files in the order the index walks them. -/
def newestFirst (files : List DataFile) : List DataFile :=
  files.insertionSort fun a b => b.watermark ≤ a.watermark

theorem mem_newestFirst {files : List DataFile} {f : DataFile} :
    f ∈ newestFirst files ↔ f ∈ files :=
  (List.perm_insertionSort _ files).mem_iff

theorem pairwise_newestFirst (files : List DataFile) :
    (newestFirst files).Pairwise fun a b => b.watermark ≤ a.watermark := by
  have : Std.Total fun a b : DataFile => b.watermark ≤ a.watermark :=
    ⟨fun a b => Nat.le_total b.watermark a.watermark⟩
  have : IsTrans DataFile fun a b => b.watermark ≤ a.watermark :=
    ⟨fun _ _ _ hab hbc => Nat.le_trans hbc hab⟩
  exact List.pairwise_insertionSort _ files

end DataFile

/-! ## the watermark -/

/-- The `lsn` maximum is a `BIGINT` that came from an LSN. -/
def DataFile.Stamped (f : DataFile) : Prop := 0 ≤ f.lsnMax ∧ f.lsnMax < 2 ^ 63

theorem asU64_eq {n : Int} (h0 : 0 ≤ n) (h : n < 2 ^ 63) : asU64 n = n.toNat := by
  rw [asU64, Int.emod_eq_of_lt h0 (by omega)]

/-- The published watermark is that of one of the files or one above it. -/
theorem le_publishedWatermark_of_lt {files : List DataFile} (h : ∀ f ∈ files, f.lsnMax < 2 ^ 63)
    {f : DataFile} (hf : f ∈ files) (h0 : 0 ≤ f.lsnMax) :
    f.watermark ≤ publishedWatermark files := by
  rw [publishedWatermark]
  cases hm : (files.map DataFile.lsnMax).max? with
  | none =>
      rw [List.max?_eq_none_iff, List.map_eq_nil_iff] at hm
      rw [hm] at hf
      contradiction
  | some w =>
      obtain ⟨hw, hmax⟩ := List.max?_eq_some_iff.mp hm
      obtain ⟨g, hg, rfl⟩ := List.mem_map.mp hw
      have hle := hmax f.lsnMax (List.mem_map_of_mem hf)
      simp only [DataFile.watermark, asU64_eq (Int.le_trans h0 hle) (h g hg)]
      omega

section
variable {files : List DataFile} (h : ∀ f ∈ files, f.Stamped)
include h

theorem le_publishedWatermark {f : DataFile} (hf : f ∈ files) :
    f.watermark ≤ publishedWatermark files :=
  le_publishedWatermark_of_lt (fun g hg => (h g hg).2) hf (h f hf).1

theorem publishedWatermark_cases :
    (files = [] ∧ publishedWatermark files = 0) ∨
      ∃ f ∈ files, publishedWatermark files = f.watermark := by
  rw [publishedWatermark]
  cases hm : (files.map DataFile.lsnMax).max? with
  | none =>
      rw [List.max?_eq_none_iff, List.map_eq_nil_iff] at hm
      exact .inl ⟨hm, rfl⟩
  | some w =>
      obtain ⟨hw, -⟩ := List.max?_eq_some_iff.mp hm
      obtain ⟨g, hg, rfl⟩ := List.mem_map.mp hw
      exact .inr ⟨g, hg, asU64_eq (h g hg).1 (h g hg).2⟩

theorem publishedWatermark_mono {f : DataFile} (hf : f.Stamped) :
    publishedWatermark files ≤ publishedWatermark (files ++ [f]) := by
  have hall : ∀ g ∈ files ++ [f], g.Stamped := by
    intro g hg
    rw [List.mem_append, List.mem_singleton] at hg
    rcases hg with hg | rfl
    · exact h g hg
    · exact hf
  rcases publishedWatermark_cases h with ⟨-, he⟩ | ⟨g, hg, he⟩
  · omega
  · rw [he]
    exact le_publishedWatermark hall (List.mem_append_left _ hg)

theorem publishedWatermark_lt {n : Nat} (hn : 0 < n) (hall : ∀ f ∈ files, f.watermark < n) :
    publishedWatermark files < n := by
  rcases publishedWatermark_cases h with ⟨-, he⟩ | ⟨f, hf, he⟩
  · omega
  · rw [he]
    exact hall f hf
end

/-! ## reads through the index -/

namespace FileIndex

theorem loadEntries_eq {files : List DataFile} (h : ∀ f ∈ files, 0 ≤ f.lsnMax) :
    loadEntries files = .ok (files.map DataFile.entry) := by
  induction files with
  | nil => rfl
  | cons f rest ih =>
      have hf := h f List.mem_cons_self
      rw [loadEntries, if_neg (by omega), ih fun g hg => h g (List.mem_cons_of_mem f hg)]
      rfl

theorem nonneg_of_loadEntries {files : List DataFile} {entries : List FileEntry}
    (h : loadEntries files = .ok entries) : ∀ f ∈ files, 0 ≤ f.lsnMax := by
  induction files generalizing entries with
  | nil => exact fun f hf => absurd hf List.not_mem_nil
  | cons f rest ih =>
      rw [loadEntries] at h
      split at h
      · contradiction
      · next hf =>
          split at h
          · contradiction
          · next hrest =>
              intro g hg
              rw [List.mem_cons] at hg
              rcases hg with rfl | hg
              · omega
              · exact ih hrest g hg

/-- An index that loads has no negative `lsn` maximum in it. -/
theorem nonneg_of_load {files : List DataFile} {index : FileIndex} (h : load files = .ok index) :
    ∀ f ∈ files, 0 ≤ f.lsnMax := by
  rw [load] at h
  split at h
  · contradiction
  · next hentries => exact nonneg_of_loadEntries hentries

theorem load_eq {files : List DataFile} (h : ∀ f ∈ files, 0 ≤ f.lsnMax) :
    load files = .ok { entries := (DataFile.newestFirst files).map DataFile.entry } := by
  rw [load, loadEntries_eq h]
  refine congrArg (fun entries => Except.ok (FileIndex.mk entries)) ?_
  rw [sortEntries, DataFile.newestFirst]
  exact (List.map_insertionSort _ _ DataFile.entry files fun a _ b _ => Iff.rfl).symm

end FileIndex

namespace ColumnarReader

/-- An object key finds its own file. -/
theorem find?_location {store : List DataFile} (hnd : (store.map DataFile.location).Nodup)
    {f : DataFile} (hf : f ∈ store) : store.find? (fun g => g.location = f.location) = some f := by
  induction store with
  | nil => contradiction
  | cons g rest ih =>
      rw [List.map_cons, List.nodup_cons] at hnd
      rw [List.mem_cons] at hf
      rcases hf with rfl | hf
      · simp
      · have hne : g.location ≠ f.location := fun he => hnd.1 (he ▸ List.mem_map_of_mem hf)
        simp [hne, ih hnd.2 hf]

theorem getFromFile_eq {store : List DataFile} (hnd : (store.map DataFile.location).Nodup)
    {f : DataFile} (hf : f ∈ store) (hr : f.Readable) (k : Bytes) :
    getFromFile store f.entry k = .ok (Lookup.ofHit (f.find k)) := by
  rw [getFromFile, DataFile.entry]
  simp only
  rw [find?_location hnd hf]
  exact congrArg Except.ok (hr.scan k)

/-- The file loop over files that are looked up exactly. -/
theorem getFrom_of_exact {store files : List DataFile} (hp : ∀ f ∈ files, f.Prunable) {k : Bytes}
    (hexact : ∀ f ∈ files, getFromFile store f.entry k = .ok (Lookup.ofHit (f.find k))) :
    getFrom store ((files.map DataFile.entry).filter fun e => e.mayContain k) k =
      .ok (Lookup.ofHit (firstHit (files.map DataFile.find) k)) := by
  induction files with
  | nil => rfl
  | cons f rest ih =>
      have ih := ih (fun g hg => hp g (List.mem_cons_of_mem f hg))
        fun g hg => hexact g (List.mem_cons_of_mem f hg)
      have hf := hp f List.mem_cons_self
      rw [List.map_cons, List.map_cons, firstHit]
      -- Each way of not opening the file, or of opening it in vain, is a miss.
      by_cases hb : f.entry.mayContain k
      · rw [List.filter_cons, if_pos hb, getFrom]
        by_cases hbl : f.entry.bloomMayContain k
        · rw [hbl, Bool.not_true, if_neg Bool.false_ne_true, hexact f List.mem_cons_self]
          cases hv : f.find k with
          | none => simpa [Lookup.ofHit] using ih
          | some v => obtain ⟨l, _ | b⟩ := v <;> rfl
        · rw [Bool.not_eq_true] at hbl
          rw [hbl, Bool.not_false, if_pos rfl, hf.find_eq_none_of_bloom hbl, Option.none_or]
          exact ih
      · rw [List.filter_cons, if_neg hb, hf.find_eq_none_of_bounds (by simpa using hb),
          Option.none_or]
        exact ih

/-- A read through the index of files that are looked up exactly. -/
theorem get_of_exact {store files : List DataFile} {index : FileIndex}
    (hload : FileIndex.load files = .ok index) (h0 : ∀ f ∈ files, 0 ≤ f.lsnMax)
    (hp : ∀ f ∈ files, f.Prunable) {k : Bytes}
    (hexact : ∀ f ∈ files, getFromFile store f.entry k = .ok (Lookup.ofHit (f.find k))) :
    get store index k =
      .ok (Lookup.ofHit (firstHit ((DataFile.newestFirst files).map DataFile.find) k)) := by
  rw [FileIndex.load_eq h0, Except.ok.injEq] at hload
  rw [← hload, get, FileIndex.candidates]
  exact getFrom_of_exact (fun f hf => hp f (DataFile.mem_newestFirst.mp hf))
    fun f hf => hexact f (DataFile.mem_newestFirst.mp hf)

/-- **Pruning is invisible.**  Over readable files, the point read through the
loaded index is the first hit of the files, newest watermark first. -/
theorem get_load {store files : List DataFile} (hnd : (store.map DataFile.location).Nodup)
    (hsub : ∀ f ∈ files, f ∈ store) (hr : ∀ f ∈ files, f.Readable) {index : FileIndex}
    (hload : FileIndex.load files = .ok index) (k : Bytes) :
    get store index k =
      .ok (Lookup.ofHit (firstHit ((DataFile.newestFirst files).map DataFile.find) k)) := by
  exact get_of_exact hload (fun f hf => (hr f hf).lsnMax_nonneg) (fun f hf => (hr f hf).prunable)
    fun f hf => getFromFile_eq hnd (hsub f hf) (hr f hf) k

end ColumnarReader

end HolyGrail
