import HolyGrail.Columnar
import HolyGrail.Run
import HolyGrail.Wal
import Mathlib.Order.Bounds.Basic

/-!
# HolyGrail.Catalog

The rows of the DuckLake catalog, and the two queries the engine makes of them:
`DuckLake::published_watermark` (`catalog.rs`) and `FileIndex::load`
(`index.rs`).

A `DataFile` of `HolyGrail.Columnar` has all its statistics; here they are rows
of a table of their own, a column of a file may have none, and what is there may
be `NULL`.  The two queries join them differently: the watermark needs only the
`lsn` statistic of a file, the index needs those of `pk` and `lsn`, and reads
all three texts as non-null strings.  So a file can count for the watermark and
be missing in the index, or keep the index from loading at all
(`sees_same_files_iff`).

The decoders of the `hex` and `base64` crates are parameters.
-/

namespace HolyGrail

/-- A text column. -/
abbrev Text := List Char

/-! ## the tables -/

/-- A row of `ducklake_data_file`. -/
structure DataFileRow where
  dataFileId : Int
  tableId : Int
  endSnapshot : Option Int
  path : Text
  deriving DecidableEq, Repr

/-- A row of `ducklake_file_column_stats`. -/
structure ColumnStats where
  dataFileId : Int
  tableId : Int
  columnId : Int
  minValue : Option Text
  maxValue : Option Text
  deriving DecidableEq, Repr

/-- A row of `ducklake_file_column_blooms`. -/
structure ColumnBloom where
  dataFileId : Int
  columnId : Int
  bloom : Option Text
  deriving DecidableEq, Repr

structure Catalog where
  dataFiles : List DataFileRow
  columnStats : List ColumnStats
  columnBlooms : List ColumnBloom
  /-- A statistic is filed under the table of its file. -/
  stats_table : ∀ f ∈ dataFiles, ∀ s ∈ columnStats, s.dataFileId = f.dataFileId →
    s.tableId = f.tableId

/-- `FIELD_ID_PK`. -/
def fieldIdPk : Int := 1

/-- `FIELD_ID_LSN`. -/
def fieldIdLsn : Int := 2

namespace Catalog

variable (cat : Catalog)

/-- The files of a table that are not ended. -/
def liveFiles (table : Int) : List DataFileRow :=
  cat.dataFiles.filter fun f => f.tableId = table ∧ f.endSnapshot = none

/-- The statistics of one column of a file. -/
def statsOf (f : DataFileRow) (column : Int) : List ColumnStats :=
  cat.columnStats.filter fun s => s.dataFileId = f.dataFileId ∧ s.columnId = column

/-- The right side of the `LEFT JOIN`: a null where no row matches. -/
def bloomsOf (f : DataFileRow) : List (Option Text) :=
  match cat.columnBlooms.filter fun b => b.dataFileId = f.dataFileId ∧ b.columnId = fieldIdPk with
  | [] => [none]
  | blooms => blooms.map ColumnBloom.bloom

end Catalog

/-! ## the watermark -/

/-- `text::BIGINT`, on decimal integers. -/
def castBigint (text : Text) : Option Int :=
  let negative := text.head? = some '-'
  let digits := if negative ∨ text.head? = some '+' then text.tail else text
  if digits = [] then none
  else
    ((parseDigits 0 digits).map fun n : Nat => if negative then -(n : Int) else (n : Int)).filter
      fun n => -2 ^ 63 ≤ n ∧ n < 2 ^ 63

namespace Catalog

/-- The `lsn` statistics of live files, by the table they are filed under. -/
def watermarkRows (cat : Catalog) (table : Int) : List ColumnStats :=
  (cat.columnStats.filter fun s => s.tableId = table ∧ s.columnId = fieldIdLsn).flatMap fun s =>
    (cat.dataFiles.filter fun f => f.dataFileId = s.dataFileId ∧ f.endSnapshot = none).map
      fun _ => s

/-- The cast of every row the query selects.  `MAX` passes over nulls; a text
that is no number fails the query. -/
def castAll : List ColumnStats → Except Error (List Int)
  | [] => .ok []
  | s :: rest =>
      match s.maxValue with
      | none => castAll rest
      | some text =>
          match castBigint text, castAll rest with
          | none, _ => .error .postgres
          | _, .error e => .error e
          | some n, .ok ns => .ok (n :: ns)

/-- `DuckLake::published_watermark`. -/
def publishedWatermark (cat : Catalog) (table : Int) : Except Error Nat :=
  match castAll (cat.watermarkRows table) with
  | .error e => .error e
  | .ok ns => .ok ((ns.max?.map asU64).getD 0)

end Catalog

/-! ## the file index -/

/-- How `FileIndex::load` ends other than by returning an index: `Row::get`
panics on a null, and texts that do not decode are errors. -/
inductive LoadFailure where
  | panicked
  | failed (e : Error)
  deriving DecidableEq, Repr

/-- The decoders of the `hex` and the `base64` crate. -/
structure Decoders where
  /-- `hex::decode`, with the text of its error. -/
  hex : Text → Except String Bytes
  base64 : Text → Option Bytes

def decodeHex (dec : Decoders) (s : Text) (what : String) : Except LoadFailure Bytes :=
  match dec.hex s with
  | .ok bytes => .ok bytes
  | .error e => .error (.failed (.config
      (what ++ " is not valid hex (\"" ++ String.ofList s ++ "\"): " ++ e)))

/-- Whole groups of four bytes, little-endian. -/
def wordsOf : Bytes → List UInt32
  | b0 :: b1 :: b2 :: b3 :: rest => UInt32.ofNat (leNat [b0, b1, b2, b3]) :: wordsOf rest
  | _ => []

/-- `BYTES_PER_BLOCK`. -/
def bytesPerBlock : Nat := wordsPerBlock * 4

def CatalogBloom.fromBase64 (base64 : Text → Option Bytes) (b64 : Text) : Option CatalogBloom :=
  match base64 b64 with
  | none => none
  | some bytes =>
      if bytes = [] ∨ bytes.length % bytesPerBlock ≠ 0 then none
      else some { words := wordsOf bytes, numBlocks := bytes.length / bytesPerBlock }

/-- A row of the three-way join. -/
structure IndexRow where
  file : DataFileRow
  pk : ColumnStats
  lsn : ColumnStats
  bloom : Option Text
  deriving DecidableEq, Repr

/-- What the query of `FileIndex::load` selects. -/
def Catalog.indexRows (cat : Catalog) (table : Int) : List IndexRow :=
  (cat.liveFiles table).flatMap fun f =>
    (cat.statsOf f fieldIdPk).flatMap fun pk =>
      (cat.statsOf f fieldIdLsn).flatMap fun lsn =>
        (cat.bloomsOf f).map fun bloom => { file := f, pk, lsn, bloom }

/-- `row.get::<String>`. -/
def getText (value : Option Text) : Except LoadFailure Text :=
  match value with
  | some text => .ok text
  | none => .error .panicked

/-- `parse::<Lsn>` of the `lsn` maximum. -/
def parseWatermark (text : Text) : Except LoadFailure Nat :=
  match parseLsn text with
  | some n => .ok n
  | none => .error (.failed (.config
      ("lsn max stat is not an integer: \"" ++ String.ofList text ++ "\"")))

namespace IndexRow

/-- The body of the row loop of `FileIndex::load`. -/
def entry (dec : Decoders) (keyPrefix : Text) (row : IndexRow) :
    Except LoadFailure FileEntry := do
  let pkMinHex ← getText row.pk.minValue
  let pkMaxHex ← getText row.pk.maxValue
  let lsnMaxStr ← getText row.lsn.maxValue
  let pkMin ← decodeHex dec pkMinHex "pk min"
  let pkMax ← decodeHex dec pkMaxHex "pk max"
  let watermark ← parseWatermark lsnMaxStr
  return { location := keyPrefix ++ row.file.path, watermark, pkMin, pkMax
           bloom := row.bloom.bind (CatalogBloom.fromBase64 dec.base64) }

/-- The row loop of `FileIndex::load`. -/
def entries (dec : Decoders) (keyPrefix : Text) :
    List IndexRow → Except LoadFailure (List FileEntry)
  | [] => .ok []
  | row :: rest => do
      let e ← row.entry dec keyPrefix
      let es ← entries dec keyPrefix rest
      return e :: es

end IndexRow

/-- `FileIndex::load`, on the rows the query returned. -/
def FileIndex.loadRows (dec : Decoders) (keyPrefix : Text) (rows : List IndexRow) :
    Except LoadFailure FileIndex := do
  let entries ← IndexRow.entries dec keyPrefix rows
  return { entries := sortEntries entries }

/-! ## texts -/

/-- A statistic of the `lsn` column, when present, is a non-negative decimal
integer of a `BIGINT`. -/
def ColumnStats.Decimal (s : ColumnStats) : Prop :=
  ∀ text ∈ s.maxValue, text ≠ [] ∧ ∃ n < 2 ^ 63, parseDigits 0 text = some n

/-- The number a decimal statistic stands for. -/
def ColumnStats.lsnMax (s : ColumnStats) : Option Nat := s.maxValue.bind (parseDigits 0)

theorem head?_of_parseDigits {text : Text} {n : Nat} (h : parseDigits 0 text = some n) {c : Char}
    (hc : c.isDigit = false) : text.head? ≠ some c := by
  intro he
  cases text with
  | nil => contradiction
  | cons d rest =>
      rw [List.head?_cons, Option.some.injEq] at he
      rw [parseDigits, he, hc, if_neg Bool.false_ne_true] at h
      contradiction

theorem parseWatermark_of_digits {text : Text} {n : Nat} (hne : text ≠ [])
    (h : parseDigits 0 text = some n) (hlt : n < 2 ^ 63) : parseWatermark text = .ok n := by
  have hparse : parseLsn text = some n := by
    simp only [parseLsn, if_neg (head?_of_parseDigits h (by decide : '+'.isDigit = false)),
      if_neg hne, h, Option.filter_some]
    rw [if_pos (decide_eq_true (by omega))]
  rw [parseWatermark, hparse]

theorem castBigint_of_digits {text : Text} {n : Nat} (hne : text ≠ [])
    (h : parseDigits 0 text = some n) (hlt : n < 2 ^ 63) : castBigint text = some (n : Int) := by
  have hminus := head?_of_parseDigits h (by decide : '-'.isDigit = false)
  have hplus := head?_of_parseDigits h (by decide : '+'.isDigit = false)
  simp only [castBigint, hminus, hplus, or_self, if_false, if_neg hne, h, Option.map_some,
    Option.filter_some]
  rw [if_pos (decide_eq_true (by omega))]

/-- The bounds of a key column can be read: neither is null, both are
hexadecimal. -/
def ColumnStats.Readable (dec : Decoders) (s : ColumnStats) : Prop :=
  ∃ lo hi pkMin pkMax, s.minValue = some lo ∧ s.maxValue = some hi ∧
    dec.hex lo = .ok pkMin ∧ dec.hex hi = .ok pkMax

/-- A hexadecimal text that is there. -/
def IsHex (dec : Decoders) (value : Option Text) : Prop :=
  ∃ text ∈ value, ∃ bytes, dec.hex text = .ok bytes

theorem ColumnStats.readable_iff {dec : Decoders} {s : ColumnStats} :
    s.Readable dec ↔ IsHex dec s.minValue ∧ IsHex dec s.maxValue := by
  constructor
  · rintro ⟨lo, hi, pkMin, pkMax, hlo, hhi, hmin, hmax⟩
    exact ⟨⟨lo, hlo, pkMin, hmin⟩, hi, hhi, pkMax, hmax⟩
  · rintro ⟨⟨lo, hlo, pkMin, hmin⟩, hi, hhi, pkMax, hmax⟩
    exact ⟨lo, hi, pkMin, pkMax, hlo, hhi, hmin, hmax⟩

instance (dec : Decoders) (value : Option Text) : Decidable (IsHex dec value) :=
  decidable_of_iff (∃ text ∈ value, (dec.hex text).isOk = true) <| by
    refine exists_congr fun text => and_congr_right fun _ => ?_
    cases dec.hex text <;> simp [Except.isOk, Except.toBool]

instance (dec : Decoders) (s : ColumnStats) : Decidable (s.Readable dec) :=
  decidable_of_iff _ ColumnStats.readable_iff.symm

instance (s : ColumnStats) : Decidable s.Decimal :=
  decidable_of_iff
    (∀ text ∈ s.maxValue, text ≠ [] ∧ ∃ n ∈ parseDigits 0 text, n < 2 ^ 63) <| by
    refine forall_congr' fun text => forall_congr' fun _ => and_congr_right fun _ => ?_
    exact exists_congr fun n => and_comm

theorem decodeHex_eq_ok {dec : Decoders} {text : Text} {what : String} {bytes : Bytes} :
    decodeHex dec text what = .ok bytes ↔ dec.hex text = .ok bytes := by
  rw [decodeHex]
  cases dec.hex text <;> simp

theorem getText_eq_ok {value : Option Text} {text : Text} :
    getText value = .ok text ↔ value = some text := by
  cases value <;> simp [getText]

namespace IndexRow

variable {dec : Decoders} {keyPrefix : Text} {row : IndexRow}

theorem entry_eq_ok {e : FileEntry} :
    row.entry dec keyPrefix = .ok e ↔
      ∃ lo hi text pkMin pkMax watermark, row.pk.minValue = some lo ∧ row.pk.maxValue = some hi ∧
        row.lsn.maxValue = some text ∧ dec.hex lo = .ok pkMin ∧ dec.hex hi = .ok pkMax ∧
        parseWatermark text = .ok watermark ∧
        e = { location := keyPrefix ++ row.file.path, watermark, pkMin, pkMax
              bloom := row.bloom.bind (CatalogBloom.fromBase64 dec.base64) } := by
  simp only [entry, bind_eq_ok, getText_eq_ok, decodeHex_eq_ok, pure, Except.pure,
    Except.ok.injEq]
  constructor
  · rintro ⟨lo, hlo, hi, hhi, text, ht, pkMin, hmin, pkMax, hmax, w, hw, he⟩
    exact ⟨lo, hi, text, pkMin, pkMax, w, hlo, hhi, ht, hmin, hmax, hw, he.symm⟩
  · rintro ⟨lo, hi, text, pkMin, pkMax, w, hlo, hhi, ht, hmin, hmax, hw, he⟩
    exact ⟨lo, hlo, hi, hhi, text, ht, pkMin, hmin, pkMax, hmax, w, hw, he.symm⟩

/-- A row can be read when the statistics behind it can. -/
theorem entry_of_readable (hpk : row.pk.Readable dec) (hne : row.lsn.maxValue ≠ none)
    (hdec : row.lsn.Decimal) : ∃ e, row.entry dec keyPrefix = .ok e := by
  obtain ⟨lo, hi, pkMin, pkMax, hlo, hhi, hmin, hmax⟩ := hpk
  obtain ⟨text, ht⟩ := Option.ne_none_iff_exists'.mp hne
  obtain ⟨hnil, n, hlt, hn⟩ := hdec text ht
  exact ⟨_, entry_eq_ok.mpr ⟨lo, hi, text, pkMin, pkMax, n, hlo, hhi, ht, hmin, hmax,
    parseWatermark_of_digits hnil hn hlt, rfl⟩⟩

theorem readable_of_entry {e : FileEntry} (h : row.entry dec keyPrefix = .ok e) :
    row.pk.Readable dec ∧ row.lsn.maxValue ≠ none := by
  obtain ⟨lo, hi, text, pkMin, pkMax, w, hlo, hhi, ht, hmin, hmax, -⟩ := entry_eq_ok.mp h
  exact ⟨⟨lo, hi, pkMin, pkMax, hlo, hhi, hmin, hmax⟩, by simp [ht]⟩

theorem lsnMax_of_entry {e : FileEntry} (h : row.entry dec keyPrefix = .ok e)
    (hdec : row.lsn.Decimal) : row.lsn.lsnMax = some e.watermark := by
  obtain ⟨lo, hi, text, pkMin, pkMax, w, -, -, ht, -, -, hw, rfl⟩ := entry_eq_ok.mp h
  obtain ⟨hnil, n, hlt, hn⟩ := hdec text ht
  rw [parseWatermark_of_digits hnil hn hlt, Except.ok.injEq] at hw
  rw [ColumnStats.lsnMax, ht, Option.bind_some, hn, hw]

theorem exists_entries {rows : List IndexRow}
    (h : ∀ row ∈ rows, ∃ e, row.entry dec keyPrefix = .ok e) :
    ∃ es, entries dec keyPrefix rows = .ok es := by
  induction rows with
  | nil => exact ⟨[], rfl⟩
  | cons row rest ih =>
      obtain ⟨e, he⟩ := h row List.mem_cons_self
      obtain ⟨es, hes⟩ := ih fun r hr => h r (List.mem_cons_of_mem row hr)
      exact ⟨e :: es, by rw [entries, he, hes]; rfl⟩

/-- The entries are those of the rows. -/
theorem mem_entries {rows : List IndexRow} {es : List FileEntry}
    (h : entries dec keyPrefix rows = .ok es) :
    (∀ row ∈ rows, ∃ e ∈ es, row.entry dec keyPrefix = .ok e) ∧
      ∀ e ∈ es, ∃ row ∈ rows, row.entry dec keyPrefix = .ok e := by
  induction rows generalizing es with
  | nil =>
      obtain rfl : [] = es := Except.ok.inj h
      exact ⟨fun row hr => absurd hr List.not_mem_nil, fun e he => absurd he List.not_mem_nil⟩
  | cons row rest ih =>
      rw [entries, bind_eq_ok] at h
      obtain ⟨e, he, h⟩ := h
      rw [bind_eq_ok] at h
      obtain ⟨es', hes, h⟩ := h
      obtain rfl : e :: es' = es := Except.ok.inj h
      obtain ⟨hto, hback⟩ := ih hes
      constructor
      · intro r hr
        rcases List.mem_cons.mp hr with rfl | hr
        · exact ⟨e, List.mem_cons_self, he⟩
        · obtain ⟨e', he', heq⟩ := hto r hr
          exact ⟨e', List.mem_cons_of_mem e he', heq⟩
      · intro e' he'
        rcases List.mem_cons.mp he' with rfl | he'
        · exact ⟨row, List.mem_cons_self, he⟩
        · obtain ⟨r, hr, heq⟩ := hback e' he'
          exact ⟨r, List.mem_cons_of_mem row hr, heq⟩

end IndexRow

/-! ## the rows of the two queries -/

namespace Catalog

variable {cat : Catalog} {table : Int}

theorem mem_liveFiles {f : DataFileRow} :
    f ∈ cat.liveFiles table ↔ f ∈ cat.dataFiles ∧ f.tableId = table ∧ f.endSnapshot = none := by
  rw [liveFiles, List.mem_filter, decide_eq_true_eq]

theorem mem_statsOf {f : DataFileRow} {column : Int} {s : ColumnStats} :
    s ∈ cat.statsOf f column ↔
      s ∈ cat.columnStats ∧ s.dataFileId = f.dataFileId ∧ s.columnId = column := by
  rw [statsOf, List.mem_filter, decide_eq_true_eq]

theorem bloomsOf_ne_nil (f : DataFileRow) : cat.bloomsOf f ≠ [] := by
  rw [bloomsOf]
  split
  · simp
  · next h => simpa using h

theorem mem_indexRows {row : IndexRow} :
    row ∈ cat.indexRows table ↔ row.file ∈ cat.liveFiles table ∧
      row.pk ∈ cat.statsOf row.file fieldIdPk ∧ row.lsn ∈ cat.statsOf row.file fieldIdLsn ∧
      row.bloom ∈ cat.bloomsOf row.file := by
  simp only [indexRows, List.mem_flatMap, List.mem_map]
  constructor
  · rintro ⟨f, hf, pk, hpk, lsn, hlsn, b, hb, rfl⟩
    exact ⟨hf, hpk, hlsn, hb⟩
  · rintro ⟨hf, hpk, hlsn, hb⟩
    exact ⟨row.file, hf, row.pk, hpk, row.lsn, hlsn, row.bloom, hb, rfl⟩

/-- The watermark query ranges over the `lsn` statistics of the live files. -/
theorem mem_watermarkRows {s : ColumnStats} :
    s ∈ cat.watermarkRows table ↔ ∃ f ∈ cat.liveFiles table, s ∈ cat.statsOf f fieldIdLsn := by
  simp only [watermarkRows, List.mem_flatMap, List.mem_filter, List.mem_map, decide_eq_true_eq,
    mem_liveFiles, mem_statsOf]
  constructor
  · rintro ⟨s', ⟨hs, htab, hcol⟩, f, ⟨hf, hid, hlive⟩, rfl⟩
    exact ⟨f, ⟨hf, (cat.stats_table f hf s' hs hid.symm).symm.trans htab, hlive⟩, hs, hid.symm,
      hcol⟩
  · rintro ⟨f, ⟨hf, htab, hlive⟩, hs, hid, hcol⟩
    exact ⟨s, ⟨hs, (cat.stats_table f hf s hs hid).trans htab, hcol⟩, f, ⟨hf, hid.symm, hlive⟩,
      rfl⟩

/-- The `lsn` statistics of the live files of the table are decimal. -/
def LsnDecimal (cat : Catalog) (table : Int) : Prop :=
  ∀ f ∈ cat.liveFiles table, ∀ s ∈ cat.statsOf f fieldIdLsn, s.Decimal

theorem castAll_eq {rows : List ColumnStats} (h : ∀ s ∈ rows, s.Decimal) :
    castAll rows = .ok ((rows.filterMap ColumnStats.lsnMax).map Nat.cast) := by
  induction rows with
  | nil => rfl
  | cons s rest ih =>
      have ih := ih fun r hr => h r (List.mem_cons_of_mem s hr)
      rw [castAll]
      cases hm : s.maxValue with
      | none => rw [ih, List.filterMap_cons, ColumnStats.lsnMax, hm]; rfl
      | some text =>
          obtain ⟨hnil, n, hlt, hn⟩ := h s List.mem_cons_self text hm
          simp only [castBigint_of_digits hnil hn hlt, ih, List.filterMap_cons, ColumnStats.lsnMax,
            hm, Option.bind_some, hn, List.map_cons]

end Catalog

/-! ## the two watermarks -/

/-- The published watermark is the greatest `lsn` statistic of the live files. -/
theorem Catalog.isGreatest_watermark {cat : Catalog} {table : Int} (h : cat.LsnDecimal table) :
    ∃ w, cat.publishedWatermark table = .ok w ∧
      IsGreatest (insert 0 {n | ∃ s ∈ cat.watermarkRows table, s.lsnMax = some n}) w := by
  have hdec : ∀ s ∈ cat.watermarkRows table, s.Decimal := by
    intro s hs
    obtain ⟨f, hf, hs⟩ := mem_watermarkRows.mp hs
    exact h f hf s hs
  refine ⟨_, by rw [publishedWatermark, castAll_eq hdec], ?_⟩
  have hmem : ∀ n, n ∈ (cat.watermarkRows table).filterMap ColumnStats.lsnMax ↔
      ∃ s ∈ cat.watermarkRows table, s.lsnMax = some n := fun n => List.mem_filterMap
  have hlt : ∀ n ∈ (cat.watermarkRows table).filterMap ColumnStats.lsnMax, n < 2 ^ 63 := by
    intro n hn
    obtain ⟨s, hs, hn⟩ := (hmem n).mp hn
    obtain ⟨text, ht, hn⟩ := Option.bind_eq_some_iff.mp hn
    obtain ⟨-, m, hm, hm'⟩ := hdec s hs text ht
    rw [hn, Option.some.injEq] at hm'
    omega
  generalize (cat.watermarkRows table).filterMap ColumnStats.lsnMax = ns at hmem hlt
  cases hmax : (ns.map (Nat.cast : Nat → Int)).max? with
  | none =>
      rw [List.max?_eq_none_iff, List.map_eq_nil_iff] at hmax
      refine ⟨Set.mem_insert 0 _, fun m hm => ?_⟩
      rcases hm with rfl | hm
      · exact Nat.zero_le _
      · have hm := (hmem m).mpr hm
        rw [hmax] at hm
        contradiction
  | some w =>
      obtain ⟨hw, hle⟩ := List.max?_eq_some_iff.mp hmax
      obtain ⟨n, hn, rfl⟩ := List.mem_map.mp hw
      have hu64 : asU64 (n : Int) = n := by
        have := hlt n hn
        rw [asU64_eq (Int.natCast_nonneg n) (by omega), Int.toNat_natCast]
      rw [Option.map_some, Option.getD_some, hu64]
      refine ⟨.inr ((hmem n).mp hn), fun m hm => ?_⟩
      rcases hm with rfl | hm
      · exact Nat.zero_le _
      · have := hle m (List.mem_map_of_mem ((hmem m).mpr hm))
        omega

/-- The watermark of an index is the greatest of its entries. -/
theorem FileIndex.isGreatest_watermark (es : List FileEntry) :
    IsGreatest (insert 0 {n | ∃ e ∈ es, e.watermark = n})
      (FileIndex.mk (sortEntries es)).watermark := by
  have : Std.Total fun a b : FileEntry => b.watermark ≤ a.watermark :=
    ⟨fun a b => Nat.le_total b.watermark a.watermark⟩
  have : IsTrans FileEntry fun a b => b.watermark ≤ a.watermark :=
    ⟨fun _ _ _ hab hbc => Nat.le_trans hbc hab⟩
  have hsorted := List.pairwise_insertionSort (fun a b : FileEntry => b.watermark ≤ a.watermark) es
  have hmem : ∀ e, e ∈ sortEntries es ↔ e ∈ es := fun e =>
    (List.perm_insertionSort _ es).mem_iff
  rw [watermark]
  change (sortEntries es).Pairwise _ at hsorted
  generalize sortEntries es = sorted at hsorted hmem
  cases sorted with
  | nil =>
      refine ⟨Set.mem_insert 0 _, fun m hm => ?_⟩
      rcases hm with rfl | ⟨e, he, -⟩
      · exact Nat.zero_le _
      · exact absurd ((hmem e).mpr he) List.not_mem_nil
  | cons top rest =>
      rw [List.pairwise_cons] at hsorted
      refine ⟨.inr ⟨top, (hmem top).mp List.mem_cons_self, rfl⟩, fun m hm => ?_⟩
      rcases hm with rfl | ⟨e, he, rfl⟩
      · exact Nat.zero_le _
      · rcases List.mem_cons.mp ((hmem e).mpr he) with rfl | he
        · exact Nat.le_refl _
        · exact hsorted.1 e he

/-! ## both see the same files -/

section
variable (dec : Decoders) (keyPrefix : Text)

/-- The index has an entry made from the file. -/
def FileIndex.Lists (rows : List IndexRow) (index : FileIndex) (f : DataFileRow) : Prop :=
  ∃ row ∈ rows, row.file = f ∧ ∃ e ∈ index.entries, row.entry dec keyPrefix = .ok e

/-- The index loads, it lists every live file the watermark query ranges over,
and both have the same watermark.  `rows` is what the query of `load` returned. -/
def Catalog.SeesSameFiles (cat : Catalog) (table : Int) (rows : List IndexRow) : Prop :=
  ∃ index, FileIndex.loadRows dec keyPrefix rows = .ok index ∧
    (∀ f ∈ cat.liveFiles table, (∃ s ∈ cat.watermarkRows table, s.dataFileId = f.dataFileId) →
      index.Lists dec keyPrefix rows f) ∧
    cat.publishedWatermark table = .ok index.watermark

instance (cat : Catalog) (table : Int) : Decidable (cat.LsnDecimal table) :=
  inferInstanceAs (Decidable (∀ f ∈ cat.liveFiles table, ∀ s ∈ cat.statsOf f fieldIdLsn, _))

/-- Of every live file with an `lsn` statistic, the statistics `load` reads are
there and can be read. -/
def Catalog.Complete (dec : Decoders) (cat : Catalog) (table : Int) : Prop :=
  ∀ f ∈ cat.liveFiles table, cat.statsOf f fieldIdLsn ≠ [] →
    cat.statsOf f fieldIdPk ≠ [] ∧ (∀ s ∈ cat.statsOf f fieldIdPk, s.Readable dec) ∧
      ∀ s ∈ cat.statsOf f fieldIdLsn, s.maxValue ≠ none

instance (cat : Catalog) (table : Int) : Decidable (cat.Complete dec table) :=
  inferInstanceAs (Decidable (∀ f ∈ cat.liveFiles table, _ → _ ∧ _))
end

namespace Catalog

variable {dec : Decoders} {keyPrefix : Text} {cat : Catalog} {table : Int}
  {rows : List IndexRow}

theorem loadRows_eq_ok {index : FileIndex} :
    FileIndex.loadRows dec keyPrefix rows = .ok index ↔
      ∃ es, IndexRow.entries dec keyPrefix rows = .ok es ∧
        { entries := FileIndex.sortEntries es } = index := by
  simp only [FileIndex.loadRows, bind_eq_ok, pure, Except.pure, Except.ok.injEq]

theorem lsn_decimal (h : cat.LsnDecimal table) {row : IndexRow}
    (hrow : row ∈ cat.indexRows table) : row.lsn.Decimal := by
  obtain ⟨hf, -, hlsn, -⟩ := mem_indexRows.mp hrow
  exact h row.file hf row.lsn hlsn

/-- A live file with an `lsn` statistic and one of `pk` is behind a row. -/
theorem exists_row {f : DataFileRow} (hf : f ∈ cat.liveFiles table) {pk lsn : ColumnStats}
    (hpk : pk ∈ cat.statsOf f fieldIdPk) (hlsn : lsn ∈ cat.statsOf f fieldIdLsn) :
    ∃ row ∈ cat.indexRows table, row.file = f ∧ row.pk = pk ∧ row.lsn = lsn := by
  obtain ⟨b, hb⟩ := List.exists_mem_of_ne_nil _ (cat.bloomsOf_ne_nil f)
  exact ⟨⟨f, pk, lsn, b⟩, mem_indexRows.mpr ⟨hf, hpk, hlsn, hb⟩, rfl, rfl, rfl⟩

/-- The files the watermark query ranges over are those with an `lsn`
statistic. -/
theorem ranged_iff {f : DataFileRow} (hf : f ∈ cat.liveFiles table) :
    (∃ s ∈ cat.watermarkRows table, s.dataFileId = f.dataFileId) ↔
      cat.statsOf f fieldIdLsn ≠ [] := by
  constructor
  · rintro ⟨s, hs, hid⟩
    obtain ⟨g, -, hs⟩ := mem_watermarkRows.mp hs
    obtain ⟨hs, -, hcol⟩ := mem_statsOf.mp hs
    exact List.ne_nil_of_mem (mem_statsOf.mpr ⟨hs, hid, hcol⟩)
  · intro hne
    obtain ⟨s, hs⟩ := List.exists_mem_of_ne_nil _ hne
    exact ⟨s, mem_watermarkRows.mpr ⟨f, hf, hs⟩, (mem_statsOf.mp hs).2.1⟩

theorem seesSameFiles_of_complete (h : cat.LsnDecimal table)
    (hrows : rows.Perm (cat.indexRows table)) (hc : cat.Complete dec table) : cat.SeesSameFiles dec keyPrefix table rows := by
  have hok : ∀ row ∈ rows, ∃ e, row.entry dec keyPrefix = .ok e := by
    intro row hrow
    rw [hrows.mem_iff] at hrow
    obtain ⟨hf, hpk, hlsn, -⟩ := mem_indexRows.mp hrow
    obtain ⟨-, hread, hne⟩ := hc row.file hf (List.ne_nil_of_mem hlsn)
    exact IndexRow.entry_of_readable (hread _ hpk) (hne _ hlsn) (lsn_decimal h hrow)
  obtain ⟨es, hes⟩ := IndexRow.exists_entries hok
  obtain ⟨hto, hback⟩ := IndexRow.mem_entries hes
  have hrow : ∀ f ∈ cat.liveFiles table, ∀ lsn ∈ cat.statsOf f fieldIdLsn,
      ∃ row ∈ rows, row.file = f ∧ row.lsn = lsn := by
    intro f hf lsn hlsn
    obtain ⟨pk, hpk⟩ := List.exists_mem_of_ne_nil _ (hc f hf (List.ne_nil_of_mem hlsn)).1
    obtain ⟨row, hrow, hfile, -, hl⟩ := exists_row hf hpk hlsn
    exact ⟨row, hrows.mem_iff.mpr hrow, hfile, hl⟩
  refine ⟨_, loadRows_eq_ok.mpr ⟨es, hes, rfl⟩, fun f hf hranged => ?_, ?_⟩
  · obtain ⟨lsn, hlsn⟩ := List.exists_mem_of_ne_nil _ ((ranged_iff hf).mp hranged)
    obtain ⟨row, hr, hfile, -⟩ := hrow f hf lsn hlsn
    obtain ⟨e, he, heq⟩ := hto row hr
    exact ⟨row, hr, hfile, e, (List.perm_insertionSort _ es).mem_iff.mpr he, heq⟩
  · -- The statistics behind the entries are those the watermark query casts.
    obtain ⟨w, hw, hgreatest⟩ := isGreatest_watermark h
    have hsame : {n | ∃ s ∈ cat.watermarkRows table, s.lsnMax = some n} =
        {n | ∃ e ∈ es, e.watermark = n} := by
      ext n
      constructor
      · rintro ⟨s, hs, hn⟩
        obtain ⟨f, hf, hs⟩ := mem_watermarkRows.mp hs
        obtain ⟨row, hr, -, rfl⟩ := hrow f hf s hs
        obtain ⟨e, he, heq⟩ := hto row hr
        have := IndexRow.lsnMax_of_entry heq (lsn_decimal h (hrows.mem_iff.mp hr))
        rw [hn, Option.some.injEq] at this
        exact ⟨e, he, this.symm⟩
      · rintro ⟨e, he, rfl⟩
        obtain ⟨row, hr, heq⟩ := hback e he
        have hr := hrows.mem_iff.mp hr
        obtain ⟨hf, -, hlsn, -⟩ := mem_indexRows.mp hr
        exact ⟨row.lsn, mem_watermarkRows.mpr ⟨row.file, hf, hlsn⟩,
          IndexRow.lsnMax_of_entry heq (lsn_decimal h hr)⟩
    rw [hsame] at hgreatest
    rw [hw, hgreatest.unique (FileIndex.isGreatest_watermark es)]

theorem complete_of_seesSameFiles (hrows : rows.Perm (cat.indexRows table))
    (h : cat.SeesSameFiles dec keyPrefix table rows) : cat.Complete dec table := by
  obtain ⟨index, hload, hlists, -⟩ := h
  obtain ⟨es, hes, -⟩ := loadRows_eq_ok.mp hload
  have hread : ∀ row ∈ cat.indexRows table, row.pk.Readable dec ∧ row.lsn.maxValue ≠ none := by
    intro row hr
    obtain ⟨e, -, heq⟩ := (IndexRow.mem_entries hes).1 row (hrows.mem_iff.mpr hr)
    exact IndexRow.readable_of_entry heq
  intro f hf hne
  obtain ⟨row, hr, rfl, -⟩ := hlists f hf ((ranged_iff hf).mpr hne)
  obtain ⟨-, hpk, hlsn, -⟩ := mem_indexRows.mp (hrows.mem_iff.mp hr)
  refine ⟨List.ne_nil_of_mem hpk, fun s hs => ?_, fun s hs => ?_⟩
  · obtain ⟨row', hr', -, rfl, -⟩ := exists_row hf hs hlsn
    exact (hread row' hr').1
  · obtain ⟨row', hr', -, -, rfl⟩ := exists_row hf hpk hs
    exact (hread row' hr').2

/-- **The watermark query and the file index see the same files exactly when**
every live file of the table that has an `lsn` statistic has a statistic of `pk`
too, and none of the texts `load` reads is null or not hexadecimal. -/
theorem sees_same_files_iff (dec : Decoders) (keyPrefix : Text) {cat : Catalog}
    {table : Int} (h : cat.LsnDecimal table) {rows : List IndexRow}
    (hrows : rows.Perm (cat.indexRows table)) :
    cat.SeesSameFiles dec keyPrefix table rows ↔ cat.Complete dec table :=
  ⟨complete_of_seesSameFiles hrows, seesSameFiles_of_complete h hrows⟩

/-- The decoders, on texts of the runs below. -/
def smallDecoders : Decoders where
  hex
    | ['0', 'a'] => .ok [10]
    | ['0', 'F'] => .ok [15]
    | _ => .error "Odd number of digits"
  base64 _ := none

/-- Two tables.  Of the first, a live file with statistics, one that has none
yet, and one that was ended.  The second column of the other is no number. -/
def twoTables : Catalog where
  dataFiles := [⟨1, 1, none, ['a']⟩, ⟨2, 1, none, ['b']⟩, ⟨3, 1, some 9, ['c']⟩,
    ⟨4, 2, none, ['d']⟩]
  columnStats := [⟨1, 1, 1, some ['0', 'a'], some ['0', 'F']⟩, ⟨1, 1, 2, some ['3'], some ['7']⟩,
    ⟨3, 1, 2, none, some ['9']⟩, ⟨4, 2, 1, none, none⟩, ⟨4, 2, 2, some ['x'], some ['y']⟩]
  columnBlooms := []
  stats_table := by decide

theorem sees_same_files_twoTables : twoTables.Complete smallDecoders 1 ∧
    twoTables.SeesSameFiles smallDecoders [] 1 (twoTables.indexRows 1) := by
  have hc : twoTables.Complete smallDecoders 1 := by decide +kernel
  exact ⟨hc, (sees_same_files_iff smallDecoders [] (by decide +kernel) (.refl _)).mpr hc⟩

/-- A live file whose `pk` column has no statistics. -/
def noKeyStats : Catalog where
  dataFiles := [⟨1, 1, none, ['a']⟩]
  columnStats := [⟨1, 1, 2, some ['3'], some ['7']⟩]
  columnBlooms := []
  stats_table := by decide

/-- A live file whose `pk` bounds are null. -/
def nullKeyStats : Catalog where
  dataFiles := [⟨1, 1, none, ['a']⟩]
  columnStats := [⟨1, 1, 1, none, none⟩, ⟨1, 1, 2, some ['3'], some ['7']⟩]
  columnBlooms := []
  stats_table := by decide

/-- The first is published up to 7 with an empty index; on the second the engine
cannot open. -/
theorem index_misses_published_file :
    (noKeyStats.LsnDecimal 1 ∧ noKeyStats.publishedWatermark 1 = .ok 7 ∧
      FileIndex.loadRows smallDecoders [] (noKeyStats.indexRows 1) = .ok { entries := [] } ∧
      ¬ noKeyStats.SeesSameFiles smallDecoders [] 1 (noKeyStats.indexRows 1)) ∧
    (nullKeyStats.LsnDecimal 1 ∧ nullKeyStats.publishedWatermark 1 = .ok 7 ∧
      FileIndex.loadRows smallDecoders [] (nullKeyStats.indexRows 1) = .error .panicked ∧
      ¬ nullKeyStats.SeesSameFiles smallDecoders [] 1 (nullKeyStats.indexRows 1)) := by
  refine ⟨⟨by decide +kernel, by decide +kernel, by decide +kernel, fun h => ?_⟩,
    ⟨by decide +kernel, by decide +kernel, by decide +kernel, fun h => ?_⟩⟩
  · exact absurd (complete_of_seesSameFiles (.refl _) h) (by decide +kernel)
  · exact absurd (complete_of_seesSameFiles (.refl _) h) (by decide +kernel)

/-! ## a lake with all its statistics -/

/-- The rows stand for these files: each decodes to the entry of its file. -/
def Represents (dec : Decoders) (keyPrefix : Text) (rows : List IndexRow)
    (files : List DataFile) : Prop :=
  List.Forall₂ (fun row f => row.entry dec keyPrefix = .ok f.entry ∧ f.Stamped) rows files

theorem Represents.entries_eq {files : List DataFile} (h : Represents dec keyPrefix rows files) :
    IndexRow.entries dec keyPrefix rows = .ok (files.map DataFile.entry) ∧
      ∀ f ∈ files, f.Stamped := by
  induction h with
  | nil => exact ⟨rfl, fun f hf => absurd hf List.not_mem_nil⟩
  | cons hrow _ ih =>
      refine ⟨by rw [IndexRow.entries, hrow.1, ih.1]; rfl, fun f hf => ?_⟩
      rcases List.mem_cons.mp hf with rfl | hf
      · exact hrow.2
      · exact ih.2 f hf

theorem isGreatest_publishedWatermark {files : List DataFile} (h : ∀ f ∈ files, f.Stamped) :
    IsGreatest (insert 0 {n | ∃ e ∈ files.map DataFile.entry, e.watermark = n})
      (HolyGrail.publishedWatermark files) := by
  constructor
  · rcases publishedWatermark_cases h with ⟨-, h0⟩ | ⟨f, hf, he⟩
    · exact .inl h0
    · exact .inr ⟨f.entry, List.mem_map_of_mem hf, he.symm⟩
  · rintro n (rfl | ⟨e, he, rfl⟩)
    · exact Nat.zero_le _
    · obtain ⟨f, hf, rfl⟩ := List.mem_map.mp he
      exact le_publishedWatermark h hf

/-- **On a catalog with all its statistics** the two queries are the ones of
`HolyGrail.Columnar`. -/
theorem queries_of_represents (h : cat.LsnDecimal table) (hc : cat.Complete dec table)
    (hrows : rows.Perm (cat.indexRows table)) {files : List DataFile}
    (hrep : Represents dec keyPrefix rows files) :
    (∃ index, FileIndex.loadRows dec keyPrefix rows = .ok index ∧
      FileIndex.load files = .ok index) ∧
    cat.publishedWatermark table = .ok (HolyGrail.publishedWatermark files) := by
  obtain ⟨hes, hst⟩ := hrep.entries_eq
  obtain ⟨index, hload, -, hw⟩ := seesSameFiles_of_complete h hrows hc
  have hindex : FileIndex.mk (FileIndex.sortEntries (files.map DataFile.entry)) = index := by
    obtain ⟨es, hes', hindex⟩ := loadRows_eq_ok.mp hload
    rw [hes, Except.ok.injEq] at hes'
    rw [hes', hindex]
  refine ⟨⟨index, hload, ?_⟩, ?_⟩
  · rw [FileIndex.load, FileIndex.loadEntries_eq fun f hf => (hst f hf).1]
    exact congrArg Except.ok hindex
  · rw [hw, ← hindex, (FileIndex.isGreatest_watermark _).unique (isGreatest_publishedWatermark hst)]

end Catalog

end HolyGrail
