import HolyGrail.Columnar.Merge
import HolyGrail.System.Position

/-!
# HolyGrail.Flush.Staging

What a flush stages, and under which watermark.

Four column builders are filled and reset in one loop.  `batchesFrom_eq` says
what the loop is: the entries cut into pieces of `BATCH_ROWS`, each piece laid out
as four columns.  So the batches are the entries, row by row (`staging_lossless`),
and the greatest LSN of their `lsn` column is the one the memtable counted up to,
although it also counts records that lost their key
(`planned_watermark_derived`).
-/

namespace HolyGrail

/-! ## the batches -/

namespace RecordBatch

/-- `RecordBatch::try_new`: the columns of a batch have one length. -/
def tryNew (pk : List Bytes) (lsn op : List Int) (value : List (Option Bytes)) :
    Option RecordBatch :=
  if lsn.length = pk.length ∧ op.length = pk.length ∧ value.length = pk.length then
    some { pk, lsn, op, value }
  else none

def numRows (batch : RecordBatch) : Nat := batch.pk.length

end RecordBatch

/-- `finish`, where `none` is the panic of its `expect`. -/
def Builders.tryFinish (b : Builders) : Option RecordBatch :=
  RecordBatch.tryNew b.pks b.lsns b.ops b.values

/-- The loop of `batches`, with the check that each batch passes. -/
def tryBatchesFrom (b : Builders) : List (Bytes × Entry) → Option (List RecordBatch)
  | [] => if b.rows > 0 then b.tryFinish.map fun batch => [batch] else some []
  | (key, entry) :: rest =>
      let b := b.push key entry
      if b.rows = batchRows then
        b.tryFinish.bind fun batch => (tryBatchesFrom Builders.empty rest).map (batch :: ·)
      else tryBatchesFrom b rest

def tryBatches (memtable : Memtable) : Option (List RecordBatch) :=
  tryBatchesFrom Builders.empty memtable.iter

theorem Builders.tryFinish_of (items : List (Bytes × Entry)) :
    (Builders.of items).tryFinish = some (batchOf items) := by
  simp [tryFinish, RecordBatch.tryNew, batchOf, of, finish]

/-- The columns of open builders have one length, so no batch is refused. -/
theorem tryBatchesFrom_of (items rest : List (Bytes × Entry)) :
    tryBatchesFrom (Builders.of items) rest = some (batchesFrom (Builders.of items) rest) := by
  induction rest generalizing items with
  | nil =>
      rw [tryBatchesFrom, batchesFrom, Builders.tryFinish_of]
      split <;> rfl
  | cons item rest ih =>
      have hempty : tryBatchesFrom Builders.empty rest = some (batchesFrom Builders.empty rest) :=
        ih []
      simp only [tryBatchesFrom, batchesFrom, Builders.push_of, Builders.tryFinish_of]
      split
      · rw [hempty]
        rfl
      · exact ih (items ++ [item])

theorem numRows_batchOf (piece : List (Bytes × Entry)) :
    (batchOf piece).numRows = piece.length := by
  simp [RecordBatch.numRows, batchOf, Builders.of, Builders.finish]

/-- Every batch has rows, and at most `BATCH_ROWS` of them. -/
theorem numRows_of_mem_batches {mt : Memtable} {b : RecordBatch} (hb : b ∈ batches mt) :
    0 < b.numRows ∧ b.numRows ≤ batchRows := by
  have hopen : ([] : List (Bytes × Entry)).length < batchRows := by decide
  rw [batches_eq] at hb
  obtain ⟨piece, hmem, rfl⟩ := List.mem_map.mp hb
  rw [numRows_batchOf]
  exact Pieces.length_of_mem hopen hmem

/-- Every batch but the last is full. -/
theorem numRows_of_mem_dropLast {mt : Memtable} {b : RecordBatch}
    (hb : b ∈ (batches mt).dropLast) : b.numRows = batchRows := by
  have hopen : ([] : List (Bytes × Entry)).length < batchRows := by decide
  rw [batches_eq, ← List.map_dropLast] at hb
  obtain ⟨piece, hmem, rfl⟩ := List.mem_map.mp hb
  rw [numRows_batchOf]
  exact Pieces.length_of_mem_dropLast hopen hmem

/-! ## the rows -/

theorem asU64_asI64 (n : Nat) : asU64 (asI64 n) = n % 2 ^ 64 := by
  rw [asU64, asI64]
  split <;> omega

/-- `scan_row_group` decodes the first row that has the key. -/
theorem ColumnarReader.scanRowGroup_lookup (rg : RowGroup) (key : Bytes) :
    scanRowGroup rg key =
      ((rg.rows.find? fun row => row.pk = key).map Row.lookup).getD .missing := by
  rw [scanRowGroup]
  cases rg.rows.find? fun row => row.pk = key <;> rfl

/-- A row says what an entry says: the LSN is a `u64`, and a value is null
exactly when the entry is a tombstone. -/
structure Row.Says (row : Row) (item : Bytes × Entry) : Prop where
  pk : row.pk = item.1
  lsn : asU64 row.lsn = item.2.lsn % 2 ^ 64
  op : row.op = item.2.op.toI32
  value : row.value = if item.2.op = .delete then none else some item.2.value

theorem says_rowOf (item : Bytes × Entry) : (rowOf item).Says item where
  pk := rfl
  lsn := asU64_asI64 item.2.lsn
  op := rfl
  value := by
    rw [rowOf]
    cases item.2.op <;> rfl

theorem lookup_rowOf {mt : Memtable} {k : Bytes} {e : Entry} (h : mt.map[k]? = some e) :
    (rowOf (k, e)).lookup = mt.get k := by
  obtain ⟨l, op, v⟩ := e
  rw [Memtable.get, h]
  cases op <;> rfl

/-- Record batches that hold a memtable. -/
structure Stages (mt : Memtable) (bs : List RecordBatch) : Prop where
  /-- One row for each entry, in the order of `iter`. -/
  rows : List.Forall₂ Row.Says (stagedRows bs) mt.iter
  iter : ∀ k e, (k, e) ∈ mt.iter ↔ mt.map[k]? = some e
  keys : (stagedRows bs).Pairwise fun a b => compare a.pk b.pk = .lt
  columns : ∀ b ∈ bs, b.lsn.length = b.numRows ∧ b.op.length = b.numRows ∧
    b.value.length = b.numRows
  nonempty : ∀ b ∈ bs, 0 < b.numRows
  bounded : ∀ b ∈ bs, b.numRows ≤ batchRows
  full : ∀ b ∈ bs.dropLast, b.numRows = batchRows
  /-- A row decodes to what the memtable returns for its key. -/
  decode : ∀ row ∈ stagedRows bs, row.lookup = mt.get row.pk
  /-- A scan of all rows is a lookup. -/
  scan : ∀ statistics k,
    ColumnarReader.scanRowGroup { rows := stagedRows bs, statistics } k = mt.get k

theorem scanRowGroup_staged (mt : Memtable) (statistics : Option (Option Bytes × Option Bytes))
    (k : Bytes) :
    ColumnarReader.scanRowGroup { rows := stagedRows (batches mt), statistics } k =
      mt.get k := by
  have hcomp : (fun row : Row => decide (row.pk = k)) ∘ rowOf =
      fun item : Bytes × Entry => decide (item.1 = k) := rfl
  rw [ColumnarReader.scanRowGroup_lookup, stagedRows_batches, List.find?_map, hcomp,
    mt.find_eq_find?_iter k]
  cases hk : mt.map[k]? with
  | none =>
      rw [Memtable.get, hk]
      rfl
  | some e => exact lookup_rowOf hk

/-- **Staging is lossless**: `try_new` refuses no batch, and the batches hold the
memtable. -/
theorem staging_lossless (mt : Memtable) :
    tryBatches mt = some (batches mt) ∧ Stages mt (batches mt) := by
  refine ⟨tryBatchesFrom_of [] mt.iter, ?_⟩
  constructor
  case rows =>
    rw [stagedRows_batches, List.forall₂_map_left_iff, List.forall₂_same]
    exact fun item _ => says_rowOf item
  case iter => exact fun k e => OrdMap.mem_toList
  case keys =>
    rw [stagedRows_batches, List.pairwise_map]
    exact Std.ExtTreeMap.ordered_keys_toList
  case columns =>
    intro b hb
    rw [batches_eq] at hb
    obtain ⟨piece, -, rfl⟩ := List.mem_map.mp hb
    simp [RecordBatch.numRows, batchOf, Builders.of, Builders.finish]
  case nonempty => exact fun b hb => (numRows_of_mem_batches hb).1
  case bounded => exact fun b hb => (numRows_of_mem_batches hb).2
  case full => exact fun b hb => numRows_of_mem_dropLast hb
  case decode =>
    intro row hrow
    rw [stagedRows_batches] at hrow
    obtain ⟨⟨k, e⟩, hitem, rfl⟩ := List.mem_map.mp hrow
    exact lookup_rowOf (OrdMap.mem_toList.mp hitem)
  case scan => exact fun statistics k => scanRowGroup_staged mt statistics k

/-! ## the watermark -/

namespace Memtable

theorem isEmpty_insertAll {rs : List Record} (h : rs ≠ []) :
    (new.insertAll rs).isEmpty = false := by
  obtain ⟨r, hr⟩ := List.exists_mem_of_ne_nil rs h
  obtain ⟨v, hv, -⟩ := new.exists_find_insertAll hr
  rw [← Bool.not_eq_true, isEmpty_iff]
  intro hempty
  rw [hempty] at hv
  contradiction

/-- The counter is the greatest LSN that was inserted, wherever the record
ended up. -/
theorem maxLsn_insertAll {rs : List Record} (h : rs ≠ []) :
    (rs.map Record.lsn).max? = some (new.insertAll rs).maxLsn := by
  have hle : ∀ r ∈ rs, r.lsn ≤ (new.insertAll rs).maxLsn := by
    intro r hr
    obtain ⟨v, hv, hrv⟩ := new.exists_find_insertAll hr
    exact Nat.le_trans hrv (le_maxLsn hv)
  rw [List.max?_eq_some_iff]
  refine ⟨?_, fun l hl => ?_⟩
  · obtain ⟨k, v, hv, htop⟩ := tight (isEmpty_insertAll h)
    obtain ⟨r, hr, -, rfl⟩ := exists_record_of_find hv
    exact List.mem_map.mpr ⟨r, hr, htop⟩
  · obtain ⟨r, hr, rfl⟩ := List.mem_map.mp hl
    exact hle r hr

/-- The staged rows carry the counter as the maximum of their `lsn` column. -/
theorem max_lsn_stagedRows {mt : Memtable} (hne : mt.isEmpty = false) (hfit : mt.LsnFits) :
    ((stagedRows (batches mt)).map Row.lsn).max? = some (mt.maxLsn : Int) := by
  have hlsn : ∀ item ∈ mt.iter, (rowOf item).lsn = item.2.lsn := fun item hitem =>
    asI64_of_lt (Nat.lt_of_le_of_lt (lsn_le_of_mem_iter hitem) hfit)
  rw [stagedRows_batches, List.map_map, List.max?_eq_some_iff]
  refine ⟨?_, fun l hl => ?_⟩
  · obtain ⟨k, v, hv, htop⟩ := tight hne
    obtain ⟨e, he, rfl⟩ := Option.map_eq_some_iff.mp hv
    have hitem : (k, e) ∈ mt.iter := OrdMap.mem_toList.mpr he
    have htop : e.lsn = mt.maxLsn := htop
    refine List.mem_map.mpr ⟨(k, e), hitem, ?_⟩
    rw [← htop]
    exact hlsn (k, e) hitem
  · obtain ⟨item, hitem, rfl⟩ := List.mem_map.mp hl
    have hle := lsn_le_of_mem_iter hitem
    rw [Function.comp_apply, hlsn item hitem]
    exact_mod_cast hle

/-- The watermark of the memtable is the one its file carries. -/
structure WatermarkDerived (db : DuckDb) (mt : Memtable) : Prop where
  column : ((stagedRows (batches mt)).map Row.lsn).max? = some (mt.maxLsn : Int)
  planned : ∀ published, plan published mt =
    if mt.maxLsn ≤ published then .alreadyPublished mt.maxLsn else .write mt.maxLsn
  file : ∀ n, publishedWatermark [db.file n mt] = mt.maxLsn
  /-- Whatever else is live, the file's index entry carries the watermark. -/
  entry : ∀ lake index, FileIndex.load (publish db lake (batches mt)) = .ok index →
    ∃ e ∈ index.entries, e.location = (db.file lake.length mt).location ∧
      e.watermark = mt.maxLsn
  /-- A retry after the publish sees that it landed. -/
  retried : ∀ lake : List DataFile, (∀ f ∈ lake, f.lsnMax < 2 ^ 63) →
    plan (publishedWatermark (publish db lake (batches mt))) mt = .alreadyPublished mt.maxLsn

theorem watermarkDerived (db : DuckDb) {mt : Memtable} (hne : mt.isEmpty = false)
    (hfit : mt.LsnFits) : mt.WatermarkDerived db := by
  have hplan : ∀ published, plan published mt =
      if mt.maxLsn ≤ published then .alreadyPublished mt.maxLsn else .write mt.maxLsn := by
    intro published
    rw [plan, if_neg (by rw [hne]; decide)]
  have hmax : ∀ n, (db.file n mt).lsnMax = mt.maxLsn := fun n => db.lsnMax_file n hne hfit
  have hfit : mt.maxLsn < 2 ^ 63 := hfit
  constructor
  case column => exact max_lsn_stagedRows hne hfit
  case planned => exact hplan
  case file =>
    intro n
    rw [publishedWatermark, List.map_singleton, List.max?_singleton, hmax]
    change asU64 mt.maxLsn = mt.maxLsn
    rw [asU64_eq (by omega) (by omega), Int.toNat_natCast]
  case entry =>
    intro lake index hload
    have hnn := FileIndex.nonneg_of_load hload
    rw [FileIndex.load_eq hnn, Except.ok.injEq] at hload
    refine ⟨(db.file lake.length mt).entry, ?_, rfl, db.watermark_file lake.length hne hfit⟩
    rw [← hload]
    refine List.mem_map_of_mem (DataFile.mem_newestFirst.mpr ?_)
    exact List.mem_append_right _ List.mem_cons_self
  case retried =>
    intro lake hlake
    have hlt : ∀ f ∈ publish db lake (batches mt), f.lsnMax < 2 ^ 63 := by
      intro f hf
      rw [publish, List.mem_append, List.mem_singleton] at hf
      rcases hf with hf | rfl
      · exact hlake f hf
      · change (db.file lake.length mt).lsnMax < 2 ^ 63
        rw [hmax]
        omega
    have hmem : db.file lake.length mt ∈ publish db lake (batches mt) :=
      List.mem_append_right _ List.mem_cons_self
    have hle := le_publishedWatermark_of_lt hlt hmem (by rw [hmax]; omega)
    rw [db.watermark_file lake.length hne hfit] at hle
    rw [hplan, if_pos hle]

/-- **The planned watermark is the derived one**: for any records in any order,
the LSN a flush of them truncates through is the greatest that was inserted, the
maximum of the staged `lsn` column, and the watermark of the published file. -/
theorem planned_watermark_derived (db : DuckDb) {rs : List Record} (hne : rs ≠ [])
    (hlsn : ∀ r ∈ rs, r.lsn < 2 ^ 63) :
    (rs.map Record.lsn).max? = some (new.insertAll rs).maxLsn ∧
      (new.insertAll rs).WatermarkDerived db := by
  refine ⟨maxLsn_insertAll hne, watermarkDerived db (isEmpty_insertAll hne) ?_⟩
  have hle : (new.insertAll rs).maxLsn ≤ 2 ^ 63 - 1 :=
    maxLsn_insertAll_le (Nat.zero_le _) fun r hr => by have := hlsn r hr; omega
  rw [LsnFits]
  omega

/-- The record that arrives last has lost its key, and the one that holds the
maximum overwrote another. -/
theorem planned_watermark_derived_three :
    (new.insertAll [.put [1] 5 [7], .delete [1] 8, .put [1] 3 [9]]).maxLsn = 8 ∧
      plan 7 (new.insertAll [.put [1] 5 [7], .delete [1] 8, .put [1] 3 [9]]) = .write 8 ∧
      publishedWatermark
        [DuckDb.plain.file 0 (new.insertAll [.put [1] 5 [7], .delete [1] 8, .put [1] 3 [9]])] =
          8 := by
  have hne : [Record.put [1] 5 [7], .delete [1] 8, .put [1] 3 [9]] ≠ [] := by decide
  obtain ⟨hmax, hder⟩ := planned_watermark_derived DuckDb.plain hne (by decide)
  have htop : (new.insertAll [.put [1] 5 [7], .delete [1] 8, .put [1] 3 [9]]).maxLsn = 8 :=
    Option.some.inj hmax.symm
  refine ⟨htop, ?_, ?_⟩
  · rw [hder.planned, htop]
    decide
  · rw [hder.file, htop]

end Memtable

/-! ## over a run -/

/-- The watermark a flush has planned with. -/
def FlushStage.watermark : FlushStage → Option Nat
  | .frozen | .read _ => none
  | .planned w | .staged w _ | .published w _ | .queried w _ _ => some w
  | .covered result _ | .truncated result _ => result.watermark

namespace Node

variable {db : DuckDb} {n : Node}

/-- Whatever stage a flush is at, its watermark is its memtable's. -/
theorem Shape.flush_watermark (h : n.Shape db) {p w : Nat} {call : FlushCall}
    (hc : n.flushes[p]? = some call) (hw : call.stage.watermark = some w) :
    w = call.memtable.val.maxLsn := by
  obtain ⟨mt, stage⟩ := call
  have hstage := (h.flushes_ok p _ hc).2.2
  cases stage with
  | frozen | read => contradiction
  | planned w' => exact (Option.some.inj hw).symm.trans hstage.2
  | staged w' bs => exact (Option.some.inj hw).symm.trans hstage.2.1
  | published w' f | queried w' f index =>
      have hstage : Landed n.store.lake n.trail.published mt (.committed w' 1) (some f) := hstage
      exact (Option.some.inj hw).symm.trans hstage.1
  | covered result file | truncated result file =>
      have hstage : Landed n.store.lake n.trail.published mt result file := hstage
      cases result <;> cases file <;> simp only [Landed] at hstage
      · obtain rfl := Option.some.inj hw
        exact hstage.1
      · obtain rfl := Option.some.inj hw
        exact hstage.1

end Node

namespace System

/-- **No flush outruns its file**: in every run, crashes included, the watermark a
flush plans, truncates and reports with is the one its file carries. -/
theorem flush_watermark_derived {db : DuckDb} {s : System}
    (h : Reaches (step db) (Within Node.Concurrent Node.CrashFresh) init s) {n : Node}
    (hn : s.node? = some n) {p w : Nat} {call : FlushCall} (hc : n.flushes[p]? = some call)
    (hw : call.stage.watermark = some w) :
    w = call.memtable.val.maxLsn ∧ call.memtable.val.WatermarkDerived db := by
  have hsh := (positioned_of_reaches h hn).shape
  have hm := (hsh.flushes_ok p _ hc).2.1
  obtain ⟨hne, hfit, -⟩ := hsh.order.closed_ok call.memtable (hsh.order.mem_closed hm)
  exact ⟨hsh.flush_watermark hc hw, Memtable.watermarkDerived db hne hfit⟩

end System

end HolyGrail
