import HolyGrail.Memtable
import HolyGrail.Pieces

/-!
# HolyGrail.Flush

What a flush decides and what it stages (`flush.rs`).

`plan` compares the memtable's watermark with the published one; `batches`
lays the entries out as Arrow record batches, in key order, for DuckDB to
read.
-/

namespace HolyGrail

/-- What a flush did. -/
inductive Flushed where
  | committed (watermark files : Nat)
  | alreadyPublished (watermark : Nat)
  | empty
  deriving DecidableEq, Repr

/-- The watermark the log may now be truncated through, if any. -/
def Flushed.watermark : Flushed → Option Nat
  | .committed watermark _ | .alreadyPublished watermark => some watermark
  | .empty => none

/-- What a flush should do. -/
inductive Plan where
  | write (watermark : Nat)
  | alreadyPublished (watermark : Nat)
  | empty
  deriving DecidableEq, Repr

/-- Decide what to do from the published watermark. -/
def plan (published : Nat) (memtable : Memtable) : Plan :=
  if memtable.isEmpty then .empty
  else
    let watermark := memtable.maxLsn
    if watermark ≤ published then .alreadyPublished watermark else .write watermark

/-! ## staging -/

/-- A row of the table: `(pk BLOB, lsn BIGINT, op INTEGER, value BLOB)`. -/
structure Row where
  pk : Bytes
  lsn : Int
  op : Int
  value : Option Bytes
  deriving DecidableEq, Repr

/-- `lsn as i64`. -/
def asI64 (n : Nat) : Int :=
  if n % 2 ^ 64 < 2 ^ 63 then n % 2 ^ 64 else n % 2 ^ 64 - 2 ^ 64

theorem asI64_of_lt {n : Nat} (h : n < 2 ^ 63) : asI64 n = n := by
  have hmod : n % 2 ^ 64 = n := Nat.mod_eq_of_lt (Nat.lt_trans h (by decide))
  rw [asI64, if_pos (by rw [hmod]; exact h)]
  exact_mod_cast hmod

/-- `op as i32`. -/
def Op.toI32 : Op → Int
  | .put => 0
  | .delete => 1

/-- One row of `batches`: a tombstone has a null value. -/
def rowOf (item : Bytes × Entry) : Row where
  pk := item.1
  lsn := asI64 item.2.lsn
  op := item.2.op.toI32
  value := match item.2.op with
    | .put => some item.2.value
    | .delete => none

/-- Four columns of equal length. -/
structure RecordBatch where
  pk : List Bytes
  lsn : List Int
  op : List Int
  value : List (Option Bytes)
  deriving DecidableEq, Repr

/-- The rows a reader of the batch sees. -/
def RecordBatch.rows (batch : RecordBatch) : List Row :=
  (batch.pk.zip (batch.lsn.zip (batch.op.zip batch.value))).map fun (pk, lsn, op, value) =>
    { pk, lsn, op, value }

/-- Rows per Arrow batch. -/
def batchRows : Nat := 8192

/-- The column builders of `batches` and their row count. -/
structure Builders where
  pks : List Bytes
  lsns : List Int
  ops : List Int
  values : List (Option Bytes)
  rows : Nat

namespace Builders

def empty : Builders := { pks := [], lsns := [], ops := [], values := [], rows := 0 }

/-- Append one entry to every column. -/
def push (b : Builders) (key : Bytes) (entry : Entry) : Builders where
  pks := b.pks ++ [key]
  lsns := b.lsns ++ [asI64 entry.lsn]
  ops := b.ops ++ [entry.op.toI32]
  values := b.values ++ [match entry.op with
    | .put => some entry.value
    | .delete => none]
  rows := b.rows + 1

def finish (b : Builders) : RecordBatch :=
  { pk := b.pks, lsn := b.lsns, op := b.ops, value := b.values }

/-- The builders after a list of entries. -/
def of (items : List (Bytes × Entry)) : Builders where
  pks := items.map fun i => (rowOf i).pk
  lsns := items.map fun i => (rowOf i).lsn
  ops := items.map fun i => (rowOf i).op
  values := items.map fun i => (rowOf i).value
  rows := items.length

theorem push_of (items : List (Bytes × Entry)) (item : Bytes × Entry) :
    (of items).push item.1 item.2 = of (items ++ [item]) := by
  simp [push, of, rowOf]

theorem rows_finish_of (items : List (Bytes × Entry)) :
    (of items).finish.rows = items.map rowOf := by
  induction items with
  | nil => rfl
  | cons item items ih =>
      simp only [finish, of, RecordBatch.rows, List.map_cons, List.zip_cons_cons] at ih ⊢
      rw [ih]

end Builders

/-- The loop of `batches`, with the entries of the open batch in the builders. -/
def batchesFrom (b : Builders) : List (Bytes × Entry) → List RecordBatch
  | [] => if b.rows > 0 then [b.finish] else []
  | (key, entry) :: rest =>
      let b := b.push key entry
      if b.rows = batchRows then b.finish :: batchesFrom Builders.empty rest
      else batchesFrom b rest

/-- Chunk the memtable into Arrow batches, in key order. -/
def batches (memtable : Memtable) : List RecordBatch := batchesFrom Builders.empty memtable.iter

/-- A piece of the entries as a batch. -/
def batchOf (piece : List (Bytes × Entry)) : RecordBatch := (Builders.of piece).finish

/-- **The loop cuts the entries** into pieces and lays each out in columns. -/
theorem batchesFrom_eq (items rest : List (Bytes × Entry)) :
    batchesFrom (Builders.of items) rest =
      (Pieces.cutFrom batchRows items rest).map batchOf := by
  induction rest generalizing items with
  | nil =>
      rw [batchesFrom, Pieces.cutFrom]
      change (if items.length > 0 then _ else _) = _
      split <;> rfl
  | cons item rest ih =>
      have hempty : batchesFrom Builders.empty rest =
          (Pieces.cutFrom batchRows [] rest).map batchOf := ih []
      have hrows : (Builders.of (items ++ [item])).rows = items.length + 1 := by
        rw [Builders.of, List.length_append, List.length_singleton]
      simp only [batchesFrom, Pieces.cutFrom, Builders.push_of, hrows]
      split
      · rw [hempty]
        rfl
      · exact ih (items ++ [item])

theorem batches_eq (mt : Memtable) :
    batches mt = (Pieces.cutFrom batchRows [] mt.iter).map batchOf :=
  batchesFrom_eq [] mt.iter

/-- The rows a flush stages: one for each entry, in key order. -/
def stagedRows (batches : List RecordBatch) : List Row := batches.flatMap RecordBatch.rows

/-- **Staging is lossless.** -/
theorem stagedRows_batches (mt : Memtable) : stagedRows (batches mt) = mt.iter.map rowOf := by
  have hrows : ∀ piece, (batchOf piece).rows = piece.map rowOf := Builders.rows_finish_of
  rw [stagedRows, batches_eq, List.flatMap_map]
  simp only [hrows]
  rw [List.flatMap_def, ← List.map_flatten, Pieces.flatten_cutFrom, List.nil_append]

end HolyGrail
