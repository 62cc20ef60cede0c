import HolyGrail.Cache.Reader
import HolyGrail.Columnar

/-!
# HolyGrail.Columnar.ReadPath

The point read over bytes: `ColumnarReader::get` through the byte cache, the
footers and the object store, many reads at once.

`HolyGrail.Columnar` looks a file up by its rows.  Here a file is the bytes of an
object, and its rows are what the Parquet library makes of them.  The library is
not under this code and is a parameter; `Parquet.Encodes` says what is relied on.
Whatever the cache holds or evicts and however the reads interleave, a read
returns what the lookup by rows does (`reads_agree`), it asks only for bytes of
files that the walk opens (`reads_open_only`), and it can always be carried on to
its end (`reads_finish`).
-/

namespace HolyGrail

open Cache

/-! ## the Parquet library -/

/-- A row as the point read projects it: the columns `pk`, `op` and `value`. -/
structure Projected where
  pk : Bytes
  op : Int
  value : Bytes
  deriving DecidableEq, Repr

/-- A record batch of the projection. -/
abbrev ProjectedBatch := List Projected

def Row.project (row : Row) : Projected := ⟨row.pk, row.op, row.value.getD []⟩

/-- What the point read uses of the Parquet library. -/
structure Parquet where
  /-- `ParquetMetaData` -/
  Metadata : Type
  /-- `ArrowReaderMetadata` -/
  Arrow : Type
  /-- `ParquetMetaDataReader::load_and_finish` of a file of the given size. -/
  loadAndFinish : Nat → FileProgram Metadata
  /-- `ArrowReaderMetadata::try_new` -/
  tryNew : Metadata → Except ParquetError Arrow
  /-- The statistics of the column chunk of each row group. -/
  statistics : Metadata → (column : Nat) → List (Option (Option Bytes × Option Bytes))
  /-- The stream over one row group, projected onto the given leaves. -/
  readRowGroup : Arrow → (leaves : List Nat) → (rgIdx : Nat) → FileProgram (List ProjectedBatch)

/-! ## the point read -/

/-- What a `ColumnarReader` reads with: the library, and the `file_size` of the
index entry of a path. -/
structure ReadPath where
  parquet : Parquet
  fileSize : FileName → Nat

namespace ReadPath

/-- Column position of `pk` in the Parquet file. -/
def pkCol : Nat := 0

def rowGroupMayContain (statistics : Option (Option Bytes × Option Bytes)) (key : Bytes) : Bool :=
  match statistics with
  | some (some lo, some hi) => within lo hi key
  | _ => true

/-- The loop over the rows of a batch. -/
def scanBatch : ProjectedBatch → Bytes → Option Lookup
  | [], _ => none
  | row :: rest, key =>
      if row.pk ≠ key then scanBatch rest key
      else some (if row.op = ColumnarReader.deleteOp then .deleted else .found row.value)

/-- The loop over the batches. -/
def scanBatches : List ProjectedBatch → Bytes → Lookup
  | [], _ => .missing
  | batch :: rest, key => match scanBatch batch key with
      | some hit => hit
      | none => scanBatches rest key

section
variable (r : ReadPath)

/-- Read one row group and scan it for the key. -/
def scanRowGroup (path : FileName) (arrow : r.parquet.Arrow) (rgIdx : Nat) (key : Bytes) :
    ReadProgram r.parquet.Metadata Lookup :=
  let stream := CachedReader.onFile path (r.parquet.readRowGroup arrow [pkCol, 2, 3] rgIdx)
  stream.andThen fun batches => .done (.ok (scanBatches batches key))

/-- The row-group loop of `get_from_file`, from the group `rgIdx` on. -/
def scanRowGroups (path : FileName) (arrow : r.parquet.Arrow) (rgIdx : Nat) :
    List (Option (Option Bytes × Option Bytes)) → Bytes → ReadProgram r.parquet.Metadata Lookup
  | [], _ => .done (.ok .missing)
  | statistics :: rest, key =>
      if !rowGroupMayContain statistics key then scanRowGroups path arrow (rgIdx + 1) rest key
      else r.scanRowGroup path arrow rgIdx key

def getFromFile (entry : FileEntry) (key : Bytes) : ReadProgram r.parquet.Metadata Lookup :=
  (CachedReader.getMetadata entry.location
    (r.parquet.loadAndFinish (r.fileSize entry.location))).andThen fun metadata =>
      match r.parquet.tryNew metadata with
      | .error e => .done (.error e)
      | .ok arrow =>
          r.scanRowGroups entry.location arrow 0 (r.parquet.statistics metadata pkCol) key

/-- The file loop of `get`. -/
def getFrom : List FileEntry → Bytes → ReadProgram r.parquet.Metadata Lookup
  | [], _ => .done (.ok .missing)
  | entry :: rest, key =>
      if !entry.bloomMayContain key then getFrom rest key
      else (r.getFromFile entry key).andThen fun
        | .missing => getFrom rest key
        | hit => .done (.ok hit)

/-- Look the key up in the columnar level. -/
def get (index : FileIndex) (key : Bytes) : ReadProgram r.parquet.Metadata Lookup :=
  r.getFrom (index.candidates key) key

/-- Point reads at once, each of a key through the index it was called with. -/
abbrev Reads := Pool (FileIndex × Bytes) (Shared r.parquet.Metadata) (Request r.parquet.Metadata)
  Request.Answer (RequestWork r.parquet.Metadata) (Except ParquetError Lookup)

/-- An empty cache, no footer and no read. -/
def new (maxBytes : Nat) : r.Reads where
  shared := { cache := .new maxBytes, metadata := .new }
  jobs := []

/-- A call of `get`, or a step of one of the reads. -/
def step (objects : FileName → Bytes) (p : r.Reads) :
    PoolAct (FileIndex × Bytes) RequestAct → Option r.Reads :=
  p.step (readerService objects) fun call => r.get call.1 call.2

end

end ReadPath

/-! ## what is relied on -/

/-- The bytes are a Parquet file of the row groups: its footer can be loaded and
has their statistics, and each row group reads as its rows. -/
def Parquet.Encodes (parquet : Parquet) (file : Bytes) (f : DataFile) : Prop :=
  ∃ metadata arrow, (parquet.loadAndFinish file.length).run file = .ok metadata ∧
    parquet.tryNew metadata = .ok arrow ∧
    parquet.statistics metadata ReadPath.pkCol = f.rowGroups.map RowGroup.statistics ∧
    ∀ (i : Nat) rg, f.rowGroups[i]? = some rg →
      ∃ batches, (parquet.readRowGroup arrow [ReadPath.pkCol, 2, 3] i).run file = .ok batches ∧
        batches.flatten = rg.rows.map Row.project

namespace ReadPath

variable {r : ReadPath} {objects : FileName → Bytes} {store : List DataFile}

/-- The files are Parquet files in the object store, of the sizes in the index. -/
structure Lake (r : ReadPath) (objects : FileName → Bytes) (store : List DataFile) : Prop where
  encodes : ∀ f ∈ store, r.parquet.Encodes (objects f.location) f
  fileSize : ∀ f ∈ store, r.fileSize f.location = (objects f.location).length

/-- The footer of the object at a path. -/
def IsFooter (r : ReadPath) (objects : FileName → Bytes) (path : FileName)
    (metadata : r.parquet.Metadata) : Prop :=
  (r.parquet.loadAndFinish (r.fileSize path)).run (objects path) = .ok metadata

/-- The walk of the key opens the file: its bounds and its bloom admit the key, and
the files before it that are opened miss it. -/
def Opens (store : List DataFile) (index : FileIndex) (key : Bytes) (path : FileName) : Prop :=
  ∃ pre entry post, index.candidates key = pre ++ entry :: post ∧ entry.location = path ∧
    entry.bloomMayContain key = true ∧
    ∀ e ∈ pre, e.bloomMayContain key = true →
      ColumnarReader.getFromFile store e key = .ok .missing

/-- What a read asks for: bytes and footers of files that it opens. -/
def Asks (r : ReadPath) (objects : FileName → Bytes) (store : List DataFile)
    (call : FileIndex × Bytes) : Request r.parquet.Metadata → Prop
  | .byteRanges path _ | .getMetadata path => Opens store call.1 call.2 path
  | .insertMetadata path metadata =>
      Opens store call.1 call.2 path ∧ r.IsFooter objects path metadata

/-- The index has live files only. -/
def Indexes (store : List DataFile) (call : FileIndex × Bytes) : Prop :=
  ∀ entry ∈ call.1.entries, ∃ f ∈ store, f.location = entry.location

instance (store : List DataFile) : DecidablePred (Indexes store) := fun call =>
  inferInstanceAs (Decidable (∀ entry ∈ call.1.entries, _))

/-- What a read returns. -/
def result (store : List DataFile) (call : FileIndex × Bytes) : Except ParquetError Lookup :=
  match ColumnarReader.get store call.1 call.2 with
  | .ok hit => .ok hit
  | .error _ => .error .external

/-! ## one file -/

theorem scanBatches_eq (batches : List ProjectedBatch) (key : Bytes) :
    scanBatches batches key = (scanBatch batches.flatten key).getD .missing := by
  have happend : ∀ xs ys : ProjectedBatch,
      scanBatch (xs ++ ys) key = (scanBatch xs key).or (scanBatch ys key) := by
    intro xs ys
    induction xs with
    | nil => rfl
    | cons row rest ih =>
        rw [List.cons_append, scanBatch, scanBatch, ih]
        split
        · rfl
        · rfl
  induction batches with
  | nil => rfl
  | cons batch rest ih =>
      rw [scanBatches, List.flatten_cons, happend, ih]
      cases scanBatch batch key with
      | some hit => rfl
      | none => rfl

/-- The scan of the projected rows is the scan of the row group. -/
theorem scanBatch_project (rg : RowGroup) (key : Bytes) :
    (scanBatch (rg.rows.map Row.project) key).getD .missing =
      ColumnarReader.scanRowGroup rg key := by
  rw [ColumnarReader.scanRowGroup]
  induction rg.rows with
  | nil => rfl
  | cons row rest ih =>
      rw [List.map_cons, scanBatch, List.find?_cons]
      by_cases hk : row.pk = key
      · have hproject : row.project.pk = key := hk
        rw [if_neg (by simpa using hproject), decide_eq_true hk]
        rfl
      · have hproject : row.project.pk ≠ key := hk
        rw [if_pos hproject, decide_eq_false hk]
        exact ih

theorem rowGroupMayContain_eq (rg : RowGroup) (key : Bytes) :
    rowGroupMayContain rg.statistics key = ColumnarReader.rowGroupMayContain rg key := rfl

section
variable {asks : Request r.parquet.Metadata → Prop} {path : FileName}
  (hranges : ∀ ranges, asks (.byteRanges path ranges))
include hranges

theorem returns_scanRowGroup {arrow : r.parquet.Arrow} {i : Nat} {rg : RowGroup} {key : Bytes}
    {batches : List ProjectedBatch}
    (hread : (r.parquet.readRowGroup arrow [pkCol, 2, 3] i).run (objects path) = .ok batches)
    (hrows : batches.flatten = rg.rows.map Row.project) :
    (r.scanRowGroup path arrow i key).Returns asks
      (Request.Good objects (r.IsFooter objects)) Request.Bad
      (.ok (ColumnarReader.scanRowGroup rg key)) := by
  have honFile := CachedReader.returns_onFile objects (r.IsFooter objects) hranges
    (r.parquet.readRowGroup arrow [pkCol, 2, 3] i)
  rw [hread] at honFile
  refine honFile.andThen ?_
  rw [scanBatches_eq, hrows, scanBatch_project]
  rfl

theorem returns_scanRowGroups {arrow : r.parquet.Arrow} {i : Nat} {rgs : List RowGroup}
    {key : Bytes} (hread : ∀ (j : Nat) rg, rgs[j]? = some rg →
      ∃ batches,
        (r.parquet.readRowGroup arrow [pkCol, 2, 3] (i + j)).run (objects path) = .ok batches ∧
          batches.flatten = rg.rows.map Row.project) :
    (r.scanRowGroups path arrow i (rgs.map RowGroup.statistics) key).Returns asks
      (Request.Good objects (r.IsFooter objects)) Request.Bad
      (.ok (ColumnarReader.scanRowGroups rgs key)) := by
  induction rgs generalizing i with
  | nil => rfl
  | cons rg rest ih =>
      rw [List.map_cons, scanRowGroups, rowGroupMayContain_eq, ColumnarReader.scanRowGroups]
      split
      · refine ih fun j rg' hj => ?_
        have := hread (j + 1) rg' hj
        rwa [Nat.add_comm j 1, ← Nat.add_assoc] at this
      · obtain ⟨batches, hbatches, hrows⟩ := hread 0 rg rfl
        exact returns_scanRowGroup hranges hbatches hrows

end

/-- **One file**: over any cache, the lookup returns what the lookup by rows does. -/
theorem returns_getFromFile (hlake : r.Lake objects store)
    (asks : Request r.parquet.Metadata → Prop) {entry : FileEntry} {f : DataFile} (key : Bytes)
    (hf : store.find? (fun g => g.location = entry.location) = some f)
    (hranges : ∀ ranges, asks (.byteRanges entry.location ranges))
    (hget : asks (.getMetadata entry.location))
    (hinsert : ∀ metadata, r.IsFooter objects entry.location metadata →
      asks (.insertMetadata entry.location metadata)) :
    (r.getFromFile entry key).Returns asks (Request.Good objects (r.IsFooter objects)) Request.Bad
      (.ok (ColumnarReader.scanRowGroups f.rowGroups key)) := by
  have hmem := List.mem_of_find?_eq_some hf
  have hloc : f.location = entry.location := by simpa using List.find?_some hf
  obtain ⟨metadata, arrow, hload, hnew, hstats, hread⟩ := hlake.encodes f hmem
  rw [← hlake.fileSize f hmem, hloc] at hload
  rw [hloc] at hread
  have hfooter : ∀ metadata', r.IsFooter objects entry.location metadata' ↔
      metadata' = metadata := by
    intro metadata'
    rw [IsFooter, hload, Except.ok.injEq]
    exact eq_comm
  refine (CachedReader.returns_getMetadata hload hfooter hranges hget
    (hinsert metadata hload)).andThen ?_
  rw [hnew, hstats]
  refine returns_scanRowGroups hranges fun j rg hj => ?_
  rw [Nat.zero_add]
  exact hread j rg hj

/-! ## the walk -/

/-- The rest of a walk returns what the walk by rows does. -/
theorem returns_getFrom (hlake : r.Lake objects store) {call : FileIndex × Bytes}
    {pre entries : List FileEntry} (hsplit : call.1.candidates call.2 = pre ++ entries)
    (hpre : ∀ e ∈ pre, e.bloomMayContain call.2 = true →
      ColumnarReader.getFromFile store e call.2 = .ok .missing)
    (hlive : ∀ entry ∈ entries, ∃ f ∈ store, f.location = entry.location) :
    ∃ hit, ColumnarReader.getFrom store entries call.2 = .ok hit ∧
      (r.getFrom entries call.2).Returns (r.Asks objects store call)
        (Request.Good objects (r.IsFooter objects)) Request.Bad (.ok hit) := by
  induction entries generalizing pre with
  | nil => exact ⟨.missing, rfl, rfl⟩
  | cons entry rest ih =>
      have hlive' := fun e he => hlive e (List.mem_cons_of_mem entry he)
      have hsplit' : call.1.candidates call.2 = (pre ++ [entry]) ++ rest := by
        rw [hsplit, List.append_assoc]
        rfl
      rw [getFrom, ColumnarReader.getFrom]
      by_cases hbloom : entry.bloomMayContain call.2 = true
      · rw [hbloom, Bool.not_true, if_neg Bool.false_ne_true, if_neg Bool.false_ne_true]
        obtain ⟨g, hg, hloc⟩ := hlive entry List.mem_cons_self
        obtain ⟨f, hf⟩ : ∃ f, store.find? (fun g => g.location = entry.location) = some f := by
          rw [← Option.isSome_iff_exists, List.find?_isSome]
          exact ⟨g, hg, by simpa using hloc⟩
        have hopens : Opens store call.1 call.2 entry.location :=
          ⟨pre, entry, rest, hsplit, rfl, hbloom, hpre⟩
        have hfile : ColumnarReader.getFromFile store entry call.2 =
            .ok (ColumnarReader.scanRowGroups f.rowGroups call.2) := by
          rw [ColumnarReader.getFromFile, hf]
        have hreturns := returns_getFromFile hlake (r.Asks objects store call) call.2 hf
          (fun _ => hopens) hopens fun _ hfooter => ⟨hopens, hfooter⟩
        rw [hfile]
        cases hhit : ColumnarReader.scanRowGroups f.rowGroups call.2 with
        | missing =>
            have hpre' : ∀ e ∈ pre ++ [entry], e.bloomMayContain call.2 = true →
                ColumnarReader.getFromFile store e call.2 = .ok .missing := by
              intro e he
              rw [List.mem_append, List.mem_singleton] at he
              rcases he with he | rfl
              · exact hpre e he
              · intro _
                rw [hfile, hhit]
            obtain ⟨hit, hrest, hrestReturns⟩ := ih hsplit' hpre' hlive'
            rw [hhit] at hreturns
            exact ⟨hit, hrest, hreturns.andThen hrestReturns⟩
        | found value =>
            rw [hhit] at hreturns
            exact ⟨.found value, rfl, hreturns.andThen rfl⟩
        | deleted =>
            rw [hhit] at hreturns
            exact ⟨.deleted, rfl, hreturns.andThen rfl⟩
      · rw [Bool.not_eq_true] at hbloom
        rw [hbloom, Bool.not_false, if_pos rfl, if_pos rfl]
        refine ih hsplit' (fun e he => ?_) hlive'
        rw [List.mem_append, List.mem_singleton] at he
        rcases he with he | rfl
        · exact hpre e he
        · rw [hbloom]
          exact fun h => absurd h Bool.false_ne_true

theorem returns_get (hlake : r.Lake objects store) {call : FileIndex × Bytes}
    (hlive : Indexes store call) :
    ∃ hit, ColumnarReader.get store call.1 call.2 = .ok hit ∧
      (r.get call.1 call.2).Returns (r.Asks objects store call)
        (Request.Good objects (r.IsFooter objects)) Request.Bad (.ok hit) :=
  returns_getFrom hlake (List.nil_append _).symm (by simp)
    fun entry hentry => hlive entry (List.mem_of_mem_filter hentry)

/-! ## reads at once -/

/-- What the pool rules ask for. -/
theorem pool_sound (hlake : r.Lake objects store) :
    Pool.Sound (readerService objects) (fun call : FileIndex × Bytes => r.get call.1 call.2)
      (Indexes store) (r.Asks objects store) (Request.Allowed (r.IsFooter objects))
      (Shared.Sound objects (r.IsFooter objects)) (RequestWork.Good objects)
      (Request.Good objects (r.IsFooter objects)) Request.Bad (result store) where
  service := readerService_sound objects (r.IsFooter objects)
  asks_allowed call q hq := by
    cases q with
    | byteRanges path ranges => trivial
    | getMetadata path => trivial
    | insertMetadata path metadata => exact hq.2
  programs call hcall := by
    obtain ⟨hit, hget, hreturns⟩ := returns_get hlake hcall
    rw [result, hget]
    exact hreturns

section
variable {maxBytes : Nat} {p : r.Reads}

theorem holds_of_reaches (hlake : r.Lake objects store)
    (h : Reaches (r.step objects) (Pool.guard (Indexes store)) (r.new maxBytes) p) :
    p.Holds (readerService objects) (Indexes store) (r.Asks objects store)
      (Shared.Sound objects (r.IsFooter objects)) (RequestWork.Good objects)
      (Request.Good objects (r.IsFooter objects)) Request.Bad (result store) := by
  refine (pool_sound hlake).of_reaches ⟨⟨⟨[], Exact.new maxBytes, by simp⟩, ?_⟩, by simp [new]⟩ h
  intro path metadata hget
  simp [new, MetadataCache.new, MetadataCache.get] at hget

/-- A read that has returned a lookup. -/
theorem get_of_holds (hlake : r.Lake objects store)
    (h : p.Holds (readerService objects) (Indexes store) (r.Asks objects store)
      (Shared.Sound objects (r.IsFooter objects)) (RequestWork.Good objects)
      (Request.Good objects (r.IsFooter objects)) Request.Bad (result store)) {n : Nat}
    {index : FileIndex} {key : Bytes} {hit : Lookup}
    (hn : p.jobs[n]? = some ((index, key), .returned (.ok hit))) :
    ColumnarReader.get store index key = .ok hit := by
  obtain ⟨hcall, hjob⟩ := h.jobs _ (List.mem_of_getElem? hn)
  obtain ⟨hit', hget, -⟩ := returns_get hlake hcall
  rcases hjob with hreturned | ⟨e, he⟩
  · rw [result, hget, Except.ok.injEq] at hreturned
    rw [hget, hreturned]
  · contradiction

/-- **Concurrent cached reads are exact.**  However the reads interleave, whatever
the cache evicts and whichever reads of the store fail: a read that returns a
lookup returns what the point read without caches does, pruning included. -/
theorem reads_agree (hlake : r.Lake objects store)
    (h : Reaches (r.step objects) (Pool.guard (Indexes store)) (r.new maxBytes) p) {n : Nat}
    {index : FileIndex} {key : Bytes} {hit : Lookup}
    (hn : p.jobs[n]? = some ((index, key), .returned (.ok hit))) :
    ColumnarReader.get store index key = .ok hit :=
  get_of_holds hlake (holds_of_reaches hlake h) hn

/-- **A read opens what it must.**  What a read waits for are bytes or the footer of a
file whose bounds and bloom admit its key, and all files before it that were opened
miss the key. -/
theorem reads_open_only (hlake : r.Lake objects store)
    (h : Reaches (r.step objects) (Pool.guard (Indexes store)) (r.new maxBytes) p) {n : Nat}
    {index : FileIndex} {key : Bytes} {q : Request r.parquet.Metadata}
    {work : RequestWork r.parquet.Metadata}
    {k : q.Answer → ReadProgram r.parquet.Metadata Lookup}
    (hn : p.jobs[n]? = some ((index, key), .waiting q work k)) : Opens store index key q.path := by
  obtain ⟨-, -, -, hasks, -⟩ := (holds_of_reaches hlake h).jobs _ (List.mem_of_getElem? hn)
  cases q with
  | byteRanges path ranges => exact hasks
  | getMetadata path => exact hasks
  | insertMetadata path metadata => exact hasks.1

/-- **A read can always finish.**  Whatever the other reads are at and however they
ended, a read that waits can be carried on by its own steps alone until it returns its
lookup. -/
theorem reads_finish (hlake : r.Lake objects store)
    (h : Reaches (r.step objects) (Pool.guard (Indexes store)) (r.new maxBytes) p) {n : Nat}
    {index : FileIndex} {key : Bytes} {q : Request r.parquet.Metadata}
    {work : RequestWork r.parquet.Metadata}
    {k : q.Answer → ReadProgram r.parquet.Metadata Lookup}
    (hn : p.jobs[n]? = some ((index, key), .waiting q work k)) :
    ∃ p' hit, Reaches (r.step objects) (Pool.own n) p p' ∧
      p'.jobs[n]? = some ((index, key), .returned (.ok hit)) ∧
      ColumnarReader.get store index key = .ok hit := by
  have hholds := holds_of_reaches hlake h
  obtain ⟨hcall, -⟩ := hholds.jobs _ (List.mem_of_getElem? hn)
  obtain ⟨hit, hget, -⟩ := returns_get hlake hcall
  obtain ⟨p', hreach, hend⟩ := (pool_sound hlake).finishes
    (readerService_live objects (r.IsFooter objects)) hholds hn
  rw [result, hget] at hend
  exact ⟨p', hit, hreach, hend, hget⟩

end

/-! ## a file of one row -/

/-- A Parquet file of the row `pk = 01, lsn = 5, op = 0, value = 07`: the column
chunks at 4, 26, 51 and 72, the footer at 94. -/
def oneRowFile : Bytes :=
  [80, 65, 82, 49, 21, 0, 21, 10, 21, 10, 44, 21, 2, 21, 0, 21, 6, 21, 6, 0, 0, 1, 0, 0, 0, 1,
   21, 0, 21, 16, 21, 16, 44, 21, 2, 21, 0, 21, 6, 21, 6, 0, 0, 5, 0, 0, 0, 0, 0, 0, 0, 21, 0,
   21, 8, 21, 8, 44, 21, 2, 21, 0, 21, 6, 21, 6, 0, 0, 0, 0, 0, 0, 21, 0, 21, 10, 21, 10, 44,
   21, 2, 21, 0, 21, 6, 21, 6, 0, 0, 1, 0, 0, 0, 7, 21, 2, 25, 92, 72, 2, 107, 118, 21, 8, 0,
   21, 12, 37, 0, 24, 2, 112, 107, 0, 21, 4, 37, 0, 24, 3, 108, 115, 110, 0, 21, 2, 37, 0, 24,
   2, 111, 112, 0, 21, 12, 37, 0, 24, 5, 118, 97, 108, 117, 101, 0, 22, 2, 25, 28, 25, 76, 38,
   8, 28, 21, 12, 25, 21, 0, 25, 24, 2, 112, 107, 21, 0, 22, 2, 22, 44, 22, 44, 38, 8, 60, 88,
   1, 1, 24, 1, 1, 0, 0, 0, 38, 52, 28, 21, 4, 25, 21, 0, 25, 24, 3, 108, 115, 110, 21, 0, 22,
   2, 22, 50, 22, 50, 38, 52, 0, 0, 38, 102, 28, 21, 2, 25, 21, 0, 25, 24, 2, 111, 112, 21, 0,
   22, 2, 22, 42, 22, 42, 38, 102, 0, 0, 38, 144, 1, 28, 21, 12, 25, 21, 0, 25, 24, 5, 118, 97,
   108, 117, 101, 21, 0, 22, 2, 22, 44, 22, 44, 38, 144, 1, 0, 0, 22, 180, 1, 22, 2, 0, 0, 178,
   0, 0, 0, 80, 65, 82, 49]

def oneRow : DataFile where
  location := ['a']
  rowGroups := [{ rows := [⟨[1], 5, 0, some [7]⟩], statistics := some (some [1], some [1]) }]
  pkMin := [1]
  pkMax := [1]
  lsnMax := 5
  bloom := none

/-- The Parquet library on that file: the trailer, then the footer, then the chunks
of three columns at once, each a plain page after a header of 17 bytes. -/
def oneRowParquet : Parquet where
  Metadata := Bytes
  Arrow := Bytes
  loadAndFinish size := .ask [(size - 8, size)] fun trailer =>
    let length := leNat (trailer.flatten.take 4)
    .ask [(size - 8 - length, size - 8)] fun footer => .done (.ok footer.flatten)
  tryNew footer := .ok footer
  statistics footer column :=
    if footer = slice oneRowFile 94 272 ∧ column = 0 then [some (some [1], some [1])] else []
  readRowGroup _ _ _ := .ask [(4, 26), (51, 72), (72, 94)] fun chunks =>
    .done (match chunks with
      | [pk, op, value] => .ok [[⟨pk.drop 21, leNat (op.drop 17), value.drop 21⟩]]
      | _ => .error .external)

def oneRowReader : ReadPath := ⟨oneRowParquet, fun _ => 280⟩

/-- The file is that of any data file with the one row, under any LSN. -/
theorem oneRowReader_lake_of {store : List DataFile}
    (h : ∀ f ∈ store, f.rowGroups.map (fun rg => (rg.statistics, rg.rows.map Row.project)) =
      [(some (some [1], some [1]), [⟨[1], 0, [7]⟩])]) :
    oneRowReader.Lake (fun _ => oneRowFile) store where
  encodes f hf := by
    have hgroups := h f hf
    refine ⟨slice oneRowFile 94 272, slice oneRowFile 94 272, ?_, rfl, ?_, ?_⟩
    · simp only [oneRowReader, oneRowParquet, FileProgram.run, Program.eval]
      exact congrArg Except.ok (by decide +kernel)
    · have hstats := congrArg (List.map Prod.fst) hgroups
      rw [List.map_map] at hstats
      have hfooter : oneRowReader.parquet.statistics (slice oneRowFile 94 272) pkCol =
          [some (some [1], some [1])] := by decide +kernel
      exact hfooter.trans hstats.symm
    · intro i rg hi
      have hrows := congrArg (fun l => l[i]?) hgroups
      simp only [List.getElem?_map, hi, Option.map_some] at hrows
      obtain ⟨hlt, hrg⟩ := List.getElem?_eq_some_iff.mp hrows.symm
      have hi0 : i = 0 := Nat.lt_one_iff.mp hlt
      subst hi0
      refine ⟨[[⟨[1], 0, [7]⟩]], ?_, ?_⟩
      · simp only [oneRowReader, oneRowParquet, FileProgram.run, Program.eval, List.map_cons,
          List.map_nil]
        exact congrArg Except.ok (by decide +kernel)
      · exact congrArg Prod.snd hrg
  fileSize f hf := (by decide +kernel : 280 = oneRowFile.length)

theorem oneRowReader_lake : oneRowReader.Lake (fun _ => oneRowFile) [oneRow] :=
  oneRowReader_lake_of fun f hf => by rw [List.mem_singleton.mp hf]; rfl

/-- A read of the key of the row. -/
def oneRowCall : FileIndex × Bytes := (⟨[oneRow.entry]⟩, [1])

/-- Two reads of the key, step by step side by side: both miss each range, and the
cache holds one column chunk at a time. -/
def sideBySide : List (PoolAct (FileIndex × Bytes) RequestAct) :=
  let both (act : RequestAct) : List (PoolAct (FileIndex × Bytes) RequestAct) :=
    [.carryOn 0 act, .carryOn 1 act]
  let fetch (i : Nat) := both (.fetch (.lookup i)) ++ both (.fetch (.getRange i false)) ++
    both (.fetch (.insert i))
  [.call oneRowCall, .call oneRowCall] ++ both .metadata ++ fetch 0 ++ fetch 0 ++ both .metadata ++
    fetch 0 ++ fetch 1 ++ fetch 2

/-- The second read has returned the value. -/
def secondFound (value : Bytes) (p : oneRowReader.Reads) : Bool :=
  match p.jobs with
  | [_, (call, .returned (.ok hit))] => call = oneRowCall ∧ hit = .found value
  | _ => false

theorem reads_agree_sideBySide : ∃ p, Reaches (oneRowReader.step fun _ => oneRowFile)
    (Pool.guard (Indexes [oneRow])) (oneRowReader.new 30) p ∧
      p.jobs[1]? = some (oneRowCall, .returned (.ok (.found [7]))) ∧
      ColumnarReader.get [oneRow] oneRowCall.1 oneRowCall.2 = .ok (.found [7]) := by
  obtain ⟨p, hreach, hfound⟩ : ∃ p, Reaches (oneRowReader.step fun _ => oneRowFile)
      (Pool.guard (Indexes [oneRow])) (oneRowReader.new 30) p ∧ secondFound [7] p = true :=
    exists_reaches_of_attempt (secondFound [7] · = true) sideBySide (by decide +kernel)
  have hjob : p.jobs[1]? = some (oneRowCall, .returned (.ok (.found [7]))) := by
    rw [secondFound] at hfound
    split at hfound
    · next heq =>
        obtain ⟨rfl, rfl⟩ := of_decide_eq_true hfound
        rw [heq]
        rfl
    · contradiction
  exact ⟨p, hreach, hjob, reads_agree oneRowReader_lake hreach hjob⟩

/-- One read, just called. -/
theorem called_reaches : Reaches (oneRowReader.step fun _ => oneRowFile)
    (Pool.guard (Indexes [oneRow])) (oneRowReader.new 30)
    { shared := (oneRowReader.new 30).shared
      jobs := [(oneRowCall, (oneRowReader.get oneRowCall.1 oneRowCall.2).launch
        (readerService fun _ => oneRowFile))] } :=
  (Reaches.refl _).tail (.call oneRowCall) (by decide +kernel) rfl

theorem reads_open_only_called : ∃ p, Reaches (oneRowReader.step fun _ => oneRowFile)
    (Pool.guard (Indexes [oneRow])) (oneRowReader.new 30) p ∧
      Opens [oneRow] oneRowCall.1 oneRowCall.2 ['a'] := by
  have hreach := called_reaches
  exact ⟨_, hreach, reads_open_only oneRowReader_lake hreach (n := 0) rfl⟩

theorem reads_finish_called : ∃ p p' : oneRowReader.Reads,
    Reaches (oneRowReader.step fun _ => oneRowFile) (Pool.own 0) p p' ∧
      ∃ hit, p'.jobs[0]? = some (oneRowCall, .returned (.ok hit)) := by
  have hreach := called_reaches
  obtain ⟨p', hit, hrest, hend, -⟩ := reads_finish oneRowReader_lake hreach (n := 0) rfl
  exact ⟨_, p', hrest, hit, hend⟩

end ReadPath

end HolyGrail
