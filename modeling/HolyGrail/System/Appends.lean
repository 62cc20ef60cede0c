import HolyGrail.Columnar.ReadPath
import HolyGrail.System.Position

/-!
# HolyGrail.System.Appends

Writes that arrive in key order, such as those of the sequential arm of the
benchmark.

Files are separated in LSN, so with such writes they are separated in key as well:
their key bounds are disjoint, whatever the flushes and the crashes in between.  Then
the bounds alone dismiss all files but one (`appends_open_one_file`), and all bytes a
point read asks for are of one object.
-/

namespace HolyGrail

open Std (ExtTreeMap)

/-! ## disjoint bounds -/

/-- The catalog bounds of a live file are keys of its rows. -/
theorem Files.exact {db : DuckDb} {lake : List DataFile} (h : Files db lake) {f : DataFile}
    (hf : f ∈ lake) : Exact f.pkMin f.pkMax (f.rows.map Row.pk) := by
  obtain ⟨i, mt, hne, -, rfl⟩ := h.exists_memtable hf
  have hrows : (db.file i mt).rows = stagedRows (batches mt) := db.rows_write i _
  rw [hrows]
  exact db.pk_stats i _ (Memtable.stagedRows_ne_nil hne)

/-- No key is within the bounds of both. -/
def DataFile.Apart (f g : DataFile) : Prop :=
  ∀ key, f.entry.mayContain key = true → g.entry.mayContain key = false

/-- Files that lie below each other in LSN, of writes in key order. -/
theorem Files.apart {db : DuckDb} {lake : List DataFile} (h : Files db lake)
    {ws : Set (Write Bytes Bytes)} (hrising : Rising ws)
    (hsound : ∀ f ∈ lake, ∀ k v, f.chunk.find k = some v → ⟨k, v⟩ ∈ ws) {f g : DataFile}
    (hf : f ∈ lake) (hg : g ∈ lake) (hb : f.chunk.Below g.chunk) : f.Apart g := by
  intro key hkey
  -- The highest key of the one and the lowest key of the other are keys of rows.
  obtain ⟨top, htop, hmax⟩ := List.mem_map.mp (h.exact hf).hi_mem
  obtain ⟨bottom, hbottom, hmin⟩ := List.mem_map.mp (h.exact hg).lo_mem
  obtain ⟨v, hv, -⟩ := h.find_row hf htop
  obtain ⟨w, hw, -⟩ := h.find_row hg hbottom
  have hlt : compare f.pkMax g.pkMin = .lt := by
    rw [← hmax, ← hmin]
    exact hrising.key_lt (hsound f hf) (hsound g hg) hb hv hw
  rw [FileEntry.mayContain, within, Bool.and_eq_true] at hkey
  have hbelow : compare key g.pkMin = .lt := Std.TransCmp.lt_of_isLE_of_lt hkey.2 hlt
  have habove : compare g.pkMin key = .gt := Std.OrientedCmp.gt_of_lt hbelow
  show within g.pkMin g.pkMax key = false
  rw [within, habove]
  rfl

/-- Of pairwise exclusive elements at most one is kept. -/
theorem length_filter_le_one {α : Type u} {R : α → α → Prop} {p : α → Bool} {l : List α}
    (h : l.Pairwise R) (hR : ∀ a b, R a b → p a = true → p b = false) :
    (l.filter p).length ≤ 1 := by
  induction l with
  | nil => simp
  | cons a l ih =>
      rw [List.pairwise_cons] at h
      by_cases ha : p a = true
      · have hnone : l.filter p = [] := by
          rw [List.filter_eq_nil_iff]
          intro b hb
          rw [hR a b (h.1 b hb) ha]
          decide
        rw [List.filter_cons_of_pos ha, hnone]
        exact Nat.le_refl 1
      · rw [List.filter_cons_of_neg ha]
        exact ih h.2

/-- An index of files with disjoint bounds has one candidate for a key. -/
theorem FileIndex.candidates_le_one {files : List DataFile} {index : FileIndex}
    (hload : load files = .ok index) (h : files.Pairwise DataFile.Apart) (key : Bytes) :
    (index.candidates key).length ≤ 1 := by
  rw [candidates, ((load_perm hload).filter _).length_eq]
  refine length_filter_le_one (R := fun e e' => e.mayContain key = true →
    e'.mayContain key = false) ?_ fun _ _ hR => hR
  rw [List.pairwise_map]
  exact h.imp fun hapart => hapart key

namespace Node

variable {db : DuckDb} {n : Node}

/-- **Disjoint files.**  When the writes arrived in key order. -/
theorem Positioned.apart (h : n.Positioned db) (hrising : Rising (Wrote n.history.inserted)) :
    n.store.lake.Pairwise DataFile.Apart := by
  have hsound : ∀ f ∈ n.store.lake, ∀ k v, f.chunk.find k = some v →
      ⟨k, v⟩ ∈ Wrote n.history.inserted := by
    intro f hf k v hv
    obtain ⟨r, hr, rfl, rfl⟩ := h.shape.sound f.chunk (.inr (lake_mem_chunks hf)) k v hv
    exact ⟨r, hr, rfl⟩
  exact h.ascending.imp_of_mem fun hf hg hb => h.shape.order.files.apart hrising hsound hf hg hb

theorem Positioned.candidates_le_one (h : n.Positioned db)
    (hrising : Rising (Wrote n.history.inserted)) (key : Bytes) :
    (n.engine.index.candidates key).length ≤ 1 := by
  obtain ⟨files, hpre, hload⟩ := h.serving.indexed.snapshot
  exact FileIndex.candidates_le_one hload ((h.apart hrising).sublist hpre.sublist) key

end Node

namespace ReadPath

open Cache (Request RequestWork ReadProgram)

/-- A read of the pool waits for a part of the object at the path. -/
def Waits {r : ReadPath} (p : r.Reads) (call : FileIndex × Bytes) (path : FileName) : Prop :=
  ∃ (i : Nat) (q : Request r.parquet.Metadata) (work : RequestWork r.parquet.Metadata)
    (k : q.Answer → ReadProgram r.parquet.Metadata Lookup),
    p.jobs[i]? = some (call, .waiting q work k) ∧ q.path = path

/-- With one candidate there is one object to read. -/
theorem Opens.unique {store : List DataFile} {index : FileIndex} {key : Bytes}
    (hone : (index.candidates key).length ≤ 1) {path path' : FileName}
    (h : Opens store index key path) (h' : Opens store index key path') : path = path' := by
  obtain ⟨pre, entry, post, hsplit, rfl, -⟩ := h
  obtain ⟨pre', entry', post', hsplit', rfl, -⟩ := h'
  rw [hsplit] at hone hsplit'
  obtain ⟨rfl, rfl⟩ : pre = [] ∧ post = [] := by
    simp only [List.length_append, List.length_cons] at hone
    exact ⟨List.length_eq_zero_iff.mp (by omega), List.length_eq_zero_iff.mp (by omega)⟩
  have hmem : entry' ∈ [entry] := by
    rw [← List.nil_append [entry], hsplit']
    exact List.mem_append_right _ List.mem_cons_self
  rw [List.mem_singleton.mp hmem]

end ReadPath

namespace System

open ReadPath (Waits Opens Indexes)

variable {db : DuckDb} {s : System} {n : Node}

theorem rising_wrote {recs : List Record} : Rising (Node.Wrote recs) ↔
    ∀ r ∈ recs, ∀ r' ∈ recs, r.lsn < r'.lsn → compare r.key r'.key = .lt := by
  constructor
  · intro h r hr r' hr'
    exact h r.write ⟨r, hr, rfl⟩ r'.write ⟨r', hr', rfl⟩
  · intro h u hu w hw
    obtain ⟨r, hr, rfl⟩ := hu
    obtain ⟨r', hr', rfl⟩ := hw
    exact h r hr r' hr'

/-- **Appends open one file.**  In every state of a run with any number of writers, one
flush at a time, clean freezes and crashes, if the inserted records have keys that rise
with their LSNs: at most one live file is a candidate for a key; it is the one that has
the key, when the index lists a file that has it; and all that concurrent cached reads of
the key ever ask for are parts of one object. -/
theorem appends_open_one_file
    (h : Reaches (step db) (Within Node.Concurrent Node.CrashFresh) init s)
    (hn : s.node? = some n) (hrising : Rising (Node.Wrote n.history.inserted)) (key : Bytes) :
    (n.engine.index.candidates key).length ≤ 1 ∧
    (∀ f ∈ n.store.lake, f.entry ∈ n.engine.index.entries → (∃ row ∈ f.rows, row.pk = key) →
      n.engine.index.candidates key = [f.entry]) ∧
    ∀ (r : ReadPath) (objects : FileName → Bytes), r.Lake objects n.store.lake →
      ∀ (maxBytes : Nat) (p p' : r.Reads),
      Reaches (r.step objects) (Pool.guard (Indexes n.store.lake)) (r.new maxBytes) p →
      Reaches (r.step objects) (Pool.guard (Indexes n.store.lake)) (r.new maxBytes) p' →
      ∀ path path', Waits p (n.engine.index, key) path → Waits p' (n.engine.index, key) path' →
        path = path' := by
  have hpos := positioned_of_reaches h hn
  have hone := hpos.candidates_le_one hrising key
  refine ⟨hone, fun f hf hentry hkey => ?_, ?_⟩
  · obtain ⟨row, hrow, rfl⟩ := hkey
    have hin : f.entry ∈ n.engine.index.candidates row.pk :=
      List.mem_filter.mpr ⟨hentry, (hpos.shape.order.files.readable hf).bounds row hrow⟩
    obtain ⟨e, he⟩ := List.length_eq_one_iff.mp
      (Nat.le_antisymm hone (List.length_pos_of_mem hin))
    rw [he, List.mem_singleton] at hin
    rw [he, hin]
  · intro r objects hlake maxBytes p p' hp hp' path path' hw hw'
    have hopens : ∀ {p : r.Reads} {path : FileName},
        Reaches (r.step objects) (Pool.guard (Indexes n.store.lake)) (r.new maxBytes) p →
        Waits p (n.engine.index, key) path → Opens n.store.lake n.engine.index key path := by
      intro p path hp hw
      obtain ⟨i, q, work, k, hjob, rfl⟩ := hw
      obtain ⟨-, -, -, hasks, -⟩ :=
        (ReadPath.holds_of_reaches hlake hp).jobs _ (List.mem_of_getElem? hjob)
      cases q with
      | byteRanges path ranges => exact hasks
      | getMetadata path => exact hasks
      | insertMetadata path metadata => exact hasks.1
    exact (hopens hp hw).unique hone (hopens hp' hw')

/-- Two flushes that follow each other. -/
def twoFlushes : List Act :=
  Node.putSteps [1] [7] 1 ++ [.freeze] ++ Node.publishSteps 0 ++
    [.query 0, .install 0, .truncate 0, .retire 0] ++
  Node.putSteps [2] [8] 2 ++ [.freeze] ++ Node.publishSteps 1 ++
    [.query 1, .install 1, .truncate 1, .retire 1]

theorem appends_open_one_file_twoFlushes :
    ∃ s n, Reaches (step DuckDb.plain) (Within Node.Concurrent Node.CrashFresh) init s ∧
      s.node? = some n ∧ n.engine.index.entries.length = 2 ∧
      (n.engine.index.candidates [1]).length ≤ 1 := by
  obtain ⟨s, h, hs⟩ := exists_run_of_attempt DuckDb.plain
    (Within Node.Concurrent Node.CrashFresh)
    (fun s => s.node?.any fun n => n.engine.index.entries.length = 2 ∧
      ∀ r ∈ n.history.inserted, ∀ r' ∈ n.history.inserted, r.lsn < r'.lsn →
        compare r.key r'.key = .lt)
    (openSteps ++ nodeSteps twoFlushes) (by decide +kernel)
  obtain ⟨n, hn, hentries⟩ := (Option.any_eq_true _ _).mp hs
  obtain ⟨hentries, hrising⟩ := of_decide_eq_true hentries
  exact ⟨s, n, h, hn, hentries, (appends_open_one_file h hn (rising_wrote.mpr hrising) [1]).1⟩

end System

end HolyGrail
