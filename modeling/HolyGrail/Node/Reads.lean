import HolyGrail.Node.Index
import HolyGrail.Node.Shape

/-!
# HolyGrail.Node.Reads

Reads beside flushes.

A read looks into the memtables, and if they miss it takes the index and scans
its files; a flush meanwhile moves records from one to the other.  `Visible`
says that nothing falls in between: every inserted record is absorbed by a
memtable of the walk or by a file of the installed index, and a file that the
walk could hide is a copy or older.

It is kept as long as flushes do not get out of order in one of three places:
where the watermark is read, where the index is installed, and where the
memtable is retired.
-/

namespace HolyGrail

open Std (ExtTreeMap)

/-! ## a snapshot and its files -/

/-- A live file that the index lists. -/
def Listed (lake : List DataFile) (index : FileIndex) (f : DataFile) : Prop :=
  f ∈ lake ∧ f.entry ∈ index.entries

section
variable {db : DuckDb} {lake : List DataFile} {index : FileIndex}

theorem Snapshot.files_eq (hf : Files db lake) (h : Snapshot lake index) :
    ∃ files, files ⊆ lake ∧ FileIndex.load files = .ok index ∧
      index.files lake = DataFile.newestFirst files ∧
      ∀ f, f ∈ files ↔ Listed lake index f := by
  obtain ⟨files, hpre, hload⟩ := h
  have hsub : ∀ f ∈ files, f ∈ lake := fun f hf => hpre.subset hf
  have hentries := FileIndex.load_eq fun f hm => (hf.readable (hsub f hm)).lsnMax_nonneg
  rw [hload, Except.ok.injEq] at hentries
  refine ⟨files, hsub, hload, ?_, fun f => ⟨fun hm => ⟨hsub f hm, ?_⟩, fun hl => ?_⟩⟩
  · rw [FileIndex.files, hentries, List.filterMap_map]
    refine (List.filterMap_congr fun f hm => ?_).trans List.filterMap_some
    exact ColumnarReader.find?_location hf.nodup_location (hsub f (DataFile.mem_newestFirst.mp hm))
  · rw [hentries]
    exact List.mem_map_of_mem (DataFile.mem_newestFirst.mpr hm)
  · obtain ⟨hm, he⟩ := hl
    rw [hentries] at he
    obtain ⟨g, hg, hge⟩ := List.mem_map.mp he
    have hg := DataFile.mem_newestFirst.mp hg
    rw [← hf.eq_of_location (hsub g hg) hm (congrArg FileEntry.location hge)]
    exact hg

theorem Snapshot.mem_files (hf : Files db lake) (h : Snapshot lake index) {f : DataFile} :
    f ∈ index.files lake ↔ Listed lake index f := by
  obtain ⟨files, -, -, he, hmem⟩ := h.files_eq hf
  rw [he, DataFile.mem_newestFirst, hmem]

/-- The point read through a snapshot is the first hit of its files. -/
theorem Snapshot.get_eq (hf : Files db lake) (h : Snapshot lake index) (k : Bytes) :
    ColumnarReader.get lake index k =
      .ok (Lookup.ofHit (firstHit ((index.files lake).map DataFile.find) k)) := by
  obtain ⟨files, hsub, hload, he, -⟩ := h.files_eq hf
  rw [he]
  exact ColumnarReader.get_load hf.nodup_location hsub (fun f hm => hf.readable (hsub hm)) hload k

/-- The files of a snapshot of layered files shadow each other in order. -/
theorem Snapshot.shadows (hf : Files db lake) (h : Snapshot lake index)
    (hl : Layered {c | ∃ f ∈ lake, c = f.chunk}) :
    ((index.files lake).map DataFile.find).Pairwise Shadows := by
  obtain ⟨files, hsub, -, he, -⟩ := h.files_eq hf
  rw [he, List.pairwise_map]
  refine List.Pairwise.imp_of_mem ?_ (DataFile.pairwise_newestFirst files)
  intro f g hfm hgm hle
  have hfm := hsub (DataFile.mem_newestFirst.mp hfm)
  have hgm := hsub (DataFile.mem_newestFirst.mp hgm)
  have hsh := hl.shadows ⟨f, hfm, rfl⟩ ⟨g, hgm, rfl⟩ (hf.tight hfm) (hf.tight hgm) hle
  rw [hf.chunk_find hfm, hf.chunk_find hgm] at hsh
  exact hsh

end

theorem Listed.append {lake : List DataFile} {index : FileIndex} {f : DataFile}
    (h : Listed lake index f) (files : List DataFile) : Listed (lake ++ files) index f :=
  ⟨List.mem_append_left _ h.1, h.2⟩

/-- What a version found returns to the client. -/
def effect (hit : Option (Version Bytes)) : Option Bytes := hit.bind Version.value

theorem toResult_ofHit (hit : Option (Version Bytes)) :
    (Lookup.ofHit hit).toResult = effect hit := by
  rcases hit with _ | ⟨l, _ | b⟩ <;> rfl

/-! ## the order of a walk -/

namespace Order

variable {db : DuckDb} {set : MemtableSet} {lake : List DataFile}
  {closed published : List (Arc Memtable)} {up : Nat → Prop}
  (h : Order db set lake closed published up)
include h

/-- Memtables shadow each other in the order of a read. -/
theorem tiers_shadow : set.tiers.Pairwise Shadows := by
  rw [MemtableSet.tiers, MemtableSet.walk, List.map_cons, List.pairwise_cons]
  refine ⟨fun t ht => ?_, ?_⟩
  · obtain ⟨m, hm, rfl⟩ := List.mem_map.mp ht
    rw [List.mem_reverse] at hm
    exact (h.below_active _ (closed_mem_chunks (h.mem_closed hm))).shadows
  · rw [List.pairwise_map, List.pairwise_reverse]
    exact (h.closed_order.sublist h.frozen_sub).imp fun hab => hab.2.shadows

/-- What lies behind the frozen memtables lies behind the whole walk. -/
theorem behind_tiers {f : DataFile} (hf : f ∈ lake)
    (hb : Behind (set.frozen.map fun m => m.val.find) f.find) : Behind set.tiers f.find := by
  have hmem : ∀ t, t ∈ set.tiers ↔
      t = set.active.val.find ∨ t ∈ set.frozen.map fun m => m.val.find := by
    intro t
    simp [MemtableSet.tiers, MemtableSet.walk]
  intro k
  rcases hb k with ⟨t, ht, he⟩ | hall
  · exact .inl ⟨t, (hmem t).mpr (.inr ht), he⟩
  · refine .inr fun t ht v w hv hw => ?_
    rcases (hmem t).mp ht with rfl | ht
    · have hsh := (h.below_active _ (lake_mem_chunks hf)).shadows
      rw [h.files.chunk_find hf] at hsh
      exact hsh k v w hv hw
    · exact hall t ht v w hv hw

theorem lake_layered : Layered {c | ∃ f ∈ lake, c = f.chunk} :=
  h.layered.subset fun _ hc => .inr hc

end Order

/-! ## reads under way and reads that returned -/

/-- What had happened when a read began. -/
structure Began (inserted seen acked : List Record)
    (prior : List (Bytes × Option (Version Bytes))) : Prop where
  seen_sub : seen ⊆ inserted
  acked_sub : acked ⊆ seen
  prior_found : ∀ k v, (k, some v) ∈ prior → ∃ r ∈ seen, r.key = k ∧ r.version = v

/-- Files the index lists absorb all these records of the key. -/
def Covers (lake : List DataFile) (index : FileIndex) (recs : List Record) (key : Bytes) : Prop :=
  ∀ r ∈ recs, r.key = key → ∃ f, Listed lake index f ∧ Absorbs f.find r.write

/-- A read under way: once the memtables missed, the index has everything. -/
def ReadOk (lake : List DataFile) (index : FileIndex) (inserted : List Record)
    (call : ReadCall) : Prop :=
  Began inserted call.inserted call.acked call.prior ∧
    match call.stage with
    | .began => True
    | .missed => Covers lake index call.inserted call.key
    | .holding idx => Snapshot lake idx ∧ Covers lake idx call.inserted call.key

/-- A read that returned: its answer is the effect of an inserted write that
is at least as new as every write to the key inserted before it began. -/
structure AnswerOk (inserted : List Record) (a : Answer) : Prop where
  began : Began inserted a.inserted a.acked a.prior
  result_eq : a.result = .ok (effect a.hit)
  found : ∀ v, a.hit = some v → ∃ r ∈ inserted, r.key = a.key ∧ r.version = v
  fresh : ∀ r ∈ a.inserted, r.key = a.key → ∃ v, a.hit = some v ∧ r.lsn ≤ v.lsn

structure HistoryOk (history : History) : Prop where
  acked_sub : history.acked ⊆ history.inserted
  answers_ok : ∀ a ∈ history.answers, AnswerOk history.inserted a

theorem Began.mono {ins ins' seen acked : List Record}
    {prior : List (Bytes × Option (Version Bytes))} (h : Began ins seen acked prior)
    (hsub : ins ⊆ ins') : Began ins' seen acked prior :=
  { h with seen_sub := fun _ hr => hsub (h.seen_sub hr) }

theorem AnswerOk.mono {ins ins' : List Record} {a : Answer} (h : AnswerOk ins a)
    (hsub : ins ⊆ ins') : AnswerOk ins' a where
  began := h.began.mono hsub
  result_eq := h.result_eq
  found v hv := by
    obtain ⟨r, hr, hk⟩ := h.found v hv
    exact ⟨r, hsub hr, hk⟩
  fresh := h.fresh

theorem Covers.mono {lake : List DataFile} {i j : FileIndex} {recs : List Record}
    {key : Bytes} (h : Covers lake i recs key) (files : List DataFile)
    (hsub : i.entries ⊆ j.entries) :
    Covers (lake ++ files) j recs key := by
  intro r hr hk
  obtain ⟨f, ⟨hf, he⟩, ha⟩ := h r hr hk
  exact ⟨f, ⟨List.mem_append_left _ hf, hsub he⟩, ha⟩

theorem ReadOk.mono {lake : List DataFile} {i j : FileIndex} {ins ins' : List Record}
    {call : ReadCall} (h : ReadOk lake i ins call) (files : List DataFile)
    (hidx : i.entries ⊆ j.entries) (hins : ins ⊆ ins') : ReadOk (lake ++ files) j ins' call := by
  obtain ⟨hb, hs⟩ := h
  refine ⟨hb.mono hins, ?_⟩
  cases hstage : call.stage with
  | began => trivial
  | missed =>
      rw [hstage] at hs
      exact hs.mono files hidx
  | holding idx =>
      rw [hstage] at hs
      exact ⟨hs.1.append files, hs.2.mono files fun _ he => he⟩

end HolyGrail
