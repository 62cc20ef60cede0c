import HolyGrail.Node.Open

/-!
# HolyGrail.Node.Lake

The live files of a run with one flush at a time: each lies above all earlier
ones, so no version is in two of them.
-/

namespace HolyGrail

open Std (ExtTreeMap)

/-- Each file lies above all earlier ones. -/
def Ascending (lake : List DataFile) : Prop := lake.Pairwise fun f g => f.chunk.Below g.chunk

/-- A row is what a lookup of its key finds. -/
theorem Files.find_row {db : DuckDb} {lake : List DataFile} (h : Files db lake) {f : DataFile}
    (hf : f ∈ lake) {row : Row} (hrow : row ∈ f.rows) :
    ∃ v, f.chunk.find row.pk = some v ∧ (v.lsn : Int) = row.lsn := by
  obtain ⟨i, mt, hne, hfit, rfl⟩ := h.exists_memtable hf
  rw [db.rows_file] at hrow
  obtain ⟨⟨k, e⟩, hitem, rfl⟩ := List.mem_map.mp hrow
  have hk : mt.map[k]? = some e := OrdMap.mem_toList.mp hitem
  refine ⟨e.version, ?_, ?_⟩
  · rw [db.chunk_file i hne hfit, Memtable.chunk_find, Memtable.find]
    exact congrArg (Option.map Entry.version) hk
  · exact (asI64_of_lt (Nat.lt_of_le_of_lt (mt.lsn_le k e hk) hfit)).symm

/-- **No row twice**: in an ascending lake a key and an LSN name one file. -/
theorem Ascending.row_unique {db : DuckDb} {lake : List DataFile} (h : Ascending lake)
    (hfiles : Files db lake) {i j : Nat} {f g : DataFile} (hf : lake[i]? = some f)
    (hg : lake[j]? = some g) {row row' : Row} (hrow : row ∈ f.rows) (hrow' : row' ∈ g.rows)
    (hpk : row.pk = row'.pk) (hlsn : row.lsn = row'.lsn) : i = j := by
  -- Of two files, the later one has no version at or below the earlier one's top.
  have hlt : ∀ {i j : Nat} {f g : DataFile} {row row' : Row}, lake[i]? = some f →
      lake[j]? = some g → row ∈ f.rows → row' ∈ g.rows → row.pk = row'.pk →
      row.lsn = row'.lsn → ¬ i < j := by
    intro i j f g row row' hf hg hrow hrow' hpk hlsn hij
    obtain ⟨hi, rfl⟩ := List.getElem?_eq_some_iff.mp hf
    obtain ⟨hj, rfl⟩ := List.getElem?_eq_some_iff.mp hg
    have hbelow := List.pairwise_iff_getElem.mp h i j hi hj hij
    obtain ⟨v, hv, hvl⟩ := hfiles.find_row (List.getElem_mem hi) hrow
    obtain ⟨u, hu, hul⟩ := hfiles.find_row (List.getElem_mem hj) hrow'
    have h1 := hbelow _ u hu
    have h2 := lake[i].chunk.le_top _ v hv
    omega
  rcases Nat.lt_trichotomy i j with hij | he | hij
  · exact absurd hij (hlt hf hg hrow hrow' hpk hlsn)
  · exact he
  · exact absurd hij (hlt hg hf hrow' hrow hpk.symm hlsn.symm)

namespace Node

variable {db : DuckDb} {n n' : Node} {a : Act}

/-- The memtable of the flush under way lies above every live file. -/
theorem Alone.below_unpublished (h : n.Alone) (hsh : n.Shape db) {p : Nat} {mt : Arc Memtable}
    {stage : FlushStage} (hc : n.flushes[p]? = some ⟨mt, stage⟩) (hpub : mt ∉ n.trail.published) :
    ∀ f ∈ n.store.lake, f.chunk.Below mt.val.chunk := by
  have hptr : mt.ptr = p := (hsh.flushes_ok p _ hc).1
  have hclosed := hsh.order.mem_closed (hsh.frozen_of_call hc).1
  intro f hf
  rcases hsh.order.origin f hf with ⟨m, hm, he⟩ | hold
  · have hle := h.published_le hsh (OrdMap.mem_of_getElem? hc) m hm
    rw [he]
    rcases hsh.order.trichotomy (hsh.order.published_mem m hm).1 hclosed with rfl | hlt | hgt
    · exact absurd hm hpub
    · exact hlt.2
    · omega
  · exact hold mt hclosed

/-- A file of the flush under way goes on top. -/
theorem Alone.ascending_publish (h : n.Alone) (hsh : n.Shape db) {p w : Nat} {mt : Arc Memtable}
    {bs : List RecordBatch} (hc : n.flushes[p]? = some ⟨mt, .staged w bs⟩)
    (hasc : Ascending n.store.lake) : Ascending (HolyGrail.publish db n.store.lake bs) := by
  obtain ⟨hm, hpub, -, rfl⟩ := hsh.frozen_of_call hc
  obtain ⟨hne, hfit, -⟩ := hsh.order.closed_ok mt (hsh.order.mem_closed hm)
  rw [Ascending, HolyGrail.publish, List.pairwise_append]
  refine ⟨hasc, List.pairwise_singleton _ _, fun f hf g hg => ?_⟩
  rw [List.mem_singleton] at hg
  rw [hg]
  change f.chunk.Below (db.file n.store.lake.length mt.val).chunk
  rw [db.chunk_file _ hne hfit]
  exact h.below_unpublished hsh hc hpub f hf

theorem Alone.ascending_step (h : n.Alone) (hsh : n.Shape db) (hasc : Ascending n.store.lake)
    (hs : n.step db a = some n') : Ascending n'.store.lake := by
  cases move_of_step hs with
  | publish hc => exact h.ascending_publish hsh hc hasc
  | _ => exact hasc

/-- A crash leaves the lake as it is. -/
theorem lake_crashed {n : Node} {c : Crash} {store : Store} (h : n.crashed c = some store) :
    store.lake = n.store.lake := by
  cases c with
  | between => rw [← Option.some.inj h]
  | inAppend l len | inPublish p =>
      rw [crashed] at h
      split at h
      · rw [← Option.some.inj h]
      · contradiction
  | inTruncate p i =>
      rw [crashed] at h
      split at h
      · split at h
        · contradiction
        · split at h
          · rw [← Option.some.inj h]
          · contradiction
      · contradiction

/-- **A read at rest** answers every acknowledged write with itself or a later
one. -/
theorem readable_now (hsec : n.Secure db) (h : n.Serving) {r : Record}
    (hr : r ∈ n.history.inserted) : n.Readable n.store n.engine r := by
  obtain ⟨hit, hget, hnew⟩ := get_newest hsec.shape h r.key
  cases hit with
  | none => exact absurd rfl (hnew _ ⟨r, hr, rfl⟩)
  | some v =>
      obtain ⟨⟨w, hw, he⟩, hmax⟩ := hnew
      rw [Record.write, Write.mk.injEq] at he
      obtain ⟨hwk, rfl⟩ := he
      refine ⟨w, .inl hw, hwk, ?_, hget⟩
      have hle : r.lsn ≤ w.lsn := hmax _ ⟨r, hr, rfl⟩ rfl
      rcases Nat.lt_or_eq_of_le hle with hlt | heq
      · exact .inr hlt
      · exact .inl (hsec.stamps.unique r hr w hw heq).symm

end Node

end HolyGrail
