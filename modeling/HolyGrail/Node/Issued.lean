import HolyGrail.Ledger
import HolyGrail.Node.Lake
import HolyGrail.Wal.Contents

/-!
# HolyGrail.Node.Issued

Where a record can be once it has an LSN.

While a process runs there is a `Ledger` of records such that every frame of
the log, every entry of a memtable a write or a flush can still reach, and
every row of a live file comes from a record of it.  No step but `alloc` adds
to the ledger.  Nothing is assumed about the order of writers, flushes and
truncations, and the bookkeeping of the log may be wrong: only the contents of
the files count.
-/

namespace HolyGrail

open Std (ExtTreeMap)

/-- The row of a record in a data file. -/
def Record.row (r : Record) : Row := rowOf (r.key, r.entry)

theorem Record.row_lsn {r : Record} (h : r.lsn < lsnLimit) : r.row.lsn = r.lsn := asI64_of_lt h

/-! ## memtables -/

/-- Every entry is the entry of such a record. -/
def Memtable.From (mt : Memtable) (items : Set Record) : Prop :=
  ∀ (k : Bytes) (e : Entry), mt.map[k]? = some e → ∃ r ∈ items, r.key = k ∧ r.entry = e

namespace Memtable.From

variable {mt : Memtable} {items items' : Set Record}

theorem new : Memtable.new.From items := by
  intro k e h
  simp [Memtable.new] at h

theorem mono (h : mt.From items) (hsub : items ⊆ items') : mt.From items' := by
  intro k e hk
  obtain ⟨r, hr, hrk⟩ := h k e hk
  exact ⟨r, hsub hr, hrk⟩

theorem insert (h : mt.From items) {r : Record} (hr : r ∈ items) : (mt.insert r).From items := by
  intro k e hk
  rw [Memtable.insert, OrdMap.getElem?_compareInsert] at hk
  split at hk
  · next hw => exact ⟨r, hr, hw.1, Option.some.inj hk⟩
  · exact h k e hk

theorem insertAll (h : mt.From items) {rs : List Record} (hrs : ∀ r ∈ rs, r ∈ items) :
    (mt.insertAll rs).From items := by
  induction rs generalizing mt with
  | nil => exact h
  | cons r rs ih =>
      exact ih (h.insert (hrs r List.mem_cons_self)) fun s hs => hrs s (List.mem_cons_of_mem r hs)

theorem lsnFits (h : mt.From items) (hlt : ∀ r ∈ items, r.lsn < lsnLimit) : mt.LsnFits := by
  rcases mt.attained with ⟨-, hzero⟩ | ⟨k, e, hk, he⟩
  · rw [LsnFits, hzero]
    exact Nat.two_pow_pos 63
  · obtain ⟨r, hr, -, rfl⟩ := h k e hk
    rw [LsnFits, ← he]
    exact hlt r hr

end Memtable.From

/-! ## the store -/

/-- Everything on disk comes from one of the records. -/
structure Store.Backed (db : DuckDb) (Tail : Bytes → Prop) (items : Set Record) (store : Store) :
    Prop where
  log : ∃ log, Mirrors Tail store.dir log ∧ ∀ r, log.Holds r → r ∈ items
  files : Files db store.lake
  rows : ∀ f ∈ store.lake, ∀ row ∈ f.rows, ∃ r ∈ items, row = r.row

namespace Store.Backed

variable {db : DuckDb} {Tail : Bytes → Prop} {items items' : Set Record} {store : Store}

theorem mono (h : store.Backed db Tail items) (hsub : items ⊆ items') :
    store.Backed db Tail items' where
  log := by
    obtain ⟨log, hmir, hlog⟩ := h.log
    exact ⟨log, hmir, fun r hr => hsub (hlog r hr)⟩
  files := h.files
  rows f hf row hrow := by
    obtain ⟨r, hr, he⟩ := h.rows f hf row hrow
    exact ⟨r, hsub hr, he⟩

theorem torn (h : store.Backed db Clean items) : store.Backed db Torn items where
  log := by
    obtain ⟨log, hmir, hlog⟩ := h.log
    exact ⟨log, hmir.weaken torn_nil, hlog⟩
  files := h.files
  rows := h.rows

/-- The log directory changes. -/
theorem withDir (h : store.Backed db Tail items) {Tail' : Bytes → Prop} {dir : Dir} {log : Log}
    (hmir : Mirrors Tail' dir log) (hlog : ∀ r, log.Holds r → r ∈ items) :
    Backed db Tail' items { store with dir } where
  log := ⟨log, hmir, hlog⟩
  files := h.files
  rows := h.rows

theorem removeAll (h : store.Backed db Tail items) {segs : List Segment} {dir : Dir}
    (hr : Wal.removeAll segs store.dir = .ok dir) : Backed db Tail items { store with dir } := by
  obtain ⟨log, hmir, hlog⟩ := h.log
  obtain ⟨log', hsub, hmir'⟩ := hmir.removeAll hr
  exact h.withDir hmir' fun r hr => hlog r (hsub r hr)

/-- A memtable of such records is published. -/
theorem publish (h : store.Backed db Tail items) {mt : Memtable} (hne : mt.isEmpty = false)
    (hfit : mt.LsnFits) (hmt : mt.From items) :
    Backed db Tail items { store with lake := HolyGrail.publish db store.lake (batches mt) } where
  log := h.log
  files := h.files.append hne hfit
  rows f hf row hrow := by
    rw [HolyGrail.publish, List.mem_append, List.mem_singleton] at hf
    rcases hf with hf | rfl
    · exact h.rows f hf row hrow
    · change row ∈ (db.file store.lake.length mt).rows at hrow
      rw [db.rows_file] at hrow
      obtain ⟨⟨k, e⟩, hitem, rfl⟩ := List.mem_map.mp hrow
      obtain ⟨r, hr, rfl, rfl⟩ := hmt k e (OrdMap.mem_toList.mp hitem)
      exact ⟨r, hr, rfl⟩

end Store.Backed

/-! ## the process -/

/-- What a flush has made of its memtable so far. -/
def FlushCall.Faithful (call : FlushCall) : Prop :=
  match call.stage with
  | .planned _ => call.memtable.val.isEmpty = false
  | .staged _ bs => call.memtable.val.isEmpty = false ∧ bs = batches call.memtable.val
  | _ => True

namespace Node

/-- Every record this process can still write or publish is in the ledger. -/
structure Issued (db : DuckDb) (ledger : Ledger Record.lsn) (n : Node) : Prop where
  next : ledger.next = n.engine.nextLsn
  next_le : ledger.next ≤ lsnLimit
  backed : n.store.Backed db Clean ledger.items
  named : n.engine.wal.Named
  writes : ∀ (l : Nat) (call : WriteCall), n.writes[l]? = some call →
    call.record ∈ ledger.items ∧ Fits call.record
  active : n.engine.memtables.active.val.From ledger.items
  flushes : ∀ (p : Nat) (call : FlushCall), n.flushes[p]? = some call →
    call.memtable.val.From ledger.items ∧ call.Faithful

namespace Issued

variable {db : DuckDb} {ledger : Ledger Record.lsn} {n n' : Node} {a : Act}

theorem lsn_lt (h : n.Issued db ledger) : ∀ r ∈ ledger.items, r.lsn < lsnLimit := fun r hr =>
  Nat.lt_of_lt_of_le (ledger.lt_next r hr) h.next_le

theorem alloc (h : n.Issued db ledger) {m : Mutation} (hlt : n.engine.nextLsn < lsnLimit)
    (hpay : (payload (m.record n.engine.nextLsn)).length < 2 ^ 32) :
    Issued db (ledger.issue (m.record n.engine.nextLsn) (by rw [m.record_lsn, h.next]))
      { n with
        engine := { n.engine with nextLsn := n.engine.nextLsn + 1 }
        writes := n.writes.insert n.engine.nextLsn
          { record := m.record n.engine.nextLsn, stage := .allocated } } := by
  have hnew : (m.record n.engine.nextLsn).lsn = ledger.next := by rw [m.record_lsn, h.next]
  have hsub := ledger.subset_issue _ hnew
  have hfit : Fits (m.record n.engine.nextLsn) := by
    refine ⟨?_, hpay⟩
    rw [m.record_lsn]
    exact Nat.lt_trans hlt (by decide)
  refine ⟨?_, ?_, h.backed.mono hsub, h.named, ?_, h.active.mono hsub, ?_⟩
  · exact congrArg (· + 1) h.next
  · rw [← h.next] at hlt
    exact hlt
  · intro l call hc
    rw [OrdMap.getElem?_insert] at hc
    split at hc
    · rw [← Option.some.inj hc]
      exact ⟨ledger.mem_issue _ hnew, hfit⟩
    · exact (h.writes l call hc).imp_left fun hr => hsub hr
  · exact fun p call hc => (h.flushes p call hc).imp_left fun hmt => hmt.mono hsub

/-- A write moves to its next stage. -/
theorem moveWrite (h : n.Issued db ledger) {l : Nat} {call : WriteCall}
    (hc : n.writes[l]? = some call) (stage : WriteStage) :
    (n.moveWrite call stage).Issued db ledger := by
  refine { h with writes := fun l' call' hc' => ?_ }
  rw [Node.moveWrite, OrdMap.getElem?_insert] at hc'
  split at hc'
  · rw [← Option.some.inj hc']
    exact h.writes l call hc
  · exact h.writes l' call' hc'

/-- A flush of a memtable of the ledger stands at some stage. -/
theorem putFlush (h : n.Issued db ledger) (p : Nat) {mt : Arc Memtable}
    (hmt : mt.val.From ledger.items) (stage : FlushStage)
    (hf : FlushCall.Faithful { memtable := mt, stage }) :
    Issued db ledger { n with flushes := n.flushes.insert p { memtable := mt, stage } } := by
  refine { h with flushes := fun q call' hc' => ?_ }
  rw [OrdMap.getElem?_insert] at hc'
  split at hc'
  · rw [← Option.some.inj hc']
    exact ⟨hmt, hf⟩
  · exact h.flushes q call' hc'

/-- A flush moves to its next stage. -/
theorem moveFlush (h : n.Issued db ledger) {p : Nat} {call : FlushCall}
    (hc : n.flushes[p]? = some call) (stage : FlushStage)
    (hf : FlushCall.Faithful { call with stage }) : (n.moveFlush call stage).Issued db ledger :=
  h.putFlush call.memtable.ptr (h.flushes p call hc).1 stage hf

theorem endFlush (h : n.Issued db ledger) (call : FlushCall) :
    (n.endFlush call).Issued db ledger := by
  refine { h with flushes := fun q call' hc' => ?_ }
  rw [Node.endFlush, OrdMap.getElem?_erase] at hc'
  split at hc'
  · contradiction
  · exact h.flushes q call' hc'

/-- The log changes. -/
theorem withLog (h : n.Issued db ledger) {dir : Dir} {wal : Wal}
    (hback : Store.Backed db Clean ledger.items { n.store with dir }) (hwal : wal.Named) :
    Issued db ledger
      { n with store := { n.store with dir }, engine := { n.engine with wal } } :=
  { h with backed := hback, named := hwal }

theorem log (h : n.Issued db ledger) {rec : Record} (hrec : rec ∈ ledger.items)
    (hfit : Fits rec) :
    Issued db ledger
      { n with
        store := { n.store with dir := (n.engine.wal.append n.store.dir [rec]).1 }
        engine := { n.engine with wal := (n.engine.wal.append n.store.dir [rec]).2 } } := by
  obtain ⟨log, hmir, hlog⟩ := h.backed.log
  have hfits : ∀ r ∈ [rec], Fits r := by simpa using hfit
  obtain ⟨log', hsub, hmir', hnamed⟩ := Wal.append_mirrors hmir h.named hfits
  refine h.withLog (h.backed.withDir hmir' fun r hr => ?_) hnamed
  rcases hsub r hr with hr | hr
  · exact hlog r hr
  · rw [List.mem_singleton] at hr
    exact hr ▸ hrec

/-- Segments are deleted, all that are covered or some of them. -/
theorem truncate (h : n.Issued db ledger) {segs : List Segment} {dir : Dir}
    (hr : Wal.removeAll segs n.store.dir = .ok dir) (w : Nat) :
    Issued db ledger
      { n with
        store := { n.store with dir }
        engine := { n.engine with wal := n.engine.wal.dropCovered w } } :=
  h.withLog (h.backed.removeAll hr) h.named

theorem insert (h : n.Issued db ledger) {rec : Record} (hrec : rec ∈ ledger.items) :
    Issued db ledger
      { n with
        engine := { n.engine with memtables := n.engine.memtables.insert rec }
        history := { n.history with inserted := n.history.inserted ++ [rec] } } :=
  { h with active := h.active.insert hrec }

/-- **No step but `alloc` writes a record that had no LSN.** -/
theorem step (h : n.Issued db ledger) (hg : n.PayloadFits a) (hs : n.step db a = some n') :
    ∃ ledger', n'.Issued db ledger' := by
  cases move_of_step hs with
  | alloc m hlt => exact ⟨_, h.alloc hlt hg⟩
  | log hc =>
      obtain ⟨hrec, hfit⟩ := h.writes _ _ hc
      exact ⟨ledger, (h.log hrec hfit).moveWrite hc .logged⟩
  | insert hc =>
      have hins := h.insert (h.writes _ _ hc).1
      exact ⟨ledger, hins.moveWrite hc .inserted⟩
  | ack hc =>
      refine ⟨ledger, { h with writes := fun l call hc' => ?_ }⟩
      rw [OrdMap.getElem?_erase] at hc'
      split at hc'
      · contradiction
      · exact h.writes l call hc'
  | freeze hroom hne =>
      have hput := h.putFlush n.engine.memtables.active.ptr h.active .frozen trivial
      exact ⟨ledger, { hput with active := .new }⟩
  | readWatermark hc => exact ⟨ledger, h.moveFlush hc (.read _) trivial⟩
  | planCovered hc => exact ⟨ledger, h.moveFlush hc (.covered _ _) trivial⟩
  | query hc => exact ⟨ledger, { h.moveFlush hc (.queried _ _ _) trivial with }⟩
  | install hc => exact ⟨ledger, { h.moveFlush hc (.covered _ _) trivial with }⟩
  | planWrite hc hlt hne => exact ⟨ledger, h.moveFlush hc (.planned _) hne⟩
  | stage hc => exact ⟨ledger, h.moveFlush hc (.staged _ _) ⟨(h.flushes _ _ hc).2, rfl⟩⟩
  | publish hc =>
      obtain ⟨hmt, hne, hbs⟩ := h.flushes _ _ hc
      have hpub := h.backed.publish hne (hmt.lsnFits h.lsn_lt) hmt
      rw [← hbs] at hpub
      exact ⟨ledger, { h.moveFlush hc (.published _ _) trivial with backed := hpub }⟩
  | planEmpty hc | retire hc | fail hc => exact ⟨ledger, { h.endFlush _ with }⟩
  | truncate hc hw ht =>
      rw [Wal.truncateThrough] at ht
      split at ht
      · contradiction
      · next dir hr =>
          rw [Except.ok.injEq, Prod.mk.injEq] at ht
          obtain ⟨rfl, rfl⟩ := ht
          exact ⟨ledger, (h.truncate hr _).moveFlush hc (.truncated _ _) trivial⟩
  | failTruncate hc hw hr =>
      exact ⟨ledger, (h.truncate hr _).endFlush _⟩
  | _ => exact ⟨ledger, { h with }⟩

/-- A crash leaves no record that had no LSN. -/
theorem crash (h : n.Issued db ledger) {c : Crash} {store : Store}
    (hc : n.crashed c = some store) : store.Backed db Torn ledger.items := by
  cases c with
  | between => exact Option.some.inj hc ▸ h.backed.torn
  | inAppend l len =>
      rw [crashed] at hc
      split at hc
      · next rec hw =>
          obtain ⟨hrec, hfit⟩ := h.writes _ _ hw
          obtain ⟨log, hmir, hlog⟩ := h.backed.log
          have hfits : ∀ r ∈ [rec], Fits r := by simpa using hfit
          obtain ⟨log', hsub, hmir'⟩ := Wal.appendTorn_mirrors hmir h.named hfits len
          rw [← Option.some.inj hc]
          refine h.backed.withDir hmir' fun r hr => ?_
          rcases hsub r hr with hr | hr
          · exact hlog r hr
          · rw [List.mem_singleton] at hr
            exact hr ▸ hrec
      · contradiction
  | inTruncate p i =>
      rw [crashed] at hc
      split at hc
      · split at hc
        · contradiction
        · split at hc
          · next dir hr =>
              rw [← Option.some.inj hc]
              exact (h.backed.removeAll hr).torn
          · contradiction
      · contradiction
  | inPublish p =>
      rw [crashed] at hc
      split at hc
      · exact Option.some.inj hc ▸ h.backed.torn
      · contradiction

end Issued

end Node

end HolyGrail
