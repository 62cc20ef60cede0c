import HolyGrail.Node

/-!
# HolyGrail.Node.Moves

What a step can do, said once: `Move db n a n'` lists every transition with
its guard and its effect, and `move_of_step` turns a step into one of them.
Every invariant is proved by cases on `Move`.
-/

namespace HolyGrail

open Std (ExtTreeMap)

namespace Node

inductive Move (db : DuckDb) (n : Node) : Act → Node → Prop where
  | alloc (m : Mutation) (hlt : n.engine.nextLsn < lsnLimit) :
      Move db n (.alloc m)
        { n with
          engine := { n.engine with nextLsn := n.engine.nextLsn + 1 }
          writes := n.writes.insert n.engine.nextLsn
            { record := m.record n.engine.nextLsn, stage := .allocated } }
  | log {l : Nat} {rec : Record} (hc : n.writes[l]? = some ⟨rec, .allocated⟩) :
      Move db n (.log l)
        (moveWrite
          { n with
            store := { n.store with dir := (n.engine.wal.append n.store.dir [rec]).1 }
            engine := { n.engine with wal := (n.engine.wal.append n.store.dir [rec]).2 } }
          ⟨rec, .allocated⟩ .logged)
  | insert {l : Nat} {rec : Record} (hc : n.writes[l]? = some ⟨rec, .logged⟩) :
      Move db n (.insert l)
        (moveWrite
          { n with
            engine := { n.engine with memtables := n.engine.memtables.insert rec }
            history := { n.history with inserted := n.history.inserted ++ [rec] } }
          ⟨rec, .logged⟩ .inserted)
  | ack {l : Nat} {rec : Record} (hc : n.writes[l]? = some ⟨rec, .inserted⟩) :
      Move db n (.ack l)
        { n with
          writes := n.writes.erase rec.lsn
          history := { n.history with acked := n.history.acked ++ [rec] } }
  | freeze (hroom : n.engine.memtables.frozen.length < n.engine.memtables.maxFrozen)
      (hne : n.engine.memtables.active.val.isEmpty = false) :
      Move db n .freeze
        { n with
          engine := { n.engine with
            memtables := { n.engine.memtables with
              active := { ptr := n.engine.memtables.active.ptr + 1, val := Memtable.new }
              frozen := n.engine.memtables.frozen ++ [n.engine.memtables.active] } }
          flushes := n.flushes.insert n.engine.memtables.active.ptr
            { memtable := n.engine.memtables.active, stage := .frozen }
          trail := { n.trail with
            closed := n.trail.closed ++ [n.engine.memtables.active] } }
  | readWatermark {p : Nat} {mt : Arc Memtable} (hc : n.flushes[p]? = some ⟨mt, .frozen⟩) :
      Move db n (.readWatermark p)
        (n.moveFlush ⟨mt, .frozen⟩ (.read (publishedWatermark n.store.lake)))
  | planEmpty {p w : Nat} {mt : Arc Memtable} (hc : n.flushes[p]? = some ⟨mt, .read w⟩)
      (he : mt.val.isEmpty = true) :
      Move db n (.plan p) ((n.retireMemtable mt).endFlush ⟨mt, .read w⟩)
  | planCovered {p w : Nat} {mt : Arc Memtable} (hc : n.flushes[p]? = some ⟨mt, .read w⟩)
      (hle : mt.val.maxLsn ≤ w) (hne : mt.val.isEmpty = false) :
      Move db n (.plan p)
        (n.moveFlush ⟨mt, .read w⟩ (.covered (.alreadyPublished mt.val.maxLsn) none))
  | planWrite {p w : Nat} {mt : Arc Memtable} (hc : n.flushes[p]? = some ⟨mt, .read w⟩)
      (hlt : w < mt.val.maxLsn) (hne : mt.val.isEmpty = false) :
      Move db n (.plan p) (n.moveFlush ⟨mt, .read w⟩ (.planned mt.val.maxLsn))
  | stage {p w : Nat} {mt : Arc Memtable} (hc : n.flushes[p]? = some ⟨mt, .planned w⟩) :
      Move db n (.stage p) (n.moveFlush ⟨mt, .planned w⟩ (.staged w (batches mt.val)))
  | publish {p w : Nat} {mt : Arc Memtable} {bs : List RecordBatch}
      (hc : n.flushes[p]? = some ⟨mt, .staged w bs⟩) :
      Move db n (.publish p)
        (moveFlush
          { n with
            store := { n.store with lake := HolyGrail.publish db n.store.lake bs }
            trail := { n.trail.note .publish mt.ptr with
              published := n.trail.published ++ [mt] } }
          ⟨mt, .staged w bs⟩ (.published w (db.write n.store.lake.length (stagedRows bs))))
  | query {p w : Nat} {mt : Arc Memtable} {file : DataFile} {index : FileIndex}
      (hc : n.flushes[p]? = some ⟨mt, .published w file⟩)
      (hload : FileIndex.load n.store.lake = .ok index) :
      Move db n (.query p)
        (moveFlush { n with trail := n.trail.note .query mt.ptr } ⟨mt, .published w file⟩
          (.queried w file index))
  | install {p w : Nat} {mt : Arc Memtable} {file : DataFile} {index : FileIndex}
      (hc : n.flushes[p]? = some ⟨mt, .queried w file index⟩) :
      Move db n (.install p)
        (moveFlush
          { n with
            engine := { n.engine with index }
            trail := n.trail.note .install mt.ptr }
          ⟨mt, .queried w file index⟩ (.covered (.committed w 1) (some file)))
  | truncate {p w : Nat} {mt : Arc Memtable} {result : Flushed} {file : Option DataFile}
      {dir : Dir} {wal : Wal} (hc : n.flushes[p]? = some ⟨mt, .covered result file⟩)
      (hw : result.watermark = some w)
      (ht : n.engine.wal.truncateThrough n.store.dir w = .ok (dir, wal)) :
      Move db n (.truncate p)
        (moveFlush
          { n with store := { n.store with dir }, engine := { n.engine with wal } }
          ⟨mt, .covered result file⟩ (.truncated result file))
  | retire {p : Nat} {mt : Arc Memtable} {result : Flushed} {file : Option DataFile}
      (hc : n.flushes[p]? = some ⟨mt, .truncated result file⟩) :
      Move db n (.retire p)
        (endFlush
          { n.retireMemtable mt with
            trail := { n.trail with retired := n.trail.retired ++ file.toList } }
          ⟨mt, .truncated result file⟩)
  | fail {p : Nat} {call : FlushCall} (hc : n.flushes[p]? = some call) :
      Move db n (.fail p) (n.endFlush call)
  | failTruncate {p w i : Nat} {mt : Arc Memtable} {result : Flushed} {file : Option DataFile}
      {dir : Dir} (hc : n.flushes[p]? = some ⟨mt, .covered result file⟩)
      (hw : result.watermark = some w)
      (hr : Wal.removeAll ((n.engine.wal.covered w).take i) n.store.dir = .ok dir) :
      Move db n (.failTruncate p i)
        (endFlush
          { n with
            store := { n.store with dir }
            engine := { n.engine with wal := n.engine.wal.dropCovered w } }
          ⟨mt, .covered result file⟩)
  | begin {r : Nat} (key : Bytes) (hr : r ∉ n.reads) :
      Move db n (.begin r key)
        { n with
          reads := n.reads.insert r
            { key, stage := .began, inserted := n.history.inserted, acked := n.history.acked
              prior := n.history.answers.map fun a => (a.key, a.hit) } }
  | miss {r : Nat} {call : ReadCall} (hc : n.reads[r]? = some call) (hs : call.stage = .began)
      (hm : n.engine.memtables.get call.key = .missing) :
      Move db n (.lookup r) { n with reads := n.reads.insert r { call with stage := .missed } }
  | hit {r : Nat} {call : ReadCall} (hc : n.reads[r]? = some call) (hs : call.stage = .began)
      (hm : n.engine.memtables.get call.key ≠ .missing) :
      Move db n (.lookup r)
        (n.answer r call (firstHit n.engine.memtables.tiers call.key)
          (.ok (n.engine.memtables.get call.key).toResult))
  | snapshot {r : Nat} {call : ReadCall} (hc : n.reads[r]? = some call)
      (hs : call.stage = .missed) :
      Move db n (.snapshot r)
        { n with reads := n.reads.insert r { call with stage := .holding n.engine.index } }
  | scan {r : Nat} {call : ReadCall} {index : FileIndex} (hc : n.reads[r]? = some call)
      (hs : call.stage = .holding index) :
      Move db n (.scan r)
        (n.answer r call (firstHit ((index.files n.store.lake).map DataFile.find) call.key)
          ((ColumnarReader.get n.store.lake index call.key).map Lookup.toResult))

variable {db : DuckDb} {n n' : Node} {a : Act}

theorem move_of_stepWrite {l : Nat} {call : WriteCall} (hc : n.writes[l]? = some call)
    (ha : a = .log l ∨ a = .insert l ∨ a = .ack l) (h : n.stepWrite call a = some n') :
    Move db n a n' := by
  obtain ⟨rec, stage⟩ := call
  rcases ha with rfl | rfl | rfl <;> simp only [stepWrite] at h <;> split at h
  · next hs => subst hs; rw [← Option.some.inj h]; exact .log hc
  · contradiction
  · next hs => subst hs; rw [← Option.some.inj h]; exact .insert hc
  · contradiction
  · next hs => subst hs; rw [← Option.some.inj h]; exact .ack hc
  · contradiction

/-- The actions of a flush past its freeze. -/
def IsFlush (p : Nat) (a : Act) : Prop :=
  a = .readWatermark p ∨ a = .plan p ∨ a = .stage p ∨ a = .publish p ∨ a = .query p ∨
    a = .install p ∨ a = .truncate p ∨ a = .retire p ∨ a = .fail p ∨ ∃ i, a = .failTruncate p i

theorem move_of_plan {p w : Nat} {mt : Arc Memtable} (hc : n.flushes[p]? = some ⟨mt, .read w⟩)
    (h : n.stepFlush db ⟨mt, .read w⟩ (.plan p) = some n') : Move db n (.plan p) n' := by
  simp only [stepFlush, HolyGrail.plan] at h
  by_cases he : mt.val.isEmpty
  · rw [if_pos he] at h
    rw [← Option.some.inj h]
    exact .planEmpty hc he
  · rw [if_neg he] at h
    rw [Bool.not_eq_true] at he
    by_cases hle : mt.val.maxLsn ≤ w
    · rw [if_pos hle] at h
      rw [← Option.some.inj h]
      exact .planCovered hc hle he
    · rw [if_neg hle] at h
      rw [← Option.some.inj h]
      exact .planWrite hc (by omega) he

theorem move_of_truncate {p : Nat} {mt : Arc Memtable} {result : Flushed}
    {file : Option DataFile} (hc : n.flushes[p]? = some ⟨mt, .covered result file⟩)
    (h : n.stepFlush db ⟨mt, .covered result file⟩ (.truncate p) = some n') :
    Move db n (.truncate p) n' := by
  simp only [stepFlush] at h
  split at h
  · contradiction
  · next w hw =>
      rw [Engine.truncateWal] at h
      cases ht : n.engine.wal.truncateThrough n.store.dir w with
      | error e => rw [ht] at h; contradiction
      | ok r =>
          rw [ht] at h
          rw [← Option.some.inj h]
          exact .truncate hc hw ht

theorem move_of_failTruncate {p i : Nat} {mt : Arc Memtable} {result : Flushed}
    {file : Option DataFile} (hc : n.flushes[p]? = some ⟨mt, .covered result file⟩)
    (h : n.stepFlush db ⟨mt, .covered result file⟩ (.failTruncate p i) = some n') :
    Move db n (.failTruncate p i) n' := by
  simp only [stepFlush] at h
  split at h
  · contradiction
  · next w hw =>
      split at h
      · next dir hr =>
          rw [← Option.some.inj h]
          exact .failTruncate hc hw hr
      · contradiction

theorem move_of_stepFlush {p : Nat} {call : FlushCall} (hc : n.flushes[p]? = some call)
    (ha : IsFlush p a) (h : n.stepFlush db call a = some n') : Move db n a n' := by
  obtain ⟨mt, stage⟩ := call
  rcases ha with rfl | rfl | rfl | rfl | rfl | rfl | rfl | rfl | rfl | ⟨i, rfl⟩
  case inr.inr.inr.inr.inr.inr.inr.inr.inl => rw [← Option.some.inj h]; exact .fail hc
  all_goals cases stage <;> try contradiction
  · rw [← Option.some.inj h]; exact .readWatermark hc
  · exact move_of_plan hc h
  · rw [← Option.some.inj h]; exact .stage hc
  · rw [← Option.some.inj h]; exact .publish hc
  · simp only [stepFlush] at h
    split at h
    · next index hload => rw [← Option.some.inj h]; exact .query hc hload
    · contradiction
  · rw [← Option.some.inj h]; exact .install hc
  · exact move_of_truncate hc h
  · rw [← Option.some.inj h]; exact .retire hc
  · exact move_of_failTruncate hc h

theorem move_of_stepRead {r : Nat} {call : ReadCall} (hc : n.reads[r]? = some call)
    (ha : a = .lookup r ∨ a = .snapshot r ∨ a = .scan r) (h : n.stepRead r call a = some n') :
    Move db n a n' := by
  rcases ha with rfl | rfl | rfl <;> simp only [stepRead] at h <;> split at h <;>
    try contradiction
  · next hs =>
      split at h
      · next hm => rw [← Option.some.inj h]; exact .miss hc hs hm
      · next hm => rw [← Option.some.inj h]; exact .hit hc hs hm
  · next hs => rw [← Option.some.inj h]; exact .snapshot hc hs
  · next index hs => rw [← Option.some.inj h]; exact .scan hc hs

theorem move_of_freeze (h : n.step db .freeze = some n') : Move db n .freeze n' := by
  simp only [step, MemtableSet.freeze] at h
  by_cases hfull : n.engine.memtables.frozen.length ≥ n.engine.memtables.maxFrozen
  · rw [if_pos hfull] at h
    contradiction
  · rw [if_neg hfull] at h
    cases hne : n.engine.memtables.active.val.isEmpty with
    | true => rw [hne, if_pos rfl] at h; contradiction
    | false =>
        rw [hne, if_neg Bool.false_ne_true] at h
        rw [← Option.some.inj h]
        exact .freeze (by omega) hne

/-- **Inversion**: a step is one of the moves. -/
theorem move_of_step (h : n.step db a = some n') : Move db n a n' := by
  cases a with
  | alloc m =>
      simp only [step] at h
      split at h
      · next hlt => rw [← Option.some.inj h]; exact .alloc m hlt
      · contradiction
  | log l =>
      obtain ⟨call, hc, h⟩ := Option.bind_eq_some_iff.mp h
      exact move_of_stepWrite hc (by simp) h
  | insert l =>
      obtain ⟨call, hc, h⟩ := Option.bind_eq_some_iff.mp h
      exact move_of_stepWrite hc (by simp) h
  | ack l =>
      obtain ⟨call, hc, h⟩ := Option.bind_eq_some_iff.mp h
      exact move_of_stepWrite hc (by simp) h
  | freeze => exact move_of_freeze h
  | begin r key =>
      simp only [step] at h
      split at h
      · contradiction
      · next hr => rw [← Option.some.inj h]; exact .begin key hr
  | lookup r =>
      obtain ⟨call, hc, h⟩ := Option.bind_eq_some_iff.mp h
      exact move_of_stepRead hc (by simp) h
  | snapshot r =>
      obtain ⟨call, hc, h⟩ := Option.bind_eq_some_iff.mp h
      exact move_of_stepRead hc (by simp) h
  | scan r =>
      obtain ⟨call, hc, h⟩ := Option.bind_eq_some_iff.mp h
      exact move_of_stepRead hc (by simp) h
  | readWatermark p | plan p | stage p | publish p | query p | install p | truncate p
  | retire p | fail p | failTruncate p i =>
      obtain ⟨call, hc, h⟩ := Option.bind_eq_some_iff.mp h
      exact move_of_stepFlush hc (by simp [IsFlush]) h

theorem stepRead_lookup {r : Nat} {call : ReadCall} (hs : call.stage = .began)
    (hm : n.engine.memtables.get call.key ≠ .missing) :
    n.stepRead r call (.lookup r) =
      some (n.answer r call (firstHit n.engine.memtables.tiers call.key)
        (.ok (n.engine.memtables.get call.key).toResult)) := by
  simp only [stepRead, hs]

/-- Every move can be made. -/
theorem step_of_move (h : Move db n a n') : n.step db a = some n' := by
  cases h with
  | alloc m hlt => rw [step, if_pos hlt]
  | log hc | insert hc | ack hc | readWatermark hc | stage hc | publish hc | install hc
  | retire hc | fail hc => rw [step, hc]; rfl
  | freeze hroom hne =>
      rw [step, MemtableSet.freeze, if_neg (by omega), hne]
      rfl
  | planEmpty hc he =>
      simp only [step, hc, Option.bind_some, stepFlush, HolyGrail.plan, he, if_true]
  | planCovered hc hle hne =>
      simp only [step, hc, Option.bind_some, stepFlush, HolyGrail.plan, hne, Bool.false_eq_true,
        if_false, if_pos hle]
  | planWrite hc hlt hne =>
      simp only [step, hc, Option.bind_some, stepFlush, HolyGrail.plan, hne, Bool.false_eq_true,
        if_false, if_neg (Nat.not_le_of_lt hlt)]
  | query hc hload => simp only [step, hc, Option.bind_some, stepFlush, hload]
  | truncate hc hw ht =>
      simp only [step, hc, Option.bind_some, stepFlush, hw, Engine.truncateWal, ht]
  | failTruncate hc hw hr => simp only [step, hc, Option.bind_some, stepFlush, hw, hr]
  | begin key hr => rw [step, if_neg hr]
  | miss hc hs hm => simp only [step, hc, Option.bind_some, stepRead, hs, hm]
  | hit hc hs hm => rw [step, hc, Option.bind_some, stepRead_lookup hs hm]
  | snapshot hc hs => simp only [step, hc, Option.bind_some, stepRead, hs]
  | scan hc hs => simp only [step, hc, Option.bind_some, stepRead, hs]

end Node

end HolyGrail
