import HolyGrail.Engine.Live
import Mathlib.Algebra.Order.BigOperators.Group.List
import Mathlib.Data.List.Induction

/-!
# HolyGrail.Engine.Backpressure

Writes while flushes fail: how much memory the memtables take.

A `LiveEngine` is an engine whose calls can fail.  `freeze` refuses to grow a full
queue, but `append` asks it only after the record is in the log and in the
active memtable, so a write that finds the queue full is stored and then
reported as stalled.  The queue and every frozen memtable stay within bounds
(`Within`); the active memtable does as long as no call comes after it has
reached `max_bytes` behind a full queue, and each call that does come there adds
to it (`holds_back_iff_never_full`).
-/

namespace HolyGrail

/-! ## the bound -/

/-- The bytes of a mutation's key and value. -/
def Mutation.size : Mutation → Nat
  | .put key value => key.length + value.length
  | .delete key => key.length

theorem Mutation.heapSize_le (m : Mutation) {r : Nat} (h : m.size ≤ r) (lsn : Nat) :
    (m.record lsn).heapSize ≤ r + 64 := by
  cases m <;> exact Nat.add_le_add_right h 64

namespace MemtableSet

@[simp] theorem stalled_insert (set : MemtableSet) (rec : Record) :
    (set.insert rec).stalled = set.stalled := rfl

/-- The queue is full, and the active memtable has reached `max_bytes`. -/
def full (set : MemtableSet) : Bool := set.stalled && set.shouldFreeze

/-- The bytes of one memtable that was frozen in time, when no write has more
than `r` bytes of key and value. -/
def share (maxBytes r : Nat) : Nat := maxBytes + r + 64

/-- **Every memtable has its share.** -/
theorem approxBytes_le {set : MemtableSet} {maxFrozen share : Nat}
    (hqueue : set.frozen.length ≤ maxFrozen)
    (hfrozen : ∀ m ∈ set.frozen, m.val.approxBytes ≤ share)
    (hactive : set.active.val.approxBytes ≤ share) :
    set.approxBytes ≤ (maxFrozen + 1) * share := by
  have hsum : (set.frozen.map fun m => m.val.approxBytes).sum ≤ set.frozen.length * share := by
    have := List.sum_le_card_nsmul (set.frozen.map fun m => m.val.approxBytes) share
      (by simpa using hfrozen)
    simpa using this
  calc set.approxBytes
      ≤ share + set.frozen.length * share := Nat.add_le_add hactive hsum
    _ ≤ share + maxFrozen * share := Nat.add_le_add_left (Nat.mul_le_mul_right _ hqueue) _
    _ = (maxFrozen + 1) * share := by rw [Nat.add_mul, Nat.one_mul, Nat.add_comm]

/-- The queue keeps its length, and every memtable its share.  With room in the
queue the active memtable is below the threshold, or fresh. -/
structure Within (set : MemtableSet) (maxBytes maxFrozen r : Nat) : Prop where
  maxBytes_eq : set.maxBytes = maxBytes
  maxFrozen_eq : set.maxFrozen = maxFrozen
  queue : set.frozen.length ≤ maxFrozen
  frozen : ∀ m ∈ set.frozen, m.val.approxBytes ≤ share maxBytes r
  active : set.active.val.approxBytes ≤ share maxBytes r
  room : set.stalled = false →
    set.active.val.approxBytes < maxBytes ∨ set.active.val.approxBytes = 0

namespace Within

variable {set set' : MemtableSet} {maxBytes maxFrozen r : Nat}

theorem new (maxBytes maxFrozen r : Nat) (h : 0 < maxFrozen) :
    (MemtableSet.new maxBytes maxFrozen h).Within maxBytes maxFrozen r where
  maxBytes_eq := rfl
  maxFrozen_eq := rfl
  queue := Nat.zero_le _
  frozen _ hm := absurd hm List.not_mem_nil
  active := Nat.zero_le _
  room _ := .inr rfl

/-- Below the threshold, a write does not take the active memtable over its
share. -/
theorem active_insert (h : set.Within maxBytes maxFrozen r) (hfull : set.full = false)
    {rec : Record} (hrec : rec.heapSize ≤ r + 64) :
    (set.insert rec).active.val.approxBytes ≤ share maxBytes r := by
  have hlow : set.active.val.approxBytes < maxBytes ∨ set.active.val.approxBytes = 0 := by
    cases hs : set.stalled with
    | false => exact h.room hs
    | true =>
        rw [full, hs, Bool.true_and, shouldFreeze, decide_eq_false_iff_not, h.maxBytes_eq] at hfull
        omega
  change set.active.val.approxBytes + rec.heapSize ≤ share maxBytes r
  rw [share]
  omega

/-- A write behind which nothing is frozen. -/
theorem insert (h : set.Within maxBytes maxFrozen r) (hfull : set.full = false) {rec : Record}
    (hrec : rec.heapSize ≤ r + 64)
    (hkept : set.stalled = true ∨ (set.insert rec).shouldFreeze = false) :
    (set.insert rec).Within maxBytes maxFrozen r where
  maxBytes_eq := h.maxBytes_eq
  maxFrozen_eq := h.maxFrozen_eq
  queue := h.queue
  frozen := h.frozen
  active := h.active_insert hfull hrec
  room hroom := by
    have hlow : (set.insert rec).shouldFreeze = false :=
      hkept.resolve_left (by rw [Bool.not_eq_true]; exact hroom)
    rw [shouldFreeze, decide_eq_false_iff_not] at hlow
    exact .inl (by rw [← h.maxBytes_eq]; exact Nat.not_le.mp hlow)

/-- A write that fills the active memtable, which is then frozen. -/
theorem freeze (h : set.Within maxBytes maxFrozen r) (hfull : set.full = false) {rec : Record}
    (hrec : rec.heapSize ≤ r + 64) {frozen : Arc Memtable}
    (hf : (set.insert rec).freeze = .ok (some frozen, set')) :
    set'.Within maxBytes maxFrozen r ∧ set'.active.val.approxBytes = 0 := by
  rw [MemtableSet.freeze] at hf
  split at hf
  · contradiction
  · next hroom =>
      split at hf
      · simp at hf
      · simp only [Except.ok.injEq, Prod.mk.injEq, Option.some.injEq] at hf
        obtain ⟨rfl, rfl⟩ := hf
        refine ⟨⟨h.maxBytes_eq, h.maxFrozen_eq, ?_, ?_, Nat.zero_le _, fun _ => .inr rfl⟩, rfl⟩
        · have hlt : set.frozen.length < maxFrozen := by
            rw [← h.maxFrozen_eq]
            exact Nat.not_le.mp hroom
          simp only [List.length_append, List.length_singleton]
          exact hlt
        · intro m hm
          rw [List.mem_append, List.mem_singleton] at hm
          rcases hm with hm | rfl
          · exact h.frozen m hm
          · exact h.active_insert hfull hrec

theorem retire (h : set.Within maxBytes maxFrozen r) (hfresh : set.active.val.approxBytes = 0)
    (flushed : Arc Memtable) : (set.retire flushed).Within maxBytes maxFrozen r where
  maxBytes_eq := h.maxBytes_eq
  maxFrozen_eq := h.maxFrozen_eq
  queue := Nat.le_trans (List.length_filter_le _ _) h.queue
  frozen m hm := h.frozen m (List.mem_filter.mp hm).1
  active := h.active
  room _ := .inr hfresh

end Within

end MemtableSet

/-! ## what a call does to the memtables -/

namespace LiveEngine

variable {db : DuckDb} {p : LiveEngine}

@[simp] theorem memtables_setMemtables (p : LiveEngine) (set : MemtableSet) :
    (p.setMemtables set).memtables = set := rfl

@[simp] theorem memtables_retire (p : LiveEngine) (flushed : Arc Memtable) :
    (p.retire flushed).memtables = p.memtables.retire flushed := rfl

theorem memtables_truncateWal (p : LiveEngine) (watermark : Nat) (fault : Option FlushFault) :
    (p.truncateWal watermark fault).1.memtables = p.memtables := rfl

/-- A set with or without the memtable of a flush. -/
def Retires (set set' : MemtableSet) (flushed : Arc Memtable) : Prop :=
  set' = set ∨ set' = set.retire flushed

theorem retires_finish (p : LiveEngine) (frozen : Arc Memtable) (watermark : Nat)
    (fault : Option FlushFault) :
    Retires p.memtables (p.finish frozen watermark fault).1.memtables frozen := by
  rw [finish]
  split
  · exact .inl rfl
  · cases hi : p.engine.publishIndex p.store with
    | error e => exact .inl rfl
    | ok engine =>
        have hset : engine.memtables = p.memtables := by
          rw [Engine.publishIndex] at hi
          split at hi
          · contradiction
          · rw [← Except.ok.inj hi]
            rfl
        have hkeep := memtables_truncateWal { p with engine } watermark fault
        dsimp only
        split
        · next h => exact .inl (by rw [h] at hkeep; exact hkeep.trans hset)
        · next h =>
            rw [h] at hkeep
            exact .inr (by rw [memtables_retire, hkeep.trans hset])

/-- **What a flush does to the queue**: once frozen, the memtable is retired or
left there. -/
theorem retires_flushFrozen (p : LiveEngine) (frozen : Arc Memtable) (fault : Option FlushFault) :
    Retires p.memtables (p.flushFrozen db frozen fault).1.memtables frozen := by
  rw [flushFrozen]
  split
  · exact .inl rfl
  · split
    · exact .inr rfl
    · next watermark _ =>
        have hkeep := memtables_truncateWal p watermark fault
        split
        · next h => exact .inl (by rw [h] at hkeep; exact hkeep)
        · next h => exact .inr (by rw [h] at hkeep; rw [memtables_retire, hkeep])
    · dsimp only
      split
      · exact .inl rfl
      · exact .inl rfl
      · exact .inl rfl
      · exact retires_finish _ _ _ _

/-- What a call that writes `rec` can do to the memtables. -/
inductive Moved (set : MemtableSet) (rec : Record) : MemtableSet → Prop where
  /-- The log append failed. -/
  | kept : Moved set rec set
  | inserted (h : set.stalled = true ∨ (set.insert rec).shouldFreeze = false) :
      Moved set rec (set.insert rec)
  | frozen {frozen : Arc Memtable} {set' set'' : MemtableSet}
      (h : (set.insert rec).freeze = .ok (some frozen, set')) (hret : Retires set' set'' frozen) :
      Moved set rec set''

theorem freeze_of_stalled {set : MemtableSet} (h : set.stalled = true) :
    set.freeze = .error (.writeStalled set.frozen.length) := by
  rw [MemtableSet.freeze, if_pos (of_decide_eq_true h)]

theorem freeze_of_room {set : MemtableSet} (h : set.stalled = false)
    (hne : set.active.val.isEmpty = false) :
    ∃ frozen set', set.freeze = .ok (some frozen, set') := by
  rw [MemtableSet.freeze, if_neg (of_decide_eq_false h), hne]
  exact ⟨_, _, rfl⟩

/-- **What a call does to the memtables.** -/
theorem moved_append (p : LiveEngine) (rec : Record) (log : Fault) (fault : Option FlushFault) :
    Moved p.memtables rec (p.append db rec log fault).1.memtables := by
  rw [append]
  cases p.writer.append [rec] log with
  | error w => exact .kept
  | ok w =>
      dsimp only
      rw [memtables_setMemtables]
      cases hlow : (p.memtables.insert rec).shouldFreeze with
      | false => exact .inserted (.inr hlow)
      | true =>
          -- The threshold is reached; whether the queue has room decides.
          rw [if_pos rfl, flush, memtables_setMemtables]
          cases hs : p.memtables.stalled with
          | true =>
              rw [freeze_of_stalled (by rw [MemtableSet.stalled_insert, hs])]
              exact .inserted (.inl hs)
          | false =>
              have hroom : (p.memtables.insert rec).stalled = false := hs
              obtain ⟨frozen, set', hf⟩ := freeze_of_room hroom (Memtable.isEmpty_insert _ rec)
              rw [hf]
              exact .frozen hf (retires_flushFrozen _ frozen fault)

theorem moved_mutate (p : LiveEngine) (call : Call) :
    Moved p.memtables (call.mutation.record p.engine.nextLsn) (p.mutate db call).1.memtables := by
  rw [mutate]
  exact moved_append p.takeLsn _ _ _

/-- A call that does not find the queue full and the active memtable at
`max_bytes` leaves every memtable its share. -/
theorem within_mutate {maxBytes maxFrozen r : Nat} {call : Call}
    (h : p.memtables.Within maxBytes maxFrozen r) (hfull : p.memtables.full = false)
    (hsize : call.mutation.size ≤ r) :
    (p.mutate db call).1.memtables.Within maxBytes maxFrozen r := by
  have hrec := call.mutation.heapSize_le hsize p.engine.nextLsn
  have hmoved : Moved _ _ (p.mutate db call).1.memtables := moved_mutate p call
  generalize (p.mutate db call).1.memtables = set' at hmoved ⊢
  cases hmoved with
  | kept => exact h
  | inserted hkept => exact h.insert hfull hrec hkept
  | frozen hf hret =>
      obtain ⟨hset, hfresh⟩ := h.freeze hfull hrec hf
      rcases hret with hret | hret <;> rw [hret]
      · exact hset
      · exact hset.retire hfresh _

/-! ## calls that find memory full -/

/-- The write is turned away: it is reported as stalled, and neither the log nor
a memtable has it. -/
structure Refused (db : DuckDb) (p : LiveEngine) (call : Call) : Prop where
  stalled : ∃ k, (p.mutate db call).2 = .error (.writeStalled k)
  log : (p.mutate db call).1.writer = p.writer
  memtables : (p.mutate db call).1.memtables = p.memtables

theorem shouldFreeze_insert {set : MemtableSet} (h : set.shouldFreeze = true) (rec : Record) :
    (set.insert rec).shouldFreeze = true := by
  rw [MemtableSet.shouldFreeze, decide_eq_true_eq] at *
  exact Nat.le_trans h (Nat.le_add_right _ _)

/-- A write that finds memory full is logged, inserted, and then reported as
stalled; or its log append fails. -/
theorem append_of_full (db : DuckDb) (h : p.memtables.full = true) (rec : Record) (log : Fault)
    (fault : Option FlushFault) :
    (p.append db rec log fault).2 = .error .io ∨
      (p.append db rec log fault).2 = .error (.writeStalled p.memtables.frozen.length) ∧
        (p.append db rec log fault).1.memtables = p.memtables.insert rec := by
  rw [MemtableSet.full, Bool.and_eq_true] at h
  rw [append]
  cases p.writer.append [rec] log with
  | error w => exact .inl rfl
  | ok w =>
      dsimp only
      rw [memtables_setMemtables, if_pos (shouldFreeze_insert h.2 rec), flush,
        memtables_setMemtables, freeze_of_stalled (by rw [MemtableSet.stalled_insert, h.1])]
      exact .inr ⟨rfl, rfl⟩

theorem insert_ne (set : MemtableSet) (rec : Record) : set.insert rec ≠ set := by
  intro h
  have hbytes : set.active.val.approxBytes + rec.heapSize = set.active.val.approxBytes :=
    congrArg (fun s : MemtableSet => s.active.val.approxBytes) h
  rw [Record.heapSize, Record.entryOverhead] at hbytes
  omega

/-- **No write is refused.** -/
theorem not_refused_of_full (h : p.memtables.full = true) (call : Call) : ¬ p.Refused db call := by
  intro hrefused
  obtain ⟨k, hk⟩ := hrefused.stalled
  have hmem := hrefused.memtables
  rw [mutate] at hk hmem
  have hfull : p.takeLsn.memtables.full = true := h
  rcases append_of_full db hfull (call.mutation.record p.engine.nextLsn) call.log call.flush with
    hio | ⟨-, hins⟩
  · dsimp only at hk
    rw [hio] at hk
    simp [Except.map] at hk
  · exact insert_ne _ _ (hins.symm.trans hmem)

/-! ## whole runs -/

theorem run_append (db : DuckDb) (p : LiveEngine) (pre : List Call) (call : Call) :
    p.run db (pre ++ [call]) = ((p.run db pre).mutate db call).1 := by
  rw [run, List.foldl_append]
  rfl

/-- What backpressure is for, over the calls of a run: the memtables take no more
than their shares, also inside a call, where the record is in and nothing is
retired yet; and a call that finds memory full is refused. -/
structure HoldsBack (db : DuckDb) (p : LiveEngine) (r : Nat) (calls : List Call) : Prop where
  bounded : ∀ pre, pre <+: calls →
    (p.run db pre).memtables.approxBytes ≤
      (p.memtables.maxFrozen + 1) * (p.memtables.maxBytes + r + 64)
  peak : ∀ pre call, pre ++ [call] <+: calls →
    ((p.run db pre).memtables.insert
      (call.mutation.record (p.run db pre).engine.nextLsn)).approxBytes ≤
      (p.memtables.maxFrozen + 1) * (p.memtables.maxBytes + r + 64)
  refuses : ∀ pre call, pre ++ [call] <+: calls → (p.run db pre).memtables.full = true →
    (p.run db pre).Refused db call

theorem mem_calls {pre calls : List Call} {call : Call} (h : pre ++ [call] <+: calls) :
    call ∈ calls :=
  h.subset (List.mem_append_right _ (List.mem_singleton.mpr rfl))

section
variable {maxBytes maxFrozen r : Nat} {hpos : 0 < maxFrozen} {calls : List Call}
  (h₀ : p.memtables = MemtableSet.new maxBytes maxFrozen hpos)
  (hsize : ∀ call ∈ calls, call.mutation.size ≤ r)
include h₀ hsize

theorem within_run
    (hnever : ∀ pre call, pre ++ [call] <+: calls → (p.run db pre).memtables.full = false)
    (pre : List Call) (hpre : pre <+: calls) :
    (p.run db pre).memtables.Within maxBytes maxFrozen r := by
  induction pre using List.reverseRecOn with
  | nil =>
      change p.memtables.Within maxBytes maxFrozen r
      rw [h₀]
      exact .new maxBytes maxFrozen r hpos
  | append_singleton pre call ih =>
      rw [run_append]
      exact within_mutate (ih ((List.prefix_append pre [call]).trans hpre)) (hnever pre call hpre)
        (hsize call (mem_calls hpre))

/-- **Backpressure holds exactly until memory is full.**  Started with empty
memtables, a run of `put`s and `delete`s, of which any may fail anywhere, stays
within the bound and refuses what it should if and only if no call of it finds
the queue full and the active memtable at `max_bytes`. -/
theorem holds_back_iff_never_full :
    p.HoldsBack db r calls ↔
      ∀ pre call, pre ++ [call] <+: calls → (p.run db pre).memtables.full = false := by
  constructor
  · intro h pre call hpre
    by_contra hfull
    rw [Bool.not_eq_false] at hfull
    exact not_refused_of_full hfull call (h.refuses pre call hpre hfull)
  · intro hnever
    refine ⟨fun pre hpre => ?_, fun pre call hpre => ?_, fun pre call hpre hfull => ?_⟩
    · have hwithin := within_run h₀ hsize hnever pre hpre
      rw [h₀]
      exact MemtableSet.approxBytes_le hwithin.queue hwithin.frozen hwithin.active
    · have hwithin := within_run h₀ hsize hnever pre ((List.prefix_append pre [call]).trans hpre)
      rw [h₀]
      exact MemtableSet.approxBytes_le hwithin.queue hwithin.frozen
        (hwithin.active_insert (hnever pre call hpre)
          (call.mutation.heapSize_le (hsize call (mem_calls hpre)) _))
    · rw [hnever pre call hpre] at hfull
      contradiction
end

/-- A fresh process whose memtables hold one byte, and of which one may wait. -/
def tiny : LiveEngine where
  store := { dir := (Wal.first 65536).1, lake := [] }
  engine := {
    index := { entries := [] }
    memtables := MemtableSet.new 1 1 Nat.one_pos
    wal := (Wal.first 65536).2.1
    nextLsn := 1 }
  buf := []

/-- A `put` of two bytes whose log append goes through. -/
def putOne (flush : Option FlushFault) : Call where
  mutation := .put [1] [1]
  log := { quota := 1000, seals := true, syncs := true }
  flush

/-- A flush whose publish fails, and a write that finds the queue full but the
active memtable empty. -/
def oneStalled : List Call := [putOne (some (.publish false)), putOne none]

theorem holds_back_oneStalled :
    tiny.HoldsBack DuckDb.plain 2 oneStalled ∧
      ((tiny.run DuckDb.plain [putOne (some (.publish false))]).mutate DuckDb.plain
        (putOne none)).2 = .error (.writeStalled 1) := by
  refine ⟨(holds_back_iff_never_full rfl (by decide)).mpr fun pre call hpre => ?_,
    by decide +kernel⟩
  have hshort : pre.length < 2 := by
    have := hpre.length_le
    rw [List.length_append, List.length_singleton] at this
    exact this
  rw [List.prefix_iff_eq_take.mp ((List.prefix_append pre [call]).trans hpre)]
  have hruns : ∀ k < 2, (tiny.run DuckDb.plain (oneStalled.take k)).memtables.full = false := by
    decide +kernel
  exact hruns _ hshort

/-- The same, and one more write. -/
def twoStalled : List Call := oneStalled ++ [putOne none]

/-- The write behind the full queue is taken, and memory grows over its bound. -/
theorem stalled_writes_grow_memory :
    (∀ call ∈ twoStalled, call.mutation.size ≤ 2) ∧
      (tiny.run DuckDb.plain oneStalled).memtables.full = true ∧
      ((tiny.run DuckDb.plain oneStalled).mutate DuckDb.plain
        (putOne none)).1.memtables.approxBytes = 198 ∧
      ¬ tiny.HoldsBack DuckDb.plain 2 twoStalled := by
  have hgrown : ((tiny.run DuckDb.plain oneStalled).mutate DuckDb.plain
      (putOne none)).1.memtables.approxBytes = 198 := by decide +kernel
  refine ⟨by decide, by decide +kernel, hgrown, fun h => ?_⟩
  have hbound := h.bounded twoStalled List.prefix_rfl
  rw [twoStalled, run_append, hgrown] at hbound
  exact absurd hbound (by decide)

end LiveEngine

end HolyGrail
