import HolyGrail.Node.Issued

/-!
# HolyGrail.Node.Watermarks

No two memtables of a process are flushed under one watermark.

The watermark of a flush is the highest LSN of its memtable, and the file it stages
is named after it.  A record reaches one memtable only, so the highest LSNs of two
frozen memtables differ.  That holds with any number of writers and flushes at once,
in any order and failing or not.
-/

namespace HolyGrail

open Std (ExtTreeMap)

theorem Memtable.maxLsn_of_isEmpty {mt : Memtable} (h : mt.isEmpty = true) : mt.maxLsn = 0 := by
  cases mt.attained with
  | inl hempty => exact hempty.2
  | inr hsome =>
      obtain ⟨k, e, hk, -⟩ := hsome
      rw [isEmpty, ExtTreeMap.isEmpty_iff] at h
      simp [h] at hk

/-- The watermark a flush has staged or is about to stage its memtable under. -/
def FlushStage.staging? : FlushStage → Option Nat
  | .planned w | .staged w _ | .published w _ | .queried w _ _ => some w
  | .covered (.committed w _) _ | .truncated (.committed w _) _ => some w
  | _ => none

theorem FlushStage.staging?_truncated (result : Flushed) (file : Option DataFile) :
    (truncated result file).staging? = (covered result file).staging? := by
  cases result <;> rfl

/-- The flush works under the watermark of its memtable, on the batches of it. -/
def FlushCall.Marked (call : FlushCall) : Prop :=
  (∀ w, call.stage.staging? = some w → w = call.memtable.val.maxLsn) ∧
    ∀ w bs, call.stage = .staged w bs → bs = batches call.memtable.val

namespace Node

/-- Watermarks tell the memtables of the process apart. -/
structure Marked (n : Node) : Prop where
  next_le : n.engine.nextLsn ≤ lsnLimit
  active_lt : n.engine.memtables.active.val.maxLsn < n.engine.nextLsn
  closed_lt : ∀ m ∈ n.trail.closed,
    m.ptr < n.engine.memtables.active.ptr ∧ m.val.maxLsn < n.engine.nextLsn
  closed_ptr : ∀ m ∈ n.trail.closed, ∀ m' ∈ n.trail.closed, m.ptr = m'.ptr → m = m'
  closed_lsn : ∀ m ∈ n.trail.closed, ∀ m' ∈ n.trail.closed,
    m.val.maxLsn = m'.val.maxLsn → m = m'
  active_ne : n.engine.memtables.active.val.isEmpty = false →
    ∀ m ∈ n.trail.closed, m.val.maxLsn ≠ n.engine.memtables.active.val.maxLsn
  /-- The LSN of a write on its way is new to all memtables. -/
  writes_ok : ∀ (l : Nat) (call : WriteCall), n.writes[l]? = some call →
    call.record.lsn = l ∧ 0 < l ∧ l < n.engine.nextLsn ∧ (call.stage ≠ .inserted →
      l ≠ n.engine.memtables.active.val.maxLsn ∧ ∀ m ∈ n.trail.closed, m.val.maxLsn ≠ l)
  flushes_ok : ∀ (p : Nat) (call : FlushCall), n.flushes[p]? = some call →
    call.memtable ∈ n.trail.closed ∧ call.memtable.ptr = p ∧ call.Marked

namespace Marked

variable {db : DuckDb} {n n' : Node} {a : Act} (h : n.Marked)
include h

theorem alloc (m : Mutation) (hlt : n.engine.nextLsn < lsnLimit) :
    Marked
      { n with
        engine := { n.engine with nextLsn := n.engine.nextLsn + 1 }
        writes := n.writes.insert n.engine.nextLsn
          { record := m.record n.engine.nextLsn, stage := .allocated } } := by
  have hactive := h.active_lt
  have hclosed := h.closed_lt
  refine { h with next_le := hlt, active_lt := ?_, closed_lt := ?_, writes_ok := ?_ }
  · show n.engine.memtables.active.val.maxLsn < n.engine.nextLsn + 1
    omega
  · intro m hm
    have := hclosed m hm
    exact ⟨this.1, by show m.val.maxLsn < n.engine.nextLsn + 1; omega⟩
  · intro l call hc
    rw [OrdMap.getElem?_insert] at hc
    by_cases hl : n.engine.nextLsn = l
    · rw [if_pos hl, Option.some.injEq] at hc
      subst hc hl
      refine ⟨m.record_lsn _, by omega, Nat.lt_succ_self _, fun _ => ⟨?_, fun m hm => ?_⟩⟩
      · show n.engine.nextLsn ≠ n.engine.memtables.active.val.maxLsn
        omega
      · have := (hclosed m hm).2
        omega
    · rw [if_neg hl] at hc
      obtain ⟨hrec, hpos, hlt', hnew⟩ := h.writes_ok l call hc
      exact ⟨hrec, hpos, Nat.lt_succ_of_lt hlt', hnew⟩

/-- A write that stays on its way. -/
theorem moveWrite {l : Nat} {call : WriteCall} (hc : n.writes[l]? = some call)
    (hs : call.stage ≠ .inserted) (stage : WriteStage) : (n.moveWrite call stage).Marked := by
  refine { h with writes_ok := fun l' call' hc' => ?_ }
  obtain ⟨hrec, hrest⟩ := h.writes_ok l call hc
  rw [Node.moveWrite, OrdMap.getElem?_insert] at hc'
  by_cases hl : call.record.lsn = l'
  · rw [if_pos hl, Option.some.injEq] at hc'
    subst hc'
    subst hl
    rw [hrec]
    exact ⟨rfl, hrest.1, hrest.2.1, fun _ => hrest.2.2 hs⟩
  · rw [if_neg hl] at hc'
    exact h.writes_ok l' call' hc'

/-- **A record reaches the active memtable.** -/
theorem insert {l : Nat} {rec : Record} (hc : n.writes[l]? = some ⟨rec, .logged⟩) :
    (Node.moveWrite
      { n with
        engine := { n.engine with memtables := n.engine.memtables.insert rec }
        history := { n.history with inserted := n.history.inserted ++ [rec] } }
      ⟨rec, .logged⟩ .inserted).Marked := by
  obtain ⟨hrec, hpos, hlt, hnew⟩ := h.writes_ok l _ hc
  obtain ⟨hactive, hclosed⟩ := hnew (by simp)
  have hrec : rec.lsn = l := hrec
  have hmax : (n.engine.memtables.insert rec).active.val.maxLsn =
      max n.engine.memtables.active.val.maxLsn l := by
    rw [← hrec]
    rfl
  have hold := h.active_lt
  refine { h with active_lt := ?_, active_ne := ?_, writes_ok := ?_ }
  · show (n.engine.memtables.insert rec).active.val.maxLsn < n.engine.nextLsn
    omega
  · intro _ m hm
    show m.val.maxLsn ≠ (n.engine.memtables.insert rec).active.val.maxLsn
    have hne := hclosed m hm
    by_cases hempty : n.engine.memtables.active.val.isEmpty = true
    · have := Memtable.maxLsn_of_isEmpty hempty
      omega
    · have := h.active_ne (by simpa using hempty) m hm
      omega
  · intro l' call' hc'
    rw [Node.moveWrite, OrdMap.getElem?_insert] at hc'
    by_cases hl : rec.lsn = l'
    · rw [if_pos hl, Option.some.injEq] at hc'
      subst hc' hl
      rw [hrec]
      exact ⟨rfl, hpos, hlt, by simp⟩
    · rw [if_neg hl] at hc'
      obtain ⟨hrec', hpos', hlt', hnew'⟩ := h.writes_ok l' call' hc'
      refine ⟨hrec', hpos', hlt', fun hs => ⟨?_, (hnew' hs).2⟩⟩
      show l' ≠ (n.engine.memtables.insert rec).active.val.maxLsn
      have := (hnew' hs).1
      omega

/-- **A freeze** closes the active memtable under a watermark of its own. -/
theorem freeze (hne : n.engine.memtables.active.val.isEmpty = false) :
    Marked
      { n with
        engine := { n.engine with
          memtables := { n.engine.memtables with
            active := { ptr := n.engine.memtables.active.ptr + 1, val := Memtable.new }
            frozen := n.engine.memtables.frozen ++ [n.engine.memtables.active] } }
        flushes := n.flushes.insert n.engine.memtables.active.ptr
          { memtable := n.engine.memtables.active, stage := .frozen }
        trail := { n.trail with
          closed := n.trail.closed ++ [n.engine.memtables.active] } } := by
  have hmem : ∀ m, m ∈ n.trail.closed ++ [n.engine.memtables.active] →
      m ∈ n.trail.closed ∨ m = n.engine.memtables.active := by simp
  have hactive := h.active_ne hne
  refine ⟨h.next_le, Nat.zero_lt_of_lt h.active_lt, fun m hm => ?_, fun m hm m' hm' he => ?_,
    fun m hm m' hm' he => ?_, fun hnew => ?_, fun l call hc => ?_, fun p call hc => ?_⟩
  · show m.ptr < n.engine.memtables.active.ptr + 1 ∧ _
    cases hmem m hm with
    | inl hm => exact ⟨Nat.lt_succ_of_lt (h.closed_lt m hm).1, (h.closed_lt m hm).2⟩
    | inr hm =>
        subst hm
        exact ⟨Nat.lt_succ_self _, h.active_lt⟩
  · have hlt := h.closed_lt
    cases hmem m hm with
    | inl hm =>
        cases hmem m' hm' with
        | inl hm' => exact h.closed_ptr m hm m' hm' he
        | inr hm' => exact absurd (hm' ▸ he) (Nat.ne_of_lt (hlt m hm).1)
    | inr hm =>
        cases hmem m' hm' with
        | inl hm' => exact absurd (hm ▸ he.symm) (Nat.ne_of_lt (hlt m' hm').1)
        | inr hm' => exact hm.trans hm'.symm
  · cases hmem m hm with
    | inl hm =>
        cases hmem m' hm' with
        | inl hm' => exact h.closed_lsn m hm m' hm' he
        | inr hm' => exact absurd (hm' ▸ he) (hactive m hm)
    | inr hm =>
        cases hmem m' hm' with
        | inl hm' => exact absurd (hm ▸ he.symm) (hactive m' hm')
        | inr hm' => exact hm.trans hm'.symm
  · have : Memtable.new.isEmpty = true := by simp [Memtable.isEmpty, Memtable.new]
    exact absurd (this.symm.trans hnew) (by decide)
  · obtain ⟨hrec, hpos, hlt, hnew⟩ := h.writes_ok l call hc
    refine ⟨hrec, hpos, hlt, fun hs => ⟨Nat.ne_of_gt hpos, fun m hm => ?_⟩⟩
    cases hmem m hm with
    | inl hm => exact (hnew hs).2 m hm
    | inr hm => exact hm ▸ (hnew hs).1.symm
  · rw [OrdMap.getElem?_insert] at hc
    by_cases hp : n.engine.memtables.active.ptr = p
    · rw [if_pos hp, Option.some.injEq] at hc
      subst hc hp
      exact ⟨by simp, rfl, by simp [FlushCall.Marked, FlushStage.staging?]⟩
    · rw [if_neg hp] at hc
      obtain ⟨hclosed, hrest⟩ := h.flushes_ok p call hc
      exact ⟨List.mem_append_left _ hclosed, hrest⟩

theorem moveFlush {p : Nat} {call : FlushCall} (hc : n.flushes[p]? = some call)
    (stage : FlushStage) (hs : FlushCall.Marked { call with stage }) :
    (n.moveFlush call stage).Marked := by
  refine { h with flushes_ok := fun q call' hc' => ?_ }
  rw [Node.moveFlush, OrdMap.getElem?_insert] at hc'
  by_cases hq : call.memtable.ptr = q
  · rw [if_pos hq, Option.some.injEq] at hc'
    subst hc'
    exact ⟨(h.flushes_ok p call hc).1, hq, hs⟩
  · rw [if_neg hq] at hc'
    exact h.flushes_ok q call' hc'

theorem endFlush (call : FlushCall) : (n.endFlush call).Marked := by
  refine { h with flushes_ok := fun q call' hc' => ?_ }
  rw [Node.endFlush, OrdMap.getElem?_erase] at hc'
  by_cases hq : call.memtable.ptr = q
  · rw [if_pos hq] at hc'
    contradiction
  · rw [if_neg hq] at hc'
    exact h.flushes_ok q call' hc'

/-- A stage that works under the watermark of the one before. -/
theorem stays {p : Nat} {call : FlushCall} (hc : n.flushes[p]? = some call) {stage : FlushStage}
    (hw : stage.staging? = call.stage.staging?) (hs : ∀ w bs, stage ≠ .staged w bs) :
    FlushCall.Marked { call with stage } := by
  obtain ⟨-, -, hmark, -⟩ := h.flushes_ok p call hc
  exact ⟨fun w he => hmark w (hw ▸ he), fun w bs he => absurd he (hs w bs)⟩

/-- **Step**: with any number of writers and flushes. -/
theorem step (hs : n.step db a = some n') : n'.Marked := by
  cases move_of_step hs with
  | alloc m hlt => exact h.alloc m hlt
  | log hc => exact { h.moveWrite hc (by simp) .logged with }
  | insert hc => exact h.insert hc
  | ack hc =>
      refine { h with writes_ok := fun l call hc' => ?_ }
      rw [OrdMap.getElem?_erase] at hc'
      split at hc'
      · contradiction
      · exact h.writes_ok l call hc'
  | freeze hroom hne => exact h.freeze hne
  | readWatermark hc => exact h.moveFlush hc (.read _) (h.stays hc rfl nofun)
  | planCovered hc => exact h.moveFlush hc (.covered _ _) ⟨nofun, nofun⟩
  | planWrite hc =>
      exact h.moveFlush hc (.planned _) ⟨fun w hw => (Option.some.inj hw).symm, nofun⟩
  | stage hc =>
      obtain ⟨-, -, hmark, -⟩ := h.flushes_ok _ _ hc
      refine h.moveFlush hc (.staged _ _) ⟨hmark, fun w bs he => ?_⟩
      rw [FlushStage.staged.injEq] at he
      exact he.2.symm
  | publish hc => exact { h.moveFlush hc (.published _ _) (h.stays hc rfl nofun) with }
  | query hc => exact { h.moveFlush hc (.queried _ _ _) (h.stays hc rfl nofun) with }
  | install hc => exact { h.moveFlush hc (.covered _ _) (h.stays hc rfl nofun) with }
  | truncate hc => exact { h.moveFlush hc (.truncated _ _)
      (h.stays hc (FlushStage.staging?_truncated _ _) nofun) with }
  | planEmpty hc | retire hc | fail hc | failTruncate hc => exact { h.endFlush _ with }
  | _ => exact { h with }

end Marked

/-- The process `open` brings up. -/
theorem Issued.marked {db : DuckDb} {ledger : Ledger Record.lsn} {n : Node}
    (h : n.Issued db ledger) (hpos : 0 < n.engine.nextLsn) (hclosed : n.trail.closed = [])
    (hwrites : n.writes = ∅) (hflushes : n.flushes = ∅) : n.Marked := by
  have hactive : n.engine.memtables.active.val.maxLsn < n.engine.nextLsn := by
    cases n.engine.memtables.active.val.attained with
    | inl hempty => rw [hempty.2]; exact hpos
    | inr hsome =>
        obtain ⟨k, e, hk, he⟩ := hsome
        obtain ⟨r, hr, -, rfl⟩ := h.active k e hk
        rw [← he, ← h.next]
        exact ledger.lt_next r hr
  refine ⟨h.next ▸ h.next_le, hactive, ?_, ?_, ?_, ?_, ?_, ?_⟩ <;>
    simp [hclosed, hwrites, hflushes]

end Node

end HolyGrail
