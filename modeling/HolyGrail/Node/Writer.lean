import HolyGrail.Node.Durable
import HolyGrail.Wal.Refinement

/-!
# HolyGrail.Node.Writer

One writer uses the log as the log's own histories do.

Seen from the log, a process with one writer is a session that appends records
with consecutive LSNs (`LogSys`), so the names of its segments never collide:
`SoleLog` carries the log's invariant along, and no append of such a run
reopens a segment file that has records (`SoleLog.rotateFresh`).
-/

namespace HolyGrail

open Std (ExtTreeMap)

namespace Node

variable {db : DuckDb} {n n' : Node} {a : Act}

/-- The next LSN to reach the log: that of the write which is about to append,
or else the next one to be given out. -/
def NextToLog (writes : ExtTreeMap Nat WriteCall) (nextLsn next : Nat) : Prop :=
  (next = nextLsn ∧
    ∀ (l : Nat) (call : WriteCall), writes[l]? = some call → call.stage ≠ .allocated) ∨
  ∃ rec : Record, writes[next]? = some ⟨rec, .allocated⟩

/-- The log as its own history sees it. -/
def SoleLog (n : Node) : Prop :=
  ∃ next kept floor, floor ≤ publishedWatermark n.store.lake ∧
    NextToLog n.writes n.engine.nextLsn next ∧
    LogSys.Inv ⟨n.store.dir, some (n.engine.wal, next), kept, floor⟩

theorem NextToLog.eq {next l : Nat} (h : NextToLog n.writes n.engine.nextLsn next)
    (hsole : n.Sole) {rec : Record}
    (hc : n.writes[l]? = some ⟨rec, .allocated⟩) : l = next := by
  rcases h with ⟨-, hnone⟩ | ⟨rec', hc'⟩
  · exact absurd rfl (hnone l _ hc)
  · have := hsole l _ hc
    have := hsole next _ hc'
    omega

/-- A write that is past its append moves on. -/
theorem NextToLog.move {writes writes' : ExtTreeMap Nat WriteCall} {nextLsn next : Nat}
    (h : NextToLog writes nextLsn next)
    (hfrom : ∀ (l : Nat) (call : WriteCall), writes'[l]? = some call → call.stage = .allocated →
      writes[l]? = some call)
    (hto : ∀ (l : Nat) (rec : Record), writes[l]? = some (WriteCall.mk rec .allocated) →
      writes'[l]? = some (WriteCall.mk rec .allocated)) :
    NextToLog writes' nextLsn next := by
  rcases h with ⟨he, hnone⟩ | ⟨rec, hc⟩
  · exact .inl ⟨he, fun l call hl hst => hnone l call (hfrom l call hl hst) hst⟩
  · exact .inr ⟨rec, hto next rec hc⟩

namespace SoleLog

theorem nameFree (h : n.SoleLog) (hsole : n.Sole) (hsh : n.Shape db) {l : Nat} {rec : Record}
    (hc : n.writes[l]? = some ⟨rec, .allocated⟩) : n.NameFree l := by
  obtain ⟨next, kept, floor, -, hnext, log, hsound, hlive⟩ := h
  obtain rfl := hnext.eq hsole hc
  have hlt : l < 2 ^ 64 := by
    have h1 := (hsh.writes_ok l _ hc).2.2
    have h2 := hsh.next_le
    rw [lsnLimit] at h2
    omega
  exact .inr (hlive.tracks.empty_of_free hlt (LogSys.free_next hsound hlive))

theorem rotateFresh (h : n.SoleLog) (hsole : n.Sole) (hsh : n.Shape db)
    (hs : n.step db a = some n') : n.RotateFresh a := by
  cases move_of_step hs with
  | log hc => exact h.nameFree hsole hsh hc
  | _ => trivial

theorem append {l : Nat} {rec : Record} (h : n.SoleLog) (hsole : n.Sole) (hsh : n.Shape db)
    (hfit : Fits rec) (hc : n.writes[l]? = some ⟨rec, .allocated⟩) :
    SoleLog (moveWrite
      { n with
        store := { n.store with dir := (n.engine.wal.append n.store.dir [rec]).1 }
        engine := { n.engine with wal := (n.engine.wal.append n.store.dir [rec]).2 } }
      ⟨rec, .allocated⟩ .logged) := by
  obtain ⟨next, kept, floor, hfloor, hnext, hinv⟩ := h
  obtain rfl := hnext.eq hsole hc
  obtain ⟨rfl, -⟩ := hsh.writes_ok l _ hc
  refine ⟨rec.lsn + 1, kept ++ [rec], floor, hfloor, .inl ⟨?_, fun l call hl => ?_⟩, ?_⟩
  · exact hsole _ _ hc
  · rw [moveWrite, OrdMap.getElem?_insert] at hl
    split at hl
    · rw [← Option.some.inj hl]
      simp
    · next hne =>
        have h1 := hsole _ _ hc
        have h2 := hsole l call hl
        omega
  · refine LogSys.inv_step _ (.append [rec]) _ hinv ⟨by simp, by simpa using hfit, ?_⟩ rfl
    rintro p hp
    cases hp
    rfl

/-- **One writer keeps the log in order.** -/
theorem step (h : n.SoleLog) (hsole : n.Sole) (hsec : n.Secure db) (hg : n.OneWriter a)
    (hs : n.step db a = some n') : n'.SoleLog := by
  have hsh := hsec.shape
  cases move_of_step hs with
  | alloc m hlt =>
      obtain ⟨next, kept, floor, hfloor, hnext, hinv⟩ := h
      have hempty : n.writes = ∅ := ExtTreeMap.isEmpty_iff.mp hg
      rcases hnext with ⟨rfl, -⟩ | ⟨rec, hc⟩
      · exact ⟨_, kept, floor, hfloor, .inr ⟨_, ExtTreeMap.getElem?_insert_self⟩, hinv⟩
      · simp [hempty] at hc
  | log hc =>
      obtain ⟨log, hlog⟩ := hsec.logged
      exact h.append hsole hsh (hlog.fits _ _ hc) hc
  | @insert l rec hc =>
      obtain ⟨next, kept, floor, hfloor, hnext, hinv⟩ := h
      obtain ⟨rfl, -⟩ := hsh.writes_ok l _ hc
      refine ⟨next, kept, floor, hfloor,
        hnext.move (fun l call hl hst => ?_) fun l r hl => ?_, hinv⟩
      · rw [moveWrite, OrdMap.getElem?_insert] at hl
        split at hl
        · rw [← Option.some.inj hl] at hst
          contradiction
        · exact hl
      · rw [moveWrite, OrdMap.getElem?_insert_ne]
        · exact hl
        · rintro rfl
          rw [hc] at hl
          cases Option.some.inj hl
  | @ack l rec hc =>
      obtain ⟨next, kept, floor, hfloor, hnext, hinv⟩ := h
      obtain ⟨rfl, -⟩ := hsh.writes_ok l _ hc
      refine ⟨next, kept, floor, hfloor,
        hnext.move (fun l call hl hst => ?_) fun l r hl => ?_, hinv⟩
      · rw [OrdMap.getElem?_erase] at hl
        split at hl
        · contradiction
        · exact hl
      · rw [OrdMap.getElem?_erase, if_neg]
        · exact hl
        · rintro rfl
          rw [hc] at hl
          cases Option.some.inj hl
  | publish hc =>
      obtain ⟨next, kept, floor, hfloor, hnext, hinv⟩ := h
      obtain ⟨hm, -, -, rfl⟩ := hsh.frozen_of_call hc
      obtain ⟨hne, hfit, -⟩ := hsh.order.closed_ok _ (hsh.order.mem_closed hm)
      refine ⟨next, kept, floor, Nat.le_trans hfloor
        (publishedWatermark_mono (fun _ hf => hsh.order.files.stamped hf) ?_), hnext, hinv⟩
      exact (hsh.order.files.append hne hfit).stamped (List.mem_append_right _ List.mem_cons_self)
  | @truncate p w mt result file dir wal hc hw ht =>
      obtain ⟨next, kept, floor, hfloor, hnext, hinv⟩ := h
      refine ⟨next, kept, max floor w, Nat.max_le.mpr ⟨hfloor, hsh.truncated_le hc hw⟩, hnext, ?_⟩
      refine LogSys.inv_step _ (.truncateThrough w) _ hinv trivial ?_
      simp only [LogSys.step, ht]
      rfl
  | @failTruncate p w i mt result file dir hc hw hr =>
      obtain ⟨next, kept, floor, hfloor, hnext, hinv⟩ := h
      exact ⟨next, kept, max floor w, Nat.max_le.mpr ⟨hfloor, hsh.truncated_le hc hw⟩, hnext,
        LogSys.inv_truncate hinv hr⟩
  | _ => exact h

end SoleLog

end Node

end HolyGrail
