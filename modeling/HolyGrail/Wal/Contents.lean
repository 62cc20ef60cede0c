import HolyGrail.Wal.Reopen

/-!
# HolyGrail.Wal.Contents

What the log directory can contain, whatever the bookkeeping of the open log
says.  A rotation may reopen a file that is there, and a truncation may delete
the file that is being written; even so the files are whole frames, an append
adds no record but its own, and a truncation adds none.
-/

namespace HolyGrail

open Std (ExtTreeMap)

/-- The records of one log are records of another. -/
def Log.Sub (log log' : Log) : Prop := ∀ r, log.Holds r → log'.Holds r

namespace Mirrors

variable {Tail : Bytes → Prop} {dir dir' : Dir} {log : Log} {n : Nat}

/-- Opening a file for appending, whether it is there or not. -/
theorem reopen (h : Mirrors Tail dir log) (h0 : Tail []) (hlt : n < 2 ^ 64) :
    ∃ log', n ∈ log' ∧ (∀ r, log'.Holds r ↔ log.Holds r) ∧
      Mirrors Tail (dir.create (segmentName n)) log' := by
  by_cases hn : n ∈ log
  · refine ⟨log, hn, fun _ => .rfl, ?_⟩
    rw [Dir.create, if_pos (h.mem_dir hn)]
    exact h
  · have hnone : log[n]? = none := OrdMap.getElem?_eq_none_iff.mpr hn
    have hins : log.insert n [] = log.extend n [] := by rw [Log.extend, hnone]; rfl
    refine ⟨log.extend n [], ?_, fun r => ?_, ?_⟩
    · exact (OrdMap.mem_insert _).mpr (.inl rfl)
    · rw [Log.holds_extend]
      simp
    · rw [← hins]
      exact h.create h0 hlt (.inl hn)

/-- Whole frames and a tail, written to a file that may have been deleted. -/
theorem write (h : Mirrors Clean dir log) (hlt : n < 2 ^ 64) {ss : List Record}
    (hfit : ∀ r ∈ ss, Fits r) {tail : Bytes} (ht : Tail tail) (h0 : Tail []) :
    ∃ log', (∀ r, log'.Holds r → log.Holds r ∨ r ∈ ss) ∧
      Mirrors Tail (dir.append (segmentName n) (frames ss ++ tail)) log' := by
  by_cases hn : n ∈ log
  · obtain ⟨rs, hrs⟩ := OrdMap.mem_iff_exists.mp hn
    refine ⟨log.extend n ss, fun r hr => Log.holds_extend.mp hr, ?_⟩
    rw [Log.extend, hrs]
    exact h.append hrs hfit ht h0
  · have hsame : dir.append (segmentName n) (frames ss ++ tail) = dir := by
      refine ExtTreeMap.ext_getElem? fun p => ?_
      rw [Dir.append, OrdMap.getElem?_modify]
      split
      · next he =>
          rw [← he, OrdMap.getElem?_eq_none_iff.mpr (h.not_mem_dir hlt hn)]
          rfl
      · rfl
    rw [hsame]
    exact ⟨log, fun r hr => .inl hr, h.weaken h0⟩

theorem removeAll (h : Mirrors Tail dir log) {segs : List Segment}
    (hr : Wal.removeAll segs dir = .ok dir') : ∃ log', log'.Sub log ∧ Mirrors Tail dir' log' := by
  induction segs generalizing dir log with
  | nil =>
      rw [← Except.ok.inj hr]
      exact ⟨log, fun _ hr => hr, h⟩
  | cons seg segs ih =>
      rw [Wal.removeAll] at hr
      cases hrem : dir.remove seg.path with
      | error e => simp [hrem] at hr
      | ok dir₁ =>
          rw [hrem] at hr
          have hmem : seg.path ∈ dir := by
            rw [Dir.remove] at hrem
            split at hrem
            · assumption
            · contradiction
          obtain ⟨n, hn, hpath⟩ := h.named _ hmem
          obtain ⟨dir₂, hrem₂, h₂⟩ := h.remove hn
          rw [← hpath, hrem, Except.ok.injEq] at hrem₂
          subst hrem₂
          obtain ⟨log', hsub, h'⟩ := ih h₂ hr
          refine ⟨log', fun r hr => ?_, h'⟩
          obtain ⟨m, rs, hm, hr⟩ := hsub r hr
          rw [OrdMap.getElem?_erase] at hm
          split at hm
          · contradiction
          · exact ⟨m, rs, hm, hr⟩

end Mirrors

/-! ## the calls of an open log -/

namespace Wal

/-- The active segment has a segment's name. -/
def Named (wal : Wal) : Prop := ∃ a < 2 ^ 64, wal.active.path = segmentName a

variable {dir dir' : Dir} {wal : Wal} {log : Log}

theorem makeRoom_mirrors (h : Mirrors Clean dir log) (hwal : wal.Named) {l : Nat}
    (hlt : l < 2 ^ 64) :
    ∃ log', (∀ r, log'.Holds r ↔ log.Holds r) ∧ Mirrors Clean (wal.makeRoom dir l).1 log' ∧
      (wal.makeRoom dir l).2.Named := by
  rw [makeRoom]
  split
  · obtain ⟨log', -, hsame, h'⟩ := h.reopen clean_nil hlt
    exact ⟨log', hsame, h', l, hlt, rfl⟩
  · exact ⟨log, fun _ => .rfl, h, hwal⟩

theorem append_mirrors (h : Mirrors Clean dir log) (hwal : wal.Named) {batch : List Record}
    (hfit : ∀ r ∈ batch, Fits r) :
    ∃ log', (∀ r, log'.Holds r → log.Holds r ∨ r ∈ batch) ∧
      Mirrors Clean (wal.append dir batch).1 log' ∧ (wal.append dir batch).2.Named := by
  cases batch with
  | nil => exact ⟨log, fun _ hr => .inl hr, h, hwal⟩
  | cons first rest =>
      obtain ⟨log₁, hsame, h₁, a, ha, hpath⟩ :=
        makeRoom_mirrors h hwal (hfit first List.mem_cons_self).lsn_lt
      rw [append]
      generalize wal.makeRoom dir first.lsn = room at h₁ hpath
      obtain ⟨dir₁, wal₁⟩ := room
      obtain ⟨log', hsub, h'⟩ := h₁.write ha hfit clean_nil clean_nil
      rw [List.append_nil] at h'
      dsimp only at hpath ⊢
      rw [hpath]
      exact ⟨log', fun r hr => (hsub r hr).imp_left (hsame r).mp, h', a, ha, rfl⟩

theorem appendTorn_mirrors (h : Mirrors Clean dir log) (hwal : wal.Named) {batch : List Record}
    (hfit : ∀ r ∈ batch, Fits r) (n : Nat) :
    ∃ log', (∀ r, log'.Holds r → log.Holds r ∨ r ∈ batch) ∧
      Mirrors Torn (wal.appendTorn dir batch n) log' := by
  cases batch with
  | nil => exact ⟨log, fun _ hr => .inl hr, h.weaken torn_nil⟩
  | cons first rest =>
      obtain ⟨log₁, hsame, h₁, a, ha, hpath⟩ :=
        makeRoom_mirrors h hwal (hfit first List.mem_cons_self).lsn_lt
      obtain ⟨tail, htake, htorn⟩ := take_frames hfit n
      have hsurv := (prefix_survivors (first :: rest) n).subset
      rw [appendTorn]
      generalize wal.makeRoom dir first.lsn = room at h₁ hpath
      obtain ⟨dir₁, wal₁⟩ := room
      obtain ⟨log', hsub, h'⟩ := h₁.write ha (fun r hr => hfit r (hsurv hr)) htorn torn_nil
      dsimp only at hpath ⊢
      rw [hpath, htake]
      exact ⟨log', fun r hr => (hsub r hr).imp (hsame r).mp fun hr => hsurv hr, h'⟩

end Wal

/-! ## decodable records -/

/-- The record is read back from some file of the directory. -/
def Dir.Decodes (dir : Dir) (r : Record) : Prop :=
  ∃ path out file, dir.ReadsAs path out file ∧ r ∈ out.1

theorem Mirrors.holds_of_decodes {dir : Dir} {log : Log} (h : Mirrors Torn dir log) {r : Record}
    (hr : dir.Decodes r) : log.Holds r := by
  obtain ⟨path, out, file, ⟨buf, hd, hrep, -⟩, hmem⟩ := hr
  obtain ⟨n, hn, rfl⟩ := h.named path (OrdMap.mem_of_getElem? hd)
  obtain ⟨rs, hrs⟩ := OrdMap.mem_iff_exists.mp hn
  obtain ⟨tail, ht, hd'⟩ := h.framed n rs hrs
  rw [hd, Option.some.injEq] at hd'
  subst hd'
  rw [Wal.replaySegment, replayFrom_frames (h.fits n rs hrs) ht, Except.ok.injEq] at hrep
  rw [← hrep] at hmem
  exact ⟨n, rs, hrs, hmem⟩

end HolyGrail
