import HolyGrail.Engine.Live

/-!
# HolyGrail.Engine.Truncation

A truncation of the log that fails halfway.

`truncate_through` takes the covered segments out of its list before it deletes
their files, one by one.  A deletion that fails ends the call, and the segment
it failed on is on disk but in no list: a retry does not find it, and its bytes
are not counted any more, until the log is opened again.  So the bookkeeping is
kept exactly when no covered segment is one whose deletion fails
(`truncateUntil_kept_iff`).
-/

namespace HolyGrail

open Std (ExtTreeMap)

namespace Wal

/-- `truncate_through`, whose `i`-th deletion fails given `some i`. -/
def truncateUntil (dir : Dir) (wal : Wal) (watermark : Nat) (fails : Option Nat) :
    Dir × Wal × Except Error Unit :=
  let (dir, result) := removeUntil fails (wal.covered watermark) dir
  (dir, wal.dropCovered watermark, result)

/-- Bytes held across the live segments, by the bookkeeping and the file sizes. -/
def sizeBytes (dir : Dir) (wal : Wal) : Except Error Nat :=
  wal.sealed.foldlM (fun total seg =>
    match dir[seg.path]? with
    | none => .error .io
    | some contents => .ok (total + contents.length)) wal.activeBytes

end Wal

/-- The bytes of all segment files. -/
def Dir.segmentBytes (dir : Dir) : Nat :=
  ((dir.toList.filter fun f => (startLsnOf f.1).isSome).map fun f => f.2.length).sum

/-- The sealed list and the active segment name the segment files on disk, and a
segment with records only once. -/
structure NamesFiles (dir : Dir) (wal : Wal) : Prop where
  named : ∀ path, (∃ seg ∈ wal.sealed ++ [wal.active], seg.path = path) ↔
    path ∈ dir ∧ (startLsnOf path).isSome
  once : ((wal.sealed.filter fun s => 0 < s.maxLsn).map Segment.path).Nodup

/-- The bookkeeping after a truncation: it names the files, a retry deletes what is
covered, and the size counts all bytes held. -/
structure KeepsBooks (before : Wal) (watermark : Nat) (dir : Dir) (wal : Wal) : Prop where
  names : NamesFiles dir wal
  retry : ∀ w, watermark ≤ w → ∃ dir' wal', wal.truncateThrough dir w = .ok (dir', wal') ∧
    ∀ seg ∈ before.covered w, seg.path ∉ dir'
  size : wal.sizeBytes dir = .ok dir.segmentBytes

/-! ## the deletions -/

namespace Wal

variable {dir : Dir} {wal : Wal} {watermark : Nat}

/-- One deletion that does not fail: the files of the other segments stay. -/
theorem removeUntil_cons {s : Segment} {rest : List Segment} {fails : Option Nat}
    (hfails : fails ≠ some 0) (hs : s.path ∈ dir) :
    removeUntil fails (s :: rest) dir =
      removeUntil (fails.map (· - 1)) rest (dir.erase s.path) := by
  have hremove : dir.remove s.path = .ok (dir.erase s.path) := by
    rw [Dir.remove, if_pos hs]
  cases fails with
  | none => simp [removeUntil, hremove]
  | some i =>
      cases i with
      | zero => contradiction
      | succ i => simp [removeUntil, hremove]

theorem mem_erase_of_nodup {s : Segment} {rest : List Segment}
    (hdir : ∀ s' ∈ s :: rest, s'.path ∈ dir) (hnd : ((s :: rest).map Segment.path).Nodup) :
    ∀ s' ∈ rest, s'.path ∈ dir.erase s.path := by
  rw [List.map_cons, List.nodup_cons] at hnd
  intro s' hs'
  rw [OrdMap.mem_erase]
  refine ⟨?_, hdir s' (List.mem_cons_of_mem s hs')⟩
  intro heq
  exact hnd.1 (List.mem_map.mpr ⟨s', hs', heq.symm⟩)

/-- The segments before the one on which a deletion fails are deleted, and that
one stays. -/
theorem removeUntil_fails {segs : List Segment} {i : Nat} {seg : Segment}
    (hi : segs[i]? = some seg) (hdir : ∀ s ∈ segs, s.path ∈ dir)
    (hnd : (segs.map Segment.path).Nodup) :
    (removeUntil (some i) segs dir).2 = .error .io ∧
      seg.path ∈ (removeUntil (some i) segs dir).1 := by
  induction segs generalizing i dir with
  | nil => simp at hi
  | cons s rest ih =>
      have hs := hdir s List.mem_cons_self
      cases i with
      | zero =>
          simp only [List.getElem?_cons_zero, Option.some.injEq] at hi
          rw [removeUntil, ← hi]
          exact ⟨rfl, hs⟩
      | succ i =>
          rw [List.getElem?_cons_succ] at hi
          rw [removeUntil_cons (by simp) hs]
          exact ih hi (mem_erase_of_nodup hdir hnd) hnd.of_cons

/-- With no failure among the deletions, the call returns. -/
theorem removeUntil_ok {segs : List Segment} {fails : Option Nat}
    (hfails : ∀ i, fails = some i → segs.length ≤ i) (hdir : ∀ s ∈ segs, s.path ∈ dir)
    (hnd : (segs.map Segment.path).Nodup) : (removeUntil fails segs dir).2 = .ok () := by
  induction segs generalizing fails dir with
  | nil => simp [removeUntil]
  | cons s rest ih =>
      have hfirst : fails ≠ some 0 := by
        intro h
        have hle := hfails 0 h
        simp at hle
      have hnext : ∀ i, fails.map (· - 1) = some i → rest.length ≤ i := by
        intro i hi
        obtain ⟨j, hj, rfl⟩ := Option.map_eq_some_iff.mp hi
        have hle := hfails j hj
        rw [List.length_cons] at hle
        omega
      rw [removeUntil_cons hfirst (hdir s List.mem_cons_self)]
      exact ih hnext (mem_erase_of_nodup hdir hnd) hnd.of_cons

/-- A retry with the same watermark finds nothing to delete. -/
theorem truncateThrough_dropCovered (dir : Dir) (wal : Wal) (watermark : Nat) :
    ∃ wal', (wal.dropCovered watermark).truncateThrough dir watermark = .ok (dir, wal') := by
  have hnone : (wal.dropCovered watermark).covered watermark = [] := by
    simp only [covered, dropCovered, List.filter_filter, List.filter_eq_nil_iff]
    intro s _
    simp
    omega
  rw [truncateThrough, hnone]
  exact ⟨_, rfl⟩

end Wal

namespace NamesFiles

variable {dir : Dir} {wal : Wal}

theorem covered_mem_dir (h : NamesFiles dir wal) (watermark : Nat) :
    ∀ s ∈ wal.covered watermark, s.path ∈ dir := by
  intro s hs
  have hmem : s ∈ wal.sealed ++ [wal.active] :=
    List.mem_append_left _ (List.mem_of_mem_filter hs)
  exact ((h.named s.path).mp ⟨s, hmem, rfl⟩).1

theorem covered_nodup (h : NamesFiles dir wal) (watermark : Nat) :
    ((wal.covered watermark).map Segment.path).Nodup := by
  have hsub : wal.covered watermark =
      (wal.sealed.filter fun s => 0 < s.maxLsn).filter fun s => s.maxLsn ≤ watermark := by
    rw [List.filter_filter]
    refine List.filter_congr fun s _ => ?_
    simp
  rw [hsub]
  exact h.once.sublist (List.filter_sublist.map _)

end NamesFiles

/-- **A truncation that fails keeps the bookkeeping** if and only if no covered
segment is one whose deletion fails: whenever the call returns an error, the
segment it failed on is on disk and forgotten. -/
theorem truncateUntil_kept_iff {dir : Dir} {wal : Wal} (h : NamesFiles dir wal) (watermark : Nat)
    (fails : Option Nat) :
    (∀ dir' wal' e, wal.truncateUntil dir watermark fails = (dir', wal', .error e) →
      KeepsBooks wal watermark dir' wal') ↔
      ∀ i, fails = some i → (wal.covered watermark).length ≤ i := by
  have hdir := h.covered_mem_dir watermark
  have hnd := h.covered_nodup watermark
  constructor
  · intro hkeeps i hi
    by_contra hlt
    rw [Nat.not_le] at hlt
    have hseg := List.getElem?_eq_getElem hlt
    obtain ⟨herr, hleft⟩ := Wal.removeUntil_fails hseg hdir hnd
    have hbooks := hkeeps _ _ .io (by rw [Wal.truncateUntil, hi, ← herr])
    obtain ⟨wal'', hretry⟩ := Wal.truncateThrough_dropCovered
      (Wal.removeUntil (some i) (wal.covered watermark) dir).1 wal watermark
    obtain ⟨dir', wal', hsame, hgone⟩ := hbooks.retry watermark (Nat.le_refl _)
    rw [hretry] at hsame
    simp only [Except.ok.injEq, Prod.mk.injEq] at hsame
    exact hgone _ (List.getElem_mem hlt) (hsame.1 ▸ hleft)
  · intro hfails dir' wal' e herr
    have hok := Wal.removeUntil_ok hfails hdir hnd
    rw [Wal.truncateUntil, Prod.mk.injEq, Prod.mk.injEq, hok] at herr
    exact absurd herr.2.2 (by simp)

/-! ## a deletion that fails -/

/-- Two segments with records, one of them sealed. -/
def sealedOne : Wal where
  segmentMaxBytes := 4
  active := { path := segmentName 2, startLsn := 2, maxLsn := 2 }
  activeBytes := 3
  sealed := [{ path := segmentName 1, startLsn := 1, maxLsn := 1 }]

def twoFiles : Dir :=
  ((∅ : Dir).insert (segmentName 1) [7, 7, 7, 7, 7]).insert (segmentName 2) [8, 8, 8]

theorem sealedOne_names : NamesFiles twoFiles sealedOne := by
  have h1 : (startLsnOf (segmentName 1)).isSome := by
    rw [startLsnOf_segmentName (by decide)]
    rfl
  have h2 : (startLsnOf (segmentName 2)).isSome := by
    rw [startLsnOf_segmentName (by decide)]
    rfl
  refine ⟨fun path => ?_, by simp [sealedOne]⟩
  simp only [sealedOne, twoFiles, OrdMap.mem_insert, List.mem_append, List.mem_singleton,
    exists_eq_or_imp, exists_eq_left, ExtTreeMap.not_mem_empty, or_false]
  constructor
  · intro hpath
    cases hpath with
    | inl hpath => exact ⟨.inr hpath, hpath ▸ h1⟩
    | inr hpath => exact ⟨.inl hpath, hpath ▸ h2⟩
  · exact fun hpath => hpath.1.symm

/-- One segment is covered: its deletion goes well, or it fails. -/
theorem truncateUntil_kept_sealedOne :
    (∀ dir' wal' e, sealedOne.truncateUntil twoFiles 1 none = (dir', wal', .error e) →
      KeepsBooks sealedOne 1 dir' wal') ∧
    ¬ ∀ dir' wal' e, sealedOne.truncateUntil twoFiles 1 (some 0) = (dir', wal', .error e) →
      KeepsBooks sealedOne 1 dir' wal' := by
  refine ⟨(truncateUntil_kept_iff sealedOne_names 1 none).mpr (by simp), fun h => ?_⟩
  have hle := (truncateUntil_kept_iff sealedOne_names 1 (some 0)).mp h 0 rfl
  exact absurd hle (by decide)

/-- **A forgotten segment**: the deletion of the covered segment fails, and then
its five bytes are on disk, not counted, and left alone by every retry. -/
theorem truncateUntil_forgets :
    NamesFiles twoFiles sealedOne ∧
      sealedOne.truncateUntil twoFiles 1 (some 0) =
        (twoFiles, { sealedOne with sealed := [] }, .error .io) ∧
      ¬ NamesFiles twoFiles { sealedOne with sealed := [] } ∧
      (∀ w, Wal.truncateThrough twoFiles { sealedOne with sealed := [] } w =
        .ok (twoFiles, { sealedOne with sealed := [] })) ∧
      Wal.sizeBytes twoFiles { sealedOne with sealed := [] } = .ok 3 ∧
      twoFiles.segmentBytes = 8 := by
  refine ⟨sealedOne_names, ?_, fun h => ?_, fun w => rfl, rfl, by decide +kernel⟩
  · simp [Wal.truncateUntil, Wal.covered, Wal.dropCovered, sealedOne, Wal.removeUntil]
  · have hfile := (sealedOne_names.named (segmentName 1)).mp
      ⟨{ path := segmentName 1, startLsn := 1, maxLsn := 1 }, by simp [sealedOne], rfl⟩
    obtain ⟨seg, hseg, hpath⟩ := (h.named (segmentName 1)).mpr hfile
    rw [List.nil_append, List.mem_singleton] at hseg
    rw [hseg, sealedOne, segmentName_inj (by decide) (by decide)] at hpath
    contradiction

end HolyGrail
