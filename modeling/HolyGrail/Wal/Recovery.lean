import HolyGrail.Wal.Tracks

/-!
# HolyGrail.Wal.Recovery

What `Wal::open` returns on a directory a crash left: the segments come back
in the order of their start LSN (`listSegments_eq`), each is cut back to its
whole frames (`recoverSegments_eq`), and the log is open on the newest one
(`open_tracks`).
-/

namespace HolyGrail

open Std (ExtTreeMap)

/-- The segment `list_segments` makes of a log entry. -/
def Segment.listed (item : Nat × List Record) : Segment :=
  { path := segmentName item.1, startLsn := item.1, maxLsn := 0 }

/-- The segment after its file was replayed. -/
def Segment.replayed (item : Nat × List Record) : Segment :=
  { path := segmentName item.1, startLsn := item.1, maxLsn := maxLsnOf item.2 }

theorem nodup_filterMap_segments (names : List FileName) (h : names.Nodup) :
    (names.filterMap fun name => (startLsnOf name).map fun start =>
      ({ path := name, startLsn := start, maxLsn := 0 } : Segment)).Nodup := by
  refine h.filterMap ?_
  intro a b s ha hb
  obtain ⟨m, -, hm⟩ := Option.map_eq_some_iff.mp (Option.mem_def.mp ha)
  obtain ⟨n, -, hn⟩ := Option.map_eq_some_iff.mp (Option.mem_def.mp hb)
  rw [← hn] at hm
  exact (Segment.mk.inj hm).1

/-- Directory order does not matter: the segments come back by start LSN. -/
theorem listSegments_eq {Tail : Bytes → Prop} {dir : Dir} {log : Log}
    (h : Mirrors Tail dir log) : Wal.listSegments dir = log.toList.map Segment.listed := by
  have hord : (log.toList.map Segment.listed).Pairwise fun a b => a.startLsn < b.startLsn := by
    rw [List.pairwise_map]
    exact ExtTreeMap.ordered_keys_toList.imp fun hab => Nat.compare_eq_lt.mp hab
  have hnd : (log.toList.map Segment.listed).Nodup := by
    refine hord.imp ?_
    rintro a b hab rfl
    exact Nat.lt_irrefl _ hab
  have hmem : ∀ s, (s ∈ dir.keys.filterMap fun name => (startLsnOf name).map fun start =>
      ({ path := name, startLsn := start, maxLsn := 0 } : Segment)) ↔
      s ∈ log.toList.map Segment.listed := by
    intro s
    simp only [List.mem_filterMap, List.mem_map, Option.map_eq_some_iff]
    constructor
    · rintro ⟨name, hname, start, hstart, rfl⟩
      obtain ⟨n, hn, rfl⟩ := h.named name (ExtTreeMap.mem_keys.mp hname)
      rw [startLsnOf_segmentName (h.start_lt n hn)] at hstart
      obtain ⟨rs, hrs⟩ := OrdMap.mem_iff_exists.mp hn
      obtain rfl := Option.some.inj hstart
      exact ⟨(n, rs), OrdMap.mem_toList.mpr hrs, rfl⟩
    · rintro ⟨⟨n, rs⟩, hitem, rfl⟩
      have hn := OrdMap.mem_of_getElem? (OrdMap.mem_toList.mp hitem)
      exact ⟨segmentName n, ExtTreeMap.mem_keys.mpr (h.mem_dir hn), n,
        startLsnOf_segmentName (h.start_lt n hn), rfl⟩
  have hperm := (List.perm_insertionSort (fun a b : Segment => a.startLsn ≤ b.startLsn) _).trans
    ((List.perm_ext_iff_of_nodup
      (nodup_filterMap_segments dir.keys ExtTreeMap.nodup_keys) hnd).mpr hmem)
  refine List.Perm.eq_of_pairwise ?_ (List.pairwise_insertionSort _ _)
    (hord.imp fun hab => Nat.le_of_lt hab) hperm
  intro a b ha hb hab hba
  have ha := (hmem a).mp ((List.mem_insertionSort _).mp ha)
  obtain ⟨⟨m, _⟩, -, rfl⟩ := List.mem_map.mp ha
  obtain ⟨⟨n, _⟩, -, rfl⟩ := List.mem_map.mp hb
  have : m = n := Nat.le_antisymm hab hba
  rw [Segment.listed, Segment.listed, this]

/-- Cutting a file back to its whole frames. -/
theorem getElem?_cut {dir : Dir} {path : FileName} {rs : List Record} {tail : Bytes}
    (hd : dir[path]? = some (frames rs ++ tail)) (p : FileName) :
    (if (frames rs).length < (frames rs ++ tail).length then dir.setLen path (frames rs).length
      else dir)[p]? = if path = p then some (frames rs) else dir[p]? := by
  split
  · rw [Dir.setLen, OrdMap.getElem?_modify]
    split
    · next he => rw [← he, hd]; simp
    · rfl
  · next hlen =>
      have ht : tail = [] := by
        rw [List.length_append] at hlen
        exact List.length_eq_zero_iff.mp (by omega)
      split
      · next he => rw [← he, hd, ht, List.append_nil]
      · rfl

/-- The segment loop of `open` over any part of the log's segments: it returns
their records in order, and leaves each of their files cut back to whole
frames and every other file alone. -/
theorem recoverSegments_eq (fromLsn : Nat) {items : List (Nat × List Record)} {dir : Dir}
    (hnd : (items.map Prod.fst).Nodup) (hlt : ∀ item ∈ items, item.1 < 2 ^ 64)
    (hframed : ∀ item ∈ items, ∃ tail, Torn tail ∧
      dir[segmentName item.1]? = some (frames item.2 ++ tail))
    (hfits : ∀ item ∈ items, ∀ r ∈ item.2, Fits r) :
    ∃ dir', Wal.recoverSegments fromLsn (items.map Segment.listed) dir =
        .ok (dir', items.map Segment.replayed,
          { records := (items.flatMap Prod.snd).filter fun r => fromLsn < r.lsn
            maxLsn := maxLsnOf (items.flatMap Prod.snd) }) ∧
      (∀ item ∈ items, dir'[segmentName item.1]? = some (frames item.2)) ∧
      ∀ p, (∀ item ∈ items, segmentName item.1 ≠ p) → dir'[p]? = dir[p]? := by
  induction items generalizing dir with
  | nil => exact ⟨dir, rfl, by simp, fun _ _ => rfl⟩
  | cons item items ih =>
      obtain ⟨n, rs⟩ := item
      obtain ⟨tail, htorn, hd⟩ := hframed (n, rs) List.mem_cons_self
      have hcut := getElem?_cut hd
      rw [List.map_cons, List.nodup_cons] at hnd
      have hnlt := hlt (n, rs) List.mem_cons_self
      have hother : ∀ item ∈ items, segmentName n ≠ segmentName item.1 := by
        intro item hitem he
        rw [segmentName_inj hnlt (hlt item (List.mem_cons_of_mem _ hitem))] at he
        exact hnd.1 (List.mem_map.mpr ⟨item, hitem, he.symm⟩)
      generalize hdir₁ : (if (frames rs).length < (frames rs ++ tail).length then
        dir.setLen (segmentName n) (frames rs).length else dir) = dir₁ at hcut
      have hframed₁ : ∀ item ∈ items, ∃ tail, Torn tail ∧
          dir₁[segmentName item.1]? = some (frames item.2 ++ tail) := by
        intro item hi
        rw [hcut, if_neg (hother item hi)]
        exact hframed item (List.mem_cons_of_mem _ hi)
      obtain ⟨dir', hrec, hin, hout⟩ := ih hnd.2
        (fun item hi => hlt item (List.mem_cons_of_mem _ hi)) hframed₁
        (fun item hi => hfits item (List.mem_cons_of_mem _ hi))
      refine ⟨dir', ?_, ?_, ?_⟩
      · have hreplay := replayFrom_frames (hfits (n, rs) List.mem_cons_self) htorn (segmentName n) 0
        rw [Nat.zero_add] at hreplay
        simp only [List.map_cons, Segment.listed, Wal.recoverSegments, Wal.replaySegment, hd,
          hreplay, hdir₁] at hrec ⊢
        rw [hrec]
        simp [Segment.replayed, maxLsnOf_append]
      · intro item hitem
        cases hitem with
        | head =>
            rw [hout _ fun item hi => (hother item hi).symm, hcut, if_pos rfl]
        | tail _ hi => exact hin item hi
      · intro p hp
        have hne := hp (n, rs) List.mem_cons_self
        rw [hout p fun item hi => hp item (List.mem_cons_of_mem _ hi), hcut, if_neg hne]

/-- The loop over the first `i` segments: the directory an interrupted `open`
leaves. -/
theorem recoverSegments_take {dir : Dir} {log : Log} (h : Mirrors Torn dir log) (fromLsn i : Nat) :
    ∃ dir', Wal.recoverSegments fromLsn ((Wal.listSegments dir).take i) dir =
        .ok (dir', (log.toList.take i).map Segment.replayed,
          { records := ((log.toList.take i).flatMap Prod.snd).filter fun r => fromLsn < r.lsn
            maxLsn := maxLsnOf ((log.toList.take i).flatMap Prod.snd) }) ∧
      Mirrors Torn dir' log ∧
      ∀ item ∈ log.toList.take i, dir'[segmentName item.1]? = some (frames item.2) := by
  have hget : ∀ item ∈ log.toList.take i, log[item.1]? = some item.2 :=
    fun item hi => OrdMap.mem_toList.mp (List.mem_of_mem_take hi)
  have hlt : ∀ item ∈ log.toList.take i, item.1 < 2 ^ 64 :=
    fun item hi => h.start_lt _ (OrdMap.mem_of_getElem? (hget item hi))
  obtain ⟨dir', hrec, hin, hout⟩ := recoverSegments_eq fromLsn
    ((OrdMap.nodup_toList log).sublist ((List.take_sublist i _).map _)) hlt
    (fun item hi => h.framed item.1 item.2 (hget item hi))
    (fun item hi => h.fits item.1 item.2 (hget item hi))
  rw [listSegments_eq h, ← List.map_take]
  refine ⟨dir', hrec, ⟨h.start_lt, fun p hp => ?_, fun n rs hn => ?_, h.fits⟩, hin⟩
  · by_cases hi : ∃ item ∈ log.toList.take i, segmentName item.1 = p
    · obtain ⟨item, hitem, he⟩ := hi
      exact ⟨item.1, OrdMap.mem_of_getElem? (hget item hitem), he.symm⟩
    · refine h.named p ?_
      obtain ⟨v, hv⟩ := OrdMap.mem_iff_exists.mp hp
      rw [hout p fun item hi' he => hi ⟨item, hi', he⟩] at hv
      exact OrdMap.mem_of_getElem? hv
  · by_cases hi : (n, rs) ∈ log.toList.take i
    · exact ⟨[], torn_nil, by rw [List.append_nil]; exact hin _ hi⟩
    · rw [hout _ ?_]
      · exact h.framed n rs hn
      · intro item hitem he
        have hm := h.start_lt n (OrdMap.mem_of_getElem? hn)
        rw [segmentName_inj (hlt item hitem) hm] at he
        have hrs := hget item hitem
        rw [he, hn] at hrs
        obtain ⟨m, ss⟩ := item
        obtain rfl := he
        obtain rfl := Option.some.inj hrs
        exact hi hitem

/-- The whole loop leaves a clean directory. -/
theorem recoverSegments_clean {dir : Dir} {log : Log} (h : Mirrors Torn dir log) (fromLsn : Nat) :
    ∃ dir', Wal.recoverSegments fromLsn (Wal.listSegments dir) dir =
        .ok (dir', log.toList.map Segment.replayed,
          { records := log.flat.filter fun r => fromLsn < r.lsn
            maxLsn := maxLsnOf log.flat }) ∧
      Mirrors Clean dir' log := by
  obtain ⟨dir', hrec, hmir, hin⟩ := recoverSegments_take h fromLsn log.toList.length
  rw [List.take_length] at hrec hin
  rw [List.take_of_length_le (by rw [listSegments_eq h, List.length_map])] at hrec
  refine ⟨dir', hrec, hmir.start_lt, hmir.named, fun n rs hn => ?_, hmir.fits⟩
  exact ⟨[], clean_nil, by rw [List.append_nil]; exact hin (n, rs) (OrdMap.mem_toList.mpr hn)⟩

/-- The log after `open`: a fresh one gets its first, empty segment. -/
def Log.opened (log : Log) : Log := if log.toList = [] then log.insert 0 [] else log

theorem eq_empty_of_toList {log : Log} (h : log.toList = []) : log = ∅ := by
  refine OrdMap.eq_empty_of_forall_not_mem fun n hn => ?_
  obtain ⟨rs, hrs⟩ := OrdMap.mem_iff_exists.mp hn
  rw [← OrdMap.mem_toList, h] at hrs
  exact List.not_mem_nil hrs

theorem Log.holds_opened {log : Log} {r : Record} : log.opened.Holds r ↔ log.Holds r := by
  rw [Log.opened]
  split
  · next h =>
      rw [eq_empty_of_toList h]
      constructor
      · rintro ⟨n, rs, hn, hr⟩
        rw [OrdMap.getElem?_insert] at hn
        split at hn
        · rw [← Option.some.inj hn] at hr
          exact absurd hr List.not_mem_nil
        · simp at hn
      · rintro ⟨n, rs, hn, -⟩
        simp at hn
  · rfl

/-- `open` on a directory with no segment starts the first one. -/
theorem open_tracks_nil {dir : Dir} {log : Log} (h : Mirrors Clean dir log)
    (hnil : log.toList = []) (segmentMaxBytes : Nat) :
    Tracks (dir.create (segmentName 0))
      { segmentMaxBytes, active := ⟨segmentName 0, 0, 0⟩, activeBytes := 0, sealed := [] }
      (log.insert 0 []) where
  mirrors := by
    refine h.create clean_nil (by decide) (.inl ?_)
    rw [eq_empty_of_toList hnil]
    exact ExtTreeMap.not_mem_empty
  active_path := rfl
  active_mem := ⟨[], ExtTreeMap.getElem?_insert_self, rfl, rfl⟩
  sealed_mem s hs := absurd hs List.not_mem_nil
  sealed_nodup := List.nodup_nil

/-- `open` on a directory with segments reuses the newest one. -/
theorem open_tracks_last {dir : Dir} {log : Log} (h : Mirrors Clean dir log)
    {items : List (Nat × List Record)} {last : Nat × List Record}
    (hlist : log.toList = items ++ [last]) (segmentMaxBytes : Nat) :
    Tracks (dir.create (Segment.replayed last).path)
      { segmentMaxBytes
        active := Segment.replayed last
        activeBytes := (dir[(Segment.replayed last).path]?.getD []).length
        sealed := items.map Segment.replayed } log := by
  have hget : ∀ item ∈ items ++ [last], log[item.1]? = some item.2 := fun item hi =>
    OrdMap.mem_toList.mp (hlist ▸ hi)
  have hlast := hget last (by simp)
  have hnd := OrdMap.nodup_toList log
  rw [hlist, List.map_append, List.nodup_append] at hnd
  obtain ⟨tail, ht, hd⟩ := h.framed _ _ hlast
  rw [ht, List.append_nil] at hd
  have hsame : dir.create (Segment.replayed last).path = dir := by
    rw [Dir.create, Segment.replayed, if_pos (h.mem_dir (OrdMap.mem_of_getElem? hlast))]
  rw [hsame]
  refine ⟨h, rfl, ⟨last.2, hlast, rfl, ?_⟩, fun s hs _ => ?_, ?_⟩
  · simp only [Segment.replayed, hd, Option.getD_some]
  · obtain ⟨item, hitem, rfl⟩ := List.mem_map.mp hs
    refine ⟨?_, rfl, item.2, hget item (by simp [hitem]), rfl⟩
    exact hnd.2.2 item.1 (List.mem_map_of_mem hitem) last.1 (by simp)
  · refine List.Nodup.sublist (List.Sublist.map _ List.filter_sublist) ?_
    rw [List.map_map]
    exact hnd.1

/-- **Recovery.**  On whatever a crash left, `open` succeeds, returns the
records above the watermark in segment order, and the log is tracked again
with its newest segment active. -/
theorem open_tracks {dir : Dir} {log : Log} (h : Mirrors Torn dir log)
    (segmentMaxBytes fromLsn : Nat) :
    ∃ dir' wal, Wal.open dir segmentMaxBytes fromLsn = .ok (dir', wal,
        { records := log.flat.filter fun r => fromLsn < r.lsn, maxLsn := maxLsnOf log.flat }) ∧
      Tracks dir' wal log.opened ∧ ∀ n ∈ log, n ≤ wal.active.startLsn := by
  obtain ⟨dir', hrec, hmir⟩ := recoverSegments_clean h fromLsn
  rw [Wal.open, hrec]
  rcases List.eq_nil_or_concat log.toList with hnil | ⟨items, last, hlist⟩
  · refine ⟨_, _, rfl, ?_, fun n hn => ?_⟩
    · simp only [hnil, List.map_nil, List.getLast?_nil]
      rw [Log.opened, if_pos hnil]
      exact open_tracks_nil hmir hnil segmentMaxBytes
    · rw [eq_empty_of_toList hnil] at hn
      exact absurd hn ExtTreeMap.not_mem_empty
  · rw [List.concat_eq_append] at hlist
    have hlast : (log.toList.map Segment.replayed).getLast? = some (Segment.replayed last) := by
      rw [hlist]
      simp
    have hinit : (log.toList.map Segment.replayed).dropLast = items.map Segment.replayed := by
      rw [hlist]
      simp
    refine ⟨_, _, rfl, ?_, fun n hn => ?_⟩
    · simp only [hlast, hinit]
      rw [Log.opened, if_neg (by rw [hlist]; simp)]
      exact open_tracks_last hmir hlist segmentMaxBytes
    · simp only [hlast]
      obtain ⟨rs, hrs⟩ := OrdMap.mem_iff_exists.mp hn
      have hord : log.toList.Pairwise fun x y => compare x.1 y.1 = .lt :=
        ExtTreeMap.ordered_keys_toList
      rw [← OrdMap.mem_toList, hlist, List.mem_append, List.mem_singleton] at hrs
      rw [hlist, List.pairwise_append] at hord
      cases hrs with
      | inl hmem => exact Nat.le_of_lt (Nat.compare_eq_lt.mp (hord.2.2 _ hmem last (by simp)))
      | inr he => exact Nat.le_of_eq (congrArg Prod.fst he)

end HolyGrail
