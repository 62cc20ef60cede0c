import HolyGrail.Columnar.Merge

/-!
# HolyGrail.Columnar.RowGroups

Row-group pruning in a file of many row groups.

The row-group loop of `get_from_file` commits to the first group that may
contain the key.  Footer statistics may be absent, and bounds may be loose, so a
group that may contain the key need not be the group that has it.  For a file
sorted by unique keys the loop answers like a scan of all groups if and only if
no group that may contain the key stands before the one that has it
(`getFromFile_exact_iff`); a key the file does not have is missing in any case.
-/

namespace HolyGrail

/-- Statistics that are there are bounds, not necessarily tight. -/
def RowGroup.StatsValid (g : RowGroup) : Prop :=
  ∀ lo hi, g.statistics = some (some lo, some hi) → ∀ row ∈ g.rows, within lo hi row.pk

/-- The group has a row of the key. -/
def RowGroup.Has (g : RowGroup) (key : Bytes) : Prop := ∃ row ∈ g.rows, row.pk = key

/-- The file is sorted by unique keys. -/
def DataFile.Sorted (f : DataFile) : Prop :=
  f.rows.Pairwise fun a b => compare a.pk b.pk = .lt

namespace ColumnarReader

variable {g : RowGroup} {groups pre post : List RowGroup} {key : Bytes}

theorem rowGroupMayContain_of_has (hg : g.StatsValid) (hkey : g.Has key) :
    rowGroupMayContain g key = true := by
  obtain ⟨row, hrow, rfl⟩ := hkey
  unfold rowGroupMayContain
  split
  · next lo hi hst => exact hg lo hi hst row hrow
  · rfl

/-! ## the row-group loop -/

/-- Groups that cannot contain the key are skipped. -/
theorem scanRowGroups_skip (h : ∀ g ∈ pre, rowGroupMayContain g key = false) :
    scanRowGroups (pre ++ post) key = scanRowGroups post key := by
  induction pre with
  | nil => rfl
  | cons g pre ih =>
      have hg := h g List.mem_cons_self
      rw [List.cons_append, scanRowGroups, hg, ih fun g' hg' => h g' (List.mem_cons_of_mem g hg')]
      rfl

/-- The first group that may contain the key is final. -/
theorem scanRowGroups_final (h : rowGroupMayContain g key = true) :
    scanRowGroups (g :: post) key = scanRowGroup g key := by
  rw [scanRowGroups, h]
  rfl

theorem scanRowGroup_of_not_has (h : ¬ g.Has key) : scanRowGroup g key = .missing := by
  have hnone : g.rows.find? (fun row => row.pk = key) = none := by
    rw [List.find?_eq_none]
    intro row hrow hk
    exact h ⟨row, hrow, by simpa using hk⟩
  rw [scanRowGroup, hnone]

/-- A key that no group has is missing, whatever the statistics. -/
theorem scanRowGroups_of_not_has (h : ∀ g ∈ groups, ¬ g.Has key) :
    scanRowGroups groups key = .missing := by
  induction groups with
  | nil => rfl
  | cons g rest ih =>
      rw [scanRowGroups]
      split
      · exact ih fun g' hg' => h g' (List.mem_cons_of_mem g hg')
      · exact scanRowGroup_of_not_has (h g List.mem_cons_self)

/-- With a group before it that may contain the key, the key is missing if none
of the groups before has it. -/
theorem scanRowGroups_missing (post : List RowGroup) (hpre : ∀ g ∈ pre, ¬ g.Has key)
    (hmay : ∃ g ∈ pre, rowGroupMayContain g key = true) :
    scanRowGroups (pre ++ post) key = .missing := by
  induction pre with
  | nil => simp at hmay
  | cons g pre ih =>
      rw [List.cons_append]
      by_cases hg : rowGroupMayContain g key = true
      · rw [scanRowGroups_final hg]
        exact scanRowGroup_of_not_has (hpre g List.mem_cons_self)
      · have hrest : ∃ g ∈ pre, rowGroupMayContain g key = true := by
          simpa [hg] using hmay
        rw [scanRowGroups, Bool.not_eq_true] at *
        rw [hg]
        exact ih (fun g' hg' => hpre g' (List.mem_cons_of_mem g hg')) hrest

end ColumnarReader

/-! ## the exact lookup of a file -/

namespace DataFile

variable {f : DataFile} {key : Bytes} {pre post : List RowGroup} {g : RowGroup}

theorem lookup_of_not_has (h : ∀ g ∈ f.rowGroups, ¬ g.Has key) : f.lookup key = .missing := by
  have hnone : f.row? key = none := by
    rw [row?, List.find?_eq_none]
    intro row hrow hk
    obtain ⟨g, hg, hrow⟩ := List.mem_flatMap.mp hrow
    exact h g hg ⟨row, hrow, by simpa using hk⟩
  rw [lookup, hnone]
  rfl

/-- Groups before the one that has the key do not have it. -/
theorem Sorted.not_has_before (hs : f.Sorted) (hsplit : f.rowGroups = pre ++ g :: post)
    (hg : g.Has key) : ∀ g' ∈ pre, ¬ g'.Has key := by
  intro g' hg' ⟨row', hrow', hk'⟩
  obtain ⟨row, hrow, hk⟩ := hg
  rw [Sorted, rows, hsplit, List.flatMap_append, List.pairwise_append] at hs
  have hlt := hs.2.2 row' (List.mem_flatMap_of_mem hg' hrow') row
    (List.mem_flatMap_of_mem List.mem_cons_self hrow)
  rw [hk, hk'] at hlt
  simp at hlt

/-- The group that has the key decides the exact lookup. -/
theorem Sorted.lookup_eq_scan (hs : f.Sorted) (hsplit : f.rowGroups = pre ++ g :: post)
    (hg : g.Has key) : f.lookup key = ColumnarReader.scanRowGroup g key := by
  have hnone : (pre.flatMap RowGroup.rows).find? (fun row => row.pk = key) = none := by
    rw [List.find?_eq_none]
    intro row hrow hk
    obtain ⟨g', hg', hrow'⟩ := List.mem_flatMap.mp hrow
    exact hs.not_has_before hsplit hg g' hg' ⟨row, hrow', by simpa using hk⟩
  rw [lookup, row?, rows, hsplit, List.flatMap_append, List.flatMap_cons, List.find?_append,
    hnone, Option.none_or, List.find?_append, ColumnarReader.scanRowGroup]
  cases hfind : g.rows.find? fun row => row.pk = key with
  | some row => rfl
  | none =>
      obtain ⟨row, hrow, hk⟩ := hg
      exact absurd (by simpa using hk) (List.find?_eq_none.mp hfind row hrow)

theorem lookup_ne_missing (hrow : ∃ row, f.row? key = some row) : f.lookup key ≠ .missing := by
  obtain ⟨row, hrow⟩ := hrow
  rw [lookup, hrow, Option.map_some, Option.getD_some, Row.lookup]
  split <;> simp

theorem exists_row?_of_has (hmem : g ∈ f.rowGroups) (hg : g.Has key) :
    ∃ row, f.row? key = some row := by
  obtain ⟨row, hrow, hk⟩ := hg
  cases hfind : f.row? key with
  | some row => exact ⟨row, rfl⟩
  | none =>
      have hin : row ∈ f.rows := List.mem_flatMap_of_mem hmem hrow
      exact absurd (by simpa using hk) (List.find?_eq_none.mp hfind row hin)

end DataFile

/-! ## when pruning hides a row -/

namespace ColumnarReader

/-- No group that may contain the key stands before the one that has it. -/
def Unshadowed (f : DataFile) (key : Bytes) : Prop :=
  ∀ pre g post, f.rowGroups = pre ++ g :: post → g.Has key →
    ∀ g' ∈ pre, rowGroupMayContain g' key = false

/-- **Row-group pruning**: over a file sorted by unique keys, whose statistics
are absent or valid bounds, the point read agrees with a scan of all row groups
if and only if no group that may contain the key stands before the one that has
it. -/
theorem getFromFile_exact_iff {store : List DataFile} {entry : FileEntry} {f : DataFile}
    (hf : store.find? (fun g => g.location = entry.location) = some f) (hs : f.Sorted)
    (hstats : ∀ g ∈ f.rowGroups, g.StatsValid) (key : Bytes) :
    getFromFile store entry key = .ok (f.lookup key) ↔ Unshadowed f key := by
  have hget : getFromFile store entry key = .ok (scanRowGroups f.rowGroups key) := by
    rw [getFromFile, hf]
  rw [hget, Except.ok.injEq]
  constructor
  · intro heq pre g post hsplit hg g' hg'
    by_contra hmay
    rw [Bool.not_eq_false] at hmay
    have hmem : g ∈ f.rowGroups := by simp [hsplit]
    have hmiss := scanRowGroups_missing (g :: post) (hs.not_has_before hsplit hg)
      ⟨g', hg', hmay⟩
    rw [hsplit, hmiss] at heq
    exact DataFile.lookup_ne_missing (DataFile.exists_row?_of_has hmem hg) heq.symm
  · intro hclear
    by_cases hhas : ∃ g ∈ f.rowGroups, g.Has key
    · obtain ⟨g, hmem, hg⟩ := hhas
      obtain ⟨pre, post, hsplit⟩ := List.append_of_mem hmem
      have hmay := rowGroupMayContain_of_has (hstats g hmem) hg
      rw [hs.lookup_eq_scan hsplit hg, hsplit,
        scanRowGroups_skip (hclear pre g post hsplit hg), scanRowGroups_final hmay]
    · have hnone : ∀ g ∈ f.rowGroups, ¬ g.Has key := fun g hmem hg => hhas ⟨g, hmem, hg⟩
      rw [DataFile.lookup_of_not_has hnone, scanRowGroups_of_not_has hnone]

/-- Two row groups of one row each, the first one without statistics. -/
def shadowing : DataFile where
  location := ['a']
  pkMin := [1]
  pkMax := [2]
  lsnMax := 2
  bloom := none
  rowGroups :=
    [{ rows := [⟨[1], 1, 0, some [7]⟩], statistics := none },
      { rows := [⟨[2], 2, 0, some [8]⟩], statistics := some (some [2], some [2]) }]

theorem shadowing_sorted : shadowing.Sorted := by
  rw [DataFile.Sorted]
  decide

theorem shadowing_statsValid : ∀ g ∈ shadowing.rowGroups, g.StatsValid := by
  intro g hg lo hi hst
  simp only [shadowing, List.mem_cons, List.not_mem_nil, or_false] at hg
  cases hg with
  | inl hg =>
      subst hg
      contradiction
  | inr hg =>
      subst hg
      simp only [Option.some.injEq, Prod.mk.injEq] at hst
      obtain ⟨rfl, rfl⟩ := hst
      decide

theorem getFromFile_exact_shadowing :
    (getFromFile [shadowing] shadowing.entry [1] = .ok (shadowing.lookup [1]) ↔
      Unshadowed shadowing [1]) ∧ ¬ Unshadowed shadowing [2] := by
  refine ⟨getFromFile_exact_iff rfl shadowing_sorted shadowing_statsValid [1], fun h => ?_⟩
  have hmay := h [_] _ [] rfl ⟨_, List.mem_cons_self, rfl⟩ _ List.mem_cons_self
  contradiction

/-- **A row hidden**: the first group has no statistics, so its answer is final
for a key that the second group has. -/
theorem getFromFile_hides_row :
    shadowing.Sorted ∧ (∀ g ∈ shadowing.rowGroups, g.StatsValid) ∧
      getFromFile [shadowing] shadowing.entry [2] = .ok .missing ∧
      shadowing.lookup [2] = .found [8] :=
  ⟨shadowing_sorted, shadowing_statsValid, by decide, by decide⟩

end ColumnarReader

end HolyGrail
