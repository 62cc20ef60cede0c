import HolyGrail.OrdMap
import HolyGrail.Record
import HolyGrail.Tier

/-!
# HolyGrail.Memtable

The row tier's in-memory level (`memtable.rs`): one active memtable and the
frozen ones that wait for their flush.

A `Memtable` carries two facts about its bookkeeping: `maxLsn` bounds every
entry, and it is the LSN of one of them.  The second is why the watermark a
flush announces is the one the published file carries.

Shared pointers are `Arc`s with an identity, because `retire` drops a memtable
by pointer equality.
-/

namespace HolyGrail

open Std (ExtTreeMap)

structure Entry where
  lsn : Nat
  op : Op
  value : Bytes
  deriving DecidableEq, Repr

/-- What a lookup found.  `deleted` is a definitive answer and stops the
search; `missing` means "not at this level". -/
inductive Lookup where
  | found (value : Bytes)
  | deleted
  | missing
  deriving DecidableEq, Repr

/-- The lookup that answers with a version of the key. -/
def Lookup.ofHit : Option (Version Bytes) → Lookup
  | none => .missing
  | some ⟨_, none⟩ => .deleted
  | some ⟨_, some value⟩ => .found value

theorem Lookup.ofHit_eq_missing {o : Option (Version Bytes)} : ofHit o = .missing ↔ o = none := by
  rcases o with _ | ⟨l, _ | b⟩ <;> simp [ofHit]

/-- The version of its key that an entry stands for. -/
def Entry.version (e : Entry) : Version Bytes where
  lsn := e.lsn
  value := match e.op with
    | .put => some e.value
    | .delete => none

namespace Record

def entry (rec : Record) : Entry := { lsn := rec.lsn, op := rec.op, value := rec.value }

/-- The version a record makes of its key. -/
def version (rec : Record) : Version Bytes := rec.entry.version

/-- A record as a write of the abstract model. -/
def write (rec : Record) : Write Bytes Bytes := { key := rec.key, version := rec.version }

@[simp] theorem version_lsn (rec : Record) : rec.version.lsn = rec.lsn := rfl

@[simp] theorem write_key (rec : Record) : rec.write.key = rec.key := rfl

@[simp] theorem write_version (rec : Record) : rec.write.version = rec.version := rfl

end Record

/-! ## one memtable -/

structure Memtable where
  map : ExtTreeMap Bytes Entry
  approxBytes : Nat
  maxLsn : Nat
  lsn_le : ∀ (k : Bytes) (e : Entry), map[k]? = some e → e.lsn ≤ maxLsn
  attained : (map = ∅ ∧ maxLsn = 0) ∨ ∃ (k : Bytes) (e : Entry), map[k]? = some e ∧ e.lsn = maxLsn

namespace Memtable

def new : Memtable where
  map := ∅
  approxBytes := 0
  maxLsn := 0
  lsn_le k e h := by simp at h
  attained := .inl ⟨rfl, rfl⟩

/-- Insert a record.  LSN order wins, not arrival order; `approxBytes` and
`maxLsn` advance even for a record that lost. -/
def insert (mt : Memtable) (rec : Record) : Memtable where
  map := OrdMap.compareInsert mt.map rec.key rec.entry fun existing => existing.lsn < rec.lsn
  approxBytes := mt.approxBytes + rec.heapSize
  maxLsn := max mt.maxLsn rec.lsn
  lsn_le k e h := by
    rw [OrdMap.getElem?_compareInsert] at h
    split at h
    · rw [← Option.some.inj h]
      exact Nat.le_max_right _ _
    · exact Nat.le_trans (mt.lsn_le k e h) (Nat.le_max_left _ _)
  attained := by
    right
    by_cases hlt : mt.maxLsn < rec.lsn ∨ mt.map = ∅
    · -- Nothing in the memtable is as new as the record.
      have hwin : mt.map[rec.key]?.all fun existing => existing.lsn < rec.lsn := by
        rw [Option.all_eq_true]
        intro e he
        rcases hlt with hlt | hempty
        · exact decide_eq_true (Nat.lt_of_le_of_lt (mt.lsn_le _ e he) hlt)
        · simp [hempty] at he
      refine ⟨rec.key, rec.entry, ?_, ?_⟩
      · rw [OrdMap.getElem?_compareInsert, if_pos ⟨rfl, hwin⟩]
      · rcases mt.attained with ⟨-, hzero⟩ | ⟨k, e, hk, he⟩
        · simp [Record.entry, hzero]
        · rcases hlt with hlt | hempty
          · exact (Nat.max_eq_right (Nat.le_of_lt hlt)).symm
          · simp [hempty] at hk
    · -- The entry at the old maximum stands.
      rw [not_or, Nat.not_lt] at hlt
      rcases mt.attained with ⟨hempty, -⟩ | ⟨k, e, hk, he⟩
      · exact absurd hempty hlt.2
      · refine ⟨k, e, ?_, by rw [he, Nat.max_eq_left hlt.1]⟩
        rw [OrdMap.getElem?_compareInsert, if_neg, hk]
        rintro ⟨rfl, hall⟩
        rw [hk, Option.all_some, decide_eq_true_eq] at hall
        omega

def get (mt : Memtable) (key : Bytes) : Lookup :=
  match mt.map[key]? with
  | none => .missing
  | some e =>
      match e.op with
      | .put => .found e.value
      | .delete => .deleted

def isEmpty (mt : Memtable) : Bool := mt.map.isEmpty

/-- The entries in key order. -/
def iter (mt : Memtable) : List (Bytes × Entry) := mt.map.toList

/-! ### as a tier -/

/-- The version a memtable holds of a key. -/
def find (mt : Memtable) : Tier Bytes Bytes := fun k => mt.map[k]?.map Entry.version

theorem get_eq (mt : Memtable) (k : Bytes) : mt.get k = Lookup.ofHit (mt.find k) := by
  rw [get, find]
  cases mt.map[k]? with
  | none => rfl
  | some e =>
      obtain ⟨l, op, v⟩ := e
      cases op <;> rfl

theorem le_maxLsn {mt : Memtable} {k : Bytes} {v : Version Bytes} (h : mt.find k = some v) :
    v.lsn ≤ mt.maxLsn := by
  obtain ⟨e, he, rfl⟩ := Option.map_eq_some_iff.mp h
  exact mt.lsn_le k e he

/-- A memtable as a chunk bounded by its `maxLsn`. -/
def chunk (mt : Memtable) : Chunk Bytes Bytes where
  top := mt.maxLsn
  find := mt.find
  le_top _ _ h := le_maxLsn h

@[simp] theorem chunk_top (mt : Memtable) : mt.chunk.top = mt.maxLsn := rfl

@[simp] theorem chunk_find (mt : Memtable) : mt.chunk.find = mt.find := rfl

@[simp] theorem find_new (k : Bytes) : new.find k = none := by simp [find, new]

theorem isEmpty_iff {mt : Memtable} : mt.isEmpty = true ↔ ∀ k, mt.find k = none := by
  rw [isEmpty, ExtTreeMap.isEmpty_iff]
  constructor
  · intro h k
    simp [find, h]
  · intro h
    refine OrdMap.eq_empty_of_forall_not_mem fun k => ?_
    rw [← OrdMap.getElem?_eq_none_iff]
    exact Option.map_eq_none_iff.mp (h k)

/-- A memtable with an entry has one at its `maxLsn`. -/
theorem tight {mt : Memtable} (h : mt.isEmpty = false) : mt.chunk.Tight := by
  rcases mt.attained with ⟨hempty, -⟩ | ⟨k, e, hk, he⟩
  · rw [isEmpty, hempty, ExtTreeMap.isEmpty_empty] at h
    contradiction
  · exact ⟨k, e.version, by simp [find, hk], he⟩

theorem all_find (mt : Memtable) (k : Bytes) (n : Nat) :
    (mt.find k).all (fun v => v.lsn < n) = mt.map[k]?.all fun e => e.lsn < n := by
  rw [find]
  cases mt.map[k]? <;> rfl

theorem find_insert (mt : Memtable) (rec : Record) (k : Bytes) :
    (mt.insert rec).find k =
      if rec.key = k ∧ (mt.find k).all (fun v => v.lsn < rec.lsn) then some rec.version
      else mt.find k := by
  rw [all_find, find, insert, OrdMap.getElem?_compareInsert]
  split <;> rfl

/-- An insert adds at most the version of its record. -/
theorem find_insert_cases {mt : Memtable} {rec : Record} {k : Bytes} {v : Version Bytes}
    (h : (mt.insert rec).find k = some v) :
    mt.find k = some v ∨ (rec.key = k ∧ v = rec.version) := by
  rw [find_insert] at h
  split at h
  · next hk => exact .inr ⟨hk.1, (Option.some.inj h).symm⟩
  · exact .inl h

/-- Whether it wins or loses, an inserted record is absorbed. -/
theorem absorbs_insert (mt : Memtable) (rec : Record) : Absorbs (mt.insert rec).find rec.write := by
  rw [Absorbs, Record.write_key, find_insert]
  split
  · exact ⟨rec.version, rfl, Nat.le_refl _⟩
  · next h =>
      cases hv : mt.find rec.key with
      | none => simp [hv] at h
      | some v =>
          rw [hv] at h
          simp only [true_and, Option.all_some, decide_eq_true_eq, Nat.not_lt] at h
          exact ⟨v, rfl, h⟩

theorem absorbs_mono {mt : Memtable} {w : Write Bytes Bytes} (rec : Record)
    (h : Absorbs mt.find w) : Absorbs (mt.insert rec).find w := by
  obtain ⟨v, hv, hle⟩ := h
  rw [Absorbs, find_insert]
  split
  · next hk =>
      rw [hv] at hk
      simp only [Option.all_some, decide_eq_true_eq] at hk
      exact ⟨rec.version, rfl, by simp only [Record.version_lsn]; omega⟩
  · exact ⟨v, hv, hle⟩

theorem isEmpty_insert (mt : Memtable) (rec : Record) : (mt.insert rec).isEmpty = false := by
  rw [← Bool.not_eq_true, isEmpty_iff]
  intro h
  obtain ⟨v, hv, -⟩ := absorbs_insert mt rec
  rw [h] at hv
  contradiction

/-- Insert a list of records, as replay does. -/
def insertAll (mt : Memtable) (recs : List Record) : Memtable := recs.foldl insert mt

theorem absorbs_insertAll {mt : Memtable} {recs : List Record} {rec : Record} (h : rec ∈ recs) :
    Absorbs (mt.insertAll recs).find rec.write := by
  have hkeep : ∀ (rs : List Record) (mt : Memtable), Absorbs mt.find rec.write →
      Absorbs (mt.insertAll rs).find rec.write := by
    intro rs
    induction rs with
    | nil => exact fun _ h => h
    | cons r rs ih => exact fun mt h => ih (mt.insert r) (absorbs_mono r h)
  induction recs generalizing mt with
  | nil => contradiction
  | cons r rs ih =>
      rw [List.mem_cons] at h
      rcases h with rfl | h
      · exact hkeep rs _ (absorbs_insert mt rec)
      · exact ih h

theorem find_insertAll_cases {mt : Memtable} {recs : List Record} {k : Bytes}
    {v : Version Bytes} (h : (mt.insertAll recs).find k = some v) :
    mt.find k = some v ∨ ∃ r ∈ recs, r.key = k ∧ v = r.version := by
  induction recs generalizing mt with
  | nil => exact .inl h
  | cons r rs ih =>
      rcases ih h with h | ⟨s, hs, hks⟩
      · rcases find_insert_cases h with h | hr
        · exact .inl h
        · exact .inr ⟨r, List.mem_cons_self, hr⟩
      · exact .inr ⟨s, List.mem_cons_of_mem r hs, hks⟩

/-- An inserted record is found, or a later one of its key is. -/
theorem exists_find_insertAll (mt : Memtable) {recs : List Record} {rec : Record}
    (h : rec ∈ recs) : ∃ v, (mt.insertAll recs).find rec.key = some v ∧ rec.lsn ≤ v.lsn :=
  absorbs_insertAll h

/-- What is found in a memtable is the version of a record. -/
theorem exists_record_of_find {recs : List Record} {k : Bytes} {v : Version Bytes}
    (h : (new.insertAll recs).find k = some v) : ∃ r ∈ recs, r.key = k ∧ v = r.version := by
  cases find_insertAll_cases h with
  | inl hnew => simp at hnew
  | inr hex => exact hex

theorem maxLsn_insertAll_le {mt : Memtable} {recs : List Record} {n : Nat} (hmt : mt.maxLsn ≤ n)
    (h : ∀ r ∈ recs, r.lsn ≤ n) : (mt.insertAll recs).maxLsn ≤ n := by
  induction recs generalizing mt with
  | nil => exact hmt
  | cons r rs ih =>
      refine ih ?_ fun s hs => h s (List.mem_cons_of_mem r hs)
      exact Nat.max_le.mpr ⟨hmt, h r List.mem_cons_self⟩

end Memtable

/-! ## the set -/

/-- A shared pointer: an identity and what it points to. -/
structure Arc (α : Type u) where
  ptr : Nat
  val : α

structure MemtableSet where
  active : Arc Memtable
  /-- Oldest first.  Reads walk this in reverse. -/
  frozen : List (Arc Memtable)
  maxBytes : Nat
  maxFrozen : Nat
  /-- The `assert!` of `new`. -/
  maxFrozen_pos : 0 < maxFrozen

namespace MemtableSet

def new (maxBytes maxFrozen : Nat) (h : 0 < maxFrozen) : MemtableSet where
  active := { ptr := 0, val := Memtable.new }
  frozen := []
  maxBytes
  maxFrozen
  maxFrozen_pos := h

def insert (set : MemtableSet) (rec : Record) : MemtableSet :=
  { set with active := { set.active with val := set.active.val.insert rec } }

/-- The frozen part of a read: the first memtable with an opinion decides. -/
def getFrozen : List (Arc Memtable) → Bytes → Lookup
  | [], _ => .missing
  | mt :: rest, key =>
      match mt.val.get key with
      | .missing => getFrozen rest key
      | hit => hit

def get (set : MemtableSet) (key : Bytes) : Lookup :=
  match set.active.val.get key with
  | .missing => getFrozen set.frozen.reverse key
  | hit => hit

def shouldFreeze (set : MemtableSet) : Bool := set.active.val.approxBytes ≥ set.maxBytes

/-- The flush path has fallen far enough behind that writes must stall. -/
def stalled (set : MemtableSet) : Bool := set.frozen.length ≥ set.maxFrozen

/-- Swap in a fresh active memtable and hand back the frozen one.  The fresh
one is a new allocation, so its pointer differs from every live one. -/
def freeze (set : MemtableSet) : Except Error (Option (Arc Memtable) × MemtableSet) :=
  if set.frozen.length ≥ set.maxFrozen then .error (.writeStalled set.frozen.length)
  else if set.active.val.isEmpty then .ok (none, set)
  else .ok (some set.active,
    { set with
      active := { ptr := set.active.ptr + 1, val := Memtable.new }
      frozen := set.frozen ++ [set.active] })

def retire (set : MemtableSet) (flushed : Arc Memtable) : MemtableSet :=
  { set with frozen := set.frozen.filter fun mt => mt.ptr ≠ flushed.ptr }

/-- The bytes all memtables are charged for. -/
def approxBytes (set : MemtableSet) : Nat :=
  set.active.val.approxBytes + (set.frozen.map fun mt => mt.val.approxBytes).sum

/-- The memtables of a read, in the order it walks them. -/
def walk (set : MemtableSet) : List (Arc Memtable) := set.active :: set.frozen.reverse

/-- The tiers of a read, in the order it walks them. -/
def tiers (set : MemtableSet) : List (Tier Bytes Bytes) := set.walk.map fun mt => mt.val.find

theorem getFrozen_eq (mts : List (Arc Memtable)) (k : Bytes) :
    getFrozen mts k = Lookup.ofHit (firstHit (mts.map fun mt => mt.val.find) k) := by
  induction mts with
  | nil => rfl
  | cons mt rest ih =>
      rw [getFrozen, List.map_cons, firstHit, Memtable.get_eq]
      cases hv : mt.val.find k with
      | none => simp only [Lookup.ofHit, Option.none_or]; exact ih
      | some v =>
          obtain ⟨l, _ | b⟩ := v <;> rfl

/-- **First hit wins** in the row tier. -/
theorem get_eq (set : MemtableSet) (k : Bytes) :
    set.get k = Lookup.ofHit (firstHit set.tiers k) := by
  rw [get, tiers, walk, List.map_cons, firstHit, Memtable.get_eq]
  cases hv : set.active.val.find k with
  | none => simp only [Lookup.ofHit, Option.none_or]; exact getFrozen_eq _ k
  | some v => obtain ⟨l, _ | b⟩ := v <;> rfl

end MemtableSet

end HolyGrail
