import HolyGrail.Cache
import HolyGrail.Run

/-!
# HolyGrail.Cache.Fetch

`RangeFetcher::fetch_range`: any number of fetches through one cache, at once.

The cache is locked for a lookup and for an insert, but not across the read of
the store between them, so the steps of concurrent fetches come in any order:
two fetches of one range may both miss and both insert.  The store is not under
this code; its objects are immutable, and a read of a range returns the bytes of
the object there or fails.  A fetch can be dropped wherever it waits.

`Transparent` is what holds in every state: the cache lists bytes of the store
and its count is right, so a hit returns what a read would have returned.
-/

namespace HolyGrail.Cache

/-- The error a fetch passes on (`ParquetError::External`). -/
inductive ParquetError where
  | external
  deriving DecidableEq, Repr

/-- How far a `fetch_range` has come. -/
inductive FetchStage where
  | called
  | missed
  | read (bytes : Bytes)
  | returned (result : Except ParquetError Bytes)
  | dropped

/-- A `fetch_range` of one range. -/
structure RangeFetch where
  key : Key
  stage : FetchStage

/-- One cache and the fetches through it. -/
structure Fetches where
  cache : ByteCache
  fetches : List RangeFetch

/-- The steps of the fetches: `lookup`, `getRange` and `insert` carry on the fetch
with the given number. -/
inductive FetchAct where
  | call (path : FileName) (start end_ : Nat)
  | lookup (i : Nat)
  | getRange (i : Nat) (fails : Bool)
  | insert (i : Nat)
  | drop (i : Nat)

section
variable (objects : FileName → Bytes)

/-- The bytes of the object for a range. -/
def objectRange (key : Key) : Bytes := slice (objects key.path) key.start key.end_

/-- Count a lookup that found nothing. -/
def ByteCache.countMiss (cache : ByteCache) : ByteCache :=
  { cache with stats := { cache.stats with misses := cache.stats.misses + 1 } }

/-- Count the bytes of a read of the store. -/
def ByteCache.countFetched (cache : ByteCache) (bytes : Bytes) : ByteCache :=
  { cache with stats :=
    { cache.stats with bytesFetched := cache.stats.bytesFetched + bytes.length } }

/-- What one fetch does between two points where another can come in. -/
def RangeFetch.step (cache : ByteCache) (f : RangeFetch) :
    FetchAct → Option (ByteCache × RangeFetch)
  | .lookup _ => match f.stage with
      | .called => match cache.get f.key with
          | (some hit, cache) => some (cache, { f with stage := .returned (.ok hit) })
          | (none, cache) => some (cache.countMiss, { f with stage := .missed })
      | _ => none
  | .getRange _ fails => match f.stage with
      | .missed =>
          let stage := if fails then .returned (.error .external)
            else .read (objectRange objects f.key)
          some (cache, { f with stage })
      | _ => none
  | .insert _ => match f.stage with
      | .read bytes => some ((cache.countFetched bytes).insert f.key bytes,
          { f with stage := .returned (.ok bytes) })
      | _ => none
  | .drop _ => match f.stage with
      | .returned _ => none
      | _ => some (cache, { f with stage := .dropped })
  | .call .. => none

/-- Carry on the fetch with the number `i`. -/
def Fetches.carryOn (s : Fetches) (i : Nat) (act : FetchAct) : Option Fetches :=
  s.fetches[i]?.bind fun f => (f.step objects s.cache act).map fun r =>
    { cache := r.1, fetches := s.fetches.set i r.2 }

/-- One step of one fetch, or a new call. -/
def Fetches.step (s : Fetches) (act : FetchAct) : Option Fetches :=
  match act with
  | .call path start end_ => some { s with
      fetches := s.fetches ++ [{ key := { path, start, end_ }, stage := .called }] }
  | .lookup i | .getRange i _ | .insert i | .drop i => s.carryOn objects i act

end

/-- An empty cache, and no fetch. -/
def Fetches.new (maxBytes : Nat) : Fetches where
  cache := .new maxBytes
  fetches := []

/-! ## the cache mirrors the store -/

/-- The count is right, and what is cached is in the store. -/
def Mirrors (objects : FileName → Bytes) (cache : ByteCache) : Prop :=
  ∃ l, Exact cache l ∧ ∀ b ∈ l.map Prod.snd, b.2 = objectRange objects b.1

namespace Mirrors

variable {objects : FileName → Bytes} {cache : ByteCache}

theorem countMiss (h : Mirrors objects cache) : Mirrors objects cache.countMiss := by
  obtain ⟨l, hl, hbytes⟩ := h
  exact ⟨l, hl.withStats _, hbytes⟩

theorem countFetched (h : Mirrors objects cache) (bytes : Bytes) :
    Mirrors objects (cache.countFetched bytes) := by
  obtain ⟨l, hl, hbytes⟩ := h
  exact ⟨l, hl.withStats _, hbytes⟩

/-- What the map binds a range to. -/
theorem bytes_eq (h : Mirrors objects cache) {key : Key} {bytes : Bytes} {t : Nat}
    (hk : cache.inner.entries[key]? = some (bytes, t)) : bytes = objectRange objects key := by
  obtain ⟨l, hl, hbytes⟩ := h
  exact hbytes _ (List.mem_map_of_mem ((hl.lists.entries key bytes t).mp hk))

/-- **A hit is the bytes of the store.** -/
theorem hit_eq (h : Mirrors objects cache) {key : Key} {hit : Bytes} {cache' : ByteCache}
    (hget : cache.get key = (some hit, cache')) : hit = objectRange objects key := by
  rw [ByteCache.get] at hget
  split at hget
  · simp at hget
  · next bytes t hk =>
      simp only [Prod.mk.injEq, Option.some.injEq] at hget
      rw [← hget.1]
      exact h.bytes_eq hk

theorem lru_get (h : Mirrors objects cache) (key : Key) :
    (cache.get key).2.inner.lru = Lru.touch key cache.inner.lru := by
  obtain ⟨l, hl, -⟩ := h
  obtain ⟨l', hl', htouch⟩ := hl.get key
  rw [hl'.lists.lru_eq, htouch, hl.lists.lru_eq]

theorem get (h : Mirrors objects cache) (key : Key) : Mirrors objects (cache.get key).2 := by
  obtain ⟨l, hl, hbytes⟩ := h
  obtain ⟨l', hl', htouch⟩ := hl.get key
  refine ⟨l', hl', fun b hb => ?_⟩
  rw [htouch] at hb
  exact hbytes b (Lru.mem_touch hb)

/-- A range is only ever inserted with the bytes it has. -/
theorem sameLength (h : Mirrors objects cache) (key : Key) (old : Bytes) (t : Nat)
    (hk : cache.inner.entries[key]? = some (old, t)) :
    (objectRange objects key).length = old.length := by
  rw [h.bytes_eq hk]

theorem lru_insert (h : Mirrors objects cache) (key : Key) :
    (cache.insert key (objectRange objects key)).inner.lru =
      Lru.insert List.length cache.maxBytes key (objectRange objects key) cache.inner.lru := by
  have hsame := h.sameLength key
  obtain ⟨l, hl, -⟩ := h
  obtain ⟨l', hl', hinsert⟩ := hl.insert key _ hsame
  rw [hl'.lists.lru_eq, hinsert, hl.lists.lru_eq]

theorem insert (h : Mirrors objects cache) (key : Key) :
    Mirrors objects (cache.insert key (objectRange objects key)) := by
  have hsame := h.sameLength key
  obtain ⟨l, hl, hbytes⟩ := h
  obtain ⟨l', hl', hinsert⟩ := hl.insert key _ hsame
  refine ⟨l', hl', fun b hb => ?_⟩
  rw [hinsert] at hb
  cases Lru.mem_insert _ hb with
  | inl hb => exact hbytes b hb
  | inr hb => rw [hb]

end Mirrors

/-! ## one step of a fetch -/

/-- The bytes a fetch has read or returned are those of its range. -/
def RangeFetch.Holds (objects : FileName → Bytes) (f : RangeFetch) : Prop :=
  ∀ bytes, f.stage = .read bytes ∨ f.stage = .returned (.ok bytes) →
    bytes = objectRange objects f.key

/-- **One step** keeps the cache a mirror and the fetch true to its range. -/
theorem RangeFetch.step_mirrors {objects : FileName → Bytes} {cache cache' : ByteCache}
    {f f' : RangeFetch} {act : FetchAct} (h : f.step objects cache act = some (cache', f'))
    (hm : Mirrors objects cache) (hf : f.Holds objects) :
    Mirrors objects cache' ∧ f'.Holds objects ∧ cache'.maxBytes = cache.maxBytes := by
  obtain ⟨key, stage⟩ := f
  cases act with
  | call => simp [step] at h
  | lookup =>
      cases stage with
      | called =>
          have hnew := hm.get key
          have hmax := ByteCache.get_maxBytes cache key
          simp only [step] at h
          split at h
          · next hit cache₁ hget =>
              have hhit := hm.hit_eq hget
              rw [hget] at hnew hmax
              simp only [Option.some.injEq, Prod.mk.injEq] at h
              obtain ⟨rfl, rfl⟩ := h
              exact ⟨hnew, by simp [Holds, hhit], hmax⟩
          · next cache₁ hget =>
              rw [hget] at hnew hmax
              simp only [Option.some.injEq, Prod.mk.injEq] at h
              obtain ⟨rfl, rfl⟩ := h
              exact ⟨hnew.countMiss, by simp [Holds], hmax⟩
      | _ => simp [step] at h
  | getRange i fails =>
      cases stage with
      | missed =>
          simp only [step, Option.some.injEq, Prod.mk.injEq] at h
          obtain ⟨rfl, rfl⟩ := h
          cases fails <;> simp [Holds, hm]
      | _ => simp [step] at h
  | insert =>
      cases stage with
      | read bytes =>
          have hbytes := hf bytes (.inl rfl)
          simp only [step, Option.some.injEq, Prod.mk.injEq] at h
          obtain ⟨rfl, rfl⟩ := h
          refine ⟨?_, by simp [Holds, hbytes], by simp [ByteCache.countFetched]⟩
          simp only at hbytes
          rw [hbytes]
          exact (hm.countFetched _).insert key
      | _ => simp [step] at h
  | drop =>
      cases stage with
      | returned result => simp [step] at h
      | _ =>
          simp only [step, Option.some.injEq, Prod.mk.injEq] at h
          obtain ⟨rfl, rfl⟩ := h
          exact ⟨hm, by simp [Holds], rfl⟩

/-- A fetch goes on with its range. -/
theorem RangeFetch.step_key {objects : FileName → Bytes} {cache cache' : ByteCache}
    {f f' : RangeFetch} {act : FetchAct} (h : f.step objects cache act = some (cache', f')) :
    f'.key = f.key := by
  unfold step at h
  grind

/-! ## every interleaving -/

section
variable {objects : FileName → Bytes} {maxBytes : Nat} {s s' : Fetches}

theorem Fetches.carryOn_eq_some {i : Nat} {act : FetchAct} :
    s.carryOn objects i act = some s' ↔
      ∃ f r, s.fetches[i]? = some f ∧ f.step objects s.cache act = some r ∧
        { cache := r.1, fetches := s.fetches.set i r.2 } = s' := by
  simp only [carryOn, Option.bind_eq_some_iff, Option.map_eq_some_iff, exists_and_left]

/-- The cache is a mirror of the store with the right count, and every fetch is
true to its range. -/
structure Transparent (objects : FileName → Bytes) (maxBytes : Nat) (s : Fetches) : Prop where
  maxBytes : s.cache.maxBytes = maxBytes
  mirrors : Mirrors objects s.cache
  holds : ∀ f ∈ s.fetches, f.Holds objects

theorem Transparent.carryOn (h : Transparent objects maxBytes s) {i : Nat} {act : FetchAct}
    (hs : s.carryOn objects i act = some s') : Transparent objects maxBytes s' := by
  obtain ⟨f, r, hf, hr, rfl⟩ := Fetches.carryOn_eq_some.mp hs
  have hmem := List.mem_of_getElem? hf
  obtain ⟨hm, hholds, hmax⟩ := RangeFetch.step_mirrors hr h.mirrors (h.holds f hmem)
  refine ⟨hmax.trans h.maxBytes, hm, fun g hg => ?_⟩
  cases List.mem_or_eq_of_mem_set hg with
  | inl hg => exact h.holds g hg
  | inr hg => exact hg ▸ hholds

/-- **Step**: whoever comes next, the cache stays transparent. -/
theorem Transparent.step (h : Transparent objects maxBytes s) (act : FetchAct)
    (hs : s.step objects act = some s') : Transparent objects maxBytes s' := by
  cases act with
  | call path start end_ =>
      simp only [Fetches.step, Option.some.injEq] at hs
      subst hs
      refine ⟨h.maxBytes, h.mirrors, fun f hf => ?_⟩
      rw [List.mem_append, List.mem_singleton] at hf
      cases hf with
      | inl hf => exact h.holds f hf
      | inr hf => simp [hf, RangeFetch.Holds]
  | lookup i => exact h.carryOn hs
  | getRange i fails => exact h.carryOn hs
  | insert i => exact h.carryOn hs
  | drop i => exact h.carryOn hs

/-- **Run**: the cache is transparent in every state reached. -/
theorem transparent_of_reaches
    (h : Reaches (Fetches.step objects) (fun _ _ => True) (Fetches.new maxBytes) s) :
    Transparent objects maxBytes s := by
  refine h.invariant (Transparent objects maxBytes) ⟨rfl, ⟨[], Exact.new maxBytes, by simp⟩, ?_⟩
    fun s a s' hs _ hstep => hs.step a hstep
  simp [Fetches.new]

/-! ## fetches that go on -/

/-- A fetch that waits: it has neither returned nor been dropped. -/
def FetchStage.Waiting : FetchStage → Prop
  | .returned _ | .dropped => False
  | _ => True

/-- A step the fetch can take is a step of the system. -/
theorem Fetches.carryOn_of_step {i : Nat} {f : RangeFetch} (act : FetchAct)
    {r : ByteCache × RangeFetch} (hf : s.fetches[i]? = some f)
    (hr : f.step objects s.cache act = some r) :
    ∃ s', s.carryOn objects i act = some s' ∧ s'.fetches[i]? = some r.2 := by
  have hlt := (List.getElem?_eq_some_iff.mp hf).1
  exact ⟨_, carryOn_eq_some.mpr ⟨f, r, hf, hr, rfl⟩, by simp [hlt]⟩

/-- The state in which the fetch `i` has returned the bytes of its range. -/
def Returns (objects : FileName → Bytes) (i : Nat) (key : Key) (s : Fetches) : Prop :=
  ∃ s', Reaches (Fetches.step objects) (fun _ _ => True) s s' ∧
    s'.fetches[i]? = some ⟨key, .returned (.ok (objectRange objects key))⟩

theorem Returns.of_step {i : Nat} {key : Key} (act : FetchAct) (h : Returns objects i key s')
    (hs : s.step objects act = some s') : Returns objects i key s := by
  obtain ⟨t, hreach, ht⟩ := h
  exact ⟨t, ((Reaches.refl s).tail act trivial hs).trans hreach, ht⟩

theorem Transparent.returns_of_read (h : Transparent objects maxBytes s) {i : Nat} {key : Key}
    {bytes : Bytes} (hi : s.fetches[i]? = some ⟨key, .read bytes⟩) : Returns objects i key s := by
  have hbytes := h.holds _ (List.mem_of_getElem? hi) bytes (.inl rfl)
  have hr : RangeFetch.step objects s.cache ⟨key, .read bytes⟩ (.insert i) = some _ := rfl
  obtain ⟨s', hs, hi'⟩ := Fetches.carryOn_of_step (.insert i) hi hr
  refine Returns.of_step (.insert i) ⟨s', .refl s', ?_⟩ hs
  rw [hi', hbytes]

theorem Transparent.returns_of_missed (h : Transparent objects maxBytes s) {i : Nat} {key : Key}
    (hi : s.fetches[i]? = some ⟨key, .missed⟩) : Returns objects i key s := by
  obtain ⟨s', hs, hi'⟩ := Fetches.carryOn_of_step (.getRange i false) hi rfl
  have hnext := h.step (.getRange i false) hs
  exact (hnext.returns_of_read hi').of_step (.getRange i false) hs

theorem Transparent.returns_of_called (h : Transparent objects maxBytes s) {i : Nat} {key : Key}
    (hi : s.fetches[i]? = some ⟨key, .called⟩) : Returns objects i key s := by
  cases hget : s.cache.get key with
  | mk hit cache =>
      cases hit with
      | some hit =>
          have hr : RangeFetch.step objects s.cache ⟨key, .called⟩ (.lookup i) =
              some (cache, ⟨key, .returned (.ok hit)⟩) := by
            simp only [RangeFetch.step, hget]
          obtain ⟨s', hs, hi'⟩ := Fetches.carryOn_of_step (.lookup i) hi hr
          refine Returns.of_step (.lookup i) ⟨s', .refl s', ?_⟩ hs
          rw [hi', h.mirrors.hit_eq hget]
      | none =>
          have hr : ∃ cache', RangeFetch.step objects s.cache ⟨key, .called⟩ (.lookup i) =
              some (cache', ⟨key, .missed⟩) := by
            simp only [RangeFetch.step, hget]
            exact ⟨_, rfl⟩
          obtain ⟨cache', hr⟩ := hr
          obtain ⟨s', hs, hi'⟩ := Fetches.carryOn_of_step (.lookup i) hi hr
          have hnext := h.step (.lookup i) hs
          exact (hnext.returns_of_missed hi').of_step (.lookup i) hs

/-- **Progress**: a waiting fetch can return, with the bytes of its range. -/
theorem Transparent.returns (h : Transparent objects maxBytes s) {i : Nat} {f : RangeFetch}
    (hi : s.fetches[i]? = some f) (hw : f.stage.Waiting) : Returns objects i f.key s := by
  obtain ⟨key, stage⟩ := f
  cases stage with
  | called => exact h.returns_of_called hi
  | missed => exact h.returns_of_missed hi
  | read bytes => exact h.returns_of_read hi
  | returned result => exact hw.elim
  | dropped => exact hw.elim

/-! ## the cache as an LRU list -/

/-- The two maps are inverse to each other, no tick is given twice, and the count
is the sum of the cached lengths and within the budget. -/
structure Consistent (maxBytes : Nat) (inner : Inner) : Prop where
  inverse : ∀ (t : Nat) (k : Key),
    inner.byRecency[t]? = some k ↔ ∃ bytes, inner.entries[k]? = some (bytes, t)
  distinct : ∀ (k k' : Key) bytes bytes' t, inner.entries[k]? = some (bytes, t) →
    inner.entries[k']? = some (bytes', t) → k = k'
  resident : inner.resident = inner.cachedBytes
  budget : inner.resident ≤ maxBytes

theorem Transparent.consistent (h : Transparent objects maxBytes s) :
    Consistent maxBytes s.cache.inner := by
  obtain ⟨l, hl, -⟩ := h.mirrors
  refine ⟨hl.lists.inverse, ?_, ?_, h.maxBytes ▸ hl.budget⟩
  · intro k k' bytes bytes' t hk hk'
    have hkey := (hl.lists.inverse t k).mpr ⟨bytes, hk⟩
    have hkey' := (hl.lists.inverse t k').mpr ⟨bytes', hk'⟩
    rw [hkey] at hkey'
    exact Option.some.inj hkey'
  · rw [hl.resident, hl.lists.cachedBytes_eq]

/-- An insert that is admitted drops the shortest cold end of the other ranges
that makes room, and adds the range at the warm end. -/
def EvictsColdest (maxBytes : Nat) (key : Key) (bytes : Bytes) (before after : List (Key × Bytes)) :
    Prop :=
  ∃ evicted kept, Lru.others key before = evicted ++ kept ∧ after = kept ++ [(key, bytes)] ∧
    held kept + bytes.length ≤ maxBytes ∧
    ∀ evicted' kept', Lru.others key before = evicted' ++ kept' →
      held kept' + bytes.length ≤ maxBytes → evicted.length ≤ evicted'.length

/-- The insert of a fetch, as the LRU list sees it. -/
theorem Transparent.insert_lru (h : Transparent objects maxBytes s) {i : Nat}
    (hs : s.step objects (.insert i) = some s') :
    ∃ key bytes, s.fetches[i]? = some ⟨key, .read bytes⟩ ∧
      (maxBytes < bytes.length → s'.cache.inner = s.cache.inner) ∧
      (bytes.length ≤ maxBytes →
        EvictsColdest maxBytes key bytes s.cache.inner.lru s'.cache.inner.lru) := by
  obtain ⟨f, r, hf, hr, rfl⟩ := Fetches.carryOn_eq_some.mp hs
  obtain ⟨key, stage⟩ := f
  have hmax := h.maxBytes
  subst hmax
  cases stage with
  | read bytes =>
      have hbytes := h.holds _ (List.mem_of_getElem? hf) bytes (.inl rfl)
      simp only [RangeFetch.step, Option.some.injEq] at hr
      subst hr
      refine ⟨key, bytes, hf, fun hlarge => ?_, fun hsize => ?_⟩
      · have hsame : (s.cache.countFetched bytes).insert key bytes = s.cache.countFetched bytes :=
          ByteCache.insert_of_lt key hlarge
        simp only [hsame]
        rfl
      · simp only at hbytes
        subst hbytes
        have hlru := (h.mirrors.countFetched (objectRange objects key)).lru_insert key
        obtain ⟨evicted, kept, hsplit, hnew, hfits, hshort⟩ :=
          Lru.insert_evicts List.length key s.cache.inner.lru hsize
        exact ⟨evicted, kept, hsplit, hlru.trans hnew, hfits, hshort⟩
  | _ => simp [RangeFetch.step] at hr

/-- The lookup of a fetch, as the LRU list sees it. -/
theorem Transparent.lookup_lru (h : Transparent objects maxBytes s) {i : Nat}
    (hs : s.step objects (.lookup i) = some s') :
    ∃ key, s.fetches[i]? = some ⟨key, .called⟩ ∧
      s'.cache.inner.lru = Lru.touch key s.cache.inner.lru := by
  obtain ⟨f, r, hf, hr, rfl⟩ := Fetches.carryOn_eq_some.mp hs
  obtain ⟨key, stage⟩ := f
  cases stage with
  | called =>
      have hlru := h.mirrors.lru_get key
      refine ⟨key, hf, ?_⟩
      simp only [RangeFetch.step] at hr
      split at hr
      · next hget =>
          rw [hget] at hlru
          simp only [Option.some.injEq] at hr
          subst hr
          exact hlru
      · next hget =>
          rw [hget] at hlru
          simp only [Option.some.injEq] at hr
          subst hr
          exact hlru
  | _ => simp [RangeFetch.step] at hr

/-- **The cache is a transparent bounded LRU**, whatever the order in which the
lookups, store reads and inserts of concurrent fetches come. -/
theorem fetchRange_transparent
    (h : Reaches (Fetches.step objects) (fun _ _ => True) (Fetches.new maxBytes) s) :
    (∀ f ∈ s.fetches, ∀ bytes, f.stage = .returned (.ok bytes) →
      bytes = objectRange objects f.key) ∧
    (∀ (i : Nat) f, s.fetches[i]? = some f → f.stage.Waiting → Returns objects i f.key s) ∧
    Consistent maxBytes s.cache.inner ∧
    (∀ i s', s.step objects (.lookup i) = some s' →
      ∃ key, s.fetches[i]? = some ⟨key, .called⟩ ∧
        s'.cache.inner.lru = Lru.touch key s.cache.inner.lru) ∧
    (∀ i s', s.step objects (.insert i) = some s' →
      ∃ key bytes, s.fetches[i]? = some ⟨key, .read bytes⟩ ∧
        (maxBytes < bytes.length → s'.cache.inner = s.cache.inner) ∧
        (bytes.length ≤ maxBytes →
          EvictsColdest maxBytes key bytes s.cache.inner.lru s'.cache.inner.lru)) := by
  have ht := transparent_of_reaches h
  exact ⟨fun f hf bytes hret => ht.holds f hf bytes (.inr hret),
    fun i f hi hw => ht.returns hi hw, ht.consistent,
    fun i s' hs => ht.lookup_lru hs, fun i s' hs => ht.insert_lru hs⟩

end

/-- Two fetches of one range that both miss and both insert. -/
theorem fetchRange_transparent_twice :
    ∃ s, Reaches (Fetches.step fun _ => [1, 2, 3, 4]) (fun _ _ => True) (Fetches.new 10) s ∧
      s.cache.snapshot = ⟨0, 2, 6, 0, 3⟩ ∧
      (∀ f ∈ s.fetches, ∀ bytes, f.stage = .returned (.ok bytes) →
        bytes = objectRange (fun _ => [1, 2, 3, 4]) f.key) ∧
      Consistent 10 s.cache.inner := by
  have hrun : ∃ s, Reaches (Fetches.step fun _ => [1, 2, 3, 4]) (fun _ _ => True)
      (Fetches.new 10) s ∧ s.cache.snapshot = ⟨0, 2, 6, 0, 3⟩ :=
    exists_reaches_of_attempt _
      [.call ['a'] 1 4, .call ['a'] 1 4, .lookup 0, .lookup 1, .getRange 0 false,
        .getRange 1 false, .insert 0, .insert 1] (by decide +kernel)
  obtain ⟨s, hreach, hsnap⟩ := hrun
  obtain ⟨hbytes, -, hcons, -⟩ := fetchRange_transparent hreach
  exact ⟨s, hreach, hsnap, hbytes, hcons⟩

end HolyGrail.Cache
