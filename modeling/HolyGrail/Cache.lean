import HolyGrail.Lru
import HolyGrail.OrdMap
import HolyGrail.Record

/-!
# HolyGrail.Cache

The byte cache behind the Parquet reader (`cache.rs`): a bytes-bounded LRU over
byte ranges of objects.

The cache keeps two maps.  `entries` binds a range to its bytes and a recency
tick, `byRecency` binds the tick to the range, and the victim of an eviction is
the range of the lowest tick.  `resident` counts the bytes held, by saturating
subtraction.  Ticks and byte counts are natural numbers: no run is long enough
to wrap a `u64` that only counts up, and no cache holds 2^63 bytes.

Listed by tick, the cached ranges are a weighted LRU list (`HolyGrail.Lru`), and
`get` and `insert` are its `touch` and `insert` as long as the byte count is
right.  `evict_balance` is what an eviction does to the count in any case.
-/

namespace HolyGrail.Cache

open Std (ExtTreeMap)

/-! ## keys -/

/-- A byte range of an object. -/
structure Key where
  path : FileName
  start : Nat
  end_ : Nat
  deriving DecidableEq, Repr

namespace Key

instance : Ord Key where
  compare := compareLex (compareOn path) (compareLex (compareOn start) (compareOn end_))

instance : Std.TransOrd Key :=
  inferInstanceAs (Std.TransCmp (compareLex (compareOn path)
    (compareLex (compareOn start) (compareOn end_))))

instance : Std.LawfulEqOrd Key where
  eq_of_compare {a b} h := by
    change compareLex _ _ a b = .eq at h
    simp only [compareLex_eq_eq, compareOn, Std.compare_eq_iff_eq] at h
    cases a
    cases b
    simpa using h

end Key

/-! ## the cache -/

structure CacheStats where
  hits : Nat
  misses : Nat
  bytesFetched : Nat
  evictions : Nat
  deriving DecidableEq, Repr

structure CacheStatsSnapshot where
  hits : Nat
  misses : Nat
  bytesFetched : Nat
  evictions : Nat
  bytesResident : Nat
  deriving DecidableEq, Repr

/-- What the mutex guards.  `clipped` records that a saturating subtraction has
met a smaller `resident`; no operation looks at it. -/
structure Inner where
  /-- Range to its bytes and recency tick. -/
  entries : ExtTreeMap Key (Bytes × Nat)
  /-- Recency tick to range. -/
  byRecency : ExtTreeMap Nat Key
  resident : Nat
  tick : Nat
  clipped : Bool

/-- Take `n` bytes off the count: `resident -= n.min(resident)`. -/
def Inner.release (inner : Inner) (n : Nat) : Inner :=
  { inner with
    resident := inner.resident - min n inner.resident
    clipped := inner.clipped || decide (inner.resident < n) }

/-- A bytes-bounded LRU over byte ranges of Parquet objects. -/
structure ByteCache where
  inner : Inner
  maxBytes : Nat
  stats : CacheStats

namespace ByteCache

def new (maxBytes : Nat) : ByteCache where
  inner := { entries := ∅, byRecency := ∅, resident := 0, tick := 0, clipped := false }
  maxBytes := maxBytes
  stats := ⟨0, 0, 0, 0⟩

/-- Give a range the next tick and bind it to its bytes. -/
def remember (inner : Inner) (key : Key) (bytes : Bytes) : Inner :=
  { inner with
    tick := inner.tick + 1
    byRecency := inner.byRecency.insert (inner.tick + 1) key
    entries := inner.entries.insert key (bytes, inner.tick + 1) }

/-- Look a range up and make it the most recently used one. -/
def get (cache : ByteCache) (key : Key) : Option Bytes × ByteCache :=
  match cache.inner.entries[key]? with
  | none => (none, cache)
  | some (bytes, oldTick) =>
      (some bytes, { cache with
        inner := remember
          { cache.inner with byRecency := cache.inner.byRecency.erase oldTick } key bytes
        stats := { cache.stats with hits := cache.stats.hits + 1 } })

/-- The `while` loop of `insert`: evict the coldest ranges until `size` more bytes
fit, or nothing is left. -/
def evict (size : Nat) (cache : ByteCache) : ByteCache :=
  if cache.maxBytes < cache.inner.resident + size then
    match _h : OrdMap.popFirst cache.inner.byRecency with
    | none => cache
    | some ((_, victim), byRecency) =>
        match cache.inner.entries[victim]? with
        | none => evict size { cache with inner := { cache.inner with byRecency := byRecency } }
        | some (evicted, _) =>
            evict size { cache with
              inner := Inner.release
                { cache.inner with
                  byRecency := byRecency
                  entries := cache.inner.entries.erase victim } evicted.length
              stats := { cache.stats with evictions := cache.stats.evictions + 1 } }
  else cache
termination_by cache.inner.byRecency.size
decreasing_by all_goals exact OrdMap.size_of_popFirst _h

/-- Forget a range that is about to be inserted with `size` bytes.  The count goes
down by the size of the new bytes. -/
def forget (inner : Inner) (key : Key) (size : Nat) : Inner :=
  match inner.entries[key]? with
  | none => inner
  | some (_, oldTick) =>
      Inner.release
        { inner with
          entries := inner.entries.erase key
          byRecency := inner.byRecency.erase oldTick } size

/-- Remember a range that fits, and count its bytes. -/
def place (cache : ByteCache) (key : Key) (bytes : Bytes) : ByteCache :=
  { cache with
    inner := { remember cache.inner key bytes with
      resident := cache.inner.resident + bytes.length } }

/-- Cache the bytes of a range.  A range larger than the whole cache is refused. -/
def insert (cache : ByteCache) (key : Key) (bytes : Bytes) : ByteCache :=
  if cache.maxBytes < bytes.length then cache
  else
    let cache := { cache with inner := forget cache.inner key bytes.length }
    place (evict bytes.length cache) key bytes

def snapshot (cache : ByteCache) : CacheStatsSnapshot where
  hits := cache.stats.hits
  misses := cache.stats.misses
  bytesFetched := cache.stats.bytesFetched
  evictions := cache.stats.evictions
  bytesResident := cache.inner.resident

end ByteCache

/-! ## the ranges in recency order -/

/-- The cached ranges, the least recently used one first. -/
def Inner.lru (inner : Inner) : List (Key × Bytes) :=
  inner.byRecency.toList.filterMap fun b => inner.entries[b.2]?.map fun e => (b.2, e.1)

/-- The bytes that are in fact cached. -/
def Inner.cachedBytes (inner : Inner) : Nat :=
  (inner.entries.toList.map fun e => e.2.1.length).sum

/-- Total length of a list of cached ranges. -/
abbrev held (bs : List (Key × Bytes)) : Nat := Lru.weight List.length bs

/-- Both maps hold the ticks, ranges and bytes of `l`, in the order of the ticks. -/
structure Lists (inner : Inner) (l : List (Nat × Key × Bytes)) : Prop where
  recency : inner.byRecency.toList = l.map fun e => (e.1, e.2.1)
  entries : ∀ k bs t, inner.entries[k]? = some (bs, t) ↔ (t, k, bs) ∈ l
  ticks : ∀ e ∈ l, e.1 ≤ inner.tick

namespace Lists

variable {inner : Inner} {l : List (Nat × Key × Bytes)}

theorem ticks_nodup (h : Lists inner l) : (l.map Prod.fst).Nodup := by
  have hnd := OrdMap.nodup_toList inner.byRecency
  rwa [h.recency, List.map_map] at hnd

theorem nodup (h : Lists inner l) : l.Nodup := h.ticks_nodup.of_map

/-- A range is listed once. -/
theorem eq_of_key (h : Lists inner l) {e e' : Nat × Key × Bytes} (he : e ∈ l) (he' : e' ∈ l)
    (hk : e.2.1 = e'.2.1) : e = e' := by
  obtain ⟨t, k, bs⟩ := e
  obtain ⟨t', k', bs'⟩ := e'
  have h₁ := (h.entries k bs t).mpr he
  have h₂ := (h.entries k' bs' t').mpr he'
  simp only at hk
  subst hk
  simp_all

/-- A tick is given once. -/
theorem eq_of_tick (h : Lists inner l) {e e' : Nat × Key × Bytes} (he : e ∈ l) (he' : e' ∈ l)
    (ht : e.1 = e'.1) : e = e' := List.inj_on_of_nodup_map h.ticks_nodup he he' ht

theorem byRecency_iff (h : Lists inner l) (t : Nat) (k : Key) :
    inner.byRecency[t]? = some k ↔ ∃ bs, (t, k, bs) ∈ l := by
  rw [← OrdMap.mem_toList, h.recency]
  simp

/-- **The maps are inverse to each other.** -/
theorem inverse (h : Lists inner l) (t : Nat) (k : Key) :
    inner.byRecency[t]? = some k ↔ ∃ bs, inner.entries[k]? = some (bs, t) := by
  rw [h.byRecency_iff]
  simp only [h.entries]

theorem lru_eq (h : Lists inner l) : inner.lru = l.map Prod.snd := by
  have hlook : ∀ e ∈ l, (inner.entries[e.2.1]?.map fun x => (e.2.1, x.1)) = some e.2 := by
    intro e he
    rw [(h.entries e.2.1 e.2.2 e.1).mpr he]
    rfl
  rw [Inner.lru, h.recency, List.filterMap_map]
  exact (List.filterMap_congr hlook).trans (congrFun (List.filterMap_eq_map (f := Prod.snd)) l)

/-- The list holds what the map holds. -/
theorem cachedBytes_eq (h : Lists inner l) : inner.cachedBytes = held (l.map Prod.snd) := by
  have hperm : inner.entries.toList.Perm (l.map fun e => (e.2.1, e.2.2, e.1)) := by
    have hnd : (l.map fun e => (e.2.1, e.2.2, e.1)).Nodup := by
      refine h.nodup.map ?_
      intro e e' he
      simp only [Prod.mk.injEq] at he
      grind
    rw [List.perm_ext_iff_of_nodup (OrdMap.nodup_toList inner.entries).of_map hnd]
    intro b
    obtain ⟨k, bs, t⟩ := b
    rw [OrdMap.mem_toList, h.entries]
    simp
  rw [Inner.cachedBytes, (hperm.map _).sum_nat, held, Lru.weight_eq_sum, List.map_map, List.map_map]
  rfl

theorem keys_nodup (h : Lists inner l) : ((l.map Prod.snd).map Prod.fst).Nodup := by
  rw [List.map_map]
  exact h.nodup.map_on fun e he e' he' hk => h.eq_of_key he he' hk

/-- Looking a range up in the list finds what the map binds it to. -/
theorem lookup_eq (h : Lists inner l) (k : Key) :
    (l.map Prod.snd).lookup k = inner.entries[k]?.map Prod.fst := by
  cases hk : inner.entries[k]? with
  | some b =>
      have hmem := (h.entries k b.1 b.2).mp hk
      exact Lru.lookup_eq_some h.keys_nodup (List.mem_map_of_mem hmem)
  | none =>
      refine Lru.lookup_eq_none fun b hb hbk => ?_
      obtain ⟨e, he, rfl⟩ := List.mem_map.mp hb
      have hsome := (h.entries e.2.1 e.2.2 e.1).mpr he
      rw [hbk, hk] at hsome
      contradiction

theorem entries_eq_none (h : Lists inner l) {k : Key} (hk : ∀ e ∈ l, e.2.1 ≠ k) :
    inner.entries[k]? = none := by
  rw [OrdMap.getElem?_eq_none_iff, OrdMap.mem_iff_exists]
  intro ⟨b, hb⟩
  exact hk _ ((h.entries k b.1 b.2).mp hb) rfl

theorem filter_of_none (h : Lists inner l) {k : Key} (hk : inner.entries[k]? = none) :
    (l.filter fun e => e.2.1 ≠ k) = l := by
  rw [List.filter_eq_self]
  intro e he
  have hsome := (h.entries e.2.1 e.2.2 e.1).mpr he
  have hne : e.2.1 ≠ k := by
    intro heq
    rw [heq, hk] at hsome
    contradiction
  simp [hne]

/-! ### one step of the lists -/

/-- Taking a range out of both maps takes it out of the list. -/
theorem erase (h : Lists inner l) {k : Key} {bs : Bytes} {t : Nat}
    (hk : inner.entries[k]? = some (bs, t)) :
    Lists { inner with
        entries := inner.entries.erase k
        byRecency := inner.byRecency.erase t } (l.filter fun e => e.2.1 ≠ k) := by
  have hmem := (h.entries k bs t).mp hk
  constructor
  case recency =>
    rw [OrdMap.toList_erase, h.recency, List.filter_map]
    congr 1
    refine List.filter_congr fun e he => ?_
    have hiff : e.1 = t ↔ e.2.1 = k :=
      ⟨fun ht => by rw [h.eq_of_tick he hmem ht], fun hk' => by rw [h.eq_of_key he hmem hk']⟩
    simp [hiff]
  case entries =>
    intro k' bs' t'
    rw [OrdMap.getElem?_erase, List.mem_filter, ← h.entries]
    by_cases hkk : k = k' <;> simp [hkk, Ne.symm]
  case ticks => exact fun e he => h.ticks e (List.mem_of_mem_filter he)

/-- A range that is not cached joins the warm end. -/
theorem remember (h : Lists inner l) {k : Key} (hk : inner.entries[k]? = none) (bs : Bytes) :
    Lists (ByteCache.remember inner k bs) (l ++ [(inner.tick + 1, k, bs)]) := by
  constructor
  case recency =>
    rw [ByteCache.remember, OrdMap.toList_insert_last, h.recency, List.map_append]
    · rfl
    · intro t ht
      obtain ⟨k', hk'⟩ := OrdMap.mem_iff_exists.mp ht
      obtain ⟨bs', hmem⟩ := (h.byRecency_iff t k').mp hk'
      have hle := h.ticks _ hmem
      exact Nat.compare_eq_lt.mpr (by simp only at hle; omega)
  case entries =>
    intro k' bs' t'
    simp only [ByteCache.remember]
    rw [OrdMap.getElem?_insert, List.mem_append, List.mem_singleton, ← h.entries]
    by_cases hkk : k = k'
    · subst hkk
      simp [hk]
      grind
    · simp [hkk, Ne.symm hkk]
  case ticks =>
    intro e he
    rw [List.mem_append, List.mem_singleton] at he
    cases he with
    | inl he => exact (h.ticks e he).trans (Nat.le_succ _)
    | inr he => simp [he, ByteCache.remember]

end Lists

/-! ## evictions -/

namespace ByteCache

/-- The cache after the eviction of one range. -/
def without (cache : ByteCache) (e : Nat × Key × Bytes) : ByteCache :=
  { cache with
    inner := Inner.release
      { cache.inner with
        byRecency := cache.inner.byRecency.erase e.1
        entries := cache.inner.entries.erase e.2.1 } e.2.2.length
    stats := { cache.stats with evictions := cache.stats.evictions + 1 } }

theorem without_resident (cache : ByteCache) (e : Nat × Key × Bytes) :
    (cache.without e).inner.resident =
      cache.inner.resident - min e.2.2.length cache.inner.resident := rfl

theorem without_clipped (cache : ByteCache) (e : Nat × Key × Bytes) :
    (cache.without e).inner.clipped = false ↔
      cache.inner.clipped = false ∧ e.2.2.length ≤ cache.inner.resident := by
  simp [without, Inner.release]

/-- Nothing is evicted while the new bytes fit. -/
theorem evict_of_le {size : Nat} {cache : ByteCache}
    (h : cache.inner.resident + size ≤ cache.maxBytes) : evict size cache = cache := by
  rw [evict, if_neg (by omega)]

theorem evict_nil (size : Nat) {cache : ByteCache} (h : Lists cache.inner []) :
    evict size cache = cache := by
  have hpop : OrdMap.popFirst cache.inner.byRecency = none :=
    OrdMap.popFirst_eq_none.mpr h.recency
  rw [evict]
  split
  · split
    · rfl
    · simp_all
  · rfl

/-- **One round of the loop** evicts the coldest range. -/
theorem evict_cons {size : Nat} {cache : ByteCache} {e : Nat × Key × Bytes}
    {l : List (Nat × Key × Bytes)} (h : Lists cache.inner (e :: l))
    (hfull : cache.maxBytes < cache.inner.resident + size) :
    evict size cache = evict size (cache.without e) ∧ Lists (cache.without e).inner l := by
  have hentry : cache.inner.entries[e.2.1]? = some (e.2.2, e.1) :=
    (h.entries e.2.1 e.2.2 e.1).mpr (by simp)
  have hlist := h.erase hentry
  have hl : (e :: l).filter (fun x => x.2.1 ≠ e.2.1) = l := by
    have hnot : e ∉ l := (List.nodup_cons.mp h.nodup).1
    rw [List.filter_cons_of_neg (by simp), List.filter_eq_self]
    intro x hx
    have hne : x.2.1 ≠ e.2.1 := by
      intro hk
      have heq := h.eq_of_key (List.mem_cons_of_mem _ hx) (by simp) hk
      exact hnot (heq ▸ hx)
    simp [hne]
  rw [hl] at hlist
  refine ⟨?_, hlist.recency, hlist.entries, hlist.ticks⟩
  rw [evict, if_pos hfull]
  split
  · next hpop =>
      have hnil := OrdMap.popFirst_eq_none.mp hpop
      rw [h.recency] at hnil
      contradiction
  · next hpop =>
      obtain ⟨hrest, hlst⟩ := OrdMap.popFirst_eq_some hpop
      rw [h.recency, List.map_cons] at hlst
      obtain ⟨hhead, -⟩ := List.cons.inj hlst
      simp only [Prod.mk.injEq] at hhead
      obtain ⟨rfl, rfl⟩ := hhead
      simp only at hrest
      simp only [hentry, hrest]
      rfl

@[simp] theorem evict_maxBytes (size : Nat) (cache : ByteCache) :
    (evict size cache).maxBytes = cache.maxBytes := by
  fun_induction evict size cache with
  | case1 => rfl
  | case2 _ _ _ _ _ _ _ ih => exact ih
  | case3 _ _ _ _ _ _ _ _ _ ih => exact ih
  | case4 => rfl

/-- **Evictions in any case**: a cold end goes.  Either a subtraction has clipped,
or the count went down by what was dropped. -/
theorem evict_balance (size : Nat) (cache : ByteCache) {l : List (Nat × Key × Bytes)}
    (h : Lists cache.inner l) :
    ∃ kept, kept <:+ l ∧ Lists (evict size cache).inner kept ∧
      ((evict size cache).inner.clipped = false → cache.inner.clipped = false ∧
        (evict size cache).inner.resident + held (l.map Prod.snd) =
          cache.inner.resident + held (kept.map Prod.snd)) := by
  induction l generalizing cache with
  | nil =>
      rw [evict_nil size h]
      exact ⟨[], List.suffix_rfl, h, fun hc => ⟨hc, rfl⟩⟩
  | cons e l ih =>
      by_cases hfull : cache.maxBytes < cache.inner.resident + size
      · obtain ⟨heq, hl⟩ := evict_cons h hfull
        obtain ⟨kept, hkept, hlists, hbal⟩ := ih _ hl
        rw [heq]
        refine ⟨kept, hkept.trans (List.suffix_cons e l), hlists, fun hc => ?_⟩
        obtain ⟨hc', hres⟩ := hbal hc
        obtain ⟨hclip, hle⟩ := (without_clipped cache e).mp hc'
        rw [without_resident] at hres
        simp only [List.map_cons, held, Lru.weight] at hres ⊢
        exact ⟨hclip, by omega⟩
      · rw [evict_of_le (by omega)]
        exact ⟨e :: l, List.suffix_rfl, h, fun hc => ⟨hc, rfl⟩⟩

/-- **Evictions of a cache whose count is right**: the list makes room, and the
count stays right. -/
theorem evict_exact {size : Nat} (cache : ByteCache) {l : List (Nat × Key × Bytes)}
    (h : Lists cache.inner l) (hres : cache.inner.resident = held (l.map Prod.snd))
    (hc : cache.inner.clipped = false) (hsize : size ≤ cache.maxBytes) :
    ∃ kept, Lists (evict size cache).inner kept ∧
      kept.map Prod.snd =
        Lru.makeRoom List.length (cache.maxBytes - size) (l.map Prod.snd) ∧
      (evict size cache).inner.resident = held (kept.map Prod.snd) ∧
      (evict size cache).inner.clipped = false := by
  induction l generalizing cache with
  | nil =>
      rw [evict_nil size h]
      exact ⟨[], h, rfl, hres, hc⟩
  | cons e l ih =>
      by_cases hfull : cache.maxBytes < cache.inner.resident + size
      · obtain ⟨heq, hl⟩ := evict_cons h hfull
        have hsum : cache.inner.resident = e.2.2.length + held (l.map Prod.snd) := hres
        have hres' : (cache.without e).inner.resident = held (l.map Prod.snd) := by
          rw [without_resident]
          omega
        have hc' : (cache.without e).inner.clipped = false :=
          (without_clipped cache e).mpr ⟨hc, by omega⟩
        obtain ⟨kept, hlists, hroom, hrest⟩ := ih _ hl hres' hc' hsize
        have hskip : ¬ held (e.2 :: l.map Prod.snd) ≤ cache.maxBytes - size := by
          rw [List.map_cons] at hres
          omega
        rw [heq]
        refine ⟨kept, hlists, ?_, hrest⟩
        rw [hroom, List.map_cons, Lru.makeRoom, if_neg hskip]
        rfl
      · have hfits : held (e.2 :: l.map Prod.snd) ≤ cache.maxBytes - size := by
          rw [List.map_cons] at hres
          omega
        rw [evict_of_le (by omega)]
        refine ⟨e :: l, h, ?_, hres, hc⟩
        rw [List.map_cons, Lru.makeRoom, if_pos hfits]

/-! ## lookups and inserts -/

/-- The labelled list without a range, as the LRU list without it. -/
theorem map_filter_key (k : Key) (l : List (Nat × Key × Bytes)) :
    (l.filter fun e => e.2.1 ≠ k).map Prod.snd = Lru.others k (l.map Prod.snd) := by
  rw [Lru.others, List.filter_map]
  rfl

/-- Forgetting a range leaves the others. -/
theorem forget_lists {inner : Inner} {l : List (Nat × Key × Bytes)} (h : Lists inner l) (k : Key)
    (size : Nat) : Lists (forget inner k size) (l.filter fun e => e.2.1 ≠ k) := by
  rw [forget]
  cases hk : inner.entries[k]? with
  | none => rwa [h.filter_of_none hk]
  | some b =>
      have hlist := h.erase hk
      exact ⟨hlist.recency, hlist.entries, hlist.ticks⟩

/-- **A hit makes the range the most recently used one.** -/
theorem get_hit {cache : ByteCache} {l : List (Nat × Key × Bytes)} (h : Lists cache.inner l)
    {k : Key} {bs : Bytes} {t : Nat} (hk : cache.inner.entries[k]? = some (bs, t)) :
    Lists (get cache k).2.inner
      ((l.filter fun e => e.2.1 ≠ k) ++ [(cache.inner.tick + 1, k, bs)]) := by
  have hlist := h.erase hk
  have hnone := hlist.entries_eq_none (k := k) (by simp)
  have hnew := hlist.remember hnone bs
  have heq : (cache.inner.entries.erase k).insert k (bs, cache.inner.tick + 1) =
      cache.inner.entries.insert k (bs, cache.inner.tick + 1) := by
    refine ExtTreeMap.ext_getElem? fun a => ?_
    rw [OrdMap.getElem?_insert, OrdMap.getElem?_insert, OrdMap.getElem?_erase]
    split <;> simp_all
  rw [remember] at hnew
  simp only [heq] at hnew
  rw [get, hk]
  exact hnew

@[simp] theorem get_maxBytes (cache : ByteCache) (k : Key) :
    (get cache k).2.maxBytes = cache.maxBytes := by
  rw [get]
  split <;> rfl

/-- A range larger than the whole cache changes nothing. -/
theorem insert_of_lt {cache : ByteCache} {bytes : Bytes} (k : Key)
    (h : cache.maxBytes < bytes.length) : insert cache k bytes = cache := by
  rw [insert, if_pos h]

@[simp] theorem insert_maxBytes (cache : ByteCache) (k : Key) (bytes : Bytes) :
    (insert cache k bytes).maxBytes = cache.maxBytes := by
  rw [insert]
  split
  · rfl
  · rw [place, evict_maxBytes]

/-- The count after the bytes of the range itself are taken off. -/
theorem forget_count {inner : Inner} {k : Key} {old : Bytes} {t : Nat} (size : Nat)
    (hk : inner.entries[k]? = some (old, t)) :
    (forget inner k size).resident = inner.resident - min size inner.resident ∧
      ((forget inner k size).clipped = false ↔ inner.clipped = false ∧ size ≤ inner.resident) := by
  rw [forget, hk]
  simp [Inner.release]

theorem forget_of_none {inner : Inner} {k : Key} (size : Nat) (hk : inner.entries[k]? = none) :
    forget inner k size = inner := by
  rw [forget, hk]

/-- A list that has only other ranges goes on with the one inserted. -/
theorem place_lists {cache : ByteCache} {l kept : List (Nat × Key × Bytes)} {k : Key}
    (h : Lists cache.inner kept)
    (hkept : kept.map Prod.snd <:+ (l.filter fun e => e.2.1 ≠ k).map Prod.snd) (bytes : Bytes) :
    Lists (place cache k bytes).inner (kept ++ [(cache.inner.tick + 1, k, bytes)]) := by
  have hnone : cache.inner.entries[k]? = none := by
    refine h.entries_eq_none fun e he => ?_
    have hmem := hkept.mem (List.mem_map_of_mem he)
    rw [map_filter_key, Lru.others, List.mem_filter] at hmem
    simpa using hmem.2
  have hnew := h.remember hnone bytes
  exact ⟨hnew.recency, hnew.entries, hnew.ticks⟩

end ByteCache

/-- A cache whose count is right, over the ranges it lists. -/
structure Exact (cache : ByteCache) (l : List (Nat × Key × Bytes)) : Prop where
  lists : Lists cache.inner l
  resident : cache.inner.resident = held (l.map Prod.snd)
  budget : cache.inner.resident ≤ cache.maxBytes
  clipped : cache.inner.clipped = false

namespace Exact

variable {cache : ByteCache} {l : List (Nat × Key × Bytes)}

theorem new (maxBytes : Nat) : Exact (ByteCache.new maxBytes) [] where
  lists := ⟨rfl, by simp [ByteCache.new], by simp⟩
  resident := rfl
  budget := Nat.zero_le _
  clipped := rfl

theorem withStats (h : Exact cache l) (stats : CacheStats) :
    Exact { cache with stats := stats } l := ⟨h.lists, h.resident, h.budget, h.clipped⟩

/-- What the other ranges hold. -/
theorem held_others (h : Exact cache l) {k : Key} {old : Bytes} {t : Nat}
    (hk : cache.inner.entries[k]? = some (old, t)) :
    held (Lru.others k (l.map Prod.snd)) + old.length = cache.inner.resident := by
  have hmem := List.mem_map_of_mem (f := Prod.snd) ((h.lists.entries k old t).mp hk)
  rw [h.resident]
  exact Lru.weight_others _ h.lists.keys_nodup hmem

/-- **Lookups** follow `touch`, and leave the count alone. -/
theorem get (h : Exact cache l) (k : Key) :
    ∃ l', Exact (cache.get k).2 l' ∧ l'.map Prod.snd = Lru.touch k (l.map Prod.snd) := by
  rw [Lru.touch, h.lists.lookup_eq]
  cases hk : cache.inner.entries[k]? with
  | none =>
      rw [ByteCache.get, hk]
      exact ⟨l, h, rfl⟩
  | some b =>
      have hlists := ByteCache.get_hit h.lists hk
      have hbytes := h.held_others hk
      have hget : (cache.get k).2.inner.resident = cache.inner.resident ∧
          (cache.get k).2.maxBytes = cache.maxBytes ∧
          (cache.get k).2.inner.clipped = cache.inner.clipped := by
        rw [ByteCache.get, hk]
        exact ⟨rfl, rfl, rfl⟩
      obtain ⟨hres, hmax, hclip⟩ := hget
      refine ⟨_, ⟨hlists, ?_, ?_, ?_⟩, ?_⟩
      · rw [hres, List.map_append, ByteCache.map_filter_key, held, Lru.weight_append]
        exact hbytes.symm
      · rw [hres, hmax]
        exact h.budget
      · rw [hclip]
        exact h.clipped
      · rw [List.map_append, ByteCache.map_filter_key]
        rfl

/-- To forget a range takes off the bytes it has, if those to come are as many. -/
theorem forget_exact (h : Exact cache l) (k : Key) (bytes : Bytes)
    (hsame : ∀ old t, cache.inner.entries[k]? = some (old, t) → bytes.length = old.length) :
    (ByteCache.forget cache.inner k bytes.length).resident =
        held ((l.filter fun e => e.2.1 ≠ k).map Prod.snd) ∧
      (ByteCache.forget cache.inner k bytes.length).clipped = false := by
  cases hk : cache.inner.entries[k]? with
  | none =>
      rw [ByteCache.forget_of_none _ hk, h.lists.filter_of_none hk]
      exact ⟨h.resident, h.clipped⟩
  | some b =>
      have hbytes := h.held_others hk
      have hlen := hsame b.1 b.2 hk
      obtain ⟨hcount, hclip⟩ := ByteCache.forget_count bytes.length hk
      rw [ByteCache.map_filter_key, hcount]
      exact ⟨by omega, hclip.mpr ⟨h.clipped, by omega⟩⟩

/-- **Inserts** follow the LRU insert, unless a cached range is given bytes of
another length. -/
theorem insert (h : Exact cache l) (k : Key) (bytes : Bytes)
    (hsame : ∀ old t, cache.inner.entries[k]? = some (old, t) → bytes.length = old.length) :
    ∃ l', Exact (cache.insert k bytes) l' ∧
      l'.map Prod.snd = Lru.insert List.length cache.maxBytes k bytes (l.map Prod.snd) := by
  rw [Lru.insert]
  by_cases hlarge : cache.maxBytes < bytes.length
  · rw [ByteCache.insert_of_lt k hlarge, if_pos hlarge]
    exact ⟨l, h, rfl⟩
  · have hsize : bytes.length ≤ cache.maxBytes := by omega
    have hlists := ByteCache.forget_lists h.lists k bytes.length
    obtain ⟨hres, hclip⟩ := h.forget_exact k bytes hsame
    obtain ⟨kept, hkept, hroom, hres', hclip'⟩ :=
      ByteCache.evict_exact { cache with inner := ByteCache.forget cache.inner k bytes.length }
        hlists hres hclip hsize
    have hsuffix : kept.map Prod.snd <:+ (l.filter fun e => e.2.1 ≠ k).map Prod.snd := by
      rw [hroom]
      exact Lru.makeRoom_suffix _ _ _
    have hnew := ByteCache.place_lists hkept hsuffix bytes
    have hle := Lru.weight_makeRoom_le List.length (cache.maxBytes - bytes.length)
      ((l.filter fun e => e.2.1 ≠ k).map Prod.snd)
    rw [← hroom] at hle
    rw [ByteCache.insert, if_neg hlarge, if_neg hlarge]
    refine ⟨_, ⟨hnew, ?_, ?_, hclip'⟩, ?_⟩
    · rw [ByteCache.place, hres', List.map_append, held, held, Lru.weight_append]
      rfl
    · rw [ByteCache.place, ByteCache.evict_maxBytes, hres', held]
      simp only
      omega
    · rw [List.map_append, hroom, ByteCache.map_filter_key]
      rfl

/-- **A cached range given bytes of another length** leaves the count wrong, or
has made a subtraction clip. -/
theorem insert_drift (h : Exact cache l) {k : Key} {bytes old : Bytes} {t : Nat}
    (hk : cache.inner.entries[k]? = some (old, t)) (hsize : bytes.length ≤ cache.maxBytes)
    (hne : bytes.length ≠ old.length) :
    (cache.insert k bytes).inner.clipped = true ∨
      (cache.insert k bytes).inner.resident ≠ (cache.insert k bytes).inner.cachedBytes := by
  have hbytes := h.held_others hk
  obtain ⟨hcount, hclip⟩ := ByteCache.forget_count bytes.length hk
  have hlists := ByteCache.forget_lists h.lists k bytes.length
  obtain ⟨kept, hsuffix, hkept, hbal⟩ :=
    ByteCache.evict_balance bytes.length
      { cache with inner := ByteCache.forget cache.inner k bytes.length } hlists
  have hnew := ByteCache.place_lists hkept (hsuffix.map Prod.snd) bytes
  rw [ByteCache.insert, if_neg (by omega), hnew.cachedBytes_eq, List.map_append, held,
    Lru.weight_append]
  cases hc : (ByteCache.evict bytes.length
      { cache with inner := ByteCache.forget cache.inner k bytes.length }).inner.clipped with
  | true => exact .inl hc
  | false =>
      obtain ⟨hc', hres⟩ := hbal hc
      have hle := (hclip.mp hc').2
      rw [ByteCache.map_filter_key, hcount] at hres
      refine .inr fun heq => hne ?_
      simp only [ByteCache.place, List.map_cons, List.map_nil, Lru.weight] at heq
      simp only [held] at hres hbytes
      omega

end Exact

end HolyGrail.Cache
