import HolyGrail.Cache.Fetch
import HolyGrail.Lru.Trace

/-!
# HolyGrail.Cache.Sweep

The cache size as the variable of the benchmark: the same fetches, one after the
other, through caches of different sizes.

`fetchRange` is a `fetch_range` that no other one interrupts, and it is a request
of the LRU list (`fetchRange_serves`).  The trace theorems of `HolyGrail.Lru.Trace`
then say what the sweep measures:

* `larger_cache_misses_no_more` — the curve falls with the cache size;
* `working_set_resident` — a cache that evicts nothing holds the working set
  (`working_set_warms` for fetches at once);
* `turns_hit_or_miss` — reads in turn hit always or never.
-/

namespace HolyGrail.Cache

section
variable (objects : FileName → Bytes)

/-- `RangeFetcher::fetch_range`, when no other fetch comes in between. -/
def ByteCache.fetchRange (cache : ByteCache) (key : Key) : Bytes × ByteCache :=
  match cache.get key with
  | (some hit, cache) => (hit, cache)
  | (none, cache) =>
      let bytes := objectRange objects key
      (bytes, (cache.countMiss.countFetched bytes).insert key bytes)

/-- Fetches one after the other. -/
def ByteCache.fetchAll (cache : ByteCache) (trace : List Key) : ByteCache :=
  trace.foldl (fun cache key => (cache.fetchRange objects key).2) cache

end

variable {objects : FileName → Bytes} {cache cache' : ByteCache}

/-- A step of the fetch that came last. -/
theorem carryOn_last {fetches : List RangeFetch} {f f' : RangeFetch} {act : FetchAct}
    (hr : f.step objects cache act = some (cache', f')) :
    Fetches.carryOn objects ⟨cache, fetches ++ [f]⟩ fetches.length act =
      some ⟨cache', fetches ++ [f']⟩ := by
  simp [Fetches.carryOn, hr]

/-- It is a run of the concurrent system. -/
theorem fetchRange_reaches (cache : ByteCache) (fetches : List RangeFetch) (key : Key) :
    Reaches (Fetches.step objects) (fun _ _ => True) ⟨cache, fetches⟩
      ⟨(cache.fetchRange objects key).2,
        fetches ++ [⟨key, .returned (.ok (cache.fetchRange objects key).1)⟩]⟩ := by
  have hcall : Reaches (Fetches.step objects) (fun _ _ => True) ⟨cache, fetches⟩
      ⟨cache, fetches ++ [⟨key, .called⟩]⟩ :=
    (Reaches.refl _).tail (.call key.path key.start key.end_) trivial rfl
  rw [ByteCache.fetchRange]
  split
  · next hit cache₁ hget =>
      exact hcall.tail (.lookup fetches.length) trivial
        (carryOn_last (by simp only [RangeFetch.step, hget]))
  · next cache₁ hget =>
      have hmissed : Reaches (Fetches.step objects) (fun _ _ => True) ⟨cache, fetches⟩
          ⟨cache₁.countMiss, fetches ++ [⟨key, .missed⟩]⟩ :=
        hcall.tail (.lookup fetches.length) trivial
          (carryOn_last (by simp only [RangeFetch.step, hget]))
      have hread : Reaches (Fetches.step objects) (fun _ _ => True) ⟨cache, fetches⟩
          ⟨cache₁.countMiss, fetches ++ [⟨key, .read (objectRange objects key)⟩]⟩ :=
        hmissed.tail (.getRange fetches.length false) trivial (carryOn_last rfl)
      exact hread.tail (.insert fetches.length) trivial (carryOn_last rfl)

/-! ## fetches as requests -/

/-- The cache lists ranges once, with their bytes in the store. -/
theorem Mirrors.caches (h : Mirrors objects cache) :
    Lru.Caches (objectRange objects) cache.inner.lru := by
  obtain ⟨l, hl, hbytes⟩ := h
  rw [hl.lists.lru_eq]
  exact ⟨hl.lists.keys_nodup, hbytes⟩

theorem Mirrors.lookup_lru (h : Mirrors objects cache) (key : Key) :
    cache.inner.lru.lookup key = cache.inner.entries[key]?.map Prod.fst := by
  obtain ⟨l, hl, -⟩ := h
  rw [hl.lists.lru_eq, hl.lists.lookup_eq]

theorem Mirrors.resident_eq (h : Mirrors objects cache) :
    cache.inner.resident = held cache.inner.lru := by
  obtain ⟨l, hl, -⟩ := h
  rw [hl.lists.lru_eq, hl.resident]

/-- A range is cached or not. -/
theorem Mirrors.get_cases (h : Mirrors objects cache) (key : Key) :
    (key ∈ cache.inner.lru.map Prod.fst ∧
      (cache.get key).1 = some (objectRange objects key) ∧
      (cache.get key).2.stats = { cache.stats with hits := cache.stats.hits + 1 }) ∨
    (key ∉ cache.inner.lru.map Prod.fst ∧ cache.inner.entries[key]? = none ∧
      cache.get key = (none, cache)) := by
  have hlookup := h.lookup_lru key
  cases hk : cache.inner.entries[key]? with
  | none =>
      rw [hk, Option.map_none, List.lookup_eq_none_iff] at hlookup
      refine .inr ⟨fun hmem => ?_, rfl, by rw [ByteCache.get, hk]⟩
      obtain ⟨b, hb, rfl⟩ := List.mem_map.mp hmem
      simpa using hlookup b hb
  | some e =>
      obtain ⟨bytes, t⟩ := e
      rw [hk, Option.map_some, List.lookup_eq_some_iff] at hlookup
      obtain ⟨xs, ys, hlru, -⟩ := hlookup
      refine .inl ⟨by rw [hlru]; simp, ?_, ?_⟩
      · rw [ByteCache.get, hk, ← h.bytes_eq hk]
      · rw [ByteCache.get, hk]

/-- An eviction counts evictions only. -/
theorem ByteCache.evict_stats (size : Nat) (cache : ByteCache) :
    ∃ n, (evict size cache).stats = { cache.stats with evictions := n } := by
  fun_induction evict size cache with
  | case1 => exact ⟨_, rfl⟩
  | case2 _ _ _ _ _ _ _ ih => exact ih
  | case3 _ _ _ _ _ _ _ _ _ ih => exact ih
  | case4 => exact ⟨_, rfl⟩

theorem ByteCache.insert_stats (cache : ByteCache) (key : Key) (bytes : Bytes) :
    ∃ n, (cache.insert key bytes).stats = { cache.stats with evictions := n } := by
  rw [insert]
  split
  · exact ⟨_, rfl⟩
  · exact evict_stats _ _

/-- What an eviction counts is what it drops. -/
theorem ByteCache.evict_count (size : Nat) (cache : ByteCache) {l : List (Nat × Key × Bytes)}
    (h : Lists cache.inner l) :
    ∃ kept, kept <:+ l ∧ Lists (evict size cache).inner kept ∧
      (evict size cache).stats.evictions + kept.length = cache.stats.evictions + l.length := by
  induction l generalizing cache with
  | nil =>
      rw [evict_nil size h]
      exact ⟨[], List.suffix_rfl, h, rfl⟩
  | cons e l ih =>
      by_cases hfull : cache.maxBytes < cache.inner.resident + size
      · obtain ⟨heq, hl⟩ := evict_cons h hfull
        obtain ⟨kept, hsuffix, hlists, hcount⟩ := ih _ hl
        refine ⟨kept, hsuffix.trans (List.suffix_cons e l), heq ▸ hlists, ?_⟩
        have hwithout : (cache.without e).stats.evictions = cache.stats.evictions + 1 := rfl
        rw [heq, hcount, hwithout, List.length_cons]
        omega
      · rw [evict_of_le (by omega)]
        exact ⟨e :: l, List.suffix_rfl, h, rfl⟩

theorem Lists.length_lru {inner : Inner} {l : List (Nat × Key × Bytes)} (h : Lists inner l) :
    inner.lru.length = l.length := by
  rw [h.lru_eq, List.length_map]

/-- What an insert of a range that is not cached counts. -/
theorem ByteCache.insert_count {cache : ByteCache} {l : List (Nat × Key × Bytes)}
    (h : Lists cache.inner l) {key : Key} (hk : cache.inner.entries[key]? = none) {bytes : Bytes}
    (hsize : bytes.length ≤ cache.maxBytes) :
    (cache.insert key bytes).stats.evictions + (cache.insert key bytes).inner.lru.length =
      cache.stats.evictions + cache.inner.lru.length + 1 := by
  obtain ⟨kept, hsuffix, hkept, hcount⟩ := evict_count bytes.length cache h
  have hfilter := h.filter_of_none hk
  have hnew := place_lists hkept (l := l) (by rw [hfilter]; exact hsuffix.map Prod.snd) bytes
  rw [insert, if_neg (by omega), forget_of_none _ hk, hnew.length_lru, h.length_lru,
    List.length_append, List.length_singleton, ← hcount]
  rfl

/-- What fetches one after the other do: the cache serves the trace as an LRU list,
and counts its hits, its misses and the bytes of the misses. -/
structure Serves (objects : FileName → Bytes) (cache cache' : ByteCache) (trace : List Key) :
    Prop where
  mirrors : Mirrors objects cache'
  maxBytes : cache'.maxBytes = cache.maxBytes
  lru : cache'.inner.lru =
    Lru.serve List.length cache.maxBytes (objectRange objects) cache.inner.lru trace
  misses : cache'.stats.misses = cache.stats.misses +
    (Lru.missed List.length cache.maxBytes (objectRange objects) cache.inner.lru trace).length
  hits : cache'.stats.hits + cache'.stats.misses =
    cache.stats.hits + cache.stats.misses + trace.length
  fetched : cache'.stats.bytesFetched = cache.stats.bytesFetched +
    held (Lru.bind (objectRange objects)
      (Lru.missed List.length cache.maxBytes (objectRange objects) cache.inner.lru trace))
  evictions : cache'.stats.evictions + cache'.inner.lru.length =
    cache.stats.evictions + cache.inner.lru.length +
      ((Lru.missed List.length cache.maxBytes (objectRange objects) cache.inner.lru trace).filter
        fun key => (objectRange objects key).length ≤ cache.maxBytes).length

/-- **A fetch is a request**, and returns the bytes of its range. -/
theorem fetchRange_serves (h : Mirrors objects cache) (key : Key) :
    (cache.fetchRange objects key).1 = objectRange objects key ∧
      Serves objects cache (cache.fetchRange objects key).2 [key] := by
  have hget := h.get key
  have hlru := h.lru_get key
  have hmax := ByteCache.get_maxBytes cache key
  rcases h.get_cases key with ⟨hmem, hhit, hstats⟩ | ⟨hmem, hnone, hmiss⟩
  · have hfetch : cache.fetchRange objects key =
        (objectRange objects key, (cache.get key).2) := by
      rw [ByteCache.fetchRange]
      split
      · next hit cache₁ heq =>
          rw [heq] at hhit ⊢
          rw [← Option.some.inj hhit]
      · next cache₁ heq =>
          rw [heq] at hhit
          contradiction
    rw [hfetch]
    refine ⟨rfl, hget, hmax, ?_, ?_, ?_, ?_, ?_⟩
    · rw [hlru]
      exact (Lru.request_eq_touch _ h.caches hmem).symm
    · rw [hstats, Lru.missed, if_pos hmem]
      rfl
    · rw [hstats]
      simp only [List.length_singleton]
      omega
    · rw [hstats, Lru.missed, if_pos hmem]
      rfl
    · rw [hstats, hlru, Lru.length_touch h.caches, Lru.missed, if_pos hmem]
      rfl
  · have hfetch : cache.fetchRange objects key = (objectRange objects key,
        (cache.countMiss.countFetched (objectRange objects key)).insert key
          (objectRange objects key)) := by
      rw [ByteCache.fetchRange, hmiss]
    obtain ⟨n, hstats⟩ := ByteCache.insert_stats
      (cache.countMiss.countFetched (objectRange objects key)) key (objectRange objects key)
    have hm := h.countMiss.countFetched (objectRange objects key)
    rw [hfetch]
    refine ⟨rfl, hm.insert key, by rw [ByteCache.insert_maxBytes]; rfl, ?_, ?_, ?_, ?_, ?_⟩
    · rw [hm.lru_insert key]
      exact (Lru.request_eq_insert _ hmem).symm
    · rw [hstats, Lru.missed, if_neg hmem]
      rfl
    · rw [hstats]
      simp only [ByteCache.countFetched, ByteCache.countMiss, List.length_singleton]
      omega
    · rw [hstats, Lru.missed, if_neg hmem]
      rfl
    · rw [Lru.missed, if_neg hmem]
      by_cases hsize : (objectRange objects key).length ≤ cache.maxBytes
      · obtain ⟨l, hl, -⟩ := hm
        have hcount := ByteCache.insert_count hl.lists hnone hsize
        rw [hcount, List.filter_cons_of_pos (by simpa using hsize)]
        rfl
      · rw [ByteCache.insert_of_lt key (by
            simp only [ByteCache.countFetched, ByteCache.countMiss]; omega),
          List.filter_cons_of_neg (by simpa using hsize)]
        rfl

theorem Serves.nil (h : Mirrors objects cache) : Serves objects cache cache [] :=
  ⟨h, rfl, rfl, rfl, rfl, rfl, rfl⟩

theorem Serves.trans {cache'' : ByteCache} {xs ys : List Key} (h : Serves objects cache cache' xs)
    (h' : Serves objects cache' cache'' ys) : Serves objects cache cache'' (xs ++ ys) where
  mirrors := h'.mirrors
  maxBytes := h'.maxBytes.trans h.maxBytes
  lru := by rw [h'.lru, h.lru, h.maxBytes, Lru.serve_append]
  misses := by
    rw [h'.misses, h.misses, h.maxBytes, h.lru, Lru.missed_append, List.length_append,
      Nat.add_assoc]
  hits := by
    rw [h'.hits, h.hits, List.length_append, Nat.add_assoc]
  fetched := by
    rw [h'.fetched, h.fetched, h.maxBytes, h.lru, Lru.missed_append, Nat.add_assoc,
      ← Lru.weight_append]
    rw [Lru.bind, Lru.bind, Lru.bind, List.map_append]
  evictions := by
    rw [h'.evictions, h.evictions, h.maxBytes, h.lru, Lru.missed_append, List.filter_append,
      List.length_append, Nat.add_assoc]

/-- **A trace of fetches is a trace of requests.** -/
theorem fetchAll_serves (h : Mirrors objects cache) (trace : List Key) :
    Serves objects cache (cache.fetchAll objects trace) trace := by
  induction trace generalizing cache with
  | nil => exact .nil h
  | cons key trace ih =>
      have hfirst := (fetchRange_serves h key).2
      exact hfirst.trans (ih hfirst.mirrors)

/-- Only a miss that is admitted can evict. -/
theorem Serves.evictions_le {trace : List Key} (h : Serves objects cache cache' trace) :
    cache'.stats.evictions + cache'.inner.lru.length ≤
      cache.stats.evictions + cache.inner.lru.length +
        (Lru.missed List.length cache.maxBytes (objectRange objects) cache.inner.lru
          trace).length := by
  rw [h.evictions]
  exact Nat.add_le_add_left (List.length_filter_le _ _) _

theorem Mirrors.new (objects : FileName → Bytes) (maxBytes : Nat) :
    Mirrors objects (ByteCache.new maxBytes) :=
  ⟨[], Exact.new maxBytes, by simp⟩

/-- A trace through a new cache. -/
theorem fetchAll_new (objects : FileName → Bytes) (maxBytes : Nat) (trace : List Key) :
    let cache := (ByteCache.new maxBytes).fetchAll objects trace
    let missed := Lru.missed List.length maxBytes (objectRange objects) [] trace
    cache.stats.misses = missed.length ∧ cache.stats.hits + missed.length = trace.length ∧
      cache.stats.bytesFetched = held (Lru.bind (objectRange objects) missed) ∧
      cache.inner.lru = Lru.serve List.length maxBytes (objectRange objects) [] trace := by
  have h := fetchAll_serves (Mirrors.new objects maxBytes) trace
  have hlru : (ByteCache.new maxBytes).inner.lru = [] := rfl
  have hmisses := h.misses
  have hhits := h.hits
  have hfetched := h.fetched
  have hserve := h.lru
  rw [hlru] at hmisses hfetched hserve
  simp only [ByteCache.new, Nat.zero_add] at hmisses hhits hfetched hserve
  rw [hmisses] at hhits
  exact ⟨hmisses, hhits, hfetched, hserve⟩

/-! ## the sweep -/

/-- **A larger cache never misses more.**  The same fetches, one after the other,
through two caches the smaller of which can hold each range on its own: the larger
one misses no more, fetches no more bytes, and in the end holds what the smaller
one holds. -/
theorem larger_cache_misses_no_more (objects : FileName → Bytes) {small large : Nat}
    (hle : small ≤ large) {trace : List Key}
    (hfit : ∀ key ∈ trace, (objectRange objects key).length ≤ small) :
    let s := (ByteCache.new small).fetchAll objects trace
    let l := (ByteCache.new large).fetchAll objects trace
    l.stats.misses ≤ s.stats.misses ∧ s.stats.hits ≤ l.stats.hits ∧
      l.stats.bytesFetched ≤ s.stats.bytesFetched ∧ s.inner.lru <:+ l.inner.lru := by
  have hempty := Lru.Caches.nil (objectRange objects)
  have hmissed := Lru.missed_sublist List.length hle hempty hempty List.suffix_rfl hfit
  have hheld := Lru.serve_suffix List.length hle hempty hempty List.suffix_rfl hfit
  obtain ⟨hsm, hsh, hsf, hsl⟩ := fetchAll_new objects small trace
  obtain ⟨hlm, hlh, hlf, hll⟩ := fetchAll_new objects large trace
  have hmisses := hmissed.length_le
  refine ⟨by omega, by omega, ?_, ?_⟩
  · rw [hsf, hlf]
    exact Lru.weight_bind_sublist _ hmissed
  · rw [hsl, hll]
    exact hheld

/-- Two caches of two and of three ranges, over a trace of five fetches. -/
theorem larger_cache_misses_no_more_small :
    let trace : List Key := [⟨['a'], 0, 1⟩, ⟨['a'], 1, 2⟩, ⟨['a'], 2, 3⟩, ⟨['a'], 0, 1⟩,
      ⟨['a'], 2, 3⟩]
    let s := (ByteCache.new 2).fetchAll (fun _ => [1, 2, 3]) trace
    let l := (ByteCache.new 3).fetchAll (fun _ => [1, 2, 3]) trace
    s.stats.misses = 4 ∧ l.stats.misses = 3 ∧ l.stats.misses ≤ s.stats.misses := by
  refine ⟨by decide +kernel, by decide +kernel, ?_⟩
  exact (larger_cache_misses_no_more (fun _ => [1, 2, 3]) (by decide) (by decide +kernel)).1

/-- A range that only the larger cache can hold may cost it two others. -/
example :
    let trace : List Key := [⟨['a'], 0, 1⟩, ⟨['a'], 1, 2⟩, ⟨['a'], 0, 3⟩, ⟨['a'], 0, 1⟩,
      ⟨['a'], 1, 2⟩]
    ((ByteCache.new 2).fetchAll (fun _ => [1, 2, 3]) trace).stats.misses = 3 ∧
      ((ByteCache.new 3).fetchAll (fun _ => [1, 2, 3]) trace).stats.misses = 5 := by
  decide +kernel

/-- **The resident bytes are the working set.**  Fetches that fit the cache together
miss each range once and evict nothing, and what is resident afterwards is each
range once. -/
theorem working_set_resident (objects : FileName → Bytes) {maxBytes : Nat} {trace : List Key}
    (hfits : held (Lru.bind (objectRange objects) trace.dedup) ≤ maxBytes) :
    ((ByteCache.new maxBytes).fetchAll objects trace).snapshot =
      { hits := trace.length - trace.dedup.length
        misses := trace.dedup.length
        bytesFetched := held (Lru.bind (objectRange objects) trace.dedup)
        evictions := 0
        bytesResident := held (Lru.bind (objectRange objects) trace.dedup) } := by
  have hsub : trace ⊆ trace.dedup := fun key hkey => List.mem_dedup.mpr hkey
  have hperm := Lru.missed_of_fits List.length hsub hfits
  have hserve := Lru.serve_of_fits List.length hsub hfits
  have h := fetchAll_serves (Mirrors.new objects maxBytes) trace
  obtain ⟨hmisses, hhits, hfetched, hlru⟩ := fetchAll_new objects maxBytes trace
  have hres := h.mirrors.resident_eq
  have hev := h.evictions_le
  rw [hserve] at hlru
  rw [hlru] at hres hev
  rw [hperm.length_eq] at hmisses hhits
  rw [held, Lru.weight_bind_perm _ _ hperm] at hfetched
  have hlength : (Lru.bind (objectRange objects) trace.dedup).length = trace.dedup.length :=
    List.length_map _
  have hnone : ((ByteCache.new maxBytes).fetchAll objects trace).stats.evictions = 0 := by
    have hempty : (ByteCache.new maxBytes).inner.lru = [] := rfl
    rw [hempty, hlength] at hev
    simp only [ByteCache.new, List.length_nil] at hev ⊢
    rw [hperm.length_eq] at hev
    omega
  have hhit : ((ByteCache.new maxBytes).fetchAll objects trace).stats.hits =
      trace.length - trace.dedup.length := by omega
  rw [ByteCache.snapshot, hmisses, hhit, hfetched, hnone, hres]

/-- Five fetches of two ranges through a cache that just holds them. -/
theorem working_set_resident_two :
    ((ByteCache.new 3).fetchAll (fun _ => [1, 2, 3]) [⟨['a'], 0, 1⟩, ⟨['a'], 1, 3⟩,
      ⟨['a'], 0, 1⟩, ⟨['a'], 0, 1⟩, ⟨['a'], 1, 3⟩]).snapshot =
        { hits := 3, misses := 2, bytesFetched := 3, evictions := 0, bytesResident := 3 } :=
  working_set_resident (fun _ => [1, 2, 3]) (by decide +kernel)

/-- **What was fetched stays, if it fits.**  Whatever a cache held before: after
fetches that fit it together, fetches of the same ranges all hit, in any order and
number. -/
theorem warm_fetches_hit {maxBytes : Nat} {s : Fetches}
    (h : Reaches (Fetches.step objects) (fun _ _ => True) (Fetches.new maxBytes) s)
    {trace again : List Key}
    (hfits : held (Lru.bind (objectRange objects) trace.dedup) ≤ maxBytes)
    (hagain : again ⊆ trace) :
    let warm := s.cache.fetchAll objects trace
    let after := warm.fetchAll objects again
    after.stats.hits = warm.stats.hits + again.length ∧ after.stats.misses = warm.stats.misses ∧
      after.stats.bytesFetched = warm.stats.bytesFetched := by
  have ht := transparent_of_reaches h
  have hwarm := fetchAll_serves ht.mirrors trace
  have hafter := fetchAll_serves hwarm.mirrors again
  have hsub : trace ⊆ trace.dedup := fun key hkey => List.mem_dedup.mpr hkey
  rw [← ht.maxBytes] at hfits
  have hresident := Lru.serve_warm List.length ht.mirrors.caches hsub hfits
  rw [← hwarm.lru] at hresident
  have hall : ∀ key ∈ again, key ∈ (s.cache.fetchAll objects trace).inner.lru.map Prod.fst := by
    intro key hkey
    have hmem : key ∈ (Lru.bind (objectRange objects) trace.dedup).map Prod.fst := by
      rw [Lru.keys_bind]
      exact List.mem_dedup.mpr (hagain hkey)
    exact (hresident.map Prod.fst).mem hmem
  have hnone := Lru.missed_of_resident List.length
    (s.cache.fetchAll objects trace).maxBytes hwarm.mirrors.caches hall
  have hmisses := hafter.misses
  have hhits := hafter.hits
  have hfetched := hafter.fetched
  rw [hnone] at hmisses hfetched
  simp only [List.length_nil, Nat.add_zero] at hmisses
  exact ⟨by omega, hmisses, hfetched⟩

/-- Two ranges fetched into a new cache, then three times again. -/
theorem warm_fetches_hit_two :
    let s := Fetches.new 3
    let warm := s.cache.fetchAll (fun _ => [1, 2, 3]) [⟨['a'], 0, 1⟩, ⟨['a'], 1, 3⟩]
    let after := warm.fetchAll (fun _ => [1, 2, 3])
      [⟨['a'], 1, 3⟩, ⟨['a'], 0, 1⟩, ⟨['a'], 1, 3⟩]
    after.stats.hits = warm.stats.hits + 3 ∧ after.stats.misses = warm.stats.misses ∧
      after.stats.bytesFetched = warm.stats.bytesFetched :=
  warm_fetches_hit (.refl _) (by decide +kernel) (by decide)

/-- **Reads in turn hit always or never.**  After a first pass over distinct ranges,
each of which the cache can hold on its own, fetches that go on in turn all hit if it
can hold the ranges together.  If it cannot, each of them misses, however little it
lacks. -/
theorem turns_hit_or_miss (objects : FileName → Bytes) {maxBytes : Nat} {hot : List Key}
    (hnd : hot.Nodup) (hne : hot ≠ [])
    (hfit : ∀ key ∈ hot, (objectRange objects key).length ≤ maxBytes) (n : Nat) :
    let warm := (ByteCache.new maxBytes).fetchAll objects hot
    let after := warm.fetchAll objects (Lru.inTurn hot n)
    if held (Lru.bind (objectRange objects) hot) ≤ maxBytes then
      after.stats.hits = warm.stats.hits + n ∧ after.stats.misses = warm.stats.misses
    else
      after.stats.hits = warm.stats.hits ∧ after.stats.misses = warm.stats.misses + n := by
  intro warm after
  have hwarm : Serves objects (ByteCache.new maxBytes) warm hot :=
    fetchAll_serves (Mirrors.new objects maxBytes) hot
  have hafter : Serves objects warm after (Lru.inTurn hot n) :=
    fetchAll_serves hwarm.mirrors (Lru.inTurn hot n)
  have hturns := Lru.missed_inTurn List.length hnd hfit n
  have hlength := Lru.length_inTurn hne n
  have hmisses := hafter.misses
  have hhits := hafter.hits
  have hempty : (ByteCache.new maxBytes).inner.lru = [] := rfl
  have hmax : (ByteCache.new maxBytes).maxBytes = maxBytes := rfl
  rw [hwarm.lru, hwarm.maxBytes, hempty, hmax, hturns] at hmisses
  rw [hlength] at hhits
  split
  · next hall =>
      rw [held] at hall
      rw [if_pos hall, List.length_nil, Nat.add_zero] at hmisses
      exact ⟨by omega, hmisses⟩
  · next hover =>
      rw [held] at hover
      rw [if_neg hover, hlength] at hmisses
      exact ⟨by omega, hmisses⟩

/-- Two ranges of three bytes in turn, through a cache of two. -/
theorem turns_hit_or_miss_two :
    let hot : List Key := [⟨['a'], 0, 1⟩, ⟨['a'], 1, 3⟩]
    let warm := (ByteCache.new 2).fetchAll (fun _ => [1, 2, 3]) hot
    let after := warm.fetchAll (fun _ => [1, 2, 3]) (Lru.inTurn hot 7)
    after.stats.hits = warm.stats.hits ∧ after.stats.misses = warm.stats.misses + 7 := by
  have h := @turns_hit_or_miss (fun _ => [1, 2, 3]) 2 [⟨['a'], 0, 1⟩, ⟨['a'], 1, 3⟩]
    (by decide) (by decide) (by decide +kernel) 7
  rwa [if_neg (by decide +kernel)] at h

/-! ## fetches at once -/

/-- The ranges a cache holds. -/
def ByteCache.cached (cache : ByteCache) : List Key := cache.inner.lru.map Prod.fst

theorem Mirrors.mem_cached_get (h : Mirrors objects cache) (key key' : Key) :
    key' ∈ (cache.get key).2.cached ↔ key' ∈ cache.cached := by
  rw [ByteCache.cached, h.lru_get, Lru.mem_keys_touch]
  rfl

/-- A range that is cached hits. -/
theorem Mirrors.get_of_cached (h : Mirrors objects cache) {key : Key} (hk : key ∈ cache.cached) :
    (cache.get key).1 = some (objectRange objects key) := by
  rcases h.get_cases key with ⟨-, hhit, -⟩ | ⟨hnot, -, -⟩
  · exact hhit
  · exact absurd hk hnot

/-- A cache of ranges of a set that fits. -/
structure Fits (objects : FileName → Bytes) (hot : List Key) (cache : ByteCache) : Prop where
  mirrors : Mirrors objects cache
  cached : ∀ key ∈ cache.cached, key ∈ hot
  fits : held (Lru.bind (objectRange objects) hot) ≤ cache.maxBytes
  evictions : cache.stats.evictions = 0

namespace Fits

variable {hot : List Key}

theorem withStats (h : Fits objects hot cache) {stats : CacheStats} (hev : stats.evictions = 0) :
    Fits objects hot { cache with stats := stats } := by
  obtain ⟨l, hl, hbytes⟩ := h.mirrors
  exact ⟨⟨l, hl.withStats stats, hbytes⟩, h.cached, h.fits, hev⟩

/-- **A hit** changes the order only. -/
theorem get (h : Fits objects hot cache) {key : Key} {hit : Bytes}
    (hget : cache.get key = (some hit, cache')) :
    Fits objects hot cache' ∧ (∀ key', key' ∈ cache'.cached ↔ key' ∈ cache.cached) ∧
      key ∈ cache'.cached := by
  have hmem := h.mirrors.mem_cached_get key
  have hmirrors := h.mirrors.get key
  have hmax := ByteCache.get_maxBytes cache key
  rcases h.mirrors.get_cases key with ⟨hcached, -, hstats⟩ | ⟨-, -, hmiss⟩
  · rw [hget] at hmem hmirrors hmax hstats
    refine ⟨⟨hmirrors, fun key' hkey' => h.cached key' ((hmem key').mp hkey'), ?_, ?_⟩, hmem, ?_⟩
    · rw [hmax]
      exact h.fits
    · rw [hstats]
      exact h.evictions
    · exact (hmem key).mpr hcached
  · rw [hget] at hmiss
    simp at hmiss

/-- What the others hold leaves room for one more. -/
theorem room (h : Fits objects hot cache) {key : Key} (hk : key ∈ hot) :
    held (Lru.others key cache.inner.lru) + (objectRange objects key).length ≤ cache.maxBytes := by
  have hall := (h.mirrors.caches.warmest key).weight_le List.length hot
    fun key' hkey' => (Lru.mem_keys_warmest.mp hkey').elim (h.cached key') fun he => he ▸ hk
  rw [Lru.weight_concat] at hall
  exact hall.trans h.fits

/-- **An insert of one of them** evicts nothing. -/
theorem insert (h : Fits objects hot cache) {key : Key} (hk : key ∈ hot) :
    Fits objects hot (cache.insert key (objectRange objects key)) ∧
      ∀ key', key' ∈ (cache.insert key (objectRange objects key)).cached ↔
        key' ∈ cache.cached ∨ key' = key := by
  have hlru := h.mirrors.lru_insert key
  rw [Lru.insert_of_fits List.length h.mirrors.caches h.cached hk h.fits] at hlru
  have hmem : ∀ key', key' ∈ (cache.insert key (objectRange objects key)).cached ↔
      key' ∈ cache.cached ∨ key' = key := by
    intro key'
    rw [ByteCache.cached, hlru, Lru.mem_keys_warmest]
    rfl
  refine ⟨⟨h.mirrors.insert key, fun key' hkey' => ?_, ?_, ?_⟩, hmem⟩
  · exact ((hmem key').mp hkey').elim (h.cached key') fun he => he ▸ hk
  · rw [ByteCache.insert_maxBytes]
    exact h.fits
  · have hroom := h.room hk
    have hsame := h.mirrors.sameLength key
    obtain ⟨l, hl, -⟩ := h.mirrors
    have hforget := (hl.forget_exact key _ hsame).1
    rw [hl.lists.lru_eq, ← ByteCache.map_filter_key, ← hforget] at hroom
    have hevict := @ByteCache.evict_of_le (objectRange objects key).length { cache with
      inner := ByteCache.forget cache.inner key (objectRange objects key).length } hroom
    rw [ByteCache.insert, if_neg (by omega)]
    simp only [hevict]
    exact h.evictions

/-- **Step** of a fetch of one of them: nothing is evicted, nothing that was cached is
lost, and a fetch that returns leaves its range cached. -/
theorem step (h : Fits objects hot cache) {f f' : RangeFetch} {act : FetchAct}
    (hk : f.key ∈ hot) (hf : f.Holds objects)
    (hstep : f.step objects cache act = some (cache', f')) :
    Fits objects hot cache' ∧ (∀ key ∈ cache.cached, key ∈ cache'.cached) ∧
      ∀ bytes, f'.stage = .returned (.ok bytes) → f.key ∈ cache'.cached := by
  obtain ⟨key, stage⟩ := f
  cases act with
  | call => simp [RangeFetch.step] at hstep
  | lookup =>
      cases stage with
      | called =>
          simp only [RangeFetch.step] at hstep
          split at hstep
          · next hit cache₁ hget =>
              simp only [Option.some.injEq, Prod.mk.injEq] at hstep
              obtain ⟨rfl, rfl⟩ := hstep
              obtain ⟨hfits, hmem, hhit⟩ := h.get hget
              exact ⟨hfits, fun key' hkey' => (hmem key').mpr hkey', fun _ _ => hhit⟩
          · next cache₁ hget =>
              simp only [Option.some.injEq, Prod.mk.injEq] at hstep
              obtain ⟨rfl, rfl⟩ := hstep
              rcases h.mirrors.get_cases key with ⟨-, hhit, -⟩ | ⟨-, -, hmiss⟩
              · rw [hget] at hhit
                contradiction
              · obtain rfl : cache₁ = cache := (Prod.mk.inj (hget.symm.trans hmiss)).2
                exact ⟨h.withStats h.evictions, fun key' hkey' => hkey', by simp⟩
      | _ => simp [RangeFetch.step] at hstep
  | getRange i fails =>
      cases stage with
      | missed =>
          simp only [RangeFetch.step, Option.some.injEq, Prod.mk.injEq] at hstep
          obtain ⟨rfl, rfl⟩ := hstep
          refine ⟨h, fun key hkey => hkey, fun bytes hret => ?_⟩
          cases fails <;> simp at hret
      | _ => simp [RangeFetch.step] at hstep
  | insert =>
      cases stage with
      | read bytes =>
          obtain rfl : bytes = objectRange objects key := hf bytes (.inl rfl)
          simp only [RangeFetch.step, Option.some.injEq, Prod.mk.injEq] at hstep
          obtain ⟨rfl, rfl⟩ := hstep
          have hcount : Fits objects hot (cache.countFetched (objectRange objects key)) :=
            h.withStats h.evictions
          obtain ⟨hinsert, hmem⟩ := hcount.insert hk
          exact ⟨hinsert, fun key' hkey' => (hmem key').mpr (.inl hkey'),
            fun _ _ => (hmem key).mpr (.inr rfl)⟩
      | _ => simp [RangeFetch.step] at hstep
  | drop =>
      cases stage with
      | returned result => simp [RangeFetch.step] at hstep
      | _ =>
          simp only [RangeFetch.step, Option.some.injEq, Prod.mk.injEq] at hstep
          obtain ⟨rfl, rfl⟩ := hstep
          exact ⟨h, fun key hkey => hkey, by simp⟩

end Fits

/-- Only ranges of the set are fetched. -/
def Within (hot : List Key) (_ : Fetches) : FetchAct → Prop
  | .call path start end_ => ⟨path, start, end_⟩ ∈ hot
  | _ => True

instance (hot : List Key) (s : Fetches) (act : FetchAct) : Decidable (Within hot s act) := by
  unfold Within
  split <;> infer_instance

/-- Fetches of ranges that fit together. -/
structure Warming (objects : FileName → Bytes) (hot : List Key) (s : Fetches) : Prop where
  fits : Fits objects hot s.cache
  holds : ∀ f ∈ s.fetches, f.Holds objects
  keys : ∀ f ∈ s.fetches, f.key ∈ hot
  returned : ∀ f ∈ s.fetches, ∀ bytes, f.stage = .returned (.ok bytes) → f.key ∈ s.cache.cached

namespace Warming

variable {hot : List Key} {s s' : Fetches}

theorem carryOn (h : Warming objects hot s) {i : Nat} {act : FetchAct}
    (hs : s.carryOn objects i act = some s') :
    Warming objects hot s' ∧ ∀ key ∈ s.cache.cached, key ∈ s'.cache.cached := by
  obtain ⟨f, r, hf, hr, rfl⟩ := Fetches.carryOn_eq_some.mp hs
  have hmem := List.mem_of_getElem? hf
  have hkey := RangeFetch.step_key hr
  obtain ⟨-, hholds, -⟩ := RangeFetch.step_mirrors hr h.fits.mirrors (h.holds f hmem)
  obtain ⟨hfits, hkept, hret⟩ := h.fits.step (h.keys f hmem) (h.holds f hmem) hr
  refine ⟨⟨hfits, fun g hg => ?_, fun g hg => ?_, fun g hg bytes hstage => ?_⟩, hkept⟩
  all_goals rcases List.mem_or_eq_of_mem_set hg with hg | rfl
  · exact h.holds g hg
  · exact hholds
  · exact h.keys g hg
  · rw [hkey]
    exact h.keys f hmem
  · exact hkept g.key (h.returned g hg bytes hstage)
  · rw [hkey]
    exact hret bytes hstage

/-- **Step**: whichever fetch comes next, nothing is evicted or lost. -/
theorem step (h : Warming objects hot s) {act : FetchAct} (hg : Within hot s act)
    (hs : s.step objects act = some s') :
    Warming objects hot s' ∧ ∀ key ∈ s.cache.cached, key ∈ s'.cache.cached := by
  cases act with
  | call path start end_ =>
      simp only [Fetches.step, Option.some.injEq] at hs
      subst hs
      refine ⟨⟨h.fits, fun f hf => ?_, fun f hf => ?_, fun f hf bytes hstage => ?_⟩,
        fun key hkey => hkey⟩
      all_goals
        rw [List.mem_append, List.mem_singleton] at hf
        rcases hf with hf | rfl
      · exact h.holds f hf
      · simp [RangeFetch.Holds]
      · exact h.keys f hf
      · exact hg
      · exact h.returned f hf bytes hstage
      · contradiction
  | lookup i => exact h.carryOn hs
  | getRange i fails => exact h.carryOn hs
  | insert i => exact h.carryOn hs
  | drop i => exact h.carryOn hs

/-- **Run**: nothing is evicted or lost. -/
theorem of_reaches (h : Warming objects hot s)
    (hr : Reaches (Fetches.step objects) (Within hot) s s') :
    Warming objects hot s' ∧ ∀ key ∈ s.cache.cached, key ∈ s'.cache.cached := by
  refine hr.invariant (fun t => Warming objects hot t ∧
    ∀ key ∈ s.cache.cached, key ∈ t.cache.cached) ⟨h, fun _ hkey => hkey⟩ ?_
  intro t act t' ⟨ht, hkept⟩ hg hstep
  obtain ⟨ht', hkept'⟩ := ht.step hg hstep
  exact ⟨ht', fun key hkey => hkept' key (hkept key hkey)⟩

theorem new {maxBytes : Nat} (hfits : held (Lru.bind (objectRange objects) hot) ≤ maxBytes) :
    Warming objects hot (Fetches.new maxBytes) where
  fits := ⟨Mirrors.new objects maxBytes,
    by simp [Fetches.new, ByteCache.cached, ByteCache.new, Inner.lru], hfits, rfl⟩
  holds := by simp [Fetches.new]
  keys := by simp [Fetches.new]
  returned := by simp [Fetches.new]

end Warming

/-- **A cache of the working set only warms up.**  Fetches of ranges that fit the
cache together, any number at once and in any order, with reads of the store that
fail and fetches that are dropped: nothing is ever evicted, and once a fetch of a
range has returned its bytes, every later lookup of the range hits. -/
theorem working_set_warms (objects : FileName → Bytes) {maxBytes : Nat} {hot : List Key}
    (hfits : held (Lru.bind (objectRange objects) hot) ≤ maxBytes) {s s' : Fetches}
    (h : Reaches (Fetches.step objects) (Within hot) (Fetches.new maxBytes) s)
    (h' : Reaches (Fetches.step objects) (Within hot) s s') :
    s'.cache.stats.evictions = 0 ∧
      ∀ f ∈ s.fetches, ∀ bytes, f.stage = .returned (.ok bytes) →
        (s'.cache.get f.key).1 = some (objectRange objects f.key) := by
  have hs := ((Warming.new hfits).of_reaches h).1
  obtain ⟨hs', hkept⟩ := hs.of_reaches h'
  exact ⟨hs'.fits.evictions, fun f hf bytes hstage =>
    hs'.fits.mirrors.get_of_cached (hkept f.key (hs.returned f hf bytes hstage))⟩

/-- Two fetches of one range that both miss, then one of another range. -/
theorem working_set_warms_two : ∃ s s' : Fetches,
    Reaches (Fetches.step fun _ => [1, 2, 3]) (Within [⟨['a'], 0, 1⟩, ⟨['a'], 1, 3⟩]) s s' ∧
      s'.cache.stats.misses = 3 ∧ s'.cache.stats.evictions = 0 ∧
      ∀ f ∈ s.fetches, ∀ bytes, f.stage = .returned (.ok bytes) →
        (s'.cache.get f.key).1 = some (objectRange (fun _ => [1, 2, 3]) f.key) := by
  let hot : List Key := [⟨['a'], 0, 1⟩, ⟨['a'], 1, 3⟩]
  have hruns : ((attempt (Fetches.step fun _ => [1, 2, 3]) (Within hot) (Fetches.new 3)
      [.call ['a'] 0 1, .call ['a'] 0 1, .lookup 0, .lookup 1, .getRange 0 false,
        .getRange 1 false, .insert 0, .insert 1]).any fun s =>
      (attempt (Fetches.step fun _ => [1, 2, 3]) (Within hot) s
        [.call ['a'] 1 3, .lookup 2, .getRange 2 false, .insert 2]).any fun s' =>
          s'.cache.stats.misses = 3) = true := by decide +kernel
  obtain ⟨s, hs, hrest⟩ := (Option.any_eq_true _ _).mp hruns
  obtain ⟨s', hs', hmisses⟩ := (Option.any_eq_true _ _).mp hrest
  have h' := reaches_of_attempt hs'
  exact ⟨s, s', h', of_decide_eq_true hmisses,
    working_set_warms (fun _ => [1, 2, 3]) (by decide +kernel) (reaches_of_attempt hs) h'⟩

end HolyGrail.Cache
