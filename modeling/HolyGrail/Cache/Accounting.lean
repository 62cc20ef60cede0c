import HolyGrail.Cache

/-!
# HolyGrail.Cache.Accounting

The byte count over any sequence of `get` and `insert` calls.

`insert` takes the size of the new bytes off the count where it should take the
size of the bytes it replaces.  A range of an immutable object always has the
same bytes, so the two agree there; for arbitrary calls the count is right in
every state if and only if no insert that the cache admits gives a cached range
bytes of another length (`accounted_iff`).  A wrong count does not heal: the
budget can then be overrun for good.
-/

namespace HolyGrail.Cache

/-- A call of the cache. -/
inductive Call where
  | get (key : Key)
  | insert (key : Key) (bytes : Bytes)
  deriving DecidableEq, Repr

def Call.apply (cache : ByteCache) : Call → ByteCache
  | .get key => (cache.get key).2
  | .insert key bytes => cache.insert key bytes

/-- A sequence of calls. -/
def run (cache : ByteCache) (calls : List Call) : ByteCache := calls.foldl Call.apply cache

/-- `resident` counts the cached bytes, they are within the budget, and no
subtraction has clipped. -/
structure Accounted (cache : ByteCache) : Prop where
  resident : cache.inner.resident = cache.inner.cachedBytes
  budget : cache.inner.resident ≤ cache.maxBytes
  clipped : cache.inner.clipped = false

/-- An insert that is admitted gives a cached range as many bytes as it has. -/
def SameLength (cache : ByteCache) : Call → Prop
  | .get _ => True
  | .insert key bytes => bytes.length ≤ cache.maxBytes →
      ∀ old t, cache.inner.entries[key]? = some (old, t) → bytes.length = old.length

/-! ## one call -/

namespace Exact

variable {cache : ByteCache} {l : List (Nat × Key × Bytes)}

theorem accounted (h : Exact cache l) : Accounted cache where
  resident := by rw [h.resident, h.lists.cachedBytes_eq]
  budget := h.budget
  clipped := h.clipped

/-- A call that keeps the lengths keeps the count. -/
theorem apply (h : Exact cache l) {call : Call} (hsame : SameLength cache call) :
    ∃ l', Exact (call.apply cache) l' := by
  cases call with
  | get key =>
      obtain ⟨l', hl', -⟩ := h.get key
      exact ⟨l', hl'⟩
  | insert key bytes =>
      by_cases hsize : bytes.length ≤ cache.maxBytes
      · obtain ⟨l', hl', -⟩ := h.insert key bytes (hsame hsize)
        exact ⟨l', hl'⟩
      · exact ⟨l, by rwa [Call.apply, ByteCache.insert_of_lt key (by omega)]⟩

/-- A call that does not keep them leaves the count wrong. -/
theorem sameLength_of_accounted (h : Exact cache l) {call : Call}
    (hacc : Accounted (call.apply cache)) : SameLength cache call := by
  cases call with
  | get key => trivial
  | insert key bytes =>
      intro hsize old t hk
      by_contra hne
      cases h.insert_drift hk hsize hne with
      | inl hclip =>
          have hclip' := hacc.clipped
          simp only [Call.apply] at hclip'
          simp [hclip] at hclip'
      | inr hres => exact hres hacc.resident

end Exact

/-! ## a run of calls -/

/-- **The count stays right exactly while the lengths do.** -/
theorem Exact.run_accounted_iff {cache : ByteCache} {l : List (Nat × Key × Bytes)}
    (h : Exact cache l) (calls : List Call) :
    (∀ n, Accounted (run cache (calls.take n))) ↔
      ∀ n call, calls[n]? = some call → SameLength (run cache (calls.take n)) call := by
  induction calls generalizing cache l with
  | nil => simp [run, h.accounted]
  | cons call calls ih =>
      -- the state after the first call is the start of the rest of the run
      have htail : ∀ n, run cache ((call :: calls).take (n + 1)) =
          run (call.apply cache) (calls.take n) := fun n => rfl
      constructor
      · intro hacc
        have hsame := h.sameLength_of_accounted (hacc 1)
        obtain ⟨l', hl'⟩ := h.apply hsame
        have hrest := (ih hl').mp fun n => (htail n) ▸ hacc (n + 1)
        intro n c hc
        cases n with
        | zero => simpa using (show call = c by simpa using hc) ▸ hsame
        | succ n => exact hrest n c (by simpa using hc)
      · intro hsame
        obtain ⟨l', hl'⟩ := h.apply (hsame 0 call rfl)
        have hrest := (ih hl').mpr fun n c hc => hsame (n + 1) c (by simpa using hc)
        intro n
        cases n with
        | zero => exact h.accounted
        | succ n => exact hrest n

/-- **Byte accounting**: from an empty cache the count is right after every call
if and only if every insert that is admitted gives a cached range as many bytes
as it has. -/
theorem accounted_iff (maxBytes : Nat) (calls : List Call) :
    (∀ n, Accounted (run (ByteCache.new maxBytes) (calls.take n))) ↔
      ∀ n call, calls[n]? = some call →
        SameLength (run (ByteCache.new maxBytes) (calls.take n)) call :=
  (Exact.new maxBytes).run_accounted_iff calls

/-- Two ranges of 6 and 4 bytes fill a cache of 10; the second one is inserted
again with 10 bytes. -/
def overfilling : List Call :=
  let first : Key := { path := ['a'], start := 0, end_ := 6 }
  let second : Key := { path := ['a'], start := 6, end_ := 10 }
  [.insert first (List.replicate 6 0), .insert second (List.replicate 4 0),
    .insert second (List.replicate 10 0)]

/-- **A replacement by longer bytes overruns the budget**: the cache holds 16
bytes, and counts 10. -/
theorem overfilling_not_accounted :
    (run (ByteCache.new 10) overfilling).inner.cachedBytes = 16 ∧
      ¬ Accounted (run (ByteCache.new 10) overfilling) := by
  have hheld : (run (ByteCache.new 10) overfilling).inner.cachedBytes = 16 := by decide +kernel
  have hcount : (run (ByteCache.new 10) overfilling).inner.resident = 10 := by decide +kernel
  refine ⟨hheld, fun h => ?_⟩
  have hres := h.resident
  omega

end HolyGrail.Cache
