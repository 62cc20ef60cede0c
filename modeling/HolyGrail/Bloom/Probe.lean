import HolyGrail.Catalog
import HolyGrail.Checked

/-!
# HolyGrail.Bloom.Probe

The bloom probe against the rule the fork writes by.

The writer starts from zeros and, for every key, ORs the mask of the key into
its block; the words travel little-endian, in Base64.  A key that was inserted
finds its bits there whatever was inserted later, since OR only adds bits.

`Checked.mightContain` is the probe with its indexing, which could panic.  On a
filter that was accepted it does not (`mightContain_eq`), since multiply-shift
maps a hash below the number of blocks (`blockIndex_lt`).  The decoder of Base64
is a parameter.
-/

namespace HolyGrail

/-! ## the probe, with its panics -/

namespace Checked

/-- The loop of `might_contain`, from word `i` of the block on. -/
def probe (bloom : CatalogBloom) (block : Nat) (mask : List UInt32) : List Nat → Checked Bool
  | [] => .ok true
  | i :: rest => do
      let w ← index bloom.words (block * wordsPerBlock + i)
      let m ← index mask i
      if w &&& m ≠ m then .ok false else probe bloom block mask rest

/-- `CatalogBloom::might_contain`. -/
def mightContain (bloom : CatalogBloom) (key : Bytes) : Checked Bool :=
  let hash := hash64 key
  let block := blockIndex hash bloom.numBlocks
  let mask := computeMask hash.toUInt32
  probe bloom block mask (List.range wordsPerBlock)

/-- Inside the filter the loop is the one of `CatalogBloom.mightContain`. -/
theorem probe_eq {bloom : CatalogBloom} {block : Nat} {mask : List UInt32} {is : List Nat}
    (h : ∀ i ∈ is, block * wordsPerBlock + i < bloom.words.length ∧ i < mask.length) :
    probe bloom block mask is = .ok (is.all fun i =>
      match bloom.words[block * wordsPerBlock + i]?, mask[i]? with
      | some w, some m => w &&& m == m
      | _, _ => false) := by
  induction is with
  | nil => rfl
  | cons i rest ih =>
      obtain ⟨hw, hm⟩ := h i List.mem_cons_self
      have ih := ih fun j hj => h j (List.mem_cons_of_mem i hj)
      rw [probe, index_eq hw, ok_bind, index_eq hm, ok_bind, List.all_cons,
        List.getElem?_eq_getElem hw, List.getElem?_eq_getElem hm]
      by_cases hbits : bloom.words[block * wordsPerBlock + i] &&& mask[i] = mask[i]
      · rw [if_neg (not_not.mpr hbits), ih]
        simp [hbits]
      · rw [if_pos hbits]
        simp [hbits]

end Checked

/-! ## the writer -/

namespace CatalogBloom

/-- A filter of zeros. -/
def empty (numBlocks : Nat) : CatalogBloom where
  words := List.replicate (numBlocks * wordsPerBlock) 0
  numBlocks := numBlocks

/-- OR the mask of a key into its block. -/
def insert (bloom : CatalogBloom) (key : Bytes) : CatalogBloom :=
  let hash := hash64 key
  let block := blockIndex hash bloom.numBlocks
  let mask := computeMask hash.toUInt32
  { bloom with
    words := bloom.words.mapIdx fun j w =>
      if j / wordsPerBlock = block then w ||| mask.getD (j % wordsPerBlock) 0 else w }

/-- The filter over a sequence of keys. -/
def ofKeys (numBlocks : Nat) (keys : List Bytes) : CatalogBloom :=
  keys.foldl insert (empty numBlocks)

/-- The words, little-endian. -/
def toBytes (bloom : CatalogBloom) : Bytes := bloom.words.flatMap fun w => leBytes 4 w.toNat

end CatalogBloom

/-! ## the block of a key -/

theorem shiftRight_toNat (hash : UInt64) : (hash >>> 32).toNat = hash.toNat / 2 ^ 32 := by
  rw [UInt64.toNat_shiftRight, Nat.shiftRight_eq_div_pow]
  rfl

/-- The multiplication does not overflow while there are at most 2^32 blocks. -/
theorem blockIndex_product_lt (hash : UInt64) {numBlocks : Nat} (h : numBlocks ≤ 2 ^ 32) :
    (hash >>> 32).toNat * numBlocks < 2 ^ 64 := by
  have hhash := hash.toNat_lt
  have htop : (hash >>> 32).toNat ≤ 2 ^ 32 - 1 := by
    rw [shiftRight_toNat]
    omega
  calc (hash >>> 32).toNat * numBlocks
      ≤ (2 ^ 32 - 1) * 2 ^ 32 := Nat.mul_le_mul htop h
    _ < 2 ^ 64 := by decide

/-- **Multiply-shift** maps a hash to one of the blocks. -/
theorem blockIndex_lt (hash : UInt64) {numBlocks : Nat} (h : 1 ≤ numBlocks) :
    blockIndex hash numBlocks < numBlocks := by
  have hindex : blockIndex hash numBlocks =
      (hash >>> 32).toNat * (numBlocks % 2 ^ 64) % 2 ^ 64 / 2 ^ 32 := by
    rw [blockIndex, UInt64.toNat_shiftRight, UInt64.toNat_mul, UInt64.toNat_ofNat',
      Nat.shiftRight_eq_div_pow]
    rfl
  rw [hindex]
  by_cases hle : numBlocks ≤ 2 ^ 32
  · have hprod := blockIndex_product_lt hash hle
    have hhash := hash.toNat_lt
    have htop : (hash >>> 32).toNat < 2 ^ 32 := by
      rw [shiftRight_toNat]
      omega
    rw [Nat.mod_eq_of_lt (show numBlocks < 2 ^ 64 by omega), Nat.mod_eq_of_lt hprod,
      Nat.div_lt_iff_lt_mul (by decide), Nat.mul_comm numBlocks]
    exact (Nat.mul_lt_mul_right (by omega)).mpr htop
  · omega

/-! ## no false negatives -/

namespace CatalogBloom

/-- Every word of the key's block has the key's bit. -/
def Covers (bloom : CatalogBloom) (key : Bytes) : Prop :=
  ∀ i < wordsPerBlock, ∃ w m,
    bloom.words[blockIndex (hash64 key) bloom.numBlocks * wordsPerBlock + i]? = some w ∧
    (computeMask (hash64 key).toUInt32)[i]? = some m ∧ w &&& m = m

theorem mightContain_of_covers {bloom : CatalogBloom} {key : Bytes} (h : bloom.Covers key) :
    bloom.mightContain key = true := by
  unfold mightContain
  simp only [List.all_eq_true, List.mem_range]
  intro i hi
  obtain ⟨w, m, hw, hm, hwm⟩ := h i hi
  simp [hw, hm, hwm]

@[simp] theorem insert_numBlocks (bloom : CatalogBloom) (key : Bytes) :
    (bloom.insert key).numBlocks = bloom.numBlocks := rfl

@[simp] theorem insert_length (bloom : CatalogBloom) (key : Bytes) :
    (bloom.insert key).words.length = bloom.words.length := by
  simp [insert]

/-- Adding bits to a word keeps those it has. -/
theorem or_keeps {w m : UInt32} (x : UInt32) (h : w &&& m = m) : (w ||| x) &&& m = m := by
  have hbits := congrArg UInt32.toBitVec h
  rw [UInt32.toBitVec_and] at hbits
  apply UInt32.toBitVec_inj.mp
  rw [UInt32.toBitVec_and, UInt32.toBitVec_or]
  refine BitVec.eq_of_getLsbD_eq fun i _ => ?_
  have hbit : (w.toBitVec.getLsbD i && m.toBitVec.getLsbD i) = m.toBitVec.getLsbD i := by
    rw [← BitVec.getLsbD_and, hbits]
  rw [BitVec.getLsbD_and, BitVec.getLsbD_or]
  cases hm : m.toBitVec.getLsbD i <;> simp_all

/-- **Monotonicity**: an insert takes no bit away. -/
theorem Covers.insert {bloom : CatalogBloom} {key : Bytes} (h : bloom.Covers key)
    (other : Bytes) : (bloom.insert other).Covers key := by
  intro i hi
  obtain ⟨w, m, hw, hm, hwm⟩ := h i hi
  rw [insert_numBlocks]
  simp only [CatalogBloom.insert, List.getElem?_mapIdx, hw, Option.map_some]
  refine ⟨_, m, rfl, hm, ?_⟩
  split
  · exact or_keeps _ hwm
  · exact hwm

/-- **The key inserted** has its bits. -/
theorem covers_insert {bloom : CatalogBloom} (key : Bytes) (h : 1 ≤ bloom.numBlocks)
    (hlen : bloom.words.length = bloom.numBlocks * wordsPerBlock) :
    (bloom.insert key).Covers key := by
  intro i hi
  have hblock := blockIndex_lt (hash64 key) h
  have hindex : blockIndex (hash64 key) bloom.numBlocks * wordsPerBlock + i <
      bloom.words.length := by
    rw [hlen]
    simp only [wordsPerBlock] at *
    omega
  have hdiv : (blockIndex (hash64 key) bloom.numBlocks * wordsPerBlock + i) / wordsPerBlock =
      blockIndex (hash64 key) bloom.numBlocks := by
    simp only [wordsPerBlock] at *
    omega
  have hmod :
      (blockIndex (hash64 key) bloom.numBlocks * wordsPerBlock + i) % wordsPerBlock = i := by
    simp only [wordsPerBlock] at *
    omega
  have hmask : i < (computeMask (hash64 key).toUInt32).length := hi
  rw [insert_numBlocks]
  simp only [CatalogBloom.insert, List.getElem?_mapIdx, List.getElem?_eq_getElem hindex,
    Option.map_some, hdiv, hmod, if_true]
  refine ⟨_, _, rfl, List.getElem?_eq_getElem hmask, ?_⟩
  rw [List.getD_eq_getElem?_getD, List.getElem?_eq_getElem hmask, Option.getD_some, UInt32.or_comm]
  exact or_keeps _ UInt32.and_self

theorem foldl_insert_numBlocks (bloom : CatalogBloom) (keys : List Bytes) :
    (keys.foldl insert bloom).numBlocks = bloom.numBlocks := by
  induction keys generalizing bloom with
  | nil => rfl
  | cons key keys ih => rw [List.foldl_cons, ih, insert_numBlocks]

theorem foldl_insert_length (bloom : CatalogBloom) (keys : List Bytes) :
    (keys.foldl insert bloom).words.length = bloom.words.length := by
  induction keys generalizing bloom with
  | nil => rfl
  | cons key keys ih => rw [List.foldl_cons, ih, insert_length]

theorem Covers.foldl_insert {bloom : CatalogBloom} {key : Bytes} (h : bloom.Covers key)
    (keys : List Bytes) : (keys.foldl CatalogBloom.insert bloom).Covers key := by
  induction keys generalizing bloom with
  | nil => exact h
  | cons other keys ih => exact ih (h.insert other)

/-- **Every key inserted** has its bits in the end. -/
theorem covers_of_mem {numBlocks : Nat} (h : 1 ≤ numBlocks) {keys : List Bytes} {key : Bytes}
    (hkey : key ∈ keys) : (ofKeys numBlocks keys).Covers key := by
  obtain ⟨before, after, rfl⟩ := List.append_of_mem hkey
  rw [ofKeys, List.foldl_append, List.foldl_cons]
  refine Covers.foldl_insert (covers_insert key ?_ ?_) after
  · rw [foldl_insert_numBlocks]
    exact h
  · rw [foldl_insert_numBlocks, foldl_insert_length]
    simp [empty]

/-! ## the blob -/

/-- The words read back. -/
theorem wordsOf_toBytes (words : List UInt32) :
    wordsOf (words.flatMap fun w => leBytes 4 w.toNat) = words := by
  induction words with
  | nil => rfl
  | cons w words ih =>
      have hw : UInt32.ofNat (leNat (leBytes 4 w.toNat)) = w := by
        rw [leNat_leBytes w.toNat_lt, UInt32.ofNat_toNat]
      simp only [leBytes] at hw
      rw [List.flatMap_cons]
      simp only [leBytes, List.cons_append, List.nil_append, wordsOf]
      rw [hw]
      exact congrArg (w :: ·) ih

theorem length_toBytes (bloom : CatalogBloom) : bloom.toBytes.length = bloom.words.length * 4 := by
  simp [toBytes, List.length_flatMap]

theorem length_wordsOf (bytes : Bytes) : (wordsOf bytes).length = bytes.length / 4 := by
  fun_induction wordsOf bytes with
  | case1 b0 b1 b2 b3 rest ih =>
      simp only [List.length_cons, ih]
      omega
  | case2 bytes hshort =>
      match bytes, hshort with
      | [], _ | [_], _ | [_, _], _ | [_, _, _], _ => simp
      | b0 :: b1 :: b2 :: b3 :: rest, hshort => exact (hshort b0 b1 b2 b3 rest rfl).elim

/-- A filter the writer made is accepted as it is. -/
theorem fromBase64_ofKeys {base64 : Text → Option Bytes} {b64 : Text} {numBlocks : Nat}
    {keys : List Bytes} (h : 1 ≤ numBlocks)
    (hb : base64 b64 = some (ofKeys numBlocks keys).toBytes) :
    fromBase64 base64 b64 = some (ofKeys numBlocks keys) := by
  have hwords : (ofKeys numBlocks keys).words.length = numBlocks * wordsPerBlock := by
    rw [ofKeys, foldl_insert_length]
    simp [empty]
  have hlen : (ofKeys numBlocks keys).toBytes.length = numBlocks * bytesPerBlock := by
    rw [length_toBytes, hwords, bytesPerBlock, Nat.mul_assoc]
  have hne : (ofKeys numBlocks keys).toBytes ≠ [] := by
    intro hnil
    rw [hnil, bytesPerBlock, wordsPerBlock, List.length_nil] at hlen
    omega
  have hpos : 0 < bytesPerBlock := by decide
  rw [fromBase64, hb]
  simp only [hne, hlen, Nat.mul_mod_left, ne_eq, not_true_eq_false, or_self, if_false,
    Nat.mul_div_cancel _ hpos]
  have hnum : (ofKeys numBlocks keys).numBlocks = numBlocks := foldl_insert_numBlocks _ _
  rw [toBytes, wordsOf_toBytes]
  exact congrArg (fun n => some (CatalogBloom.mk (ofKeys numBlocks keys).words n)) hnum.symm

/-- **In bounds**: every word a probe looks at is a word of the filter. -/
theorem probe_in_bounds {base64 : Text → Option Bytes} {b64 : Text} {bloom : CatalogBloom}
    (h : fromBase64 base64 b64 = some bloom) (key : Bytes) {i : Nat} (hi : i < wordsPerBlock) :
    blockIndex (hash64 key) bloom.numBlocks * wordsPerBlock + i < bloom.words.length := by
  unfold fromBase64 at h
  split at h
  · contradiction
  · next bytes _ =>
      split at h
      · contradiction
      · next hok =>
          obtain ⟨hne, hmod⟩ := not_or.mp hok
          simp only [Option.some.injEq] at h
          subst h
          have hpos := List.length_pos_iff.mpr hne
          simp only [ne_eq, not_not, bytesPerBlock, wordsPerBlock] at hmod hi ⊢
          have hblock := blockIndex_lt (hash64 key) (show 1 ≤ bytes.length / (8 * 4) by omega)
          rw [length_wordsOf]
          omega

/-- **No probe of an accepted filter panics.** -/
theorem mightContain_eq {base64 : Text → Option Bytes} {b64 : Text} {bloom : CatalogBloom}
    (h : fromBase64 base64 b64 = some bloom) (key : Bytes) :
    Checked.mightContain bloom key = .ok (bloom.mightContain key) := by
  refine Checked.probe_eq fun i hi => ?_
  have hi := List.mem_range.mp hi
  exact ⟨probe_in_bounds h key hi, hi⟩

/-- **The bloom probe** has no false negatives on what the writer made, its
multiplication does not overflow there, and no probe of an accepted filter looks
outside it: the code with its indexing returns, and every word it may look at is
a word of the filter. -/
theorem probe_sound (base64 : Text → Option Bytes) :
    (∀ numBlocks keys b64, 1 ≤ numBlocks → numBlocks ≤ 2 ^ 32 →
      base64 b64 = some (ofKeys numBlocks keys).toBytes →
      ∃ bloom, fromBase64 base64 b64 = some bloom ∧
        (∀ key ∈ keys, bloom.mightContain key = true) ∧
        ∀ key, (hash64 key >>> 32).toNat * bloom.numBlocks < 2 ^ 64) ∧
    (∀ b64 bloom, fromBase64 base64 b64 = some bloom → ∀ key,
      Checked.mightContain bloom key = .ok (bloom.mightContain key) ∧ ∀ i < wordsPerBlock,
        blockIndex (hash64 key) bloom.numBlocks * wordsPerBlock + i < bloom.words.length) := by
  constructor
  · intro numBlocks keys b64 h hle hb
    have hnum : (ofKeys numBlocks keys).numBlocks = numBlocks := foldl_insert_numBlocks _ _
    refine ⟨_, fromBase64_ofKeys h hb, fun key hkey => ?_, fun key => ?_⟩
    · exact mightContain_of_covers (covers_of_mem h hkey)
    · rw [hnum]
      exact blockIndex_product_lt (hash64 key) hle
  · exact fun b64 bloom hb key => ⟨mightContain_eq hb key, fun i hi => probe_in_bounds hb key hi⟩

end CatalogBloom

/-! ## a blob the fork wrote -/

namespace Base64

/-- The six bits a character of the standard alphabet stands for. -/
def value (c : Char) : Option Nat :=
  if 'A' ≤ c ∧ c ≤ 'Z' then some (c.toNat - 65)
  else if 'a' ≤ c ∧ c ≤ 'z' then some (c.toNat - 71)
  else if '0' ≤ c ∧ c ≤ '9' then some (c.toNat + 4)
  else if c = '+' then some 62
  else if c = '/' then some 63
  else none

/-- Standard Base64 with canonical padding. -/
def decode : Text → Option Bytes
  | [] => some []
  | [a, b, '=', '='] => do
      let x ← value a
      let y ← value b
      if y % 16 = 0 then some [UInt8.ofNat (x * 4 + y / 16)] else none
  | [a, b, c, '='] => do
      let x ← value a
      let y ← value b
      let z ← value c
      if z % 4 = 0 then
        some [UInt8.ofNat (x * 4 + y / 16), UInt8.ofNat (y % 16 * 16 + z / 4)]
      else none
  | a :: b :: c :: d :: rest => do
      let x ← value a
      let y ← value b
      let z ← value c
      let u ← value d
      let bytes ← decode rest
      some (UInt8.ofNat (x * 4 + y / 16) :: UInt8.ofNat (y % 16 * 16 + z / 4) ::
        UInt8.ofNat (z % 4 * 64 + u) :: bytes)
  | _ => none

end Base64

/-- `FORK_BLOB`: what the extension wrote for the keys `k1` to `k100`. -/
def forkBlob : Text :=
  ("Nnn6cNXytKRuV6bgWYZPLIshG5s5hjmq3LyWWSp/syXHTLa/r4Y72DeHHRsUtcXOlHN+8trY8uc/prMqtLPI+71l" ++
    "3dz4vf1sa357MjIX1Xw4xdbev/khnOmmlunb2MPLRnbGb925l03TboOqozd8Ng9nN0/5b5KTNTZvKUwrnmc=").toList

/-- The ASCII strings `k1` to `k100`. -/
def forkKeys : List Bytes :=
  (List.range 100).map fun i => 107 :: (Nat.toDigits 10 (i + 1)).map fun c => UInt8.ofNat c.toNat

/-- The rule and the layout are those of the fork, bit for bit. -/
theorem decode_forkBlob :
    Base64.decode forkBlob = some (CatalogBloom.ofKeys 4 forkKeys).toBytes := by
  decide +kernel

theorem probe_sound_forkBlob :
    ∃ bloom, CatalogBloom.fromBase64 Base64.decode forkBlob = some bloom ∧
      (∀ key ∈ forkKeys, bloom.mightContain key = true) ∧
      ∀ key, Checked.mightContain bloom key = .ok (bloom.mightContain key) ∧ ∀ i < wordsPerBlock,
        blockIndex (hash64 key) bloom.numBlocks * wordsPerBlock + i < bloom.words.length := by
  obtain ⟨hwriter, hbounds⟩ := CatalogBloom.probe_sound Base64.decode
  obtain ⟨bloom, hb, hkeys, -⟩ :=
    hwriter 4 forkKeys forkBlob (by decide) (by decide) decode_forkBlob
  exact ⟨bloom, hb, hkeys, hbounds forkBlob bloom hb⟩

end HolyGrail
