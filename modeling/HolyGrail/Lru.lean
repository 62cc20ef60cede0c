import Mathlib.Algebra.GroupWithZero.Nat
import Mathlib.Data.List.Basic

/-!
# HolyGrail.Lru

A weighted least-recently-used cache as a list of bindings, coldest first.

* **touch** moves a binding to the warm end;
* **makeRoom** drops bindings from the cold end until the rest weighs at most
  a given amount, and no more than that (`makeRoom_shortest`);
* **insert** forgets the key, makes room among the others, and binds the key
  at the warm end.  A value heavier than the cache is not admitted.

The list is the whole state: an implementation with recency numbers and
counters is correct when its bindings, listed in the order of the recency
numbers, follow these operations.
-/

namespace HolyGrail.Lru

variable {κ : Type u} {β : Type v} (w : β → Nat)

/-- Total weight of the bindings. -/
def weight : List (κ × β) → Nat
  | [] => 0
  | b :: bs => w b.2 + weight bs

/-- Drop bindings from the cold end until the rest weighs at most `room`. -/
def makeRoom (room : Nat) : List (κ × β) → List (κ × β)
  | [] => []
  | b :: bs => if weight w (b :: bs) ≤ room then b :: bs else makeRoom room bs

section
variable [DecidableEq κ]

/-- The bindings of the other keys. -/
def others (k : κ) (bs : List (κ × β)) : List (κ × β) := bs.filter fun b => b.1 ≠ k

/-- Make a bound key the warmest one. -/
def touch (k : κ) (bs : List (κ × β)) : List (κ × β) :=
  match bs.lookup k with
  | none => bs
  | some v => others k bs ++ [(k, v)]

/-- Bind a key at the warm end, within a total weight of `cap`. -/
def insert (cap : Nat) (k : κ) (v : β) (bs : List (κ × β)) : List (κ × β) :=
  if cap < w v then bs else makeRoom w (cap - w v) (others k bs) ++ [(k, v)]
end

/-! ## weights -/

@[simp] theorem weight_append (xs ys : List (κ × β)) :
    weight w (xs ++ ys) = weight w xs + weight w ys := by
  induction xs with
  | nil => simp [weight]
  | cons x xs ih => grind [weight]

/-- A weight is the sum of the values' weights in any order. -/
theorem weight_eq_sum (bs : List (κ × β)) : weight w bs = (bs.map fun b => w b.2).sum := by
  induction bs with
  | nil => rfl
  | cons b bs ih => rw [weight, ih, List.map_cons, List.sum_cons]

/-! ## making room -/

theorem weight_makeRoom_le (room : Nat) (bs : List (κ × β)) :
    weight w (makeRoom w room bs) ≤ room := by
  induction bs with
  | nil => simp [makeRoom, weight]
  | cons b bs ih =>
      rw [makeRoom]
      split
      · assumption
      · exact ih

/-- What is kept is an end of the list: only the coldest bindings are dropped. -/
theorem makeRoom_suffix (room : Nat) (bs : List (κ × β)) : makeRoom w room bs <:+ bs := by
  induction bs with
  | nil => simp [makeRoom]
  | cons b bs ih =>
      rw [makeRoom]
      split
      · exact List.suffix_rfl
      · exact ih.trans (List.suffix_cons b bs)

/-- **Nothing is dropped without need**: an end of the list that fits the room
is no longer than the one kept. -/
theorem makeRoom_shortest {room : Nat} {bs dropped kept : List (κ × β)}
    (h : bs = dropped ++ kept) (hw : weight w kept ≤ room) :
    kept.length ≤ (makeRoom w room bs).length := by
  induction bs generalizing dropped with
  | nil => simp [makeRoom, List.nil_eq_append_iff.mp h]
  | cons b bs ih =>
      rw [makeRoom]
      cases dropped with
      | nil => simp [← (show b :: bs = kept from h)] at hw ⊢; simp [hw]
      | cons d dropped =>
          obtain ⟨rfl, hbs⟩ := List.cons.inj h
          split
          · simp [hbs]; omega
          · exact ih hbs

/-! ## the other keys -/

section
variable [DecidableEq κ]

/-- A key is bound once. -/
theorem lookup_eq_some {bs : List (κ × β)} {k : κ} {v : β} (hnd : (bs.map Prod.fst).Nodup)
    (hmem : (k, v) ∈ bs) : bs.lookup k = some v := by
  induction bs with
  | nil => contradiction
  | cons b bs ih =>
      rw [List.map_cons, List.nodup_cons] at hnd
      cases List.mem_cons.mp hmem with
      | inl heq => simp [← heq]
      | inr hbs =>
          have hne : k ≠ b.1 := fun hk => hnd.1 (hk ▸ List.mem_map_of_mem hbs)
          rw [List.lookup_cons, beq_eq_false_iff_ne.mpr hne]
          exact ih hnd.2 hbs

theorem lookup_eq_none {bs : List (κ × β)} {k : κ} (h : ∀ b ∈ bs, b.1 ≠ k) :
    bs.lookup k = none := by
  rw [List.lookup_eq_none_iff]
  intro b hb
  simp [(h b hb).symm]

theorem others_eq_self {bs : List (κ × β)} {k : κ} (h : ∀ b ∈ bs, b.1 ≠ k) : others k bs = bs := by
  rw [others, List.filter_eq_self]
  intro b hb
  simp [h b hb]

/-- What the other keys weigh. -/
theorem weight_others {bs : List (κ × β)} {k : κ} {v : β} (hnd : (bs.map Prod.fst).Nodup)
    (hmem : (k, v) ∈ bs) : weight w (others k bs) + w v = weight w bs := by
  induction bs with
  | nil => contradiction
  | cons b bs ih =>
      rw [List.map_cons, List.nodup_cons] at hnd
      cases List.mem_cons.mp hmem with
      | inl heq =>
          subst heq
          have hkeep : others k ((k, v) :: bs) = bs := by
            rw [others, List.filter_cons_of_neg (by simp)]
            exact others_eq_self fun c hc hk => hnd.1 (List.mem_map.mpr ⟨c, hc, hk⟩)
          rw [hkeep, weight, Nat.add_comm]
      | inr hbs =>
          have hne : b.1 ≠ k := fun hk => hnd.1 (hk ▸ List.mem_map_of_mem hbs)
          have hih := ih hnd.2 hbs
          rw [others, List.filter_cons_of_pos (by simpa using hne), weight, weight]
          rw [others] at hih
          omega

/-- Only what was bound stays bound. -/
theorem mem_touch {bs : List (κ × β)} {k : κ} {b : κ × β} (h : b ∈ touch k bs) : b ∈ bs := by
  rw [touch] at h
  split at h
  · exact h
  · next v hv =>
      rw [List.mem_append, List.mem_singleton] at h
      cases h with
      | inl h => exact List.mem_of_mem_filter h
      | inr h =>
          obtain ⟨xs, ys, hbs, -⟩ := List.lookup_eq_some_iff.mp hv
          rw [h, hbs]
          simp

theorem mem_insert {cap : Nat} {bs : List (κ × β)} {k : κ} {v : β} {b : κ × β}
    (h : b ∈ insert w cap k v bs) : b ∈ bs ∨ b = (k, v) := by
  rw [insert] at h
  split at h
  · exact .inl h
  · rw [List.mem_append, List.mem_singleton] at h
    exact h.imp_left fun h => List.mem_of_mem_filter ((makeRoom_suffix w _ _).mem h)

/-- **What an insert evicts** is a cold end of the other bindings, and no shorter
cold end makes room for the value. -/
theorem insert_evicts {cap : Nat} {v : β} (k : κ) (bs : List (κ × β)) (h : w v ≤ cap) :
    ∃ evicted kept, others k bs = evicted ++ kept ∧ insert w cap k v bs = kept ++ [(k, v)] ∧
      weight w kept + w v ≤ cap ∧
      ∀ evicted' kept', others k bs = evicted' ++ kept' → weight w kept' + w v ≤ cap →
        evicted.length ≤ evicted'.length := by
  obtain ⟨evicted, hsplit⟩ := makeRoom_suffix w (cap - w v) (others k bs)
  have hroom := weight_makeRoom_le w (cap - w v) (others k bs)
  refine ⟨evicted, makeRoom w (cap - w v) (others k bs), hsplit.symm, ?_, by omega, ?_⟩
  · rw [insert, if_neg (by omega)]
  · intro evicted' kept' hsplit' hfits
    have hkept := makeRoom_shortest w hsplit' (show weight w kept' ≤ cap - w v by omega)
    have hlen := congrArg List.length (hsplit.trans hsplit')
    rw [List.length_append, List.length_append] at hlen
    omega
end

end HolyGrail.Lru
