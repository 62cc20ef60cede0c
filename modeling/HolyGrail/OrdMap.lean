import Mathlib.Algebra.GroupWithZero.Nat
import Mathlib.Data.List.Sort

/-!
# HolyGrail.OrdMap

Ordered maps (`Std.ExtTreeMap`) over a key type whose `compare` is a lawful
total order: the lookup equations of the update operations with key equality
in place of `compare _ _ = .eq`, and the fact that a strictly ordered list of
bindings is the map's `toList`.
-/

namespace HolyGrail.OrdMap

set_option linter.unusedSectionVars false

variable {κ : Type u} {β : Type v} [Ord κ] [Std.TransOrd κ] [Std.LawfulEqOrd κ] [DecidableEq κ]
variable {m : Std.ExtTreeMap κ β} {k a : κ}

theorem getElem?_insert (v : β) : (m.insert k v)[a]? = if k = a then some v else m[a]? := by
  rw [Std.ExtTreeMap.getElem?_insert]
  by_cases h : k = a <;> simp [h]

theorem getElem?_insert_ne (v : β) (h : k ≠ a) : (m.insert k v)[a]? = m[a]? := by
  rw [getElem?_insert, if_neg h]

theorem getElem?_erase : (m.erase k)[a]? = if k = a then none else m[a]? := by
  rw [Std.ExtTreeMap.getElem?_erase]
  by_cases h : k = a <;> simp [h]

/-- What an updated map has is old or new. -/
theorem of_getElem?_insert {v w : β} (h : (m.insert k v)[a]? = some w) :
    w = v ∨ m[a]? = some w := by
  rw [getElem?_insert] at h
  split at h
  · exact .inl (Option.some.inj h).symm
  · exact .inr h

theorem of_getElem?_erase {w : β} (h : (m.erase k)[a]? = some w) : m[a]? = some w := by
  rw [getElem?_erase] at h
  split at h
  · contradiction
  · exact h

theorem getElem?_modify (f : β → β) :
    (m.modify k f)[a]? = if k = a then m[a]?.map f else m[a]? := by
  rw [Std.ExtTreeMap.getElem?_modify]
  by_cases h : k = a <;> simp [h]

theorem mem_insert (v : β) : a ∈ m.insert k v ↔ k = a ∨ a ∈ m := by
  rw [Std.ExtTreeMap.mem_insert, Std.compare_eq_iff_eq]

theorem mem_erase : a ∈ m.erase k ↔ k ≠ a ∧ a ∈ m := by
  rw [Std.ExtTreeMap.mem_erase, ne_eq, Std.compare_eq_iff_eq]

theorem mem_iff_exists : a ∈ m ↔ ∃ v, m[a]? = some v := by
  rw [Std.ExtTreeMap.mem_iff_isSome_getElem?, Option.isSome_iff_exists]

theorem mem_modify {f : β → β} : a ∈ m.modify k f ↔ a ∈ m := by
  rw [mem_iff_exists, mem_iff_exists, getElem?_modify]
  by_cases h : k = a <;> simp [h]

theorem mem_of_getElem? {v : β} (h : m[a]? = some v) : a ∈ m := mem_iff_exists.mpr ⟨v, h⟩

theorem getElem?_eq_none_iff : m[a]? = none ↔ a ∉ m := by
  rw [mem_iff_exists]
  cases m[a]? <;> simp

/-- A map is empty when it has no key. -/
theorem eq_empty_of_forall_not_mem (h : ∀ k, k ∉ m) : m = ∅ :=
  Std.ExtTreeMap.ext_getElem? fun k => by
    rw [getElem?_eq_none_iff.mpr (h k)]
    simp

/-! ## conditional replacement -/

/-- Bind `k` to `v` unless it is bound to a value that `replace` rejects. -/
def compareInsert (m : Std.ExtTreeMap κ β) (k : κ) (v : β) (replace : β → Bool) :
    Std.ExtTreeMap κ β :=
  match m[k]? with
  | none => m.insert k v
  | some existing => if replace existing then m.insert k v else m

theorem getElem?_compareInsert (v : β) (replace : β → Bool) :
    (compareInsert m k v replace)[a]? =
      if k = a ∧ m[a]?.all replace then some v else m[a]? := by
  rw [compareInsert]
  by_cases h : k = a
  · subst h
    cases hk : m[k]? with
    | none => simp
    | some existing => by_cases hr : replace existing <;> simp [hr, hk]
  · cases m[k]? with
    | none => simp [h, getElem?_insert]
    | some existing => by_cases hr : replace existing <;> simp [h, hr, getElem?_insert]

/-! ## bindings in key order -/

theorem mem_toList {v : β} : (k, v) ∈ m.toList ↔ m[k]? = some v :=
  Std.ExtTreeMap.mem_toList_iff_getElem?_eq_some

theorem nodup_toList (m : Std.ExtTreeMap κ β) : (m.toList.map Prod.fst).Nodup := by
  rw [Std.ExtTreeMap.map_fst_toList_eq_keys]
  exact Std.ExtTreeMap.nodup_keys

/-- Two maps with the same keys list them alike. -/
theorem keys_congr {m' : Std.ExtTreeMap κ β} (h : ∀ k, k ∈ m ↔ k ∈ m') : m.keys = m'.keys := by
  have hunit : m.map (fun _ _ => ()) = m'.map (fun _ _ => ()) := by
    refine Std.ExtTreeMap.ext_getElem? fun k => ?_
    have hk := h k
    rw [mem_iff_exists, mem_iff_exists] at hk
    rw [Std.ExtTreeMap.getElem?_map, Std.ExtTreeMap.getElem?_map]
    cases hm : m[k]? <;> cases hm' : m'[k]? <;> simp [hm, hm'] at hk ⊢
  rw [← Std.ExtTreeMap.keys_map (t := m) (f := fun _ _ => ()), hunit, Std.ExtTreeMap.keys_map]

/-- A strictly ordered list with the bindings of `m` is `m.toList`. -/
theorem toList_eq_of_ordered {l : List (κ × β)}
    (ho : l.Pairwise fun x y => compare x.1 y.1 = .lt)
    (hm : ∀ k v, (k, v) ∈ l ↔ m[k]? = some v) : m.toList = l := by
  have hasymm : ∀ x y : κ × β, compare x.1 y.1 = .lt → ¬ compare y.1 x.1 = .lt := by
    intro x y hxy hyx
    have hgt := Std.OrientedCmp.gt_of_lt hxy
    rw [hgt] at hyx
    contradiction
  have hnd : ∀ l : List (κ × β), (l.Pairwise fun x y => compare x.1 y.1 = .lt) → l.Nodup := by
    intro l h
    refine h.imp ?_
    rintro x y hxy rfl
    exact hasymm x x hxy hxy
  have hperm : m.toList.Perm l :=
    (List.perm_ext_iff_of_nodup (hnd _ Std.ExtTreeMap.ordered_keys_toList) (hnd _ ho)).mpr
      fun x => by rw [hm, mem_toList]
  refine List.Perm.eq_of_pairwise ?_ Std.ExtTreeMap.ordered_keys_toList ho hperm
  intro x y _ _ hxy hyx
  exact absurd hyx (hasymm x y hxy)

/-- Erasing a key drops its binding from the list. -/
theorem toList_erase : (m.erase k).toList = m.toList.filter fun b => b.1 ≠ k := by
  apply toList_eq_of_ordered
  · exact Std.ExtTreeMap.ordered_keys_toList.filter _
  · intro a v
    rw [List.mem_filter, mem_toList, getElem?_erase]
    by_cases h : k = a <;> simp [h, Ne.symm]

/-- A key behind all the others is bound at the end of the list. -/
theorem toList_insert_last (v : β) (h : ∀ a ∈ m, compare a k = .lt) :
    (m.insert k v).toList = m.toList ++ [(k, v)] := by
  have hmem : ∀ b ∈ m.toList, b.1 ∈ m := fun b hb => mem_of_getElem? (mem_toList.mp hb)
  have hk : k ∉ m := by
    intro hk
    have hlt := h k hk
    simp at hlt
  apply toList_eq_of_ordered
  · rw [List.pairwise_append]
    refine ⟨Std.ExtTreeMap.ordered_keys_toList, List.pairwise_singleton _ _, ?_⟩
    intro b hb c hc
    rw [List.mem_singleton.mp hc]
    exact h b.1 (hmem b hb)
  · intro a u
    rw [List.mem_append, List.mem_singleton, mem_toList, getElem?_insert, Prod.mk.injEq]
    by_cases ha : k = a
    · subst ha
      simp [getElem?_eq_none_iff.mpr hk, eq_comm]
    · simp [ha, Ne.symm ha]

/-! ## the least key -/

/-- Take the binding of the least key out of the map. -/
def popFirst (m : Std.ExtTreeMap κ β) : Option ((κ × β) × Std.ExtTreeMap κ β) :=
  m.toList.head?.map fun b => (b, m.erase b.1)

theorem popFirst_eq_none : popFirst m = none ↔ m.toList = [] := by
  simp [popFirst]

/-- What is popped is the head of the list, what is left is its tail. -/
theorem popFirst_eq_some {b : κ × β} {rest : Std.ExtTreeMap κ β} (h : popFirst m = some (b, rest)) :
    rest = m.erase b.1 ∧ m.toList = b :: rest.toList := by
  obtain ⟨c, hc, hcb⟩ := Option.map_eq_some_iff.mp h
  obtain ⟨rfl, rfl⟩ := Prod.mk.inj hcb
  obtain ⟨bs, hbs⟩ := List.head?_eq_some_iff.mp hc
  have hnd := nodup_toList m
  rw [hbs, List.map_cons, List.nodup_cons] at hnd
  refine ⟨rfl, ?_⟩
  rw [toList_erase, hbs, List.filter_cons_of_neg (by simp), List.filter_eq_self.mpr]
  intro d hd
  have hne : d.1 ≠ c.1 := fun heq => hnd.1 (heq ▸ List.mem_map_of_mem hd)
  simp [hne]

theorem size_of_popFirst {b : κ × β} {rest : Std.ExtTreeMap κ β} (h : popFirst m = some (b, rest)) :
    rest.size < m.size := by
  rw [← Std.ExtTreeMap.length_toList, ← Std.ExtTreeMap.length_toList, (popFirst_eq_some h).2]
  simp

/-! ## totals -/

/-- A quantity of the values, summed over the map. -/
def total (f : β → Nat) (m : Std.ExtTreeMap κ β) : Nat := (m.toList.map fun b => f b.2).sum

theorem sum_filter_key (f : β → Nat) {l : List (κ × β)} (hl : (l.map Prod.fst).Nodup) {v : β}
    (h : (k, v) ∈ l) : (l.map fun b => f b.2).sum =
      ((l.filter fun b => b.1 ≠ k).map fun b => f b.2).sum + f v := by
  induction l with
  | nil => exact absurd h List.not_mem_nil
  | cons b l ih =>
      obtain ⟨a, u⟩ := b
      rw [List.map_cons, List.nodup_cons] at hl
      rw [List.map_cons, List.sum_cons, List.mem_cons] at *
      cases h with
      | inl he =>
          obtain ⟨rfl, rfl⟩ := Prod.mk.inj he
          have hrest : l.filter (fun b => b.1 ≠ k) = l := by
            rw [List.filter_eq_self]
            intro b hb
            rw [decide_eq_true_eq]
            intro hk
            exact hl.1 (List.mem_map.mpr ⟨b, hb, hk⟩)
          rw [List.filter_cons_of_neg (by simp), hrest]
          exact Nat.add_comm _ _
      | inr hmem =>
          have hne : a ≠ k := by
            intro hk
            exact hl.1 (List.mem_map.mpr ⟨(k, v), hmem, hk.symm⟩)
          rw [List.filter_cons_of_pos (by simpa using hne), List.map_cons, List.sum_cons,
            ih hl.2 hmem, Nat.add_assoc]

theorem total_of_getElem? (f : β → Nat) {v : β} (h : m[k]? = some v) :
    total f m = total f (m.erase k) + f v := by
  rw [total, total, toList_erase]
  exact sum_filter_key f (nodup_toList m) (mem_toList.mpr h)

/-- Less at one key is less in total. -/
theorem total_insert_lt {f : β → Nat} {v w : β} (h : m[k]? = some v) (hlt : f w < f v) :
    total f (m.insert k w) < total f m := by
  have hsame : (m.insert k w).erase k = m.erase k := by
    refine Std.ExtTreeMap.ext_getElem? fun a => ?_
    rw [getElem?_erase, getElem?_erase, getElem?_insert]
    split <;> rfl
  have hw : (m.insert k w)[k]? = some w := by rw [getElem?_insert, if_pos rfl]
  rw [total_of_getElem? f hw, total_of_getElem? f h, hsame]
  omega

theorem total_erase_lt {f : β → Nat} {v : β} (h : m[k]? = some v) (hpos : 0 < f v) :
    total f (m.erase k) < total f m := by
  rw [total_of_getElem? f h]
  omega

theorem exists_of_total_pos {f : β → Nat} (h : 0 < total f m) :
    ∃ (k : κ) (v : β), m[k]? = some v := by
  by_cases hempty : ∃ b, b ∈ m.toList
  · obtain ⟨b, hb⟩ := hempty
    exact ⟨b.1, b.2, mem_toList.mp hb⟩
  · rw [total, List.eq_nil_iff_forall_not_mem.mpr fun b hb => hempty ⟨b, hb⟩] at h
    exact absurd h (Nat.lt_irrefl 0)

theorem eq_empty_of_total {f : β → Nat} (hf : ∀ v, 0 < f v) (h : total f m = 0) : m = ∅ := by
  refine eq_empty_of_forall_not_mem fun k hk => ?_
  obtain ⟨v, hv⟩ := mem_iff_exists.mp hk
  have := total_of_getElem? f hv
  have := hf v
  omega

end HolyGrail.OrdMap
