import Mathlib.Data.Set.Function

/-!
# HolyGrail.Ledger

Items that are given consecutive numbers, over any type.

A `Ledger` carries its two rules with it: every item lies below the next number
to give, and a number names one item.  Numbers may be given again once their
items are forgotten, so there are two ways to go on: `issue` the next number,
or `restart` from the items that are left.
-/

namespace HolyGrail

structure Ledger {α : Type u} (num : α → Nat) where
  next : Nat
  items : Set α
  lt_next : ∀ a ∈ items, num a < next
  unique : Set.InjOn num items

namespace Ledger

variable {α : Type u} {num : α → Nat} (ledger : Ledger num)

/-- Nothing was given a number. -/
def empty : Ledger num where
  next := 0
  items := ∅
  lt_next a ha := absurd ha (Set.notMem_empty a)
  unique := Set.injOn_empty num

/-- An item takes the next number. -/
def issue (a : α) (h : num a = ledger.next) : Ledger num where
  next := ledger.next + 1
  items := insert a ledger.items
  lt_next b hb := by
    rcases hb with rfl | hb
    · omega
    · exact Nat.lt_succ_of_lt (ledger.lt_next b hb)
  unique := by
    have hfresh : a ∉ ledger.items := fun ha => by
      have := ledger.lt_next a ha
      omega
    rw [Set.injOn_insert hfresh]
    refine ⟨ledger.unique, ?_⟩
    rintro ⟨b, hb, he⟩
    have := ledger.lt_next b hb
    omega

theorem subset_issue (a : α) (h : num a = ledger.next) :
    ledger.items ⊆ (ledger.issue a h).items := Set.subset_insert a ledger.items

theorem mem_issue (a : α) (h : num a = ledger.next) : a ∈ (ledger.issue a h).items :=
  Set.mem_insert a ledger.items

/-- The items outside `kept` are forgotten, and numbering goes on above the
rest. -/
def restart (kept : Set α) (next : Nat) (h : ∀ a ∈ ledger.items ∩ kept, num a < next) :
    Ledger num where
  next
  items := ledger.items ∩ kept
  lt_next := h
  unique := ledger.unique.mono Set.inter_subset_left

end Ledger

end HolyGrail
