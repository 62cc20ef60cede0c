import HolyGrail.OrdMap
import Mathlib.Logic.Relation

/-!
# HolyGrail.Run

Runs of a transition system given as a partial step function on states and
actions.  A guard says which actions a run may take in which state, so one
step function serves several kinds of run: the same system with one writer or
many, with or without failures.
-/

namespace HolyGrail

section
variable {σ : Type u} {α : Type v} (step : σ → α → Option σ) (guard : σ → α → Prop)

/-- One step, by an action the guard allows. -/
def Moves (s s' : σ) : Prop := ∃ a, guard s a ∧ step s a = some s'

/-- Any number of steps. -/
def Reaches : σ → σ → Prop := Relation.ReflTransGen (Moves step guard)

/-- Take a list of actions in turn, as long as each is allowed and possible. -/
def attempt [∀ s a, Decidable (guard s a)] (s : σ) : List α → Option σ
  | [] => some s
  | a :: as => if guard s a then (step s a).bind fun s' => attempt s' as else none
end

variable {σ : Type u} {α : Type v} {step : σ → α → Option σ} {guard : σ → α → Prop}

namespace Reaches

theorem refl (s : σ) : Reaches step guard s s := Relation.ReflTransGen.refl

theorem trans {s t u : σ} (h₁ : Reaches step guard s t) (h₂ : Reaches step guard t u) :
    Reaches step guard s u := Relation.ReflTransGen.trans h₁ h₂

theorem tail {s t u : σ} (h : Reaches step guard s t) (a : α) (hg : guard t a)
    (hs : step t a = some u) : Reaches step guard s u := Relation.ReflTransGen.tail h ⟨a, hg, hs⟩

/-- A run may be allowed more. -/
theorem mono {guard' : σ → α → Prop} {s t : σ} (h : Reaches step guard s t)
    (hg : ∀ s a, guard s a → guard' s a) : Reaches step guard' s t := by
  induction h with
  | refl => exact refl _
  | tail _ hm ih =>
      obtain ⟨a, ha, hs⟩ := hm
      exact ih.tail a (hg _ a ha) hs

/-- **Invariant rule**: what holds at the start and is kept by every allowed
step holds in every state reached. -/
theorem invariant {s t : σ} (h : Reaches step guard s t) (Inv : σ → Prop) (h0 : Inv s)
    (hstep : ∀ s a s', Inv s → guard s a → step s a = some s' → Inv s') : Inv t := by
  induction h with
  | refl => exact h0
  | tail _ hm ih =>
      obtain ⟨a, hg, hs⟩ := hm
      exact hstep _ a _ ih hg hs

/-- **Simulation rule**: if every allowed step keeps `Inv` and either shows as a step
of another system or does not show at all, then a run shows as a run of it. -/
theorem simulates {σ' : Type u'} {α' : Type v'} {step' : σ' → α' → Option σ'}
    {guard' : σ' → α' → Prop} {s t : σ} (h : Reaches step guard s t) (f : σ → σ')
    (Inv : σ → Prop) (h0 : Inv s)
    (hstep : ∀ s a s', Inv s → guard s a → step s a = some s' →
      Inv s' ∧ (f s' = f s ∨ ∃ b, guard' (f s) b ∧ step' (f s) b = some (f s'))) :
    Inv t ∧ Reaches step' guard' (f s) (f t) := by
  induction h with
  | refl => exact ⟨h0, refl _⟩
  | tail _ hm ih =>
      obtain ⟨a, hg, hs⟩ := hm
      obtain ⟨hinv, hreach⟩ := ih
      obtain ⟨hinv', hshow⟩ := hstep _ a _ hinv hg hs
      cases hshow with
      | inl hsame => exact ⟨hinv', hsame ▸ hreach⟩
      | inr hmove =>
          obtain ⟨b, hb, hs'⟩ := hmove
          exact ⟨hinv', hreach.tail b hb hs'⟩

/-- **Progress rule**: where some allowed step keeps `Inv` and lowers a rank as long as
it is not zero, a run leads to rank zero. -/
theorem exists_of_rank (Inv : σ → Prop) (rank : σ → Nat)
    (hstep : ∀ s, Inv s → 0 < rank s →
      ∃ a s', guard s a ∧ step s a = some s' ∧ Inv s' ∧ rank s' < rank s) {s : σ} (h : Inv s) :
    ∃ s', Reaches step guard s s' ∧ Inv s' ∧ rank s' = 0 := by
  induction hr : rank s using Nat.strongRecOn generalizing s with
  | ind r ih =>
      by_cases h0 : r = 0
      · exact ⟨s, refl s, h, by omega⟩
      · obtain ⟨a, s', hg, hs, hinv, hlt⟩ := hstep s h (by omega)
        obtain ⟨t, ht, hinv', hzero⟩ := ih (rank s') (by omega) hinv rfl
        exact ⟨t, ((refl s).tail a hg hs).trans ht, hinv', hzero⟩

section
variable {κ : Type w} {γ : Type w'} [Ord κ] [Std.TransOrd κ] [Std.LawfulEqOrd κ] [DecidableEq κ]

/-- **Drain rule**: where each call of a map can go on to a call with less left to do,
or to its end, a run leads to where no call is left. -/
theorem exists_of_calls (Inv : σ → Prop) (calls : σ → Std.ExtTreeMap κ γ) (left : γ → Nat)
    (hleft : ∀ c, 0 < left c)
    (hstep : ∀ s k c, Inv s → (calls s)[k]? = some c →
      ∃ a s', guard s a ∧ step s a = some s' ∧ Inv s' ∧
        ((∃ c', calls s' = (calls s).insert k c' ∧ left c' < left c) ∨
          calls s' = (calls s).erase k)) {s : σ} (h : Inv s) :
    ∃ s', Reaches step guard s s' ∧ Inv s' ∧ calls s' = ∅ := by
  have hlower : ∀ s, Inv s → 0 < OrdMap.total left (calls s) → ∃ a s', guard s a ∧
      step s a = some s' ∧ Inv s' ∧ OrdMap.total left (calls s') < OrdMap.total left (calls s) := by
    intro s hs hpos
    obtain ⟨k, c, hc⟩ := OrdMap.exists_of_total_pos hpos
    obtain ⟨a, s', hg, hs', hinv, hcalls⟩ := hstep s k c hs hc
    refine ⟨a, s', hg, hs', hinv, ?_⟩
    cases hcalls with
    | inl hinsert =>
        obtain ⟨c', he, hlt⟩ := hinsert
        rw [he]
        exact OrdMap.total_insert_lt hc hlt
    | inr he =>
        rw [he]
        exact OrdMap.total_erase_lt hc (hleft c)
  obtain ⟨s', hreach, hinv, hzero⟩ := exists_of_rank Inv _ hlower h
  exact ⟨s', hreach, hinv, OrdMap.eq_empty_of_total hleft hzero⟩

end

end Reaches

/-- A list of actions that could be taken is a run. -/
theorem reaches_of_attempt [∀ s a, Decidable (guard s a)] {s t : σ} {as : List α}
    (h : attempt step guard s as = some t) : Reaches step guard s t := by
  induction as generalizing s with
  | nil =>
      rw [attempt, Option.some.injEq] at h
      exact h ▸ .refl s
  | cons a as ih =>
      rw [attempt] at h
      split at h
      · next hg =>
          obtain ⟨s', hs, ht⟩ := Option.bind_eq_some_iff.mp h
          exact ((Reaches.refl s).tail a hg hs).trans (ih ht)
      · contradiction

/-- A run to a state of a given kind, by trying a list of actions. -/
theorem exists_reaches_of_attempt [∀ s a, Decidable (guard s a)] {s : σ} (P : σ → Prop)
    [DecidablePred P] (as : List α) (h : (attempt step guard s as).any (fun t => P t) = true) :
    ∃ t, Reaches step guard s t ∧ P t := by
  obtain ⟨t, ht, hP⟩ := (Option.any_eq_true _ _).mp h
  exact ⟨t, reaches_of_attempt ht, of_decide_eq_true hP⟩

/-- **Invariant rule over a list of actions**: what the actions taken so far say
of the state reached. -/
theorem invariant_of_attempt [∀ s a, Decidable (guard s a)] {s t : σ} {as : List α}
    (h : attempt step guard s as = some t) (P : List α → σ → Prop) (h0 : P [] s)
    (hstep : ∀ as s a s', P as s → guard s a → step s a = some s' → P (as ++ [a]) s') : P as t := by
  suffices ∀ pre as s, P pre s → attempt step guard s as = some t → P (pre ++ as) t from
    this [] as s h0 h
  intro pre as
  induction as generalizing pre with
  | nil =>
      intro s hs h
      rw [attempt, Option.some.injEq] at h
      rw [List.append_nil]
      exact h ▸ hs
  | cons a as ih =>
      intro s hs h
      rw [attempt] at h
      split at h
      · next hg =>
          obtain ⟨s', hs', ht⟩ := Option.bind_eq_some_iff.mp h
          rw [List.append_cons]
          exact ih (pre ++ [a]) s' (hstep pre s a s' hs hg hs') ht
      · contradiction

/-! ## calls that fail halfway -/

/-- A sequence of calls returns when each of them does. -/
theorem bind_eq_ok {ε : Type u} {α β : Type v} {x : Except ε α} {f : α → Except ε β} {b : β} :
    x >>= f = .ok b ↔ ∃ a, x = .ok a ∧ f a = .ok b := by
  cases x with
  | ok a => exact ⟨fun h => ⟨a, rfl, h⟩, fun ⟨_, ha, h⟩ => by rw [Except.ok.inj ha]; exact h⟩
  | error e => exact ⟨nofun, nofun⟩

/-- What a call leaves behind: `ok` of what it returned, or `err` of the state it
failed in. -/
def Leaves {ε : Type u} {α : Type v} (out : Except ε α) (ok : α → Prop) (err : ε → Prop) : Prop :=
  match out with
  | .ok a => ok a
  | .error e => err e

namespace Leaves

variable {ε : Type u} {α β : Type v} {x : Except ε α} {P : α → Prop} {E : ε → Prop}

/-- **Sequencing rule**: the second call starts where the first one returned, and
both fail alike. -/
theorem bind {f : α → Except ε β} {Q : β → Prop} (hx : Leaves x P E)
    (hf : ∀ a, P a → Leaves (f a) Q E) : Leaves (x >>= f) Q E := by
  cases x with
  | ok a => exact hf a hx
  | error e => exact hx

theorem mono {P' : α → Prop} {E' : ε → Prop} (hx : Leaves x P E) (hP : ∀ a, P a → P' a)
    (hE : ∀ e, E e → E' e) : Leaves x P' E' := by
  cases x with
  | ok a => exact hP a hx
  | error e => exact hE e hx

end Leaves

end HolyGrail
