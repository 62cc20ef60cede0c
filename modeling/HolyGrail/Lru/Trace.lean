import HolyGrail.Lru
import Mathlib.Algebra.Order.BigOperators.Group.List
import Mathlib.Algebra.Order.Group.Nat
import Mathlib.Data.List.Dedup
import Mathlib.Data.List.Infix
import Mathlib.Data.List.Perm.Subperm
import Mathlib.Data.List.Rotate

/-!
# HolyGrail.Lru.Trace

A weighted LRU cache in front of a fixed map, over traces of requests.

`request` serves one key: a hit touches it, a miss inserts its value.  `serve`
is the cache after a trace, `missed` the keys of the trace that missed.

* `serve_suffix`, `missed_sublist` — a larger cache ends with what a smaller one
  ends with, and misses nothing that the smaller one hits;
* `serve_warm`, `missed_of_resident` — a trace that fits is resident afterwards;
* `serve_of_fits`, `missed_of_fits` — from an empty cache it misses each key once;
* `serve_recency` — from an empty cache a trace leaves a warm end of its keys in
  the order of their last requests;
* `missed_inTurn` — keys requested in turn never miss again if they fit together,
  and always miss if they do not.
-/

namespace HolyGrail.Lru

variable {κ : Type u} {β : Type v} (w : β → Nat)

/-! ## the warm end -/

/-- What a smaller room keeps of a warm end, a larger room keeps of the whole. -/
theorem makeRoom_mono {small large : List (κ × β)} {room room' : Nat} (hsuf : small <:+ large)
    (hroom : room ≤ room') : makeRoom w room small <:+ makeRoom w room' large := by
  have hkept : makeRoom w room small <:+ large := (makeRoom_suffix w room small).trans hsuf
  obtain ⟨dropped, hsplit⟩ := hkept
  have hfits : weight w (makeRoom w room small) ≤ room' :=
    Nat.le_trans (weight_makeRoom_le w room small) hroom
  exact List.suffix_of_suffix_length_le ⟨dropped, hsplit⟩ (makeRoom_suffix w room' large)
    (makeRoom_shortest w hsplit.symm hfits)

theorem makeRoom_of_fits {bs : List (κ × β)} {room : Nat} (h : weight w bs ≤ room) :
    makeRoom w room bs = bs := by
  cases bs with
  | nil => rfl
  | cons b bs => rw [makeRoom, if_pos h]

/-- A warm end that fits the room is kept. -/
theorem suffix_makeRoom {kept bs : List (κ × β)} {room : Nat} (hsuf : kept <:+ bs)
    (hfits : weight w kept ≤ room) : kept <:+ makeRoom w room bs := by
  have hmono := makeRoom_mono w hsuf (Nat.le_refl room)
  rwa [makeRoom_of_fits w hfits] at hmono

theorem weight_concat (bs : List (κ × β)) (k : κ) (v : β) :
    weight w (bs ++ [(k, v)]) = weight w bs + w v := by
  rw [weight_append, weight, weight]
  rfl

theorem append_suffix {small large : List (κ × β)} (h : small <:+ large) (b : κ × β) :
    small ++ [b] <:+ large ++ [b] := by
  obtain ⟨cold, rfl⟩ := h
  exact ⟨cold, by rw [List.append_assoc]⟩

/-! ## requests -/

variable [DecidableEq κ]

theorem others_suffix {small large : List (κ × β)} (k : κ) (h : small <:+ large) :
    others k small <:+ others k large := h.filter _

/-- Serve a key: a hit makes it the warmest one, a miss inserts its value. -/
def request (cap : Nat) (val : κ → β) (bs : List (κ × β)) (k : κ) : List (κ × β) :=
  match bs.lookup k with
  | some _ => touch k bs
  | none => insert w cap k (val k) bs

/-- The cache after a trace. -/
def serve (cap : Nat) (val : κ → β) (bs : List (κ × β)) (trace : List κ) : List (κ × β) :=
  trace.foldl (request w cap val) bs

/-- The requests of a trace that missed. -/
def missed (cap : Nat) (val : κ → β) : List (κ × β) → List κ → List κ
  | _, [] => []
  | bs, k :: trace =>
      let rest := missed cap val (request w cap val bs k) trace
      if k ∈ bs.map Prod.fst then rest else k :: rest

/-- Keys with their values. -/
def bind (val : κ → β) (ks : List κ) : List (κ × β) := ks.map fun k => (k, val k)

/-- The cache binds keys once, to their values. -/
structure Caches (val : κ → β) (bs : List (κ × β)) : Prop where
  nodup : (bs.map Prod.fst).Nodup
  values : ∀ b ∈ bs, b.2 = val b.1

section
variable {cap : Nat} {val : κ → β} {bs : List (κ × β)} {k : κ}

omit [DecidableEq κ] in
theorem Caches.nil (val : κ → β) : Caches val [] := ⟨List.nodup_nil, by simp⟩

omit [DecidableEq κ] in
theorem Caches.mem_of_bound (h : Caches val bs) (hk : k ∈ bs.map Prod.fst) : (k, val k) ∈ bs := by
  obtain ⟨b, hb, rfl⟩ := List.mem_map.mp hk
  rw [← h.values b hb]
  exact hb

theorem Caches.lookup (h : Caches val bs) (hk : k ∈ bs.map Prod.fst) :
    bs.lookup k = some (val k) := lookup_eq_some h.nodup (h.mem_of_bound hk)

omit [DecidableEq κ] in
theorem ne_of_not_bound (hk : k ∉ bs.map Prod.fst) : ∀ b ∈ bs, b.1 ≠ k :=
  fun _ hb he => hk (he ▸ List.mem_map_of_mem hb)

theorem request_eq_touch (h : Caches val bs) (hk : k ∈ bs.map Prod.fst) :
    request w cap val bs k = touch k bs := by
  rw [request, h.lookup hk]

theorem request_eq_insert (hk : k ∉ bs.map Prod.fst) :
    request w cap val bs k = insert w cap k (val k) bs := by
  rw [request, lookup_eq_none (ne_of_not_bound hk)]

theorem length_touch (h : Caches val bs) (k : κ) : (touch k bs).length = bs.length := by
  have hlen : ∀ bs : List (κ × β), weight (fun _ => 1) bs = bs.length := by
    intro bs
    rw [weight_eq_sum]
    simp
  by_cases hk : k ∈ bs.map Prod.fst
  · have hothers := weight_others (fun _ => 1) h.nodup (h.mem_of_bound hk)
    rw [hlen, hlen] at hothers
    rw [touch, h.lookup hk, List.length_append]
    exact hothers
  · rw [touch, lookup_eq_none (ne_of_not_bound hk)]

theorem request_of_hit (h : Caches val bs) (hk : k ∈ bs.map Prod.fst) :
    request w cap val bs k = others k bs ++ [(k, val k)] := by
  rw [request_eq_touch w h hk, touch, h.lookup hk]

theorem request_of_miss (hk : k ∉ bs.map Prod.fst) :
    request w cap val bs k =
      if cap < w (val k) then bs else makeRoom w (cap - w (val k)) bs ++ [(k, val k)] := by
  rw [request_eq_insert w hk, insert, others_eq_self (ne_of_not_bound hk)]

/-- A request that is not refused ends in the key and keeps a warm end of the others. -/
theorem request_admitted (h : Caches val bs) (hk : w (val k) ≤ cap) :
    ∃ kept, kept <:+ others k bs ∧ request w cap val bs k = kept ++ [(k, val k)] := by
  by_cases hbound : k ∈ bs.map Prod.fst
  · exact ⟨_, List.suffix_rfl, request_of_hit w h hbound⟩
  · rw [request_of_miss w hbound, if_neg (by omega), others_eq_self (ne_of_not_bound hbound)]
    exact ⟨_, makeRoom_suffix w _ _, rfl⟩

theorem request_cases (cap : Nat) (h : Caches val bs) (k : κ) :
    request w cap val bs k = bs ∨
      ∃ kept, kept <:+ others k bs ∧ request w cap val bs k = kept ++ [(k, val k)] := by
  by_cases hbound : k ∈ bs.map Prod.fst
  · exact .inr ⟨_, List.suffix_rfl, request_of_hit w h hbound⟩
  · by_cases hk : w (val k) ≤ cap
    · exact .inr (request_admitted w h hk)
    · exact .inl (by rw [request_of_miss w hbound, if_pos (by omega)])

theorem Caches.request (h : Caches val bs) (k : κ) : Caches val (request w cap val bs k) := by
  rcases request_cases w cap h k with heq | ⟨kept, hkept, heq⟩
  · rwa [heq]
  · have hsub : ∀ b ∈ kept, b ∈ bs ∧ b.1 ≠ k := by
      intro b hb
      have := hkept.mem hb
      rw [others, List.mem_filter] at this
      exact ⟨this.1, of_decide_eq_true this.2⟩
    rw [heq]
    refine ⟨?_, ?_⟩
    · rw [List.map_append, List.nodup_append]
      refine ⟨?_, by simp, ?_⟩
      · exact (h.nodup.sublist (List.filter_sublist.map Prod.fst)).sublist
          (hkept.sublist.map Prod.fst)
      · intro a ha b hb
        obtain ⟨c, hc, rfl⟩ := List.mem_map.mp ha
        rw [List.map_cons, List.map_nil, List.mem_singleton] at hb
        rw [hb]
        exact (hsub c hc).2
    · intro b hb
      rw [List.mem_append, List.mem_singleton] at hb
      rcases hb with hb | rfl
      · exact h.values b (hsub b hb).1
      · rfl

theorem Caches.serve (h : Caches val bs) (cap : Nat) (trace : List κ) :
    Caches val (serve w cap val bs trace) := by
  induction trace generalizing bs with
  | nil => exact h
  | cons k trace ih => exact ih (h.request w k)
end

/-! ## traces -/

section
variable {cap : Nat} {val : κ → β} {bs : List (κ × β)}

theorem serve_append (xs ys : List κ) :
    serve w cap val bs (xs ++ ys) = serve w cap val (serve w cap val bs xs) ys :=
  List.foldl_append

theorem serve_concat (xs : List κ) (k : κ) :
    serve w cap val bs (xs ++ [k]) = request w cap val (serve w cap val bs xs) k :=
  serve_append w xs [k]

theorem missed_append (xs ys : List κ) :
    missed w cap val bs (xs ++ ys) =
      missed w cap val bs xs ++ missed w cap val (serve w cap val bs xs) ys := by
  induction xs generalizing bs with
  | nil => rfl
  | cons k xs ih =>
      rw [List.cons_append, missed, missed, ih]
      split
      · rfl
      · rfl

theorem missed_concat (xs : List κ) (k : κ) :
    missed w cap val bs (xs ++ [k]) = missed w cap val bs xs ++
      if k ∈ (serve w cap val bs xs).map Prod.fst then [] else [k] := by
  rw [missed_append]
  rfl

/-- A cache within its capacity stays within it. -/
theorem weight_request_le (h : Caches val bs) (hcap : weight w bs ≤ cap) (k : κ) :
    weight w (request w cap val bs k) ≤ cap := by
  by_cases hk : k ∈ bs.map Prod.fst
  · have hothers := weight_others w h.nodup (h.mem_of_bound hk)
    rw [request_of_hit w h hk, weight_concat]
    omega
  · rw [request_of_miss w hk]
    split
    · exact hcap
    · have := weight_makeRoom_le w (cap - w (val k)) bs
      rw [weight_concat]
      omega

theorem weight_serve_le (h : Caches val bs) (hcap : weight w bs ≤ cap) (trace : List κ) :
    weight w (serve w cap val bs trace) ≤ cap := by
  induction trace generalizing bs with
  | nil => exact hcap
  | cons k trace ih => exact ih (h.request w k) (weight_request_le w h hcap k)
end

/-! ## a larger cache -/

section
variable {cap cap' : Nat} {val : κ → β} {small large : List (κ × β)}

/-- **Step**: a larger cache goes on ending with what a smaller one holds. -/
theorem request_suffix (hcap : cap ≤ cap') (hs : Caches val small) (hl : Caches val large)
    (hsuf : small <:+ large) {k : κ} (hk : w (val k) ≤ cap) :
    request w cap val small k <:+ request w cap' val large k := by
  by_cases hsmall : k ∈ small.map Prod.fst
  · have hlarge : k ∈ large.map Prod.fst := (hsuf.map Prod.fst).mem hsmall
    rw [request_of_hit w hs hsmall, request_of_hit w hl hlarge]
    exact append_suffix (others_suffix k hsuf) _
  · rw [request_of_miss w hsmall, if_neg (by omega)]
    by_cases hlarge : k ∈ large.map Prod.fst
    · have hothers : others k small = small :=
        others_eq_self (ne_of_not_bound hsmall)
      have hkept := others_suffix k hsuf
      rw [hothers] at hkept
      rw [request_of_hit w hl hlarge]
      exact append_suffix ((makeRoom_suffix w _ _).trans hkept) _
    · rw [request_of_miss w hlarge, if_neg (by omega)]
      exact append_suffix (makeRoom_mono w hsuf (by omega)) _

/-- **Inclusion**: after any trace of values that fit the smaller cache, the larger
one ends with what the smaller one holds. -/
theorem serve_suffix (hcap : cap ≤ cap') (hs : Caches val small) (hl : Caches val large)
    (hsuf : small <:+ large) {trace : List κ} (hfit : ∀ k ∈ trace, w (val k) ≤ cap) :
    serve w cap val small trace <:+ serve w cap' val large trace := by
  induction trace generalizing small large with
  | nil => exact hsuf
  | cons k trace ih =>
      exact ih (hs.request w k) (hl.request w k)
        (request_suffix w hcap hs hl hsuf (hfit k List.mem_cons_self))
        fun k' hk' => hfit k' (List.mem_cons_of_mem k hk')

/-- **A larger cache misses no more**: its misses are among those of the smaller one. -/
theorem missed_sublist (hcap : cap ≤ cap') (hs : Caches val small) (hl : Caches val large)
    (hsuf : small <:+ large) {trace : List κ} (hfit : ∀ k ∈ trace, w (val k) ≤ cap) :
    (missed w cap' val large trace).Sublist (missed w cap val small trace) := by
  induction trace generalizing small large with
  | nil => exact List.Sublist.refl _
  | cons k trace ih =>
      have hrest := ih (hs.request w k) (hl.request w k)
        (request_suffix w hcap hs hl hsuf (hfit k List.mem_cons_self))
        fun k' hk' => hfit k' (List.mem_cons_of_mem k hk')
      rw [missed, missed]
      by_cases hsmall : k ∈ small.map Prod.fst
      · have hlarge : k ∈ large.map Prod.fst := (hsuf.map Prod.fst).mem hsmall
        rw [if_pos hsmall, if_pos hlarge]
        exact hrest
      · rw [if_neg hsmall]
        split
        · exact hrest.cons k
        · exact hrest.cons_cons k
end

/-! ## a trace that fits -/

section
variable {cap : Nat} {val : κ → β} {bs : List (κ × β)} {hot trace : List κ}

/-- The keys of a trace in the order of their last requests. -/
theorem dedup_concat (ks : List κ) (k : κ) :
    (ks ++ [k]).dedup = ks.dedup.filter (fun k' => k' ≠ k) ++ [k] := by
  induction ks with
  | nil => rfl
  | cons k' ks ih =>
      rw [List.cons_append, List.dedup_cons, List.dedup_cons, ih]
      by_cases hk : k' = k
      · subst hk
        by_cases hks : k' ∈ ks <;> simp [hks]
      · by_cases hks : k' ∈ ks <;> simp [hks, hk]

theorem others_bind (k : κ) (ks : List κ) :
    others k (bind val ks) = bind val (ks.filter fun k' => k' ≠ k) := by
  rw [others, bind, bind, List.filter_map]
  rfl

theorem bind_dedup_concat (ks : List κ) (k : κ) :
    bind val (ks ++ [k]).dedup = others k (bind val ks.dedup) ++ [(k, val k)] := by
  rw [dedup_concat, others_bind, bind, bind, List.map_append]
  rfl

omit [DecidableEq κ] in
theorem keys_bind (ks : List κ) : (bind val ks).map Prod.fst = ks := by
  rw [bind, List.map_map]
  exact List.map_id ks

omit [DecidableEq κ] in
theorem weight_bind (ks : List κ) :
    weight w (bind val ks) = (ks.map fun k => w (val k)).sum := by
  rw [weight_eq_sum, bind, List.map_map]
  rfl

omit [DecidableEq κ] in
theorem weight_bind_sublist {xs ys : List κ} (h : xs.Sublist ys) :
    weight w (bind val xs) ≤ weight w (bind val ys) := by
  rw [weight_bind, weight_bind]
  exact (h.map _).sum_le_sum (by simp)

omit [DecidableEq κ] in
theorem weight_bind_perm (val : κ → β) {xs ys : List κ} (h : xs.Perm ys) :
    weight w (bind val xs) = weight w (bind val ys) := by
  rw [weight_bind, weight_bind]
  exact (h.map _).sum_eq

omit [DecidableEq κ] in
/-- Fewer keys weigh less. -/
theorem weight_bind_le (val : κ → β) {xs ys : List κ} (hnd : xs.Nodup) (hsub : xs ⊆ ys) :
    weight w (bind val xs) ≤ weight w (bind val ys) := by
  obtain ⟨zs, hperm, hsublist⟩ := hnd.subperm hsub
  rw [← weight_bind_perm w val hperm]
  exact weight_bind_sublist w hsublist

/-- **A trace that fits is resident afterwards**, at the warm end, whatever was
cached before. -/
theorem serve_warm (h : Caches val bs) (hsub : trace ⊆ hot)
    (hfits : weight w (bind val hot) ≤ cap) :
    bind val trace.dedup <:+ serve w cap val bs trace := by
  induction trace using List.reverseRecOn with
  | nil => exact List.nil_suffix
  | append_singleton ks k ih =>
      have hwarm := ih fun k' hk' => hsub (List.mem_append_left _ hk')
      have hcaches := h.serve w cap ks
      rw [bind_dedup_concat, serve_concat]
      by_cases hk : k ∈ (serve w cap val bs ks).map Prod.fst
      · rw [request_of_hit w hcaches hk]
        exact append_suffix (others_suffix k hwarm) _
      · have hne := ne_of_not_bound hk
        have hall := weight_bind_le w val (List.nodup_dedup (ks ++ [k]))
          (fun k' hk' => hsub (List.mem_dedup.mp hk'))
        rw [bind_dedup_concat, others_eq_self fun b hb => hne b (hwarm.mem hb),
          weight_concat] at hall
        rw [request_of_miss w hk, if_neg (by omega),
          others_eq_self fun b hb => hne b (hwarm.mem hb)]
        exact append_suffix (suffix_makeRoom w hwarm (by omega)) _

/-- Requests for resident keys miss nothing. -/
theorem missed_of_resident (cap : Nat) (h : Caches val bs)
    (hall : ∀ k ∈ trace, k ∈ bs.map Prod.fst) :
    missed w cap val bs trace = [] := by
  induction trace generalizing bs with
  | nil => rfl
  | cons k trace ih =>
      have hk := hall k List.mem_cons_self
      rw [missed, if_pos hk]
      refine ih (h.request w k) fun k' hk' => ?_
      obtain ⟨b, hb, rfl⟩ := List.mem_map.mp (hall k' (List.mem_cons_of_mem k hk'))
      rw [request_of_hit w h hk, List.map_append, List.mem_append]
      by_cases he : b.1 = k
      · exact .inr (by simp [he])
      · exact .inl (List.mem_map_of_mem (List.mem_filter.mpr ⟨hb, by simpa using he⟩))

/-- From an empty cache nothing is evicted. -/
theorem serve_of_fits (hsub : trace ⊆ hot) (hfits : weight w (bind val hot) ≤ cap) :
    serve w cap val [] trace = bind val trace.dedup := by
  induction trace using List.reverseRecOn with
  | nil => rfl
  | append_singleton ks k ih =>
      have hserve := ih fun k' hk' => hsub (List.mem_append_left _ hk')
      have hall := weight_bind_le w val (List.nodup_dedup (ks ++ [k]))
        (fun k' hk' => hsub (List.mem_dedup.mp hk'))
      rw [bind_dedup_concat, weight_concat] at hall
      rw [bind_dedup_concat, serve_concat, hserve]
      have hcaches := (Caches.nil val).serve w cap ks
      rw [hserve] at hcaches
      by_cases hk : k ∈ (bind val ks.dedup).map Prod.fst
      · exact request_of_hit w hcaches hk
      · rw [others_eq_self (ne_of_not_bound hk)] at hall ⊢
        rw [request_of_miss w hk, if_neg (by omega), makeRoom_of_fits w (by omega)]

/-- From an empty cache each key of the trace is missed once. -/
theorem missed_of_fits (hsub : trace ⊆ hot) (hfits : weight w (bind val hot) ≤ cap) :
    (missed w cap val [] trace).Perm trace.dedup := by
  induction trace using List.reverseRecOn with
  | nil => exact List.Perm.refl _
  | append_singleton ks k ih =>
      have hks : ks ⊆ hot := fun k' hk' => hsub (List.mem_append_left _ hk')
      rw [missed_concat, serve_of_fits w hks hfits, keys_bind, dedup_concat]
      split
      · next hk =>
          rw [List.mem_dedup] at hk
          have herase : ks.dedup.filter (fun k' => k' ≠ k) = ks.dedup.erase k := by
            rw [(List.nodup_dedup ks).erase_eq_filter]
            exact List.filter_congr fun k' _ => by rw [bne, beq_eq_decide, decide_not]
          rw [List.append_nil, herase]
          refine (ih hks).trans ?_
          exact (List.perm_cons_erase (List.mem_dedup.mpr hk)).trans
            (List.perm_append_singleton _ _).symm
      · next hk =>
          rw [List.mem_dedup] at hk
          have hsame : ks.dedup.filter (fun k' => k' ≠ k) = ks.dedup := by
            rw [List.filter_eq_self]
            intro k' hk'
            simp only [ne_eq, decide_not, Bool.not_eq_eq_eq_not, Bool.not_true,
              decide_eq_false_iff_not]
            exact fun he => hk (he ▸ List.mem_dedup.mp hk')
          rw [hsame]
          exact (ih hks).append_right [k]
end

/-! ## keys that fit together -/

section
variable {cap : Nat} {val : κ → β} {bs : List (κ × β)} {hot : List κ} {k : κ}

omit [DecidableEq κ] in
/-- A cache is made of its keys. -/
theorem Caches.eq_bind (h : Caches val bs) : bs = bind val (bs.map Prod.fst) := by
  rw [bind, List.map_map]
  conv_lhs => rw [← List.map_id bs]
  refine List.map_congr_left fun b hb => ?_
  exact Prod.ext rfl (h.values b hb)

theorem mem_keys_others {k' : κ} :
    k' ∈ (others k bs).map Prod.fst ↔ k' ∈ bs.map Prod.fst ∧ k' ≠ k := by
  simp only [others, List.mem_map, List.mem_filter, decide_eq_true_eq]
  constructor
  · rintro ⟨b, ⟨hb, hne⟩, rfl⟩
    exact ⟨⟨b, hb, rfl⟩, hne⟩
  · rintro ⟨⟨b, hb, rfl⟩, hne⟩
    exact ⟨b, ⟨hb, hne⟩, rfl⟩

/-- A binding at the warm end, and those of the other keys. -/
theorem mem_keys_warmest {k' : κ} {v : β} :
    k' ∈ (others k bs ++ [(k, v)]).map Prod.fst ↔ k' ∈ bs.map Prod.fst ∨ k' = k := by
  rw [List.map_append, List.mem_append, mem_keys_others, List.map_cons, List.map_nil,
    List.mem_singleton]
  by_cases he : k' = k <;> simp [he]

theorem mem_keys_touch {k' : κ} : k' ∈ (touch k bs).map Prod.fst ↔ k' ∈ bs.map Prod.fst := by
  rw [touch]
  cases hk : bs.lookup k with
  | none => rfl
  | some v =>
      obtain ⟨xs, ys, rfl, -⟩ := List.lookup_eq_some_iff.mp hk
      simp only [mem_keys_warmest]
      grind

theorem Caches.warmest (h : Caches val bs) (k : κ) :
    Caches val (others k bs ++ [(k, val k)]) := by
  refine ⟨?_, fun b hb => ?_⟩
  · rw [List.map_append, List.nodup_append]
    refine ⟨h.nodup.sublist (List.filter_sublist.map Prod.fst), by simp, ?_⟩
    intro a ha b hb
    rw [List.map_cons, List.map_nil, List.mem_singleton] at hb
    rw [hb]
    exact (mem_keys_others.mp ha).2
  · rw [List.mem_append, List.mem_singleton] at hb
    rcases hb with hb | rfl
    · exact h.values b (List.mem_of_mem_filter hb)
    · rfl

omit [DecidableEq κ] in
/-- Keys of a set weigh no more than the set. -/
theorem Caches.weight_le (h : Caches val bs) (hot : List κ)
    (hsub : ∀ k ∈ bs.map Prod.fst, k ∈ hot) : weight w bs ≤ weight w (bind val hot) := by
  rw [h.eq_bind]
  exact weight_bind_le w val h.nodup hsub

/-- **An insert of a key of a set that fits drops no other key.** -/
theorem insert_of_fits (h : Caches val bs) (hsub : ∀ k ∈ bs.map Prod.fst, k ∈ hot) (hk : k ∈ hot)
    (hfits : weight w (bind val hot) ≤ cap) :
    insert w cap k (val k) bs = others k bs ++ [(k, val k)] := by
  have hall := (h.warmest k).weight_le w hot fun k' hk' =>
    (mem_keys_warmest.mp hk').elim (hsub k') fun he => he ▸ hk
  rw [weight_concat] at hall
  rw [insert, if_neg (by omega), makeRoom_of_fits w (by omega)]
end

/-! ## keys requested in turn -/

section
variable {cap : Nat} {val : κ → β} {hot : List κ}

/-- From an empty cache, a warm end of the keys in the order of their last requests. -/
theorem serve_recency (val : κ → β) {trace : List κ} (hfit : ∀ k ∈ trace, w (val k) ≤ cap) :
    serve w cap val [] trace <:+ bind val trace.dedup := by
  induction trace using List.reverseRecOn with
  | nil => exact List.suffix_rfl
  | append_singleton ks k ih =>
      have hsuf := ih fun k' hk' => hfit k' (List.mem_append_left _ hk')
      have hk : w (val k) ≤ cap := hfit k (by simp)
      have hcaches := (Caches.nil val).serve w cap ks
      have hothers := others_suffix k hsuf
      rw [bind_dedup_concat, serve_concat]
      obtain ⟨kept, hkept, heq⟩ := request_admitted w hcaches hk
      rw [heq]
      exact append_suffix (hkept.trans hothers) _

/-- The first `n` requests of the keys in turn. -/
def inTurn (hot : List κ) : Nat → List κ
  | 0 => []
  | n + 1 => inTurn hot n ++ (hot[n % hot.length]?).toList

omit [DecidableEq κ] in
theorem inTurn_subset (hot : List κ) (n : Nat) : inTurn hot n ⊆ hot := by
  induction n with
  | zero => exact List.nil_subset hot
  | succ n ih =>
      refine List.append_subset.mpr ⟨ih, fun k hk => ?_⟩
      rw [Option.mem_toList] at hk
      exact List.mem_of_getElem? hk

omit [DecidableEq κ] in
theorem length_inTurn (hne : hot ≠ []) (n : Nat) : (inTurn hot n).length = n := by
  induction n with
  | zero => rfl
  | succ n ih =>
      have hlt : n % hot.length < hot.length := Nat.mod_lt n (List.length_pos_iff.mpr hne)
      rw [inTurn, List.length_append, ih, List.getElem?_eq_getElem hlt]
      rfl

omit [DecidableEq κ] in
/-- The key whose turn it is. -/
theorem inTurn_next (hot : List κ) (n : Nat) : hot[n % hot.length]? = (hot.rotate n).head? := by
  cases hot with
  | nil => simp
  | cons k ks => rw [← List.rotate_mod, List.head?_rotate (Nat.mod_lt n (by simp))]

/-- The key whose turn it is has waited longest. -/
theorem dedup_inTurn (hnd : hot.Nodup) (n : Nat) :
    (hot ++ inTurn hot n).dedup = hot.rotate n := by
  induction n with
  | zero => rw [inTurn, List.append_nil, List.rotate_zero, List.dedup_eq_self.mpr hnd]
  | succ n ih =>
      rw [inTurn, inTurn_next, ← List.append_assoc, ← List.rotate_rotate]
      have hrot : (hot.rotate n).Nodup := List.nodup_rotate.mpr hnd
      cases hr : hot.rotate n with
      | nil =>
          rw [hr] at ih
          simp [ih]
      | cons k rest =>
          rw [hr, List.nodup_cons] at hrot
          have hfilter : rest.filter (fun k' => k' ≠ k) = rest := by
            rw [List.filter_eq_self]
            intro k' hk'
            exact decide_eq_true fun he => hrot.1 (he ▸ hk')
          rw [List.head?_cons, Option.toList_some, dedup_concat, ih, hr,
            List.filter_cons_of_neg (by simp), hfilter, List.rotate_cons_succ, List.rotate_zero]

omit [DecidableEq κ] in
/-- A warm end that holds the coldest key holds all. -/
theorem not_cached_coldest {bs : List (κ × β)} {k : κ} {ks : List κ}
    (hsuf : bs <:+ bind val (k :: ks)) (hnd : (k :: ks).Nodup)
    (hover : weight w bs < weight w (bind val (k :: ks))) : k ∉ bs.map Prod.fst := by
  intro hmem
  rcases List.suffix_cons_iff.mp hsuf with heq | hrest
  · rw [heq] at hover
    exact absurd hover (Nat.lt_irrefl _)
  · have hks := (hrest.map Prod.fst).mem hmem
    rw [← bind, keys_bind] at hks
    exact (List.nodup_cons.mp hnd).1 hks

/-- **Keys that do not fit together miss in every turn**, however often they are
requested; keys that fit never miss again. -/
theorem missed_inTurn (hnd : hot.Nodup) (hfit : ∀ k ∈ hot, w (val k) ≤ cap) (n : Nat) :
    missed w cap val (serve w cap val [] hot) (inTurn hot n) =
      if weight w (bind val hot) ≤ cap then [] else inTurn hot n := by
  split
  · next hfits =>
      refine missed_of_resident w cap ((Caches.nil val).serve w cap hot) fun k hk => ?_
      rw [serve_of_fits w (List.Subset.refl hot) hfits, keys_bind, List.mem_dedup]
      exact inTurn_subset hot n hk
  · next hover =>
      induction n with
      | zero => rfl
      | succ n ih =>
          rw [inTurn]
          cases hk : hot[n % hot.length]? with
          | none => simpa using ih
          | some k =>
              have hall : ∀ k' ∈ hot ++ inTurn hot n, w (val k') ≤ cap := by
                intro k' hk'
                rw [List.mem_append] at hk'
                exact hfit k' (hk'.elim id fun h => inTurn_subset hot n h)
              have hsuf := serve_recency w val hall
              rw [dedup_inTurn hnd, serve_append] at hsuf
              have hle := weight_serve_le w ((Caches.nil val).serve w cap hot)
                (weight_serve_le w (Caches.nil val) (Nat.zero_le cap) hot) (inTurn hot n)
              have hrot := weight_bind_perm w val (List.rotate_perm hot n)
              have hnd' : (hot.rotate n).Nodup := List.nodup_rotate.mpr hnd
              rw [inTurn_next] at hk
              obtain ⟨rest, hr⟩ := List.head?_eq_some_iff.mp hk
              rw [hr] at hsuf hrot hnd'
              have hcold := not_cached_coldest w hsuf hnd' (by omega)
              rw [Option.toList_some, missed_concat, ih, if_neg hcold]
end

end HolyGrail.Lru
