import CachePool.Barrier.Tile

/-!
# What the tile barrier does to other traffic

Requests and answers that are not the barrier's pass, except where the barrier mistakes one for the other:
in `Take` a port sends on a request it does not take and hides an answer it lets be taken, and in `Global`
port 0 takes any answer for the barrier's.

* `Undisturbed` — the condition on one cycle.
* `transparent_next` — what one cycle keeps: the traffic of each port, and what is owed on port 0.
* `barrier_transparent` — in every run whose cycles meet the condition, other requests are sent on once,
  their answers arrive once, and each release is granted by the answer to the barrier request itself.
-/

set_option autoImplicit false

namespace CachePool

namespace Barrier

/-- The request is the barrier's. -/
def Req.isBarrier {α : Type} (barrierAddr : BitVec 32) (r : Req α) : Bool := r.addr = barrierAddr

/-- The entry is the barrier request of the tile. -/
def Entry.isBarrier {α β : Type} (barrierAddr : BitVec 32) (e : Entry α β) : Bool :=
  e.req.isBarrier barrierAddr

namespace TileSys

variable {n : Nat} [NeZero n] {α β : Type}

/-- In `Take` no request is sent on, and no answer is taken but the barrier's; when the barrier request is
taken on port 0, every earlier request of the port is answered by the end of the cycle, and it is not. -/
def Undisturbed (barrierAddr : BitVec 32) (s : TileSys n α β) (x : TileIn n α β) : Prop :=
  (∀ i, s.regs.stateQ i = .Take → (s.inReq x i).qValid = true → x.qReady i = false) ∧
  (∀ i, s.regs.stateQ i = .Take → x.pReady i = true →
    ∀ e ∈ s.shown barrierAddr x i, e.isBarrier barrierAddr = true) ∧
  (s.regs.localBarrier = true → x.qReady 0 = true →
    (s.pending 0).length = if (s.showing 0 || x.pValid 0) && x.pReady 0 then 1 else 0)

instance (barrierAddr : BitVec 32) (s : TileSys n α β) (x : TileIn n α β) :
    Decidable (s.Undisturbed barrierAddr x) := by
  have : ∀ i, Decidable (∀ e ∈ s.shown barrierAddr x i, e.isBarrier barrierAddr = true) :=
    fun i => Option.decidableForallMem (s.shown barrierAddr x i)
  unfold Undisturbed
  exact inferInstance

/-- The traffic of each port, and what the downstream owes to port 0 in each state. -/
structure Transparent (barrierAddr : BitVec 32) (s : TileSys n α β) : Prop where
  forwards : ∀ i, ((s.forwarded i).filter fun e => !e.isBarrier barrierAddr).map (·.req) =
    ((s.accepted i).filter fun r => !r.isBarrier barrierAddr).map (TileBarrier.outQ · i)
  passes : ∀ i, s.passed i =
    ((s.answered i).filter fun e => !e.isBarrier barrierAddr).map (·.answer)
  ordinary : ∀ i, i ≠ 0 ∨ s.regs.stateQ 0 = .Idle ∨ s.regs.stateQ 0 = .Wait →
    ∀ e ∈ s.pending i, e.isBarrier barrierAddr = false
  global : s.regs.stateQ 0 = .Global → ∃ e, s.pending 0 = [e] ∧ e.isBarrier barrierAddr = true
  take : s.regs.stateQ 0 = .Take → s.pending 0 = [] ∨
    ∃ e, s.pending 0 = [e] ∧ e.isBarrier barrierAddr = true ∧ s.showing 0 = true
  grants : (s.forwarded 0).filter (·.isBarrier barrierAddr) =
    s.granted ++ if s.regs.stateQ 0 = .Global then s.pending 0 else []

variable {barrierAddr : BitVec 32} {s : TileSys n α β} {x : TileIn n α β} {i : Fin n}

theorem transparent_reset : Transparent barrierAddr (reset n α β) where
  forwards := fun _ => rfl
  passes := fun _ => rfl
  ordinary := by
    intro i _ e he
    cases he
  global := by
    intro h
    cases h
  take := by
    intro h
    cases h
  grants := rfl

/-! ## The traffic of one cycle -/

omit [NeZero n] in
theorem outQ_isBarrier (q : Req α) (i : Fin n) :
    (TileBarrier.outQ q i).isBarrier barrierAddr = q.isBarrier barrierAddr := rfl

/-- In `Idle` a request is taken from the core exactly when it is sent on, and it is not the barrier's. -/
theorem traffic_of_idle (barrierAddr : BitVec 32) (x : TileIn n α β)
    (hs : s.regs.stateQ i = .Idle) :
    (s.newEntry barrierAddr x i = none ∧ s.newAccepted barrierAddr x i = none) ∨
      ∃ q, q.isBarrier barrierAddr = false ∧ s.newAccepted barrierAddr x i = some q ∧
        s.newEntry barrierAddr x i = some ⟨TileBarrier.outQ q i, x.answer i⟩ := by
  have hready : s.ready barrierAddr x i =
      (x.qReady i && !TileBarrier.isBarrierReq barrierAddr (s.inReq x i)) := by
    rw [ready, TileBarrier.inQReady, hs]
    rfl
  simp only [newEntry, newAccepted, hready, TileBarrier.outReqO, TileBarrier.outQValid, hs]
  cases hv : (s.inReq x i).qValid with
  | false => exact Or.inl ⟨rfl, rfl⟩
  | true =>
    cases hq : x.qReady i with
    | false => exact Or.inl ⟨by simp, by simp⟩
    | true =>
      cases hb : TileBarrier.isBarrierReq barrierAddr (s.inReq x i) with
      | true => exact Or.inl ⟨by simp, by simp⟩
      | false =>
        right
        refine ⟨(s.inReq x i).q, ?_, by simp, by simp⟩
        simpa [TileBarrier.isBarrierReq, hv, Req.isBarrier] using hb

theorem newAccepted_of_not_ready (h : s.ready barrierAddr x i = false) :
    s.newAccepted barrierAddr x i = none := by
  rw [newAccepted, h, Bool.and_false]
  rfl

/-- In `Wait` only port 0 sends, and what it sends is the barrier's. -/
theorem newEntry_cases_of_wait (hS : Sound barrierAddr s) (hs : s.regs.stateQ i = .Wait) :
    s.newEntry barrierAddr x i = none ∨
      (i = 0 ∧ s.regs.localBarrier = true ∧ x.qReady 0 = true ∧
        ∃ e, s.newEntry barrierAddr x i = some e ∧ e.isBarrier barrierAddr = true) := by
  rw [newEntry_of_wait hs]
  split
  · rename_i h
    rw [Bool.and_eq_true, Bool.and_eq_true, decide_eq_true_eq] at h
    obtain ⟨⟨hl, rfl⟩, hq⟩ := h
    obtain ⟨r, hr, haddr⟩ := hS.holds 0 (Or.inl hs)
    refine Or.inr ⟨rfl, hl, hq, _, rfl, ?_⟩
    rw [inReq_of_held hr]
    exact decide_eq_true haddr
  · exact Or.inl rfl

/-- In `Take` the condition keeps the port silent. -/
theorem newEntry_of_take (hC : s.Undisturbed barrierAddr x) (hs : s.regs.stateQ i = .Take) :
    s.newEntry barrierAddr x i = none := by
  simp only [newEntry, TileBarrier.outReqO, TileBarrier.outQValid, hs]
  cases hv : (s.inReq x i).qValid with
  | false => rfl
  | true => rw [hC.1 i hs hv]; rfl

/-- What is taken from the core in `Global` is its barrier request. -/
theorem newAccepted_of_global (hS : Sound barrierAddr s) (hs : s.regs.stateQ i = .Global) :
    ∀ q ∈ s.newAccepted barrierAddr x i, q.isBarrier barrierAddr = true := by
  obtain ⟨r, hr, haddr⟩ := hS.holds i (Or.inr hs)
  intro q hq
  rw [newAccepted, inReq_of_held hr] at hq
  split at hq
  · cases hq
    exact decide_eq_true haddr
  · cases hq

theorem mem_pool {e : Entry α β} (he : e ∈ s.pool barrierAddr x i) :
    e ∈ s.pending i ∨ s.newEntry barrierAddr x i = some e := by
  rcases List.mem_append.mp he with h | h
  · exact Or.inl h
  · exact Or.inr (Option.mem_toList.mp h)

theorem mem_pool_of_left {e : Entry α β} (he : e ∈ s.left barrierAddr x i) :
    e ∈ s.pool barrierAddr x i := by
  unfold left at he
  split at he
  · exact List.mem_of_mem_tail he
  · exact he

theorem mem_pool_of_shown {e : Entry α β} (he : s.shown barrierAddr x i = some e) :
    e ∈ s.pool barrierAddr x i := by
  unfold shown at he
  split at he
  · exact List.mem_of_mem_head? he
  · cases he

/-- The answer to the barrier request is not taken in the cycle in which the request is: what is taken
then was owed before. -/
theorem Undisturbed.answered_pending (hC : s.Undisturbed barrierAddr x)
    (hl : s.regs.localBarrier = true) (hq : x.qReady 0 = true) {e : Entry α β}
    (he : s.newAnswered barrierAddr x 0 = some e) :
    s.pending 0 = [e] := by
  obtain ⟨hp, hshown, hhead⟩ := head_of_newAnswered he
  have hv : (s.showing 0 || x.pValid 0) = true := by
    unfold shown at hshown
    split at hshown
    · assumption
    · cases hshown
  have hlen := hC.2.2 hl hq
  rw [hv, hp, Bool.and_true, if_pos rfl] at hlen
  obtain ⟨e', he'⟩ := List.length_eq_one_iff.mp hlen
  rw [pool, he', List.cons_append] at hhead
  rw [he', (List.cons.inj hhead).1]

/-- An answer that reaches a core through the barrier is not the barrier's. -/
theorem Transparent.answered_ordinary (h : Transparent barrierAddr s) (hS : Sound barrierAddr s)
    (hC : s.Undisturbed barrierAddr x) (ht : s.regs.stateQ i ≠ .Take)
    (hg : i = 0 → s.regs.stateQ 0 ≠ .Global) {e : Entry α β}
    (he : s.newAnswered barrierAddr x i = some e) : e.isBarrier barrierAddr = false := by
  have hpend : ∀ e ∈ s.pending i, e.isBarrier barrierAddr = false := by
    apply h.ordinary i
    by_cases h0 : i = 0
    · right
      subst h0
      cases hs : s.regs.stateQ 0 with
      | Idle => exact Or.inl rfl
      | Wait => exact Or.inr rfl
      | Global => exact absurd hs (hg rfl)
      | Take => exact absurd hs ht
    · exact Or.inl h0
  rcases mem_pool (mem_pool_of_shown (head_of_newAnswered he).2.1) with hmem | hnew
  · exact hpend e hmem
  · cases hs : s.regs.stateQ i with
    | Idle =>
      rcases traffic_of_idle barrierAddr x hs with ⟨h1, _⟩ | ⟨q, hq, _, h1⟩
      · rw [h1] at hnew
        cases hnew
      · rw [h1] at hnew
        cases hnew
        exact hq
    | Wait =>
      rcases newEntry_cases_of_wait (x := x) hS hs with h1 | ⟨rfl, hl, hq, _⟩
      · rw [h1] at hnew
        cases hnew
      · apply hpend e
        rw [hC.answered_pending hl hq he]
        exact List.mem_singleton_self e
    | Global =>
      rw [newEntry_of_global hs] at hnew
      cases hnew
    | Take => exact absurd hs ht

theorem newAnswered_of_shown {e : Entry α β} (hp : x.pReady i = true)
    (he : s.shown barrierAddr x i = some e) : s.newAnswered barrierAddr x i = some e := by
  rw [newAnswered, if_pos hp, he]

theorem newAnswered_of_not_pReady (hp : x.pReady i = false) : s.newAnswered barrierAddr x i = none := by
  rw [newAnswered, hp]
  rfl

theorem left_of_answered {e : Entry α β} (h : s.newAnswered barrierAddr x i = some e) :
    s.left barrierAddr x i = (s.pool barrierAddr x i).tail := by
  rw [left, h]

/-- In `Take` the answer to the barrier request, if it is still owed, is shown and goes with the core's
response. -/
theorem Transparent.left_of_take (h : Transparent barrierAddr s) (hC : s.Undisturbed barrierAddr x)
    (hs : s.regs.stateQ 0 = .Take) :
    (x.pReady 0 = true → s.left barrierAddr x 0 = []) ∧
    (x.pReady 0 = false → s.left barrierAddr x 0 = s.pending 0 ∧
      (s.pending 0 ≠ [] → (s.shown barrierAddr x 0).isSome = true)) := by
  have hpool := pool_of_no_newEntry (newEntry_of_take hC hs)
  have hshown : ∀ e, s.pending 0 = [e] → s.showing 0 = true → s.shown barrierAddr x 0 = some e := by
    intro e he hsh
    rw [shown, hsh, hpool, he]
    rfl
  rcases h.take hs with hnil | ⟨e, he, _, hsh⟩
  · have hnone : s.shown barrierAddr x 0 = none := by
      rw [shown, hpool, hnil]
      split <;> rfl
    have hleft : s.left barrierAddr x 0 = s.pending 0 := by
      rw [left_of_not_answered (newAnswered_of_not_shown hnone), hpool]
    exact ⟨fun _ => by rw [hleft, hnil], fun _ => ⟨hleft, fun hne => absurd hnil hne⟩⟩
  · refine ⟨?_, ?_⟩
    · intro hp
      rw [left_of_answered (newAnswered_of_shown hp (hshown e he hsh)), hpool, he]
      rfl
    · intro hp
      refine ⟨?_, ?_⟩
      · rw [left_of_not_answered (newAnswered_of_not_pReady hp), hpool]
      · intro _
        rw [hshown e he hsh]
        rfl

/-- Without a release in `Global` nothing changes on port 0. -/
theorem left_of_global (hS : Sound barrierAddr s) (hs : s.regs.stateQ 0 = .Global)
    (ht : ¬ s.takes barrierAddr x = true) : s.left barrierAddr x 0 = s.pending 0 := by
  have hnone : s.shown barrierAddr x 0 = none := by
    cases hsh : s.shown barrierAddr x 0 with
    | none => rfl
    | some e => exact absurd (takes_iff.mpr ⟨hS.together hs, by rw [hsh]; rfl⟩) ht
  rw [left_of_not_answered (newAnswered_of_not_shown hnone),
    pool_of_no_newEntry (newEntry_of_global hs)]

/-- When the barrier request is taken, nothing else is owed on port 0. -/
theorem left_of_local (hC : s.Undisturbed barrierAddr x) (hl : s.regs.localBarrier = true)
    (hq : x.qReady 0 = true) :
    s.left barrierAddr x 0 = [⟨TileBarrier.outQ (s.inReq x 0).q (0 : Fin n), x.answer 0⟩] := by
  have hpool : s.pool barrierAddr x 0 =
      s.pending 0 ++ [⟨TileBarrier.outQ (s.inReq x 0).q (0 : Fin n), x.answer 0⟩] := by
    rw [pool, newEntry_of_local hl hq]
    rfl
  cases ha : s.newAnswered barrierAddr x 0 with
  | some e =>
    rw [left_of_answered ha, hpool, hC.answered_pending hl hq ha]
    rfl
  | none =>
    have hnil : s.pending 0 = [] := by
      have hlen := hC.2.2 hl hq
      split at hlen
      · rename_i hv
        rw [Bool.and_eq_true] at hv
        rw [newAnswered, if_pos hv.2, shown, if_pos hv.1, hpool] at ha
        simp at ha
      · exact List.length_eq_zero_iff.mp hlen
    rw [left_of_not_answered ha, hpool, hnil]
    rfl

theorem isBarrier_of_held (hS : Sound barrierAddr s) (hs : s.regs.stateQ 0 = .Wait) :
    (s.inReq x 0).q.isBarrier barrierAddr = true := by
  obtain ⟨r, hr, haddr⟩ := hS.holds 0 (Or.inl hs)
  rw [inReq_of_held hr]
  exact decide_eq_true haddr

/-! ## What the next state has -/

variable [Zero β]

theorem Transparent.next_forwards (h : Transparent barrierAddr s) (hS : Sound barrierAddr s)
    (hC : s.Undisturbed barrierAddr x) (i : Fin n) :
    (((s.next barrierAddr x).forwarded i).filter fun e => !e.isBarrier barrierAddr).map (·.req) =
      (((s.next barrierAddr x).accepted i).filter fun r => !r.isBarrier barrierAddr).map
        (TileBarrier.outQ · i) := by
  show ((s.forwarded i ++ (s.newEntry barrierAddr x i).toList).filter _).map _ =
    ((s.accepted i ++ (s.newAccepted barrierAddr x i).toList).filter _).map _
  rw [List.filter_append, List.map_append, List.filter_append, List.map_append, h.forwards i]
  congr 1
  cases hs : s.regs.stateQ i with
  | Idle =>
    rcases traffic_of_idle barrierAddr x hs with ⟨h1, h2⟩ | ⟨q, hq, h2, h1⟩
    · rw [h1, h2]
      rfl
    · rw [h1, h2]
      simp [Entry.isBarrier, outQ_isBarrier, hq]
  | Wait =>
    rw [newAccepted_of_not_ready (ready_of_wait hs)]
    rcases newEntry_cases_of_wait (x := x) hS hs with h1 | ⟨_, _, _, e, h1, he⟩
    · rw [h1]
      rfl
    · rw [h1]
      simp [he]
  | Global =>
    rw [newEntry_of_global hs]
    have hacc := newAccepted_of_global (x := x) hS hs
    cases ha : s.newAccepted barrierAddr x i with
    | none => rfl
    | some q => simp [hacc q ha]
  | Take =>
    rw [newEntry_of_take hC hs, newAccepted_of_not_ready (ready_of_take hs)]
    rfl

/-- Outside `Take`, and `Global` on port 0, the core takes the answer that the downstream gives. -/
theorem newPassed_of_through (ht : s.regs.stateQ i ≠ .Take) (hg : i = 0 → s.regs.stateQ 0 ≠ .Global) :
    s.newPassed barrierAddr x i = (s.newAnswered barrierAddr x i).map (·.answer) := by
  have hp : s.regs.inP (s.outRsp barrierAddr x) i = (s.shown barrierAddr x i).map (·.answer) := by
    cases hs : s.regs.stateQ i with
    | Take => exact absurd hs ht
    | Global =>
      have h0 : i ≠ 0 := by
        intro h0
        subst h0
        exact hg rfl hs
      rw [TileBarrier.inP, hs]
      exact if_neg h0
    | Idle => rw [TileBarrier.inP, hs]; rfl
    | Wait => rw [TileBarrier.inP, hs]; rfl
  simp only [newPassed, newAnswered, decide_eq_false ht, Bool.not_false, Bool.and_true, hp]
  split <;> rfl

theorem Transparent.next_passes (h : Transparent barrierAddr s) (hS : Sound barrierAddr s)
    (hC : s.Undisturbed barrierAddr x) (i : Fin n) :
    (s.next barrierAddr x).passed i =
      (((s.next barrierAddr x).answered i).filter fun e => !e.isBarrier barrierAddr).map
        (·.answer) := by
  show s.passed i ++ (s.newPassed barrierAddr x i).toList =
    ((s.answered i ++ (s.newAnswered barrierAddr x i).toList).filter _).map _
  rw [List.filter_append, List.map_append, h.passes i]
  congr 1
  by_cases ht : s.regs.stateQ i = .Take
  · -- the core takes the barrier's response, the downstream's answer is the barrier's
    have hnone : s.newPassed barrierAddr x i = none := by
      rw [newPassed, decide_eq_true ht, Bool.not_true, Bool.and_false]
      rfl
    rw [hnone]
    cases ha : s.newAnswered barrierAddr x i with
    | none => rfl
    | some e =>
      obtain ⟨hp, hshown, _⟩ := head_of_newAnswered ha
      simp [hC.2.1 i ht hp e hshown]
  · by_cases hg : i = 0 → s.regs.stateQ 0 ≠ .Global
    · rw [newPassed_of_through ht hg]
      cases ha : s.newAnswered barrierAddr x i with
      | none => rfl
      | some e => simp [h.answered_ordinary hS hC ht hg ha]
    · -- port 0 keeps the barrier's answer to itself
      rw [Classical.not_imp, not_not] at hg
      obtain ⟨rfl, hg⟩ := hg
      have hnone : s.newPassed barrierAddr x 0 = none := by
        rw [newPassed, TileBarrier.inP, hg]
        split <;> rfl
      rw [hnone]
      cases ha : s.newAnswered barrierAddr x 0 with
      | none => rfl
      | some e =>
        obtain ⟨b, hb, hbar⟩ := h.global hg
        have hmem := mem_pool_of_shown (head_of_newAnswered ha).2.1
        rw [pool_of_no_newEntry (newEntry_of_global hg), hb, List.mem_singleton] at hmem
        simp [hmem, hbar]

/-! ## What is owed on port 0 -/

theorem Transparent.next_ordinary (h : Transparent barrierAddr s) (hS : Sound barrierAddr s)
    (hC : s.Undisturbed barrierAddr x) (i : Fin n)
    (hi : i ≠ 0 ∨ (s.next barrierAddr x).regs.stateQ 0 = .Idle ∨
      (s.next barrierAddr x).regs.stateQ 0 = .Wait) :
    ∀ e ∈ (s.next barrierAddr x).pending i, e.isBarrier barrierAddr = false := by
  intro e he
  have he : e ∈ s.left barrierAddr x i := he
  have hpool := mem_pool (mem_pool_of_left he)
  cases hs : s.regs.stateQ i with
  | Idle =>
    rcases hpool with hmem | hnew
    · apply h.ordinary i _ e hmem
      by_cases h0 : i = 0
      · subst h0
        exact Or.inr (Or.inl hs)
      · exact Or.inl h0
    · rcases traffic_of_idle barrierAddr x hs with ⟨h1, _⟩ | ⟨q, hq, _, h1⟩
      · rw [h1] at hnew
        cases hnew
      · rw [h1] at hnew
        cases hnew
        exact hq
  | Wait =>
    rcases hpool with hmem | hnew
    · apply h.ordinary i _ e hmem
      by_cases h0 : i = 0
      · subst h0
        exact Or.inr (Or.inr hs)
      · exact Or.inl h0
    · rcases newEntry_cases_of_wait (x := x) hS hs with h1 | ⟨rfl, hl, hq, _⟩
      · rw [h1] at hnew
        cases hnew
      · -- port 0 has gone on to `Global`
        rw [next_stateQ_of_wait hs, hl, if_pos rfl, if_pos rfl, hq] at hi
        rcases hi with hi | hi | hi
        · exact absurd rfl hi
        · cases hi
        · cases hi
  | Global =>
    by_cases h0 : i = 0
    · subst h0
      rw [next_stateQ_of_global hs] at hi
      split at hi <;> rcases hi with hi | hi | hi
      all_goals first | exact absurd rfl hi | cases hi
    · rcases hpool with hmem | hnew
      · exact h.ordinary i (Or.inl h0) e hmem
      · rw [newEntry_of_global hs] at hnew
        cases hnew
  | Take =>
    by_cases h0 : i = 0
    · subst h0
      have hp : x.pReady 0 = true := by
        rw [next_stateQ_of_take hs] at hi
        split at hi
        · assumption
        · rcases hi with hi | hi | hi
          · exact absurd rfl hi
          · cases hi
          · cases hi
      rw [(h.left_of_take hC hs).1 hp] at he
      cases he
    · rcases hpool with hmem | hnew
      · exact h.ordinary i (Or.inl h0) e hmem
      · rw [newEntry_of_take hC hs] at hnew
        cases hnew

theorem Transparent.next_global (h : Transparent barrierAddr s) (hS : Sound barrierAddr s)
    (hC : s.Undisturbed barrierAddr x) (hs' : (s.next barrierAddr x).regs.stateQ 0 = .Global) :
    ∃ e, (s.next barrierAddr x).pending 0 = [e] ∧ e.isBarrier barrierAddr = true := by
  show ∃ e, s.left barrierAddr x 0 = [e] ∧ _
  rcases global_of_next hs' with ⟨hs, hl, hq⟩ | ⟨hs, ht⟩
  · exact ⟨_, left_of_local hC hl (hq rfl), isBarrier_of_held hS hs⟩
  · rw [left_of_global hS hs (by rw [ht]; exact Bool.false_ne_true)]
    exact h.global hs

theorem Transparent.next_take (h : Transparent barrierAddr s)
    (hC : s.Undisturbed barrierAddr x) (hs' : (s.next barrierAddr x).regs.stateQ 0 = .Take) :
    (s.next barrierAddr x).pending 0 = [] ∨ ∃ e, (s.next barrierAddr x).pending 0 = [e] ∧
      e.isBarrier barrierAddr = true ∧ (s.next barrierAddr x).showing 0 = true := by
  have hshowing : x.pReady 0 = false → (s.shown barrierAddr x 0).isSome = true →
      (s.next barrierAddr x).showing 0 = true := by
    intro hp hsh
    show ((s.shown barrierAddr x 0).isSome && !x.pReady 0) = true
    rw [hp, hsh]
    rfl
  show s.left barrierAddr x 0 = [] ∨ ∃ e, s.left barrierAddr x 0 = [e] ∧ _
  rcases take_of_next hs' with ⟨hs, ht⟩ | ⟨hs, hp⟩
  · obtain ⟨b, hb, hbar⟩ := h.global hs
    have hpool : s.pool barrierAddr x 0 = s.pending 0 := pool_of_no_newEntry (newEntry_of_global hs)
    obtain ⟨e, he⟩ := Option.isSome_iff_exists.mp (takes_iff.mp ht).2
    cases hp : x.pReady 0 with
    | true =>
      left
      rw [left_of_answered (newAnswered_of_shown hp he), hpool, hb]
      rfl
    | false =>
      right
      refine ⟨b, ?_, hbar, hshowing hp (by rw [he]; rfl)⟩
      rw [left_of_not_answered (newAnswered_of_not_pReady hp), hpool, hb]
  · obtain ⟨hleft, hsh⟩ := (h.left_of_take hC hs).2 hp
    rw [hleft]
    rcases h.take hs with hnil | ⟨e, he, hbar, _⟩
    · exact Or.inl hnil
    · exact Or.inr ⟨e, he, hbar, hshowing hp (hsh (by rw [he]; exact List.cons_ne_nil _ _))⟩

/-- Releases are granted by the answers to the barrier requests, in order. -/
theorem Transparent.next_grants (h : Transparent barrierAddr s) (hS : Sound barrierAddr s)
    (hC : s.Undisturbed barrierAddr x) :
    ((s.next barrierAddr x).forwarded 0).filter (·.isBarrier barrierAddr) =
      (s.next barrierAddr x).granted ++
        if (s.next barrierAddr x).regs.stateQ 0 = .Global then (s.next barrierAddr x).pending 0
        else [] := by
  show (s.forwarded 0 ++ (s.newEntry barrierAddr x 0).toList).filter _ =
    (s.granted ++ if s.takes barrierAddr x then (s.shown barrierAddr x 0).toList else []) ++
      if _ then s.left barrierAddr x 0 else []
  rw [List.filter_append, h.grants]
  have hno : s.regs.stateQ 0 ≠ .Global → s.takes barrierAddr x = false := by
    intro hne
    cases ht : s.takes barrierAddr x with
    | false => rfl
    | true => exact absurd ((takes_iff.mp ht).1 0) hne
  cases hs : s.regs.stateQ 0 with
  | Idle =>
    have hnew : (s.newEntry barrierAddr x 0).toList.filter (·.isBarrier barrierAddr) = [] := by
      rcases traffic_of_idle barrierAddr x hs with ⟨h1, _⟩ | ⟨q, hq, _, h1⟩
      · rw [h1]
        rfl
      · rw [h1]
        simp [Entry.isBarrier, outQ_isBarrier, hq]
    rw [hnew, hno (by rw [hs]; exact fun h => by cases h), next_stateQ_of_idle hs]
    cases TileBarrier.isBarrierReq barrierAddr (s.inReq x 0) <;> simp
  | Wait =>
    rw [hno (by rw [hs]; exact fun h => by cases h), next_stateQ_of_wait hs, if_pos rfl]
    cases hl : s.regs.localBarrier with
    | false =>
      have hnew : s.newEntry barrierAddr x 0 = none := by
        rw [newEntry_of_wait hs, hl]
        rfl
      rw [hnew]
      simp
    | true =>
      cases hq : x.qReady 0 with
      | false =>
        have hnew : s.newEntry barrierAddr x 0 = none := by
          rw [newEntry_of_wait hs, hq, Bool.and_false]
          rfl
        rw [hnew]
        simp
      | true =>
        have hbar := isBarrier_of_held (x := x) hS hs
        rw [newEntry_of_local hl hq, left_of_local hC hl hq]
        simp [Entry.isBarrier, outQ_isBarrier, hbar]
  | Global =>
    rw [newEntry_of_global hs, next_stateQ_of_global hs]
    cases ht : s.takes barrierAddr x with
    | false =>
      rw [left_of_global hS hs (by rw [ht]; exact Bool.false_ne_true)]
      simp
    | true =>
      obtain ⟨b, hb, hbar⟩ := h.global hs
      obtain ⟨e, he⟩ := Option.isSome_iff_exists.mp (takes_iff.mp ht).2
      have hmem := mem_pool_of_shown he
      rw [pool_of_no_newEntry (newEntry_of_global hs), hb, List.mem_singleton] at hmem
      rw [he, hmem, hb]
      simp
  | Take =>
    rw [newEntry_of_take hC hs, hno (by rw [hs]; exact fun h => by cases h), next_stateQ_of_take hs]
    cases x.pReady 0 <;> simp

/-- **One cycle keeps the traffic of every port.** -/
theorem transparent_next (h : Transparent barrierAddr s) (hS : Sound barrierAddr s)
    (hC : s.Undisturbed barrierAddr x) : Transparent barrierAddr (s.next barrierAddr x) where
  forwards := h.next_forwards hS hC
  passes := h.next_passes hS hC
  ordinary := h.next_ordinary hS hC
  global := h.next_global hS hC
  take := h.next_take hC
  grants := h.next_grants hS hC

theorem transparent_run (xs : List (TileIn n α β))
    (h : (machine n α β barrierAddr).Meets (Undisturbed barrierAddr) xs) :
    Transparent barrierAddr ((machine n α β barrierAddr).run xs) :=
  Machine.invariant_upon (P := Transparent barrierAddr) (sound_run barrierAddr) transparent_reset
    (fun _ _ hS hT hC => transparent_next hT hS hC) xs h

/-- **The tile barrier is transparent.**  In every run whose cycles meet the condition, at every port: the
requests sent on that are not the barrier's are those taken from the core, in order, with the core's tag;
the answers the core has taken are those of these requests, in order; and a core has taken a barrier
response, or is offered one, only for a release that was granted by the answer to the tile's barrier
request. -/
theorem barrier_transparent (n : Nat) [NeZero n] (α β : Type) [Zero β] (barrierAddr : BitVec 32)
    (xs : List (TileIn n α β))
    (h : (machine n α β barrierAddr).Meets (Undisturbed barrierAddr) xs) :
    let s := (machine n α β barrierAddr).run xs
    (∀ i, ((s.forwarded i).filter fun e => !e.isBarrier barrierAddr).map (·.req) =
        ((s.accepted i).filter fun r => !r.isBarrier barrierAddr).map (TileBarrier.outQ · i) ∧
      s.forwarded i = s.answered i ++ s.pending i ∧
      s.passed i = ((s.answered i).filter fun e => !e.isBarrier barrierAddr).map (·.answer) ∧
      s.barrierRsps i + (if s.regs.stateQ i = .Take then 1 else 0) = s.granted.length) ∧
    s.granted <+: (s.forwarded 0).filter (·.isBarrier barrierAddr) := by
  intro s
  have hT := transparent_run xs h
  have hS := sound_run barrierAddr xs
  refine ⟨fun i => ⟨hT.forwards i, hS.in_order i, hT.passes i, hS.released i⟩, ?_⟩
  rw [hT.grants]
  exact List.prefix_append _ _

/-- A cycle of two cores with the addresses they request, `p_ready` of core 0 and the downstream's
`q_ready` and `p_valid`. -/
def coresIn (addr : Fin 2 → Option (BitVec 32)) (pReady qReady pValid : Bool) : TileIn 2 Unit Nat where
  q := fun i => ⟨(addr i).getD 0, zeroUser, ()⟩
  qValid := fun i => (addr i).isSome
  pReady := fun _ => pReady
  qReady := fun _ => qReady
  pValid := fun _ => pValid
  answer := fun _ => ⟨zeroUser, 7⟩

/-- Core 0 loads, both enter the barrier, its request is sent on and answered, and both are released. -/
theorem barrier_transparent_load_first :
    let s := (machine 2 Unit Nat 0x40#32).run
      [coresIn ![some 0#32, none] true true false, coresIn ![none, none] true true true,
        coresIn ![some 0x40#32, some 0x40#32] true true false, coresIn ![none, none] true true false,
        coresIn ![none, none] true true true, coresIn ![none, none] true false false]
    s.passed 0 = [⟨zeroUser, 7⟩] ∧ s.granted.length = 1 ∧ (∀ i, s.barrierRsps i = 1) ∧
      s.granted <+: (s.forwarded 0).filter (·.isBarrier 0x40#32) := by
  intro s
  obtain ⟨hports, hgranted⟩ := barrier_transparent 2 Unit Nat 0x40#32 _
    (by decide : (machine 2 Unit Nat 0x40#32).Meets (Undisturbed 0x40#32)
      [coresIn ![some 0#32, none] true true false, coresIn ![none, none] true true true,
        coresIn ![some 0x40#32, some 0x40#32] true true false, coresIn ![none, none] true true false,
        coresIn ![none, none] true true true, coresIn ![none, none] true false false])
  exact ⟨(hports 0).2.2.1.trans (by decide), by decide, by decide, hgranted⟩

/-- Core 0 enters the barrier with a load outstanding: the load's answer releases both cores, and core 0
never gets it.  And core 0 shows a load in `Take`: it is sent on twice. -/
theorem barrier_not_transparent :
    let M := machine 2 Unit Nat 0x40#32
    let enter := coresIn ![some 0x40#32, some 0x40#32] true true false
    let quiet (pReady pValid : Bool) := coresIn ![none, none] pReady true pValid
    let s := M.run [coresIn ![some 0#32, none] true true false, enter, quiet true false,
      quiet true true]
    let t := M.run [enter, quiet true false, quiet true true, coresIn ![some 0#32, none] false true false,
      quiet true false, quiet true false]
    (¬ s.granted <+: (s.forwarded 0).filter (·.isBarrier 0x40#32)) ∧
    s.passed 0 ≠ ((s.answered 0).filter fun e => !e.isBarrier 0x40#32).map (·.answer) ∧
    ((t.forwarded 0).filter fun e => !e.isBarrier 0x40#32).map (·.req) ≠
      ((t.accepted 0).filter fun r => !r.isBarrier 0x40#32).map (TileBarrier.outQ · (0 : Fin 2)) := by
  decide

end TileSys

end Barrier

end CachePool
