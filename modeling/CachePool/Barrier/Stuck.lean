import CachePool.Barrier.Tile

/-!
# When the tile barrier gets stuck

When all ports wait, port 0 stays behind if the downstream is not ready, while the other ports go on to
`Global`; the request is withdrawn, and nothing brings the ports together again.

* `stuck_next`, `stuck_of_not_handshake` — a cycle that misses the handshake leads into a state that no
  cycle leaves.
* `canRelease` — without such a cycle every state in which all cores show a barrier request can be continued
  to one in which all are released.
* `never_stuck_iff` — both directions, over runs.
-/

set_option autoImplicit false

namespace CachePool

namespace Barrier

namespace TileSys

variable {n : Nat} [NeZero n] {α β : Type}

/-- Every core shows a barrier request that is not yet taken. -/
def AllPresented (barrierAddr : BitVec 32) (s : TileSys n α β) : Prop :=
  ∀ i, ∃ r, s.held i = some r ∧ r.addr = barrierAddr

/-- Every port is back in `Idle` with its request taken and its response delivered. -/
def Released (s : TileSys n α β) : Prop := ∀ i, s.regs.stateQ i = .Idle ∧ s.held i = none

/-- The request port 0 sends in `Wait`. -/
def barrierForward (barrierAddr : BitVec 32) (s : TileSys n α β) (x : TileIn n α β) :
    Option (Req α) :=
  if s.regs.stateQ 0 = .Wait ∧ (s.regs.outReqO barrierAddr (s.inReq x 0) 0).qValid = true then
    some (s.regs.outReqO barrierAddr (s.inReq x 0) 0).q
  else none

/-- In a cycle in which every port waits the downstream is ready on port 0, unless this is the only port;
and a request of port 0 taken in it is not answered, with the answer taken, in the same cycle. -/
def Handshake (s : TileSys n α β) (x : TileIn n α β) : Prop :=
  s.regs.localBarrier = true →
    (n = 1 ∨ x.qReady 0 = true) ∧
    ¬ (x.qReady 0 = true ∧ s.pending 0 = [] ∧ x.pValid 0 = true ∧ x.pReady 0 = true)

instance (s : TileSys n α β) (x : TileIn n α β) : Decidable (s.Handshake x) := by
  have : Decidable (s.pending 0 = []) := decidable_of_iff _ List.isEmpty_iff
  unfold Handshake
  exact inferInstance

/-- Ports that wait for each other: port 0 in `Wait` and another one already in `Global`, or all in
`Global` with no answer owed on port 0. -/
def Stuck (s : TileSys n α β) : Prop :=
  (∀ i, s.regs.stateQ i = .Wait ∨ s.regs.stateQ i = .Global) ∧
  ((s.regs.stateQ 0 = .Wait ∧ ∃ i, s.regs.stateQ i = .Global) ∨
    (s.regs.stateQ 0 = .Global ∧ s.pending 0 = []))

variable {barrierAddr : BitVec 32} {s : TileSys n α β} {x : TileIn n α β}

/-! ## No way out -/

theorem Stuck.localBarrier (h : Stuck s) : s.regs.localBarrier = false := by
  cases hl : s.regs.localBarrier with
  | false => rfl
  | true =>
    have hw := localBarrier_iff.mp hl
    rcases h.2 with ⟨_, i, hi⟩ | ⟨h0, _⟩
    · rw [hw i] at hi
      cases hi
    · rw [hw 0] at h0
      cases h0

theorem Stuck.takes (h : Stuck s) : s.takes barrierAddr x = false := by
  cases ht : s.takes barrierAddr x with
  | false => rfl
  | true =>
    obtain ⟨hall, hshow⟩ := takes_iff.mp ht
    rcases h.2 with ⟨h0, _⟩ | ⟨h0, hpend⟩
    · rw [hall 0] at h0
      cases h0
    · rw [shown, pool_of_no_newEntry (newEntry_of_global h0), hpend] at hshow
      simp at hshow

theorem Stuck.not_released (h : Stuck s) : ¬ Released s := by
  intro hrel
  have h0 := (hrel 0).1
  rcases h.1 0 with hw | hg
  · rw [hw] at h0
    cases h0
  · rw [hg] at h0
    cases h0

/-- All ports of a stuck state still show their request. -/
theorem Stuck.allPresented (h : Stuck s) (hs : Sound barrierAddr s) : AllPresented barrierAddr s :=
  fun i => hs.holds i (h.1 i)

variable [Zero β]

/-- The barrier request of port 0, once sent, is sent unchanged until it is taken. -/
def ForwardStable (barrierAddr : BitVec 32) (xs : List (TileIn n α β)) : Prop :=
  ∀ pre x y post, xs = pre ++ x :: y :: post → ∀ q,
    barrierForward barrierAddr ((machine n α β barrierAddr).run pre) x = some q →
    x.qReady 0 = false →
    barrierForward barrierAddr ((machine n α β barrierAddr).run (pre ++ [x])) y = some q

/-- **No cycle leaves a stuck state.** -/
theorem stuck_next (h : Stuck s) (x : TileIn n α β) : Stuck (s.next barrierAddr x) := by
  have hsame : ∀ i, (s.next barrierAddr x).regs.stateQ i = s.regs.stateQ i := by
    intro i
    rcases h.1 i with hi | hi
    · rw [next_stateQ_of_wait hi, h.localBarrier, hi]
      rfl
    · rw [next_stateQ_of_global hi, h.takes, hi]
      rfl
  refine ⟨?_, ?_⟩
  · intro i
    rw [hsame i]
    exact h.1 i
  · rcases h.2 with ⟨h0, i, hi⟩ | ⟨h0, hpend⟩
    · left
      exact ⟨by rw [hsame, h0], i, by rw [hsame, hi]⟩
    · right
      refine ⟨by rw [hsame, h0], ?_⟩
      have hpool : s.pool barrierAddr x 0 = [] := by
        rw [pool_of_no_newEntry (newEntry_of_global h0), hpend]
      show s.left barrierAddr x 0 = []
      unfold left
      split
      · rw [hpool]
        rfl
      · exact hpool

theorem stuck_foldl (h : Stuck s) (ys : List (TileIn n α β)) :
    Stuck (ys.foldl (next barrierAddr) s) := by
  induction ys generalizing s with
  | nil => exact h
  | cons y ys ih => exact ih (stuck_next h y)

/-- **A cycle that misses the handshake gets stuck.** -/
theorem stuck_of_not_handshake (h : ¬ s.Handshake x) : Stuck (s.next barrierAddr x) := by
  unfold Handshake at h
  rw [Classical.not_imp, not_and_or, not_not] at h
  obtain ⟨hl, h⟩ := h
  have hw := localBarrier_iff.mp hl
  have hothers : ∀ i, i ≠ 0 → (s.next barrierAddr x).regs.stateQ i = .Global := by
    intro i hi
    rw [next_stateQ_of_wait (hw i), if_pos hl, if_neg hi]
  have h0 : (s.next barrierAddr x).regs.stateQ 0 =
      if x.qReady 0 then BarrierState.Global else .Wait := by
    rw [next_stateQ_of_wait (hw 0), if_pos hl, if_pos rfl]
  refine ⟨?_, ?_⟩
  · intro i
    by_cases hi : i = 0
    · subst hi
      rw [h0]
      split
      · exact Or.inr rfl
      · exact Or.inl rfl
    · exact Or.inr (hothers i hi)
  · rcases h with h | ⟨hq, hpend, hp, hr⟩
    · -- port 0 stays behind another port
      rw [not_or] at h
      left
      refine ⟨by rw [h0, if_neg h.2], ⟨⟨1, ?_⟩, ?_⟩⟩
      · have := NeZero.pos n
        omega
      · apply hothers
        intro heq
        have := congrArg Fin.val heq
        simp at this
    · -- the only answer port 0 could wait for is taken already
      right
      refine ⟨by rw [h0, if_pos hq], ?_⟩
      have hpool : s.pool barrierAddr x 0 = [⟨TileBarrier.outQ (s.inReq x 0).q (0 : Fin n), x.answer 0⟩] := by
        rw [pool, hpend, newEntry_of_local hl hq]
        rfl
      show s.left barrierAddr x 0 = []
      rw [left, newAnswered, if_pos hr, shown, hp, Bool.or_true, if_pos rfl, hpool]
      rfl

/-! ## A way out -/

/-- Port 0 is never behind, and in `Global` an answer is owed to it. -/
structure Moving (s : TileSys n α β) : Prop where
  follows : ∀ i, s.regs.stateQ i = .Global → s.regs.stateQ 0 = .Global
  awaits : s.regs.stateQ 0 = .Global → s.pending 0 ≠ []

omit [Zero β] in
theorem moving_reset : Moving (reset n α β) where
  follows := by
    intro i h
    cases h
  awaits := by
    intro h
    cases h

theorem Moving.next_follows (h : Moving s) (hx : s.Handshake x) (i : Fin n)
    (hi : (s.next barrierAddr x).regs.stateQ i = .Global) :
    (s.next barrierAddr x).regs.stateQ 0 = .Global := by
  rcases global_of_next hi with ⟨-, hl, -⟩ | ⟨hs, ht⟩
  · by_cases h0 : i = 0
    · rw [← h0]
      exact hi
    · obtain ⟨hone | hready, _⟩ := hx hl
      · subst hone
        exact absurd (Subsingleton.elim i 0) h0
      · rw [next_stateQ_of_wait (localBarrier_iff.mp hl 0), if_pos hl, if_pos rfl, if_pos hready]
  · rw [next_stateQ_of_global (h.follows i hs), ht]
    rfl

theorem Moving.next_awaits (h : Moving s) (hs : Sound barrierAddr s) (hx : s.Handshake x)
    (h0 : (s.next barrierAddr x).regs.stateQ 0 = .Global) :
    (s.next barrierAddr x).pending 0 ≠ [] := by
  show s.left barrierAddr x 0 ≠ []
  rcases global_of_next h0 with ⟨hst, hl, hq⟩ | ⟨hst, ht⟩
  · -- the request just taken is owed an answer, unless it has been answered at once
    have hq := hq rfl
    have hpool : s.pool barrierAddr x 0 =
        s.pending 0 ++ [⟨TileBarrier.outQ (s.inReq x 0).q (0 : Fin n), x.answer 0⟩] := by
      rw [pool, newEntry_of_local hl hq]
      rfl
    cases hna : s.newAnswered barrierAddr x 0 with
    | none =>
      rw [left_of_not_answered hna, hpool]
      exact List.append_ne_nil_of_right_ne_nil _ (List.cons_ne_nil _ _)
    | some e =>
      obtain ⟨hp, hshown, hhead⟩ := head_of_newAnswered hna
      intro hnil
      rw [hnil, hpool] at hhead
      have hpend : s.pending 0 = [] := by
        have hlen := congrArg List.length hhead
        rw [List.length_append, List.length_singleton, List.length_singleton] at hlen
        exact List.length_eq_zero_iff.mp (by omega)
      have hv : x.pValid 0 = true := by
        unfold shown at hshown
        split at hshown
        · rename_i hv
          rcases Bool.or_eq_true_iff.mp hv with hv | hv
          · exact absurd hpend (hs.owed 0 hv)
          · exact hv
        · cases hshown
      exact (hx hl).2 ⟨hq, hpend, hv, hp⟩
  · have hnone : s.shown barrierAddr x 0 = none := by
      cases hsh : s.shown barrierAddr x 0 with
      | none => rfl
      | some e =>
        rw [takes_iff.mpr ⟨hs.together hst, by rw [hsh]; rfl⟩] at ht
        cases ht
    rw [left_of_not_answered (newAnswered_of_not_shown hnone),
      pool_of_no_newEntry (newEntry_of_global hst)]
    exact h.awaits hst

theorem moving_next (h : Moving s) (hs : Sound barrierAddr s) (hx : s.Handshake x) :
    Moving (s.next barrierAddr x) where
  follows := h.next_follows hx
  awaits := h.next_awaits hs hx

theorem moving_run (xs : List (TileIn n α β))
    (h : (machine n α β barrierAddr).Meets Handshake xs) :
    Moving ((machine n α β barrierAddr).run xs) :=
  Machine.invariant_upon (P := Moving) (sound_run barrierAddr) moving_reset
    (fun _ _ hs hm hx => moving_next hm hs hx) xs h

/-- The state can be continued to one in which all ports are released. -/
def CanRelease (barrierAddr : BitVec 32) (s : TileSys n α β) : Prop :=
  ∃ ys : List (TileIn n α β), Released (ys.foldl (next barrierAddr) s)

theorem canRelease_of_next (x : TileIn n α β) (h : CanRelease barrierAddr (s.next barrierAddr x)) :
    CanRelease barrierAddr s := by
  obtain ⟨ys, hys⟩ := h
  exact ⟨x :: ys, hys⟩

/-- A cycle without new requests, with all cores taking responses. -/
def drive (n : Nat) (β : Type) [Zero β] (r : Req α) (ready answering : Bool) : TileIn n α β where
  q := fun _ => r
  qValid := fun _ => false
  pReady := fun _ => true
  qReady := fun _ => ready
  pValid := fun _ => answering
  answer := fun _ => ⟨zeroUser, 0⟩

/-- Once all ports are in `Global`, the answer on port 0 releases them. -/
theorem canRelease_of_global (r : Req α) (hg : ∀ i, s.regs.stateQ i = .Global)
    (hpend : s.pending 0 ≠ []) : CanRelease barrierAddr s := by
  have hshow : (s.shown barrierAddr (drive n β r true true) 0).isSome = true := by
    rw [shown, pool_of_no_newEntry (newEntry_of_global (hg 0))]
    show (if (s.showing 0 || true) = true then _ else _ : Option _).isSome = true
    rw [Bool.or_true, if_pos rfl, List.isSome_head?]
    exact hpend
  have ht : s.takes barrierAddr (drive n β r true true) = true := takes_iff.mpr ⟨hg, hshow⟩
  refine ⟨[drive n β r true true, drive n β r true false], ?_⟩
  intro i
  have htake : (s.next barrierAddr (drive n β r true true)).regs.stateQ i = .Take := by
    rw [next_stateQ_of_global (hg i), if_pos ht]
  have hheld : (s.next barrierAddr (drive n β r true true)).held i = none := by
    show (if _ && !s.ready barrierAddr (drive n β r true true) i then _ else none) = none
    rw [ready_of_global (hg i), ht]
    simp
  refine ⟨?_, ?_⟩
  · show ((s.next barrierAddr _).next barrierAddr _).regs.stateQ i = .Idle
    rw [next_stateQ_of_take htake]
    rfl
  · show (if ((s.next barrierAddr _).inReq (drive n β r true false) i).qValid && _ then _ else none) =
      none
    rw [inReq, hheld]
    rfl

/-- From `Wait` at all ports a ready downstream takes them to `Global`. -/
theorem canRelease_of_wait (r : Req α) (hm : Moving s) (hs : Sound barrierAddr s)
    (hw : ∀ i, s.regs.stateQ i = .Wait) : CanRelease barrierAddr s := by
  have hl : s.regs.localBarrier = true := localBarrier_iff.mpr hw
  have hx : s.Handshake (drive n β r true false) := by
    intro _
    exact ⟨Or.inr rfl, fun h => Bool.false_ne_true h.2.2.1⟩
  have hg : ∀ i, (s.next barrierAddr (drive n β r true false)).regs.stateQ i = .Global := by
    intro i
    rw [next_stateQ_of_wait (hw i), if_pos hl]
    by_cases h0 : i = 0
    · rw [if_pos h0]
      rfl
    · rw [if_neg h0]
  apply canRelease_of_next (drive n β r true false)
  exact canRelease_of_global r hg ((moving_next hm hs hx).awaits (hg 0))

omit [Zero β] in
/-- A barrier request shown outside `Global` is not taken. -/
theorem ready_of_presented {i : Fin n} (h : ∃ r, s.held i = some r ∧ r.addr = barrierAddr)
    (hg : s.regs.stateQ i ≠ .Global) : s.ready barrierAddr x i = false := by
  obtain ⟨r, hr, haddr⟩ := h
  cases hs : s.regs.stateQ i with
  | Idle =>
    rw [ready, TileBarrier.inQReady, hs, inReq_of_held hr]
    simp [TileBarrier.isBarrierReq, haddr]
  | Wait => exact ready_of_wait hs
  | Global => exact absurd hs hg
  | Take => exact ready_of_take hs

/-- A cycle brings ports that show a barrier request nearer to `Wait`. -/
theorem approach (r : Req α) (hp : AllPresented barrierAddr s)
    (hg : ∀ i, s.regs.stateQ i ≠ .Global) (hl : s.regs.localBarrier = false) :
    let s' := s.next barrierAddr (drive n β r false false)
    AllPresented barrierAddr s' ∧ ∀ i, s'.regs.stateQ i =
      if s.regs.stateQ i = .Take then .Idle else .Wait := by
  refine ⟨?_, ?_⟩
  · intro i
    obtain ⟨q, hq, haddr⟩ := hp i
    exact ⟨q, next_held_of_held hq (ready_of_presented (hp i) (hg i)), haddr⟩
  · intro i
    obtain ⟨q, hq, haddr⟩ := hp i
    cases hs : s.regs.stateQ i with
    | Idle =>
      rw [next_stateQ_of_idle hs, inReq_of_held hq]
      simp [TileBarrier.isBarrierReq, haddr]
    | Wait =>
      rw [next_stateQ_of_wait hs, hl]
      rfl
    | Global => exact absurd hs (hg i)
    | Take =>
      rw [next_stateQ_of_take hs]
      rfl

/-- From ports outside `Take` and `Global`, one cycle at most leads to `Wait` at all of them. -/
theorem canRelease_of_no_take (r : Req α) (hm : Moving s) (hs : Sound barrierAddr s)
    (hp : AllPresented barrierAddr s) (hg : ∀ i, s.regs.stateQ i ≠ .Global)
    (htk : ∀ i, s.regs.stateQ i ≠ .Take) : CanRelease barrierAddr s := by
  cases hl : s.regs.localBarrier with
  | true => exact canRelease_of_wait r hm hs (localBarrier_iff.mp hl)
  | false =>
    have hx : s.Handshake (drive n β r false false) := by
      intro h
      rw [hl] at h
      cases h
    obtain ⟨_, hstate⟩ := approach r hp hg hl
    apply canRelease_of_next (drive n β r false false)
    apply canRelease_of_wait r (moving_next hm hs hx) (sound_next hs _)
    intro i
    rw [hstate i, if_neg (htk i)]

/-- **From every state in which all cores show a barrier request, all can be released.** -/
theorem canRelease (hm : Moving s) (hs : Sound barrierAddr s) (hp : AllPresented barrierAddr s) :
    CanRelease barrierAddr s := by
  obtain ⟨r, _, _⟩ := hp 0
  by_cases h0 : s.regs.stateQ 0 = .Global
  · exact canRelease_of_global r (hs.together h0) (hm.awaits h0)
  · have hg : ∀ i, s.regs.stateQ i ≠ .Global := fun i hi => h0 (hm.follows i hi)
    cases hl : s.regs.localBarrier with
    | true => exact canRelease_of_wait r hm hs (localBarrier_iff.mp hl)
    | false =>
      have hx : s.Handshake (drive n β r false false) := by
        intro h
        rw [hl] at h
        cases h
      obtain ⟨hp', hstate⟩ := approach r hp hg hl
      apply canRelease_of_next (drive n β r false false)
      apply canRelease_of_no_take r (moving_next hm hs hx) (sound_next hs _) hp'
      · intro i
        rw [hstate i]
        split <;> exact fun h => by cases h
      · intro i
        rw [hstate i]
        split <;> exact fun h => by cases h

theorem run_append (pre ys : List (TileIn n α β)) :
    (machine n α β barrierAddr).run (pre ++ ys) =
      ys.foldl (next barrierAddr) ((machine n α β barrierAddr).run pre) := by
  rw [Machine.run, List.foldl_append]
  rfl

/-- Within the condition a request that port 0 has to repeat is the request of the only port. -/
theorem forwardStable (xs : List (TileIn n α β))
    (h : (machine n α β barrierAddr).Meets Handshake xs) : ForwardStable barrierAddr xs := by
  intro pre x y post heq q hq hnot
  have hs := sound_run barrierAddr pre
  have hx := h pre x (y :: post) heq
  have hrun : (machine n α β barrierAddr).run (pre ++ [x]) =
      ((machine n α β barrierAddr).run pre).next barrierAddr x := Machine.run_concat _ pre x
  rw [hrun]
  generalize (machine n α β barrierAddr).run pre = s at hs hx hq
  unfold barrierForward at hq
  split at hq
  · rename_i hc
    obtain ⟨hw, hv⟩ := hc
    obtain ⟨r, hr, _⟩ := hs.holds 0 (Or.inl hw)
    have hl : s.regs.localBarrier = true := by
      have hv' : s.regs.outQValid barrierAddr (s.inReq x 0) 0 = true := hv
      rw [TileBarrier.outQValid, hw] at hv'
      exact (Bool.and_eq_true_iff.mp hv').1
    have hone : n = 1 := by
      rcases (hx hl).1 with h1 | h1
      · exact h1
      · rw [hnot] at h1
        cases h1
    have hw' : (s.next barrierAddr x).regs.stateQ 0 = .Wait := by
      rw [next_stateQ_of_wait hw, if_pos hl, if_pos rfl, hnot]
      rfl
    have hl' : (s.next barrierAddr x).regs.localBarrier = true := by
      apply localBarrier_iff.mpr
      intro i
      subst hone
      rw [Subsingleton.elim i 0]
      exact hw'
    have hr' : (s.next barrierAddr x).held 0 = some r := next_held_of_held hr (ready_of_wait hw)
    have hv' : (s.next barrierAddr x).regs.outQValid barrierAddr
        ((s.next barrierAddr x).inReq y 0) 0 = true := by
      rw [TileBarrier.outQValid, hw']
      simp [hl']
    rw [← hq]
    unfold barrierForward
    rw [if_pos ⟨hw', hv'⟩]
    simp only [TileBarrier.outReqO, inReq_of_held hr, inReq_of_held hr']
  · cases hq

/-- **When the tile barrier cannot get stuck.**  Every state of a run in which all cores show a barrier
request can be continued to one in which all are released, and the request of port 0 is stable until it is
taken, exactly when every cycle of the run meets the handshake. -/
theorem never_stuck_iff (n : Nat) [NeZero n] (α β : Type) [Zero β] (barrierAddr : BitVec 32)
    (xs : List (TileIn n α β)) :
    ((∀ pre post, xs = pre ++ post →
        AllPresented barrierAddr ((machine n α β barrierAddr).run pre) →
        ∃ ys, Released ((machine n α β barrierAddr).run (pre ++ ys))) ∧
      ForwardStable barrierAddr xs) ↔
    (machine n α β barrierAddr).Meets Handshake xs := by
  constructor
  · rintro ⟨h, _⟩ pre x post heq
    -- after a missed handshake the ports are stuck, each with its request
    apply Classical.byContradiction
    intro hx
    have hstuck : Stuck (next barrierAddr ((machine n α β barrierAddr).run pre) x) :=
      stuck_of_not_handshake hx
    have hrun : (machine n α β barrierAddr).run (pre ++ [x]) =
        ((machine n α β barrierAddr).run pre).next barrierAddr x := Machine.run_concat _ pre x
    rw [← hrun] at hstuck
    obtain ⟨ys, hys⟩ := h (pre ++ [x]) post (by simp [heq]) (hstuck.allPresented (sound_run _ _))
    rw [run_append] at hys
    exact (stuck_foldl hstuck ys).not_released hys
  · intro h
    refine ⟨?_, forwardStable xs h⟩
    intro pre post heq hp
    obtain ⟨ys, hys⟩ := canRelease (moving_run pre (h.beginning heq)) (sound_run _ pre) hp
    refine ⟨ys, ?_⟩
    rw [run_append]
    exact hys

/-- A cycle in which both of two cores request the barrier, if they hold nothing yet. -/
def bothIn (ready answering : Bool) : TileIn 2 Unit Nat where
  q := fun _ => ⟨0x40#32, zeroUser, ()⟩
  qValid := fun _ => true
  pReady := fun _ => true
  qReady := fun _ => ready
  pValid := fun _ => answering
  answer := fun _ => ⟨zeroUser, 0⟩

theorem never_stuck_two_cores :
    ForwardStable 0x40#32 [bothIn true false, bothIn true false, bothIn true true] :=
  ((never_stuck_iff 2 Unit Nat 0x40#32 _).mpr (by decide)).2

/-- Both cores wait, the downstream is busy for one cycle: the request of port 0 is withdrawn, and no
continuation releases the cores. -/
theorem stuck_two_cores :
    let xs := [bothIn true false, bothIn false false]
    let M := machine 2 Unit Nat 0x40#32
    AllPresented 0x40#32 (M.run xs) ∧ (¬ ∃ ys, Released (M.run (xs ++ ys))) ∧
    ¬ ForwardStable 0x40#32 (xs ++ [bothIn true false]) := by
  intro xs M
  have hstuck : Stuck (M.run xs) := stuck_of_not_handshake (s := M.run [bothIn true false])
    (x := bothIn false false) (by decide)
  refine ⟨hstuck.allPresented (sound_run _ xs), ?_, ?_⟩
  · rintro ⟨ys, hys⟩
    rw [run_append] at hys
    exact (stuck_foldl hstuck ys).not_released hys
  · intro h
    have := h [bothIn true false] (bothIn false false) (bothIn true false) [] rfl
      ⟨0x40#32, zeroUser, ()⟩ (by decide) rfl
    revert this
    decide

end TileSys

end Barrier

end CachePool
