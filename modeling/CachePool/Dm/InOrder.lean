import CachePool.Lib.Ring
import CachePool.Dm.Queue

/-!
# Tasks in order, each with its own arguments

* `Stored`, `Loaded` — an entry after the first stores of a call; the arguments after the first loads.
* `Inv` — the queue is a ring that holds what has been queued and not taken out, the mutex has one holder, and
  the holder writes to the free entry behind the last one.
* `inv_run` — it holds in every run in which a producer that takes the mutex finds room.
* `step_down` — until everything queued has been started, the DM core can go on, or can be woken.
* `inOrder_of_roomAtLock`, `queue_overfull` — tasks start in order; two producers that see the last free entry
  together both fill it.
* `Stalled.run` — a producer of the DM core's tile that waits for room keeps the sleeping DM core from ever
  starting another task.
-/

set_option autoImplicit false

namespace CachePool

namespace Dm

/-! ## Stores and loads of an entry -/

/-- The entry after the first `k` stores of the call. -/
def Stored (c : Call) (k : Nat) (e : DmTask) : Prop :=
  k ≤ c.stores.length ∧ ∃ e₀, e = (c.stores.take k).foldl (fun e f => f e) e₀

theorem stored_zero (c : Call) (e : DmTask) : Stored c 0 e := ⟨Nat.zero_le _, e, rfl⟩

theorem Stored.store {c : Call} {k : Nat} {e : DmTask} {f : DmTask → DmTask} (h : Stored c k e)
    (hf : c.stores[k]? = some f) : Stored c (k + 1) (f e) := by
  obtain ⟨hlt, _⟩ := List.getElem?_eq_some_iff.mp hf
  obtain ⟨_, e₀, rfl⟩ := h
  refine ⟨hlt, e₀, ?_⟩
  rw [List.take_add_one, hf, List.foldl_append]
  rfl

/-- All stores made, the entry is the transfer that was asked for. -/
theorem Stored.transfer_eq {c : Call} {k : Nat} {e : DmTask} (h : Stored c k e) (hend : c.stores[k]? = none) :
    e.transfer = c.transfer := by
  obtain ⟨_, e₀, rfl⟩ := h
  rw [List.take_of_length_le (List.getElem?_eq_none_iff.mp hend)]
  cases c with
  | memcpyAsync dest src n => simp [Call.stores, Call.transfer, DmTask.transfer]
  | memcpy2dAsync src dst size sstrd dstrd nreps cfg => simp [Call.stores, Call.transfer, DmTask.transfer]

/-- The arguments after `twod` and the first `k` loads from entry `e`. -/
def Loaded (e : DmTask) (k : Nat) (t : DmTask) : Prop :=
  t.twod = e.twod ∧ k ≤ (loads e.twod).length ∧
    ∃ t₀, t₀.twod = e.twod ∧ t = ((loads e.twod).take k).foldl (fun t f => f e t) t₀

theorem loaded_zero {e t : DmTask} (h : t.twod = e.twod) : Loaded e 0 t := ⟨h, Nat.zero_le _, t, h, rfl⟩

theorem twod_load {w : Nat} {f : DmTask → DmTask → DmTask} (hf : f ∈ loads w) (e t : DmTask) :
    (f e t).twod = t.twod := by
  unfold loads at hf
  split at hf
  · simp only [List.mem_cons, List.not_mem_nil, or_false] at hf
    rcases hf with rfl | rfl | rfl | rfl | rfl | rfl | rfl <;> rfl
  · simp only [List.mem_cons, List.not_mem_nil, or_false] at hf
    rcases hf with rfl | rfl | rfl | rfl <;> rfl

theorem Loaded.load {e t : DmTask} {k : Nat} {f : DmTask → DmTask → DmTask} (h : Loaded e k t)
    (hf : (loads e.twod)[k]? = some f) : Loaded e (k + 1) (f e t) := by
  obtain ⟨hlt, _⟩ := List.getElem?_eq_some_iff.mp hf
  obtain ⟨htwod, _, t₀, ht₀, rfl⟩ := h
  refine ⟨(twod_load (List.mem_of_getElem? hf) e _).trans htwod, hlt, t₀, ht₀, ?_⟩
  rw [List.take_add_one, hf, List.foldl_append]
  rfl

/-- All loads made, the start is that of the entry. -/
theorem Loaded.transfer_eq {e t : DmTask} {k : Nat} (h : Loaded e k t) (hend : (loads e.twod)[k]? = none) :
    t.transfer = e.transfer := by
  obtain ⟨_, _, t₀, ht₀, rfl⟩ := h
  rw [List.take_of_length_le (List.getElem?_eq_none_iff.mp hend)]
  unfold loads
  split
  · rename_i htwod
    simp [DmTask.transfer, ht₀, htwod]
  · rename_i htwod
    simp [DmTask.transfer, ht₀, htwod]

/-! ## The invariant -/

/-- A task has been started and is still counted in `queue_fill`. -/
def DmCore.popped (d : DmCore) : Nat := if d.pc = .bumpBack ∨ d.pc = .subFill then 1 else 0

/-- The DM core is counted in `dm_wfi`. -/
def DmCore.inWfi (d : DmCore) : Nat :=
  if d.pc = .wfi ∨ d.pc = .clr ∨ d.pc = .held ∨ d.pc = .subWfi then 1 else 0

/-- The producer holds the mutex. -/
def Producer.holds (p : Producer) : Nat :=
  match p.pc with
  | .loadFront | .store _ | .bumpFront | .release => 1
  | .idle | .poll | .lock => 0

/-- The producer's task is counted in `queue_fill` and `queue_front` is still at it. -/
def Producer.atBump (p : Producer) : Nat := if p.pc = .bumpFront then 1 else 0

theorem Producer.atBump_le_holds (p : Producer) : p.atBump ≤ p.holds := by
  unfold atBump holds
  split
  · rename_i hpc
    rw [hpc]
  · omega

namespace Sys

variable {n : Nat}

section

variable (s : Sys n)

def DmOk : Prop :=
  match s.dm.pc with
  | .loadBack => s.started.length < s.queued.length
  | .loadTwod => s.started.length < s.queued.length ∧ s.dm.t = s.started.length % dmTaskQueueSize
  | .load k =>
    s.started.length < s.queued.length ∧ s.dm.t = s.started.length % dmTaskQueueSize ∧
      Loaded (s.queue s.dm.t) k s.dm.task
  | .bumpBack | .subFill => 1 ≤ s.started.length
  | .checkFill | .checkSleep | .addWfi | .wfi | .clr | .held | .subWfi => True

def ProducerOk (p : Producer) : Prop :=
  match p.pc with
  | .loadFront => s.queueFill < dmTaskQueueSize
  | .store k =>
    s.queueFill < dmTaskQueueSize ∧ p.t = s.queued.length % dmTaskQueueSize ∧ Stored p.call k (s.queue p.t)
  | .bumpFront => 1 ≤ s.queued.length
  | .idle | .poll | .lock | .release => True

/-- **The queue is a ring between its two ends.** -/
structure Inv : Prop where
  count : s.queueFill + s.started.length = s.queued.length + s.dm.popped
  fill_le : s.queueFill ≤ dmTaskQueueSize
  back : s.queueBack = (s.started.length - if s.dm.pc = .bumpBack then 1 else 0) % dmTaskQueueSize
  front : s.queueFront = (s.queued.length - tally Producer.atBump s.producers) % dmTaskQueueSize
  ring : RingHolds dmTaskQueueSize (fun j => (s.queue j).transfer) s.queued (s.started.length - s.dm.popped)
  wfi : s.dmWfi = s.dm.inWfi
  holder : tally Producer.holds s.producers = if s.mutex then 1 else 0
  producers : ∀ i, s.ProducerOk (s.producers i)
  dm : s.DmOk
  in_order : s.started <+: s.queued

end

variable {s s' : Sys n} {dmIdx : Fin 32} {dmTile : Finset (Fin n)}

theorem inv_init (n : Nat) : (init n).Inv where
  count := rfl
  fill_le := Nat.zero_le _
  back := rfl
  front := by
    have hnone : tally Producer.atBump (init n).producers = 0 := tally_eq_zero_iff.mpr (fun _ => rfl)
    rw [hnone]
    rfl
  ring := RingHolds.nil _ _
  wfi := rfl
  holder := tally_eq_zero_iff.mpr (fun _ => rfl)
  producers := fun _ => trivial
  dm := trivial
  in_order := List.prefix_refl _

/-! ## The DM core -/

/-- The DM core moves on without starting or counting. -/
theorem Inv.dm_goes (I : s.Inv) {d : DmCore} {w : Nat} {c : BitVec 32} (hold : s.dm.popped = 0)
    (hnew : d.popped = 0) (hwfi : w = d.inWfi)
    (hok : ({ s with dm := d, dmWfi := w, clint := c } : Sys n).DmOk) :
    ({ s with dm := d, dmWfi := w, clint := c } : Sys n).Inv := by
  have hbump : ∀ d : DmCore, d.popped = 0 → d.pc ≠ .bumpBack := by
    intro d hd hpc
    simp [DmCore.popped, hpc] at hd
  have hback := I.back
  have hring := I.ring
  have hcount := I.count
  rw [if_neg (hbump _ hold)] at hback
  rw [hold] at hring hcount
  refine ⟨?_, I.fill_le, ?_, I.front, ?_, hwfi, I.holder, I.producers, hok, I.in_order⟩
  · rw [hnew]
    exact hcount
  · rw [if_neg (hbump _ hnew)]
    exact hback
  · rw [hnew]
    exact hring

/-- The DM core starts the oldest task that has not been started. -/
theorem Inv.dm_start (I : s.Inv) {k : Nat} (hpc : s.dm.pc = .load k)
    (hend : (loads s.dm.task.twod)[k]? = none) : (s.stepDm dmIdx).Inv := by
  have hat := I.dm
  simp only [DmOk, hpc] at hat
  obtain ⟨hlt, ht, hloaded⟩ := hat
  have hpopped : s.dm.popped = 0 := by simp [DmCore.popped, hpc]
  have hcount := I.count
  have hback := I.back
  have hring := I.ring
  simp only [hpopped, hpc] at hcount hback hring
  -- what is started is the task at the back of the ring
  have htransfer : s.dm.task.transfer = s.queued[s.started.length] := by
    rw [hloaded.1] at hend
    rw [hloaded.transfer_eq hend, ht]
    exact hring _ _ (by omega) (List.getElem?_eq_getElem hlt)
  have hstep : s.stepDm dmIdx =
      { s with started := s.started ++ [s.dm.task.transfer], dm := { s.dm with pc := .bumpBack } } := by
    simp [stepDm, hpc, hend, gotoDm]
  have hnow : ({ s.dm with pc := .bumpBack } : DmCore).popped = 1 := rfl
  rw [hstep]
  refine ⟨?_, I.fill_le, ?_, I.front, ?_, ?_, I.holder, I.producers, ?_, ?_⟩
  · simp only [hnow, List.length_append, List.length_singleton]
    omega
  · simpa using hback
  · simpa [hnow] using hring
  · have hwfi := I.wfi
    simp only [DmCore.inWfi, hpc] at hwfi
    simpa [DmCore.inWfi] using hwfi
  · simp [DmOk]
  · exact concat_prefix I.in_order (by rw [htransfer]; exact List.getElem?_eq_getElem hlt)

/-- `queue_back` moves behind the task that was started. -/
theorem Inv.dm_bumpBack (I : s.Inv) (hpc : s.dm.pc = .bumpBack) : (s.stepDm dmIdx).Inv := by
  have hat := I.dm
  simp only [DmOk, hpc] at hat
  have hpopped : s.dm.popped = 1 := by simp [DmCore.popped, hpc]
  have hcount := I.count
  have hback := I.back
  have hring := I.ring
  rw [hpopped] at hcount hring
  rw [if_pos hpc] at hback
  have hstep : s.stepDm dmIdx =
      { s with queueBack := (s.queueBack + 1) % dmTaskQueueSize, dm := { s.dm with pc := .subFill } } := by
    simp [stepDm, hpc, gotoDm]
  rw [hstep]
  refine ⟨hcount, I.fill_le, ?_, I.front, hring, ?_, I.holder, I.producers, ?_, I.in_order⟩
  · simp only [hback, dmTaskQueueSize]
    simp
    omega
  · have hwfi := I.wfi
    simp only [DmCore.inWfi, hpc] at hwfi
    simpa [DmCore.inWfi] using hwfi
  · simpa [DmOk] using hat

/-- The entry is free again. -/
theorem Inv.dm_subFill (I : s.Inv) (hpc : s.dm.pc = .subFill) : (s.stepDm dmIdx).Inv := by
  have hat := I.dm
  simp only [DmOk, hpc] at hat
  have hpopped : s.dm.popped = 1 := by simp [DmCore.popped, hpc]
  have hcount := I.count
  have hback := I.back
  have hring := I.ring
  have hlen := I.in_order.length_le
  have hle := I.fill_le
  rw [hpopped] at hcount hring
  simp only [hpc] at hback
  have hstep : s.stepDm dmIdx =
      { s with queueFill := s.queueFill - 1, dm := { s.dm with pc := .checkSleep } } := by
    simp [stepDm, hpc, gotoDm]
  have hnow : ({ s.dm with pc := .checkSleep } : DmCore).popped = 0 := rfl
  rw [hstep]
  refine ⟨?_, ?_, ?_, I.front, ?_, ?_, I.holder, ?_, ?_, I.in_order⟩
  · simp only [hnow]
    omega
  · dsimp only
    omega
  · simpa using hback
  · simp only [hnow]
    exact hring.pop (by omega)
  · have hwfi := I.wfi
    simp only [DmCore.inWfi, hpc] at hwfi
    simpa [DmCore.inWfi] using hwfi
  · intro i
    have hp := I.producers i
    unfold ProducerOk at hp ⊢
    cases hi : (s.producers i).pc with
    | loadFront =>
      simp only [hi] at hp ⊢
      omega
    | store k =>
      simp only [hi] at hp ⊢
      exact ⟨by omega, hp.2⟩
    | bumpFront =>
      simp only [hi] at hp ⊢
      exact hp
    | idle | poll | lock | release => trivial
  · trivial

/-- **A step of the DM core.** -/
theorem Inv.dm_step (I : s.Inv) : (s.stepDm dmIdx).Inv := by
  have hat := I.dm
  have hwfi := I.wfi
  have hcount := I.count
  cases hpc : s.dm.pc with
  | checkFill =>
    have hpopped : s.dm.popped = 0 := by simp [DmCore.popped, hpc]
    rw [hpopped] at hcount
    simp only [stepDm, hpc, gotoDm]
    simp only [DmCore.inWfi, hpc] at hwfi
    by_cases hfill : s.queueFill ≠ 0
    · rw [if_pos hfill]
      refine I.dm_goes hpopped rfl (by simpa [DmCore.inWfi] using hwfi) ?_
      simp only [DmOk]
      omega
    · rw [if_neg hfill]
      exact I.dm_goes hpopped rfl (by simpa [DmCore.inWfi] using hwfi) trivial
  | loadBack =>
    have hback := I.back
    simp only [DmOk, hpc] at hat
    simp only [hpc] at hback
    simp only [stepDm, hpc]
    simp only [DmCore.inWfi, hpc] at hwfi
    refine I.dm_goes (by simp [DmCore.popped, hpc]) rfl (by simpa [DmCore.inWfi] using hwfi) ?_
    exact ⟨hat, by simpa using hback⟩
  | loadTwod =>
    simp only [DmOk, hpc] at hat
    simp only [stepDm, hpc]
    simp only [DmCore.inWfi, hpc] at hwfi
    refine I.dm_goes (by simp [DmCore.popped, hpc]) rfl (by simpa [DmCore.inWfi] using hwfi) ?_
    exact ⟨hat.1, hat.2, loaded_zero rfl⟩
  | load k =>
    simp only [DmOk, hpc] at hat
    simp only [DmCore.inWfi, hpc] at hwfi
    cases hload : (loads s.dm.task.twod)[k]? with
    | none => exact I.dm_start hpc hload
    | some f =>
      simp only [stepDm, hpc, hload]
      refine I.dm_goes (by simp [DmCore.popped, hpc]) (by simp [DmCore.popped])
        (by simpa [DmCore.inWfi] using hwfi) ?_
      rw [hat.2.2.1] at hload
      exact ⟨hat.1, hat.2.1, hat.2.2.load hload⟩
  | bumpBack => exact I.dm_bumpBack hpc
  | subFill => exact I.dm_subFill hpc
  | checkSleep =>
    simp only [stepDm, hpc, gotoDm]
    simp only [DmCore.inWfi, hpc] at hwfi
    by_cases hfill : s.queueFill = 0
    · rw [if_pos hfill]
      exact I.dm_goes (by simp [DmCore.popped, hpc]) rfl (by simpa [DmCore.inWfi] using hwfi) trivial
    · rw [if_neg hfill]
      exact I.dm_goes (by simp [DmCore.popped, hpc]) rfl (by simpa [DmCore.inWfi] using hwfi) trivial
  | addWfi =>
    simp only [stepDm, hpc, gotoDm]
    simp only [DmCore.inWfi, hpc] at hwfi
    exact I.dm_goes (by simp [DmCore.popped, hpc]) rfl (by simpa [DmCore.inWfi] using hwfi) trivial
  | wfi =>
    simp only [stepDm, hpc, gotoDm]
    simp only [DmCore.inWfi, hpc] at hwfi
    split
    · exact I.dm_goes (by simp [DmCore.popped, hpc]) rfl (by simpa [DmCore.inWfi] using hwfi) trivial
    · exact I
  | clr =>
    simp only [stepDm, hpc, gotoDm]
    simp only [DmCore.inWfi, hpc] at hwfi
    exact I.dm_goes (by simp [DmCore.popped, hpc]) rfl (by simpa [DmCore.inWfi] using hwfi) trivial
  | held =>
    simp only [stepDm, hpc]
    exact I
  | subWfi =>
    simp only [stepDm, hpc, gotoDm]
    have hone : s.dmWfi = 1 := by simpa [DmCore.inWfi, hpc] using hwfi
    exact I.dm_goes (by simp [DmCore.popped, hpc]) rfl (by simp [DmCore.inWfi, hone]) trivial

/-! ## The producers -/

/-- Besides the holder of the mutex nobody holds it. -/
theorem Inv.holds_zero (I : s.Inv) {i j : Fin n} (hi : (s.producers i).holds = 1) (hj : j ≠ i) :
    (s.producers j).holds = 0 := by
  have hboth := add_le_tally Producer.holds s.producers hj
  have hone := I.holder
  split at hone <;> omega

theorem Inv.mutex_held (I : s.Inv) {i : Fin n} (hi : (s.producers i).holds = 1) : s.mutex = true := by
  have hone := I.holder
  have hle := le_tally Producer.holds s.producers i
  by_contra hn
  rw [if_neg hn] at hone
  omega

/-- Nobody but the holder can be at `queue_front`. -/
theorem Inv.front_held (I : s.Inv) {i : Fin n} (hi : (s.producers i).holds = 1) :
    s.queueFront = (s.queued.length - (s.producers i).atBump) % dmTaskQueueSize := by
  have honly : tally Producer.atBump s.producers = (s.producers i).atBump := by
    apply Finset.sum_eq_single i
    · intro j _ hj
      have hle := (s.producers j).atBump_le_holds
      have hout := I.holds_zero hi hj
      omega
    · exact fun hn => absurd (Finset.mem_univ i) hn
  rw [I.front, honly]

theorem ProducerOk.of_out {p : Producer} (h : p.holds = 0) : s.ProducerOk p := by
  unfold ProducerOk
  unfold Producer.holds at h
  cases hpc : p.pc <;> simp [hpc] at h ⊢

/-- The holder of the mutex changes the queue: what has to be shown. -/
theorem Inv.holder_step (I : s.Inv) {i : Fin n} {p : Producer} (hi : (s.producers i).holds = 1)
    {queue : Nat → DmTask} {front fill : Nat} {mutex : Bool} {queued : List Transfer}
    (hs' : s' =
      { s with
        queue := queue, queueFront := front, queueFill := fill, mutex := mutex, queued := queued
        producers := Function.update s.producers i p })
    (hcount : fill + s.started.length = queued.length + s.dm.popped) (hfill : fill ≤ dmTaskQueueSize)
    (hfront : front = (queued.length - p.atBump) % dmTaskQueueSize)
    (hring : RingHolds dmTaskQueueSize (fun j => (queue j).transfer) queued (s.started.length - s.dm.popped))
    (hholder : p.holds = if mutex then 1 else 0) (hok : s'.ProducerOk p) (hdm : s'.DmOk)
    (horder : s.started <+: queued) : s'.Inv := by
  have hothers : ∀ j, j ≠ i → (s.producers j).holds = 0 := fun j hj => I.holds_zero hi hj
  have hzero : ∀ w : Producer → Nat, (∀ p, w p ≤ p.holds) →
      tally w (Function.update s.producers i p) = w p := by
    intro w hw
    have hnone : ∀ j ∈ Finset.univ, j ≠ i → w (Function.update s.producers i p j) = 0 := by
      intro j _ hj
      have hle := hw (s.producers j)
      rw [Function.update_of_ne hj]
      have hout := hothers j hj
      omega
    unfold tally
    rw [Finset.sum_eq_single i hnone (fun hn => absurd (Finset.mem_univ i) hn), Function.update_self]
  subst hs'
  refine ⟨hcount, hfill, I.back, ?_, hring, I.wfi, ?_, ?_, hdm, horder⟩
  · dsimp only
    rw [hzero Producer.atBump Producer.atBump_le_holds]
    exact hfront
  · dsimp only
    rw [hzero Producer.holds (fun _ => Nat.le_refl _)]
    exact hholder
  · intro j
    by_cases hj : j = i
    · simpa [hj] using hok
    · dsimp only
      rw [Function.update_of_ne hj]
      exact ProducerOk.of_out (hothers j hj)

/-- The holder of the mutex moves on; entries and counts stay. -/
theorem Inv.holder_moves (I : s.Inv) {i : Fin n} {p : Producer} (hi : (s.producers i).holds = 1)
    {front : Nat} {mutex : Bool}
    (hs' : s' =
      { s with queueFront := front, mutex := mutex, producers := Function.update s.producers i p })
    (hfront : front = (s.queued.length - p.atBump) % dmTaskQueueSize)
    (hholder : p.holds = if mutex then 1 else 0) (hok : s'.ProducerOk p) : s'.Inv := by
  have hdm : s'.DmOk := by
    rw [hs']
    exact I.dm
  exact I.holder_step hi hs' I.count I.fill_le hfront I.ring hholder hok hdm I.in_order

/-- A producer moves on outside the mutex. -/
theorem Inv.producer_goes (I : s.Inv) {i : Fin n} {p : Producer} (hold : (s.producers i).holds = 0)
    (hnew : p.holds = 0) : (s.setProducer i p).Inv := by
  have htally : ∀ w : Producer → Nat, (∀ p, w p ≤ p.holds) →
      tally w (Function.update s.producers i p) = tally w s.producers := by
    intro w hw
    have hupd := tally_update w s.producers i p
    have hle := hw (s.producers i)
    have hle' := hw p
    omega
  refine ⟨I.count, I.fill_le, I.back, ?_, I.ring, I.wfi, ?_, ?_, I.dm, I.in_order⟩
  · simp only [setProducer]
    rw [htally Producer.atBump Producer.atBump_le_holds]
    exact I.front
  · simp only [setProducer]
    rw [htally Producer.holds (fun _ => Nat.le_refl _)]
    exact I.holder
  · intro j
    by_cases hj : j = i
    · rw [hj]
      have hself : (s.setProducer i p).producers i = p := Function.update_self _ _ _
      rw [hself]
      exact ProducerOk.of_out hnew
    · have hsame : (s.setProducer i p).producers j = s.producers j := Function.update_of_ne hj _ _
      rw [hsame]
      exact I.producers j

/-- A producer takes the mutex. -/
theorem Inv.producer_lock (I : s.Inv) {i : Fin n} (hpc : (s.producers i).pc = .lock)
    (h : s.RoomAtLock (.producer i)) : (s.stepProducer i).Inv := by
  by_cases hmutex : s.mutex = true
  · have hstep : s.stepProducer i = s := by simp [stepProducer, hpc, hmutex]
    rw [hstep]
    exact I
  · have hroom := h hpc (by simpa using hmutex)
    have hnone : tally Producer.holds s.producers = 0 := by
      rw [I.holder, if_neg hmutex]
    have hout := tally_eq_zero_iff.mp hnone
    have hbump : tally Producer.atBump s.producers = 0 := by
      apply tally_eq_zero_iff.mpr
      intro j
      have hle := (s.producers j).atBump_le_holds
      have hj := hout j
      omega
    obtain ⟨p, hp⟩ : ∃ p, p = { s.producers i with pc := .loadFront } := ⟨_, rfl⟩
    have hstep : s.stepProducer i =
        { s with mutex := true, producers := Function.update s.producers i p } := by
      simp [stepProducer, hpc, hmutex, setProducer, hp]
    have hupdBump := tally_update Producer.atBump s.producers i p
    have hupdHolds := tally_update Producer.holds s.producers i p
    have hold : (s.producers i).atBump = 0 := by simp [Producer.atBump, hpc]
    have hnew : p.atBump = 0 := by simp [Producer.atBump, hp]
    have hholds : p.holds = 1 := by simp [Producer.holds, hp]
    rw [hstep]
    refine ⟨I.count, I.fill_le, I.back, ?_, I.ring, I.wfi, ?_, ?_, I.dm, I.in_order⟩
    · have hfront := I.front
      dsimp only
      rw [hfront]
      congr 2
      omega
    · have hself := hout i
      dsimp only
      rw [if_pos rfl]
      omega
    · intro j
      dsimp only
      by_cases hj : j = i
      · rw [hj, Function.update_self, hp]
        exact hroom
      · rw [Function.update_of_ne hj]
        exact ProducerOk.of_out (hout j)

/-- The DM core's place under a change of entries, counts or harts it does not look at. -/
theorem DmOk.frame (h : s.DmOk) (hdm : s'.dm = s.dm) (hstarted : s'.started = s.started)
    (hlen : s.queued.length ≤ s'.queued.length)
    (hentry : s.started.length < s.queued.length → s'.queue (s.started.length % dmTaskQueueSize) =
      s.queue (s.started.length % dmTaskQueueSize)) : s'.DmOk := by
  unfold DmOk at h ⊢
  rw [hdm, hstarted]
  cases hpc : s.dm.pc with
  | loadBack =>
    simp only [hpc] at h ⊢
    omega
  | loadTwod =>
    simp only [hpc] at h ⊢
    exact ⟨by omega, h.2⟩
  | load k =>
    simp only [hpc] at h ⊢
    have hsame : s'.queue s.dm.t = s.queue s.dm.t := by
      rw [h.2.1]
      exact hentry h.1
    rw [hsame]
    exact ⟨by omega, h.2⟩
  | bumpBack | subFill =>
    simp only [hpc] at h ⊢
    exact h
  | checkFill | checkSleep | addWfi | wfi | clr | held | subWfi => trivial

/-- With room in the queue, the entry the holder writes is not one the DM core still has to start. -/
theorem Inv.entry_free (I : s.Inv) (hroom : s.queueFill < dmTaskQueueSize) :
    s.queued.length < s.started.length - s.dm.popped + dmTaskQueueSize := by
  have hcount := I.count
  have hlen := I.in_order.length_le
  have hpopped : s.dm.popped ≤ 1 := by
    unfold DmCore.popped
    split <;> omega
  omega

/-- A store to the entry behind the last one. -/
theorem Inv.producer_store (I : s.Inv) {i : Fin n} {k : Nat} {f : DmTask → DmTask}
    (hpc : (s.producers i).pc = .store k) (hf : (s.producers i).call.stores[k]? = some f) :
    (s.stepProducer i).Inv := by
  have hp := I.producers i
  simp only [ProducerOk, hpc] at hp
  obtain ⟨hroom, ht, hstored⟩ := hp
  have hfree := I.entry_free hroom
  have hheld : (s.producers i).holds = 1 := by simp [Producer.holds, hpc]
  have hfront := I.front_held hheld
  have hstep : s.stepProducer i = { s with
      queue := Function.update s.queue (s.producers i).t (f (s.queue (s.producers i).t))
      producers := Function.update s.producers i { s.producers i with pc := .store (k + 1) } } := by
    simp [stepProducer, hpc, hf, setProducer]
  apply I.holder_step hheld hstep I.count I.fill_le
  · simpa [Producer.atBump, hpc] using hfront
  · apply I.ring.write hfree
    intro j hj
    rw [Function.update_of_ne (by rw [ht]; exact hj)]
  · rw [I.mutex_held hheld]
    rfl
  · rw [hstep]
    simp only [ProducerOk, Function.update_self]
    exact ⟨hroom, ht, hstored.store hf⟩
  · rw [hstep]
    refine I.dm.frame ?_ ?_ (Nat.le_refl _) (fun hlt => ?_)
    · rfl
    · rfl
    · apply Function.update_of_ne
      rw [ht]
      exact mod_ne_mod hlt (by omega)
  · exact I.in_order

/-- The task counts as queued, with all its arguments in the entry. -/
theorem Inv.producer_addFill (I : s.Inv) {i : Fin n} {k : Nat} (hpc : (s.producers i).pc = .store k)
    (hend : (s.producers i).call.stores[k]? = none) : (s.stepProducer i).Inv := by
  have hp := I.producers i
  simp only [ProducerOk, hpc] at hp
  obtain ⟨hroom, ht, hstored⟩ := hp
  have hheld : (s.producers i).holds = 1 := by simp [Producer.holds, hpc]
  have hcount := I.count
  have hfront := I.front_held hheld
  have hstep : s.stepProducer i = { s with
      queueFill := s.queueFill + 1, queued := s.queued ++ [(s.producers i).call.transfer]
      producers := Function.update s.producers i { s.producers i with pc := .bumpFront } } := by
    simp [stepProducer, hpc, hend, setProducer]
  apply I.holder_step hheld hstep
  · rw [List.length_append, List.length_singleton]
    omega
  · exact hroom
  · simpa [Producer.atBump, hpc] using hfront
  · apply I.ring.push
    rw [← ht]
    exact hstored.transfer_eq hend
  · rw [I.mutex_held hheld]
    rfl
  · simp [ProducerOk, hstep]
  · rw [hstep]
    exact I.dm.frame rfl rfl (by simp) (fun _ => rfl)
  · exact I.in_order.trans (List.prefix_append _ _)

/-- `queue_front` moves behind the task. -/
theorem Inv.producer_bumpFront (I : s.Inv) {i : Fin n} (hpc : (s.producers i).pc = .bumpFront) :
    (s.stepProducer i).Inv := by
  have hp := I.producers i
  simp only [ProducerOk, hpc] at hp
  have hheld : (s.producers i).holds = 1 := by simp [Producer.holds, hpc]
  have hfront := I.front_held hheld
  simp only [Producer.atBump, hpc] at hfront
  have hstep : s.stepProducer i = { s with
      queueFront := (s.queueFront + 1) % dmTaskQueueSize
      producers := Function.update s.producers i { s.producers i with pc := .release } } := by
    simp [stepProducer, hpc, setProducer]
  apply I.holder_moves hheld hstep
  · simp only [hfront, Producer.atBump, dmTaskQueueSize]
    simp
    omega
  · rw [I.mutex_held hheld]
    rfl
  · simp [ProducerOk]

/-- The mutex is free again. -/
theorem Inv.producer_release (I : s.Inv) {i : Fin n} (hpc : (s.producers i).pc = .release) :
    (s.stepProducer i).Inv := by
  have hheld : (s.producers i).holds = 1 := by simp [Producer.holds, hpc]
  have hfront := I.front_held hheld
  have hstep : s.stepProducer i = { s with
      mutex := false
      producers := Function.update s.producers i { s.producers i with pc := .idle } } := by
    simp [stepProducer, hpc, setProducer]
  apply I.holder_moves hheld hstep
  · simpa [Producer.atBump, hpc] using hfront
  · rfl
  · trivial

/-- The holder takes the entry at `queue_front`. -/
theorem Inv.producer_loadFront (I : s.Inv) {i : Fin n} (hpc : (s.producers i).pc = .loadFront) :
    (s.stepProducer i).Inv := by
  have hp := I.producers i
  simp only [ProducerOk, hpc] at hp
  have hheld : (s.producers i).holds = 1 := by simp [Producer.holds, hpc]
  have hfront := I.front_held hheld
  simp only [Producer.atBump, hpc] at hfront
  have hstep : s.stepProducer i = { s with
      producers :=
        Function.update s.producers i { s.producers i with pc := .store 0, t := s.queueFront } } := by
    simp [stepProducer, hpc, setProducer]
  apply I.holder_moves hheld hstep
  · simpa [Producer.atBump] using hfront
  · rw [I.mutex_held hheld]
    rfl
  · rw [hstep]
    exact ⟨hp, by simpa using hfront, stored_zero _ _⟩

/-- **A step of a producer.** -/
theorem Inv.producer_step (I : s.Inv) {i : Fin n} (h : s.RoomAtLock (.producer i)) :
    (s.stepProducer i).Inv := by
  cases hpc : (s.producers i).pc with
  | idle =>
    have hstep : s.stepProducer i = s := by simp [stepProducer, hpc]
    rw [hstep]
    exact I
  | poll =>
    simp only [stepProducer, hpc]
    split
    · exact I
    · exact I.producer_goes (by simp [Producer.holds, hpc]) rfl
  | lock => exact I.producer_lock hpc h
  | loadFront => exact I.producer_loadFront hpc
  | store k =>
    cases hstore : (s.producers i).call.stores[k]? with
    | none => exact I.producer_addFill hpc hstore
    | some f => exact I.producer_store hpc hstore
  | bumpFront => exact I.producer_bumpFront hpc
  | release => exact I.producer_release hpc

/-! ## Every run -/

theorem Inv.step (I : s.Inv) (x : Step n) (h : s.RoomAtLock x) : (next dmIdx dmTile s x).Inv := by
  cases x with
  | dm => exact I.dm_step
  | producer i => exact I.producer_step h
  | call i c =>
    simp only [next]
    split
    · rename_i hpc
      exact I.producer_goes (by simp [Producer.holds, hpc]) rfl
    · exact I
  | wakePoll =>
    simp only [next]
    split
    · exact I
    · exact ⟨I.count, I.fill_le, I.back, I.front, I.ring, I.wfi, I.holder, I.producers, I.dm, I.in_order⟩
  | wakeSet =>
    simp only [next]
    split
    · exact I
    · exact ⟨I.count, I.fill_le, I.back, I.front, I.ring, I.wfi, I.holder, I.producers, I.dm, I.in_order⟩
  | arrive =>
    simp only [next]
    split
    · rename_i hbarrier
      have hpc := hbarrier.1
      have hwfi := I.wfi
      simp only [DmCore.inWfi, hpc] at hwfi
      exact I.dm_goes (by simp [DmCore.popped, hpc]) rfl (by simpa [DmCore.inWfi] using hwfi) trivial
    · exact I

theorem inv_run (dmIdx : Fin 32) (dmTile : Finset (Fin n)) :
    ∀ xs, (machine n dmIdx dmTile).Meets RoomAtLock xs → ((machine n dmIdx dmTile).run xs).Inv := by
  apply Machine.invariant
  · exact inv_init n
  · intro s x I hx
    exact I.step x hx

theorem Inv.inOrder (I : s.Inv) : s.InOrder := by
  refine ⟨I.fill_le, ?_, I.in_order⟩
  have hcount := I.count
  omega

/-! ## Everything queued is started -/

/-- Steps of the DM core, of a hart that wakes it and of the rest of its tile, until the next start. -/
def dmLeft (dmIdx : Fin 32) (s : Sys n) : Nat :=
  match s.dm.pc with
  | .load k => 9 - k
  | .loadTwod => 10 | .loadBack => 11 | .checkFill => 12 | .subWfi => 13 | .held => 14 | .clr => 15
  | .wfi => if s.clint.getLsbD dmIdx then 16 else if s.waking = 0 then 18 else 17
  | .addWfi => 19 | .checkSleep => 20 | .subFill => 21 | .bumpBack => 22

/-- What is left: the starts, and the steps until the next one. -/
def left (dmIdx : Fin 32) (s : Sys n) : Nat := 22 * (s.queued.length - s.started.length) + dmLeft dmIdx s

theorem length_loads_le (w : Nat) : (loads w).length ≤ 7 := by
  unfold loads
  split <;> simp

/-- The DM core comes nearer to its next start, unless it sleeps and has not been woken, or waits at the tile
barrier. -/
theorem Inv.dm_down (I : s.Inv) (hmore : s.started.length < s.queued.length)
    (hawake : s.dm.pc = .wfi → s.clint.getLsbD dmIdx = true) (hpassed : s.dm.pc ≠ .held) :
    ((s.stepDm dmIdx).queued = s.queued ∧ (s.stepDm dmIdx).producers = s.producers) ∧
      left dmIdx (s.stepDm dmIdx) < left dmIdx s := by
  have hcount := I.count
  cases hpc : s.dm.pc with
  | checkFill =>
    have hfill : s.queueFill ≠ 0 := by omega
    simp [stepDm, hpc, hfill, gotoDm, left, dmLeft]
  | load k =>
    cases hload : (loads s.dm.task.twod)[k]? with
    | none =>
      have hat := I.dm
      simp only [DmOk, hpc] at hat
      have hle := length_loads_le (s.queue s.dm.t).twod
      have hk := hat.2.2.2.1
      simp only [stepDm, hpc, hload, gotoDm, left, dmLeft, List.length_append, List.length_singleton]
      refine ⟨⟨trivial, trivial⟩, ?_⟩
      omega
    | some f =>
      have hlt := (List.getElem?_eq_some_iff.mp hload).1
      have hle := length_loads_le s.dm.task.twod
      simp only [stepDm, hpc, hload, left, dmLeft]
      refine ⟨⟨trivial, trivial⟩, ?_⟩
      omega
  | checkSleep =>
    by_cases hfill : s.queueFill = 0
    · simp only [stepDm, hpc, hfill, gotoDm, left, dmLeft]
      simp
    · simp [stepDm, hpc, hfill, gotoDm, left, dmLeft]
  | addWfi =>
    simp only [stepDm, hpc, gotoDm, left, dmLeft]
    refine ⟨⟨trivial, trivial⟩, ?_⟩
    split
    · omega
    · split <;> omega
  | wfi => simp [stepDm, hpc, hawake hpc, gotoDm, left, dmLeft]
  | held => exact absurd hpc hpassed
  | loadBack | loadTwod | bumpBack | subFill | clr | subWfi => simp [stepDm, hpc, gotoDm, left, dmLeft]

/-- **Progress.**  While something queued has not been started, and no producer of its tile is in a call, the
DM core, a hart that wakes it or the rest of its tile brings down what is left; nothing new is queued. -/
theorem Inv.step_down (dmIdx : Fin 32) (I : s.Inv) (hout : ∀ i ∈ dmTile, (s.producers i).pc = .idle)
    (hmore : s.started ≠ s.queued) :
    ∃ x, s.RoomAtLock x ∧
      ((next dmIdx dmTile s x).queued = s.queued ∧ (next dmIdx dmTile s x).producers = s.producers) ∧
      left dmIdx (next dmIdx dmTile s x) < left dmIdx s := by
  have hlt : s.started.length < s.queued.length := by
    have hle := I.in_order.length_le
    have hne : s.started.length ≠ s.queued.length := fun heq => hmore (I.in_order.eq_of_length heq)
    omega
  by_cases hheld : s.dm.pc = .held
  · have hbarrier : s.LocalBarrier dmTile := ⟨hheld, hout⟩
    refine ⟨.arrive, trivial, ?_⟩
    simp [next, if_pos hbarrier, gotoDm, left, dmLeft, hheld]
  by_cases hasleep : s.dm.pc = .wfi ∧ s.clint.getLsbD dmIdx = false
  · obtain ⟨hpc, hbit⟩ := hasleep
    by_cases hwaking : s.waking = 0
    · have hwfi : s.dmWfi ≠ 0 := by
        rw [I.wfi]
        simp [DmCore.inWfi, hpc]
      refine ⟨.wakePoll, trivial, ?_⟩
      simp only [next, if_neg hwfi, left, dmLeft, hpc, hbit, hwaking]
      simp
    · have hset := getLsbD_snrtIntClusterSet s.clint dmIdx.isLt
      refine ⟨.wakeSet, trivial, ?_⟩
      simp only [next, if_neg hwaking, left, dmLeft, hpc, hbit, hset]
      simp
  · refine ⟨.dm, trivial, I.dm_down hlt ?_ hheld⟩
    intro hpc
    by_contra hn
    exact hasleep ⟨hpc, by simpa using hn⟩

/-- **Tasks in order.**  For every number of producers, any of them on cores of the DM core's tile, every
sequence of calls of theirs and every interleaving in which a producer that takes the mutex finds room: the
queue holds at most its capacity, tasks are started in the order they were queued, each once and with its own
arguments, and, no producer of the tile being in a call, whatever has been queued can still be started, once a
hart has called `dm_start`. -/
theorem inOrder_of_roomAtLock (n : Nat) (dmIdx : Fin 32) (dmTile : Finset (Fin n)) (xs : List (Step n))
    (h : (machine n dmIdx dmTile).Meets RoomAtLock xs) :
    ((machine n dmIdx dmTile).run xs).InOrder ∧
      ((∀ i ∈ dmTile, (((machine n dmIdx dmTile).run xs).producers i).pc = .idle) →
        ∃ ys, (machine n dmIdx dmTile).Meets RoomAtLock (xs ++ ys) ∧
          ((machine n dmIdx dmTile).run (xs ++ ys)).started = ((machine n dmIdx dmTile).run xs).queued) := by
  refine ⟨(inv_run dmIdx dmTile xs h).inOrder, fun hout => ?_⟩
  -- the continuation is without steps of the producers
  have hdown : ∀ zs, (machine n dmIdx dmTile).Meets RoomAtLock zs ∧
      ((machine n dmIdx dmTile).run zs).queued = ((machine n dmIdx dmTile).run xs).queued ∧
      ((machine n dmIdx dmTile).run zs).producers = ((machine n dmIdx dmTile).run xs).producers →
      ¬ ((machine n dmIdx dmTile).run zs).started = ((machine n dmIdx dmTile).run xs).queued →
      ∃ x, ((machine n dmIdx dmTile).Meets RoomAtLock (zs ++ [x]) ∧
        ((machine n dmIdx dmTile).run (zs ++ [x])).queued = ((machine n dmIdx dmTile).run xs).queued ∧
        ((machine n dmIdx dmTile).run (zs ++ [x])).producers = ((machine n dmIdx dmTile).run xs).producers) ∧
        left dmIdx ((machine n dmIdx dmTile).next ((machine n dmIdx dmTile).run zs) x) <
          left dmIdx ((machine n dmIdx dmTile).run zs) := by
    rintro zs ⟨hzs, hqueued, hproducers⟩ hmore
    rw [← hqueued] at hmore
    rw [← hproducers] at hout
    obtain ⟨x, hroom, ⟨hkeep, hsame⟩, hlt⟩ := Inv.step_down dmIdx (inv_run dmIdx dmTile zs hzs) hout hmore
    refine ⟨x, ⟨Machine.meets_concat.mpr ⟨hzs, hroom⟩, ?_, ?_⟩, hlt⟩
    · rw [Machine.run_concat]
      exact hkeep.trans hqueued
    · rw [Machine.run_concat]
      exact hsame.trans hproducers
  obtain ⟨ys, ⟨hys, _⟩, hgoal⟩ := Machine.exists_continuation_along
    (Q := fun s : Sys n => s.started = ((machine n dmIdx dmTile).run xs).queued) hdown xs ⟨h, rfl, rfl⟩
  exact ⟨ys, hys, hgoal⟩

/-- A whole call of `dm_memcpy_async` by one producer. -/
def wholeCall {n : Nat} (i : Fin n) (k : Nat) : List (Step n) :=
  .call i (.memcpyAsync (100 + k) (200 + k) k) :: List.replicate 11 (.producer i)

/-- Two calls, one of them from the DM core's tile; the DM core starts the first one. -/
theorem inOrder_twoCalls :
    ((machine 2 8 {1}).run (wholeCall 0 1 ++ wholeCall 1 2 ++ List.replicate 8 Step.dm)).started =
        [.startOned 201 101 1 0] ∧
      ((machine 2 8 {1}).run (wholeCall 0 1 ++ wholeCall 1 2 ++ List.replicate 8 Step.dm)).InOrder ∧
      ∃ ys, (machine 2 8 {1}).Meets RoomAtLock
          (wholeCall 0 1 ++ wholeCall 1 2 ++ List.replicate 8 Step.dm ++ ys) ∧
        ((machine 2 8 {1}).run (wholeCall 0 1 ++ wholeCall 1 2 ++ List.replicate 8 Step.dm ++ ys)).started =
          ((machine 2 8 {1}).run (wholeCall 0 1 ++ wholeCall 1 2 ++ List.replicate 8 Step.dm)).queued := by
  have hordered := inOrder_of_roomAtLock 2 8 {1}
    (wholeCall 0 1 ++ wholeCall 1 2 ++ List.replicate 8 Step.dm) (by decide +kernel)
  exact ⟨by decide +kernel, hordered.1, hordered.2 (by decide +kernel)⟩

/-- Three tasks are queued; producers `i` and `j` poll and find one entry left; then both take the mutex in
turn, and the DM core starts what it finds at the back. -/
def bothPoll {n : Nat} (i j : Fin n) : List (Step n) :=
  wholeCall i 1 ++ wholeCall i 2 ++ wholeCall i 3 ++
    [Step.call i (.memcpyAsync 104 204 4), .producer i, .call j (.memcpyAsync 105 205 5), .producer j] ++
    List.replicate 10 (Step.producer i) ++ List.replicate 10 (Step.producer j) ++ List.replicate 8 Step.dm

theorem queue_overfull :
    ((machine 2 8 ∅).run (bothPoll 0 1)).queueFill = 5 ∧
      ((machine 2 8 ∅).run (bothPoll 0 1)).queued.head? = some (.startOned 201 101 1 0) ∧
      ((machine 2 8 ∅).run (bothPoll 0 1)).started = [.startOned 205 105 5 0] ∧
      ¬ ((machine 2 8 ∅).run (bothPoll 0 1)).InOrder := by
  refine ⟨by decide +kernel, by decide +kernel, by decide +kernel, fun h => ?_⟩
  have hcap := h.within_capacity
  revert hcap
  decide +kernel

/-! ## A producer on the DM core's tile -/

/-- The DM core goes to sleep or waits at the tile barrier, the queue is full, and producer `i` of its tile
polls for room. -/
structure Stalled (dmTile : Finset (Fin n)) (i : Fin n) (s : Sys n) : Prop where
  asleep : s.dm.pc = .addWfi ∨ s.dm.pc = .wfi ∨ s.dm.pc = .clr ∨ s.dm.pc = .held
  full : dmTaskQueueSize ≤ s.queueFill
  on_tile : i ∈ dmTile
  polls : (s.producers i).pc = .poll

instance (i : Fin n) : Decidable (s.Stalled dmTile i) :=
  decidable_of_iff ((s.dm.pc = .addWfi ∨ s.dm.pc = .wfi ∨ s.dm.pc = .clr ∨ s.dm.pc = .held) ∧
      dmTaskQueueSize ≤ s.queueFill ∧ i ∈ dmTile ∧ (s.producers i).pc = .poll)
    ⟨fun ⟨ha, hf, ht, hp⟩ => ⟨ha, hf, ht, hp⟩, fun h => ⟨h.asleep, h.full, h.on_tile, h.polls⟩⟩

/-- What a step of producer `j` leaves alone. -/
theorem stepProducer_frame (s : Sys n) (j : Fin n) :
    (s.stepProducer j).dm = s.dm ∧ (s.stepProducer j).started = s.started ∧
      s.queueFill ≤ (s.stepProducer j).queueFill ∧
      ∀ i, i ≠ j → (s.stepProducer j).producers i = s.producers i := by
  cases hpc : (s.producers j).pc with
  | store k =>
    cases hstore : (s.producers j).call.stores[k]? <;>
      simp +contextual [stepProducer, hpc, hstore, setProducer, Function.update_of_ne]
  | poll | lock =>
    simp only [stepProducer, hpc]
    split <;> simp +contextual [setProducer, Function.update_of_ne]
  | idle | loadFront | bumpFront | release =>
    simp +contextual [stepProducer, hpc, setProducer, Function.update_of_ne]

/-- Nothing gets the DM core past the barrier, and nothing is started. -/
theorem Stalled.step {i : Fin n} (h : s.Stalled dmTile i) (x : Step n) :
    (next dmIdx dmTile s x).Stalled dmTile i ∧ (next dmIdx dmTile s x).started = s.started := by
  have hpolls := h.polls
  cases x with
  | dm =>
    rcases h.asleep with hpc | hpc | hpc | hpc
    · simp only [next, stepDm, hpc, gotoDm]
      exact ⟨⟨by simp, h.full, h.on_tile, hpolls⟩, trivial⟩
    · simp only [next, stepDm, hpc, gotoDm]
      split
      · exact ⟨⟨by simp, h.full, h.on_tile, hpolls⟩, rfl⟩
      · exact ⟨h, rfl⟩
    · simp only [next, stepDm, hpc, gotoDm]
      exact ⟨⟨by simp, h.full, h.on_tile, hpolls⟩, trivial⟩
    · simp only [next, stepDm, hpc]
      exact ⟨h, trivial⟩
  | producer j =>
    obtain ⟨hdm, hstarted, hfill, hothers⟩ := stepProducer_frame s j
    refine ⟨⟨by simpa only [next, hdm] using h.asleep, h.full.trans hfill, h.on_tile, ?_⟩, hstarted⟩
    by_cases hij : i = j
    · subst hij
      simp [next, stepProducer, hpolls, h.full]
    · simpa only [next, hothers i hij] using hpolls
  | call j c =>
    simp only [next]
    split
    · rename_i hidle
      have hij : i ≠ j := by
        rintro rfl
        rw [hpolls] at hidle
        exact absurd hidle (by simp)
      refine ⟨⟨h.asleep, h.full, h.on_tile, ?_⟩, rfl⟩
      simpa only [setProducer, Function.update_of_ne hij] using hpolls
    · exact ⟨h, rfl⟩
  | wakePoll =>
    simp only [next]
    split
    · exact ⟨h, rfl⟩
    · exact ⟨⟨h.asleep, h.full, h.on_tile, hpolls⟩, rfl⟩
  | wakeSet =>
    simp only [next]
    split
    · exact ⟨h, rfl⟩
    · exact ⟨⟨h.asleep, h.full, h.on_tile, hpolls⟩, rfl⟩
  | arrive =>
    have hclosed : ¬ s.LocalBarrier dmTile := by
      intro hbarrier
      have hidle := hbarrier.2 i h.on_tile
      rw [hpolls] at hidle
      exact absurd hidle (by simp)
    simp only [next, if_neg hclosed]
    exact ⟨h, trivial⟩

/-- **Stalled.**  The producer waits for the DM core to take a task out, and the DM core waits at the tile
barrier for the producer: however the run goes on, no task is started any more. -/
theorem Stalled.run {i : Fin n} {xs : List (Step n)} (h : ((machine n dmIdx dmTile).run xs).Stalled dmTile i)
    (ys : List (Step n)) :
    ((machine n dmIdx dmTile).run (xs ++ ys)).started = ((machine n dmIdx dmTile).run xs).started := by
  have hnow : ((machine n dmIdx dmTile).run xs).Stalled dmTile i ∧
      ((machine n dmIdx dmTile).run xs).started = ((machine n dmIdx dmTile).run xs).started := ⟨h, rfl⟩
  have hkept := Machine.kept_after (M := machine n dmIdx dmTile)
    (P := fun t => t.Stalled dmTile i ∧ t.started = ((machine n dmIdx dmTile).run xs).started)
    (fun t x ⟨ht, hsame⟩ => ⟨(ht.step x).1, (ht.step x).2.trans hsame⟩) hnow ys
  exact hkept.2

example : ((machine 1 8 {0}).run ([.dm, .dm] ++ wholeCall 0 1 ++ wholeCall 0 2 ++ wholeCall 0 3 ++
    wholeCall 0 4 ++ [.call 0 (.memcpyAsync 105 205 5)])).Stalled {0} 0 := by
  decide +kernel

end Sys

end Dm

end CachePool
