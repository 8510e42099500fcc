import CachePool.Lib.Machine
import CachePool.Lib.Tiling

/-!
# Dynamic scheduling of loops (`omp/kmp.c`)

The threads of a team go through the same loops.  For each loop a thread calls `__kmpc_dispatch_init_4` once
and then `__kmpc_dispatch_next_4` until it returns 0.  Either function runs under `eu_mutex` and is one step.
The flag behind `p_last` is the thread's own and 0 when it enters a loop; the functions only ever set it.

* `dispatchInit4`, `dispatchNext4` — the functions, on `omp_team_t`.
* `InTurn` — a thread enters a loop only while the whole team is at that loop, and the next start does not
  leave the range of an `int`.
* `Scheduled` — the loop the team is at, and what has been handed out of it.
* `workShared_of_inTurn` — runs in turn hand out every iteration once.
* `dispatch_late_thread` — a thread that comes after the loop is drained runs it again.
-/

set_option autoImplicit false

namespace CachePool

namespace Omp

/-- A value stored to an `int`. -/
def toInt32 (x : Int) : Int := x.bmod (2 ^ 32)

theorem toInt32_eq {x : Int} (hlo : -2 ^ 31 ≤ x) (hhi : x < 2 ^ 31) : toInt32 x = x := by
  unfold toInt32
  rw [Int.bmod_eq_of_le] <;> omega

/-- The arguments of `__kmpc_dispatch_init_4`: bounds and stride of a loop that is not empty, and a chunk of
at least one iteration. -/
structure Loop where
  lb : Int
  ub : Int
  st : Int
  chunk : Int
  lb_ge : -2 ^ 31 ≤ lb
  lb_le_ub : lb ≤ ub
  ub_lt : ub < 2 ^ 31
  chunk_pos : 1 ≤ chunk
  chunk_lt : chunk < 2 ^ 31

/-- The loop state of `omp_team_t`. -/
structure Team where
  loopStart : Int
  loopEnd : Int
  loopIncr : Int
  loopChunk : Int
  loopIsSetup : Bool
  deriving DecidableEq, Repr

/-- `__kmpc_dispatch_init_4`. -/
def dispatchInit4 (team : Team) (lp : Loop) : Team :=
  if team.loopIsSetup then team
  else
    { loopIsSetup := true, loopStart := lp.lb, loopEnd := lp.ub, loopIncr := lp.st, loopChunk := lp.chunk }

/-- `__kmpc_dispatch_next_4`: `*p_lb`, `*p_ub` and `*p_last` where it returns 1. -/
def dispatchNext4 (team : Team) (last : Bool) : Option (Int × Int × Bool) × Team :=
  if team.loopEnd < team.loopStart then (none, { team with loopIsSetup := false })
  else
    let lb := team.loopStart
    let ub := toInt32 (toInt32 (lb + team.loopChunk) - 1)
    let (ub, last) := if team.loopEnd ≤ ub then (team.loopEnd, true) else (ub, last)
    (some (lb, ub, last), { team with loopStart := toInt32 (team.loopStart + team.loopChunk) })

/-- The loop a thread is at, whether it has called `__kmpc_dispatch_init_4` for it, and its `*p_last`. -/
structure Thread where
  loop : Nat
  inLoop : Bool
  last : Bool
  deriving DecidableEq, Repr

/-- A chunk handed out: to which thread, in which of its loops, and what it got. -/
structure Chunk (n : Nat) where
  thread : Fin n
  loop : Nat
  lb : Int
  ub : Int
  last : Bool
  deriving DecidableEq, Repr

/-- The chunk has iteration `i`. -/
def Chunk.contains {n : Nat} (c : Chunk n) (i : Int) : Bool := decide (c.lb ≤ i ∧ i ≤ c.ub)

/-- The team, its threads, and the chunks handed out so far. -/
structure Sys (n : Nat) where
  team : Team
  threads : Fin n → Thread
  chunks : List (Chunk n)

namespace Sys

variable {n : Nat}

/-- `omp_init` sets `loop_is_setup` only. -/
def init (n : Nat) (team : Team) : Sys n where
  team := { team with loopIsSetup := false }
  threads := fun _ => ⟨0, false, false⟩
  chunks := []

variable (loops : List Loop) (s : Sys n)

def setThread (t : Fin n) (th : Thread) : Sys n := { s with threads := Function.update s.threads t th }

/-- One call of thread `t`; nothing once it is through with all loops. -/
def next (t : Fin n) : Sys n :=
  match loops[(s.threads t).loop]? with
  | none => s
  | some lp =>
    if (s.threads t).inLoop then
      match dispatchNext4 s.team (s.threads t).last with
      | (some (lb, ub, last), team) =>
        { s with team := team, chunks := s.chunks ++ [Chunk.mk t (s.threads t).loop lb ub last]
          }.setThread t { s.threads t with last := last }
      | (none, team) =>
        { s with team := team }.setThread t { loop := (s.threads t).loop + 1, inLoop := false, last := false }
    else
      { s with team := dispatchInit4 s.team lp }.setThread t
        { s.threads t with inLoop := true, last := false }

def machine (n : Nat) (loops : List Loop) (team : Team) : Machine (Sys n) (Fin n) := ⟨init n team, next loops⟩

/-- What has been handed out in loop `k`. -/
def chunksOf (k : Nat) : List (Chunk n) := s.chunks.filter (fun c => c.loop == k)

/-- The thread enters a loop only while the whole team is at that loop, and takes a chunk only where
`loop_start + loop_chunk` is an `int`. -/
def InTurn (t : Fin n) : Prop :=
  ((s.threads t).loop < loops.length → (s.threads t).inLoop = false →
    ∀ t', (s.threads t').loop = (s.threads t).loop) ∧
  ((s.threads t).inLoop = true → s.team.loopStart ≤ s.team.loopEnd →
    s.team.loopStart + s.team.loopChunk < 2 ^ 31)

instance (t : Fin n) : Decidable (s.InTurn loops t) := by
  unfold InTurn
  infer_instance

/-- **Every iteration once.**  What is handed out lies in its loop, no iteration is handed out twice, all of
them are once a thread is through with the loop, and the flag marks the chunk with the last one. -/
structure WorkShared : Prop where
  in_range : ∀ c ∈ s.chunks, ∃ lp, loops[c.loop]? = some lp ∧ lp.lb ≤ c.lb ∧ c.lb ≤ c.ub ∧ c.ub ≤ lp.ub
  at_most_once : ∀ k i, (s.chunksOf k).countP (·.contains i) ≤ 1
  exactly_once : ∀ k lp, loops[k]? = some lp → (∃ t, k < (s.threads t).loop) →
    ∀ i, lp.lb ≤ i → i ≤ lp.ub → (s.chunksOf k).countP (·.contains i) = 1
  last_iff : ∀ c ∈ s.chunks, ∀ lp, loops[c.loop]? = some lp → (c.last = true ↔ c.contains lp.ub = true)

/-! ## The loop the team is at -/

/-- The chunks of a loop up to before `b`, with their flags. -/
structure HandedOut (lp : Loop) (cs : List (Chunk n)) (b : Int) : Prop where
  tiles : Tiles Chunk.lb Chunk.ub lp.lb cs b
  end_le : b ≤ lp.ub + 1
  last_iff : ∀ c ∈ cs, c.last = true ↔ c.ub = lp.ub

/-- What the team has done with the loop it is at. -/
inductive Phase (c : Nat) : Prop where
  /-- nobody has entered it -/
  | idle (hsetup : s.team.loopIsSetup = false)
      (hall : ∀ t, (s.threads t).loop = c ∧ (s.threads t).inLoop = false)
      (hnone : s.chunksOf c = [])
  /-- somebody has, and nobody has been returned 0 -/
  | running (lp : Loop) (hloop : loops[c]? = some lp) (hsetup : s.team.loopIsSetup = true)
      (hend : s.team.loopEnd = lp.ub) (hchunk : s.team.loopChunk = lp.chunk)
      (hstart : lp.lb ≤ s.team.loopStart)
      (hall : ∀ t, (s.threads t).loop = c)
      (hquiet : s.team.loopStart ≤ lp.ub → ∀ t, (s.threads t).inLoop = true → (s.threads t).last = false)
      (hhanded : HandedOut lp (s.chunksOf c) (min s.team.loopStart (lp.ub + 1)))
  /-- somebody has been returned 0, and not everybody -/
  | drained (lp : Loop) (hloop : loops[c]? = some lp) (hsetup : s.team.loopIsSetup = false)
      (hend : s.team.loopEnd < s.team.loopStart) (hleft : ∃ t, (s.threads t).loop = c + 1)
      (hstays : ∃ t, (s.threads t).loop = c) (hhanded : HandedOut lp (s.chunksOf c) (lp.ub + 1))

/-- **The team is at loop `c`.** -/
structure Scheduled (c : Nat) : Prop where
  near : ∀ t, (s.threads t).loop = c ∨ ((s.threads t).loop = c + 1 ∧ (s.threads t).inLoop = false)
  behind : ∀ k < c, ∃ lp, loops[k]? = some lp ∧ HandedOut lp (s.chunksOf k) (lp.ub + 1)
  ahead : ∀ k, c < k → s.chunksOf k = []
  phase : Phase loops s c

variable {loops s}

theorem scheduled_init (loops : List Loop) (team : Team) : Scheduled loops (init n team) 0 where
  near := fun _ => Or.inl rfl
  behind := fun k hk => absurd hk (Nat.not_lt_zero k)
  ahead := fun _ _ => rfl
  phase := .idle rfl (fun _ => ⟨rfl, rfl⟩) rfl

theorem chunksOf_concat {cs : List (Chunk n)} {x : Chunk n} {s' : Sys n} (h : s'.chunks = cs ++ [x])
    (hs : s.chunks = cs) (k : Nat) :
    s'.chunksOf k = if x.loop = k then s.chunksOf k ++ [x] else s.chunksOf k := by
  unfold chunksOf
  rw [h, hs, List.filter_append]
  by_cases hk : x.loop = k
  · simp [hk]
  · simp [hk]

theorem thread_update {f : Fin n → Thread} {t : Fin n} {th : Thread} {P : Thread → Prop} (hth : P th)
    (h : ∀ t', t' ≠ t → P (f t')) (t' : Fin n) : P (Function.update f t th t') := by
  by_cases ht : t' = t
  · rw [ht, Function.update_self]
    exact hth
  · rw [Function.update_of_ne ht]
    exact h t' ht

/-- A thread that is in a loop is at the team's loop. -/
theorem Scheduled.loop_eq {c : Nat} (S : Scheduled loops s c) {t : Fin n}
    (hin : (s.threads t).inLoop = true) :
    (s.threads t).loop = c := by
  rcases S.near t with heq | ⟨_, hout⟩
  · exact heq
  · rw [hin] at hout
    cases hout

/-! ## Steps -/

/-- Thread `t` is returned 0 from the loop the team is at: the team stays there as long as somebody does. -/
theorem Scheduled.returned {c : Nat} (S : Scheduled loops s c) {t : Fin n} {lp : Loop}
    (hloop : loops[c]? = some lp) (hend : s.team.loopEnd < s.team.loopStart)
    (hhanded : HandedOut lp (s.chunksOf c) (lp.ub + 1)) {s' : Sys n}
    (hs' : s' = { s with team := { s.team with loopIsSetup := false } }.setThread t ⟨c + 1, false, false⟩) :
    ∃ c', Scheduled loops s' c' := by
  have hself : (s'.threads t).loop = c + 1 := by rw [hs']; simp [setThread]
  have hnear : ∀ t', (s'.threads t').loop = c ∨
      ((s'.threads t').loop = c + 1 ∧ (s'.threads t').inLoop = false) := by
    rw [hs']
    exact thread_update (P := fun th => th.loop = c ∨ (th.loop = c + 1 ∧ th.inLoop = false))
      (Or.inr ⟨rfl, rfl⟩) (fun t' _ => S.near t')
  have hchunks : ∀ k, s'.chunksOf k = s.chunksOf k := by
    intro k
    rw [hs']
    rfl
  by_cases hstays : ∃ t', (s'.threads t').loop = c
  · refine ⟨c, hnear, ?_, ?_, .drained lp hloop ?_ ?_ ⟨t, hself⟩ hstays ?_⟩
    · intro k hk
      rw [hchunks]
      exact S.behind k hk
    · intro k hk
      rw [hchunks]
      exact S.ahead k hk
    · rw [hs']
      rfl
    · rw [hs']
      exact hend
    · rw [hchunks]
      exact hhanded
  · -- the last thread of the team: everybody is at the next loop
    have hall : ∀ t', (s'.threads t').loop = c + 1 ∧ (s'.threads t').inLoop = false := by
      intro t'
      rcases hnear t' with heq | hnext
      · exact absurd ⟨t', heq⟩ hstays
      · exact hnext
    refine ⟨c + 1, fun t' => Or.inl (hall t').1, ?_, ?_, .idle ?_ hall ?_⟩
    · intro k hk
      rw [hchunks]
      rcases Nat.lt_succ_iff_lt_or_eq.mp hk with hlt | heq
      · exact S.behind k hlt
      · rw [heq]
        exact ⟨lp, hloop, hhanded⟩
    · intro k hk
      rw [hchunks]
      exact S.ahead k (by omega)
    · rw [hs']
      rfl
    · rw [hchunks]
      exact S.ahead (c + 1) (Nat.lt_succ_self c)

/-- Thread `t` enters the loop the whole team is at. -/
theorem Scheduled.enter {c : Nat} (S : Scheduled loops s c) {t : Fin n} {lp : Loop}
    (hloop : loops[(s.threads t).loop]? = some lp) (hall : ∀ t', (s.threads t').loop = (s.threads t).loop)
    {s' : Sys n} (hs' : s' = { s with team := dispatchInit4 s.team lp }.setThread t
      { s.threads t with inLoop := true, last := false }) : Scheduled loops s' c := by
  have hchunks : ∀ k, s'.chunksOf k = s.chunksOf k := by
    intro k
    rw [hs']
    rfl
  have hloops : ∀ t', (s'.threads t').loop = (s.threads t').loop := by
    intro t'
    rw [hs']
    by_cases ht : t' = t
    · rw [ht]
      simp [setThread]
    · simp [setThread, ht]
  have hbehind : ∀ k < c, ∃ lp, loops[k]? = some lp ∧ HandedOut lp (s'.chunksOf k) (lp.ub + 1) := by
    intro k hk
    rw [hchunks]
    exact S.behind k hk
  have hahead : ∀ k, c < k → s'.chunksOf k = [] := by
    intro k hk
    rw [hchunks]
    exact S.ahead k hk
  cases S.phase with
  | idle hsetup hidle hnone =>
    have hc := (hidle t).1
    refine ⟨fun t' => Or.inl ((hloops t').trans (hidle t').1), hbehind, hahead, ?_⟩
    have hteam : s'.team = ⟨lp.lb, lp.ub, lp.st, lp.chunk, true⟩ := by
      rw [hs']
      simp [setThread, dispatchInit4, hsetup]
    refine .running lp (by rw [← hc]; exact hloop) (by rw [hteam]) (by rw [hteam]) (by rw [hteam])
      (by rw [hteam]) (fun t' => (hloops t').trans (hidle t').1) ?_ ?_
    · intro _
      rw [hs']
      exact thread_update (P := fun th => th.inLoop = true → th.last = false) (fun _ => rfl)
        (fun t' _ hin => by rw [(hidle t').2] at hin; cases hin)
    · have hle := lp.lb_le_ub
      rw [hchunks, hnone, hteam]
      dsimp only
      rw [min_eq_left (by omega)]
      exact ⟨.nil, by omega, (fun c hc => by cases hc)⟩
  | running lp' hloop' hsetup hend hchunk hstart hat hquiet hhanded =>
    refine ⟨fun t' => Or.inl ((hloops t').trans (hat t')), hbehind, hahead, ?_⟩
    have hteam : s'.team = s.team := by
      rw [hs']
      simp [setThread, dispatchInit4, hsetup]
    refine .running lp' hloop' (by rw [hteam]; exact hsetup) (by rw [hteam]; exact hend)
      (by rw [hteam]; exact hchunk) (by rw [hteam]; exact hstart) (fun t' => (hloops t').trans (hat t')) ?_ ?_
    · intro hle
      rw [hteam] at hle
      rw [hs']
      exact thread_update (P := fun th => th.inLoop = true → th.last = false) (fun _ => rfl)
        (fun t' _ hin => hquiet hle t' hin)
    · rw [hchunks, hteam]
      exact hhanded
  | drained lp' hloop' hsetup hend hleft hstays hhanded =>
    obtain ⟨t₁, h₁⟩ := hleft
    obtain ⟨t₂, h₂⟩ := hstays
    have hsame := (hall t₁).trans (hall t₂).symm
    omega

theorem HandedOut.concat {lp : Loop} {cs : List (Chunk n)} {b : Int} (H : HandedOut lp cs b) {x : Chunk n}
    (hlb : x.lb = b) (hle : x.lb ≤ x.ub) (hub : x.ub ≤ lp.ub) (hlast : x.last = true ↔ x.ub = lp.ub) :
    HandedOut lp (cs ++ [x]) (x.ub + 1) where
  tiles := H.tiles.snoc hlb hle
  end_le := by omega
  last_iff := by
    intro c hc
    rcases List.mem_append.mp hc with hold | hnew
    · exact H.last_iff c hold
    · rw [List.mem_singleton.mp hnew]
      exact hlast

/-- A chunk from `start` to `ub` with its flag, after which the loop goes on at `next`. -/
structure Cut (lp : Loop) (start next ub : Int) (last : Bool) : Prop where
  le : start ≤ ub
  ub_le : ub ≤ lp.ub
  last_iff : last = true ↔ ub = lp.ub
  next_eq : min next (lp.ub + 1) = ub + 1
  not_last : next ≤ lp.ub → last = false

/-- The chunk that `__kmpc_dispatch_next_4` hands out of a loop that is not drained. -/
theorem dispatchNext4_chunk {team : Team} {lp : Loop} (hend : team.loopEnd = lp.ub)
    (hchunk : team.loopChunk = lp.chunk) (hstart : lp.lb ≤ team.loopStart) (hle : team.loopStart ≤ lp.ub)
    (hfit : team.loopStart + team.loopChunk < 2 ^ 31) :
    ∃ ub last, dispatchNext4 team false = (some (team.loopStart, ub, last),
        { team with loopStart := team.loopStart + team.loopChunk }) ∧
      Cut lp team.loopStart (team.loopStart + team.loopChunk) ub last := by
  have hge := lp.lb_ge
  have hlt := lp.ub_lt
  have hpos := lp.chunk_pos
  rw [hchunk] at hfit
  have hsum : toInt32 (team.loopStart + lp.chunk) = team.loopStart + lp.chunk :=
    toInt32_eq (by omega) hfit
  have hdiff : toInt32 (team.loopStart + lp.chunk - 1) = team.loopStart + lp.chunk - 1 :=
    toInt32_eq (by omega) (by omega)
  unfold dispatchNext4
  rw [if_neg (by omega), hchunk, hend]
  dsimp only
  rw [hsum, hdiff]
  by_cases hlast : lp.ub ≤ team.loopStart + lp.chunk - 1
  · refine ⟨lp.ub, true, by simp [hlast], hle, Int.le_refl _, by simp, ?_, by omega⟩
    rw [min_eq_right (by omega)]
  · refine ⟨team.loopStart + lp.chunk - 1, false, by simp [hlast], by omega, by omega, ?_, ?_, fun _ => rfl⟩
    · constructor
      · intro h
        cases h
      · intro h
        omega
    · rw [min_eq_left (by omega)]
      omega

/-- Thread `t` takes a chunk of the loop the team is at. -/
theorem Scheduled.take {c : Nat} (S : Scheduled loops s c) {t : Fin n} {lp : Loop}
    (hloop : loops[c]? = some lp) (hsetup : s.team.loopIsSetup = true) (hend : s.team.loopEnd = lp.ub)
    (hchunk : s.team.loopChunk = lp.chunk)
    (hat : ∀ t', (s.threads t').loop = c)
    (hquiet : s.team.loopStart ≤ lp.ub → ∀ t', (s.threads t').inLoop = true → (s.threads t').last = false)
    (hhanded : HandedOut lp (s.chunksOf c) (min s.team.loopStart (lp.ub + 1)))
    (hstart : lp.lb ≤ s.team.loopStart) (hle : s.team.loopStart ≤ lp.ub) {ub : Int} {last : Bool}
    (hcut : Cut lp s.team.loopStart (s.team.loopStart + s.team.loopChunk) ub last) {s' : Sys n}
    (hs' : s' = { s with team := { s.team with loopStart := s.team.loopStart + s.team.loopChunk }
                         chunks := s.chunks ++ [Chunk.mk t c s.team.loopStart ub last]
      }.setThread t { s.threads t with last := last }) : Scheduled loops s' c := by
  have hpos := lp.chunk_pos
  have hchunks := chunksOf_concat (show s'.chunks = s.chunks ++ _ by rw [hs']; rfl) rfl
  have hloops : ∀ t', (s'.threads t').loop = c := by
    rw [hs']
    exact thread_update (P := fun th => th.loop = c) (hat t) (fun t' _ => hat t')
  refine ⟨fun t' => Or.inl (hloops t'), ?_, ?_, ?_⟩
  · intro k hk
    rw [hchunks, if_neg (Nat.ne_of_gt hk)]
    exact S.behind k hk
  · intro k hk
    rw [hchunks, if_neg (Nat.ne_of_lt hk)]
    exact S.ahead k hk
  · refine .running lp hloop (by rw [hs']; exact hsetup) (by rw [hs']; exact hend) (by rw [hs']; exact hchunk)
      ?_ hloops ?_ ?_
    · rw [hs']
      show lp.lb ≤ s.team.loopStart + s.team.loopChunk
      omega
    · intro hle'
      rw [hs'] at hle' ⊢
      refine thread_update (P := fun th => th.inLoop = true → th.last = false)
        (fun _ => hcut.not_last hle') ?_
      exact fun t' _ hin => hquiet hle t' hin
    · rw [hchunks, if_pos rfl, hs']
      show HandedOut lp _ (min (s.team.loopStart + s.team.loopChunk) (lp.ub + 1))
      rw [hcut.next_eq]
      rw [min_eq_left (by omega)] at hhanded
      exact hhanded.concat (x := Chunk.mk t c s.team.loopStart ub last) rfl hcut.le hcut.ub_le
        hcut.last_iff

/-- **A step in turn.** -/
theorem scheduled_next {c : Nat} (S : Scheduled loops s c) {t : Fin n} (h : s.InTurn loops t) :
    ∃ c', Scheduled loops (s.next loops t) c' := by
  obtain ⟨henter, hfit⟩ := h
  unfold next
  split
  · exact ⟨c, S⟩
  · rename_i lp hloop
    have hlen : (s.threads t).loop < loops.length := (List.getElem?_eq_some_iff.mp hloop).1
    split
    · rename_i hin
      have hat := S.loop_eq hin
      rw [hat] at hloop
      cases S.phase with
      | idle hsetup hidle hnone =>
        rw [(hidle t).2] at hin
        cases hin
      | running lp' hloop' hsetup hend hchunk hstart hall hquiet hhanded =>
        by_cases hle : s.team.loopStart ≤ lp'.ub
        · obtain ⟨ub, last, hnext, hcut⟩ :=
            dispatchNext4_chunk hend hchunk hstart hle (hfit hin (by rw [hend]; exact hle))
          rw [hquiet hle t hin, hnext]
          refine ⟨c, S.take (t := t) hloop' hsetup hend hchunk hall hquiet hhanded hstart hle hcut ?_⟩
          rw [hat]
        · have hdrained : s.team.loopEnd < s.team.loopStart := by omega
          have hnext : dispatchNext4 s.team (s.threads t).last =
              (none, { s.team with loopIsSetup := false }) := if_pos hdrained
          rw [min_eq_right (by omega)] at hhanded
          rw [hnext]
          refine S.returned (t := t) hloop' hdrained hhanded ?_
          rw [hat]
      | drained lp' hloop' hsetup hend hleft hstays hhanded =>
        have hnext : dispatchNext4 s.team (s.threads t).last =
            (none, { s.team with loopIsSetup := false }) := if_pos hend
        rw [hnext]
        refine S.returned (t := t) hloop' hend hhanded ?_
        rw [hat]
    · rename_i hin
      exact ⟨c, S.enter hloop (henter hlen (Bool.of_not_eq_true hin)) rfl⟩

/-! ## Runs -/

theorem scheduled_run (loops : List Loop) (team : Team) (xs : List (Fin n))
    (h : (machine n loops team).Meets (InTurn loops) xs) :
    ∃ c, Scheduled loops ((machine n loops team).run xs) c := by
  refine Machine.invariant (M := machine n loops team) (P := fun s => ∃ c, Scheduled loops s c)
    ⟨0, scheduled_init loops team⟩ ?_ xs h
  rintro s t ⟨c, S⟩ ht
  exact scheduled_next S ht

theorem HandedOut.countP_eq {lp : Loop} {cs : List (Chunk n)} {b : Int} (H : HandedOut lp cs b) (i : Int) :
    cs.countP (·.contains i) = if lp.lb ≤ i ∧ i < b then 1 else 0 :=
  H.tiles.countP_eq i

/-- What has been handed out of a loop. -/
theorem Scheduled.chunksOf_cases {c : Nat} (S : Scheduled loops s c) (k : Nat) :
    s.chunksOf k = [] ∨ ∃ lp b, loops[k]? = some lp ∧ HandedOut lp (s.chunksOf k) b := by
  rcases Nat.lt_trichotomy k c with hlt | heq | hgt
  · obtain ⟨lp, hloop, hhanded⟩ := S.behind k hlt
    exact Or.inr ⟨lp, _, hloop, hhanded⟩
  · rw [heq]
    cases S.phase with
    | idle hsetup hall hnone => exact Or.inl hnone
    | running lp hloop hsetup hend hchunk hstart hall hquiet hhanded => exact Or.inr ⟨lp, _, hloop, hhanded⟩
    | drained lp hloop hsetup hend hleft hstays hhanded => exact Or.inr ⟨lp, _, hloop, hhanded⟩
  · exact Or.inl (S.ahead k hgt)

/-- A loop that a thread is through with has been handed out. -/
theorem Scheduled.handedOut_of_through {c : Nat} (S : Scheduled loops s c) {k : Nat} {lp : Loop}
    (hloop : loops[k]? = some lp) {t : Fin n} (ht : k < (s.threads t).loop) :
    HandedOut lp (s.chunksOf k) (lp.ub + 1) := by
  have hfull : ∃ lp', loops[k]? = some lp' ∧ HandedOut lp' (s.chunksOf k) (lp'.ub + 1) := by
    by_cases hlt : k < c
    · exact S.behind k hlt
    · have hnext : k = c ∧ (s.threads t).loop = c + 1 := by
        rcases S.near t with hat | ⟨hat, _⟩ <;> omega
      rw [hnext.1]
      cases S.phase with
      | idle hsetup hall hnone =>
        have hat := (hall t).1
        omega
      | running lp' hloop' hsetup hend hchunk hstart hall hquiet hhanded =>
        have hat := hall t
        omega
      | drained lp' hloop' hsetup hend hleft hstays hhanded => exact ⟨lp', hloop', hhanded⟩
  obtain ⟨lp', hloop', hhanded⟩ := hfull
  rw [hloop] at hloop'
  cases hloop'
  exact hhanded

theorem Scheduled.workShared {c : Nat} (S : Scheduled loops s c) : WorkShared loops s where
  in_range := by
    intro x hx
    have hmem : x ∈ s.chunksOf x.loop := List.mem_filter.mpr ⟨hx, by simp⟩
    rcases S.chunksOf_cases x.loop with hnil | ⟨lp, b, hloop, hhanded⟩
    · rw [hnil] at hmem
      cases hmem
    · have hbounds := hhanded.tiles.bounds hmem
      have hend := hhanded.end_le
      exact ⟨lp, hloop, by omega, by omega, by omega⟩
  at_most_once := by
    intro k i
    rcases S.chunksOf_cases k with hnil | ⟨lp, b, hloop, hhanded⟩
    · rw [hnil]
      exact Nat.zero_le 1
    · rw [hhanded.countP_eq]
      split <;> omega
  exactly_once := by
    rintro k lp hloop ⟨t, ht⟩ i hlb hub
    rw [(S.handedOut_of_through hloop ht).countP_eq, if_pos (by omega)]
  last_iff := by
    intro x hx lp hloop
    have hmem : x ∈ s.chunksOf x.loop := List.mem_filter.mpr ⟨hx, by simp⟩
    rcases S.chunksOf_cases x.loop with hnil | ⟨lp', b, hloop', hhanded⟩
    · rw [hnil] at hmem
      cases hmem
    · rw [hloop] at hloop'
      cases hloop'
      have hbounds := hhanded.tiles.bounds hmem
      have hend := hhanded.end_le
      rw [hhanded.last_iff x hmem]
      simp only [Chunk.contains, decide_eq_true_eq]
      omega

/-- **Dynamic scheduling.**  For every team, every sequence of loops that are not empty and every interleaving
in which each thread enters a loop only while the whole team is at it and no start leaves the range of an
`int`: every iteration of every loop is handed out once, nothing else is, and the flag marks the
last chunk. -/
theorem workShared_of_inTurn (n : Nat) (loops : List Loop) (team : Team) (xs : List (Fin n))
    (h : (machine n loops team).Meets (InTurn loops) xs) :
    WorkShared loops ((machine n loops team).run xs) := by
  obtain ⟨c, S⟩ := scheduled_run loops team xs h
  exact S.workShared

/-- Iterations 0 to 4 in chunks of 2, and one iteration. -/
def twoLoops : List Loop :=
  [⟨0, 4, 1, 2, by decide, by decide, by decide, by decide, by decide⟩,
   ⟨7, 7, 1, 1, by decide, by decide, by decide, by decide, by decide⟩]

/-- What `snrt_l1alloc` returned. -/
def someTeam : Team := ⟨0, 0, 0, 0, false⟩

/-- Both threads enter either loop before one of them is returned 0. -/
def together {n : Nat} (a b : Fin n) : List (Fin n) := [a, b, a, b, a, b, a, a, b, b, a, b]

theorem workShared_together : ((machine 2 twoLoops someTeam).run (together 0 1)).chunks.length = 4 ∧
    WorkShared twoLoops ((machine 2 twoLoops someTeam).run (together 0 1)) :=
  ⟨by decide, workShared_of_inTurn 2 twoLoops someTeam (together 0 1) (by decide)⟩

/-- One iteration. -/
def oneLoop : List Loop := [⟨0, 0, 1, 1, by decide, by decide, by decide, by decide, by decide⟩]

/-- The first thread enters the loop, takes its iteration and is returned 0; then the second one enters. -/
def lateThread {n : Nat} (a b : Fin n) : List (Fin n) := [a, a, a, b, b]

theorem dispatch_late_thread :
    ((machine 2 oneLoop someTeam).run (lateThread 0 1)).chunks =
      [⟨0, 0, 0, 0, true⟩, ⟨1, 0, 0, 0, true⟩] ∧
    ¬ WorkShared oneLoop ((machine 2 oneLoop someTeam).run (lateThread 0 1)) := by
  refine ⟨by decide, fun W => ?_⟩
  have honce := W.at_most_once 0 0
  revert honce
  decide

end Sys

end Omp

end CachePool
