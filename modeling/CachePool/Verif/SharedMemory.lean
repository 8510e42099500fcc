import CachePool.Lib.Machine
import CachePool.Verif.TcdmChecker

/-!
# A memory shared by all tiles, seen from the core ports of one

Every request takes effect in one step, at some point after it has been accepted and before its response; the
other tiles write when they like.  The responses of a port come in any order, each with the request id of the
request it answers.  Whether a store-conditional succeeds is left open.

* `Shared.next` — a clock edge: the ports' requests are accepted, requests take effect, responses are given.
* `Legal` — what of a clock edge such a memory can do.
* `lastWritten` — the byte the tile's own writes left, in the order they were accepted.
* `Fits` — the `n`-th response of a port, whichever request it answers, agrees with the `n`-th request.
* `fits_iff_of_inOrder` — what is left of that where the ports answer in order.
-/

set_option autoImplicit false

namespace CachePool

namespace TcdmChecker

open Amo (wordOf)

/-- A request of a port: what the tile had accepted before it, what it has found, whether it has been
answered. -/
structure Issue where
  req : TcdmReqChan
  before : List TcdmReqChan
  result : Option (BitVec 32)
  answered : Bool
  deriving DecidableEq, Repr

/-- The memory, the requests of the tile in the order they were accepted, and those of each port since the
last reset. -/
structure Shared where
  mem : Amo.Mem
  accepted : List TcdmReqChan
  issued : Nat → List Issue

/-- What happens inside the memory: request number `i` of port `k` takes effect, or another tile writes. -/
inductive Act where
  | perform (k i : Nat) (scOk : Bool)
  | other (w : BitVec 30) (v : BitVec 32)
  deriving DecidableEq, Repr

/-- The inputs of a clock edge, with the request each response answers. -/
structure Cycle where
  rstNi : Bool
  ports : Nat → Port
  acts : List Act
  answers : Nat → Nat

/-- The word a request returns that finds `old`. -/
def reply (q : TcdmReqChan) (scOk : Bool) (old : BitVec 32) : BitVec 32 :=
  if q.amo = .AMOSC then (if scOk then 0 else 1) else old

namespace Shared

def accept (port : Port) (k : Nat) (s : Shared) : Shared :=
  if port.qValid && port.qReady then
    { s with
      accepted := s.accepted ++ [port.q]
      issued := Function.update s.issued k (s.issued k ++ [⟨port.q, s.accepted, none, false⟩]) }
  else s

def acceptAll (K : Nat) (ports : Nat → Port) (s : Shared) : Shared :=
  (List.range K).foldl (fun s k => accept (ports k) k s) s

/-- Request `i` of port `k` has found `v`. -/
def found (s : Shared) (k i : Nat) (v : BitVec 32) : Nat → List Issue :=
  Function.update s.issued k ((s.issued k).modify i fun e => { e with result := some v })

def act (s : Shared) : Act → Shared
  | .perform k i scOk =>
    match (s.issued k)[i]? with
    | some e =>
      { s with
        mem := Amo.atomicStep s.mem ⟨e.req, scOk⟩
        issued := s.found k i (reply e.req scOk (s.mem (wordOf e.req.addr))) }
    | none => s
  | .other w v => { s with mem := Function.update s.mem w v }

/-- A request takes effect once; only a store-conditional can succeed as one. -/
def CanAct (s : Shared) : Act → Prop
  | .perform k i scOk =>
    ∃ e ∈ (s.issued k)[i]?, e.result = none ∧ (scOk = true → e.req.amo = .AMOSC)
  | .other _ _ => True

def CanActAll : Shared → List Act → Prop
  | _, [] => True
  | s, a :: as => s.CanAct a ∧ CanActAll (s.act a) as

/-- The state in which the responses of a clock edge are given. -/
def settled (K : Nat) (s : Shared) (x : Cycle) : Shared := x.acts.foldl act (s.acceptAll K x.ports)

def answer (x : Cycle) (K : Nat) (s : Shared) : Shared :=
  { s with
    issued := fun k =>
      if k < K then
        if (x.ports k).pValid then
          (s.issued k).modify (x.answers k) fun e => { e with answered := true }
        else s.issued k
      else s.issued k }

def next (K : Nat) (s : Shared) (x : Cycle) : Shared :=
  if !x.rstNi then { s with issued := fun _ => [] }
  else (s.settled K x).answer x K

end Shared

/-- `p` is a response to the request `e`. -/
def Answers (e : Issue) (p : TcdmRspChan) : Prop :=
  e.answered = false ∧ e.result.isSome = true ∧ p.user.reqId = e.req.user.reqId ∧ p.write = e.req.write ∧
    (e.req.write = false → e.result = some p.data)

/-- What the memory can do at a clock edge. -/
def Legal (K : Nat) (s : Shared) (x : Cycle) : Prop :=
  x.rstNi = true →
    (s.acceptAll K x.ports).CanActAll x.acts ∧
      ∀ k, k < K → (x.ports k).pValid = true →
        ∃ e ∈ ((s.settled K x).issued k)[x.answers k]?, Answers e (x.ports k).p

/-- The byte that `q` writes to byte `b` of word `w`. -/
def byteWritten (w : BitVec 30) (b : Nat) (q : TcdmReqChan) : Option (BitVec 8) :=
  if q.write = true ∧ wordOf q.addr = w ∧ q.strb.getLsbD b = true then some (byteOf q.data b) else none

/-- The byte the last write to byte `b` of word `w` has left. -/
def lastWritten (hist : List TcdmReqChan) (w : BitVec 30) (b : Nat) : Option (BitVec 8) :=
  hist.reverse.findSome? (byteWritten w b)

/-- The response to `e` would do as one to `d`: both are writes, or both are not and the word found for `e`
has, on every byte the tile had written when `d` was accepted, the byte written last. -/
def Agree (d e : Issue) : Prop :=
  d.req.write = e.req.write ∧
    (d.req.write = false → ∀ b, b < 4 → ∀ u ∈ lastWritten d.before (wordOf d.req.addr) b,
      ∀ v ∈ e.result, byteOf v b = u)

/-- As many responses as the port has given before. -/
def responded (l : List Issue) : Nat := l.countP Issue.answered

/-- **Where the checker is right.**  Each response agrees with the request that has the number of the
response. -/
def Fits (K : Nat) (s : Shared) (x : Cycle) : Prop :=
  x.rstNi = true →
    ∀ k, k < K → (x.ports k).pValid = true →
      ∀ e ∈ ((s.settled K x).issued k)[x.answers k]?,
        ∀ d ∈ ((s.settled K x).issued k)[responded ((s.settled K x).issued k)]?, Agree d e

instance : ∀ (s : Shared) (a : Act), Decidable (s.CanAct a)
  | s, .perform k i scOk =>
    inferInstanceAs (Decidable (∃ e ∈ (s.issued k)[i]?, e.result = none ∧ (scOk = true → e.req.amo = .AMOSC)))
  | _, .other _ _ => inferInstanceAs (Decidable True)

instance decidableCanActAll : ∀ (s : Shared) (as : List Act), Decidable (s.CanActAll as)
  | _, [] => inferInstanceAs (Decidable True)
  | s, a :: as =>
    have := decidableCanActAll (s.act a) as
    inferInstanceAs (Decidable (s.CanAct a ∧ (s.act a).CanActAll as))

instance (e : Issue) (p : TcdmRspChan) : Decidable (Answers e p) :=
  inferInstanceAs (Decidable (_ ∧ _ ∧ _ ∧ _ ∧ (e.req.write = false → e.result = some p.data)))

instance (K : Nat) (s : Shared) (x : Cycle) : Decidable (Legal K s x) :=
  inferInstanceAs (Decidable (x.rstNi = true → _ ∧ ∀ k, k < K → (x.ports k).pValid = true →
    ∃ e ∈ ((s.settled K x).issued k)[x.answers k]?, Answers e (x.ports k).p))

instance (d e : Issue) : Decidable (Agree d e) :=
  -- not the search through all words that instance resolution finds for the bound variables
  have (b : Nat) :
      Decidable (∀ u ∈ lastWritten d.before (wordOf d.req.addr) b, ∀ v ∈ e.result, byteOf v b = u) :=
    have (u : BitVec 8) : Decidable (∀ v ∈ e.result, byteOf v b = u) := Option.decidableForallMem e.result
    Option.decidableForallMem _
  inferInstanceAs (Decidable (_ ∧ (d.req.write = false → ∀ b, b < 4 →
    ∀ u ∈ lastWritten d.before (wordOf d.req.addr) b, ∀ v ∈ e.result, byteOf v b = u)))

instance (K : Nat) (s : Shared) (x : Cycle) : Decidable (Fits K s x) :=
  inferInstanceAs (Decidable (x.rstNi = true → ∀ k, k < K → (x.ports k).pValid = true →
    ∀ e ∈ ((s.settled K x).issued k)[x.answers k]?,
      ∀ d ∈ ((s.settled K x).issued k)[responded ((s.settled K x).issued k)]?, Agree d e))

/-! ## Ports that answer in order -/

/-- The word found for `e` has the tile's own last writes. -/
def FindsOwn (e : Issue) : Prop :=
  e.req.write = false → ∀ b, b < 4 → ∀ u ∈ lastWritten e.before (wordOf e.req.addr) b,
    ∀ v ∈ e.result, byteOf v b = u

/-- Where each response answers the request of its number, only the words found matter. -/
theorem fits_iff_of_inOrder {K : Nat} {s : Shared} {x : Cycle}
    (horder : ∀ k, k < K → (x.ports k).pValid = true →
      x.answers k = responded ((s.settled K x).issued k)) :
    Fits K s x ↔ (x.rstNi = true → ∀ k, k < K → (x.ports k).pValid = true →
      ∀ e ∈ ((s.settled K x).issued k)[x.answers k]?, FindsOwn e) := by
  unfold Fits
  apply imp_congr_right
  intro _
  apply forall_congr'
  intro k
  apply imp_congr_right
  intro hk
  apply imp_congr_right
  intro hp
  rw [horder k hk hp]
  constructor
  · intro h e he
    exact (h e he e he).2
  · intro h e he d hd
    obtain rfl : d = e := Option.some.inj ((Option.mem_def.mp hd).symm.trans (Option.mem_def.mp he))
    exact ⟨rfl, h d hd⟩

/-! ## The tile's last writes -/

theorem lastWritten_concat (hist : List TcdmReqChan) (q : TcdmReqChan) (w : BitVec 30) (b : Nat) :
    lastWritten (hist ++ [q]) w b = (byteWritten w b q).or (lastWritten hist w b) := by
  rw [lastWritten, List.reverse_concat, List.findSome?_cons]
  cases byteWritten w b q <;> rfl

/-- The shadow memory of a checker that has seen the requests `hist`. -/
def shadowOf (hist : List TcdmReqChan) : Shadow := hist.foldl shadowNext fun _ => none

@[simp] theorem shadowOf_concat (hist : List TcdmReqChan) (q : TcdmReqChan) :
    shadowOf (hist ++ [q]) = shadowNext (shadowOf hist) q := by
  simp [shadowOf]

/-- **What the shadow memory is**: the bytes the tile's last accepted writes have left. -/
theorem shadowOf_apply (hist : List TcdmReqChan) (w : BitVec 30) {b : Nat} (hb : b < 4) :
    shadowOf hist (4 * w.toNat + b) = lastWritten hist w b := by
  induction hist using List.reverseRecOn with
  | nil => rfl
  | append_singleton hist q ih =>
    rw [shadowOf_concat, lastWritten_concat, ← ih]
    unfold shadowNext byteWritten
    cases q.write with
    | false => simp
    | true =>
      rw [if_pos rfl, storeBytes_apply _ _ _ _ _ hb]
      by_cases h : wordOf q.addr = w ∧ q.strb.getLsbD b = true
      · simp [h]
      · rw [if_neg h, if_neg (fun h' => h h'.2)]
        rfl

/-! ## What the checker expects -/

/-- The checker's entry for a request. -/
def Issue.outstanding (e : Issue) : MmOutstanding := TcdmChecker.outstanding (shadowOf e.before) e.req

@[simp] theorem outstanding_isWrite (e : Issue) : e.outstanding.isWrite = e.req.write := by
  unfold Issue.outstanding outstanding
  cases e.req.write <;> rfl

/-- **What is expected of a read**: the bytes last written before it was accepted. -/
theorem expected_iff {e : Issue} (h : e.req.write = false) (v : BitVec 32) :
    (∀ b, b < 4 → e.outstanding.expectedMask.getLsbD b = true →
        byteOf v b = byteOf e.outstanding.expectedData b) ↔
      ∀ b, b < 4 → ∀ u ∈ lastWritten e.before (wordOf e.req.addr) b, byteOf v b = u := by
  have hent : e.outstanding = ⟨false, wordAlign e.req.addr,
      (snapshot (shadowOf e.before) (wordAlign e.req.addr)).1,
      (snapshot (shadowOf e.before) (wordAlign e.req.addr)).2⟩ := by
    simp [Issue.outstanding, outstanding, h]
  rw [hent]
  apply forall_congr'
  intro b
  apply imp_congr_right
  intro hb
  rw [getLsbD_snapshot _ _ hb, shadowOf_apply _ _ hb]
  cases hl : lastWritten e.before (wordOf e.req.addr) b with
  | none => simp
  | some u =>
    have hbyte := byteOf_snapshot hb (shadowOf_apply e.before (wordOf e.req.addr) hb |>.trans hl)
    simp [hbyte]

end TcdmChecker

end CachePool
