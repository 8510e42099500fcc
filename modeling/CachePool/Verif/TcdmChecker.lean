import CachePool.Lib.Lanes
import CachePool.Amo.Atomic

/-!
# The checker on a tile's core ports (`cachepool_tile_tcdm_checker`)

A passive monitor of the core-side ports of one tile.  It keeps a byte-granular shadow of the memory built
from the accepted writes, and for each port a queue of the accepted requests; a response is compared with the
request at the head of its port's queue.  The request tracer of the same module prints requests only and is
left out.

* `request`, `response`, `edge` — the two loops of a clock edge, port by port.
* `byteOf_snapshot`, `getLsbD_snapshot` — what a read is expected to return.
* `storeBytes_apply` — what a write leaves in the shadow memory.
* `edge_queue`, `edge_reports` — a clock edge in terms of each port's own queue.
-/

set_option autoImplicit false

namespace CachePool

namespace TcdmChecker

open Amo (wordOf)

/-! ## Bytes of a word -/

/-- `w[b*8 +: 8]`. -/
def byteOf (w : BitVec 32) (b : Nat) : BitVec 8 := w.extractLsb' (8 * b) 8

/-- `w[b*8 +: 8] = v`. -/
def setByte (w : BitVec 32) (b : Nat) (v : BitVec 8) : BitVec 32 :=
  (w &&& ~~~(0xFF#32 <<< (8 * b))) ||| (v.setWidth 32 <<< (8 * b))

/-- `a & 32'hFFFFFFFC`. -/
def wordAlign (a : BitVec 32) : BitVec 32 := a &&& 0xFFFFFFFC#32

theorem getLsbD_ff (j : Nat) : (0xFF#32).getLsbD j = decide (j < 8) := by
  rw [show 0xFF#32 = (BitVec.allOnes 8).setWidth 32 from rfl, BitVec.getLsbD_setWidth, BitVec.getLsbD_allOnes]
  by_cases h : j < 8
  · simp [h]; omega
  · simp [h]

theorem getLsbD_setByte {b j : Nat} (hj : j < 32) (w : BitVec 32) (v : BitVec 8) :
    (setByte w b v).getLsbD j = if j / 8 = b then v.getLsbD (j % 8) else w.getLsbD j := by
  have hdiv := Nat.div_add_mod j 8
  simp only [setByte, BitVec.getLsbD_or, BitVec.getLsbD_and, BitVec.getLsbD_not, BitVec.getLsbD_shiftLeft,
    BitVec.getLsbD_setWidth, getLsbD_ff, hj, decide_true, Bool.true_and]
  by_cases heq : j / 8 = b
  · have h1 : ¬ j < 8 * b := by omega
    have h2 : j - 8 * b = j % 8 := by omega
    have h3 : j % 8 < 8 := by omega
    have h4 : j % 8 < 32 := by omega
    simp [heq, h1, h2, h3, h4]
  · rw [if_neg heq]
    by_cases hlt : j < 8 * b
    · simp [hlt]
    · have hge : ¬ j - 8 * b < 8 := by omega
      have hv : v.getLsbD (j - 8 * b) = false := BitVec.getLsbD_of_ge v _ (by omega)
      simp [hlt, hge, hv]

theorem byteOf_setByte {b c : Nat} (hc : c < 4) (w : BitVec 32) (v : BitVec 8) :
    byteOf (setByte w b v) c = if b = c then v else byteOf w c := by
  apply BitVec.eq_of_getLsbD_eq
  intro i hi
  rw [byteOf, BitVec.getLsbD_extractLsb', getLsbD_setByte (by omega)]
  have hdiv : (8 * c + i) / 8 = c := by omega
  have hmod : (8 * c + i) % 8 = i := by omega
  rw [hdiv, hmod]
  by_cases heq : b = c
  · simp [heq, hi]
  · rw [if_neg heq, if_neg (Ne.symm heq), byteOf, BitVec.getLsbD_extractLsb']

theorem toNat_wordAlign (a : BitVec 32) : (wordAlign a).toNat = 4 * (wordOf a).toNat := by
  have h : wordAlign a = (wordOf a).setWidth 32 <<< 2 := by
    apply BitVec.eq_of_getLsbD_eq
    intro i hi
    have hmask : ∀ i, i < 32 → (0xFFFFFFFC#32).getLsbD i = decide (2 ≤ i) := by decide
    rw [wordAlign, BitVec.getLsbD_and, hmask i hi]
    simp only [wordOf, BitVec.getLsbD_shiftLeft, BitVec.getLsbD_setWidth, BitVec.getLsbD_extractLsb']
    by_cases h2 : i < 2
    · simp [h2]
    · have hsum : 2 + (i - 2) = i := by omega
      have h30 : i - 2 < 30 := by omega
      have h32 : i - 2 < 32 := by omega
      have hge : 2 ≤ i := by omega
      simp [h2, hi, hsum, h30, h32, hge]
  have hlt := (wordOf a).isLt
  rw [h, BitVec.toNat_shiftLeft, BitVec.toNat_setWidth, Nat.shiftLeft_eq]
  omega

/-! ## The checker -/

/-- `mm_outstanding_t`. -/
structure MmOutstanding where
  isWrite : Bool
  addr : BitVec 32
  expectedData : BitVec 32
  expectedMask : BitVec 4
  deriving DecidableEq, Repr

/-- The `$error` messages, with the port and the values they print. -/
inductive Report where
  | orphanRsp (port : Nat) (rspData : BitVec 32) (write : Bool)
  | typeMismatch (port : Nat) (addr : BitVec 32) (reqWasWrite rspWrite : Bool)
  | dataMismatch (port : Nat) (addr : BitVec 32) (byte : Nat) (expected got : BitVec 8)
  deriving DecidableEq, Repr

/-- The signals of one port: `tcdm_req[k]` and `tcdm_rsp[k]`. -/
structure Port where
  qValid : Bool
  q : TcdmReqChan
  qReady : Bool
  pValid : Bool
  p : TcdmRspChan
  deriving DecidableEq, Repr

abbrev Shadow := Nat → Option (BitVec 8)

/-- The checker's variables, and the errors it has reported. -/
structure State where
  mmQ : Nat → List MmOutstanding
  mmMem : Shadow
  mmWritesSeen : BitVec 64
  mmReadsSeen : BitVec 64
  mmRspsSeen : BitVec 64
  mmDataMismatch : BitVec 64
  mmOrphanRsp : BitVec 64
  mmTypeMismatch : BitVec 64
  mmBytesChecked : BitVec 64
  mmBytesUnknown : BitVec 64
  reports : List Report

def State.init : State :=
  ⟨fun _ => [], fun _ => none, 0, 0, 0, 0, 0, 0, 0, 0, []⟩

/-- The branch of `!rst_ni`: the counters and the queues are cleared, the shadow memory is not. -/
def State.reset (s : State) : State := { State.init with mmMem := s.mmMem, reports := s.reports }

/-- The loop over the bytes of a write. -/
def storeBytes (m : Shadow) (aWord : BitVec 32) (data : BitVec 32) (strb : BitVec 4) : Shadow :=
  (List.range 4).foldl (fun m b =>
    if strb.getLsbD b then Function.update m (aWord.toNat + b) (some (byteOf data b)) else m) m

/-- The loop over the bytes of a read: `expected_data` and `expected_mask`. -/
def snapshot (m : Shadow) (aWord : BitVec 32) : BitVec 32 × BitVec 4 :=
  (List.range 4).foldl (fun e b =>
    match m (aWord.toNat + b) with
    | some v => (setByte e.1 b v, e.2 ||| (1#4 <<< b))
    | none => e) (0, 0)

/-- The entry of a request that is accepted while the shadow memory is `m`. -/
def outstanding (m : Shadow) (q : TcdmReqChan) : MmOutstanding :=
  if q.write then ⟨true, wordAlign q.addr, 0, 0⟩
  else ⟨false, wordAlign q.addr, (snapshot m (wordAlign q.addr)).1, (snapshot m (wordAlign q.addr)).2⟩

/-- The shadow memory after an accepted request. -/
def shadowNext (m : Shadow) (q : TcdmReqChan) : Shadow :=
  if q.write then storeBytes m (wordAlign q.addr) q.data q.strb else m

/-- The request side of port `k`. -/
def request (port : Port) (k : Nat) (s : State) : State :=
  if port.qValid && port.qReady then
    let e := outstanding s.mmMem port.q
    let s := { s with
      mmMem := shadowNext s.mmMem port.q
      mmWritesSeen := if port.q.write then s.mmWritesSeen + 1 else s.mmWritesSeen
      mmReadsSeen := if port.q.write then s.mmReadsSeen else s.mmReadsSeen + 1 }
    { s with mmQ := Function.update s.mmQ k (s.mmQ k ++ [e]) }
  else s

/-- The pass of the loop over the bytes of a read response for byte `b`. -/
def compareByte (k : Nat) (e : MmOutstanding) (data : BitVec 32) (s : State) (b : Nat) : State :=
  if e.expectedMask.getLsbD b then
    let s := { s with mmBytesChecked := s.mmBytesChecked + 1 }
    if byteOf data b ≠ byteOf e.expectedData b then
      { s with
        mmDataMismatch := s.mmDataMismatch + 1
        reports := s.reports ++
          [.dataMismatch k e.addr b (byteOf e.expectedData b) (byteOf data b)] }
    else s
  else { s with mmBytesUnknown := s.mmBytesUnknown + 1 }

/-- The response side of port `k`. -/
def response (port : Port) (k : Nat) (s : State) : State :=
  if port.pValid then
    let s := { s with mmRspsSeen := s.mmRspsSeen + 1 }
    match s.mmQ k with
    | [] =>
      { s with
        mmOrphanRsp := s.mmOrphanRsp + 1
        reports := s.reports ++ [.orphanRsp k port.p.data port.p.write] }
    | e :: rest =>
      let s := { s with mmQ := Function.update s.mmQ k rest }
      if e.isWrite ≠ port.p.write then
        { s with
          mmTypeMismatch := s.mmTypeMismatch + 1
          reports := s.reports ++ [.typeMismatch k e.addr e.isWrite port.p.write] }
      else if !e.isWrite then (List.range 4).foldl (compareByte k e port.p.data) s
      else s
  else s

/-- The loop over the ports' requests. -/
def requests (K : Nat) (ports : Nat → Port) (s : State) : State :=
  (List.range K).foldl (fun s k => request (ports k) k s) s

/-- The loop over the ports' responses. -/
def responses (K : Nat) (ports : Nat → Port) (s : State) : State :=
  (List.range K).foldl (fun s k => response (ports k) k s) s

/-- `always @(posedge clk_i or negedge rst_ni)`, for `K` ports. -/
def edge (mmEnable : Bool) (K : Nat) (rstNi : Bool) (ports : Nat → Port) (s : State) : State :=
  if !rstNi then s.reset
  else if mmEnable then responses K ports (requests K ports s)
  else s

/-- `STATUS: PASS` of the summary. -/
def State.pass (s : State) : Prop :=
  s.mmDataMismatch = 0 ∧ s.mmTypeMismatch = 0 ∧ s.mmOrphanRsp = 0

/-! ## What the loops over the bytes do -/

theorem storeBytes_loop (m : Shadow) (a data : BitVec 32) (strb : BitVec 4) (n x : Nat) :
    (List.range n).foldl (fun m b =>
      if strb.getLsbD b then Function.update m (a.toNat + b) (some (byteOf data b)) else m) m x =
      if a.toNat ≤ x ∧ x < a.toNat + n ∧ strb.getLsbD (x - a.toNat) = true then
        some (byteOf data (x - a.toNat)) else m x := by
  induction n with
  | zero => rw [if_neg (by omega)]; rfl
  | succ n ih =>
    rw [List.range_succ, List.foldl_append, List.foldl_cons, List.foldl_nil]
    by_cases hx : x = a.toNat + n
    · have hsub : x - a.toNat = n := by omega
      cases hs : strb.getLsbD n with
      | true =>
        rw [if_pos rfl, if_pos ⟨by omega, by omega, by rw [hsub, hs]⟩, hsub, hx, Function.update_self]
      | false =>
        rw [if_neg (by simp), ih, if_neg (by omega), if_neg (by rw [hsub, hs]; simp)]
    · have hframe : ∀ m' : Shadow, (if strb.getLsbD n then
          Function.update m' (a.toNat + n) (some (byteOf data n)) else m') x = m' x := by
        intro m'
        split
        · exact Function.update_of_ne hx _ m'
        · rfl
      rw [hframe, ih]
      apply if_congr _ rfl rfl
      constructor
      · rintro ⟨hle, hlt, hs⟩
        exact ⟨hle, by omega, hs⟩
      · rintro ⟨hle, hlt, hs⟩
        exact ⟨hle, by omega, hs⟩

theorem storeBytes_apply (m : Shadow) (a data : BitVec 32) (strb : BitVec 4) (w : BitVec 30) {b : Nat}
    (hb : b < 4) :
    storeBytes m (wordAlign a) data strb (4 * w.toNat + b) =
      if wordOf a = w ∧ strb.getLsbD b = true then some (byteOf data b) else m (4 * w.toNat + b) := by
  rw [storeBytes, storeBytes_loop, toNat_wordAlign]
  by_cases hw : wordOf a = w
  · subst hw
    have hsub : 4 * (wordOf a).toNat + b - 4 * (wordOf a).toNat = b := by omega
    rw [hsub]
    apply if_congr _ rfl rfl
    constructor
    · rintro ⟨-, -, hs⟩
      exact ⟨rfl, hs⟩
    · rintro ⟨-, hs⟩
      exact ⟨by omega, by omega, hs⟩
  · have hne : (wordOf a).toNat ≠ w.toNat := fun h => hw (BitVec.eq_of_toNat_eq h)
    rw [if_neg (by omega), if_neg (fun h => hw h.1)]

theorem snapshot_loop (m : Shadow) (a : BitVec 32) {n c : Nat} (hn : n ≤ 4) (hc : c < 4) :
    let e := (List.range n).foldl (fun (e : BitVec 32 × BitVec 4) b =>
      match m (a.toNat + b) with
      | some v => (setByte e.1 b v, e.2 ||| (1#4 <<< b))
      | none => e) (0, 0)
    e.2.getLsbD c = (decide (c < n) && (m (a.toNat + c)).isSome) ∧
      ∀ v, c < n → m (a.toNat + c) = some v → byteOf e.1 c = v := by
  have hbit : ∀ b, b < 4 → ∀ c, c < 4 → (1#4 <<< b).getLsbD c = decide (b = c) := by decide
  induction n with
  | zero => simp
  | succ n ih =>
    obtain ⟨hmask, hdata⟩ := ih (by omega)
    rw [List.range_succ, List.foldl_append, List.foldl_cons, List.foldl_nil]
    cases hm : m (a.toNat + n) with
    | none =>
      refine ⟨?_, ?_⟩
      · rw [hmask]
        by_cases heq : c = n
        · simp [heq, hm]
        · have : (c < n) = (c < n + 1) := by simp; omega
          simp [this]
      · intro v hlt hv
        have hne : c ≠ n := by
          rintro rfl
          rw [hm] at hv
          cases hv
        exact hdata v (by omega) hv
    | some u =>
      refine ⟨?_, ?_⟩
      · simp only [BitVec.getLsbD_or, hmask, hbit n (by omega) c hc]
        by_cases heq : c = n
        · simp [heq, hm]
        · have hiff : (c < n) = (c < n + 1) := by simp; omega
          simp [hiff, Ne.symm heq]
      · intro v hlt hv
        simp only [byteOf_setByte hc]
        split
        · next heq =>
          subst heq
          rw [hm] at hv
          exact Option.some.inj hv
        · next hne => exact hdata v (by omega) hv

/-- A read is checked on the bytes the shadow memory has. -/
theorem getLsbD_snapshot (m : Shadow) (a : BitVec 32) {b : Nat} (hb : b < 4) :
    (snapshot m (wordAlign a)).2.getLsbD b = (m (4 * (wordOf a).toNat + b)).isSome := by
  have h := (snapshot_loop m (wordAlign a) (Nat.le_refl 4) hb).1
  rw [← toNat_wordAlign]
  rwa [decide_eq_true hb, Bool.true_and] at h

/-- It is expected to return what the shadow memory has there. -/
theorem byteOf_snapshot {m : Shadow} {a : BitVec 32} {b : Nat} (hb : b < 4) {v : BitVec 8}
    (hv : m (4 * (wordOf a).toNat + b) = some v) : byteOf (snapshot m (wordAlign a)).1 b = v := by
  rw [← toNat_wordAlign] at hv
  exact (snapshot_loop m (wordAlign a) (Nat.le_refl 4) hb).2 v hb hv

/-! ## A clock edge, port by port -/

@[simp] theorem request_reports (port : Port) (k : Nat) (s : State) :
    (request port k s).reports = s.reports := by
  unfold request
  split <;> rfl

/-- The reports of the comparison of byte `b`. -/
def byteReports (k : Nat) (e : MmOutstanding) (data : BitVec 32) (b : Nat) : List Report :=
  if e.expectedMask.getLsbD b = true ∧ byteOf data b ≠ byteOf e.expectedData b then
    [.dataMismatch k e.addr b (byteOf e.expectedData b) (byteOf data b)]
  else []

theorem compareBytes (k : Nat) (e : MmOutstanding) (data : BitVec 32) (bs : List Nat) (s : State) :
    (bs.foldl (compareByte k e data) s).mmQ = s.mmQ ∧ (bs.foldl (compareByte k e data) s).mmMem = s.mmMem ∧
      (bs.foldl (compareByte k e data) s).reports = s.reports ++ bs.flatMap (byteReports k e data) := by
  induction bs generalizing s with
  | nil => simp
  | cons b bs ih =>
    obtain ⟨hq, hm, hr⟩ := ih (compareByte k e data s b)
    rw [List.foldl_cons, hq, hm, hr, List.flatMap_cons, ← List.append_assoc]
    unfold compareByte byteReports
    by_cases hmask : e.expectedMask.getLsbD b = true
    · by_cases hne : byteOf data b = byteOf e.expectedData b
      · simp [hmask, hne]
      · simp [hmask, hne]
    · simp [hmask]

/-- The reports of a response on port `k`, whose queue is `q`. -/
def rspReports (port : Port) (k : Nat) (q : List MmOutstanding) : List Report :=
  if port.pValid then
    match q with
    | [] => [.orphanRsp k port.p.data port.p.write]
    | e :: _ =>
      if e.isWrite ≠ port.p.write then [.typeMismatch k e.addr e.isWrite port.p.write]
      else if !e.isWrite then (List.range 4).flatMap (byteReports k e port.p.data)
      else []
  else []

theorem response_spec (port : Port) (k : Nat) (s : State) :
    (response port k s).mmQ = (if port.pValid then Function.update s.mmQ k (s.mmQ k).tail else s.mmQ) ∧
      (response port k s).mmMem = s.mmMem ∧
      (response port k s).reports = s.reports ++ rspReports port k (s.mmQ k) := by
  unfold response rspReports
  cases port.pValid with
  | false => simp
  | true =>
    simp only [if_true]
    cases hq : s.mmQ k with
    | nil =>
      have hself : Function.update s.mmQ k [] = s.mmQ := by rw [← hq, Function.update_eq_self]
      simp [hself]
    | cons e rest =>
      simp only [List.tail_cons]
      by_cases hw : e.isWrite ≠ port.p.write
      · simp [hw]
      · simp only [hw, if_false]
        cases hr : e.isWrite with
        | true => simp
        | false =>
          obtain ⟨hq', hm', hr'⟩ := compareBytes k e port.p.data (List.range 4)
            { s with mmRspsSeen := s.mmRspsSeen + 1, mmQ := Function.update s.mmQ k rest }
          exact ⟨hq', hm', hr'⟩

theorem response_queue (port : Port) (k : Nat) (s : State) :
    (response port k s).mmQ k = if port.pValid then (s.mmQ k).tail else s.mmQ k := by
  rw [(response_spec port k s).1]
  split
  · rw [Function.update_self]
  · rfl

theorem response_queue_other (port : Port) {j k : Nat} (hne : j ≠ k) (s : State) :
    (response port j s).mmQ k = s.mmQ k := by
  rw [(response_spec port j s).1]
  split
  · rw [Function.update_of_ne (Ne.symm hne)]
  · rfl

theorem responses_queue (K : Nat) (ports : Nat → Port) (s : State) (k : Nat) :
    (responses K ports s).mmQ k =
      if k < K then (if (ports k).pValid then (s.mmQ k).tail else s.mmQ k) else s.mmQ k :=
  lane_foldl (L := fun s k => s.mmQ k) (g := fun k q => if (ports k).pValid then q.tail else q)
    (fun k s => response_queue (ports k) k s) (fun j _ s hne => response_queue_other (ports j) hne s) K s k

theorem responses_reports (K : Nat) (ports : Nat → Port) (s : State) :
    (responses K ports s).reports =
      s.reports ++ (List.range K).flatMap fun k => rspReports (ports k) k (s.mmQ k) :=
  log_foldl (L := fun s k => s.mmQ k) (g := fun k q => if (ports k).pValid then q.tail else q)
    (fun k s => response_queue (ports k) k s) (fun j _ s hne => response_queue_other (ports j) hne s)
    (fun k s => (response_spec (ports k) k s).2.2) K s

theorem responses_mem (K : Nat) (ports : Nat → Port) (s : State) :
    (responses K ports s).mmMem = s.mmMem := by
  unfold responses
  induction List.range K generalizing s with
  | nil => rfl
  | cons k ks ih => rw [List.foldl_cons, ih, (response_spec (ports k) k s).2.1]

/-- No error is counted that is not reported. -/
def State.Counted (s : State) : Prop := s.reports = [] → s.pass

theorem State.Counted.compareByte {s : State} (h : s.Counted) (k : Nat) (e : MmOutstanding)
    (data : BitVec 32) (b : Nat) : (compareByte k e data s b).Counted := by
  intro hnone
  unfold TcdmChecker.compareByte at hnone ⊢
  by_cases hmask : e.expectedMask.getLsbD b = true
  · by_cases hne : byteOf data b = byteOf e.expectedData b
    · simp only [hmask, hne, if_true, ne_eq, not_true_eq_false, if_false] at hnone ⊢
      exact h hnone
    · simp [hmask, hne] at hnone
  · simp only [hmask] at hnone ⊢
    exact h hnone

theorem State.Counted.request {s : State} (h : s.Counted) (port : Port) (k : Nat) :
    (request port k s).Counted := by
  intro hnone
  rw [request_reports] at hnone
  unfold TcdmChecker.request
  split <;> exact h hnone

theorem State.Counted.response {s : State} (h : s.Counted) (port : Port) (k : Nat) :
    (response port k s).Counted := by
  intro hnone
  unfold TcdmChecker.response at hnone ⊢
  cases hp : port.pValid with
  | false =>
    rw [hp] at hnone
    exact h hnone
  | true =>
    simp only [hp, if_true] at hnone ⊢
    cases hq : s.mmQ k with
    | nil => simp [hq] at hnone
    | cons e rest =>
      simp only [hq] at hnone ⊢
      by_cases hw : e.isWrite ≠ port.p.write
      · simp [hw] at hnone
      · simp only [hw, if_false] at hnone ⊢
        cases hr : e.isWrite with
        | true =>
          rw [hr] at hnone
          exact h hnone
        | false =>
          rw [hr] at hnone
          refine List.foldlRecOn (motive := State.Counted) _ _ ?_ ?_ hnone
          · exact h
          · exact fun s' h' b _ => h'.compareByte k e port.p.data b

/-- **What passes.**  Over a clock edge, errors are counted with their reports only. -/
theorem State.Counted.edge {s : State} (h : s.Counted) (mmEnable : Bool) (K : Nat) (rstNi : Bool)
    (ports : Nat → Port) : (edge mmEnable K rstNi ports s).Counted := by
  unfold TcdmChecker.edge
  cases rstNi with
  | false => exact fun _ => ⟨rfl, rfl, rfl⟩
  | true =>
    cases mmEnable with
    | false => exact h
    | true =>
      apply List.foldlRecOn (motive := State.Counted)
      · apply List.foldlRecOn (motive := State.Counted) _ _ h
        exact fun s' h' k _ => h'.request (ports k) k
      · exact fun s' h' k _ => h'.response (ports k) k

end TcdmChecker

end CachePool
