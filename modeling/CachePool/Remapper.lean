import CachePool.Lib.Machine
import CachePool.Lib.Bag

/-!
# Identifiers of merged request streams (`tcdm_id_remapper`)

`n` request ports share one memory port.  A request goes out under a free identifier of a table of `robDepth`
entries, and the table gives the port and the original identifier back for its response.  While a request
waits for the memory an identifier lock is set, under which it goes out with its original identifier instead.
One port alone is passed through.  The identifiers of `user_t` have `w` bits, the table holds them in `v` bits
(`IdWidth`).

* `Lzc` — the counter of the library that finds a free entry.
* `Unlocked` — the condition on one cycle.
* `tracked_next` — one cycle keeps the table in step with what is outstanding.
* `ids_unique_and_restored` — in every run whose cycles meet the condition, identifiers of outstanding
  requests are distinct and each response goes, once, to its port with its identifier.
-/

set_option autoImplicit false

open scoped List

namespace CachePool

namespace Remapper

/-- `lzc` of the library in its default mode: the number of zeros below the lowest one, and whether there is
none, of a vector of `width` bits. -/
structure Lzc where
  cntO : (width : Nat) → (Nat → Bool) → Nat
  emptyO : (width : Nat) → (Nat → Bool) → Bool
  emptyO_iff : ∀ {width : Nat} {inI : Nat → Bool}, emptyO width inI = true ↔ ∀ i < width, inI i = false
  cntO_spec : ∀ {width : Nat} {inI : Nat → Bool}, emptyO width inI = false →
    cntO width inI < width ∧ inI (cntO width inI) = true ∧ ∀ i < cntO width inI, inI i = false

/-- One that searches from the lowest bit on. -/
def lzc : Lzc where
  cntO width inI := ((List.range width).find? inI).getD 0
  emptyO width inI := ((List.range width).find? inI).isNone
  emptyO_iff := by simp
  cntO_spec := by
    intro width inI h
    obtain ⟨i, hi⟩ := Option.isSome_iff_exists.mp (Option.isNone_eq_false_iff.mp h)
    rw [hi, Option.getD_some]
    refine ⟨List.mem_range.mp (List.mem_of_find?_eq_some hi), List.find?_some hi, fun j hj => ?_⟩
    by_contra hne
    exact absurd (List.find?_range_eq_some.mp hi).2.2 (by grind)

/-- `RobDepth`, and the `lzc` instance. -/
structure Config where
  robDepth : Nat
  lzc : Lzc

/-- A request or response channel: `user.req_id` and the rest of the payload. -/
structure Chan (w : Nat) (γ : Type) where
  reqId : BitVec w
  payload : γ
  deriving DecidableEq, Repr

/-- The registers of `gen_remapper`, indexed below `robDepth`. -/
structure Regs (n v : Nat) where
  remappedIdQ : Nat → BitVec v
  remappedIdValidQ : Nat → Bool
  idQ : Nat → Fin n
  idLockQ : Bool

/-- The inputs of one cycle but for the memory's response: the requests of the ports, the port picked by
the arbiter (a library module: it picks a requesting port when there is one), `q_ready` of the memory and
`p_ready` of the ports. -/
structure In (n w : Nat) (α : Type) where
  slvReq : Fin n → Option (Chan w α)
  idx : Fin n
  idx_requests : (∃ p, (slvReq p).isSome) → (slvReq idx).isSome
  mstQReady : Bool
  pReady : Fin n → Bool

/-- A write to entry `i`; there is no entry from `robDepth` on. -/
def store {γ : Type} (robDepth : Nat) (f : Nat → γ) (i : Nat) (v : γ) : Nat → γ :=
  if i < robDepth then Function.update f i v else f

theorem store_self {γ : Type} {robDepth : Nat} (f : Nat → γ) {i : Nat} (h : i < robDepth) (v : γ) :
    store robDepth f i v i = v := by
  rw [store, if_pos h, Function.update_self]

theorem store_of_ne {γ : Type} (robDepth : Nat) (f : Nat → γ) {i j : Nat} (h : j ≠ i) (v : γ) :
    store robDepth f i v j = f j := by
  unfold store
  split
  · exact Function.update_of_ne h v f
  · rfl

namespace Regs

variable {n w v : Nat} {α β : Type}

def reset (n v : Nat) [NeZero n] : Regs n v := ⟨fun _ => 0, fun _ => false, fun _ => 0, false⟩

/-- `next_id`, in the width of `meta_id_t`; `none` stands for `no_free_id`. -/
def nextId (s : Regs n v) (cfg : Config) : Option (BitVec v) :=
  let inI := fun i => !s.remappedIdValidQ i
  if cfg.lzc.emptyO cfg.robDepth inI then none else some (BitVec.ofNat v (cfg.lzc.cntO cfg.robDepth inI))

/-- `mst_req_o.q`, when `q_valid`. -/
def mstReqO (s : Regs n v) (cfg : Config) (x : In n w α) : Option (Chan w α) :=
  if n = 1 then x.slvReq x.idx
  else
    match x.slvReq x.idx, s.nextId cfg with
    | some req, some i => some (if s.idLockQ then req else { req with reqId := i.setWidth w })
    | _, _ => none

/-- The port a response goes to. -/
def rspPort (s : Regs n v) (x : In n w α) (rsp : Chan w β) : Fin n :=
  if n = 1 then x.idx else s.idQ rsp.reqId.toNat

/-- What that port sees of the response. -/
def slvRspO (s : Regs n v) (rsp : Chan w β) : Chan w β :=
  if n = 1 then rsp else { rsp with reqId := (s.remappedIdQ rsp.reqId.toNat).setWidth w }

/-- The registers once the request of the cycle is entered into the table. -/
def take (s : Regs n v) (cfg : Config) (x : In n w α) : Regs n v :=
  let lockD := if (s.mstReqO cfg x).isSome && !x.mstQReady then true else s.idLockQ
  match x.slvReq x.idx, s.nextId cfg with
  | some req, some i =>
    if x.mstQReady then
      -- under the lock the request has gone out with its own identifier
      if s.idLockQ then
        ⟨store cfg.robDepth s.remappedIdQ req.reqId.toNat (req.reqId.setWidth v),
          store cfg.robDepth s.remappedIdValidQ req.reqId.toNat true,
          store cfg.robDepth s.idQ req.reqId.toNat x.idx, false⟩
      else
        ⟨store cfg.robDepth s.remappedIdQ i.toNat (req.reqId.setWidth v),
          store cfg.robDepth s.remappedIdValidQ i.toNat true, store cfg.robDepth s.idQ i.toNat x.idx, lockD⟩
    else { s with idLockQ := lockD }
  | _, _ => { s with idLockQ := lockD }

/-- The registers once the entry of the response taken by a port is freed. -/
def release (s : Regs n v) (cfg : Config) (rspTaken : Option (BitVec w)) : Regs n v :=
  match rspTaken with
  | some r => { s with remappedIdValidQ := store cfg.robDepth s.remappedIdValidQ r.toNat false }
  | none => s

def next (s : Regs n v) (cfg : Config) (x : In n w α) (rspTaken : Option (BitVec w)) : Regs n v :=
  (s.take cfg x).release cfg rspTaken

end Regs

/-! ## The module with its memory -/

/-- A request taken by the memory: its number, its port, its identifier there and the one it was sent
under. -/
structure Entry (n w : Nat) where
  num : Nat
  port : Fin n
  reqId : BitVec w
  mstId : BitVec w
  deriving DecidableEq, Repr

/-- A response taken by a port: the request it answers, the port and the identifier seen there. -/
structure Delivery (n w : Nat) where
  entry : Entry n w
  port : Fin n
  reqId : BitVec w
  deriving DecidableEq, Repr

/-- The registers and, recorded by the observer, the requests taken so far (oldest first), those not
yet answered and the responses delivered. -/
structure Sys (n w v : Nat) where
  regs : Regs n v
  taken : List (Entry n w)
  outstanding : List (Entry n w)
  delivered : List (Delivery n w)

/-- One cycle: the inputs and the memory's response, as the place of the answered request among those
outstanding (one taken in this very cycle comes last) and the rest of the payload. -/
structure SysIn (n w : Nat) (α β : Type) where
  ports : In n w α
  mstRsp : Option (Nat × β)

namespace Sys

variable {n w v : Nat} {α β : Type} (cfg : Config)

def reset (n w v : Nat) [NeZero n] : Sys n w v := ⟨Regs.reset n v, [], [], []⟩

/-- The request taken by the memory in this cycle. -/
def newEntry (s : Sys n w v) (x : In n w α) : Option (Entry n w) :=
  match s.regs.mstReqO cfg x, x.slvReq x.idx with
  | some q, some req => if x.mstQReady then some ⟨s.taken.length, x.idx, req.reqId, q.reqId⟩ else none
  | _, _ => none

/-- The requests the memory can answer in this cycle. -/
def pool (s : Sys n w v) (x : In n w α) : List (Entry n w) := s.outstanding ++ (s.newEntry cfg x).toList

/-- The answered request, the others and the response. -/
def presented (s : Sys n w v) (x : SysIn n w α β) : Option (Entry n w × List (Entry n w) × Chan w β) :=
  x.mstRsp.bind fun (i, b) =>
    (Bag.draw (s.pool cfg x.ports) i).map fun (e, rest) => (e, rest, ⟨e.mstId, b⟩)

/-- The response a port takes in this cycle, and what then stays outstanding. -/
def deliver (s : Sys n w v) (x : SysIn n w α β) : Option (Delivery n w × List (Entry n w)) :=
  (s.presented cfg x).bind fun (e, rest, rsp) =>
    let port := s.regs.rspPort x.ports rsp
    if x.ports.pReady port then some (⟨e, port, (s.regs.slvRspO rsp).reqId⟩, rest) else none

/-- What is outstanding after the cycle. -/
def left (s : Sys n w v) (x : SysIn n w α β) : List (Entry n w) :=
  match s.deliver cfg x with
  | some (_, rest) => rest
  | none => s.pool cfg x.ports

def next (s : Sys n w v) (x : SysIn n w α β) : Sys n w v where
  regs := s.regs.next cfg x.ports ((s.deliver cfg x).map (·.1.entry.mstId))
  taken := s.taken ++ (s.newEntry cfg x.ports).toList
  outstanding := s.left cfg x
  delivered := s.delivered ++ ((s.deliver cfg x).map (·.1)).toList

def machine (n w v : Nat) [NeZero n] (α β : Type) : Machine (Sys n w v) (SysIn n w α β) where
  init := reset n w v
  next := next cfg

variable {cfg}

/-! ## The condition -/

/-- One port: it reuses no identifier of a request that stays outstanding.  Several ports: the identifiers of
the table have `v` bits and `w` bits, that of a request has `v`; a request taken under the lock has an
identifier that is free in the table; and no request is answered in the cycle it is taken in. -/
def Unlocked (cfg : Config) (s : Sys n w v) (x : SysIn n w α β) : Prop :=
  ∀ e, s.newEntry cfg x.ports = some e →
    if n = 1 then ∀ o ∈ s.left cfg x, o.mstId = e.reqId → o = e
    else
      (cfg.robDepth ≤ 2 ^ v ∧ cfg.robDepth ≤ 2 ^ w ∧ e.reqId.toNat < 2 ^ v) ∧
      (s.regs.idLockQ = true →
        e.reqId.toNat < cfg.robDepth ∧ s.regs.remappedIdValidQ e.reqId.toNat = false) ∧
      ∀ d ∈ (s.deliver cfg x).map (·.1), d.entry ≠ e

instance (cfg : Config) (s : Sys n w v) (x : SysIn n w α β) : Decidable (s.Unlocked cfg x) := by
  unfold Unlocked
  exact Option.decidableForallMem (s.newEntry cfg x.ports)

/-! ## The invariant -/

/-- What the table holds of an outstanding request. -/
structure Held (cfg : Config) (r : Regs n v) (e : Entry n w) : Prop where
  lt : e.mstId.toNat < cfg.robDepth
  valid : r.remappedIdValidQ e.mstId.toNat = true
  reqId : (r.remappedIdQ e.mstId.toNat).setWidth w = e.reqId
  port : r.idQ e.mstId.toNat = e.port

/-- Identifiers of outstanding requests are distinct, the table (with one port: the request itself) gives
back port and identifier, every request taken is outstanding or delivered, and deliveries are right. -/
structure Tracked (cfg : Config) (s : Sys n w v) : Prop where
  distinct : (s.outstanding.map (·.mstId)).Nodup
  single : n = 1 → ∀ e ∈ s.outstanding, e.mstId = e.reqId
  held : n ≠ 1 → ∀ e ∈ s.outstanding, Held cfg s.regs e
  conserved : s.taken.Perm (s.outstanding ++ s.delivered.map (·.entry))
  numbered : s.taken.map (·.num) = List.range s.taken.length
  restored : ∀ d ∈ s.delivered, d.port = d.entry.port ∧ d.reqId = d.entry.reqId

theorem tracked_reset [NeZero n] : Tracked cfg (reset n w v) where
  distinct := List.nodup_nil
  single := by
    intro _ e he
    cases he
  held := by
    intro _ e he
    cases he
  conserved := List.Perm.refl _
  numbered := rfl
  restored := by
    intro d hd
    cases hd

/-! ## What one cycle does -/

/-- A request taken in the cycle. -/
theorem newEntry_cases {s : Sys n w v} {x : In n w α} {e : Entry n w} (h : s.newEntry cfg x = some e) :
    ∃ req, x.slvReq x.idx = some req ∧ x.mstQReady = true ∧ e.num = s.taken.length ∧ e.port = x.idx ∧
      e.reqId = req.reqId ∧ (n = 1 → e.mstId = e.reqId) ∧
      (n ≠ 1 → ∃ i, s.regs.nextId cfg = some i ∧
        e.mstId = if s.regs.idLockQ then e.reqId else i.setWidth w) := by
  unfold newEntry at h
  split at h
  · rename_i q req hq hreq
    split at h
    · rename_i hready
      cases h
      refine ⟨req, hreq, hready, rfl, rfl, rfl, ?_, ?_⟩
      · intro h1
        rw [Regs.mstReqO, if_pos h1, hreq] at hq
        cases hq
        rfl
      · intro h1
        rw [Regs.mstReqO, if_neg h1, hreq] at hq
        cases hn : s.regs.nextId cfg with
        | none => rw [hn] at hq; cases hq
        | some i =>
          rw [hn] at hq
          refine ⟨i, rfl, ?_⟩
          cases hl : s.regs.idLockQ with
          | true => rw [hl] at hq; cases hq; rfl
          | false => rw [hl] at hq; cases hq; rfl
    · cases h
  · cases h

/-- An entry that fits the identifiers of the table is free. -/
theorem nextId_free {r : Regs n v} {i : BitVec v} (h : r.nextId cfg = some i) (hv : cfg.robDepth ≤ 2 ^ v) :
    i.toNat < cfg.robDepth ∧ r.remappedIdValidQ i.toNat = false := by
  unfold Regs.nextId at h
  simp only at h
  split at h
  · cases h
  · rename_i hsome
    obtain ⟨hlt, hfree, -⟩ := cfg.lzc.cntO_spec (Bool.not_eq_true _ ▸ hsome)
    obtain rfl := Option.some.inj h
    rw [BitVec.toNat_ofNat, Nat.mod_eq_of_lt (hlt.trans_le hv)]
    exact ⟨hlt, by simpa using hfree⟩

theorem toNat_setWidth_of_lt {i : BitVec v} (h : i.toNat < 2 ^ w) : (i.setWidth w).toNat = i.toNat := by
  rw [BitVec.toNat_setWidth, Nat.mod_eq_of_lt h]

/-- Under the condition a request goes out under an identifier that is free in the table. -/
theorem Unlocked.free {s : Sys n w v} {x : SysIn n w α β} (hC : s.Unlocked cfg x) (hn : n ≠ 1)
    {e : Entry n w} (he : s.newEntry cfg x.ports = some e) :
    e.mstId.toNat < cfg.robDepth ∧ s.regs.remappedIdValidQ e.mstId.toNat = false := by
  have hlock := hC e he
  rw [if_neg hn] at hlock
  obtain ⟨⟨hv, hw, -⟩, hlocked, -⟩ := hlock
  obtain ⟨_, _, _, _, _, _, _, hid⟩ := newEntry_cases he
  obtain ⟨i, hi, hmst⟩ := hid hn
  split at hmst
  · rename_i hl
    rw [hmst]
    exact hlocked hl
  · have hfree := nextId_free hi hv
    rw [hmst, toNat_setWidth_of_lt (hfree.1.trans_le hw)]
    exact hfree

/-- The answered request is drawn from those outstanding or taken in the cycle. -/
theorem pool_perm (cfg : Config) (s : Sys n w v) (x : SysIn n w α β) :
    (s.pool cfg x.ports).Perm
      (((s.deliver cfg x).map (·.1.entry)).toList ++ s.left cfg x) := by
  unfold left
  cases hd : s.deliver cfg x with
  | none => exact List.Perm.refl _
  | some d =>
    obtain ⟨d, rest⟩ := d
    unfold deliver at hd
    obtain ⟨⟨e, rest', rsp⟩, hp, hd⟩ := Option.bind_eq_some_iff.mp hd
    obtain ⟨⟨i, b⟩, _, hp⟩ := Option.bind_eq_some_iff.mp hp
    obtain ⟨⟨e', rest''⟩, hdraw, hp⟩ := Option.map_eq_some_iff.mp hp
    cases hp
    dsimp only at hd
    split at hd
    · cases hd
      exact Bag.perm_of_draw hdraw
    · cases hd

/-- A request taken enters the table under the identifier it was sent with. -/
theorem take_of_newEntry {s : Sys n w v} {x : SysIn n w α β} (hC : s.Unlocked cfg x) (hn : n ≠ 1)
    {e : Entry n w} (he : s.newEntry cfg x.ports = some e) :
    (s.regs.take cfg x.ports).remappedIdQ =
        store cfg.robDepth s.regs.remappedIdQ e.mstId.toNat (e.reqId.setWidth v) ∧
      (s.regs.take cfg x.ports).remappedIdValidQ =
        store cfg.robDepth s.regs.remappedIdValidQ e.mstId.toNat true ∧
      (s.regs.take cfg x.ports).idQ = store cfg.robDepth s.regs.idQ e.mstId.toNat e.port := by
  have hwidths := hC e he
  rw [if_neg hn] at hwidths
  obtain ⟨⟨hv, hw, -⟩, -, -⟩ := hwidths
  obtain ⟨req, hreq, hready, _, hport, hid, _, hmst⟩ := newEntry_cases he
  obtain ⟨i, hi, hmst⟩ := hmst hn
  rw [Regs.take]
  simp only [hreq, hi, hready, if_true]
  cases hl : s.regs.idLockQ with
  | true =>
    rw [hl, if_pos rfl, hid] at hmst
    rw [hmst, hid, hport, if_pos rfl]
    exact ⟨rfl, rfl, rfl⟩
  | false =>
    have hnat := toNat_setWidth_of_lt (w := w) ((nextId_free hi hv).1.trans_le hw)
    rw [hl, if_neg Bool.false_ne_true] at hmst
    rw [hmst, hnat, hid, hport, if_neg Bool.false_ne_true]
    exact ⟨rfl, rfl, rfl⟩

/-- Without a request taken the table stays. -/
theorem take_of_no_newEntry {s : Sys n w v} {x : In n w α} (hn : n ≠ 1)
    (he : s.newEntry cfg x = none) :
    (s.regs.take cfg x).remappedIdQ = s.regs.remappedIdQ ∧
      (s.regs.take cfg x).remappedIdValidQ = s.regs.remappedIdValidQ ∧
      (s.regs.take cfg x).idQ = s.regs.idQ := by
  rw [Regs.take]
  cases hreq : x.slvReq x.idx with
  | none => exact ⟨rfl, rfl, rfl⟩
  | some req =>
    cases hi : s.regs.nextId cfg with
    | none => exact ⟨rfl, rfl, rfl⟩
    | some i =>
      have hready : x.mstQReady = false := by
        rw [newEntry, Regs.mstReqO, if_neg hn, hreq, hi] at he
        simpa using he
      simp only [hready, Bool.false_eq_true, if_false, and_self]

/-- Entries survive the release of another one. -/
theorem Held.release {r : Regs n v} {e : Entry n w} (h : Held cfg r e) {t : Option (BitVec w)}
    (ht : t ≠ some e.mstId) : Held cfg (r.release cfg t) e := by
  cases t with
  | none => exact h
  | some j =>
    have hj : e.mstId.toNat ≠ j.toNat := fun heq => ht (by rw [BitVec.eq_of_toNat_eq heq])
    refine ⟨h.lt, ?_, h.reqId, h.port⟩
    exact (store_of_ne cfg.robDepth _ hj false).trans h.valid

/-- The entry of the request taken. -/
theorem held_newEntry {s : Sys n w v} {x : SysIn n w α β} (hC : s.Unlocked cfg x) (hn : n ≠ 1) {e : Entry n w}
    (he : s.newEntry cfg x.ports = some e) : Held cfg (s.regs.take cfg x.ports) e := by
  obtain ⟨h1, h2, h3⟩ := take_of_newEntry hC hn he
  have hlt := (hC.free hn he).1
  have hwidths := hC e he
  rw [if_neg hn] at hwidths
  refine ⟨hlt, ?_, ?_, ?_⟩
  · rw [h2, store_self _ hlt]
  · rw [h1, store_self _ hlt]
    apply BitVec.eq_of_toNat_eq
    rw [BitVec.toNat_setWidth, toNat_setWidth_of_lt hwidths.1.2.2, Nat.mod_eq_of_lt e.reqId.isLt]
  · rw [h3, store_self _ hlt]

/-- Entries survive the request taken under another identifier. -/
theorem Held.take {s : Sys n w v} {x : SysIn n w α β} (hC : s.Unlocked cfg x) (hn : n ≠ 1) {e : Entry n w}
    (h : Held cfg s.regs e) (hne : ∀ e', s.newEntry cfg x.ports = some e' → e.mstId ≠ e'.mstId) :
    Held cfg (s.regs.take cfg x.ports) e := by
  cases he : s.newEntry cfg x.ports with
  | none =>
    obtain ⟨h1, h2, h3⟩ := take_of_no_newEntry hn he
    refine ⟨h.lt, ?_, ?_, ?_⟩
    · rw [h2, h.valid]
    · rw [h1, h.reqId]
    · rw [h3, h.port]
  | some e' =>
    obtain ⟨h1, h2, h3⟩ := take_of_newEntry hC hn he
    have hid : e.mstId.toNat ≠ e'.mstId.toNat := fun heq => hne e' he (BitVec.eq_of_toNat_eq heq)
    refine ⟨h.lt, ?_, ?_, ?_⟩
    · rw [h2, store_of_ne _ _ hid, h.valid]
    · rw [h1, store_of_ne _ _ hid, h.reqId]
    · rw [h3, store_of_ne _ _ hid, h.port]

/-- With several ports, what the memory can answer has distinct identifiers. -/
theorem Tracked.pool_distinct {s : Sys n w v} (hT : Tracked cfg s) {x : SysIn n w α β}
    (hC : s.Unlocked cfg x) (hn : n ≠ 1) :
    ((s.pool cfg x.ports).map (·.mstId)).Nodup := by
  unfold pool
  cases he : s.newEntry cfg x.ports with
  | none =>
    rw [Option.toList_none, List.append_nil]
    exact hT.distinct
  | some e =>
    have hfree := hC.free hn he
    rw [Option.toList_some, List.map_append]
    apply List.Nodup.append hT.distinct (List.nodup_singleton _)
    intro i hi hie
    obtain ⟨o, ho, rfl⟩ := List.mem_map.mp hi
    have heq : o.mstId = e.mstId := by simpa using hie
    have hvalid := (hT.held hn o ho).valid
    rw [heq, hfree.2] at hvalid
    cases hvalid

/-- What can be answered was outstanding or is taken in the cycle. -/
theorem mem_pool {s : Sys n w v} {x : In n w α} {e : Entry n w} (h : e ∈ s.pool cfg x) :
    e ∈ s.outstanding ∨ s.newEntry cfg x = some e := by
  rcases List.mem_append.mp h with h | h
  · exact Or.inl h
  · exact Or.inr (Option.mem_toList.mp h)

theorem mem_pool_of_left {s : Sys n w v} {x : SysIn n w α β} {e : Entry n w} (h : e ∈ s.left cfg x) :
    e ∈ s.pool cfg x.ports :=
  (s.pool_perm cfg x).mem_iff.mpr (List.mem_append_right _ h)

/-- With several ports, an entry left outstanding is not the one released. -/
theorem Tracked.not_released {s : Sys n w v} (hT : Tracked cfg s) {x : SysIn n w α β}
    (hC : s.Unlocked cfg x) (hn : n ≠ 1) {e : Entry n w} (he : e ∈ s.left cfg x) :
    (s.deliver cfg x).map (·.1.entry.mstId) ≠ some e.mstId := by
  intro h
  obtain ⟨d, hd, hid⟩ := Option.map_eq_some_iff.mp h
  have hnd := hT.pool_distinct hC hn
  have hperm := s.pool_perm cfg x
  rw [hd, Option.map_some, Option.toList_some] at hperm
  rw [(hperm.map (·.mstId)).nodup_iff] at hnd
  have hnotin : d.1.entry.mstId ∉ (s.left cfg x).map (·.mstId) := (List.nodup_cons.mp hnd).1
  apply hnotin
  rw [hid]
  exact List.mem_map_of_mem he

theorem Tracked.next_held {s : Sys n w v} (hT : Tracked cfg s) {x : SysIn n w α β}
    (hC : s.Unlocked cfg x) (hn : n ≠ 1) :
    ∀ e ∈ s.left cfg x, Held cfg (s.next cfg x).regs e := by
  intro e he
  have hrel := hT.not_released hC hn he
  rcases mem_pool (mem_pool_of_left he) with ho | hnew
  · have hheld := hT.held hn e ho
    refine (hheld.take hC hn ?_).release hrel
    intro e' he' heq
    have hfree := (hC.free hn he').2
    rw [← heq, hheld.valid] at hfree
    cases hfree
  · exact (held_newEntry hC hn hnew).release hrel

theorem Tracked.taken_nodup {s : Sys n w v} (hT : Tracked cfg s) : s.taken.Nodup := by
  apply List.Nodup.of_map (·.num)
  rw [hT.numbered]
  exact List.nodup_range

theorem Tracked.num_lt {s : Sys n w v} (hT : Tracked cfg s) {e : Entry n w} (he : e ∈ s.taken) :
    e.num < s.taken.length := by
  have hmem := List.mem_map_of_mem (f := fun e : Entry n w => e.num) he
  rw [hT.numbered] at hmem
  exact List.mem_range.mp hmem

theorem Tracked.pool_nodup {s : Sys n w v} (hT : Tracked cfg s) (x : In n w α) :
    (s.pool cfg x).Nodup := by
  have hout : s.outstanding.Nodup := (hT.conserved.nodup_iff.mp hT.taken_nodup).of_append_left
  unfold pool
  cases he : s.newEntry cfg x with
  | none =>
    rw [Option.toList_none, List.append_nil]
    exact hout
  | some e =>
    rw [Option.toList_some]
    apply List.Nodup.append hout (List.nodup_singleton _)
    intro o ho hoe
    obtain ⟨_, _, _, hnum, _⟩ := newEntry_cases he
    have hlt := hT.num_lt (hT.conserved.mem_iff.mpr (List.mem_append_left _ ho))
    rw [List.mem_singleton.mp hoe] at hlt
    omega

/-- With one port, requests left outstanding under one identifier are one request. -/
theorem Tracked.eq_of_mstId {s : Sys n w v} (hT : Tracked cfg s) {x : SysIn n w α β}
    (hC : s.Unlocked cfg x) (hn : n = 1) {a b : Entry n w} (ha : a ∈ s.left cfg x)
    (hb : b ∈ s.left cfg x) (hab : a.mstId = b.mstId) : a = b := by
  have hnew : ∀ e o : Entry n w, s.newEntry cfg x.ports = some e → o ∈ s.left cfg x →
      o.mstId = e.mstId → o = e := by
    intro e o he ho heq
    have h := hC e he
    rw [if_pos hn] at h
    obtain ⟨_, _, _, _, _, _, hid, _⟩ := newEntry_cases he
    exact h o ho (heq.trans (hid hn))
  rcases mem_pool (mem_pool_of_left ha) with hoa | hea
  · rcases mem_pool (mem_pool_of_left hb) with hob | heb
    · exact List.inj_on_of_nodup_map hT.distinct hoa hob hab
    · exact hnew b a heb ha hab
  · exact (hnew a b hea hb hab.symm).symm

/-- Identifiers stay distinct. -/
theorem Tracked.next_distinct {s : Sys n w v} (hT : Tracked cfg s) {x : SysIn n w α β}
    (hC : s.Unlocked cfg x) : ((s.left cfg x).map (·.mstId)).Nodup := by
  have hperm := s.pool_perm cfg x
  by_cases hn : n = 1
  · have hnd := hT.pool_nodup x.ports
    rw [hperm.nodup_iff] at hnd
    apply List.Nodup.map_on _ hnd.of_append_right
    intro a ha b hb hab
    exact hT.eq_of_mstId hC hn ha hb hab
  · have hnd := hT.pool_distinct hC hn
    rw [(hperm.map (·.mstId)).nodup_iff, List.map_append] at hnd
    exact hnd.of_append_right

theorem Tracked.next_single {s : Sys n w v} (hT : Tracked cfg s) {x : SysIn n w α β} (hn : n = 1) :
    ∀ e ∈ s.left cfg x, e.mstId = e.reqId := by
  intro e he
  rcases mem_pool (mem_pool_of_left he) with ho | hnew
  · exact hT.single hn e ho
  · obtain ⟨_, _, _, _, _, _, hid, _⟩ := newEntry_cases hnew
    exact hid hn

theorem Tracked.next_conserved {s : Sys n w v} (hT : Tracked cfg s) (x : SysIn n w α β) :
    (s.next cfg x).taken.Perm
      ((s.next cfg x).outstanding ++ (s.next cfg x).delivered.map (·.entry)) := by
  have hpool := s.pool_perm cfg x
  have hentry : ((s.deliver cfg x).map (·.1)).toList.map (·.entry) =
      ((s.deliver cfg x).map (·.1.entry)).toList := by
    cases s.deliver cfg x <;> rfl
  simp only [next, List.map_append, hentry]
  calc s.taken ++ (s.newEntry cfg x.ports).toList
    _ ~ (s.outstanding ++ s.delivered.map (·.entry)) ++ (s.newEntry cfg x.ports).toList :=
        hT.conserved.append_right _
    _ ~ s.pool cfg x.ports ++ s.delivered.map (·.entry) := by
        rw [pool, List.append_assoc, List.append_assoc]
        exact List.perm_append_comm.append_left _
    _ ~ (((s.deliver cfg x).map (·.1.entry)).toList ++ s.left cfg x) ++
          s.delivered.map (·.entry) := hpool.append_right _
    _ ~ s.left cfg x ++ (s.delivered.map (·.entry) ++
          ((s.deliver cfg x).map (·.1.entry)).toList) := by
        rw [List.append_assoc]
        refine List.perm_append_comm.trans ?_
        rw [List.append_assoc]

theorem Tracked.next_numbered {s : Sys n w v} (hT : Tracked cfg s) (x : SysIn n w α β) :
    (s.next cfg x).taken.map (·.num) = List.range (s.next cfg x).taken.length := by
  cases he : s.newEntry cfg x.ports with
  | none => simpa [next, he] using hT.numbered
  | some e =>
    obtain ⟨_, _, _, hnum, _⟩ := newEntry_cases he
    simp only [next, he, Option.toList_some, List.map_append, List.length_append,
      List.length_singleton, List.range_succ, hT.numbered, List.map_cons, List.map_nil, hnum]

/-- What is taken by a port in this cycle: a response to a request of the pool, at the port and under the
identifier that the table gives. -/
theorem deliver_cases {s : Sys n w v} {x : SysIn n w α β} {d : Delivery n w} {rest : List (Entry n w)}
    (h : s.deliver cfg x = some (d, rest)) :
    ∃ b : β, d.entry ∈ s.pool cfg x.ports ∧
      d.port = s.regs.rspPort x.ports ⟨d.entry.mstId, b⟩ ∧
      d.reqId = (s.regs.slvRspO ⟨d.entry.mstId, b⟩).reqId := by
  unfold deliver at h
  obtain ⟨⟨e, rest', rsp⟩, hp, h⟩ := Option.bind_eq_some_iff.mp h
  obtain ⟨⟨i, b⟩, _, hp⟩ := Option.bind_eq_some_iff.mp hp
  obtain ⟨⟨e', rest''⟩, hdraw, hp⟩ := Option.map_eq_some_iff.mp hp
  cases hp
  dsimp only at h
  split at h
  · cases h
    have hmem := (Bag.perm_of_draw hdraw).mem_iff.mpr (List.mem_cons_self (a := e))
    exact ⟨b, hmem, rfl, rfl⟩
  · cases h

theorem Tracked.next_restored {s : Sys n w v} (hT : Tracked cfg s) {x : SysIn n w α β}
    (hC : s.Unlocked cfg x) :
    ∀ d ∈ (s.next cfg x).delivered, d.port = d.entry.port ∧ d.reqId = d.entry.reqId := by
  intro d hd
  rcases List.mem_append.mp hd with hd | hd
  · exact hT.restored d hd
  · obtain ⟨⟨d', rest⟩, hdel, rfl⟩ := Option.map_eq_some_iff.mp (Option.mem_toList.mp hd)
    obtain ⟨b, hmem, hport, hid⟩ := deliver_cases hdel
    rw [hport, hid]
    by_cases hn : n = 1
    · -- one port: nothing was exchanged
      rw [Regs.rspPort, Regs.slvRspO, if_pos hn, if_pos hn]
      refine ⟨?_, ?_⟩
      · subst hn
        exact Subsingleton.elim _ _
      · rcases mem_pool hmem with ho | hnew
        · exact hT.single hn _ ho
        · obtain ⟨_, _, _, _, _, _, hid, _⟩ := newEntry_cases hnew
          exact hid hn
    · rw [Regs.rspPort, Regs.slvRspO, if_neg hn, if_neg hn]
      rcases mem_pool hmem with ho | hnew
      · have hheld := hT.held hn _ ho
        exact ⟨hheld.port, hheld.reqId⟩
      · have h := hC _ hnew
        rw [if_neg hn] at h
        exact absurd rfl (h.2.2 d' (by rw [hdel]; rfl))

/-- **One cycle keeps the table in step with what is outstanding.** -/
theorem tracked_next {s : Sys n w v} (hT : Tracked cfg s) {x : SysIn n w α β}
    (hC : s.Unlocked cfg x) : Tracked cfg (s.next cfg x) where
  distinct := hT.next_distinct hC
  single := fun hn => hT.next_single hn
  held := fun hn => hT.next_held hC hn
  conserved := hT.next_conserved x
  numbered := hT.next_numbered x
  restored := hT.next_restored hC

theorem tracked_run [NeZero n] (xs : List (SysIn n w α β))
    (h : (machine cfg n w v α β).Meets (Unlocked cfg) xs) :
    Tracked cfg ((machine cfg n w v α β).run xs) :=
  Machine.invariant (C := Unlocked cfg) tracked_reset (fun _ _ hT hC => tracked_next hT hC) xs h

/-! ## Every response arrives -/

/-- No requests, all ports ready, and the memory answers the oldest request. -/
def drainIn (n w : Nat) [NeZero n] (α : Type) {β : Type} (b : β) : SysIn n w α β where
  ports :=
    { slvReq := fun _ => none, idx := 0, idx_requests := by simp, mstQReady := true,
      pReady := fun _ => true }
  mstRsp := some (0, b)

theorem newEntry_drain [NeZero n] (s : Sys n w v) (b : β) :
    s.newEntry cfg (drainIn n w α b).ports = none := by
  rw [newEntry]
  split
  · rename_i hreq
    cases hreq
  · rfl

theorem unlocked_drain [NeZero n] (s : Sys n w v) (b : β) :
    s.Unlocked cfg (drainIn n w α b) := by
  intro e he
  rw [newEntry_drain] at he
  cases he

theorem outstanding_drain [NeZero n] (s : Sys n w v) (b : β) :
    (s.next cfg (drainIn n w α b)).outstanding = s.outstanding.tail := by
  have hpool : s.pool cfg (drainIn n w α b).ports = s.outstanding := by
    rw [pool, newEntry_drain, Option.toList_none, List.append_nil]
  show s.left cfg (drainIn n w α b) = _
  rw [left, deliver, presented, hpool]
  cases s.outstanding with
  | nil => rfl
  | cons e es => simp [drainIn]

/-- **Unique and invertible identifiers.**  In every run whose cycles meet the condition: the identifiers
of outstanding requests are distinct; each request taken is outstanding or delivered, once; what is
delivered is at the port of its request, under its identifier; and the run continues, within the condition,
until every request taken has been delivered. -/
theorem ids_unique_and_restored [NeZero n] [Inhabited β] (cfg : Config) (v : Nat) (xs : List (SysIn n w α β))
    (h : (machine cfg n w v α β).Meets (Unlocked cfg) xs) :
    let M := machine cfg n w v α β
    let s := M.run xs
    (s.outstanding.map (·.mstId)).Nodup ∧
    s.taken.Nodup ∧ s.taken.Perm (s.outstanding ++ s.delivered.map (·.entry)) ∧
    (∀ d ∈ s.delivered, d.port = d.entry.port ∧ d.reqId = d.entry.reqId) ∧
    ∃ ys, M.Meets (Unlocked cfg) (xs ++ ys) ∧
      s.taken.Perm ((M.run (xs ++ ys)).delivered.map (·.entry)) := by
  intro M s
  have hT := tracked_run xs h
  refine ⟨hT.distinct, hT.taken_nodup, hT.conserved, hT.restored, ?_⟩
  let x : SysIn n w α β := drainIn n w α default
  have hdown : ∀ zs, (M.run zs).outstanding.length ≠ 0 →
      (M.next (M.run zs) x).outstanding.length < (M.run zs).outstanding.length := by
    intro zs hne
    have htail : (M.next (M.run zs) x).outstanding = (M.run zs).outstanding.tail :=
      outstanding_drain _ _
    rw [htail, List.length_tail]
    omega
  obtain ⟨k, hk⟩ := Machine.exists_drained (μ := fun s : Sys n w v => s.outstanding.length) hdown xs
  have hmeets := h.append_replicate (x := x) (fun s => unlocked_drain s default) k
  refine ⟨List.replicate k x, hmeets, ?_⟩
  have hT' := tracked_run _ hmeets
  have htaken : (M.run (xs ++ List.replicate k x)).taken = s.taken := by
    apply Machine.run_append_replicate (fun s : Sys n w v => s.taken)
    intro s
    show s.taken ++ (s.newEntry cfg (drainIn n w α default).ports).toList = s.taken
    rw [newEntry_drain, Option.toList_none, List.append_nil]
  have hcons := hT'.conserved
  rw [List.length_eq_zero_iff.mp hk, List.nil_append] at hcons
  rw [← htaken]
  exact hcons

/-- A cycle of two ports in which port `p` alone requests, with identifier `i`. -/
def requestIn (p : Fin 2) (i : BitVec 3) (ready : Bool) (rsp : Option (Nat × Unit)) :
    SysIn 2 3 Unit Unit where
  ports :=
    { slvReq := fun q => if q = p then some ⟨i, ()⟩ else none, idx := p,
      idx_requests := fun _ => by simp, mstQReady := ready, pReady := fun _ => true }
  mstRsp := rsp

/-- Two ports, answered in the other order. -/
theorem ids_unique_two_ports :
    let xs := [requestIn 0 5 true none, requestIn 1 5 true none, requestIn 0 6 true (some (1, ()))]
    let s := (machine ⟨4, lzc⟩ 2 3 3 Unit Unit).run xs
    s.delivered.length = 1 ∧ (s.outstanding.map (·.mstId)).Nodup ∧
      ∀ d ∈ s.delivered, d.port = d.entry.port ∧ d.reqId = d.entry.reqId := by
  intro xs s
  have h := ids_unique_and_restored ⟨4, lzc⟩ 3 xs (by decide)
  exact ⟨by decide, h.1, h.2.2.2.1⟩

/-- A request with identifier 0 of port 1 waits one cycle while one of port 0 is outstanding: both are
outstanding under 0, and port 1 gets the response of port 0. -/
theorem id_taken_twice :
    let xs := [requestIn 0 0 true none, requestIn 1 0 false none, requestIn 1 0 true none]
    let M := machine ⟨2, lzc⟩ 2 3 3 Unit Unit
    ¬ ((M.run xs).outstanding.map (·.mstId)).Nodup ∧
    ∃ d ∈ (M.run (xs ++ [requestIn 1 1 false (some (0, ()))])).delivered, d.port ≠ d.entry.port := by
  decide

end Sys

end Remapper

end CachePool
