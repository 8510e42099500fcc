import CachePool.Amo.Reservation

/-!
# An atomic memory

What the atomics unit and the memory behind it are for: every request, also a read-modify-write, takes
effect in one step on a memory of 32-bit words.

* `atomicRun` — the memory after a list of requests.
* `atomicOlds` — the word each request finds.
* `layout` — the accesses a memory without atomics performs for the same requests: an atomic is a read
  followed directly by its write-back.
-/

set_option autoImplicit false

namespace CachePool

namespace Amo

abbrev Mem := BitVec 30 → BitVec 32

/-- The bits of the bytes a strobe enables. -/
def strbMask (strb : BitVec 4) : BitVec 32 :=
  (if strb.getLsbD 0 then 0xFF#32 else 0) ||| (if strb.getLsbD 1 then 0xFF00#32 else 0) |||
    (if strb.getLsbD 2 then 0xFF0000#32 else 0) ||| (if strb.getLsbD 3 then 0xFF000000#32 else 0)

/-- The word `old` with the enabled bytes of `data`. -/
def mergeStrb (old data : BitVec 32) (strb : BitVec 4) : BitVec 32 :=
  (old &&& ~~~strbMask strb) ||| (data &&& strbMask strb)

theorem mergeStrb_all (old data : BitVec 32) : mergeStrb old data 0b1111 = data := by
  have hmask : strbMask 0b1111 = BitVec.allOnes 32 := by decide
  rw [mergeStrb, hmask, BitVec.not_allOnes, BitVec.and_zero, BitVec.zero_or, BitVec.and_allOnes]

def Mem.store (m : Mem) (a : BitVec 32) (v : BitVec 32) : Mem :=
  fun w => if w = wordOf a then v else m w

/-- The effect of an access without atomics. -/
def Mem.access (m : Mem) (q : TcdmReqChan) : Mem :=
  if q.write then m.store q.addr (mergeStrb (m (wordOf q.addr)) q.data q.strb) else m

/-- The access the unit forwards for a request it has taken. -/
def Taken.forward (e : Taken) : TcdmReqChan :=
  { e.req with write := e.req.write || e.scOk, amo := .AMONone }

/-- A request in one step. -/
def atomicStep (m : Mem) (e : Taken) : Mem :=
  if isRmw e.req.amo then
    m.store e.req.addr (amoFunction e.req.amo (m (wordOf e.req.addr)) e.req.data)
  else m.access e.forward

def atomicRun (m : Mem) (es : List Taken) : Mem := es.foldl atomicStep m

/-- The word each request finds. -/
def atomicOlds : Mem → List Taken → List (BitVec 32)
  | _, [] => []
  | m, e :: es => m (wordOf e.req.addr) :: atomicOlds (atomicStep m e) es

@[simp] theorem atomicRun_concat (m : Mem) (es : List Taken) (e : Taken) :
    atomicRun m (es ++ [e]) = atomicStep (atomicRun m es) e := by
  simp [atomicRun]

theorem atomicOlds_append (m : Mem) (es ds : List Taken) :
    atomicOlds m (es ++ ds) = atomicOlds m es ++ atomicOlds (atomicRun m es) ds := by
  induction es generalizing m with
  | nil => rfl
  | cons e es ih =>
    rw [List.cons_append, atomicOlds, ih]
    rfl

@[simp] theorem length_atomicOlds (m : Mem) (es : List Taken) :
    (atomicOlds m es).length = es.length := by
  induction es generalizing m with
  | nil => rfl
  | cons e es ih => rw [atomicOlds, List.length_cons, ih, List.length_cons]

/-- Later requests do not change what a request finds. -/
theorem getElem?_atomicOlds_append {m : Mem} {es : List Taken} {i : Nat} {v : BitVec 32}
    (h : (atomicOlds m es)[i]? = some v) (ds : List Taken) :
    (atomicOlds m (es ++ ds))[i]? = some v := by
  obtain ⟨hi, -⟩ := List.getElem?_eq_some_iff.mp h
  rw [atomicOlds_append, List.getElem?_append_left hi]
  exact h

/-- A request finds the memory all earlier ones have left. -/
theorem getElem?_atomicOlds_concat (m : Mem) (es : List Taken) (e : Taken) :
    (atomicOlds m (es ++ [e]))[es.length]? = some (atomicRun m es (wordOf e.req.addr)) := by
  rw [atomicOlds_append, List.getElem?_append_right (by simp), length_atomicOlds, Nat.sub_self]
  rfl

/-- Which request an access of the memory belongs to: the request itself, or the write-back of an
atomic. -/
inductive Txn where
  | core (i : Nat)
  | wb (i : Nat)
  deriving DecidableEq, Repr

def Txn.isWb : Txn → Bool
  | .core _ => false
  | .wb _ => true

/-- The accesses of request number `i`. -/
def txnsOf (i : Nat) (e : Taken) : List Txn :=
  if isRmw e.req.amo then [.core i, .wb i] else [.core i]

/-- The accesses of a list of requests, the first of which has number `i`. -/
def layout : Nat → List Taken → List Txn
  | _, [] => []
  | i, e :: es => txnsOf i e ++ layout (i + 1) es

theorem layout_concat (i : Nat) (es : List Taken) (e : Taken) :
    layout i (es ++ [e]) = layout i es ++ txnsOf (i + es.length) e := by
  induction es generalizing i with
  | nil => simp [layout]
  | cons d es ih =>
    rw [List.cons_append, layout, ih, layout, List.append_assoc, List.length_cons]
    congr 3
    omega

/-- Every request has one access of its own. -/
theorem filter_layout (es : List Taken) :
    (layout 0 es).filter (fun t => !t.isWb) = (List.range es.length).map Txn.core := by
  induction es using List.reverseRecOn with
  | nil => rfl
  | append_singleton es e ih =>
    rw [layout_concat, List.filter_append, ih, List.length_append, List.length_singleton,
      List.range_succ, List.map_append, Nat.zero_add]
    congr 1
    unfold txnsOf
    split <;> rfl

end Amo

end CachePool
