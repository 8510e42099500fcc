import CachePool.Amo.Unit

/-!
# What a store-conditional relies on

A hart is a core of a tile.  The requests the unit has taken are recorded with the outcome of each
store-conditional.

* `Reserved` — the hart's most recent load-reserved was to the word, it has issued no store-conditional
  since, and no other hart has touched the word since.
* `reserved_of_lr`, `Reserved.concat` — how a request establishes it and what keeps it.
* `not_reserved_of_no_lr`, `not_reserved_of_touched` — when it does not hold.
-/

set_option autoImplicit false

namespace CachePool

namespace Amo

/-- A hart of the cluster. -/
structure Hart where
  tile : Nat
  core : Nat
  deriving DecidableEq, Repr

def hartOf (u : TcdmUser) : Hart := ⟨u.tileId, u.coreId⟩

/-- The word an address lies in. -/
def wordOf (a : BitVec 32) : BitVec 30 := a.extractLsb' 2 30

/-- A request the unit has taken, and whether it was a successful store-conditional. -/
structure Taken where
  req : TcdmReqChan
  scOk : Bool
  deriving DecidableEq, Repr

/-- The request stores to some byte of its word by itself: a write or an atomic. -/
def stores (q : TcdmReqChan) : Bool := (q.write && decide (q.strb ≠ 0)) || isRmw q.amo

/-- The request touches its word: it stores, or it is a successful store-conditional. -/
def Taken.touches (e : Taken) : Bool := stores e.req || e.scOk

/-- Hart `h`'s most recent load-reserved was to word `w`, it has issued no store-conditional since,
and since then no other hart has touched the word. -/
def Reserved (h : Hart) (w : BitVec 30) (hist : List Taken) : Prop :=
  ∃ pre lr post, hist = pre ++ lr :: post ∧
    lr.req.amo = .AMOLR ∧ hartOf lr.req.user = h ∧ wordOf lr.req.addr = w ∧
    ∀ e, e ∈ post → (hartOf e.req.user = h → e.req.amo ≠ .AMOLR ∧ e.req.amo ≠ .AMOSC) ∧
      (hartOf e.req.user ≠ h → e.touches = true → wordOf e.req.addr ≠ w)

theorem reserved_of_lr (hist : List Taken) (e : Taken) (h : e.req.amo = .AMOLR) :
    Reserved (hartOf e.req.user) (wordOf e.req.addr) (hist ++ [e]) :=
  ⟨hist, e, [], rfl, h, rfl, rfl, fun _ he => nomatch he⟩

theorem Reserved.concat {h : Hart} {w : BitVec 30} {hist : List Taken} (hr : Reserved h w hist)
    {e : Taken} (hown : hartOf e.req.user = h → e.req.amo ≠ .AMOLR ∧ e.req.amo ≠ .AMOSC)
    (hother : hartOf e.req.user ≠ h → e.touches = true → wordOf e.req.addr ≠ w) :
    Reserved h w (hist ++ [e]) := by
  obtain ⟨pre, lr, post, rfl, hlr, hh, hw, hpost⟩ := hr
  refine ⟨pre, lr, post ++ [e], by simp, hlr, hh, hw, ?_⟩
  intro e' he'
  rcases List.mem_append.mp he' with hp | hp
  · exact hpost e' hp
  · obtain rfl := List.mem_singleton.mp hp
    exact ⟨hown, hother⟩

/-- A hart that never issued a load-reserved holds no reservation. -/
theorem not_reserved_of_no_lr {h : Hart} {w : BitVec 30} {hist : List Taken}
    (hn : ∀ e, e ∈ hist → e.req.amo = .AMOLR → hartOf e.req.user ≠ h) : ¬ Reserved h w hist := by
  rintro ⟨pre, lr, post, rfl, hlr, hh, -, -⟩
  exact hn lr (by simp) hlr hh

/-- The last request was another hart's store to the word. -/
theorem not_reserved_of_touched {h : Hart} {w : BitVec 30} (hist : List Taken) {e : Taken}
    (hne : hartOf e.req.user ≠ h) (ht : e.touches = true) (hw : wordOf e.req.addr = w) :
    ¬ Reserved h w (hist ++ [e]) := by
  rintro ⟨pre, lr, post, heq, -, hh, -, hpost⟩
  rcases post.eq_nil_or_concat with rfl | ⟨post', e', rfl⟩
  · have hlast := (List.append_inj' heq rfl).2
    cases hlast
    exact hne hh
  · have heq' : hist ++ [e] = (pre ++ lr :: post') ++ [e'] := by simpa using heq
    have hlast := (List.append_inj' heq' rfl).2
    cases hlast
    exact (hpost e (by simp)).2 hne ht hw

end Amo

end CachePool
