import Mathlib.Logic.Relation
import Mathlib.Tactic

/-!
# Routes of a deterministic hop function

`hop a = some b` sends what is at `a` on to `b`; at `hop a = none` the route ends.

* `Delivers` — the route from `a` ends at `b`.
* `delivers_iff` — there is at most one end, so one known end characterises delivery.
-/

set_option autoImplicit false

universe u

namespace Route

variable {α : Type u} (hop : α → Option α)

/-- The route from `a` ends at `b`. -/
def Delivers (a b : α) : Prop := Relation.ReflTransGen (fun x y => hop x = some y) a b ∧ hop b = none

variable {hop}

theorem delivers_of_hop {a b c : α} (h : hop a = some b) (hd : Delivers hop b c) :
    Delivers hop a c :=
  ⟨Relation.ReflTransGen.head h hd.1, hd.2⟩

theorem delivers_self {a : α} (h : hop a = none) : Delivers hop a a :=
  ⟨Relation.ReflTransGen.refl, h⟩

/-- A hop function has at most one route end. -/
theorem Delivers.unique {a b c : α} (hb : Delivers hop a b) (hc : Delivers hop a c) : b = c := by
  have hU : Relator.RightUnique (fun x y => hop x = some y) := by
    intro x y z hy hz
    rw [hy] at hz
    exact Option.some.inj hz
  have stuck : ∀ {x y : α}, hop x = none → Relation.ReflTransGen (fun x y => hop x = some y) x y →
      x = y := by
    intro x y hx hxy
    rcases hxy.cases_head with rfl | ⟨z, hz, _⟩
    · rfl
    · rw [hx] at hz; cases hz
  rcases Relation.ReflTransGen.total_of_right_unique hU hb.1 hc.1 with h | h
  · exact stuck hb.2 h
  · exact (stuck hc.2 h).symm

theorem delivers_iff {a b : α} (hb : Delivers hop a b) (c : α) : Delivers hop a c ↔ c = b :=
  ⟨fun hc => hc.unique hb, fun h => h ▸ hb⟩

end Route
