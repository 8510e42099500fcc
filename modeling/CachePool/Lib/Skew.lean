import Mathlib.Data.Set.Function
import Mathlib.Tactic

/-!
# Skewed columns

`n` rows of parts are stored in `n` columns, in groups of `g`: part `p` of row `w` goes to the column `p`
places further in `w`'s group, around.  Two rows of a group never meet in a column with the same part, and two
parts of a row never meet in a column.

* `wayAt_column`, `column_wayAt` — for a fixed part, rows and columns determine each other.
* `column_lt`, `wayAt_lt`, `column_div`, `wayAt_div` — they stay in their group.
* `bijOn_place` — with the lines of the parts folded into deeper columns, every cell is used once.
-/

set_option autoImplicit false

namespace Skew

/-- The column of part `p` of row `w`. -/
def column (g w p : Nat) : Nat := w / g * g + (w % g + p) % g

/-- The row whose part `p` is in column `c`. -/
def wayAt (g c p : Nat) : Nat := c / g * g + (c % g + g - p) % g

variable {g n w w' c p p' : Nat}

theorem add_mod_of_lt {a b : Nat} (ha : a < g) (hb : b < g) :
    (a + b) % g = if a + b < g then a + b else a + b - g := by
  split
  · exact Nat.mod_eq_of_lt (by omega)
  · rw [Nat.mod_eq_sub_mod (by omega), Nat.mod_eq_of_lt (by omega)]

theorem div_mul_add_div {q s : Nat} (hs : s < g) : (q * g + s) / g = q := by
  rw [Nat.add_comm, Nat.add_mul_div_right _ _ (by omega), Nat.div_eq_of_lt hs, Nat.zero_add]

theorem mul_add_mod_of_lt {q s : Nat} (hs : s < g) : (q * g + s) % g = s := by
  rw [Nat.add_comm, Nat.add_mul_mod_self_right, Nat.mod_eq_of_lt hs]

theorem column_div (hg : 0 < g) : column g w p / g = w / g := div_mul_add_div (Nat.mod_lt _ hg)

theorem column_mod (hg : 0 < g) : column g w p % g = (w % g + p) % g := mul_add_mod_of_lt (Nat.mod_lt _ hg)

theorem wayAt_div (hg : 0 < g) : wayAt g c p / g = c / g := div_mul_add_div (Nat.mod_lt _ hg)

theorem wayAt_mod (hg : 0 < g) : wayAt g c p % g = (c % g + g - p) % g := mul_add_mod_of_lt (Nat.mod_lt _ hg)

/-- `p` places on and `p` places back. -/
theorem sub_add_mod {r : Nat} (hr : r < g) (hp : p < g) : ((r + g - p) % g + p) % g = r := by
  by_cases hle : p ≤ r
  · rw [show r + g - p = (r - p) + g by omega, Nat.add_mod_right, Nat.mod_eq_of_lt (show r - p < g by omega),
      Nat.sub_add_cancel hle, Nat.mod_eq_of_lt hr]
  · rw [Nat.mod_eq_of_lt (show r + g - p < g by omega), show r + g - p + p = r + g by omega,
      Nat.add_mod_right, Nat.mod_eq_of_lt hr]

theorem add_sub_mod {r : Nat} (hr : r < g) (hp : p < g) : ((r + p) % g + g - p) % g = r := by
  rw [add_mod_of_lt hr hp]
  split
  · rw [show r + p + g - p = r + g by omega, Nat.add_mod_right, Nat.mod_eq_of_lt hr]
  · rw [show r + p - g + g - p = r by omega, Nat.mod_eq_of_lt hr]

/-- **The row is recovered from the column.** -/
theorem wayAt_column (hp : p < g) : wayAt g (column g w p) p = w := by
  have hg : 0 < g := by omega
  have hr : w % g < g := Nat.mod_lt _ hg
  have hdiv : column g w p / g = w / g := column_div hg
  have hmod : column g w p % g = (w % g + p) % g := column_mod hg
  unfold wayAt
  rw [hdiv, hmod, add_sub_mod hr hp, Nat.div_add_mod']

/-- **The column is recovered from the row.** -/
theorem column_wayAt (hp : p < g) : column g (wayAt g c p) p = c := by
  have hg : 0 < g := by omega
  have hr : c % g < g := Nat.mod_lt _ hg
  have hdiv : wayAt g c p / g = c / g := wayAt_div hg
  have hmod : wayAt g c p % g = (c % g + g - p) % g := wayAt_mod hg
  unfold column
  rw [hdiv, hmod, sub_add_mod hr hp, Nat.div_add_mod']

theorem column_inj (hp : p < g) : column g w p = column g w' p ↔ w = w' := by
  constructor
  · intro h
    rw [← wayAt_column (w := w) hp, h, wayAt_column hp]
  · exact fun h => h ▸ rfl

/-- One row has its parts in different columns. -/
theorem part_of_column (hp : p < g) (hp' : p' < g) (h : column g w p = column g w p') : p = p' := by
  have hr : w % g < g := Nat.mod_lt _ (by omega)
  have hmod := congrArg (· % g) h
  simp only [column_mod (show 0 < g by omega), add_mod_of_lt hr hp, add_mod_of_lt hr hp'] at hmod
  split at hmod <;> split at hmod <;> omega

/-- Whatever is less than a multiple of `g` is so with its group. -/
theorem group_lt (hdvd : g ∣ n) {q s : Nat} (hs : s < g) (h : q * g < n) : q * g + s < n := by
  obtain ⟨k, rfl⟩ := hdvd
  have hlt : q < k := by
    apply Nat.lt_of_mul_lt_mul_left (a := g)
    rwa [Nat.mul_comm g q]
  calc q * g + s < q * g + g := by omega
    _ = g * (q + 1) := by rw [Nat.mul_comm g, Nat.succ_mul]
    _ ≤ g * k := Nat.mul_le_mul_left g hlt

theorem column_lt (hdvd : g ∣ n) (hg : 0 < g) (hw : w < n) : column g w p < n :=
  group_lt hdvd (Nat.mod_lt _ hg) ((Nat.div_mul_le_self w g).trans_lt hw)

theorem wayAt_lt (hdvd : g ∣ n) (hg : 0 < g) (hc : c < n) : wayAt g c p < n :=
  group_lt hdvd (Nat.mod_lt _ hg) ((Nat.div_mul_le_self c g).trans_lt hc)

/-! ## Folded rows -/

/-- Part `p` of line `l` in a column of folded lines. -/
def fold (g l p : Nat) : Nat := l * g + p

theorem fold_lt {d l : Nat} (hl : l < d) (hp : p < g) : fold g l p < d * g := by
  calc l * g + p < l * g + g := by omega
    _ = (l + 1) * g := (Nat.succ_mul l g).symm
    _ ≤ d * g := Nat.mul_le_mul_right g hl

theorem fold_inj {l l' : Nat} (hp : p < g) (hp' : p' < g) (h : fold g l p = fold g l' p') :
    l = l' ∧ p = p' := by
  unfold fold at h
  constructor
  · rw [← div_mul_add_div (q := l) hp, h, div_mul_add_div hp']
  · rw [← mul_add_mod_of_lt (q := l) hp, h, mul_add_mod_of_lt hp']

/-- Column and row of part `p` of line `l` of row `w`, as `(w, l, p)`. -/
def place (g : Nat) (x : Nat × Nat × Nat) : Nat × Nat := (column g x.1 x.2.2, fold g x.2.1 x.2.2)

/-- **Every cell of the columns holds exactly one part.** -/
theorem bijOn_place {d : Nat} (hdvd : g ∣ n) (hg : 0 < g) :
    Set.BijOn (place g) {x | x.1 < n ∧ x.2.1 < d ∧ x.2.2 < g} {y | y.1 < n ∧ y.2 < d * g} := by
  refine ⟨?_, ?_, ?_⟩
  · rintro ⟨w, l, p⟩ ⟨hw, hl, hp⟩
    exact ⟨column_lt hdvd hg hw, fold_lt hl hp⟩
  · rintro ⟨w, l, p⟩ ⟨_, _, hp⟩ ⟨w', l', p'⟩ ⟨_, _, hp'⟩ heq
    have hcol : column g w p = column g w' p' := congrArg Prod.fst heq
    have hrow : fold g l p = fold g l' p' := congrArg Prod.snd heq
    obtain ⟨rfl, rfl⟩ := fold_inj hp hp' hrow
    have hw : w = w' := (column_inj hp).mp hcol
    rw [hw]
  · rintro ⟨c, r⟩ ⟨hc, hr⟩
    have hp : r % g < g := Nat.mod_lt _ hg
    refine ⟨(wayAt g c (r % g), r / g, r % g), ⟨wayAt_lt hdvd hg hc, ?_, hp⟩, ?_⟩
    · exact (Nat.div_lt_iff_lt_mul hg).mpr hr
    · exact Prod.ext (column_wayAt hp) (Nat.div_add_mod' r g)

end Skew
