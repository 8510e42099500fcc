import Mathlib.Data.List.Basic
import Mathlib.Tactic

/-!
# Blocks handed out from the bottom up

* `Block`, `Packed` — the blocks handed out so far lie between the bottom and a mark and share no byte.
* `Packed.grant` — a block that begins at the mark, and a mark behind it.
-/

set_option autoImplicit false

namespace Arena

/-- `size` bytes from `addr` on. -/
structure Block where
  addr : Nat
  size : Nat
  deriving DecidableEq, Repr

/-- The byte `x` is in the block. -/
def Block.Holds (b : Block) (x : Nat) : Prop := b.addr ≤ x ∧ x < b.addr + b.size

/-- No byte is in two of the blocks. -/
def Separate (bs : List Block) : Prop := bs.Pairwise fun a b => ∀ x, ¬ (a.Holds x ∧ b.Holds x)

structure Packed (bottom mark : Nat) (bs : List Block) : Prop where
  within : ∀ b ∈ bs, bottom ≤ b.addr ∧ b.addr + b.size ≤ mark
  separate : Separate bs

variable {bottom mark mark' n : Nat} {bs : List Block}

theorem Packed.nil (bottom mark : Nat) : Packed bottom mark [] :=
  ⟨fun _ h => absurd h List.not_mem_nil, List.Pairwise.nil⟩

theorem Packed.mono (h : Packed bottom mark bs) (hle : mark ≤ mark') : Packed bottom mark' bs := by
  refine ⟨fun b hb => ?_, h.separate⟩
  obtain ⟨hlo, hhi⟩ := h.within b hb
  exact ⟨hlo, hhi.trans hle⟩

theorem Packed.grant (h : Packed bottom mark bs) (hlo : bottom ≤ mark) (hle : mark + n ≤ mark') :
    Packed bottom mark' (bs ++ [⟨mark, n⟩]) := by
  constructor
  · intro b hb
    rcases List.mem_append.mp hb with hold | hnew
    · exact (h.mono (show mark ≤ mark' by omega)).within b hold
    · obtain rfl := List.mem_singleton.mp hnew
      exact ⟨hlo, hle⟩
  · refine List.pairwise_append.mpr ⟨h.separate, List.pairwise_singleton _ _, ?_⟩
    rintro a ha b hb x ⟨hxa, hxb⟩
    obtain rfl := List.mem_singleton.mp hb
    have hbelow := (h.within a ha).2
    have hx : x < a.addr + a.size := hxa.2
    have hx' : mark ≤ x := hxb.1
    omega

end Arena
