import CachePool.Lib.Dft
import Mathlib.Algebra.Order.Group.Nat

/-!
# Where the values lie (`fft-32b/script/gen_data.py`)

There are `2 ^ (L + H + 1)` points and `2 ^ L` cores.  In the shared stages the sequences are in the order of
the reversed bits of their frequencies.  In the stages of a core the upper halves of all its sequences come
first, and the table of store indices brings the outputs into this order again.

* `bitrev` — the offset of a core in the result; `storeDelta` — the table of store indices.
* `inOrder` — the array before a shared stage; `inOrder_next` — a shared stage.
* `block` — the block of a core before a stage of its own; `block_next`, `block_last` — these stages.
-/

set_option autoImplicit false

namespace CachePool

namespace Fft

universe u v

theorem two_pow_shiftRight {a b : Nat} (h : b ≤ a) : 2 ^ a >>> b = 2 ^ (a - b) := by
  rw [Nat.shiftRight_eq_div_pow, Nat.pow_div h (by decide)]

/-! ## Reversed bits -/

/-- The number of `s` bits in the opposite order (`gen_core_offset`). -/
def bitrev : Nat → Nat → Nat
  | 0, _ => 0
  | s + 1, b => bitrev s (b / 2) + b % 2 * 2 ^ s

theorem bitrev_lt (s b : Nat) : bitrev s b < 2 ^ s := by
  induction s generalizing b with
  | zero => exact Nat.one_pos
  | succ s ih =>
    have hhigh := ih (b / 2)
    have hbit : b % 2 * 2 ^ s ≤ 1 * 2 ^ s := Nat.mul_le_mul_right _ (by omega)
    rw [bitrev, Nat.pow_succ]
    omega

theorem bitrev_even (s b : Nat) : bitrev (s + 1) (2 * b) = bitrev s b := by
  rw [bitrev, Nat.mul_div_cancel_left b (by decide), Nat.mul_mod_right, Nat.zero_mul, Nat.add_zero]

theorem bitrev_odd (s b : Nat) : bitrev (s + 1) (2 * b + 1) = bitrev s b + 2 ^ s := by
  rw [bitrev, show (2 * b + 1) / 2 = b by omega, show (2 * b + 1) % 2 = 1 by omega, Nat.one_mul]

theorem exists_bitrev {s k : Nat} (hk : k < 2 ^ s) : ∃ b < 2 ^ s, bitrev s b = k := by
  induction s generalizing k with
  | zero => exact ⟨0, Nat.one_pos, by rw [bitrev]; omega⟩
  | succ s ih =>
    rw [Nat.pow_succ] at hk
    by_cases hlow : k < 2 ^ s
    · obtain ⟨b, hb, rfl⟩ := ih hlow
      exact ⟨2 * b, by rw [Nat.pow_succ]; omega, bitrev_even s b⟩
    · obtain ⟨b, hb, hrev⟩ := ih (k := k - 2 ^ s) (by omega)
      exact ⟨2 * b + 1, by rw [Nat.pow_succ]; omega, by rw [bitrev_odd, hrev]; omega⟩

theorem bitrev_inj {s b b' : Nat} (hb : b < 2 ^ s) (hb' : b' < 2 ^ s) (h : bitrev s b = bitrev s b') :
    b = b' := by
  induction s generalizing b b' with
  | zero => omega
  | succ s ih =>
    rw [Nat.pow_succ] at hb hb'
    have hlt := bitrev_lt s (b / 2)
    have hlt' := bitrev_lt s (b' / 2)
    rw [bitrev, bitrev] at h
    rcases Nat.mod_two_eq_zero_or_one b with hm | hm <;>
      rcases Nat.mod_two_eq_zero_or_one b' with hm' | hm' <;> rw [hm, hm'] at h
    · have := ih (by omega) (by omega) (show bitrev s (b / 2) = bitrev s (b' / 2) by omega)
      omega
    · omega
    · omega
    · have := ih (by omega) (by omega) (show bitrev s (b / 2) = bitrev s (b' / 2) by omega)
      omega

/-! ## The table of store indices -/

/-- From where to where the loops of `gen_store_idx` move the elements in stage `bf`. -/
def moves (nfft bf : Nat) : List (Nat × Nat) :=
  let nffth := nfft >>> 1
  let stride := nffth >>> (bf + 1)
  (List.range 2).flatMap fun h => (List.range (nffth / (stride <<< 1))).flatMap fun i =>
    (List.range stride).flatMap fun j =>
      [(h * nffth + j + 2 * i * stride, h * (nffth >>> 1) + i * stride + j),
        (h * nffth + j + 2 * i * stride + stride, h * (nffth >>> 1) + i * stride + j + nffth)]

/-- `delta`: where stage `bf` moves what is at place `p`; it moves every place once. -/
def storeDelta (nfft bf p : Nat) : Nat := (((moves nfft bf).find? fun e => e.1 = p).map Prod.snd).getD 0

/-- `store_idx_dram`: offsets in bytes of the first half of the places in each stage, as 16-bit numbers. -/
def storeIdx (nfft q : Nat) : Nat := storeDelta nfft (q / (nfft >>> 1)) (q % (nfft >>> 1)) * 4 % 2 ^ 16

/-- The place of output `j` of the sums, where a sequence has `2 * n` values before and `n` after a stage. -/
def place (half n j : Nat) : Nat := j % (2 * n) / n * half + (j / (2 * n) * n + j % n)

theorem mod_two_mul (n j : Nat) : j % (2 * n) = j % (2 * n) / n * n + j % n := by
  have hmod : j % (2 * n) % n = j % n := Nat.mod_mod_of_dvd j (Nat.dvd_mul_left n 2)
  rw [← hmod]
  exact (Nat.div_add_mod' _ _).symm

/-- Where a place comes from tells where it goes to. -/
theorem place_of_move {half n c h i j p : Nat} (hn : 0 < n) (hhalf : half = c * (2 * n)) (hi : i < c)
    (hj : j < n) (hp : p < half) (b : Nat) (hb : b < 2) (hmove : h * half + j + 2 * i * n + b * n = p) :
    h = 0 ∧ place half n p = i * n + j + b * half := by
  have hin : 2 * i * n + 2 * n ≤ half := by
    have := Nat.mul_le_mul_right (2 * n) (Nat.succ_le_of_lt hi)
    rw [Nat.succ_mul] at this
    rw [hhalf, Nat.mul_comm 2 i, Nat.mul_assoc]
    omega
  obtain rfl : h = 0 := by
    rcases Nat.eq_zero_or_pos h with h0 | hpos
    · exact h0
    · have := Nat.le_mul_of_pos_left half hpos
      omega
  have hbn : j + b * n < 2 * n := by
    have : b * n ≤ 1 * n := Nat.mul_le_mul_right n (by omega)
    omega
  have hp' : p = i * (2 * n) + (j + b * n) := by
    rw [← hmove, Nat.mul_comm 2 i, Nat.mul_assoc]
    omega
  have hmod : p % (2 * n) = j + b * n := by
    rw [hp', Nat.mul_comm i, Nat.mul_add_mod, Nat.mod_eq_of_lt hbn]
  have hdiv : p / (2 * n) = i := by
    rw [hp', Nat.mul_comm i, Nat.mul_add_div (by omega), Nat.div_eq_of_lt hbn, Nat.add_zero]
  have hlow : p % n = j := by
    rw [← Nat.mod_mod_of_dvd p (Nat.dvd_mul_left n 2), hmod, Nat.add_mul_mod_self_right, Nat.mod_eq_of_lt hj]
  refine ⟨rfl, ?_⟩
  rw [place, hmod, hdiv, hlow, Nat.add_mul_div_right _ _ hn, Nat.div_eq_of_lt hj, Nat.zero_add]
  omega

/-- **The table brings the outputs to their places.** -/
theorem storeDelta_eq {H bf p : Nat} (hbf : bf < H) (hp : p < 2 ^ H) :
    storeDelta (2 ^ (H + 1)) bf p = place (2 ^ H) (2 ^ (H - bf - 1)) p := by
  have hnffth : 2 ^ (H + 1) >>> 1 = 2 ^ H := two_pow_shiftRight (by omega)
  have hstride : 2 ^ H >>> (bf + 1) = 2 ^ (H - bf - 1) := by rw [two_pow_shiftRight (by omega), Nat.sub_sub]
  have hhalf : 2 ^ H = 2 ^ bf * (2 * 2 ^ (H - bf - 1)) := by
    rw [← Nat.pow_succ', ← Nat.pow_add]
    congr 1
    omega
  have hcount : 2 ^ H / (2 ^ (H - bf - 1) <<< 1) = 2 ^ bf := by
    rw [Nat.shiftLeft_eq, Nat.pow_one, Nat.mul_comm _ 2]
    exact Nat.div_eq_of_eq_mul_left (Nat.mul_pos (by decide) (Nat.two_pow_pos _)) hhalf
  have hpos : 0 < 2 ^ (H - bf - 1) := Nat.two_pow_pos _
  -- every move from the place goes where it is to go
  have hmoves : ∀ e ∈ moves (2 ^ (H + 1)) bf, e.1 = p → e.2 = place (2 ^ H) (2 ^ (H - bf - 1)) p := by
    intro e he hep
    simp only [moves, hnffth, hstride, hcount, List.mem_flatMap, List.mem_range, List.mem_cons,
      List.not_mem_nil, or_false] at he
    obtain ⟨h, _, i, hi, j, hj, rfl | rfl⟩ := he
    · obtain ⟨rfl, hplace⟩ := place_of_move hpos hhalf hi hj hp 0 (by decide) (by simpa using hep)
      rw [hplace]
      simp
    · obtain ⟨rfl, hplace⟩ := place_of_move hpos hhalf hi hj hp 1 (by decide) (by simpa using hep)
      rw [hplace]
      simp
  have hfound : ∃ e ∈ moves (2 ^ (H + 1)) bf, e.1 = p := by
    have hdiv := Nat.div_add_mod' p (2 * 2 ^ (H - bf - 1))
    have hlt := Nat.mod_lt p (show 2 * 2 ^ (H - bf - 1) > 0 by omega)
    have hi : p / (2 * 2 ^ (H - bf - 1)) < 2 ^ bf := by
      rw [Nat.div_lt_iff_lt_mul (by omega), ← hhalf]
      exact hp
    have hassoc : 2 * (p / (2 * 2 ^ (H - bf - 1))) * 2 ^ (H - bf - 1) =
        p / (2 * 2 ^ (H - bf - 1)) * (2 * 2 ^ (H - bf - 1)) := by
      rw [Nat.mul_comm 2, Nat.mul_assoc]
    simp only [moves, hnffth, hstride, hcount, List.mem_flatMap, List.mem_range, List.mem_cons,
      List.not_mem_nil, or_false]
    by_cases hlow : p % (2 * 2 ^ (H - bf - 1)) < 2 ^ (H - bf - 1)
    · refine ⟨_, ⟨0, by decide, _, hi, _, hlow, .inl rfl⟩, ?_⟩
      show 0 * 2 ^ H + _ + _ = p
      omega
    · refine ⟨_, ⟨0, by decide, _, hi, p % (2 * 2 ^ (H - bf - 1)) - 2 ^ (H - bf - 1), by omega, .inr rfl⟩, ?_⟩
      show 0 * 2 ^ H + _ + _ + _ = p
      omega
  rw [storeDelta]
  cases hfind : (moves (2 ^ (H + 1)) bf).find? fun e => e.1 = p with
  | none =>
    obtain ⟨e, he, hep⟩ := hfound
    have := List.find?_eq_none.mp hfind e he
    simp [hep] at this
  | some e =>
    have hep : e.1 = p := by simpa using List.find?_some hfind
    exact hmoves e (List.mem_of_find?_eq_some hfind) hep

/-! ## The places -/

section Places

variable {H bf j : Nat}

/-- Which half and which sequence the places of the two outputs of butterfly `j` are in. -/
theorem place_parts {b : Nat} (hbf : bf < H) (hj : j < 2 ^ H) (hb : b < 2) :
    (place (2 ^ H) (2 ^ (H - bf - 1)) j + b * 2 ^ (H - 1)) / 2 ^ H = j % 2 ^ (H - bf) / 2 ^ (H - bf - 1) ∧
      (place (2 ^ H) (2 ^ (H - bf - 1)) j + b * 2 ^ (H - 1)) % 2 ^ H =
        2 ^ (H - bf - 1) * (j / 2 ^ (H - bf) + b * 2 ^ bf) + j % 2 ^ (H - bf - 1) := by
  have htwo : 2 ^ (H - bf - 1) * 2 = 2 ^ (H - bf) := Nat.two_pow_pred_mul_two (by omega)
  have hhalf : 2 ^ (H - 1) * 2 = 2 ^ H := Nat.two_pow_pred_mul_two (by omega)
  have hmid : 2 ^ (H - bf - 1) * 2 ^ bf = 2 ^ (H - 1) := by
    rw [Nat.sub_right_comm, Nat.pow_sub_mul_pow 2 (by omega)]
  have hseq : j / 2 ^ (H - bf) < 2 ^ bf := by
    rwa [Nat.div_lt_iff_lt_mul (Nat.two_pow_pos _), Nat.mul_comm, Nat.pow_sub_mul_pow 2 (by omega)]
  have hlow : j % 2 ^ (H - bf - 1) < 2 ^ (H - bf - 1) := Nat.mod_lt _ (Nat.two_pow_pos _)
  -- the place in its half
  have hin : 2 ^ (H - bf - 1) * (j / 2 ^ (H - bf) + b * 2 ^ bf) + j % 2 ^ (H - bf - 1) < 2 ^ H := by
    have hle := Nat.mul_le_mul_left (2 ^ (H - bf - 1)) (Nat.succ_le_of_lt hseq)
    have hb' : b * 2 ^ (H - 1) ≤ 1 * 2 ^ (H - 1) := Nat.mul_le_mul_right _ (by omega)
    rw [hmid, Nat.mul_succ] at hle
    rw [Nat.mul_add, Nat.mul_left_comm, hmid]
    omega
  have hplace : place (2 ^ H) (2 ^ (H - bf - 1)) j + b * 2 ^ (H - 1) =
      2 ^ H * (j % 2 ^ (H - bf) / 2 ^ (H - bf - 1)) +
        (2 ^ (H - bf - 1) * (j / 2 ^ (H - bf) + b * 2 ^ bf) + j % 2 ^ (H - bf - 1)) := by
    rw [place, Nat.mul_comm 2, htwo, Nat.mul_add, Nat.mul_left_comm _ b, hmid, Nat.mul_comm _ (2 ^ H),
      Nat.mul_comm _ (j / 2 ^ (H - bf))]
    omega
  rw [hplace]
  exact ⟨by rw [Nat.mul_add_div (Nat.two_pow_pos H), Nat.div_eq_of_lt hin, Nat.add_zero],
    by rw [Nat.mul_add_mod, Nat.mod_eq_of_lt hin]⟩

theorem place_lt {b : Nat} (hbf : bf < H) (hj : j < 2 ^ H) (hb : b < 2) :
    place (2 ^ H) (2 ^ (H - bf - 1)) j + b * 2 ^ (H - 1) < 2 ^ (H + 1) := by
  have htwo : 2 ^ (H - bf - 1) * 2 = 2 ^ (H - bf) := Nat.two_pow_pred_mul_two (by omega)
  rw [Nat.pow_succ', ← Nat.div_lt_iff_lt_mul (Nat.two_pow_pos H), (place_parts hbf hj hb).1,
    Nat.div_lt_iff_lt_mul (Nat.two_pow_pos _), Nat.mul_comm 2, htwo]
  exact Nat.mod_lt _ (Nat.two_pow_pos _)

/-- The offsets are those of the places, as long as 16 bits are enough. -/
theorem storeIdx_eq (hbf : bf < H) (hj : j < 2 ^ H) (hfits : H + 1 ≤ 14) :
    storeIdx (2 ^ (H + 1)) (bf * 2 ^ H + j) / 4 = place (2 ^ H) (2 ^ (H - bf - 1)) j := by
  have hhalf : 2 ^ (H + 1) >>> 1 = 2 ^ H := two_pow_shiftRight (by omega)
  have hlt := place_lt hbf hj (show 0 < 2 by decide)
  have hle : 2 ^ (H + 1) ≤ 2 ^ 14 := Nat.pow_le_pow_right (by decide) hfits
  have hdiv : (bf * 2 ^ H + j) / 2 ^ H = bf := by
    rw [Nat.mul_comm, Nat.mul_add_div (Nat.two_pow_pos H), Nat.div_eq_of_lt hj, Nat.add_zero]
  rw [storeIdx, hhalf, hdiv, Nat.mul_comm bf, Nat.mul_add_mod, Nat.mod_eq_of_lt hj, storeDelta_eq hbf hj]
  omega

/-- Every place is that of an output. -/
theorem exists_place {q : Nat} (hbf : bf < H) (hq : q < 2 ^ (H + 1)) :
    ∃ j < 2 ^ H, ∃ b < 2, q = place (2 ^ H) (2 ^ (H - bf - 1)) j + b * 2 ^ (H - 1) := by
  have htwo : 2 ^ (H - bf - 1) * 2 = 2 ^ (H - bf) := Nat.two_pow_pred_mul_two (by omega)
  have hwhole : 2 ^ (H - bf) * 2 ^ bf = 2 ^ H := Nat.pow_sub_mul_pow 2 (by omega)
  -- the half `h`, the sequence `c` and the offset `o` in it
  obtain ⟨h, hh⟩ : ∃ h, h = q / 2 ^ H := ⟨_, rfl⟩
  obtain ⟨c, hc⟩ : ∃ c, c = q % 2 ^ H / 2 ^ (H - bf - 1) := ⟨_, rfl⟩
  obtain ⟨o, ho⟩ : ∃ o, o = q % 2 ^ H % 2 ^ (H - bf - 1) := ⟨_, rfl⟩
  have hh2 : h < 2 := by rwa [hh, Nat.div_lt_iff_lt_mul (Nat.two_pow_pos H), ← Nat.pow_succ']
  have hc2 : c / 2 ^ bf < 2 := by
    rw [hc, Nat.div_lt_iff_lt_mul (Nat.two_pow_pos _), Nat.div_lt_iff_lt_mul (Nat.two_pow_pos _),
      Nat.mul_right_comm, Nat.mul_comm 2, htwo, hwhole]
    exact Nat.mod_lt _ (Nat.two_pow_pos H)
  have ho2 : o < 2 ^ (H - bf - 1) := ho ▸ Nat.mod_lt _ (Nat.two_pow_pos _)
  have hseq : c % 2 ^ bf < 2 ^ bf := Nat.mod_lt _ (Nat.two_pow_pos _)
  have hoff : 2 ^ (H - bf - 1) * h + o < 2 ^ (H - bf) := by
    have hle : 2 ^ (H - bf - 1) * h ≤ 2 ^ (H - bf - 1) * 1 := Nat.mul_le_mul_left _ (by omega)
    omega
  have hj : 2 ^ (H - bf) * (c % 2 ^ bf) + (2 ^ (H - bf - 1) * h + o) < 2 ^ H := by
    have hle := Nat.mul_le_mul_left (2 ^ (H - bf)) (Nat.succ_le_of_lt hseq)
    rw [hwhole, Nat.mul_succ] at hle
    omega
  refine ⟨_, hj, c / 2 ^ bf, hc2, ?_⟩
  obtain ⟨hdiv, hmod⟩ := place_parts hbf hj hc2
  have hlow : (2 ^ (H - bf) * (c % 2 ^ bf) + (2 ^ (H - bf - 1) * h + o)) % 2 ^ (H - bf - 1) = o := by
    rw [← htwo, Nat.mul_assoc, ← Nat.add_assoc, ← Nat.mul_add, Nat.mul_add_mod, Nat.mod_eq_of_lt ho2]
  rw [Nat.mul_add_mod, Nat.mod_eq_of_lt hoff, Nat.mul_add_div (Nat.two_pow_pos _), Nat.div_eq_of_lt ho2,
    Nat.add_zero] at hdiv
  rw [Nat.mul_add_div (Nat.two_pow_pos _), Nat.div_eq_of_lt hoff, Nat.add_zero, Nat.mod_add_div',
    hlow] at hmod
  generalize place _ _ _ + _ = p at hdiv hmod ⊢
  rw [← Nat.div_add_mod q (2 ^ H), ← hh, ← Nat.div_add_mod (q % 2 ^ H) (2 ^ (H - bf - 1)), ← hc, ← ho,
    ← Nat.div_add_mod p (2 ^ H), hdiv, hmod]

end Places

/-! ## The array in the shared stages -/

section InOrder

variable {X : Type u} {W : Type v} (B : Dft.Stages X W) (T : Nat) (x : Nat → X) (w : Nat → Nat → Nat → W)

/-- What lies at `p` before shared stage `s`: the sequences, in the order of the reversed bits of their
frequencies. -/
def inOrder (s p : Nat) : X := Dft.values B T x w s (bitrev s (p / 2 ^ (T - s))) (p % 2 ^ (T - s))

theorem inOrder_zero {p : Nat} (hp : p < 2 ^ T) : inOrder B T x w 0 p = x p := by
  rw [inOrder, bitrev, Dft.values, Nat.sub_zero, Nat.mod_eq_of_lt hp]

theorem inOrder_at {s g t : Nat} (ht : t < 2 ^ (T - s)) :
    inOrder B T x w s (2 ^ (T - s) * g + t) = Dft.values B T x w s (bitrev s g) t := by
  rw [inOrder, Nat.mul_add_div (Nat.two_pow_pos _), Nat.div_eq_of_lt ht, Nat.mul_add_mod, Nat.mod_eq_of_lt ht,
    Nat.add_zero]

/-- **A shared stage**: the butterflies of sequence `g`. -/
theorem inOrder_next {s g t : Nat} (hs : s < T) (ht : t < 2 ^ (T - (s + 1))) :
    inOrder B T x w (s + 1) (2 ^ (T - s) * g + t) = B.sum (inOrder B T x w s (2 ^ (T - s) * g + t))
        (inOrder B T x w s (2 ^ (T - s) * g + t + 2 ^ (T - (s + 1)))) ∧
      inOrder B T x w (s + 1) (2 ^ (T - s) * g + t + 2 ^ (T - (s + 1))) = B.twist (w s (bitrev s g) t)
        (inOrder B T x w s (2 ^ (T - s) * g + t))
        (inOrder B T x w s (2 ^ (T - s) * g + t + 2 ^ (T - (s + 1)))) := by
  have htwo : 2 ^ (T - (s + 1)) * 2 = 2 ^ (T - s) := Nat.two_pow_pred_mul_two (w := T - s) (by omega)
  have hupper := inOrder_at B T x w (s := s) (g := g) (t := t) (by omega)
  have hlower := inOrder_at B T x w (s := s) (g := g) (t := t + 2 ^ (T - (s + 1))) (by omega)
  have heven : 2 ^ (T - s) * g + t = 2 ^ (T - (s + 1)) * (2 * g) + t := by
    rw [← htwo, Nat.mul_assoc]
  have hodd : 2 ^ (T - s) * g + t + 2 ^ (T - (s + 1)) = 2 ^ (T - (s + 1)) * (2 * g + 1) + t := by
    rw [heven, Nat.mul_succ, Nat.add_right_comm]
  rw [← Nat.add_assoc] at hlower
  rw [hupper, hlower, hodd, heven, inOrder_at B T x w ht, inOrder_at B T x w ht, bitrev_even, bitrev_odd]
  exact ⟨Dft.values_sum B T x w t (bitrev_lt s g), Dft.values_twist B T x w s (bitrev s g) t⟩

end InOrder

/-! ## The block of a core -/

section Block

variable {X : Type u} {W : Type v} (B : Dft.Stages X W) (L H : Nat) (x : Nat → X) (w : Nat → Nat → Nat → W)

/-- What lies at `q` in the block of the core for the frequencies that are `k` modulo `2 ^ L`, before its
stage `bf`: the upper halves of its sequences, and behind them the lower ones. -/
def block (k bf q : Nat) : X :=
  Dft.values B (L + H + 1) x w (L + bf) (k + 2 ^ L * (q % 2 ^ H / 2 ^ (H - bf)))
    (q / 2 ^ H * 2 ^ (H - bf) + q % 2 ^ H % 2 ^ (H - bf))

/-- The block that the shared stages leave. -/
theorem block_zero {c q : Nat} (hq : q < 2 ^ (H + 1)) :
    block B L H x w (bitrev L c) 0 q = inOrder B (L + H + 1) x w L (2 ^ (H + 1) * c + q) := by
  have hlow : q % 2 ^ H < 2 ^ H := Nat.mod_lt _ (Nat.two_pow_pos H)
  have hsize : L + H + 1 - L = H + 1 := by omega
  rw [← hsize] at hq ⊢
  rw [inOrder_at B _ x w hq, block, Nat.sub_zero, Nat.div_eq_of_lt hlow, Nat.mod_eq_of_lt hlow,
    Nat.div_add_mod', Nat.mul_zero]
  rfl

/-- The two inputs of butterfly `j`. -/
theorem block_wings (k bf : Nat) {j : Nat} (hj : j < 2 ^ H) :
    block B L H x w k bf j = Dft.values B (L + H + 1) x w (L + bf) (k + 2 ^ L * (j / 2 ^ (H - bf)))
        (j % 2 ^ (H - bf)) ∧
      block B L H x w k bf (j + 2 ^ H) = Dft.values B (L + H + 1) x w (L + bf)
        (k + 2 ^ L * (j / 2 ^ (H - bf))) (j % 2 ^ (H - bf) + 2 ^ (H - bf)) := by
  rw [block, block, Nat.div_eq_of_lt hj, Nat.add_mod_right, Nat.add_div_right _ (Nat.two_pow_pos H),
    Nat.div_eq_of_lt hj, Nat.mod_eq_of_lt hj, Nat.zero_mul, Nat.zero_add, Nat.one_mul,
    Nat.add_comm (2 ^ (H - bf))]
  exact ⟨rfl, rfl⟩

/-- **A stage of a core** that is not the last one. -/
theorem block_next (k : Nat) {bf j : Nat} (hbf : bf < H) (hj : j < 2 ^ H) (hk : k < 2 ^ L) :
    block B L H x w k (bf + 1) (place (2 ^ H) (2 ^ (H - bf - 1)) j) =
        B.sum (block B L H x w k bf j) (block B L H x w k bf (j + 2 ^ H)) ∧
      block B L H x w k (bf + 1) (place (2 ^ H) (2 ^ (H - bf - 1)) j + 2 ^ (H - 1)) =
        B.twist (w (L + bf) (k + 2 ^ L * (j / 2 ^ (H - bf))) (j % 2 ^ (H - bf)))
          (block B L H x w k bf j) (block B L H x w k bf (j + 2 ^ H)) := by
  have hseq : j / 2 ^ (H - bf) < 2 ^ bf := by
    rwa [Nat.div_lt_iff_lt_mul (Nat.two_pow_pos _), Nat.mul_comm, Nat.pow_sub_mul_pow 2 (by omega)]
  have hfreq : k + 2 ^ L * (j / 2 ^ (H - bf)) < 2 ^ (L + bf) := by
    have hle := Nat.mul_le_mul_left (2 ^ L) (Nat.succ_le_of_lt hseq)
    rw [← Nat.pow_add, Nat.mul_succ] at hle
    omega
  have hlow : j % 2 ^ (H - bf - 1) < 2 ^ (H - bf - 1) := Nat.mod_lt _ (Nat.two_pow_pos _)
  have hmod := mod_two_mul (2 ^ (H - bf - 1)) j
  rw [Nat.mul_comm 2, Nat.two_pow_pred_mul_two (by omega)] at hmod
  -- the outputs are the values of the two next sequences at the same offset
  have hat : ∀ b < 2, block B L H x w k (bf + 1) (place (2 ^ H) (2 ^ (H - bf - 1)) j + b * 2 ^ (H - 1)) =
      Dft.values B (L + H + 1) x w (L + bf + 1) (k + 2 ^ L * (j / 2 ^ (H - bf) + b * 2 ^ bf))
        (j % 2 ^ (H - bf)) := by
    intro b hb
    obtain ⟨hdiv, hrest⟩ := place_parts hbf hj hb
    rw [block, hdiv, hrest, ← Nat.sub_sub, Nat.mul_add_div (Nat.two_pow_pos _), Nat.div_eq_of_lt hlow,
      Nat.mul_add_mod, Nat.mod_eq_of_lt hlow, Nat.add_zero, ← hmod]
    rfl
  have hupper := hat 0 (by decide)
  have hlower := hat 1 (by decide)
  simp only [Nat.zero_mul, Nat.add_zero] at hupper
  rw [Nat.one_mul, Nat.one_mul, Nat.mul_add, ← Nat.pow_add, ← Nat.add_assoc] at hlower
  have hhalf : L + H + 1 - (L + bf + 1) = H - bf := by omega
  obtain ⟨hfirst, hsecond⟩ := block_wings B L H x w k bf hj
  rw [hupper, hlower, hfirst, hsecond, Dft.values_sum B _ x w _ hfreq, Dft.values_twist, hhalf]
  exact ⟨rfl, rfl⟩

/-- **The last stage** leaves one value for each frequency. -/
theorem block_last {k j : Nat} (hk : k < 2 ^ L) (hj : j < 2 ^ H) :
    Dft.values B (L + H + 1) x w (L + H + 1) (k + j * 2 ^ L) 0 =
        B.sum (block B L H x w k H j) (block B L H x w k H (j + 2 ^ H)) ∧
      Dft.values B (L + H + 1) x w (L + H + 1) (k + j * 2 ^ L + 2 ^ (L + H)) 0 =
        B.twist (w (L + H) (k + 2 ^ L * j) 0) (block B L H x w k H j) (block B L H x w k H (j + 2 ^ H)) := by
  have hfreq : k + 2 ^ L * j < 2 ^ (L + H) := by
    have hle := Nat.mul_le_mul_left (2 ^ L) (Nat.succ_le_of_lt hj)
    rw [← Nat.pow_add, Nat.mul_succ] at hle
    omega
  obtain ⟨hfirst, hsecond⟩ := block_wings B L H x w k H hj
  rw [Nat.sub_self, Nat.pow_zero, Nat.div_one, Nat.mod_one] at hfirst hsecond
  rw [hfirst, hsecond, Nat.mul_comm j, Dft.values_sum B _ x w _ hfreq, Dft.values_twist, Nat.sub_self,
    Nat.pow_zero]
  exact ⟨rfl, rfl⟩

end Block

end Fft

end CachePool
