import CachePool.Lib.Loop
import CachePool.Rlc.VectorUnit
import Mathlib.Algebra.GroupWithZero.Nat

/-!
# The copy routines of `kernel/data_move_vec.c`

`size_t` is a number here: no routine adds, multiplies or subtracts past its range, as `copied` never passes
`word_count` (`At`, kept by every loop) and no pointer leaves the buffers.

* `scalarMemcpy32_8bit`, `scalarMemcpy32_32bit`, `scalarMemcpy32_32bitUnrolled` — the scalar routines.
* `bigLoop`, `mediumLoop`, `scalarTail`, `asmTail` — the parts that the vector routines are made of.
* `vectorMemcpy32M4Opt`, `vectorMemcpy32M8Opt`, `vectorMemcpy32M4GeneralOpt`, `vectorMemcpy32M8M4GeneralOpt` —
  the vector routines.
* `At` — how far the copy has come; every part is specified by the stretch that it adds.
* `routines_are_memcpy` — every routine ends, and is `memcpy`, for buffers of words; `word_copy_traps` — a
  buffer that is no such thing stops the hart.
-/

set_option autoImplicit false

namespace CachePool

namespace Rlc

namespace DataMove

open Blit Loop

variable (U : VectorUnit) (dst src len : Nat)

/-! ## The scalar routines -/

def scalarMemcpy32_8bit : Prog State := forUp len fun i s => assign s 1 (dst + i) (src + i)

def scalarMemcpy32_32bit : Prog State :=
  seq (forUp (len / 4) fun i s => assign s 4 (dst + 4 * i) (src + 4 * i))
    (forUp (len - len / 4 * 4) fun i s => assign s 1 (dst + 4 * (len / 4) + i) (src + 4 * (len / 4) + i))

/-- A block of four words; both pointers move on. -/
def copyBlock (s : State) : Option State := do
  let s ← assign s 4 (s.d32 + 4 * 0) (s.s32 + 4 * 0)
  let s ← assign s 4 (s.d32 + 4 * 1) (s.s32 + 4 * 1)
  let s ← assign s 4 (s.d32 + 4 * 2) (s.s32 + 4 * 2)
  let s ← assign s 4 (s.d32 + 4 * 3) (s.s32 + 4 * 3)
  return { s with d32 := s.d32 + 4 * 4, s32 := s.s32 + 4 * 4 }

def scalarMemcpy32_32bitUnrolled : Prog State :=
  seq (act fun s => { s with d32 := dst, s32 := src, blocks := len / 4 / 4 }) <|
  seq (whileDo (fun s => decide (s.blocks ≠ 0)) fun s =>
    (copyBlock { s with blocks := s.blocks - 1 }).map .yield) <|
  seq (forUp (len / 4 % 4) fun i s => assign s 4 (s.d32 + 4 * i) (s.s32 + 4 * i)) <|
  seq (act fun s => { s with d32 := s.d32 + 4 * (len / 4 % 4), s32 := s.s32 + 4 * (len / 4 % 4) }) <|
  forUp (len - len / 4 * 4) fun i s => assign s 1 (s.d32 + i) (s.s32 + i)

/-! ## The parts of the vector routines -/

/-- Runs of `ns` groups each, from group `a` on: all loads of a run, then its stores. -/
def bursts (M : Nat) : Nat → List Nat → State → State
  | _, [], s => s
  | a, n :: ns, s =>
    bursts M (a + n) ns
      (vse32s (vle32s U s M (src + 4 * s.copied) (List.range' a n)) M (dst + 4 * s.copied) (List.range' a n))

/-- The loop over the big chunks, of `ns.sum` groups of `M` registers each. -/
def bigLoop (M : Nat) (ns : List Nat) : Prog State :=
  whileDo (fun s => decide (ns.sum * vlmax M ≤ len / 4 - s.copied)) fun s =>
    let s := bursts U dst src M 0 ns (vsetvli U s M (ns.sum * vlmax M))
    some (.yield { s with copied := s.copied + ns.sum * vlmax M })

/-- One strip of the loop over the medium chunks, of `avl` elements. -/
def strip (M avl : Nat) (s : State) : State :=
  let s := vsetvli U s M avl
  let s := vse32 (vle32 U s 0 (src + 4 * s.copied)) 0 (dst + 4 * s.copied)
  { s with copied := s.copied + avl }

def mediumLoop (M : Nat) : Prog State :=
  whileDo (fun s => decide (4 ≤ len / 4 - s.copied)) fun s =>
    let rem := len / 4 - s.copied
    let avl := if rem > vlmax M then vlmax M else rem - rem % 4
    some (if avl = 0 then .done s else .yield (strip U dst src M avl s))

/-- The tail of the first two vector routines: words, then bytes. -/
def scalarTail : Prog State :=
  seq
    (whileDo (fun s => decide (s.copied < len / 4)) fun s =>
      (assign s 4 (dst + 4 * s.copied) (src + 4 * s.copied)).map fun s =>
        .yield { s with copied := s.copied + 1 })
    (forUp (len - len / 4 * 4) fun i s => assign s 1 (dst + 4 * s.copied + i) (src + 4 * s.copied + i))

/-- `n` words through the temporaries. -/
def wordsAt (n : Nat) (s : State) : Option State := do
  let t ← lws s n (src + 4 * s.copied)
  let t ← sws t n (dst + 4 * s.copied)
  return { t with copied := s.copied + n }

/-- `n` bytes through the temporaries. -/
def bytesAt (n : Nat) (s : State) : State := sbs (lbs s n (src + 4 * s.copied)) n (dst + 4 * s.copied)

/-- The `switch` on the words left. -/
def wordTail (s : State) : Option State :=
  match len / 4 - s.copied with
  | 3 => wordsAt dst src 3 s
  | 2 => wordsAt dst src 2 s
  | 1 => wordsAt dst src 1 s
  | _ => some s

/-- The `switch` on the bytes left. -/
def byteTail (s : State) : State :=
  match len - len / 4 * 4 with
  | 3 => bytesAt dst src 3 s
  | 2 => bytesAt dst src 2 s
  | 1 => bytesAt dst src 1 s
  | _ => s

def asmTail : Prog State := seq (attempt (wordTail dst src len)) (act (byteTail dst src len))

/-- The big chunks of the general routines, as many groups at once as there are to fill; the group `j` is used
when `big_chunks > j`. -/
def bigPhase (M bigChunks : Nat) : Prog State :=
  let k := if bigChunks > 32 / M then 32 / M else bigChunks
  if k * vlmax M ≠ 0 then bigLoop U dst src len M [k] else act id

/-! ## The vector routines -/

def start : Prog State := act fun s => { s with copied := 0 }

def vectorMemcpy32M4Opt : Prog State :=
  seq start <| seq (bigLoop U dst src len 4 [8]) <| seq (mediumLoop U dst src len 4) (scalarTail dst src len)

/-- The chunk is four groups too, but the stores of the first two come before the loads of the others. -/
def vectorMemcpy32M8Opt : Prog State :=
  seq start <| seq (bigLoop U dst src len 8 [2, 2]) <|
    seq (mediumLoop U dst src len 8) (scalarTail dst src len)

def vectorMemcpy32M4GeneralOpt : Prog State :=
  seq start <| seq (bigPhase U dst src len 4 (len / 4 / vlmax 4)) <|
    seq (mediumLoop U dst src len 4) (asmTail dst src len)

def vectorMemcpy32M8M4GeneralOpt : Prog State :=
  seq start <| seq (bigPhase U dst src len 8 (len / 4 / vlmax 8)) <|
    seq (bindState fun s => bigPhase U dst src len 4 ((len / 4 - s.copied) / vlmax 4)) <|
    seq (mediumLoop U dst src len 4) (asmTail dst src len)

/-! ## How far the copy has come -/

/-- Neither buffer reaches into the other. -/
def Apart : Prop := dst + len ≤ src ∨ src + len ≤ dst

/-- Both buffers begin at a word. -/
def Aligned : Prop := dst % 4 = 0 ∧ src % 4 = 0

variable {U dst src len} {m₀ : Nat → BitVec 8} {k n w c M : Nat} {s t : State}

/-- The first `k` bytes are copied. -/
def At (dst src : Nat) (m₀ : Nat → BitVec 8) (k : Nat) (s : State) : Prop := s.mem = copy dst src k m₀

theorem At.move (hapart : Apart dst src len) (h : At dst src m₀ k s) (hk : k + n ≤ len)
    (hmem : t.mem = copy (dst + k) (src + k) n s.mem) : At dst src m₀ (k + n) t := by
  unfold At at h ⊢
  unfold Apart at hapart
  rw [hmem, h]
  apply copy_append
  omega

/-- A `for` whose passes copy `w` bytes each.  `I` is about the variables that the addresses are taken from.
-/
theorem total_for {body : Nat → State → Option State} (I : State → Prop) (hapart : Apart dst src len)
    (hk : k + w * n ≤ len)
    (hbody : ∀ i s, I s →
      ∃ t, body i s = some t ∧ I t ∧ t.mem = copy (dst + (k + w * i)) (src + (k + w * i)) w s.mem) :
    Total (fun s => At dst src m₀ k s ∧ I s) (forUp n body) (fun s => At dst src m₀ (k + w * n) s ∧ I s) := by
  apply Total.forUp (fun i s => At dst src m₀ (k + w * i) s ∧ I s)
  rintro i s hi ⟨hat, hI⟩
  obtain ⟨t, hb, hI', hmem⟩ := hbody i s hI
  have hroom : w * i + w ≤ w * n := by
    rw [← Nat.mul_succ]
    exact Nat.mul_le_mul_left w hi
  refine ⟨t, hb, ?_, hI'⟩
  rw [Nat.mul_succ, ← Nat.add_assoc]
  exact hat.move hapart (by omega) hmem

/-! ## The scalar routines are `memcpy` -/

theorem total_8bit (hapart : Apart dst src len) :
    Total (At dst src m₀ 0) (scalarMemcpy32_8bit dst src len) (At dst src m₀ len) := by
  have hfor : Total (fun s => At dst src m₀ 0 s ∧ True) (scalarMemcpy32_8bit dst src len)
      (fun s => At dst src m₀ (0 + 1 * len) s ∧ True) := by
    apply total_for (fun _ => True) hapart (by omega)
    intro i s _
    refine ⟨_, assign_of_aligned (Nat.mod_one _) (Nat.mod_one _), trivial, ?_⟩
    simp
  apply hfor.mono
  · exact fun s hs => ⟨hs, trivial⟩
  · rintro s ⟨hs, -⟩
    simpa using hs

theorem total_32bit (hapart : Apart dst src len) (halign : Aligned dst src) :
    Total (At dst src m₀ 0) (scalarMemcpy32_32bit dst src len) (At dst src m₀ len) := by
  have hwords : Total (fun s => At dst src m₀ 0 s ∧ True)
      (forUp (len / 4) fun i s => assign s 4 (dst + 4 * i) (src + 4 * i))
      (fun s => At dst src m₀ (0 + 4 * (len / 4)) s ∧ True) := by
    apply total_for (fun _ => True) hapart (by omega)
    intro i s _
    obtain ⟨hd, hs⟩ := halign
    exact ⟨_, assign_of_aligned (by omega) (by omega), trivial, by simp⟩
  have hbytes : Total (fun s => At dst src m₀ (0 + 4 * (len / 4)) s ∧ True)
      (forUp (len - len / 4 * 4) fun i s => assign s 1 (dst + 4 * (len / 4) + i) (src + 4 * (len / 4) + i))
      (fun s => At dst src m₀ (0 + 4 * (len / 4) + 1 * (len - len / 4 * 4)) s ∧ True) := by
    apply total_for (fun _ => True) hapart (by omega)
    intro i s _
    exact ⟨_, assign_of_aligned (Nat.mod_one _) (Nat.mod_one _), trivial, by simp [Nat.add_assoc]⟩
  apply (hwords.seq hbytes).mono
  · exact fun s hs => ⟨hs, trivial⟩
  · rintro s ⟨hs, -⟩
    have hlen : 0 + 4 * (len / 4) + 1 * (len - len / 4 * 4) = len := by omega
    rwa [hlen] at hs

/-- The pointers of the unrolled routine have passed `k` bytes. -/
def Pointers (dst src k : Nat) (s : State) : Prop := s.d32 = dst + k ∧ s.s32 = src + k

/-- The assignment of the word that is `j` bytes behind the pointers. -/
theorem assign_word (hapart : Apart dst src len) (halign : Aligned dst src) (h : At dst src m₀ (k + n) s)
    (hp : Pointers dst src k s) (hk4 : (k + n) % 4 = 0) (hk : k + n + 4 ≤ len) :
    ∃ t, assign s 4 (s.d32 + n) (s.s32 + n) = some t ∧ At dst src m₀ (k + n + 4) t ∧
      Pointers dst src k t ∧ t.blocks = s.blocks := by
  obtain ⟨hd, hs⟩ := hp
  obtain ⟨hdst, hsrc⟩ := halign
  rw [hd, hs, Nat.add_assoc, Nat.add_assoc]
  exact ⟨_, assign_of_aligned (by omega) (by omega), h.move hapart hk rfl, ⟨hd, hs⟩, rfl⟩

theorem copyBlock_at (hapart : Apart dst src len) (halign : Aligned dst src) (h : At dst src m₀ k s)
    (hp : Pointers dst src k s) (hk4 : k % 4 = 0) (hk : k + 16 ≤ len) :
    ∃ t, copyBlock s = some t ∧ At dst src m₀ (k + 16) t ∧ Pointers dst src (k + 16) t ∧
      t.blocks = s.blocks := by
  obtain ⟨s₁, he₁, h₁, hp₁, hb₁⟩ :=
    assign_word (k := k) (n := 4 * 0) hapart halign h hp (by omega) (by omega)
  obtain ⟨s₂, he₂, h₂, hp₂, hb₂⟩ :=
    assign_word (k := k) (n := 4 * 1) hapart halign h₁ hp₁ (by omega) (by omega)
  obtain ⟨s₃, he₃, h₃, hp₃, hb₃⟩ :=
    assign_word (k := k) (n := 4 * 2) hapart halign h₂ hp₂ (by omega) (by omega)
  obtain ⟨s₄, he₄, h₄, ⟨hd, hs⟩, hb₄⟩ :=
    assign_word (k := k) (n := 4 * 3) hapart halign h₃ hp₃ (by omega) (by omega)
  refine ⟨{ s₄ with d32 := s₄.d32 + 4 * 4, s32 := s₄.s32 + 4 * 4 }, ?_, h₄, ⟨?_, ?_⟩, ?_⟩
  · simp only [copyBlock, he₁, he₂, he₃, he₄, Option.bind_eq_bind, Option.bind_some]
    rfl
  · change s₄.d32 + 4 * 4 = dst + (k + 16)
    omega
  · change s₄.s32 + 4 * 4 = src + (k + 16)
    omega
  · change s₄.blocks = s.blocks
    rw [hb₄, hb₃, hb₂, hb₁]

theorem total_unrolled (hapart : Apart dst src len) (halign : Aligned dst src) :
    Total (At dst src m₀ 0) (scalarMemcpy32_32bitUnrolled dst src len) (At dst src m₀ len) := by
  let blocks := len / 4 / 4
  let rem := len / 4 % 4
  -- 1) the blocks
  have hstart : Total (At dst src m₀ 0) (act fun s => { s with d32 := dst, s32 := src, blocks := blocks })
      (fun s => ∃ k, k + 16 * s.blocks = 16 * blocks ∧ At dst src m₀ k s ∧ Pointers dst src k s) :=
    Total.act fun s hs => ⟨0, Nat.zero_add _, hs, rfl, rfl⟩
  have hblocks : Total
      (fun s => ∃ k, k + 16 * s.blocks = 16 * blocks ∧ At dst src m₀ k s ∧ Pointers dst src k s)
      (whileDo (fun s => decide (s.blocks ≠ 0)) fun s =>
        (copyBlock { s with blocks := s.blocks - 1 }).map .yield)
      (fun s => At dst src m₀ (16 * blocks) s ∧ Pointers dst src (16 * blocks) s) := by
    apply Total.whileDo State.blocks
    · rintro s ⟨k, hk, hat, hp⟩ hc
      have hne : s.blocks ≠ 0 := by simpa using hc
      have hroom : k + 16 ≤ len := by omega
      obtain ⟨t, hb, hat', hp', hleft⟩ :=
        copyBlock_at (s := { s with blocks := s.blocks - 1 }) hapart halign hat hp (by omega) hroom
      replace hleft : t.blocks = s.blocks - 1 := hleft
      exact Or.inl ⟨t, by simp [hb], ⟨k + 16, by omega, hat', hp'⟩, by omega⟩
    · rintro s ⟨k, hk, hat, hp⟩ hc
      have hzero : s.blocks = 0 := by simpa using hc
      have hk' : k = 16 * blocks := by omega
      exact hk' ▸ ⟨hat, hp⟩
  -- 2) the words that are left
  have hwords : Total (fun s => At dst src m₀ (16 * blocks) s ∧ Pointers dst src (16 * blocks) s)
      (forUp rem fun i s => assign s 4 (s.d32 + 4 * i) (s.s32 + 4 * i))
      (fun s => At dst src m₀ (16 * blocks + 4 * rem) s ∧ Pointers dst src (16 * blocks) s) := by
    apply total_for (Pointers dst src (16 * blocks)) hapart (by omega)
    rintro i s ⟨hd, hs⟩
    obtain ⟨hdst, hsrc⟩ := halign
    exact ⟨_, assign_of_aligned (by omega) (by omega), ⟨hd, hs⟩, by simp [hd, hs, Nat.add_assoc]⟩
  have hadvance : Total (fun s => At dst src m₀ (16 * blocks + 4 * rem) s ∧ Pointers dst src (16 * blocks) s)
      (act fun s => { s with d32 := s.d32 + 4 * rem, s32 := s.s32 + 4 * rem })
      (fun s => At dst src m₀ (16 * blocks + 4 * rem) s ∧ Pointers dst src (16 * blocks + 4 * rem) s) := by
    apply Total.act
    rintro s ⟨hat, hd, hs⟩
    refine ⟨hat, ?_, ?_⟩
    · change s.d32 + 4 * rem = dst + (16 * blocks + 4 * rem)
      omega
    · change s.s32 + 4 * rem = src + (16 * blocks + 4 * rem)
      omega
  -- 3) the bytes that are left
  have hbytes : Total (fun s => At dst src m₀ (16 * blocks + 4 * rem) s ∧
        Pointers dst src (16 * blocks + 4 * rem) s)
      (forUp (len - len / 4 * 4) fun i s => assign s 1 (s.d32 + i) (s.s32 + i))
      (fun s => At dst src m₀ (16 * blocks + 4 * rem + 1 * (len - len / 4 * 4)) s ∧
        Pointers dst src (16 * blocks + 4 * rem) s) := by
    apply total_for (Pointers dst src (16 * blocks + 4 * rem)) hapart (by omega)
    rintro i s ⟨hd, hs⟩
    exact ⟨_, assign_of_aligned (Nat.mod_one _) (Nat.mod_one _), ⟨hd, hs⟩, by simp [hd, hs, Nat.add_assoc]⟩
  have hlen : 16 * blocks + 4 * rem + 1 * (len - len / 4 * 4) = len := by omega
  apply (hstart.seq (hblocks.seq (hwords.seq (hadvance.seq hbytes)))).mono
  · exact fun s hs => hs
  · rintro s ⟨hs, -⟩
    rwa [hlen] at hs

/-! ## The parts of the vector routines -/

/-- The words that `copied` counts are copied, and they are words of the buffer. -/
def Copied (dst src len : Nat) (m₀ : Nat → BitVec 8) (s : State) : Prop :=
  At dst src m₀ (4 * s.copied) s ∧ s.copied ≤ len / 4

theorem bursts_at (hapart : Apart dst src len) {ns : List Nat} {a : Nat} (hl : s.lmul = M)
    (hv : s.vl = vlmax M) (hat : At dst src m₀ (4 * s.copied + 64 * M * a) s)
    (hk : 4 * s.copied + 64 * M * (a + ns.sum) ≤ len) :
    At dst src m₀ (4 * s.copied + 64 * M * (a + ns.sum)) (bursts U dst src M a ns s) ∧
      (bursts U dst src M a ns s).copied = s.copied := by
  induction ns generalizing a s with
  | nil => exact ⟨hat, rfl⟩
  | cons n ns ih =>
    rw [List.sum_cons, ← Nat.add_assoc] at hk ⊢
    obtain ⟨⟨v, x, l, hload⟩, -⟩ :=
      vle32s_loaded U (src + 4 * s.copied) (List.range' a n) hl hv
    have hmem := burst_mem U (src + 4 * s.copied) (dst + 4 * s.copied) a n hl hv
    rw [hload] at hmem
    obtain ⟨⟨m, l', hstore⟩, -⟩ := vse32s_stored (M := M)
      { s with vreg := v, treg := x, reads := l } (dst + 4 * s.copied) (List.range' a n) hv
    rw [hstore] at hmem
    unfold bursts
    rw [hload, hstore]
    have hrun : 64 * M * (a + n) = 64 * M * a + 64 * M * n := Nat.mul_add _ _ _
    have hrest : 64 * M * (a + n) ≤ 64 * M * (a + n + ns.sum) := Nat.mul_le_mul_left _ (Nat.le_add_right _ _)
    have hat' : At dst src m₀ (4 * s.copied + 64 * M * (a + n))
        { s with vreg := v, treg := x, reads := l, mem := m, writes := l' } := by
      rw [hrun, ← Nat.add_assoc]
      exact hat.move hapart (by omega) (by simpa [Nat.add_assoc] using hmem)
    exact ih hl hv hat' hk

/-- The vector length of a big chunk of `n` groups: one group, exactly, or at least two. -/
theorem vl_chunk (n : Nat) (hn : n ≠ 0) : U.vsetvl (n * vlmax M) (vlmax M) = vlmax M := by
  by_cases hone : n = 1
  · rw [hone, Nat.one_mul]
    exact U.vsetvl_of_le _ _ (Nat.le_refl _)
  · apply U.vsetvl_of_ge
    exact Nat.mul_le_mul_right _ (by omega)

theorem total_bigLoop (hapart : Apart dst src len) {ns : List Nat} (hM : M ≠ 0) (hns : ns.sum ≠ 0) :
    Total (Copied dst src len m₀) (bigLoop U dst src len M ns) (Copied dst src len m₀) := by
  have hmax := vlmax_bytes M
  have hpos : 0 < ns.sum * vlmax M := Nat.mul_pos (by omega) (by omega)
  apply Total.whileDo (fun s => len / 4 - s.copied)
  · rintro s ⟨hat, hle⟩ hc
    have hroom : ns.sum * vlmax M ≤ len / 4 - s.copied := by simpa using hc
    have hbytes : 4 * (ns.sum * vlmax M) = 64 * M * ns.sum := place_eq M ns.sum
    let t := vsetvli U s M (ns.sum * vlmax M)
    have hat' : At dst src m₀ (4 * t.copied + 64 * M * 0) t := by
      rw [Nat.mul_zero]
      exact hat
    have hfit : 4 * t.copied + 64 * M * (0 + ns.sum) ≤ len := by
      change 4 * s.copied + 64 * M * (0 + ns.sum) ≤ len
      rw [Nat.zero_add]
      omega
    obtain ⟨hdone, hcopied⟩ := bursts_at (U := U) hapart (rfl : t.lmul = M) (vl_chunk ns.sum hns) hat' hfit
    have hcopied' : (bursts U dst src M 0 ns t).copied = s.copied := hcopied
    refine Or.inl ⟨_, rfl, ⟨?_, ?_⟩, ?_⟩
    · change At dst src m₀ (4 * ((bursts U dst src M 0 ns t).copied + ns.sum * vlmax M)) _
      have hnow : 4 * (s.copied + ns.sum * vlmax M) = 4 * t.copied + 64 * M * (0 + ns.sum) := by
        rw [Nat.zero_add, Nat.mul_add, hbytes]
        rfl
      rw [hcopied', hnow]
      exact hdone
    · change (bursts U dst src M 0 ns t).copied + ns.sum * vlmax M ≤ len / 4
      omega
    · change len / 4 - ((bursts U dst src M 0 ns t).copied + ns.sum * vlmax M) < len / 4 - s.copied
      omega
  · exact fun s hs _ => hs

theorem total_bigPhase (hapart : Apart dst src len) (hM : M ≠ 0) (bigChunks : Nat) :
    Total (Copied dst src len m₀) (bigPhase U dst src len M bigChunks) (Copied dst src len m₀) := by
  unfold bigPhase
  generalize (if bigChunks > 32 / M then 32 / M else bigChunks) = k
  by_cases hk : k * vlmax M ≠ 0
  · have hsum : [k].sum ≠ 0 := by
      rw [List.sum_singleton]
      exact Nat.ne_zero_of_mul_ne_zero_left hk
    simp only [hk, ne_eq, not_false_eq_true, if_true]
    exact total_bigLoop hapart hM hsum
  · simp only [hk, if_false]
    exact Total.act fun s hs => hs

theorem total_mediumLoop (hapart : Apart dst src len) (hM : M ≠ 0) :
    Total (Copied dst src len m₀) (mediumLoop U dst src len M)
      (fun s => Copied dst src len m₀ s ∧ len / 4 - s.copied < 4) := by
  have hmax := vlmax_bytes M
  apply Total.whileDo (fun s => len / 4 - s.copied)
  · rintro s ⟨hat, hle⟩ hc
    have hmore : 4 ≤ len / 4 - s.copied := by simpa using hc
    let avl := if len / 4 - s.copied > vlmax M then vlmax M else len / 4 - s.copied - (len / 4 - s.copied) % 4
    have havl : avl ≠ 0 ∧ avl ≤ vlmax M ∧ avl ≤ len / 4 - s.copied := by
      dsimp only [avl]
      split <;> omega
    have hbody : some (if avl = 0 then ForInStep.done s else .yield (strip U dst src M avl s)) =
        some (.yield (strip U dst src M avl s)) := congrArg some (if_neg havl.1)
    have hmem : (strip U dst src M avl s).mem =
        copy (dst + 4 * s.copied) (src + 4 * s.copied) (4 * avl) s.mem := by
      have hvl : U.vsetvl avl (vlmax M) = avl := U.vsetvl_of_le _ _ havl.2.1
      have hstrip := strip_mem U (vsetvli U s M avl) 0 (src + 4 * s.copied) (dst + 4 * s.copied)
      unfold vsetvli at hstrip
      rw [hvl] at hstrip
      unfold strip vsetvli
      rw [hvl]
      exact hstrip
    have hat' : At dst src m₀ (4 * s.copied + 4 * avl) (strip U dst src M avl s) :=
      hat.move hapart (by omega) hmem
    refine Or.inl ⟨_, hbody, ⟨?_, ?_⟩, ?_⟩
    · rw [← Nat.mul_add] at hat'
      exact hat'
    · change s.copied + avl ≤ len / 4
      omega
    · change len / 4 - (s.copied + avl) < len / 4 - s.copied
      omega
  · intro s hs hc
    have hless : ¬ 4 ≤ len / 4 - s.copied := by simpa using hc
    exact ⟨hs, by omega⟩

theorem total_scalarTail (hapart : Apart dst src len) (halign : Aligned dst src) :
    Total (Copied dst src len m₀) (scalarTail dst src len) (At dst src m₀ len) := by
  have hwords : Total (Copied dst src len m₀)
      (whileDo (fun s => decide (s.copied < len / 4)) fun s =>
        (assign s 4 (dst + 4 * s.copied) (src + 4 * s.copied)).map fun s =>
          .yield { s with copied := s.copied + 1 })
      (fun s => At dst src m₀ (4 * (len / 4)) s ∧ s.copied = len / 4) := by
    apply Total.whileDo (fun s => len / 4 - s.copied)
    · rintro s ⟨hat, hle⟩ hc
      have hlt : s.copied < len / 4 := by simpa using hc
      obtain ⟨hdst, hsrc⟩ := halign
      have hsrc' : (src + 4 * s.copied) % 4 = 0 := by omega
      have hdst' : (dst + 4 * s.copied) % 4 = 0 := by omega
      have hroom : 4 * s.copied + 4 ≤ len := by omega
      have hlow : len / 4 - (s.copied + 1) < len / 4 - s.copied := by omega
      rw [assign_of_aligned hsrc' hdst']
      exact Or.inl ⟨_, rfl, ⟨hat.move hapart hroom rfl, hlt⟩, hlow⟩
    · rintro s ⟨hat, hle⟩ hc
      have hge : ¬ s.copied < len / 4 := by simpa using hc
      have heq : s.copied = len / 4 := by omega
      exact ⟨heq ▸ hat, heq⟩
  have hbytes : Total (fun s => At dst src m₀ (4 * (len / 4)) s ∧ s.copied = len / 4)
      (forUp (len - len / 4 * 4) fun i s => assign s 1 (dst + 4 * s.copied + i) (src + 4 * s.copied + i))
      (fun s => At dst src m₀ (4 * (len / 4) + 1 * (len - len / 4 * 4)) s ∧ s.copied = len / 4) := by
    apply total_for (fun s => s.copied = len / 4) hapart (by omega)
    intro i s hs
    exact ⟨_, assign_of_aligned (Nat.mod_one _) (Nat.mod_one _), hs, by simp [hs, Nat.add_assoc]⟩
  apply (hwords.seq hbytes).mono
  · exact fun s hs => hs
  · rintro s ⟨hs, -⟩
    have hlen : 4 * (len / 4) + 1 * (len - len / 4 * 4) = len := by omega
    rwa [hlen] at hs

theorem wordsAt_copied (hapart : Apart dst src len) (halign : Aligned dst src) (h : Copied dst src len m₀ s)
    (hn : len / 4 - s.copied = n) :
    ∃ t, wordsAt dst src n s = some t ∧ At dst src m₀ (4 * (len / 4)) t ∧ t.copied = len / 4 := by
  obtain ⟨hat, hle⟩ := h
  obtain ⟨hdst, hsrc⟩ := halign
  have hsrc' : (src + 4 * s.copied) % 4 = 0 := by omega
  have hdst' : (dst + 4 * s.copied) % 4 = 0 := by omega
  obtain ⟨t, u, hload, hstore, hmem⟩ := words_mem s n hsrc' hdst'
  have hat' : At dst src m₀ (4 * s.copied + 4 * n) { u with copied := s.copied + n } :=
    hat.move hapart (by omega) hmem
  have hall : 4 * s.copied + 4 * n = 4 * (len / 4) := by omega
  refine ⟨_, ?_, hall ▸ hat', ?_⟩
  · simp only [wordsAt, hload, hstore, Option.bind_eq_bind, Option.bind_some]
    rfl
  · change s.copied + n = len / 4
    omega

theorem wordTail_copied (hapart : Apart dst src len) (halign : Aligned dst src) (h : Copied dst src len m₀ s)
    (hfew : len / 4 - s.copied < 4) :
    ∃ t, wordTail dst src len s = some t ∧ At dst src m₀ (4 * (len / 4)) t ∧ t.copied = len / 4 := by
  unfold wordTail
  split
  · exact wordsAt_copied hapart halign h ‹_›
  · exact wordsAt_copied hapart halign h ‹_›
  · exact wordsAt_copied hapart halign h ‹_›
  next h₃ h₂ h₁ =>
    -- no word is left
    replace h₃ : len / 4 - s.copied ≠ 3 := h₃
    replace h₂ : len / 4 - s.copied ≠ 2 := h₂
    replace h₁ : len / 4 - s.copied ≠ 1 := h₁
    have hnone : s.copied = len / 4 := by
      have := h.2
      omega
    exact ⟨s, rfl, hnone ▸ h.1, hnone⟩

theorem bytesAt_at (hapart : Apart dst src len) (h : At dst src m₀ (4 * (len / 4)) s)
    (hs : s.copied = len / 4) (hn : len - len / 4 * 4 = n) : At dst src m₀ len (bytesAt dst src n s) := by
  have hmem : (bytesAt dst src n s).mem = copy (dst + 4 * (len / 4)) (src + 4 * (len / 4)) n s.mem := by
    unfold bytesAt
    rw [hs]
    exact bytes_mem n
  have hat' := h.move hapart (by omega) hmem
  have hall : 4 * (len / 4) + n = len := by omega
  exact hall ▸ hat'

theorem byteTail_at (hapart : Apart dst src len) (h : At dst src m₀ (4 * (len / 4)) s)
    (hs : s.copied = len / 4) : At dst src m₀ len (byteTail dst src len s) := by
  unfold byteTail
  split
  · exact bytesAt_at hapart h hs ‹_›
  · exact bytesAt_at hapart h hs ‹_›
  · exact bytesAt_at hapart h hs ‹_›
  next h₃ h₂ h₁ =>
    -- no byte is left
    replace h₃ : len - len / 4 * 4 ≠ 3 := h₃
    replace h₂ : len - len / 4 * 4 ≠ 2 := h₂
    replace h₁ : len - len / 4 * 4 ≠ 1 := h₁
    have hall : 4 * (len / 4) = len := by omega
    rwa [hall] at h

theorem total_asmTail (hapart : Apart dst src len) (halign : Aligned dst src) :
    Total (fun s => Copied dst src len m₀ s ∧ len / 4 - s.copied < 4) (asmTail dst src len)
      (At dst src m₀ len) := by
  have hwords : Total (fun s => Copied dst src len m₀ s ∧ len / 4 - s.copied < 4)
      (attempt (wordTail dst src len)) (fun s => At dst src m₀ (4 * (len / 4)) s ∧ s.copied = len / 4) :=
    Total.attempt fun s hs => wordTail_copied hapart halign hs.1 hs.2
  have hbytes : Total (fun s => At dst src m₀ (4 * (len / 4)) s ∧ s.copied = len / 4)
      (act (byteTail dst src len)) (At dst src m₀ len) :=
    Total.act fun s hs => byteTail_at hapart hs.1 hs.2
  exact hwords.seq hbytes

/-! ## The vector routines are `memcpy` -/

theorem total_start : Total (At dst src m₀ 0) start (Copied dst src len m₀) :=
  Total.act fun _ hs => ⟨hs, Nat.zero_le _⟩

theorem total_opt (hapart : Apart dst src len) (halign : Aligned dst src) (hM : M ≠ 0) {ns : List Nat}
    (hns : ns.sum ≠ 0) :
    Total (At dst src m₀ 0)
      (seq start <| seq (bigLoop U dst src len M ns) <|
        seq (mediumLoop U dst src len M) (scalarTail dst src len))
      (At dst src m₀ len) := by
  have hmedium : Total (Copied dst src len m₀) (mediumLoop U dst src len M) (Copied dst src len m₀) :=
    (total_mediumLoop hapart hM).mono (fun _ hs => hs) (fun _ hs => hs.1)
  exact total_start.seq ((total_bigLoop hapart hM hns).seq (hmedium.seq (total_scalarTail hapart halign)))

theorem total_rest (hapart : Apart dst src len) (halign : Aligned dst src) :
    Total (Copied dst src len m₀) (seq (mediumLoop U dst src len 4) (asmTail dst src len))
      (At dst src m₀ len) :=
  (total_mediumLoop hapart (Nat.succ_ne_zero 3)).seq (total_asmTail hapart halign)

theorem total_m4General (hapart : Apart dst src len) (halign : Aligned dst src) :
    Total (At dst src m₀ 0) (vectorMemcpy32M4GeneralOpt U dst src len) (At dst src m₀ len) :=
  total_start.seq ((total_bigPhase hapart (Nat.succ_ne_zero 3) _).seq (total_rest hapart halign))

theorem total_m8M4General (hapart : Apart dst src len) (halign : Aligned dst src) :
    Total (At dst src m₀ 0) (vectorMemcpy32M8M4GeneralOpt U dst src len) (At dst src m₀ len) := by
  have hsecond : Total (Copied dst src len m₀)
      (bindState fun s => bigPhase U dst src len 4 ((len / 4 - s.copied) / vlmax 4))
        (Copied dst src len m₀) :=
    Total.bindState fun s _ => total_bigPhase hapart (Nat.succ_ne_zero 3) _
  exact total_start.seq
    ((total_bigPhase hapart (Nat.succ_ne_zero 7) _).seq (hsecond.seq (total_rest hapart halign)))

/-- The general copy routines of the file. -/
inductive Routine where
  | scalar8bit
  | scalar32bit
  | scalar32bitUnrolled
  | m4
  | m8
  | m4General
  | m8M4General

def Routine.code (U : VectorUnit) : Routine → Nat → Nat → Nat → Prog State
  | .scalar8bit => scalarMemcpy32_8bit
  | .scalar32bit => scalarMemcpy32_32bit
  | .scalar32bitUnrolled => scalarMemcpy32_32bitUnrolled
  | .m4 => vectorMemcpy32M4Opt U
  | .m8 => vectorMemcpy32M8Opt U
  | .m4General => vectorMemcpy32M4GeneralOpt U
  | .m8M4General => vectorMemcpy32M8M4GeneralOpt U

theorem total_code (r : Routine) (hapart : Apart dst src len) (halign : r ≠ .scalar8bit → Aligned dst src) :
    Total (At dst src m₀ 0) (r.code U dst src len) (At dst src m₀ len) := by
  cases r with
  | scalar8bit => exact total_8bit hapart
  | scalar32bit => exact total_32bit hapart (halign nofun)
  | scalar32bitUnrolled => exact total_unrolled hapart (halign nofun)
  | m4 => exact total_opt hapart (halign nofun) (Nat.succ_ne_zero 3) (Nat.succ_ne_zero 7)
  | m8 => exact total_opt hapart (halign nofun) (Nat.succ_ne_zero 7) (Nat.succ_ne_zero 3)
  | m4General => exact total_m4General hapart (halign nofun)
  | m8M4General => exact total_m8M4General hapart (halign nofun)

/-- With enough fuel every routine ends, with the destination a copy of the source and all else as it was; the
buffers begin at a word, unless the routine copies bytes only. -/
theorem routines_are_memcpy (U : VectorUnit) (r : Routine) (dst src len : Nat) (hapart : Apart dst src len)
    (halign : r ≠ .scalar8bit → Aligned dst src) (s : State) :
    ∃ s', Ends (r.code U dst src len) s s' ∧
      (∀ i, i < len → s'.mem (dst + i) = s.mem (src + i)) ∧
      ∀ a, a < dst ∨ dst + len ≤ a → s'.mem a = s.mem a := by
  have hat : At dst src s.mem 0 s := by
    unfold At copy
    rw [blit_zero]
  obtain ⟨s', hends, hmem⟩ := total_code (U := U) r hapart halign s hat
  unfold At copy at hmem
  refine ⟨s', hends, fun i hi => ?_, fun a ha => ?_⟩
  · rw [hmem]
    exact blit_add hi
  · rw [hmem]
    exact blit_of_not_mem ha

theorem routines_are_memcpy_m8M4 :
    ∃ s', Ends (Routine.m8M4General.code spatz 8192 4096 1363) fresh s' ∧
      (∀ i, i < 1363 → s'.mem (8192 + i) = fresh.mem (4096 + i)) ∧
      ∀ a, a < 8192 ∨ 8192 + 1363 ≤ a → s'.mem a = fresh.mem a :=
  routines_are_memcpy spatz .m8M4General 8192 4096 1363 (Or.inr (by decide)) (fun _ => ⟨by decide, by decide⟩)
    fresh

/-- One word to an address that is no word's: the store does not come back. -/
theorem word_copy_traps :
    Apart 8193 4096 4 ∧ ¬ ∃ s', Ends (Routine.scalar32bit.code spatz 8193 4096 4) fresh s' := by
  refine ⟨Or.inr (by decide), ?_⟩
  rintro ⟨s', n, hn⟩
  have hend := hn (n + 1) (Nat.le_succ n)
  revert hend
  simp [Routine.code, scalarMemcpy32_32bit, seq, forUp, whileDo, assign]

end DataMove

end Rlc

end CachePool
